import StackNative.Text.Basic

/-!
# Numbers as bytes
-/

namespace StackNative
namespace Text

/-- The lowest `count` bytes of a number, the lowest first. -/
def littleEndian (count n : Nat) : Text :=
  (List.range count).map fun i => (n / Nat.pow 256 i).toUInt8

/-- The lowest `count` bytes of a number, the lowest last. -/
def bigEndian (count n : Nat) : Text :=
  (List.range count).map fun i => (n / Nat.pow 256 (count - 1 - i)).toUInt8

end Text
end StackNative
