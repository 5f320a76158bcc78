import StackNative.Text.Utf8

/-!
# White space around a text
-/

namespace StackNative
namespace Text

/-- The characters with the property White_Space. -/
def isBlank (c : Char) : Bool :=
  let n := c.toNat
  (0x9 ≤ n && n ≤ 0xd) || n == 0x20 || n == 0x85 || n == 0xa0 || n == 0x1680 ||
  (0x2000 ≤ n && n ≤ 0x200a) || n == 0x2028 || n == 0x2029 || n == 0x202f ||
  n == 0x205f || n == 0x3000

/-- A unit that is white space; a stray byte is not. -/
def Piece.isBlank : Piece → Bool
  | .scalar c => Text.isBlank c
  | .stray _ => false

/-- Drops white space at both ends. -/
def trim (t : Text) : Text :=
  let front := (pieces t).dropWhile Piece.isBlank
  ofPieces (front.reverse.dropWhile Piece.isBlank).reverse

end Text
end StackNative
