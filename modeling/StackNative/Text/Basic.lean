/-!
# Text as bytes

A text is the sequence of its bytes.  Sources, names and messages may hold
bytes that are not UTF-8, so nothing here assumes that they decode.

**Input.** Numbers and texts.
**Results.** Decimal and hexadecimal numerals, padding to a width, joining.
-/

namespace StackNative

/-- A text is the sequence of its bytes; UTF-8 is a convention it may break. -/
abbrev Text := List UInt8

namespace Text

/-- The UTF-8 bytes of a string. -/
def ofString (s : String) : Text := s.toUTF8.data.toList

instance : Coe String Text := ⟨ofString⟩

section Numerals

/-- The decimal numeral of a natural number. -/
def ofNat (n : Nat) : Text :=
  (Nat.toDigits 10 n).map fun c => c.toNat.toUInt8

/-- The decimal numeral of an integer, with a minus sign below zero. -/
def ofInt : Int → Text
  | .ofNat n => ofNat n
  | .negSucc n => 0x2d :: ofNat (n + 1)

/-- The lower-case hexadecimal numeral of a natural number. -/
def hexOfNat (n : Nat) : Text :=
  (Nat.toDigits 16 n).map fun c => c.toNat.toUInt8

end Numerals

section Width

/-- Fills on the left up to a width. -/
def padLeft (width : Nat) (fill : UInt8) (t : Text) : Text :=
  List.replicate (width - t.length) fill ++ t

/-- Fills on the right up to a width. -/
def padRight (width : Nat) (fill : UInt8) (t : Text) : Text :=
  t ++ List.replicate (width - t.length) fill

/-- A hexadecimal numeral with leading zeros up to a width. -/
def hexPadded (width n : Nat) : Text := padLeft width 0x30 (hexOfNat n)

end Width

/-- The texts in order with a separator between neighbours. -/
def join (separator : Text) (parts : List Text) : Text :=
  separator.intercalate parts

/-- The text with an upper-case ASCII letter replaced by its lower-case one. -/
def lowerAscii (t : Text) : Text :=
  t.map fun b => if 0x41 ≤ b && b ≤ 0x5a then b + 0x20 else b

/-- The order of texts by their first differing byte, a shorter text before its extensions. -/
def le : Text → Text → Bool
  | [], _ => true
  | _ :: _, [] => false
  | a :: as, b :: bs => a < b || (a == b && le as bs)

/-- Cuts a text at every occurrence of a byte. -/
def splitOn (separator : UInt8) (t : Text) : List Text :=
  List.splitOn separator t

end Text

end StackNative
