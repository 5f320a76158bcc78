import StackNative.Text.Utf8
import StackNative.Text.Printable

/-!
# Quoted texts

**Input.** A text, or a single byte read as the character of its number.
**Algorithm.** Printable characters stand for themselves; the quote and the
backslash take a backslash; other characters and stray bytes are escaped.
**Results.** `quoted` in double quotes, `quotedByte` in single quotes.
-/

namespace StackNative
namespace Text

/-- The letter of a short escape. -/
def shortEscape (c : Char) : Option UInt8 :=
  match c.toNat with
  | 0x07 => some 0x61
  | 0x08 => some 0x62
  | 0x0c => some 0x66
  | 0x0a => some 0x6e
  | 0x0d => some 0x72
  | 0x09 => some 0x74
  | 0x0b => some 0x76
  | _ => none

/-- A byte as `\x` and two hexadecimal digits. -/
def byteEscape (n : Nat) : Text := "\\x" ++ hexPadded 2 n

/-- A character inside quotes of the given kind. -/
def quotedChar (quote : Char) (c : Char) : Text :=
  if c == quote || c == '\\' then 0x5c :: String.utf8EncodeChar c
  else if isPrintable c then String.utf8EncodeChar c
  else match shortEscape c with
    | some letter => [0x5c, letter]
    | none =>
      let n := c.toNat
      if n < 0x20 || n == 0x7f then byteEscape n
      else if n < 0x10000 then "\\u" ++ hexPadded 4 n
      else "\\U" ++ hexPadded 8 n

/-- A text in double quotes. -/
def quoted (t : Text) : Text :=
  let body := (pieces t).flatMap fun
    | .scalar c => quotedChar '"' c
    | .stray b => byteEscape b.toNat
  "\"" ++ body ++ "\""

/-- The character with the number of a byte, in single quotes. -/
def quotedByte (b : UInt8) : Text :=
  "'" ++ quotedChar '\'' (Char.ofNat b.toNat) ++ "'"

/-- The character with the number of a byte. -/
def charOfByte (b : UInt8) : Text := String.utf8EncodeChar (Char.ofNat b.toNat)

end Text
end StackNative
