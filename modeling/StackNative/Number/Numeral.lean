import StackNative.Number.Binary64
import StackNative.Text.Basic

/-!
# Reading numerals

**Input.** The text of a numeral.
**Algorithm.** Underscores are checked by one rule for all numerals and then
dropped; integers take a base from their first characters, fractions are
decimal and are rounded once, from their exact value.
**Results.** `readInt64?` and `readBinary64?`, which refuse what is malformed or
too large.
-/

namespace StackNative
namespace Numeral

section Underscores

/-- A byte of a decimal numeral. -/
def isDigit (b : UInt8) : Bool := 0x30 ≤ b && b ≤ 0x39

/-- An ASCII letter in lower case. -/
def lowerByte (b : UInt8) : UInt8 := if 0x41 ≤ b && b ≤ 0x5a then b + 0x20 else b

/-- What stands before a byte, as far as underscores care. -/
inductive Before where
  | start
  | digit
  | underscore
  | other
  deriving DecidableEq

/-- Each underscore stands after a digit and before a digit. -/
def underscoresBetween (hex : Bool) : Before → Text → Bool
  | before, [] => before != .underscore
  | before, b :: rest =>
    if isDigit b || (hex && 0x61 ≤ lowerByte b && lowerByte b ≤ 0x66) then
      underscoresBetween hex .digit rest
    else if b == 0x5f then before == .digit && underscoresBetween hex .underscore rest
    else before != .underscore && underscoresBetween hex .other rest

/-- Drops one sign. -/
def dropSign : Text → Text
  | [] => []
  | b :: rest => if b == 0x2d || b == 0x2b then rest else b :: rest

/-- The underscores of a numeral stand between digits; the mark of a base counts as a digit. -/
def underscoresAllowed (t : Text) : Bool :=
  let unsigned := dropSign t
  match unsigned with
  | 0x30 :: mark :: rest =>
    let m := lowerByte mark
    if m == 0x62 || m == 0x6f || m == 0x78 then underscoresBetween (m == 0x78) .digit rest
    else underscoresBetween false .start unsigned
  | _ => underscoresBetween false .start unsigned

end Underscores

section Integers

/-- The value of a digit in bases up to thirty-six. -/
def digitValue? (b : UInt8) : Option Nat :=
  let l := lowerByte b
  if isDigit b then some (b.toNat - 0x30)
  else if 0x61 ≤ l && l ≤ 0x7a then some (l.toNat - 0x61 + 10)
  else none

/-- The value of digits in a base, underscores left out. -/
def digitsValue? (base : Nat) : Nat → Text → Option Nat
  | n, [] => some n
  | n, b :: rest =>
    if b == 0x5f then digitsValue? base n rest
    else match digitValue? b with
      | some d => if d < base then digitsValue? base (n * base + d) rest else none
      | none => none

/-- The base that the first characters of a numeral name, and the digits after them. -/
def splitBase : Text → Nat × Text
  | 0x30 :: mark :: digit :: rest =>
    match lowerByte mark with
    | 0x62 => (2, digit :: rest)
    | 0x6f => (8, digit :: rest)
    | 0x78 => (16, digit :: rest)
    | _ => (8, mark :: digit :: rest)
  | 0x30 :: rest => (8, rest)
  | t => (10, t)

/-- The value of a numeral without a sign. -/
def readNat? (t : Text) : Option Nat :=
  if t.isEmpty then none
  else
    let (base, digits) := splitBase t
    match digitsValue? base 0 digits with
    | some n => if t.contains 0x5f && !underscoresAllowed t then none else some n
    | none => none

/-- The value of an integer numeral, if it fits 64 bits. -/
def readInt64? (t : Text) : Option Int64 :=
  let negative := t.head? == some 0x2d
  match readNat? (dropSign t) with
  | none => none
  | some n =>
    if negative then
      if n ≤ 0x8000000000000000 then some (Int64.ofInt (-(n : Int))) else none
    else if n < 0x8000000000000000 then some (Int64.ofInt n) else none

end Integers

section Fractions

/-- The digits before an exponent as one integer, with the number of them after the point. -/
structure Mantissa where
  digits : Nat := 0
  places : Nat := 0
  sawPoint : Bool := false
  sawDigit : Bool := false

/-- Reads digits, underscores and at most one point. -/
def readMantissa (m : Mantissa) : Text → Mantissa × Text
  | [] => (m, [])
  | b :: rest =>
    if b == 0x5f then readMantissa m rest
    else if b == 0x2e && !m.sawPoint then readMantissa { m with sawPoint := true } rest
    else if isDigit b then
      readMantissa
        { m with
          digits := m.digits * 10 + (b.toNat - 0x30)
          places := if m.sawPoint then m.places + 1 else m.places
          sawDigit := true } rest
    else (m, b :: rest)

/-- The value of an exponent's digits; digits after the value reaches ten thousand are dropped. -/
def exponentValue? : Nat → Text → Option Nat
  | e, [] => some e
  | e, b :: rest =>
    if b == 0x5f then exponentValue? e rest
    else if isDigit b then
      exponentValue? (if e < 10000 then e * 10 + (b.toNat - 0x30) else e) rest
    else none

/-- Reads what follows the mantissa: nothing, or an exponent. -/
def readExponent? : Text → Option Int
  | [] => some 0
  | mark :: rest =>
    if lowerByte mark != 0x65 then none
    else
      let digits := dropSign rest
      match digits with
      | [] => none
      | first :: _ =>
        if !isDigit first then none
        else (exponentValue? 0 digits).map fun e =>
          if rest.head? == some 0x2d then -(e : Int) else e

/-- The number nearest to `digits · 10 ^ exponent`, if it is finite. -/
def nearest? (negative : Bool) (digits : Nat) (exponent : Int) : Option Binary64 :=
  if digits == 0 then some (Binary64.ofFraction negative 0 1)
  else
    let leading := exponent + (Nat.toDigits 10 digits).length
    if 310 < leading then none
    else if leading < -330 then some (Binary64.ofFraction negative 0 1)
    else
      let x :=
        if 0 ≤ exponent then
          Binary64.ofFraction negative (digits * Nat.pow 10 exponent.toNat) 1
        else Binary64.ofFraction negative digits (Nat.pow 10 (-exponent).toNat)
      match x.number with
      | .finite .. => some x
      | _ => none

/-- The value of a decimal numeral with a point or an exponent. -/
def readBinary64? (t : Text) : Option Binary64 :=
  let negative := t.head? == some 0x2d
  let (m, rest) := readMantissa {} (dropSign t)
  if !m.sawDigit then none
  else match readExponent? rest with
    | none => none
    | some e =>
      if t.contains 0x5f && !underscoresAllowed t then none
      else nearest? negative m.digits (e - m.places)

end Fractions

end Numeral
end StackNative
