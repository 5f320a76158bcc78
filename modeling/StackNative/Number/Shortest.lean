import StackNative.Number.Binary64
import StackNative.Text.Basic

/-!
# Shortest decimal form

**Input.** A double-precision number.
**Algorithm.** For one digit, two digits, and so on up to seventeen, the two
neighbours of the number on that decimal grid are tested against the interval
of reals that round to the number; the first grid with a hit wins, and of two
hits the nearer one, an exact tie going to the even digit.
**Results.** `shortest` gives the digits and their exponent, `text` writes them
by a `NumberLayout`.
-/

namespace StackNative

/-- `digits · 10 ^ exponent`. -/
structure Decimal where
  digits : Nat
  exponent : Int
  deriving DecidableEq, Repr

namespace Decimal

/-- A number `m · 2 ^ q` on a common denominator with the ends of its rounding interval. -/
structure Interval where
  low : Nat
  value : Nat
  high : Nat
  denominator : Nat
  closed : Bool

/-- The interval of reals that round to `m · 2 ^ q` in double precision. -/
def Interval.of (m : Nat) (q : Int) : Interval :=
  let scale : Nat := if 2 ≤ q then Nat.pow 2 (q - 2).toNat else 1
  let denominator : Nat := if 2 ≤ q then 1 else Nat.pow 2 (2 - q).toNat
  let below := if m == 0x10000000000000 && BinaryFormat.double.leastExponent < q then 1 else 2
  ⟨(4 * m - below) * scale, 4 * m * scale, (4 * m + 2) * scale, denominator, m % 2 == 0⟩

/-- The point `digits · 10 ^ exponent` lies in the interval. -/
def Interval.holds (i : Interval) (digits : Nat) (exponent : Int) : Bool :=
  let point := if 0 ≤ exponent then digits * Nat.pow 10 exponent.toNat * i.denominator
    else digits * i.denominator
  let unit := if 0 ≤ exponent then 1 else Nat.pow 10 (-exponent).toNat
  if i.closed then i.low * unit ≤ point && point ≤ i.high * unit
  else i.low * unit < point && point < i.high * unit

/-- The value in units of `10 ^ exponent`: the whole part, and the rest over its denominator. -/
def Interval.inUnits (i : Interval) (exponent : Int) : Nat × Nat × Nat :=
  let n := if 0 ≤ exponent then i.value else i.value * Nat.pow 10 (-exponent).toNat
  let d := if 0 ≤ exponent then i.denominator * Nat.pow 10 exponent.toNat else i.denominator
  (n / d, n % d, d)

/-- The exponent of the leading decimal digit. -/
def Interval.leading (i : Interval) : Int :=
  let guess : Int := (Nat.log2 i.value : Int) - Nat.log2 i.denominator
  let start : Int := guess * 30103 / 100000 - 1
  let fits (e : Int) : Bool := 1 ≤ (i.inUnits e).1
  if fits (start + 2) then start + 2 else if fits (start + 1) then start + 1 else start

/-- The point of one decimal grid that stands for the number, if the grid has one. -/
def Interval.onGrid (i : Interval) (exponent : Int) : Option Nat :=
  let (down, rest, d) := i.inUnits exponent
  match i.holds down exponent, i.holds (down + 1) exponent with
  | true, true =>
    if 2 * rest < d then some down
    else if d < 2 * rest then some (down + 1)
    else some (if down % 2 == 0 then down else down + 1)
  | true, false => some down
  | false, true => some (down + 1)
  | false, false => none

/-- Tries grids of growing precision. -/
def Interval.search (i : Interval) (exponent : Int) : Nat → Decimal
  | 0 => ⟨(i.inUnits exponent).1, exponent⟩
  | tries + 1 =>
    match i.onGrid exponent with
    | some digits => ⟨digits, exponent⟩
    | none => i.search (exponent - 1) tries

/-- Moves trailing zeros of the digits into the exponent, at most `steps` of them. -/
def trimZeros (d : Decimal) : Nat → Decimal
  | 0 => d
  | steps + 1 =>
    if d.digits != 0 && d.digits % 10 == 0 then trimZeros ⟨d.digits / 10, d.exponent + 1⟩ steps
    else d

/-- The shortest digits that read back as the positive number `m · 2 ^ q`. -/
def shortest (m : Nat) (q : Int) : Decimal :=
  let i := Interval.of m q
  (i.search i.leading 17).trimZeros 20

end Decimal

/-- How digits are laid out as text. -/
structure NumberLayout where
  /-- Below this exponent of the leading digit the exponent form is used. -/
  leastPositional : Int
  /-- From this exponent of the leading digit on the exponent form is used. -/
  firstScientific : Int
  /-- The exponent has at least so many digits. -/
  exponentWidth : Nat
  notANumber : Text
  infinity : Text
  negativeInfinity : Text

namespace NumberLayout

/-- Digits with the point after the first one and an exponent with its sign. -/
def scientific (layout : NumberLayout) (digits : Text) (leading : Int) : Text :=
  let mantissa := match digits with
    | first :: next :: more => first :: 0x2e :: next :: more
    | short => short
  let sign : Text := if leading < 0 then "-" else "+"
  mantissa ++ "e" ++ sign ++ Text.padLeft layout.exponentWidth 0x30 (Text.ofNat leading.natAbs)

/-- Digits with the point at its place and no exponent. -/
def positional (digits : Text) (leading : Int) : Text :=
  if leading < 0 then "0." ++ List.replicate (-leading - 1).toNat (0x30 : UInt8) ++ digits
  else
    let whole := leading.toNat + 1
    if digits.length ≤ whole then digits ++ List.replicate (whole - digits.length) 0x30
    else digits.take whole ++ "." ++ digits.drop whole

/-- A number as text. -/
def write (layout : NumberLayout) (x : Binary64) : Text :=
  match x.number with
  | .notANumber .. => layout.notANumber
  | .infinite false => layout.infinity
  | .infinite true => layout.negativeInfinity
  | .finite negative m q =>
    let sign : Text := if negative then "-" else []
    if m == 0 then sign ++ "0"
    else
      let d := Decimal.shortest m q
      let digits := Text.ofNat d.digits
      let leading := d.exponent + digits.length - 1
      if leading < layout.leastPositional || layout.firstScientific ≤ leading then
        sign ++ layout.scientific digits leading
      else sign ++ positional digits leading

/-- Six positional digits at most, four zeros after the point at most, a signed exponent of two
digits at least. -/
def compact : NumberLayout := ⟨-4, 6, 2, "NaN", "+Inf", "-Inf"⟩

end NumberLayout

/-- The text of a number: the shortest digits that read back as it. -/
def Binary64.text (x : Binary64) : Text := NumberLayout.compact.write x

end StackNative
