/-!
# Double-precision numbers

**Input.** Bit patterns of the 64-bit binary interchange format.
**Algorithm.** Every operation goes through exact natural-number arithmetic on
the significand and the exponent, so none depends on machine floats.
**Results.** Classification, equality as numbers, rounding of fractions,
conversion from and to integers, exact widening and narrowing between widths.
-/

namespace StackNative

/-- A double-precision number, given by its bit pattern. -/
structure Binary64 where
  bits : UInt64
  deriving DecidableEq, Repr, Inhabited

/-- A binary interchange format: widths of the exponent and of the stored significand. -/
structure BinaryFormat where
  exponentBits : Nat
  fractionBits : Nat

namespace BinaryFormat

/-- Two bytes. -/
def half : BinaryFormat := ⟨5, 10⟩

/-- Four bytes. -/
def single : BinaryFormat := ⟨8, 23⟩

/-- Eight bytes. -/
def double : BinaryFormat := ⟨11, 52⟩

/-- The exponent of the last place of the smallest numbers. -/
def leastExponent (f : BinaryFormat) : Int :=
  2 - Int.ofNat (Nat.pow 2 (f.exponentBits - 1)) - f.fractionBits

/-- The exponent field that marks infinities and non-numbers. -/
def special (f : BinaryFormat) : Nat := Nat.pow 2 f.exponentBits - 1

end BinaryFormat

/-- What a bit pattern of some format stands for. -/
inductive BinaryNumber where
  /-- `significand · 2 ^ exponent` with a sign. -/
  | finite (negative : Bool) (significand : Nat) (exponent : Int)
  | infinite (negative : Bool)
  | notANumber (negative : Bool) (payload : Nat)
  deriving DecidableEq, Repr

namespace BinaryNumber

/-- Reads a bit pattern. -/
def decode (f : BinaryFormat) (pattern : Nat) : BinaryNumber :=
  let fraction := pattern % Nat.pow 2 f.fractionBits
  let field := pattern / Nat.pow 2 f.fractionBits % Nat.pow 2 f.exponentBits
  let negative := pattern / Nat.pow 2 (f.fractionBits + f.exponentBits) % 2 == 1
  if field == f.special then
    if fraction == 0 then .infinite negative else .notANumber negative fraction
  else if field == 0 then .finite negative fraction f.leastExponent
  else .finite negative (fraction + Nat.pow 2 f.fractionBits) (f.leastExponent + field - 1)

/-- Puts a sign in front of a pattern. -/
def withSign (f : BinaryFormat) (negative : Bool) (pattern : Nat) : Nat :=
  if negative then pattern + Nat.pow 2 (f.fractionBits + f.exponentBits) else pattern

/-- The pattern of `numerator / denominator`, rounded to nearest, a tie to the even significand,
an excess to infinity.  The denominator is positive. -/
def roundFraction (f : BinaryFormat) (numerator denominator : Nat) : Nat :=
  if numerator == 0 then 0
  else
    let scale (q : Int) : Nat × Nat :=
      if 0 ≤ q then (numerator, denominator * Nat.pow 2 q.toNat)
      else (numerator * Nat.pow 2 (-q).toNat, denominator)
    let low : Int := (Nat.log2 numerator : Int) - Nat.log2 denominator - 1 - f.fractionBits
    let first := max low f.leastExponent
    let (n₁, d₁) := scale first
    let exponent := if n₁ / d₁ < Nat.pow 2 (f.fractionBits + 1) then first else first + 1
    let (n, d) := scale exponent
    let below := n / d
    let rest := n % d
    let up := d < 2 * rest || (2 * rest == d && below % 2 == 1)
    let significand := if up then below + 1 else below
    let pattern :=
      if below < Nat.pow 2 f.fractionBits then significand
      else (exponent - f.leastExponent).toNat * Nat.pow 2 f.fractionBits + significand
    min pattern (f.special * Nat.pow 2 f.fractionBits)

/-- The pattern of a finite number, if the format holds it exactly. -/
def exactPattern? (f : BinaryFormat) (significand : Nat) (exponent : Int) : Option Nat :=
  let pattern :=
    if 0 ≤ exponent then roundFraction f (significand * Nat.pow 2 exponent.toNat) 1
    else roundFraction f significand (Nat.pow 2 (-exponent).toNat)
  match decode f pattern with
  | .finite _ m q =>
    let low := min q exponent
    if m * Nat.pow 2 (q - low).toNat == significand * Nat.pow 2 (exponent - low).toNat then
      some pattern
    else none
  | _ => none

end BinaryNumber

namespace Binary64

open BinaryNumber

section Classes

/-- What the bit pattern stands for. -/
def number (x : Binary64) : BinaryNumber := decode .double x.bits.toNat

/-- Not a number. -/
def isNaN (x : Binary64) : Bool :=
  match x.number with
  | .notANumber .. => true
  | _ => false

/-- One of the two zeros. -/
def isZero (x : Binary64) : Bool := x.bits == 0 || x.bits == 0x8000000000000000

/-- Equality as numbers: the two zeros are equal, and nothing equals what is not a number. -/
def equal (x y : Binary64) : Bool :=
  !x.isNaN && !y.isNaN && (x == y || (x.isZero && y.isZero))

/-- Positive zero. -/
def zero : Binary64 := ⟨0⟩

end Classes

section Conversions

/-- The number nearest to a fraction with a positive denominator. -/
def ofFraction (negative : Bool) (numerator denominator : Nat) : Binary64 :=
  ⟨(withSign .double negative (roundFraction .double numerator denominator)).toUInt64⟩

/-- The number nearest to an integer. -/
def ofInt (n : Int) : Binary64 := ofFraction (n < 0) n.natAbs 1

/-- The integer part, toward zero, of a finite number. -/
def truncate? (x : Binary64) : Option Int :=
  match x.number with
  | .finite negative m q =>
    let size : Nat := if 0 ≤ q then m * Nat.pow 2 q.toNat else m / Nat.pow 2 (-q).toNat
    some (if negative then -(size : Int) else size)
  | _ => none

/-- The integer part as a 64-bit integer; whatever does not fit is the least one. -/
def toInt64 (x : Binary64) : Int64 :=
  match x.truncate? with
  | some n =>
    if -0x8000000000000000 ≤ n && n < 0x8000000000000000 then Int64.ofInt n else Int64.minValue
  | none => Int64.minValue

/-- The same number read from a narrower format.  What is not a number becomes quiet and keeps its
payload in the leading places. -/
def widen (f : BinaryFormat) (pattern : Nat) : Binary64 :=
  match decode f pattern with
  | .finite negative m q =>
    if 0 ≤ q then ofFraction negative (m * Nat.pow 2 q.toNat) 1
    else ofFraction negative m (Nat.pow 2 (-q).toNat)
  | .infinite negative => ⟨(withSign .double negative 0x7ff0000000000000).toUInt64⟩
  | .notANumber negative payload =>
    let moved := payload * Nat.pow 2 (52 - f.fractionBits)
    ⟨(withSign .double negative (0x7ff8000000000000 ||| moved)).toUInt64⟩

/-- The pattern of the same finite number in a narrower format, if there is one. -/
def narrow? (f : BinaryFormat) (x : Binary64) : Option Nat :=
  match x.number with
  | .finite negative m q => (exactPattern? f m q).map (withSign f negative)
  | _ => none

end Conversions

end Binary64
end StackNative
