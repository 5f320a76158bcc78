import Mathlib.Algebra.Order.Field.Power
import Mathlib.Data.Rat.Cast.Order
import Mathlib.Tactic.FieldSimp
import Mathlib.Tactic.Positivity
import Mathlib.Tactic.Ring
import Mathlib.Tactic.Set
import StackNative.Number.Binary64

/-!
# Exact conversions between widths

**Input.**  Bit patterns of a binary format, and fractions.

**Algorithm.**  Numbers are compared as rationals.  Rounding finds its exponent by
the lengths of numerator and denominator, which leaves two candidates.

**Results.**
* `roundFraction_eq_body`: rounding a fraction that a pattern stands for gives the
  pattern, without its sign.
* `widen_of_narrow?`: a number that a narrower format holds is read back from it.
-/

namespace StackNative
namespace BinaryNumber

variable {f : BinaryFormat} {num den m p : Nat} {q : Int} {negative : Bool}

section Fractions

/-- A fraction divided by a power of two. -/
def scaled (num den : Nat) (q : Int) : Nat × Nat :=
  if 0 ≤ q then (num, den * Nat.pow 2 q.toNat) else (num * Nat.pow 2 (-q).toNat, den)

/-- The lowest exponent that the lengths of a fraction leave. -/
def lowExponent (f : BinaryFormat) (num den : Nat) : Int :=
  (Nat.log2 num : Int) - Nat.log2 den - 1 - f.fractionBits

theorem scaled_snd_pos
    (num : Nat)
    (hden : 0 < den)
    (q : Int) :
    0 < (scaled num den q).2 := by
  unfold scaled
  split
  · exact Nat.mul_pos hden (Nat.pow_pos Nat.two_pos)
  · exact hden

theorem scaled_fst
    (hden : 0 < den)
    (h : (num : ℚ) / den = m * 2 ^ q) :
    (scaled num den q).1 = m * (scaled num den q).2 := by
  have hden' : (den : ℚ) ≠ 0 := by positivity
  rw [div_eq_iff hden'] at h
  unfold scaled
  split
  · rename_i hq
    rw [show q = (q.toNat : Int) by omega, zpow_natCast] at h
    have hnat : num = m * 2 ^ q.toNat * den := by exact_mod_cast h
    simp only [Nat.pow_eq]
    rw [hnat]
    ring
  · rename_i hq
    rw [show q = -((-q).toNat : Int) by omega, zpow_neg, zpow_natCast] at h
    have hnat : num * 2 ^ (-q).toNat = m * den := by
      field_simp at h
      exact_mod_cast h
    exact hnat

theorem two_pow_le_fraction
    (hnum : 0 < num)
    (hden : 0 < den) :
    (2 : ℚ) ^ ((Nat.log2 num : Int) - Nat.log2 den - 1) < num / den := by
  have hlow : ((2 ^ Nat.log2 num : Nat) : ℚ) ≤ num := by
    exact_mod_cast Nat.log2_self_le hnum.ne'
  have hhigh : (den : ℚ) < ((2 ^ (Nat.log2 den + 1) : Nat) : ℚ) := by
    exact_mod_cast Nat.lt_log2_self
  have hpow : (2 : ℚ) ^ ((Nat.log2 num : Int) - Nat.log2 den - 1) =
      ((2 ^ Nat.log2 num : Nat) : ℚ) / ((2 ^ (Nat.log2 den + 1) : Nat) : ℚ) := by
    rw [sub_sub, zpow_sub₀ two_ne_zero]
    push_cast
    rfl
  rw [hpow]
  exact div_lt_div₀' hlow hhigh (by positivity) (by positivity)

theorem fraction_lt_two_pow
    (hden : 0 < den) :
    (num : ℚ) / den < 2 ^ ((Nat.log2 num : Int) - Nat.log2 den + 1) := by
  have hhigh : (num : ℚ) < ((2 ^ (Nat.log2 num + 1) : Nat) : ℚ) := by
    exact_mod_cast Nat.lt_log2_self
  have hlow : ((2 ^ Nat.log2 den : Nat) : ℚ) ≤ den := by
    exact_mod_cast Nat.log2_self_le hden.ne'
  have hpow : (2 : ℚ) ^ ((Nat.log2 num : Int) - Nat.log2 den + 1) =
      ((2 ^ (Nat.log2 num + 1) : Nat) : ℚ) / ((2 ^ Nat.log2 den : Nat) : ℚ) := by
    rw [sub_add_eq_add_sub, zpow_sub₀ two_ne_zero]
    push_cast
    rfl
  rw [hpow]
  exact div_lt_div₀ hhigh hlow (by positivity) (by positivity)

/-- A significand below a power of two bounds the lengths of the fraction from above, -/
theorem lowExponent_le
    (hnum : 0 < num)
    (hden : 0 < den)
    (h : (num : ℚ) / den = m * 2 ^ q)
    {k : Nat}
    (hm : m < 2 ^ k) :
    lowExponent f num den + f.fractionBits + 1 ≤ q + k := by
  have hupper : (num : ℚ) / den < 2 ^ (q + k) := by
    rw [h, zpow_add₀ two_ne_zero, zpow_natCast, mul_comm]
    have hm' : (m : ℚ) < 2 ^ k := by exact_mod_cast hm
    exact mul_lt_mul_of_pos_left hm' (by positivity)
  have hlt := (zpow_lt_zpow_iff_right₀ one_lt_two).mp ((two_pow_le_fraction hnum hden).trans hupper)
  unfold lowExponent
  omega

/-- and one that reaches it, from below. -/
theorem le_lowExponent
    (hden : 0 < den)
    (h : (num : ℚ) / den = m * 2 ^ q)
    {k : Nat}
    (hm : 2 ^ k ≤ m) :
    q + k ≤ lowExponent f num den + f.fractionBits + 1 := by
  have hlower : (2 : ℚ) ^ (q + k) ≤ num / den := by
    rw [h, zpow_add₀ two_ne_zero, zpow_natCast, mul_comm]
    have hm' : (2 : ℚ) ^ k ≤ m := by exact_mod_cast hm
    exact mul_le_mul_of_nonneg_right hm' (by positivity)
  have hlt := (zpow_lt_zpow_iff_right₀ one_lt_two).mp (hlower.trans_lt (fraction_lt_two_pow hden))
  unfold lowExponent
  omega

end Fractions

section Rounding

/-- The significand and the exponent of a finite number of a format: either the last place is that
of the smallest numbers, or the first place is set. -/
structure Normal (f : BinaryFormat) (m : Nat) (q : Int) : Prop where
  lt : m < 2 ^ (f.fractionBits + 1)
  least_le : f.leastExponent ≤ q
  full : f.leastExponent < q → 2 ^ f.fractionBits ≤ m

/-- The pattern of such a number, without its sign. -/
def body (f : BinaryFormat) (m : Nat) (q : Int) : Nat :=
  if m < 2 ^ f.fractionBits then m
  else (q - f.leastExponent).toNat * 2 ^ f.fractionBits + m

/-- The exponent that rounding takes: of two candidates, the one that makes the significand fit. -/
def exponentOf (f : BinaryFormat) (num den : Nat) : Int :=
  let first := max (lowExponent f num den) f.leastExponent
  if (scaled num den first).1 / (scaled num den first).2 < Nat.pow 2 (f.fractionBits + 1) then first
  else first + 1

theorem exponentOf_eq
    (hnum : 0 < num)
    (hden : 0 < den)
    (h : (num : ℚ) / den = m * 2 ^ q)
    (hnormal : Normal f m q) :
    exponentOf f num den = q := by
  have hquotient : ∀ (k : Nat) (e : Int), (num : ℚ) / den = k * 2 ^ e →
      (scaled num den e).1 / (scaled num den e).2 = k := by
    intro k e he
    rw [scaled_fst hden he, Nat.mul_div_cancel _ (scaled_snd_pos num hden e)]
  have hlow := lowExponent_le (f := f) hnum hden h hnormal.lt
  have hleast := hnormal.least_le
  simp only [exponentOf, Nat.pow_eq]
  by_cases heq : max (lowExponent f num den) f.leastExponent = q
  · rw [heq, hquotient m q h, if_pos hnormal.lt]
  · have hfull : 2 ^ f.fractionBits ≤ m := by
      by_contra hsmall
      have hlow' := lowExponent_le (f := f) hnum hden h (Nat.lt_of_not_le hsmall)
      have hq : ¬ f.leastExponent < q := fun hlt => hsmall (hnormal.full hlt)
      omega
    have hhigh := le_lowExponent (f := f) hden h hfull
    have hnext : max (lowExponent f num den) f.leastExponent = q - 1 := by omega
    have hdouble : (num : ℚ) / den = (2 * m : Nat) * 2 ^ (q - 1) := by
      rw [h, zpow_sub_one₀ two_ne_zero]
      push_cast
      ring
    rw [hnext, hquotient _ _ hdouble, if_neg, sub_add_cancel]
    rw [Nat.pow_succ]
    omega

/-- Rounding where nothing is lost at the exponent that is taken. -/
theorem roundFraction_of_rest
    (hnum : num ≠ 0)
    (he : exponentOf f num den = q)
    (hpos : 0 < (scaled num den q).2)
    (hbelow : (scaled num den q).1 / (scaled num den q).2 = m)
    (hrest : (scaled num den q).1 % (scaled num den q).2 = 0) :
    roundFraction f num den = min (body f m q) (f.special * 2 ^ f.fractionBits) := by
  subst he
  set n := (scaled num den (exponentOf f num den)).1
  set d := (scaled num den (exponentOf f num den)).2
  have hround : roundFraction f num den =
      if num == 0 then 0
      else
        let up := d < 2 * (n % d) || (2 * (n % d) == d && n / d % 2 == 1)
        let significand := if up then n / d + 1 else n / d
        min (if n / d < 2 ^ f.fractionBits then significand
          else (exponentOf f num den - f.leastExponent).toNat * 2 ^ f.fractionBits + significand)
          (f.special * 2 ^ f.fractionBits) := rfl
  have hup : (decide (d < 2 * 0) || (2 * 0 == d && m % 2 == 1)) = false := by
    simp [hpos.ne]
  rw [hround, if_neg (by simpa using hnum), hbelow, hrest]
  simp only [hup, Bool.false_eq_true, if_false, body]

/-- Rounding keeps what the format holds. -/
theorem roundFraction_eq_body
    (hden : 0 < den)
    (h : (num : ℚ) / den = m * 2 ^ q)
    (hnormal : Normal f m q)
    (hbody : body f m q ≤ f.special * 2 ^ f.fractionBits) :
    roundFraction f num den = body f m q := by
  by_cases hnum : num = 0
  · subst hnum
    have hm : m = 0 := by
      have hzero : (m : ℚ) * 2 ^ q = 0 := by rw [← h, Nat.cast_zero, zero_div]
      have hpow : (2 : ℚ) ^ q ≠ 0 := by positivity
      exact_mod_cast (mul_eq_zero.mp hzero).resolve_right hpow
    simp [roundFraction, body, hm]
  · have hpos := scaled_snd_pos num hden q
    have hbelow : (scaled num den q).1 / (scaled num den q).2 = m := by
      rw [scaled_fst hden h, Nat.mul_div_cancel _ hpos]
    have hrest : (scaled num den q).1 % (scaled num den q).2 = 0 := by
      rw [scaled_fst hden h, Nat.mul_mod_left]
    have he := exponentOf_eq (Nat.pos_of_ne_zero hnum) hden h hnormal
    rw [roundFraction_of_rest hnum he hpos hbelow hrest]
    exact Nat.min_eq_left hbody

end Rounding

section Patterns

/-- A pattern below the special ones stands for a number of the format. -/
theorem decode_eq_finite
    (h : decode f p = .finite negative m q) :
    Normal f m q ∧ p % 2 ^ (f.fractionBits + f.exponentBits) = body f m q ∧
      body f m q < f.special * 2 ^ f.fractionBits ∧
      negative = (p / 2 ^ (f.fractionBits + f.exponentBits) % 2 == 1) := by
  have hpos : 0 < 2 ^ f.fractionBits := Nat.two_pow_pos _
  have hfraction : p % 2 ^ f.fractionBits < 2 ^ f.fractionBits := Nat.mod_lt _ hpos
  have hsplit : p % 2 ^ (f.fractionBits + f.exponentBits) =
      p % 2 ^ f.fractionBits +
        2 ^ f.fractionBits * (p / 2 ^ f.fractionBits % 2 ^ f.exponentBits) := by
    rw [Nat.pow_add, Nat.mod_mul]
  have hfield : p / 2 ^ f.fractionBits % 2 ^ f.exponentBits < 2 ^ f.exponentBits :=
    Nat.mod_lt _ (Nat.two_pow_pos _)
  rw [hsplit]
  simp only [decode, Nat.pow_eq] at h
  generalize p / 2 ^ f.fractionBits % 2 ^ f.exponentBits = field at h hfield ⊢
  generalize p % 2 ^ f.fractionBits = fraction at h hfraction ⊢
  have hspecial : f.special = 2 ^ f.exponentBits - 1 := rfl
  split at h
  · split at h <;> cases h
  · rename_i hne
    have hlt : field < f.special := by
      simp only [beq_iff_eq] at hne
      omega
    have hroom : (field + 1) * 2 ^ f.fractionBits ≤ f.special * 2 ^ f.fractionBits :=
      Nat.mul_le_mul_right _ hlt
    rw [Nat.add_mul, Nat.one_mul, Nat.mul_comm field] at hroom
    split at h
    · rename_i hzero
      cases h
      simp only [beq_iff_eq] at hzero
      subst hzero
      have hbody : body f m f.leastExponent = m := if_pos hfraction
      rw [hbody]
      refine ⟨⟨?_, le_rfl, fun hlt => absurd hlt (lt_irrefl _)⟩, by simp, by omega, rfl⟩
      rw [Nat.pow_succ]
      omega
    · rename_i hzero
      cases h
      simp only [beq_iff_eq] at hzero
      have hbody : body f (fraction + 2 ^ f.fractionBits) (f.leastExponent + field - 1) =
          fraction + 2 ^ f.fractionBits * field := by
        obtain ⟨k, rfl⟩ : ∃ k, field = k + 1 := ⟨field - 1, by omega⟩
        rw [body, if_neg (by omega), show (f.leastExponent + ((k + 1 : Nat) : Int) - 1 -
          f.leastExponent).toNat = k by omega]
        ring
      rw [hbody]
      refine ⟨⟨?_, by omega, fun _ => by omega⟩, rfl, by omega, rfl⟩
      rw [Nat.pow_succ]
      omega

theorem roundFraction_lt (f : BinaryFormat) (num den : Nat) :
    roundFraction f num den < 2 ^ (f.fractionBits + f.exponentBits) := by
  have hle : roundFraction f num den ≤ f.special * 2 ^ f.fractionBits := by
    unfold roundFraction
    split
    · exact Nat.zero_le _
    · exact Nat.min_le_right _ _
  have hspecial : f.special < 2 ^ f.exponentBits :=
    Nat.sub_lt (Nat.two_pow_pos _) Nat.one_pos
  have hlt := Nat.mul_lt_mul_of_pos_right hspecial (Nat.two_pow_pos f.fractionBits)
  rw [Nat.pow_add, Nat.mul_comm (2 ^ f.fractionBits)]
  omega

theorem decode_withSign
    {sign : Bool}
    (negative : Bool)
    (hp : p < 2 ^ (f.fractionBits + f.exponentBits))
    (h : decode f p = .finite sign m q) :
    decode f (withSign f negative p) = .finite negative m q := by
  have hfraction : withSign f negative p % 2 ^ f.fractionBits = p % 2 ^ f.fractionBits := by
    cases negative <;> simp [withSign, Nat.pow_add]
  have hfield : withSign f negative p / 2 ^ f.fractionBits % 2 ^ f.exponentBits =
      p / 2 ^ f.fractionBits % 2 ^ f.exponentBits := by
    cases negative <;> simp [withSign, Nat.pow_add, Nat.add_mul_div_left]
  have hsign : (withSign f negative p / 2 ^ (f.fractionBits + f.exponentBits) % 2 == 1) =
      negative := by
    cases negative <;> simp [withSign, Nat.div_eq_of_lt hp]
  simp only [decode, Nat.pow_eq] at h ⊢
  rw [hfraction, hfield, hsign]
  split at h
  · split at h <;> cases h
  · rename_i hne
    rw [if_neg hne]
    split at h
    · rename_i hzero
      cases h
      rw [if_pos hzero]
    · rename_i hzero
      cases h
      rw [if_neg hzero]

/-- A number as a fraction. -/
def fractionOf (m : Nat) (q : Int) : Nat × Nat :=
  if 0 ≤ q then (m * Nat.pow 2 q.toNat, 1) else (m, Nat.pow 2 (-q).toNat)

theorem fractionOf_snd_pos (m : Nat) (q : Int) : 0 < (fractionOf m q).2 := by
  unfold fractionOf
  split
  · exact Nat.one_pos
  · exact Nat.two_pow_pos _

theorem fractionOf_eq (m : Nat) (q : Int) :
    ((fractionOf m q).1 : ℚ) / (fractionOf m q).2 = m * 2 ^ q := by
  unfold fractionOf
  split
  · obtain ⟨n, rfl⟩ := Int.eq_ofNat_of_zero_le ‹_›
    simp
  · obtain ⟨n, rfl⟩ : ∃ n : Nat, q = -(n : Int) := ⟨(-q).toNat, by omega⟩
    simp [div_eq_mul_inv]

theorem exactPattern?_eq (f : BinaryFormat) (m : Nat) (q : Int) :
    exactPattern? f m q =
      match decode f (roundFraction f (fractionOf m q).1 (fractionOf m q).2) with
      | .finite _ m' q' =>
        if m' * 2 ^ (q' - min q' q).toNat == m * 2 ^ (q - min q' q).toNat then
          some (roundFraction f (fractionOf m q).1 (fractionOf m q).2)
        else none
      | _ => none := by
  unfold exactPattern? fractionOf
  split <;> rfl

theorem two_zpow_eq
    {low : Int}
    (h : low ≤ q) :
    (2 : ℚ) ^ q = 2 ^ (q - low).toNat * 2 ^ low := by
  rw [← zpow_natCast, ← zpow_add₀ two_ne_zero]
  congr 1
  omega

/-- A pattern that is found stands for the number. -/
theorem exactPattern?_eq_some
    (h : exactPattern? f m q = some p) :
    p < 2 ^ (f.fractionBits + f.exponentBits) ∧
      ∃ sign m' q', decode f p = .finite sign m' q' ∧ (m' : ℚ) * 2 ^ q' = m * 2 ^ q := by
  rw [exactPattern?_eq] at h
  split at h
  · rename_i sign m' q' hdecode
    split at h
    · rename_i heq
      cases h
      refine ⟨roundFraction_lt _ _ _, sign, m', q', hdecode, ?_⟩
      rw [beq_iff_eq] at heq
      have hcast : (m' : ℚ) * 2 ^ (q' - min q' q).toNat = m * 2 ^ (q - min q' q).toNat := by
        exact_mod_cast heq
      rw [two_zpow_eq (min_le_left q' q), two_zpow_eq (min_le_right q' q), ← mul_assoc, hcast,
        mul_assoc]
    · cases h
  · cases h

end Patterns

end BinaryNumber

namespace Binary64

open BinaryNumber

theorem eq_withSign
    {x : Binary64} {negative : Bool} {p : Nat}
    (hsign : negative = (x.bits.toNat / 2 ^ 63 % 2 == 1))
    (hp : x.bits.toNat % 2 ^ 63 = p) :
    ⟨(withSign .double negative p).toUInt64⟩ = x := by
  have hx := x.bits.toNat_lt
  have hwidth : Nat.pow 2 (BinaryFormat.double.fractionBits + BinaryFormat.double.exponentBits) =
      2 ^ 63 := rfl
  have hbits : withSign .double negative p = x.bits.toNat := by
    rw [withSign, hwidth]
    split
    · rename_i htrue
      rw [htrue] at hsign
      have hbit := beq_iff_eq.mp hsign.symm
      omega
    · rename_i hfalse
      rw [Bool.not_eq_true] at hfalse
      rw [hfalse] at hsign
      have hbit := beq_eq_false_iff_ne.mp hsign.symm
      omega
  rw [hbits]
  exact congrArg Binary64.mk UInt64.ofNat_toNat

/-- A number is rounded to itself. -/
theorem ofFraction_of_number
    {x : Binary64} {negative : Bool} {m num den : Nat} {q : Int}
    (hnumber : x.number = .finite negative m q)
    (hden : 0 < den)
    (h : (num : ℚ) / den = m * 2 ^ q) :
    ofFraction negative num den = x := by
  obtain ⟨hnormal, hbody, hlt, hsign⟩ := decode_eq_finite hnumber
  rw [ofFraction, roundFraction_eq_body hden h hnormal hlt.le]
  exact eq_withSign hsign hbody

theorem widen_eq
    {f : BinaryFormat} {p m : Nat} {q : Int} {negative : Bool}
    (h : decode f p = .finite negative m q) :
    widen f p = ofFraction negative (fractionOf m q).1 (fractionOf m q).2 := by
  simp only [widen, h, fractionOf]
  split <;> rfl

theorem withSign_lt
    {f : BinaryFormat} {p : Nat}
    (negative : Bool)
    (h : p < 2 ^ (f.fractionBits + f.exponentBits)) :
    withSign f negative p < 2 ^ (f.fractionBits + f.exponentBits + 1) := by
  rw [Nat.pow_succ]
  unfold withSign
  split
  · simp only [Nat.pow_eq]
    omega
  · omega

/-- A number that a format holds is read back from it. -/
theorem widen_of_narrow?
    {f : BinaryFormat} {x : Binary64} {p : Nat}
    (h : x.narrow? f = some p) :
    widen f p = x ∧ p < 2 ^ (f.fractionBits + f.exponentBits + 1) := by
  unfold narrow? at h
  split at h
  · rename_i negative m q hnumber
    obtain ⟨pattern, hpattern, rfl⟩ := Option.map_eq_some_iff.mp h
    obtain ⟨hlt, sign, m', q', hdecode, hvalue⟩ := exactPattern?_eq_some hpattern
    refine ⟨?_, withSign_lt negative hlt⟩
    rw [widen_eq (decode_withSign negative hlt hdecode)]
    refine ofFraction_of_number hnumber (fractionOf_snd_pos m' q') ?_
    rw [fractionOf_eq, hvalue]
  · cases h

theorem eq_of_infinite
    {x : Binary64} {negative : Bool}
    (h : x.number = .infinite negative) :
    ⟨(withSign .double negative 0x7ff0000000000000).toUInt64⟩ = x := by
  simp only [number, decode, Nat.pow_eq] at h
  split at h
  · rename_i hfield
    split at h
    · rename_i hfraction
      cases h
      have hspecial : BinaryFormat.double.special = 2047 := rfl
      rw [beq_iff_eq, hspecial] at hfield
      rw [beq_iff_eq] at hfraction
      simp only [BinaryFormat.double] at hfield hfraction
      exact eq_withSign rfl (by omega)
    · cases h
  · split at h <;> cases h

theorem eq_of_isZero
    {x : Binary64}
    (h : x.isZero = true) :
    x = ⟨0⟩ ∨ x = ⟨0x8000000000000000⟩ := by
  obtain ⟨bits⟩ := x
  simpa [isZero] using h

theorem isZero_of_isNaN
    {x : Binary64}
    (h : x.isNaN = true) :
    x.isZero = false := by
  rw [← Bool.not_eq_true]
  intro hzero
  rcases eq_of_isZero hzero with rfl | rfl
  · cases h
  · cases h

end Binary64
end StackNative
