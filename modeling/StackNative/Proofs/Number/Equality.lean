import Mathlib.Tactic.Linarith
import StackNative.Proofs.Number.Exact

/-!
# Equality of double-precision numbers

**Input.**  Two bit patterns.

**Algorithm.**  A finite pattern stands for a rational number.  A number other than zero is
rounded to the one pattern that stands for it; zero has two.

**Results.**
* `SameNumber`: equality of what two patterns stand for.
* `equal_iff_sameNumber`: the comparison of patterns decides it.
* `sameNumber_self_iff`: only what is not a number differs from itself.
-/

namespace StackNative

/-- The rational number that is meant, if one is. -/
def BinaryNumber.value? : BinaryNumber → Option ℚ
  | .finite negative m q => some ((if negative then -1 else 1) * (m * 2 ^ q))
  | _ => none

namespace Binary64

open BinaryNumber

variable {x y z : Binary64}

/-- Both stand for the same rational number, or both for the same infinity. -/
def SameNumber (x y : Binary64) : Prop :=
  (∃ r, x.number.value? = some r ∧ y.number.value? = some r) ∨
    ∃ negative, x.number = .infinite negative ∧ y.number = .infinite negative

theorem SameNumber.symm
    (h : x.SameNumber y) :
    y.SameNumber x := by
  rcases h with ⟨r, hx, hy⟩ | ⟨negative, hx, hy⟩
  · exact Or.inl ⟨r, hy, hx⟩
  · exact Or.inr ⟨negative, hy, hx⟩

theorem SameNumber.trans
    (hxy : x.SameNumber y)
    (hyz : y.SameNumber z) :
    x.SameNumber z := by
  rcases hxy with ⟨r, hx, hy⟩ | ⟨negative, hx, hy⟩
  · rcases hyz with ⟨s, hy', hz⟩ | ⟨negative, hy', hz⟩
    · rw [hy] at hy'
      exact Or.inl ⟨r, hx, hy' ▸ hz⟩
    · rw [hy'] at hy
      cases hy
  · rcases hyz with ⟨s, hy', hz⟩ | ⟨sign, hy', hz⟩
    · rw [hy] at hy'
      cases hy'
    · rw [hy] at hy'
      exact Or.inr ⟨negative, hx, hy' ▸ hz⟩

theorem sameNumber_self_iff (x : Binary64) : x.SameNumber x ↔ x.isNaN = false := by
  cases hx : x.number with
  | finite negative m q =>
      simp [SameNumber, isNaN, hx, value?]
  | infinite negative =>
      simp [SameNumber, isNaN, hx]
  | notANumber negative payload =>
      simp [SameNumber, isNaN, hx, value?]

theorem value?_of_isZero
    (h : x.isZero = true) :
    x.number.value? = some 0 := by
  rcases eq_of_isZero h with rfl | rfl
  · have hnumber : number ⟨0⟩ = .finite false 0 BinaryFormat.double.leastExponent := by decide
    simp [hnumber, value?]
  · have hnumber : number ⟨0x8000000000000000⟩ =
        .finite true 0 BinaryFormat.double.leastExponent := by decide
    simp [hnumber, value?]

/-- There are no more patterns of zero than the two. -/
theorem isZero_of_number
    {negative : Bool} {q : Int}
    (h : x.number = .finite negative 0 q) :
    x.isZero = true := by
  have hx : ofFraction negative 0 1 = x := ofFraction_of_number h Nat.one_pos (by simp)
  rw [← hx]
  cases negative <;> decide

theorem eq_of_number
    {negative : Bool} {m n : Nat} {q e : Int}
    (hx : x.number = .finite negative m q)
    (hy : y.number = .finite negative n e)
    (h : (m : ℚ) * 2 ^ q = n * 2 ^ e) :
    x = y := by
  have hpos := fractionOf_snd_pos m q
  have hfraction := fractionOf_eq m q
  rw [← ofFraction_of_number hx hpos hfraction,
    ← ofFraction_of_number hy hpos (hfraction.trans h)]

/-- A number is known by its size and its sign, zero by its size alone. -/
theorem sizes_eq
    {a b : ℚ} {negative sign : Bool}
    (ha : 0 ≤ a)
    (hb : 0 ≤ b)
    (h : (if sign then -1 else 1) * b = (if negative then -1 else 1) * a) :
    a = b ∧ (sign = negative ∨ a = 0) := by
  cases negative <;> cases sign <;> simp at h ⊢
  · exact h.symm
  · exact ⟨by linarith, by linarith⟩
  · exact ⟨by linarith, by linarith⟩
  · exact h.symm

/-- Patterns that stand for the same rational number are the same, or both stand for zero. -/
theorem eq_or_isZero_of_value?
    {r : ℚ}
    (hx : x.number.value? = some r)
    (hy : y.number.value? = some r) :
    x = y ∨ x.isZero = true ∧ y.isZero = true := by
  cases hxn : x.number with
  | infinite | notANumber =>
      rw [hxn] at hx
      cases hx
  | finite negative m q =>
      cases hyn : y.number with
      | infinite | notANumber =>
          rw [hyn] at hy
          cases hy
      | finite sign n e =>
          rw [hxn, value?, Option.some_inj] at hx
          rw [hyn, value?, Option.some_inj, ← hx] at hy
          obtain ⟨hsize, rfl | hzero⟩ := sizes_eq (by positivity) (by positivity) hy
          · exact Or.inl (eq_of_number hxn hyn hsize)
          · have hm : m = 0 := by
              exact_mod_cast (mul_eq_zero.mp hzero).resolve_right (by positivity)
            have hn : n = 0 := by
              exact_mod_cast (mul_eq_zero.mp (hsize ▸ hzero)).resolve_right (by positivity)
            subst hm hn
            exact Or.inr ⟨isZero_of_number hxn, isZero_of_number hyn⟩

/-- The patterns are compared as what they stand for. -/
theorem equal_iff_sameNumber (x y : Binary64) : x.equal y = true ↔ x.SameNumber y := by
  simp only [equal, Bool.and_eq_true, Bool.or_eq_true, Bool.not_eq_true', beq_iff_eq]
  constructor
  · rintro ⟨⟨hx, -⟩, rfl | ⟨hxzero, hyzero⟩⟩
    · exact (sameNumber_self_iff x).mpr hx
    · exact Or.inl ⟨0, value?_of_isZero hxzero, value?_of_isZero hyzero⟩
  · intro h
    refine ⟨⟨?_, ?_⟩, ?_⟩
    · exact (sameNumber_self_iff x).mp (h.trans h.symm)
    · exact (sameNumber_self_iff y).mp (h.symm.trans h)
    · rcases h with ⟨r, hx, hy⟩ | ⟨negative, hx, hy⟩
      · exact eq_or_isZero_of_value? hx hy
      · exact Or.inl ((eq_of_infinite hx).symm.trans (eq_of_infinite hy))

end Binary64
end StackNative
