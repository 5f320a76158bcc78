import StackNative.Number.Numeral

/-!
# Decimal numerals are read back

**Input.**  A natural number, or a 64-bit integer.

**Algorithm.**  The numeral of a number is that of its tenth part with one digit behind
it, and digits are read from the left.

**Results.**
* `Text.isDigit_of_mem_ofNat`, `Text.head_ofNat`: a numeral has digits only, and no zero
  in front.
* `Numeral.readNat?_ofNat`, `Numeral.readInt64?_ofInt`: it is read as its number.
-/

namespace StackNative

section Digits

namespace Text

/-- The digit of a number below ten. -/
def digit (d : Nat) : UInt8 := 0x30 + d.toUInt8

theorem digit_spec
    {d : Nat}
    (h : d < 10) :
    (digit d).toNat = 0x30 + d := by
  have hall : ∀ d < 10, (digit d).toNat = 0x30 + d := by decide
  exact hall d h

theorem byte_digitChar
    {d : Nat}
    (h : d < 10) :
    d.digitChar.toNat.toUInt8 = digit d := by
  have hall : ∀ d < 10, d.digitChar.toNat.toUInt8 = digit d := by decide
  exact hall d h

theorem ofNat_of_lt
    {n : Nat}
    (h : n < 10) :
    ofNat n = [digit n] := by
  rw [ofNat, Nat.toDigits_of_lt_base h, List.map_singleton, byte_digitChar h]

theorem ofNat_of_le
    {n : Nat}
    (h : 10 ≤ n) :
    ofNat n = ofNat (n / 10) ++ [digit (n % 10)] := by
  rw [ofNat, Nat.toDigits_of_base_le (by decide) h, List.map_append, List.map_singleton,
    byte_digitChar (Nat.mod_lt n (by decide)), ← ofNat]

theorem isDigit_digit
    {d : Nat}
    (h : d < 10) :
    Numeral.isDigit (digit d) = true := by
  have hall : ∀ d < 10, Numeral.isDigit (digit d) = true := by decide
  exact hall d h

theorem isDigit_of_mem_ofNat
    {n : Nat} {b : UInt8}
    (h : b ∈ ofNat n) :
    Numeral.isDigit b = true := by
  induction n using Nat.strongRecOn with
  | ind n ih =>
      rcases Nat.lt_or_ge n 10 with hlt | hge
      · rw [ofNat_of_lt hlt, List.mem_singleton] at h
        rw [h]
        exact isDigit_digit hlt
      · rw [ofNat_of_le hge, List.mem_append, List.mem_singleton] at h
        rcases h with h | rfl
        · exact ih (n / 10) (by omega) h
        · exact isDigit_digit (Nat.mod_lt n (by decide))

/-- The numeral of a number that is not zero begins with another digit. -/
theorem head_ofNat
    {n : Nat}
    (h : 0 < n) :
    ∃ d rest, 0 < d ∧ d < 10 ∧ ofNat n = digit d :: rest := by
  induction n using Nat.strongRecOn with
  | ind n ih =>
      rcases Nat.lt_or_ge n 10 with hlt | hge
      · exact ⟨n, [], h, hlt, ofNat_of_lt hlt⟩
      · obtain ⟨d, rest, hpos, hd, heq⟩ := ih (n / 10) (by omega) (by omega)
        refine ⟨d, rest ++ [digit (n % 10)], hpos, hd, ?_⟩
        rw [ofNat_of_le hge, heq, List.cons_append]

end Text

end Digits

section Reading

namespace Numeral

open Text (digit)

theorem digitsValue?_append (base n : Nat) (t u : Text) :
    digitsValue? base n (t ++ u) = (digitsValue? base n t).bind fun m => digitsValue? base m u := by
  induction t generalizing n with
  | nil =>
      rfl
  | cons b t ih =>
      rw [List.cons_append, digitsValue?, digitsValue?]
      split
      · exact ih n
      · split
        · split
          · exact ih _
          · rfl
        · rfl

theorem ne_underscore_of_isDigit
    {b : UInt8}
    (h : isDigit b = true) :
    (b == 0x5f) = false := by
  refine beq_eq_false_iff_ne.mpr ?_
  rintro rfl
  cases h

theorem digitsValue?_digit
    {d : Nat}
    (h : d < 10)
    (n : Nat) :
    digitsValue? 10 n [digit d] = some (n * 10 + d) := by
  have hdigit := Text.isDigit_digit h
  have hvalue : digitValue? (digit d) = some d := by
    simp only [digitValue?, hdigit, if_true, Text.digit_spec h, Nat.add_sub_cancel_left]
  simp [digitsValue?, ne_underscore_of_isDigit hdigit, hvalue, h]

theorem digitsValue?_ofNat (n : Nat) : digitsValue? 10 0 (Text.ofNat n) = some n := by
  induction n using Nat.strongRecOn with
  | ind n ih =>
      rcases Nat.lt_or_ge n 10 with hlt | hge
      · rw [Text.ofNat_of_lt hlt, digitsValue?_digit hlt, Nat.zero_mul, Nat.zero_add]
      · rw [Text.ofNat_of_le hge, digitsValue?_append, ih (n / 10) (by omega), Option.bind_some,
          digitsValue?_digit (Nat.mod_lt n (by decide)), Option.some_inj]
        omega

theorem not_contains_underscore (n : Nat) : (Text.ofNat n).contains 0x5f = false := by
  rw [List.contains_eq_mem, decide_eq_false_iff_not]
  intro h
  cases Text.isDigit_of_mem_ofNat h

/-- Without a zero in front, a numeral is read in base ten. -/
theorem splitBase_digit
    {d : Nat}
    (hpos : 0 < d)
    (h : d < 10)
    (rest : Text) :
    splitBase (digit d :: rest) = (10, digit d :: rest) := by
  have hne : digit d ≠ 0x30 := by
    intro heq
    have hspec := Text.digit_spec h
    rw [heq] at hspec
    have hthirty : (0x30 : UInt8).toNat = 0x30 := rfl
    omega
  unfold splitBase
  split
  · next heq => exact absurd (List.cons.inj heq).1 hne
  · next heq => exact absurd (List.cons.inj heq).1 hne
  · rfl

theorem readNat?_ofNat (n : Nat) : readNat? (Text.ofNat n) = some n := by
  rcases Nat.eq_zero_or_pos n with rfl | hpos
  · rfl
  · obtain ⟨d, rest, hd, hlt, heq⟩ := Text.head_ofNat hpos
    have hvalue := digitsValue?_ofNat n
    have hplain := not_contains_underscore n
    rw [heq] at hvalue hplain ⊢
    simp only [readNat?, List.isEmpty_cons, splitBase_digit hd hlt, hvalue, hplain]
    rfl

/-- A numeral does not begin with a sign. -/
theorem dropSign_ofNat (n : Nat) :
    dropSign (Text.ofNat n) = Text.ofNat n ∧ (Text.ofNat n).head? ≠ some 0x2d := by
  cases heq : Text.ofNat n with
  | nil =>
      exact ⟨rfl, nofun⟩
  | cons b rest =>
      have hdigit : isDigit b = true := Text.isDigit_of_mem_ofNat (n := n) (by simp [heq])
      have hminus : b ≠ 0x2d := by
        rintro rfl
        cases hdigit
      have hplus : b ≠ 0x2b := by
        rintro rfl
        cases hdigit
      simp [dropSign, hminus, hplus]

/-- The numeral of an integer is read as the integer. -/
theorem readInt64?_ofInt (n : Int64) : readInt64? (Text.ofInt n.toInt) = some n := by
  have hlow := n.le_toInt
  have hhigh := n.toInt_lt
  cases hn : n.toInt with
  | ofNat m =>
      obtain ⟨hsign, hhead⟩ := dropSign_ofNat m
      have hm : m < 0x8000000000000000 := by
        rw [hn, Int.ofNat_eq_natCast] at hhigh
        omega
      simp only [Text.ofInt, readInt64?, hsign, readNat?_ofNat, hm, if_true]
      rw [if_neg (by simpa using hhead), ← Int64.ofInt_toInt n, hn]
      rfl
  | negSucc m =>
      have hm : m + 1 ≤ 0x8000000000000000 := by
        rw [hn] at hlow
        omega
      have hread : readInt64? (0x2d :: Text.ofNat (m + 1)) =
          some (Int64.ofInt (-((m + 1 : Nat) : Int))) := by
        simp [readInt64?, dropSign, readNat?_ofNat, hm]
      rw [Text.ofInt, hread, ← Int64.ofInt_toInt n, hn]
      rfl

end Numeral

end Reading

end StackNative
