import StackNative.Text.Utf8

/-!
# Valid texts

**Input.**  Texts read as sequences of characters.

**Algorithm.**  A text is valid if characters can be taken from its front until
nothing is left.

**Results.**
* `frontChar_eq_some`: all that the first character of a text depends on.
* `isValid_iff`: the check accepts exactly the sequences of characters.
* `isValid_flatten`: valid texts one after the other are a valid text.
-/

namespace StackNative
namespace Text

/-- A sequence of characters. -/
inductive Utf8 : Text → Prop
  | nil : Utf8 []
  | cons {a : UInt8} {rest : Text} {c : Char} {more : Nat} :
      frontChar (a :: rest) = some (c, more) → Utf8 (rest.drop more) → Utf8 (a :: rest)

variable {t u : Text} {a : UInt8} {rest : Text} {c : Char} {more : Nat}

/-- The first character has its bytes for itself: what follows them may be anything. -/
theorem frontChar_eq_some
    (h : frontChar t = some (c, more)) :
    ∃ front rest, t = front ++ rest ∧ front.length = more + 1 ∧
      ∀ rest', frontChar (front ++ rest') = some (c, more) := by
  revert h
  fun_cases frontChar t with
  | case1 =>
      rintro ⟨⟩
  | case2 a rest ha =>
      rintro ⟨⟩
      exact ⟨[a], rest, rfl, rfl, fun rest' => by simp [frontChar, ha]⟩
  | case3 =>
      rintro ⟨⟩
  | case4 a ha b rest hb =>
      rintro ⟨⟩
      exact ⟨[a, b], rest, rfl, rfl, fun rest' => by simp [frontChar, ha, hb]⟩
  | case5 =>
      rintro ⟨⟩
  | case6 a ha b hb d rest hd =>
      rintro ⟨⟩
      refine ⟨[a, b, d], rest, rfl, rfl, fun rest' => ?_⟩
      simp only [Bool.and_eq_true] at hd
      simp [frontChar, ha, hb, hd]
  | case7 =>
      rintro ⟨⟩
  | case8 a ha b hb d hd e rest he =>
      rintro ⟨⟩
      refine ⟨[a, b, d, e], rest, rfl, rfl, fun rest' => ?_⟩
      simp only [Bool.and_eq_true] at he
      have hthree : accepts3 a b = false := by simpa [he] using hd
      simp [frontChar, ha, hb, hthree, he]
  | case9 =>
      rintro ⟨⟩

section Pieces

theorem toList_piecesOnto (done : Array Piece) (skip : Nat) (t : Text) :
    (piecesOnto done skip t).toList = done.toList ++ pieces (t.drop skip) := by
  induction t generalizing done skip with
  | nil =>
      simp [piecesOnto, pieces]
  | cons a rest ih =>
      cases skip with
      | succ skip =>
          rw [piecesOnto, ih, List.drop_succ_cons]
      | zero =>
          rw [List.drop_zero, pieces, piecesOnto, piecesOnto]
          split <;> simp [ih]

theorem pieces_cons_of_some
    (h : frontChar (a :: rest) = some (c, more)) :
    pieces (a :: rest) = .scalar c :: pieces (rest.drop more) := by
  rw [pieces, piecesOnto, h]
  simp [toList_piecesOnto]

theorem pieces_cons_of_none
    (h : frontChar (a :: rest) = none) :
    pieces (a :: rest) = .stray a :: pieces rest := by
  rw [pieces, piecesOnto, h]
  simp [toList_piecesOnto]

end Pieces

section Validity

theorem utf8_of_ascii
    (h : ∀ b ∈ t, b < 0x80) :
    Utf8 t := by
  induction t with
  | nil =>
      exact .nil
  | cons a rest ih =>
      have ha : frontChar (a :: rest) = some (Char.ofNat a.toNat, 0) := by
        simp [frontChar, h a List.mem_cons_self]
      exact .cons ha (ih fun b hb => h b (List.mem_cons_of_mem a hb))

theorem utf8_of_pieces
    (t : Text)
    (h : ∀ p ∈ pieces t, ∃ c, p = .scalar c) :
    Utf8 t := by
  match t with
  | [] =>
      exact .nil
  | a :: rest =>
      cases hfront : frontChar (a :: rest) with
      | none =>
          rw [pieces_cons_of_none hfront] at h
          obtain ⟨c, hc⟩ := h _ List.mem_cons_self
          cases hc
      | some found =>
          rw [pieces_cons_of_some hfront] at h
          exact .cons hfront (utf8_of_pieces _ fun p hp => h p (List.mem_cons_of_mem _ hp))
termination_by t.length
decreasing_by
  simp only [List.length_drop, List.length_cons]
  omega

theorem isValid_iff (t : Text) : isValid t = true ↔ Utf8 t := by
  constructor
  · intro h
    rcases Bool.or_eq_true_iff.mp h with h | h
    · exact utf8_of_ascii (by simpa using h)
    · refine utf8_of_pieces t ?_
      intro p hp
      have hscalar := List.all_eq_true.mp h p hp
      cases p with
      | scalar c =>
          exact ⟨c, rfl⟩
      | stray b =>
          cases hscalar
  · intro h
    refine Bool.or_eq_true_iff.mpr (Or.inr ?_)
    induction h with
    | nil =>
        rfl
    | cons hfront _ ih =>
        rw [pieces_cons_of_some hfront]
        exact ih

theorem Utf8.append
    (ht : Utf8 t)
    (hu : Utf8 u) :
    Utf8 (t ++ u) := by
  induction ht with
  | nil =>
      exact hu
  | @cons a rest c more hfront _ ih =>
      obtain ⟨front, back, heq, hlength, hany⟩ := frontChar_eq_some hfront
      have hmore : more ≤ rest.length := by
        have hsum := congrArg List.length heq
        simp only [List.length_cons, List.length_append] at hsum
        omega
      have hfront' : frontChar (a :: (rest ++ u)) = some (c, more) := by
        rw [← List.cons_append, heq, List.append_assoc]
        exact hany _
      rw [List.cons_append]
      refine .cons hfront' ?_
      rw [List.drop_append_of_le_length hmore]
      exact ih

theorem isValid_flatten
    {ts : List Text}
    (h : ∀ t ∈ ts, isValid t = true) :
    isValid ts.flatten = true := by
  induction ts with
  | nil =>
      rfl
  | cons t ts ih =>
      have ht := (isValid_iff t).mp (h t List.mem_cons_self)
      have hts := (isValid_iff _).mp (ih fun u hu => h u (List.mem_cons_of_mem t hu))
      rw [List.flatten_cons, isValid_iff]
      exact ht.append hts

end Validity

end Text
end StackNative
