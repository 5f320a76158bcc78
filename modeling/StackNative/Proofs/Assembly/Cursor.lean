import StackNative.Assembly.Statement

/-!
# Reading statements by an index

**Input.**  Tokens, the last one of which is the end of the file.

**Algorithm.**  The parser keeps the index of the next token.  It looks at this token, steps over
it unless it is the end of the file, and behind a fault goes on to the end of the line.  Looking
at an index outside of the tokens gives `none`.

**Results.**
* `Cursor.statement`, `Cursor.synchronize`, `Cursor.parse`: the parser.
* `Cursor.parse_eq`: it never looks outside of the tokens, and finds the statements and the
  faults that `readLines` finds.
-/

namespace StackNative
namespace Assembly
namespace Cursor

open Bytecode (Opcode)

section Parser

/-- The index behind a token; the end of the file is never left behind. -/
def after (t : Token) (i : Nat) : Nat := if t.lexeme = .endOfFile then i else i + 1

variable (ts : List Token)

/-- Reads the operand of an opcode. -/
def operand (op : Opcode) (i : Nat) : Option (Except Fault Operation × Nat) :=
  if op.takesConstant then
    match ts[i]? with
    | none => none
    | some t =>
      match readLiteral op t with
      | .error f => some (.error f, i)
      | .ok v => some (.ok (.loadConstant (op = .constLong) v), after t i)
  else if 0 < op.operandWidth then
    match ts[i]? with
    | none => none
    | some t =>
      match readInteger op t with
      | .error f => some (.error f, i)
      | .ok n => some (.ok (.withInteger op n t.start), after t i)
  else some (.ok (.plain op), i)

/-- Reads a statement up to the end of its line. -/
def statement (i : Nat) : Option (Except Fault Statement × Nat) :=
  match ts[i]? with
  | none => none
  | some first =>
    match first.lexeme with
    | .word name =>
      match Opcode.ofMnemonic? name with
      | none => some (.error (first.start, .unknownMnemonic name), after first i)
      | some op =>
        match operand ts op (after first i) with
        | none => none
        | some (.error f, j) => some (.error f, j)
        | some (.ok operation, j) =>
          match ts[j]? with
          | none => none
          | some next =>
            if next.lexeme = .endOfLine then some (.ok ⟨operation, first.start⟩, j)
            else some (.error (next.start, .trailing next.lexeme.kindName op), j)
    | other => some (.error (first.start, .expectedMnemonic other.kindName), after first i)

/-- Goes on to the end of the line. -/
def synchronize (i : Nat) : Option Nat :=
  match _h : ts[i]? with
  | none => none
  | some t =>
    if t.lexeme = .endOfFile ∨ t.lexeme = .endOfLine then some i else synchronize (i + 1)
  termination_by ts.length - i
  decreasing_by
    have := (List.getElem?_eq_some_iff.mp _h).1
    omega

theorem le_after (t : Token) (i : Nat) : i ≤ after t i := by
  unfold after
  split <;> omega

/-- An operand takes one token or none. -/
theorem operand_index
    {op : Opcode}
    {i j : Nat}
    {r : Except Fault Operation}
    (h : operand ts op i = some (r, j)) :
    j = i ∨ ∃ t, ts[i]? = some t ∧ j = after t i := by
  unfold operand at h
  split at h
  · split at h
    · contradiction
    case h_2 t ht =>
      split at h
      · cases h
        exact .inl rfl
      · cases h
        exact .inr ⟨t, ht, rfl⟩
  split at h
  · split at h
    · contradiction
    case h_2 t ht =>
      split at h
      · cases h
        exact .inl rfl
      · cases h
        exact .inr ⟨t, ht, rfl⟩
  · cases h
    exact .inl rfl

/-- A statement takes the token that it begins with, and its operand takes the next. -/
theorem statement_index
    {first : Token}
    {i j : Nat}
    {r : Except Fault Statement}
    (hfirst : ts[i]? = some first)
    (h : statement ts i = some (r, j)) :
    j = after first i ∨ ∃ t, ts[after first i]? = some t ∧ j = after t (after first i) := by
  simp only [statement, hfirst] at h
  split at h
  case h_2 =>
    cases h
    exact .inl rfl
  split at h
  case h_1 =>
    cases h
    exact .inl rfl
  split at h
  · contradiction
  case h_2 hoperand =>
    cases h
    exact operand_index ts hoperand
  case h_3 hoperand =>
    split at h
    · contradiction
    split at h
    · cases h
      exact operand_index ts hoperand
    · cases h
      exact operand_index ts hoperand

theorem lt_of_statement
    {first : Token}
    {i j : Nat}
    {r : Except Fault Statement}
    (hfirst : ts[i]? = some first)
    (hfile : first.lexeme ≠ .endOfFile)
    (h : statement ts i = some (r, j)) :
    i < j := by
  have hafter : after first i = i + 1 := by simp [after, hfile]
  rcases statement_index ts hfirst h with rfl | ⟨t, -, rfl⟩
  · omega
  · have hle := le_after t (after first i)
    omega

theorem synchronize_of_some
    {i : Nat}
    {t : Token}
    (h : ts[i]? = some t) :
    synchronize ts i =
      if t.lexeme = .endOfFile ∨ t.lexeme = .endOfLine then some i else synchronize ts (i + 1) := by
  rw [synchronize]
  split
  case h_1 hnone => simp [h] at hnone
  case h_2 t' ht' =>
    obtain rfl : t = t' := by simpa [h] using ht'
    rfl

theorem synchronize_of_none
    {i : Nat}
    (h : ts[i]? = none) :
    synchronize ts i = none := by
  rw [synchronize]
  split
  · rfl
  case h_2 t ht => simp [h] at ht

theorem le_of_synchronize
    {i k : Nat}
    (h : synchronize ts i = some k) :
    i ≤ k := by
  induction i using synchronize.induct ts with
  | case1 i hnone =>
    rw [synchronize_of_none ts hnone] at h
    contradiction
  | case2 i t ht hend =>
    rw [synchronize_of_some ts ht, if_pos hend] at h
    exact Nat.le_of_eq (Option.some.inj h)
  | case3 i t ht hend ih =>
    rw [synchronize_of_some ts ht, if_neg hend] at h
    exact Nat.le_of_succ_le (ih h)

/-- Reads the statements from an index on. -/
def parse (p : Parsed) (i : Nat) : Option Parsed :=
  match _h : ts[i]? with
  | none => none
  | some t =>
    if _hfile : t.lexeme = .endOfFile then some p
    else if t.lexeme = .endOfLine then parse p (after t i)
    else
      match _hstatement : statement ts i with
      | none => none
      | some (.ok s, j) => parse { p with statements := p.statements.push s } j
      | some (.error f, j) =>
        match _hsynchronize : synchronize ts j with
        | none => none
        | some k => parse { p with faults := p.faults.push f } k
  termination_by ts.length - i
  decreasing_by
    all_goals have hlength := (List.getElem?_eq_some_iff.mp _h).1
    · have hafter : after t i = i + 1 := by simp [after, _hfile]
      omega
    · have hlt := lt_of_statement ts _h _hfile _hstatement
      omega
    · have hlt := lt_of_statement ts _h _hfile _hstatement
      have hle := le_of_synchronize ts _hsynchronize
      omega

theorem parse_of_some
    {p : Parsed}
    {i : Nat}
    {t : Token}
    (h : ts[i]? = some t) :
    parse ts p i =
      if t.lexeme = .endOfFile then some p
      else if t.lexeme = .endOfLine then parse ts p (after t i)
      else
        match statement ts i with
        | none => none
        | some (.ok s, j) => parse ts { p with statements := p.statements.push s } j
        | some (.error f, j) =>
          match synchronize ts j with
          | none => none
          | some k => parse ts { p with faults := p.faults.push f } k := by
  rw [parse]
  split
  case h_1 hnone => simp [h] at hnone
  case h_2 t' ht' =>
    obtain rfl : t = t' := by simpa [h] using ht'
    split
    · rfl
    split
    · rfl
    split
    case h_1 hnone => simp only [hnone]
    case h_2 s j hok => simp only [hok]
    case h_3 f j herror =>
      simp only [herror]
      split
      case h_1 hnone => simp only [hnone]
      case h_2 k hsome => simp only [hsome]

end Parser

section Lines

variable {ts : List Token} {i : Nat} {line rest : List Token} {lineEnd : Token}

/-- What the parser looks at in a line. -/
theorem getElem?_of_drop
    (h : ts.drop i = line ++ lineEnd :: rest) :
    ts[i]? = some (firstOr lineEnd line) := by
  rw [← List.head?_drop, h]
  cases line <;> rfl

theorem drop_succ
    {t : Token}
    (h : ts.drop i = t :: rest) :
    ts.drop (i + 1) = rest := by
  rw [← List.tail_drop, h]
  rfl

/-- The end of a line is no operand. -/
theorem ne_lineEnd_of_readLiteral
    {op : Opcode}
    {t : Token}
    {v : Bytecode.Value}
    (h : readLiteral op t = .ok v) :
    t.lexeme ≠ .endOfLine := by
  intro hend
  simp [readLiteral, hend] at h

theorem ne_lineEnd_of_readInteger
    {op : Opcode}
    {t : Token}
    {n : Int64}
    (h : readInteger op t = .ok n) :
    t.lexeme ≠ .endOfLine := by
  intro hend
  simp [readInteger, hend] at h

variable (hend : lineEnd.lexeme = .endOfLine)

theorem operand_of_error
    (h : ts.drop i = line ++ lineEnd :: rest)
    {op : Opcode}
    {f : Fault}
    (hread : readOperation op lineEnd line = .error f) :
    operand ts op i = some (.error f, i) := by
  simp only [readOperation] at hread
  simp only [operand, getElem?_of_drop h]
  split at hread
  case isTrue hconstant =>
    rw [if_pos hconstant]
    split at hread
    · contradiction
    case h_2 f' hf =>
      cases hread
      simp only [hf]
  case isFalse hconstant =>
    rw [if_neg hconstant]
    split at hread
    case isTrue hwidth =>
      rw [if_pos hwidth]
      split at hread
      · contradiction
      case h_2 f' hf =>
        cases hread
        simp only [hf]
    case isFalse hwidth => contradiction

include hend in
/-- A token that the parser steps over inside a line. -/
theorem exists_tail
    (h : ts.drop i = line ++ lineEnd :: rest)
    (hline : ∀ t ∈ line, t.lexeme ≠ .endOfFile)
    (hne : (firstOr lineEnd line).lexeme ≠ .endOfLine) :
    after (firstOr lineEnd line) i = i + 1 ∧ ts.drop (i + 1) = line.tail ++ lineEnd :: rest ∧
      i + 1 + line.tail.length = i + line.length := by
  cases line with
  | nil => exact absurd hend hne
  | cons t line =>
    refine ⟨if_neg (hline t List.mem_cons_self), drop_succ h, ?_⟩
    simp only [List.tail_cons, List.length_cons]
    omega

include hend in
theorem operand_of_ok
    (h : ts.drop i = line ++ lineEnd :: rest)
    (hline : ∀ t ∈ line, t.lexeme ≠ .endOfFile)
    {op : Opcode}
    {operation : Operation}
    {more : List Token}
    (hread : readOperation op lineEnd line = .ok (operation, more)) :
    ∃ j, operand ts op i = some (.ok operation, j) ∧ ts.drop j = more ++ lineEnd :: rest ∧
      j + more.length = i + line.length ∧ ∀ t ∈ more, t ∈ line := by
  simp only [readOperation] at hread
  simp only [operand, getElem?_of_drop h]
  split at hread
  case isTrue hconstant =>
    rw [if_pos hconstant]
    split at hread
    case h_1 v hv =>
      cases hread
      obtain ⟨hafter, hdrop, hlength⟩ :=
        exists_tail hend h hline (ne_lineEnd_of_readLiteral hv)
      simp only [hv, hafter]
      exact ⟨i + 1, rfl, hdrop, hlength, fun t ht => List.mem_of_mem_tail ht⟩
    · contradiction
  case isFalse hconstant =>
    rw [if_neg hconstant]
    split at hread
    case isTrue hwidth =>
      rw [if_pos hwidth]
      split at hread
      case h_1 n hn =>
        cases hread
        obtain ⟨hafter, hdrop, hlength⟩ :=
          exists_tail hend h hline (ne_lineEnd_of_readInteger hn)
        simp only [hn, hafter]
        exact ⟨i + 1, rfl, hdrop, hlength, fun t ht => List.mem_of_mem_tail ht⟩
      · contradiction
    case isFalse hwidth =>
      cases hread
      rw [if_neg hwidth]
      exact ⟨i, rfl, h, rfl, fun t ht => ht⟩

include hend in
/-- Behind a fault the parser goes on to the end of the line. -/
theorem synchronize_line
    (h : ts.drop i = line ++ lineEnd :: rest)
    (hline : ∀ t ∈ line, t.lexeme ≠ .endOfFile ∧ t.lexeme ≠ .endOfLine) :
    synchronize ts i = some (i + line.length) := by
  induction line generalizing i with
  | nil =>
    rw [synchronize_of_some ts (getElem?_of_drop h), if_pos (.inr hend)]
    rfl
  | cons t line ih =>
    obtain ⟨⟨hfile, hne⟩, hline⟩ := List.forall_mem_cons.mp hline
    have hgo : ¬ ((firstOr lineEnd (t :: line)).lexeme = .endOfFile ∨
        (firstOr lineEnd (t :: line)).lexeme = .endOfLine) := not_or.mpr ⟨hfile, hne⟩
    rw [synchronize_of_some ts (getElem?_of_drop h), if_neg hgo, ih (drop_succ h) hline,
      List.length_cons]
    congr 1
    omega

include hend in
/-- A line is read as a statement or a fault, and then the parser is at its end. -/
theorem statement_line
    {first : Token}
    (h : ts.drop i = first :: (line ++ lineEnd :: rest))
    (hline : ∀ t ∈ first :: line, t.lexeme ≠ .endOfFile ∧ t.lexeme ≠ .endOfLine) :
    ∃ j, statement ts i = some (readLine first line lineEnd, j) ∧
      synchronize ts j = some (i + 1 + line.length) ∧
      ∀ s, readLine first line lineEnd = .ok s → j = i + 1 + line.length := by
  obtain ⟨⟨hfile, -⟩, hline⟩ := List.forall_mem_cons.mp hline
  have hfirst : ts[i]? = some first := by
    rw [← List.head?_drop, h]
    rfl
  have hdrop := drop_succ h
  have hafter : after first i = i + 1 := if_neg hfile
  have hsynchronize := synchronize_line hend hdrop hline
  simp only [statement, hfirst, readLine, hafter]
  cases first.lexeme with
  | word name =>
    dsimp only
    cases Opcode.ofMnemonic? name with
    | none => exact ⟨_, rfl, hsynchronize, by simp⟩
    | some op =>
      dsimp only
      cases hread : readOperation op lineEnd line with
      | error f =>
        rw [operand_of_error hdrop hread]
        exact ⟨_, rfl, hsynchronize, by simp⟩
      | ok x =>
        obtain ⟨operation, more⟩ := x
        obtain ⟨j, hoperand, hdropj, hlength, hmem⟩ :=
          operand_of_ok hend hdrop (fun t ht => (hline t ht).1) hread
        have hnext := getElem?_of_drop hdropj
        rw [hoperand]
        dsimp only
        rw [hnext]
        cases more with
        | nil =>
          refine ⟨j, by simp [firstOr, hend], ?_, fun _ _ => hlength⟩
          rw [synchronize_line hend hdropj (by simp), ← hlength]
        | cons next more =>
          have hmore := fun t ht => hline t (hmem t ht)
          refine ⟨j, by simp [firstOr, (hmore next List.mem_cons_self).2], ?_, by simp⟩
          rw [synchronize_line hend hdropj hmore, ← hlength]
  | _ => exact ⟨_, rfl, hsynchronize, by simp⟩

include hend in
/-- A line is read as `readLine` reads it, and nothing behind it is touched. -/
theorem parse_line
    (h : ts.drop i = line ++ lineEnd :: rest)
    (hline : ∀ t ∈ line, t.lexeme ≠ .endOfFile ∧ t.lexeme ≠ .endOfLine)
    (p : Parsed) :
    parse ts p i = parse ts (p.addLine line lineEnd) (i + line.length + 1) := by
  have hfile : lineEnd.lexeme ≠ .endOfFile := by simp [hend]
  -- at the end of a line the parser steps over it
  have hstep : ∀ q j, ts[j]? = some lineEnd → parse ts q j = parse ts q (j + 1) := by
    intro q j hj
    rw [parse_of_some ts hj, if_neg hfile, if_pos hend, after, if_neg hfile]
  cases line with
  | nil => exact hstep p i (getElem?_of_drop h)
  | cons first line =>
    obtain ⟨⟨hfirst, hne⟩, -⟩ := List.forall_mem_cons.mp hline
    obtain ⟨j, hstatement, hsynchronize, hindex⟩ := statement_line hend h hline
    have hlength : i + 1 + line.length = i + (first :: line).length := by
      rw [List.length_cons]
      omega
    have hlast : ts[i + 1 + line.length]? = some lineEnd := by
      have hdrop : (ts.drop i)[1 + line.length]? = some lineEnd := by
        rw [h, List.getElem?_append_right (by rw [List.length_cons]; omega)]
        simp [Nat.add_comm 1]
      rw [← hdrop, List.getElem?_drop, Nat.add_assoc]
    rw [parse_of_some ts (getElem?_of_drop h)]
    simp only [firstOr, hfirst, hne, if_false, hstatement, Parsed.addLine]
    cases hread : readLine first line lineEnd with
    | ok s =>
      obtain rfl := hindex s hread
      dsimp only
      rw [hstep _ _ hlast, hlength]
    | error f =>
      simp only [hsynchronize]
      rw [hstep _ _ hlast, hlength]

/-- The parser finds what the reader of lines finds. -/
theorem parse_drop
    {front : List Token}
    {last : Token}
    (hlast : last.lexeme = .endOfFile)
    (h : ts.drop i = line.reverse ++ (front ++ [last]))
    (hline : ∀ t ∈ line, t.lexeme ≠ .endOfFile ∧ t.lexeme ≠ .endOfLine)
    (hfront : ∀ t ∈ front, t.lexeme ≠ .endOfFile)
    (hclosed : front = [] → line = [])
    (hends : ∀ t, front.getLast? = some t → t.lexeme = .endOfLine)
    (p : Parsed) :
    parse ts p i = some (readLines p line front) := by
  induction front generalizing i line p with
  | nil =>
    obtain rfl := hclosed rfl
    have hget : ts[i]? = some last := by
      rw [← List.head?_drop, h]
      rfl
    rw [parse_of_some ts hget, if_pos hlast]
    rfl
  | cons t front ih =>
    obtain ⟨hfile, hfront⟩ := List.forall_mem_cons.mp hfront
    have hends' : ∀ u, front.getLast? = some u → u.lexeme = .endOfLine := by
      intro u hu
      exact hends u (by rw [List.getLast?_cons, hu]; rfl)
    rw [readLines]
    split
    case isTrue hend =>
      have hdrop : ts.drop (i + line.reverse.length + 1) = [].reverse ++ (front ++ [last]) := by
        refine drop_succ (t := t) ?_
        rw [← List.drop_drop, h, List.drop_left]
        rfl
      rw [parse_line hend h (fun u hu => hline u (List.mem_reverse.mp hu))]
      exact ih hdrop (by simp) hfront (fun _ => rfl) hends' _
    case isFalse hne =>
      have hdrop : ts.drop i = (t :: line).reverse ++ (front ++ [last]) := by
        rw [h]
        simp
      refine ih hdrop (List.forall_mem_cons.mpr ⟨⟨hfile, hne⟩, hline⟩) hfront ?_ hends' p
      rintro rfl
      exact absurd (hends t rfl) hne

/-- On tokens that end with a line and the end of the file, the parser finds the statements and
the faults that the reader of lines finds. -/
theorem parse_eq
    {front : List Token}
    {last : Token}
    (hlast : last.lexeme = .endOfFile)
    (hfront : ∀ t ∈ front, t.lexeme ≠ .endOfFile)
    (hends : ∀ t, front.getLast? = some t → t.lexeme = .endOfLine) :
    parse (front ++ [last]) {} 0 = some (readLines {} [] front) := by
  have hdrop : (front ++ [last]).drop 0 = [].reverse ++ (front ++ [last]) := rfl
  exact parse_drop hlast hdrop (by simp) hfront (fun _ => rfl) hends {}

end Lines

end Cursor
end Assembly
end StackNative
