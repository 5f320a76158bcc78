import StackNative.Proofs.Assembly.Emission

/-!
# What every assembled source has in common

**Input.**  Any source that is assembled.

**Algorithm.**  What holds of the open text and of the tokens is kept by each byte; what
holds of the statements is kept by each line.

**Results.**
* `Scan.Within`, `Scan.Within.step`, `tokens_within`: no string is longer than the source.
* `Operation.Accepted`, `readLine_accepted`, `statements_accepted`: each statement has an
  operand of the form of its opcode, and each constant is a literal.
* `exists_statements`: an assembled chunk is the code of such statements.
-/

namespace StackNative
namespace Assembly

open Bytecode (Opcode Value Chunk Instruction)

section Bytes

variable {size : Nat}

/-- A string is no longer than a size. -/
def Lexeme.Within (size : Nat) : Lexeme → Prop
  | .string content => content.length ≤ size
  | _ => True

/-- The open string is no longer than a size. -/
def Mode.Within (size : Nat) : Mode → Prop
  | .string _ last => last.length ≤ size
  | .escape _ last => last.length ≤ size
  | _ => True

/-- Neither the open string nor any string before it is longer than a size. -/
structure Scan.Within (size : Nat) (s : Scan) : Prop where
  mode : s.mode.Within size
  tokens : ∀ t ∈ s.tokens, t.lexeme.Within size

theorem Lexeme.Within.mono
    {size' : Nat} {x : Lexeme}
    (h : x.Within size)
    (hle : size ≤ size') :
    x.Within size' := by
  cases x with
  | string content =>
      exact Nat.le_trans h hle
  | _ =>
      trivial

theorem Mode.Within.mono
    {size' : Nat} {mode : Mode}
    (h : mode.Within size)
    (hle : size ≤ size') :
    mode.Within size' := by
  cases mode with
  | string start last =>
      exact Nat.le_trans h hle
  | escape start last =>
      exact Nat.le_trans h hle
  | _ =>
      trivial

namespace Scan.Within

variable {s : Scan}

theorem mono
    {size' : Nat}
    (h : s.Within size)
    (hle : size ≤ size') :
    s.Within size' :=
  ⟨h.mode.mono hle, fun t ht => (h.tokens t ht).mono hle⟩

theorem add
    (h : s.Within size)
    {x : Lexeme}
    (hx : x.Within size)
    (start : Position) :
    (s.add x start).Within size :=
  ⟨h.mode, Array.forall_mem_push.mpr ⟨hx, h.tokens⟩⟩

theorem fault
    (h : s.Within size)
    (start : Position)
    (f : LexFault) :
    (s.fault start f).Within size :=
  ⟨h.mode, h.tokens⟩

theorem advance
    (h : s.Within size)
    {mode : Mode}
    (hmode : mode.Within size) :
    (s.advance mode).Within size :=
  ⟨hmode, h.tokens⟩

theorem close
    (h : s.Within size) :
    s.close.Within size := by
  have hnumber : ∀ hex last, (Scan.numberLexeme hex last).Within size := by
    intro hex last
    simp only [Scan.numberLexeme]
    split <;> trivial
  unfold Scan.close
  split
  case h_4 start last _ => exact ⟨trivial, (h.add (x := .word last.reverse) trivial start).tokens⟩
  case h_5 start hex last _ => exact ⟨trivial, (h.add (hnumber hex last) start).tokens⟩
  -- in the other modes no token is open, or a fault takes its place
  all_goals exact ⟨trivial, h.tokens⟩

theorem begin
    (h : s.Within size)
    (b : UInt8) :
    (s.begin b).Within size := by
  unfold Scan.begin
  split
  · exact h.advance trivial
  split
  · exact ⟨trivial, (h.add (x := .endOfLine) trivial s.next).tokens⟩
  split
  · exact h.advance trivial
  split
  · exact h.advance (Nat.zero_le size)
  split
  · exact h.advance trivial
  split
  · exact h.advance trivial
  split
  · exact h.advance trivial
  · exact (h.fault _ _).advance trivial

/-- One byte makes the open string at most one byte longer. -/
theorem step
    (h : s.Within size)
    (b : UInt8) :
    (s.step b).Within (size + 1) := by
  have hmono := h.mono (Nat.le_succ size)
  unfold Scan.step
  cases hmode : s.mode with
  | between =>
      exact hmono.begin b
  | comment =>
      simp only
      split
      · exact hmono.close.begin b
      · exact hmono.advance trivial
  | sign c start =>
      simp only
      split
      · exact hmono.advance trivial
      · exact hmono.close.begin b
  | word start last =>
      simp only
      split
      · exact hmono.advance trivial
      · exact hmono.close.begin b
  | number start hex last =>
      simp only
      split
      · exact hmono.advance trivial
      · exact hmono.close.begin b
  -- only inside quotes can a byte make a string longer
  | string start last =>
      have hlast : last.length ≤ size := by
        have hopen := h.mode
        rwa [hmode] at hopen
      simp only
      split
      · exact hmono.close.begin b
      split
      · refine (hmono.add (x := .string last.reverse) ?_ start).advance trivial
        rw [Lexeme.Within, List.length_reverse]
        exact Nat.le_succ_of_le hlast
      split
      · exact hmono.advance (Nat.le_succ_of_le hlast)
      · exact hmono.advance (Nat.succ_le_succ hlast)
  | escape start last =>
      have hlast : last.length ≤ size := by
        have hopen := h.mode
        rwa [hmode] at hopen
      simp only
      split
      · exact hmono.advance (Nat.succ_le_succ hlast)
      · exact (hmono.fault _ _).advance (Nat.le_succ_of_le hlast)

theorem foldl
    (h : s.Within size)
    (t : Text) :
    (t.foldl Scan.step s).Within (size + t.length) := by
  induction t generalizing s size with
  | nil =>
      exact h
  | cons b t ih =>
      have hrest := ih (h.step b)
      rwa [Nat.add_right_comm, Nat.add_assoc] at hrest

theorem finish
    (h : s.Within size) :
    s.finish.Within size := by
  rw [Scan.finish]
  refine add (x := .endOfFile) ?_ trivial _
  split
  · exact h.close
  split
  · exact h.close
  · exact h.close.add (x := .endOfLine) trivial _

end Scan.Within

/-- No string is longer than the source. -/
theorem tokens_within
    {source : Text} {ts : List Token}
    (h : tokens source = .ok ts) :
    ∀ t ∈ ts, t.lexeme.Within source.length := by
  have hinit : Scan.init.Within 0 := ⟨trivial, nofun⟩
  have hscan : (scan source).Within source.length := by
    have hrun := hinit.foldl source
    rw [Nat.zero_add] at hrun
    exact hrun.finish
  rw [tokens] at h
  split at h
  · cases h
    intro t ht
    exact hscan.tokens t (Array.mem_toList_iff.mp ht)
  · cases h

end Bytes

section Floats

theorem isNaN_zero (negative : Bool) : (Binary64.ofFraction negative 0 1).isNaN = false := by
  cases negative <;> decide

/-- Every float that is read is a number. -/
theorem isNaN_of_readBinary64?
    {t : Text} {x : Binary64}
    (h : Numeral.readBinary64? t = some x) :
    x.isNaN = false := by
  have hnearest : ∀ negative digits exponent,
      Numeral.nearest? negative digits exponent = some x → x.isNaN = false := by
    intro negative digits exponent hx
    simp only [Numeral.nearest?] at hx
    split at hx
    · cases hx
      exact isNaN_zero negative
    split at hx
    · cases hx
    split at hx
    · cases hx
      exact isNaN_zero negative
    split at hx
    · next hfinite =>
        cases hx
        rw [Binary64.isNaN, hfinite]
    · cases hx
  simp only [Numeral.readBinary64?] at h
  split at h
  · cases h
  split at h
  · cases h
  split at h
  · cases h
  · exact hnearest _ _ _ h

end Floats

section Lines

variable {size : Nat}

/-- A constant as a literal gives it: a string is no longer than a size, and a float is a number. -/
def IsLiteral (size : Nat) : Value → Prop
  | .null | .bool _ | .int _ => True
  | .float x => x.isNaN = false
  | .string s => s.length ≤ size
  | _ => False

/-- An operation as a line gives it: the operand is of the form of the opcode, the constant a
literal. -/
structure Operation.Accepted (size : Nat) (o : Operation) : Prop where
  proper : o.Proper
  constant : ∀ v, o.constant? = some v → IsLiteral size v

theorem readLiteral_isLiteral
    {op : Opcode} {t : Token} {v : Value}
    (ht : t.lexeme.Within size)
    (h : readLiteral op t = .ok v) :
    IsLiteral size v := by
  unfold readLiteral at h
  split at h
  · split at h
    · cases h
      trivial
    · cases h
  · split at h
    · next hx =>
        cases h
        exact isNaN_of_readBinary64? hx
    · cases h
  · next hcontent =>
      cases h
      rwa [hcontent] at ht
  · split at h
    · cases h
      trivial
    split at h
    · cases h
      trivial
    split at h
    · cases h
      trivial
    · cases h
  · cases h

theorem readOperation_accepted
    {op : Opcode} {lineEnd : Token} {rest rest' : List Token} {o : Operation}
    (hend : lineEnd.lexeme.Within size)
    (hrest : ∀ t ∈ rest, t.lexeme.Within size)
    (h : readOperation op lineEnd rest = .ok (o, rest')) :
    o.Accepted size := by
  have hfirst : (firstOr lineEnd rest).lexeme.Within size := by
    cases rest with
    | nil =>
        exact hend
    | cons t rest =>
        exact hrest t List.mem_cons_self
  simp only [readOperation] at h
  split at h
  · split at h
    · next v hv =>
        cases h
        refine ⟨trivial, ?_⟩
        rintro w ⟨⟩
        exact readLiteral_isLiteral hfirst hv
    · cases h
  next hconstant =>
    split at h
    · next hwidth =>
        split at h
        · cases h
          refine ⟨⟨?_, by simpa using hconstant⟩, ?_⟩
          · intro hform
            rw [Opcode.operandWidth, hform] at hwidth
            exact Nat.lt_irrefl 0 hwidth
          · rintro v ⟨⟩
        · cases h
    · next hwidth =>
        cases h
        constructor
        · rw [Opcode.operandWidth] at hwidth
          rw [Operation.Proper]
          cases hform : op.operandForm with
          | none =>
              rfl
          | _ =>
              rw [hform] at hwidth
              exact absurd (by decide) hwidth
        · rintro v ⟨⟩

/-- A line that is read gives such an operation. -/
theorem readLine_accepted
    {first lineEnd : Token} {rest : List Token} {s : Statement}
    (hend : lineEnd.lexeme.Within size)
    (hrest : ∀ t ∈ rest, t.lexeme.Within size)
    (h : readLine first rest lineEnd = .ok s) :
    s.operation.Accepted size := by
  unfold readLine at h
  split at h
  · split at h
    · cases h
    · split at h
      · cases h
      · next hread =>
          cases h
          exact readOperation_accepted hend hrest hread
      · cases h
  · cases h

theorem addLine_accepted
    {p : Parsed} {line : List Token} {lineEnd : Token}
    (h : ∀ s ∈ p.statements, s.operation.Accepted size)
    (hend : lineEnd.lexeme.Within size)
    (hline : ∀ t ∈ line, t.lexeme.Within size) :
    ∀ s ∈ (p.addLine line lineEnd).statements, s.operation.Accepted size := by
  unfold Parsed.addLine
  split
  · exact h
  · next first rest =>
      split
      · next s hs =>
          have hrest := (List.forall_mem_cons.mp hline).2
          exact Array.forall_mem_push.mpr ⟨readLine_accepted hend hrest hs, h⟩
      · exact h

/-- Lines that are read give such operations. -/
theorem readLines_accepted
    {p : Parsed} {line ts : List Token}
    (h : ∀ s ∈ p.statements, s.operation.Accepted size)
    (hline : ∀ t ∈ line, t.lexeme.Within size)
    (hts : ∀ t ∈ ts, t.lexeme.Within size) :
    ∀ s ∈ (readLines p line ts).statements, s.operation.Accepted size := by
  induction ts generalizing p line with
  | nil =>
      exact h
  | cons t ts ih =>
      obtain ⟨ht, hts⟩ := List.forall_mem_cons.mp hts
      rw [readLines]
      split
      · have hreverse : ∀ t ∈ line.reverse, t.lexeme.Within size :=
          fun t ht => hline t (List.mem_reverse.mp ht)
        exact ih (addLine_accepted h ht hreverse) nofun hts
      · exact ih h (List.forall_mem_cons.mpr ⟨ht, hline⟩) hts

theorem statements_accepted
    {ts : List Token} {ss : List Statement}
    (hts : ∀ t ∈ ts, t.lexeme.Within size)
    (h : statements ts = .ok ss) :
    ∀ s ∈ ss, s.operation.Accepted size := by
  simp only [statements] at h
  split at h
  · cases h
    intro s hs
    refine readLines_accepted ?_ ?_ hts s (Array.mem_toList_iff.mp hs)
    · nofun
    · nofun
  · cases h

end Lines

/-- An assembled chunk is the code of accepted statements with which nothing is wrong. -/
theorem exists_statements
    {source : Text} {c : Chunk}
    (h : assemble source = .ok c) :
    ∃ ss, (∀ s ∈ ss, s.operation.Accepted source.length) ∧ faults 0 ss = [] ∧
      c.Written (code 0 0 ss) ∧ c.constants.toList = constants ss := by
  unfold assemble at h
  split at h
  · cases h
  next ts hts =>
    split at h
    · cases h
    next ss hss =>
      have haccepted := statements_accepted (tokens_within hts) hss
      have hproper : ∀ s ∈ ss, s.operation.Proper := fun s hs => (haccepted s hs).proper
      split at h
      · cases h
      next c' hemit =>
        cases h
        refine ⟨ss, haccepted, ?_⟩
        -- were anything wrong with the statements, they would not have given a chunk
        rcases Decidable.em (faults 0 ss = []) with hfaults | hfaults
        · obtain ⟨d, hd, hwritten, hconstants⟩ := emit_ok hproper hfaults
          rw [hemit] at hd
          cases hd
          exact ⟨hfaults, hwritten, hconstants⟩
        · rw [emit_error hproper hfaults] at hemit
          cases hemit

end Assembly
end StackNative
