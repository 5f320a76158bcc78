import StackNative.Proofs.Assembly.Emission
import StackNative.Proofs.Assembly.Printing

/-!
# Printed lines are assembled

**Input.**  Lines of assembly as they are printed.

**Algorithm.**  The tokens of each line are read as one statement, and the statements
write their code.

**Results.**
* `Line.statement`, `lineStatements`: the statements that lines stand for.
* `Line.addLine_tokens`, `statements_lineTokens`: the reader of lines finds them.
* `assemble_printed`: printed lines are assembled to their code and their constants, or
  all that is wrong with them is told.
-/

namespace StackNative
namespace Assembly

open Bytecode (Opcode Value Chunk Instruction)

section Meaning

namespace Line

/-- What the line with a number tells the machine to do. -/
def operation (k : Nat) (l : Line) : Operation :=
  match l with
  | .plain op _ => .plain op
  | .integer op _ n => .withInteger op n (l.operandStart k)
  | .constant long literal => .loadConstant long literal.value

/-- The statement of the line with a number. -/
def statement (k : Nat) (l : Line) : Statement := ⟨l.operation k, ⟨k, 1⟩⟩

end Line

/-- The statements of lines from a number on. -/
def lineStatements (k : Nat) : List Line → List Statement
  | [] => []
  | l :: ls => l.statement k :: lineStatements (k + 1) ls

theorem proper_lineStatements (k : Nat) (ls : List Line) :
    ∀ s ∈ lineStatements k ls, s.operation.Proper := by
  induction ls generalizing k with
  | nil =>
      exact nofun
  | cons l ls ih =>
      refine List.forall_mem_cons.mpr ⟨?_, ih (k + 1)⟩
      cases l with
      | plain op h =>
          exact h
      | integer op h n =>
          exact h
      | constant long literal =>
          trivial

end Meaning

section Reading

theorem ofMnemonic?_mnemonic (op : Opcode) : Opcode.ofMnemonic? op.mnemonic = some op := by
  cases op <;> decide +kernel

theorem Literal.readLiteral_lexeme (literal : Literal) (op : Opcode) (p : Position) :
    readLiteral op ⟨literal.lexeme, p⟩ = .ok literal.value := by
  cases literal with
  | int n =>
      simp [readLiteral, lexeme, value, Numeral.readInt64?_ofInt]
  | bool b =>
      cases b <;> rfl
  | null =>
      rfl
  | string s =>
      rfl

/-- The operand of a line is read as its opcode asks for. -/
theorem Line.readOperation_operand (k : Nat) (l : Line) :
    readOperation l.op (l.lineEnd k) (l.operand?.toList.map fun x => ⟨x.lexeme, l.operandStart k⟩) =
      .ok (l.operation k, []) := by
  cases l with
  | plain op h =>
      have hconstant : op.takesConstant = false := by
        cases op <;> first | rfl | cases h
      simp [readOperation, Line.op, operand?, hconstant, Opcode.operandWidth, h,
        Bytecode.OperandForm.width, operation]
  | integer op h n =>
      have hwidth : 0 < op.operandWidth := by
        obtain ⟨hform, -⟩ := h
        rw [Opcode.operandWidth]
        cases hop : op.operandForm with
        | none =>
            exact absurd hop hform
        | _ =>
            decide
      simp [readOperation, Line.op, operand?, h.2, hwidth, firstOr, readInteger, Literal.lexeme,
        Numeral.readInt64?_ofInt, operation]
  | constant long literal =>
      cases long <;>
        simp [readOperation, Line.op, operand?, Opcode.takesConstant, firstOr,
          Literal.readLiteral_lexeme, operation]

/-- The tokens of a line are read as its statement. -/
theorem Line.addLine_tokens (k : Nat) (l : Line) (p : Parsed) :
    p.addLine (l.tokens k) (l.lineEnd k) =
      { p with statements := p.statements.push (l.statement k) } := by
  simp only [Parsed.addLine, tokens, readLine, ofMnemonic?_mnemonic, readOperation_operand]
  rfl

/-- Tokens up to the end of a line are one line. -/
theorem readLines_line
    {line : List Token}
    (h : ∀ t ∈ line, t.lexeme ≠ .endOfLine)
    {lineEnd : Token}
    (hend : lineEnd.lexeme = .endOfLine)
    (p : Parsed)
    (front rest : List Token) :
    readLines p front (line ++ lineEnd :: rest) =
      readLines (p.addLine (front.reverse ++ line) lineEnd) [] rest := by
  induction line generalizing front with
  | nil =>
      simp [readLines, hend]
  | cons t line ih =>
      obtain ⟨ht, hline⟩ := List.forall_mem_cons.mp h
      rw [List.cons_append, readLines, if_neg ht, ih hline, List.reverse_cons, List.append_assoc,
        List.singleton_append]

/-- The tokens of lines are read as their statements. -/
theorem readLines_lineTokens (k : Nat) (ls : List Line) (p : Parsed) (rest : List Token) :
    readLines p [] (lineTokens k ls ++ rest) =
      readLines { p with statements := p.statements ++ (lineStatements k ls).toArray } [] rest := by
  induction ls generalizing k p with
  | nil =>
      simp [lineTokens, lineStatements]
  | cons l ls ih =>
      rw [lineTokens, List.append_assoc, List.cons_append,
        readLines_line (fun t ht => l.lexeme_ne_endOfLine ht) rfl, List.reverse_nil,
        List.nil_append, l.addLine_tokens, ih]
      simp [lineStatements]

theorem statements_lineTokens (ls : List Line) (p : Position) :
    statements (lineTokens 1 ls ++ [⟨.endOfFile, p⟩]) = .ok (lineStatements 1 ls) := by
  rw [statements, readLines_lineTokens]
  simp [readLines]

end Reading

/-- Printed lines are neither refused by the machine that takes bytes nor by the reader of lines.
If each integer is in the range of its opcode and there are at most 65536 constants, the chunk has
the instructions and the constants of the lines; else all that is wrong is told, line by line. -/
theorem assemble_printed
    {ls : List Line} {source : Text}
    (h : source = printed ls ∨ source ++ [0x0a] = printed ls) :
    ((∀ s ∈ lineStatements 1 ls, s.operation.InRange) ∧
        (constants (lineStatements 1 ls)).length ≤ 65536 →
      ∃ c, assemble source = .ok c ∧ c.instructions = .ok (code 0 0 (lineStatements 1 ls)) ∧
        c.constants.toList = constants (lineStatements 1 ls)) ∧
    (¬ ((∀ s ∈ lineStatements 1 ls, s.operation.InRange) ∧
        (constants (lineStatements 1 ls)).length ≤ 65536) →
      faults 0 (lineStatements 1 ls) ≠ [] ∧
        assemble source = .error (.emitting (faults 0 (lineStatements 1 ls)))) := by
  obtain ⟨p, htokens⟩ := tokens_printed h
  have hproper := proper_lineStatements 1 ls
  have hnone : faults 0 (lineStatements 1 ls) = [] ↔
      (∀ s ∈ lineStatements 1 ls, s.operation.InRange) ∧
        (constants (lineStatements 1 ls)).length ≤ 65536 := by
    rw [faults_eq_nil_iff, Nat.zero_add]
    grind
  rw [← hnone]
  constructor
  · intro hfaults
    obtain ⟨c, hemit, hwritten, hconstants⟩ := emit_ok hproper hfaults
    refine ⟨c, ?_, (c.instructions_eq_ok_iff _).mpr hwritten.consists, hconstants⟩
    simp only [assemble, htokens, statements_lineTokens, hemit]
  · intro hfaults
    refine ⟨hfaults, ?_⟩
    simp only [assemble, htokens, statements_lineTokens, emit_error hproper hfaults]

/-- A quoted text with a quote, a line feed, a semicolon, a backslash, a zero and a byte that is no
text, a jump backwards, the least integer, and an end. -/
def oddLines : List Line :=
  [.constant false (.string [0x22, 0x0a, 0x3b, 0x5c, 0x00, 0xff]),
    .integer .jump (by decide) (-3),
    .constant true (.int Int64.minValue),
    .plain .halt rfl]

/-- Two operands that are one too far out, around one that fits. -/
def wideLines : List Line :=
  [.integer .call (by decide) 256, .integer .call (by decide) 255, .plain .pop rfl,
    .integer .jumpIfTrue (by decide) (-32769)]

theorem oddLines_and_wideLines_assembled :
    (∃ c, assemble (printed oddLines) = .ok c ∧
      c.instructions =
        .ok [⟨0, .const, 0, 1⟩, ⟨2, .jump, -3, 2⟩, ⟨5, .constLong, 1, 3⟩, ⟨8, .halt, 0, 4⟩] ∧
      c.constants.toList =
        [.string [0x22, 0x0a, 0x3b, 0x5c, 0x00, 0xff], .int Int64.minValue]) ∧
    assemble (printed wideLines) =
      .error (.emitting [(⟨1, 6⟩, .operandRange 256 .call 0 255),
        (⟨4, 14⟩, .operandRange (-32769) .jumpIfTrue (-32768) 32767)]) :=
  ⟨(assemble_printed (Or.inl rfl)).1 ⟨by decide, by decide⟩,
    ((assemble_printed (Or.inl rfl)).2 (by decide)).2⟩

end Assembly
end StackNative
