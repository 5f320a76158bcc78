import StackNative.Assembly.Assemble
import StackNative.Proofs.Bytecode.Building

/-!
# The code of statements

**Input.**  Statements as the reader of lines makes them.

**Algorithm.**  A statement adds its constant to the pool in any case, and its instruction
to the code if nothing is wrong with it.  What is wrong depends on the number of constants
before it alone.

**Results.**
* `Statement.fault?`, `faults`: what is wrong with statements.
* `Statement.instruction`, `code`: the instructions of statements.
* `Statement.emit_fault`, `Statement.emit_written`: what one statement writes.
* `emit_ok`, `emit_error`: statements are written if nothing is wrong with any, and otherwise all
  that is wrong is told.
* `faults_eq_nil_iff`: when nothing is wrong with statements.
-/

namespace StackNative
namespace Assembly

open Bytecode (Opcode Value Chunk Instruction OperandForm)

section Meaning

namespace Operation

/-- An operation that a line can ask for: the operand is of the form of the opcode. -/
def Proper : Operation → Prop
  | .plain op => op.operandForm = .none
  | .withInteger op _ _ => op.operandForm ≠ .none ∧ op.takesConstant = false
  | .loadConstant _ _ => True

/-- The constant that an operation adds to the pool. -/
def constant? : Operation → Option Value
  | .loadConstant _ v => some v
  | _ => none

/-- An integer operand is in the range of its opcode. -/
def InRange : Operation → Prop
  | .withInteger op n _ => (operandRange op).1 ≤ n.toInt ∧ n.toInt ≤ (operandRange op).2
  | _ => True

instance (o : Operation) : Decidable o.InRange :=
  match o with
  | .plain _ => .isTrue trivial
  | .withInteger op n _ =>
    inferInstanceAs (Decidable ((operandRange op).1 ≤ n.toInt ∧ n.toInt ≤ (operandRange op).2))
  | .loadConstant _ _ => .isTrue trivial

end Operation

namespace Statement

/-- The line of a statement. -/
def line (s : Statement) : Int64 := Int64.ofNat s.start.line

/-- The instruction of a statement at an offset, with so many constants before it.  A constant is
loaded by the short instruction only if that was asked for and can name it. -/
def instruction (offset pool : Nat) (s : Statement) : Instruction :=
  match s.operation with
  | .plain op => ⟨offset, op, 0, s.line⟩
  | .withInteger op n _ => ⟨offset, op, n.toInt, s.line⟩
  | .loadConstant long _ =>
    ⟨offset, if !long && pool ≤ 0xff then .const else .constLong, pool, s.line⟩

/-- What is wrong with a statement that has so many constants before it: an operand out of range,
or a constant that no operand can name. -/
def fault? (pool : Nat) (s : Statement) : Option (Position × EmitFault) :=
  match s.operation with
  | .plain _ => none
  | .withInteger op n place =>
    if (operandRange op).1 ≤ n.toInt ∧ n.toInt ≤ (operandRange op).2 then none
    else some (place, .operandRange n op (operandRange op).1 (operandRange op).2)
  | .loadConstant long _ =>
    if pool ≤ 0xffff then none
    else some (s.start, if long then .constantIndex pool else .poolFull ⟨pool + 1⟩)

end Statement

/-- The number of constants after a statement. -/
def poolAfter (pool : Nat) (s : Statement) : Nat := pool + s.operation.constant?.toList.length

/-- The instructions of statements from an offset on, with so many constants before them. -/
def code (offset pool : Nat) : List Statement → List Instruction
  | [] => []
  | s :: rest =>
    let i := s.instruction offset pool
    i :: code (offset + i.width) (poolAfter pool s) rest

/-- What is wrong with statements that have so many constants before them. -/
def faults (pool : Nat) : List Statement → List (Position × EmitFault)
  | [] => []
  | s :: rest => (s.fault? pool).toList ++ faults (poolAfter pool s) rest

/-- The constants of statements. -/
def constants (ss : List Statement) : List Value := ss.filterMap fun s => s.operation.constant?

end Meaning

section Operands

theorem toNat_toUInt64 (n : Int64) :
    (n.toUInt64.toNat : Int) = if 0 ≤ n.toInt then n.toInt else n.toInt + 0x10000000000000000 := by
  have hlt := n.toUInt64.toNat_lt
  have hint : n.toInt = n.toBitVec.toInt := rfl
  have hnat : n.toUInt64.toNat = n.toBitVec.toNat := rfl
  rw [hint, hnat, BitVec.toInt_eq_toNat_cond]
  split <;> omega

theorem byte_of_int64 (n : Int64) : UInt8.ofInt n.toInt = n.toUInt64.toUInt8 := by
  have hnat := toNat_toUInt64 n
  refine UInt8.toNat_inj.mp ?_
  rw [UInt8.ofInt, UInt8.toNat_ofNat', UInt64.toNat_toUInt8]
  split at hnat <;> omega

theorem word_of_int64 (n : Int64) : UInt16.ofInt n.toInt = n.toUInt64.toUInt16 := by
  have hnat := toNat_toUInt64 n
  refine UInt16.toNat_inj.mp ?_
  rw [UInt16.ofInt, UInt16.toNat_ofNat', UInt64.toNat_toUInt16]
  split at hnat <;> omega

theorem signedWord_of_int64 (n : Int64) :
    (Int16.ofInt n.toInt).toUInt16 = n.toUInt64.toUInt16 := by
  rw [← UInt16.toBitVec_inj, Int16.toBitVec_toUInt16, Int16.toBitVec_ofInt,
    UInt64.toBitVec_toUInt16, Int64.toBitVec_toUInt64, ← Int64.toInt_toBitVec]
  exact BitVec.signExtend_eq_setWidth_of_le n.toBitVec (by decide)

/-- The operand of a statement is written as the bytes of its instruction. -/
theorem extends_writeOperand (c : Chunk) (op : Opcode) (n line : Int64) :
    c.Extends (writeOperand c op n line)
      (op.operandForm.bytes (op.operandForm.ofInt n.toInt)) line := by
  rw [writeOperand]
  cases op.operandForm with
  | none =>
      exact c.extends_nil line
  | byte =>
      rw [OperandForm.ofInt, byte_of_int64]
      exact c.extends_write _ line
  | word =>
      rw [OperandForm.ofInt, word_of_int64]
      exact c.extends_writeWord _ line
  | signedWord =>
      rw [OperandForm.bytes, OperandForm.ofInt, signedWord_of_int64]
      exact c.extends_writeWord _ line

/-- An operand in the range of its opcode fits. -/
theorem value_ofInt_of_inRange
    {op : Opcode} {n : Int}
    (hform : op.operandForm ≠ .none)
    (hlow : (operandRange op).1 ≤ n)
    (hhigh : n ≤ (operandRange op).2) :
    op.operandForm.value (op.operandForm.ofInt n) = n := by
  unfold operandRange at hlow hhigh
  cases hop : op.operandForm with
  | none =>
      exact absurd hop hform
  | byte =>
      simp only [hop] at hlow hhigh
      simp only [OperandForm.value, OperandForm.ofInt, UInt8.ofInt, UInt8.toNat_ofNat']
      omega
  | word =>
      simp only [hop] at hlow hhigh
      simp only [OperandForm.value, OperandForm.ofInt, UInt16.ofInt, UInt16.toNat_ofNat']
      omega
  | signedWord =>
      simp only [hop] at hlow hhigh
      exact Int16.toInt_ofInt_of_le hlow (by omega)

end Operands

section Statements

namespace Statement

variable {c : Chunk} {is : List Instruction} {s : Statement}

/-- The chunk with the constant of a statement in its pool. -/
def pooled (c : Chunk) (s : Statement) : Chunk := s.operation.constant?.elim c c.addConstant

theorem constants_pooled (c : Chunk) (s : Statement) :
    (s.pooled c).constants.toList = c.constants.toList ++ s.operation.constant?.toList := by
  rw [pooled]
  cases s.operation.constant? with
  | none =>
      simp
  | some v =>
      simp [Chunk.constants_addConstant]

theorem length_pooled (c : Chunk) (s : Statement) : (s.pooled c).length = c.length := by
  rw [pooled]
  cases s.operation.constant? with
  | none =>
      rfl
  | some v =>
      rw [Option.elim_some, Chunk.length, Chunk.code_addConstant, Chunk.length]

theorem written_pooled
    (h : c.Written is)
    (s : Statement) :
    (s.pooled c).Written is := by
  rw [pooled]
  cases s.operation.constant? with
  | none =>
      exact h
  | some v =>
      exact h.addConstant v

/-- A statement with which something is wrong writes no code. -/
theorem emit_of_fault
    {f : Position × EmitFault}
    (h : s.fault? c.constants.size = some f) :
    s.emit c = (s.pooled c, some f) := by
  obtain ⟨operation, start⟩ := s
  cases operation with
  | plain op =>
      cases h
  | withInteger op n place =>
      simp only [fault?] at h
      split at h
      · cases h
      · next hrange =>
          cases h
          simp only [emit, Bool.or_eq_true, decide_eq_true_eq]
          rw [if_pos (by omega)]
          rfl
  | loadConstant long v =>
      simp only [fault?] at h
      split at h
      · cases h
      · next hfull =>
          have hlt : 0xffff < c.constants.size := Nat.lt_of_not_le hfull
          cases h
          cases long with
          | false =>
              simp only [emit, Chunk.emitConstant_of_full hlt]
              rfl
          | true =>
              simp only [emit, hlt, if_true]
              rfl

/-- A statement with which nothing is wrong writes the bytes of its instruction. -/
theorem emit_of_no_fault
    (hproper : s.operation.Proper)
    (h : s.fault? c.constants.size = none) :
    (s.emit c).2 = none ∧
      (s.pooled c).Extends (s.emit c).1 (s.instruction c.length c.constants.size).bytes s.line := by
  obtain ⟨operation, start⟩ := s
  cases operation with
  | plain op =>
      have hbytes : (instruction c.length c.constants.size ⟨.plain op, start⟩).bytes =
          [op.toByte] := by
        have hform : op.operandForm = .none := hproper
        simp only [instruction, Instruction.bytes, Instruction.cut]
        rw [hform]
        rfl
      rw [hbytes]
      exact ⟨rfl, c.extends_write op.toByte _⟩
  | withInteger op n place =>
      simp only [fault?] at h
      split at h
      · next hrange =>
          simp only [emit, Bool.or_eq_true, decide_eq_true_eq]
          rw [if_neg (by omega)]
          exact ⟨rfl, (c.extends_write op.toByte _).trans (extends_writeOperand _ op n _)⟩
      · cases h
  | loadConstant long v =>
      simp only [fault?] at h
      split at h
      · next hroom =>
          cases long with
          | false =>
              have hloading : instruction c.length c.constants.size
                  ⟨.loadConstant false v, start⟩ =
                  Bytecode.loading c.length c.constants.size (Int64.ofNat start.line) := by
                simp [instruction, Bytecode.loading, line]
              obtain ⟨hnone, hextends⟩ :=
                Chunk.emitConstant_of_room hroom v (Int64.ofNat start.line)
              rw [hloading]
              refine ⟨?_, hextends⟩
              simp only [emit, hnone, Option.map_none]
          | true =>
              have hextends := (c.addConstant v).extends_writeCoded .constLong
                c.constants.size.toUInt16 (line ⟨.loadConstant true v, start⟩)
              rw [Chunk.coded_constLong hroom] at hextends
              simp only [emit, Nat.not_lt.mpr hroom, if_false]
              exact ⟨trivial, hextends⟩
      · cases h

theorem offset_instruction (offset pool : Nat) (s : Statement) :
    (s.instruction offset pool).offset = offset := by
  unfold instruction
  cases s.operation <;> rfl

theorem line_instruction (offset pool : Nat) (s : Statement) :
    (s.instruction offset pool).line = s.line := by
  unfold instruction
  cases s.operation <;> rfl

theorem emit_fault
    (hproper : s.operation.Proper) :
    (s.emit c).2 = s.fault? c.constants.size := by
  cases h : s.fault? c.constants.size with
  | none =>
      exact (emit_of_no_fault hproper h).1
  | some f =>
      rw [emit_of_fault h]

theorem constants_emit
    (hproper : s.operation.Proper) :
    (s.emit c).1.constants.toList = c.constants.toList ++ s.operation.constant?.toList := by
  cases h : s.fault? c.constants.size with
  | none =>
      rw [(emit_of_no_fault hproper h).2.constants, constants_pooled]
  | some f =>
      rw [emit_of_fault h, constants_pooled]

theorem fits_instruction
    (hproper : s.operation.Proper)
    (h : s.fault? c.constants.size = none) :
    (s.instruction c.length c.constants.size).Fits := by
  obtain ⟨operation, start⟩ := s
  cases operation with
  | plain op =>
      have hform : op.operandForm = .none := hproper
      simp only [instruction, Instruction.Fits, Instruction.cut]
      rw [hform]
      rfl
  | withInteger op n place =>
      simp only [fault?] at h
      split at h
      · next hrange => exact value_ofInt_of_inRange hproper.1 hrange.1 hrange.2
      · cases h
  | loadConstant long v =>
      simp only [fault?] at h
      split at h
      · next hroom =>
          simp only [instruction]
          split
          · next hshort =>
              rw [← Chunk.coded_const (by simp at hshort; omega)]
              exact Instruction.fits_coded ..
          · rw [← Chunk.coded_constLong hroom]
            exact Instruction.fits_coded ..
      · cases h

/-- A statement with which nothing is wrong adds its instruction to those of the code. -/
theorem emit_written
    (h : c.Written is)
    (hproper : s.operation.Proper)
    (hfault : s.fault? c.constants.size = none) :
    (s.emit c).1.Written (is ++ [s.instruction c.length c.constants.size]) := by
  refine (written_pooled h s).extend ?_ (fits_instruction hproper hfault) ?_
  · rw [length_pooled]
    exact s.offset_instruction c.length c.constants.size
  · rw [s.line_instruction c.length c.constants.size]
    exact (emit_of_no_fault hproper hfault).2

end Statement

theorem constants_cons (s : Statement) (ss : List Statement) :
    constants (s :: ss) = s.operation.constant?.toList ++ constants ss := by
  rw [constants, List.filterMap_cons, constants]
  cases s.operation.constant? <;> rfl

theorem emitOnto_cons (c : Chunk) (done : Array (Position × EmitFault)) (s : Statement)
    (ss : List Statement) :
    emitOnto c done (s :: ss) = emitOnto (s.emit c).1 (done ++ (s.emit c).2.toList.toArray) ss := by
  rw [emitOnto]
  rcases s.emit c with ⟨c', f⟩
  cases f with
  | none =>
      simp
  | some f =>
      simp

theorem size_constants_emit
    {c : Chunk} {s : Statement}
    (hproper : s.operation.Proper) :
    (s.emit c).1.constants.size = poolAfter c.constants.size s := by
  have hconstants := congrArg List.length (s.constants_emit (c := c) hproper)
  simpa [poolAfter] using hconstants

/-- All that is wrong with statements is collected. -/
theorem emitOnto_faults
    {ss : List Statement}
    (hproper : ∀ s ∈ ss, s.operation.Proper)
    (c : Chunk)
    (done : Array (Position × EmitFault)) :
    (emitOnto c done ss).2.toList = done.toList ++ faults c.constants.size ss := by
  induction ss generalizing c done with
  | nil =>
      simp [emitOnto, faults]
  | cons s ss ih =>
      obtain ⟨hs, hss⟩ := List.forall_mem_cons.mp hproper
      rw [emitOnto_cons, ih hss, size_constants_emit hs, s.emit_fault hs, faults]
      simp

/-- All constants of statements are added to the pool. -/
theorem emitOnto_constants
    {ss : List Statement}
    (hproper : ∀ s ∈ ss, s.operation.Proper)
    (c : Chunk)
    (done : Array (Position × EmitFault)) :
    (emitOnto c done ss).1.constants.toList = c.constants.toList ++ constants ss := by
  induction ss generalizing c done with
  | nil =>
      simp [emitOnto, constants]
  | cons s ss ih =>
      obtain ⟨hs, hss⟩ := List.forall_mem_cons.mp hproper
      rw [emitOnto_cons, ih hss, s.constants_emit hs, constants_cons, List.append_assoc]

/-- Statements with which nothing is wrong add their instructions to those of the code. -/
theorem emitOnto_written
    {ss : List Statement}
    (hproper : ∀ s ∈ ss, s.operation.Proper)
    {c : Chunk} {is : List Instruction}
    (h : c.Written is)
    (done : Array (Position × EmitFault))
    (hfaults : faults c.constants.size ss = []) :
    (emitOnto c done ss).1.Written (is ++ code c.length c.constants.size ss) := by
  induction ss generalizing c is done with
  | nil =>
      simpa [emitOnto, code] using h
  | cons s ss ih =>
      obtain ⟨hs, hss⟩ := List.forall_mem_cons.mp hproper
      rw [faults, List.append_eq_nil_iff, Option.toList_eq_nil_iff] at hfaults
      obtain ⟨hfault, hrest⟩ := hfaults
      have hlength : (s.emit c).1.length =
          c.length + (s.instruction c.length c.constants.size).width := by
        rw [(s.emit_of_no_fault hs hfault).2.length_eq, s.length_pooled, Instruction.length_bytes]
      have hwritten := ih hss (s.emit_written h hs hfault)
        (done ++ (s.emit c).2.toList.toArray) (by rwa [size_constants_emit hs])
      rw [hlength, size_constants_emit hs, List.append_assoc] at hwritten
      rw [emitOnto_cons]
      exact hwritten

/-- The chunk of statements with which nothing is wrong. -/
theorem emit_ok
    {ss : List Statement}
    (hproper : ∀ s ∈ ss, s.operation.Proper)
    (hfaults : faults 0 ss = []) :
    ∃ c, emit ss = .ok c ∧ c.Written (code 0 0 ss) ∧ c.constants.toList = constants ss := by
  have hempty : (emitOnto .empty #[] ss).2 = #[] := by
    refine Array.toList_inj.mp ?_
    rw [emitOnto_faults hproper]
    exact hfaults
  refine ⟨(emitOnto .empty #[] ss).1, ?_, ?_, ?_⟩
  · simp [emit, hempty]
  · exact emitOnto_written hproper Chunk.written_empty #[] hfaults
  · rw [emitOnto_constants hproper]
    rfl

/-- What is wrong with statements, if anything is. -/
theorem emit_error
    {ss : List Statement}
    (hproper : ∀ s ∈ ss, s.operation.Proper)
    (hfaults : faults 0 ss ≠ []) :
    emit ss = .error (faults 0 ss) := by
  have hall : (emitOnto .empty #[] ss).2.toList = faults 0 ss := by
    rw [emitOnto_faults hproper]
    rfl
  have hne : (emitOnto .empty #[] ss).2.isEmpty = false := by
    rw [Array.isEmpty_eq_false_iff]
    intro heq
    rw [heq] at hall
    exact hfaults hall.symm
  simp [emit, hne, hall]

theorem Statement.fault?_eq_none_iff (pool : Nat) (s : Statement) :
    s.fault? pool = none ↔
      s.operation.InRange ∧ (s.operation.constant? = none ∨ pool ≤ 0xffff) := by
  obtain ⟨operation, start⟩ := s
  cases operation with
  | plain op =>
      simp [fault?, Operation.InRange, Operation.constant?]
  | withInteger op n place =>
      simp [fault?, Operation.InRange, Operation.constant?]
  | loadConstant long v =>
      simp [fault?, Operation.InRange, Operation.constant?]

/-- Nothing is wrong with statements exactly if each operand is in its range and the operands can
name all constants. -/
theorem faults_eq_nil_iff (pool : Nat) (ss : List Statement) :
    faults pool ss = [] ↔
      (∀ s ∈ ss, s.operation.InRange) ∧
        (constants ss = [] ∨ pool + (constants ss).length ≤ 0x10000) := by
  induction ss generalizing pool with
  | nil =>
      simp [faults, constants]
  | cons s ss ih =>
      rw [faults, List.append_eq_nil_iff, ih, Option.toList_eq_nil_iff, s.fault?_eq_none_iff,
        List.forall_mem_cons, constants_cons, poolAfter]
      cases s.operation.constant? with
      | none =>
          simp [and_assoc]
      | some v =>
          have hempty : constants ss = [] ↔ (constants ss).length = 0 :=
            List.length_eq_zero_iff.symm
          simp only [Option.toList_some, List.singleton_append,
            List.length_cons, hempty, reduceCtorEq, false_or]
          grind

end Statements

end Assembly
end StackNative
