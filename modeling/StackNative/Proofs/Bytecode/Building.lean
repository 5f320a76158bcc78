import StackNative.Proofs.Bytecode.Code

/-!
# Code that is built and code that is read

**Input.**  Steps that build a chunk from an empty one: an opcode with an operand of
its form, or a constant with the instruction that loads it.

**Algorithm.**  A step writes the bytes of at most one instruction, so the chunk keeps
consisting of the instructions written so far.

**Results.**
* `Chunk.extends_writeCoded`, `Chunk.emitConstant_of_room`, `Chunk.emitConstant_of_full`:
  what a step writes.
* `Chunk.Written.take`, `Chunk.Written.run`: a step, and steps, add the instructions they
  write to those that the code consists of.
* `building_inverts_reading`: what is built is read back, and what is read is built again.
-/

namespace StackNative
namespace Bytecode

section Steps

/-- A step of building a chunk, with the line of all it writes. -/
inductive Step where
  | instruction (op : Opcode) (operand : op.operandForm.Operand) (line : Int64)
  | constant (v : Value) (line : Int64)

/-- Writes an operand. -/
def Chunk.writeOperand (c : Chunk) (line : Int64) : (form : OperandForm) → form.Operand → Chunk
  | .none, _ => c
  | .byte, b => c.write b line
  | .word, w => c.writeWord w line
  | .signedWord, w => c.writeWord (Int16.toUInt16 w) line

/-- Writes an opcode and its operand. -/
def Chunk.writeCoded (c : Chunk) (op : Opcode) (x : op.operandForm.Operand) (line : Int64) :
    Chunk :=
  (c.writeOp op line).writeOperand line op.operandForm x

/-- Takes a step.  Only a constant can find no room. -/
def Chunk.take (c : Chunk) : Step → Chunk × Option Chunk.PoolFull
  | .instruction op x line => (c.writeCoded op x line, none)
  | .constant v line => c.emitConstant v line

/-- The chunk that steps make of a chunk. -/
def Chunk.run (c : Chunk) (steps : List Step) : Chunk := steps.foldl (fun c s => (c.take s).1) c

/-- The chunk that steps build. -/
def build (steps : List Step) : Chunk := Chunk.empty.run steps

/-- The instruction that loads the constant at an index, the short one where its operand can name
the constant. -/
def loading (offset index : Nat) (line : Int64) : Instruction :=
  ⟨offset, if index ≤ 0xff then .const else .constLong, index, line⟩

namespace Step

/-- The constant that a step adds to the pool. -/
def constant? : Step → Option Value
  | .instruction .. => none
  | .constant v _ => some v

/-- The instruction that a step writes at an offset, when the pool has so many constants: none for
a constant that no operand can name. -/
def instruction? (offset pool : Nat) : Step → Option Instruction
  | .instruction op x line => some (.coded offset op x line)
  | .constant _ line => if pool ≤ 0xffff then some (loading offset pool line) else none

end Step

/-- The instructions that steps write from an offset on, when the pool has so many constants. -/
def instructionsOf (offset pool : Nat) : List Step → List Instruction
  | [] => []
  | s :: rest =>
    let is := (s.instruction? offset pool).toList
    is ++ instructionsOf (endOf offset is) (pool + s.constant?.toList.length) rest

/-- The step that writes an instruction again, its operand cut to the width of its form. -/
def Instruction.step (i : Instruction) : Step := .instruction i.op i.cut i.line

end Steps

section Writing

namespace Chunk

variable {c : Chunk} {is : List Instruction}

theorem extends_writeOperand (c : Chunk) (line : Int64) (form : OperandForm) (x : form.Operand) :
    c.Extends (c.writeOperand line form x) (form.bytes x) line := by
  cases form with
  | none =>
      exact c.extends_nil line
  | byte =>
      exact c.extends_write x line
  | word =>
      exact c.extends_writeWord x line
  | signedWord =>
      exact c.extends_writeWord (Int16.toUInt16 x) line

theorem extends_writeCoded (c : Chunk) (op : Opcode) (x : op.operandForm.Operand) (line : Int64) :
    c.Extends (c.writeCoded op x line) (Instruction.coded c.length op x line).bytes line := by
  rw [Instruction.bytes_coded]
  exact (c.extends_write op.toByte line).trans (extends_writeOperand _ line _ x)

theorem coded_const
    {index : Nat}
    (h : index ≤ 0xff)
    (offset : Nat)
    (line : Int64) :
    Instruction.coded offset .const index.toUInt8 line = ⟨offset, .const, index, line⟩ := by
  have hvalue : (index : Int) = index.toUInt8.toNat := by
    rw [Nat.toUInt8_eq, UInt8.toNat_ofNat', Nat.mod_eq_of_lt (by omega)]
  rw [hvalue]
  rfl

theorem coded_constLong
    {index : Nat}
    (h : index ≤ 0xffff)
    (offset : Nat)
    (line : Int64) :
    Instruction.coded offset .constLong index.toUInt16 line =
      ⟨offset, .constLong, index, line⟩ := by
  have hvalue : (index : Int) = index.toUInt16.toNat := by
    rw [Nat.toUInt16_eq, UInt16.toNat_ofNat', Nat.mod_eq_of_lt (by omega)]
  rw [hvalue]
  rfl

theorem loading_eq_coded
    {index : Nat}
    (hroom : index ≤ 0xffff)
    (offset : Nat)
    (line : Int64) :
    loading offset index line = if index ≤ 0xff then .coded offset .const index.toUInt8 line
      else .coded offset .constLong index.toUInt16 line := by
  rw [loading]
  split
  · next h => rw [coded_const h]
  · rw [coded_constLong hroom]

theorem fits_loading
    {index : Nat}
    (hroom : index ≤ 0xffff)
    (offset : Nat)
    (line : Int64) :
    (loading offset index line).Fits := by
  rw [loading_eq_coded hroom]
  split <;> exact Instruction.fits_coded ..

/-- A constant that an operand can name is added, and the instruction that loads it is written. -/
theorem emitConstant_of_room
    (hroom : c.constants.size ≤ 0xffff)
    (v : Value)
    (line : Int64) :
    (c.emitConstant v line).2 = none ∧
      (c.addConstant v).Extends (c.emitConstant v line).1
        (loading c.length c.constants.size line).bytes line := by
  have hlength : (c.addConstant v).length = c.length := by
    rw [length, code_addConstant, length]
  rw [emitConstant, loading_eq_coded hroom, ← hlength]
  by_cases h : c.constants.size ≤ 0xff
  · rw [if_pos h, if_pos h]
    exact ⟨rfl, (c.addConstant v).extends_writeCoded .const _ line⟩
  · rw [if_neg h, if_neg h, if_pos hroom]
    exact ⟨rfl, (c.addConstant v).extends_writeCoded .constLong _ line⟩

/-- Any other constant is added, and nothing is written. -/
theorem emitConstant_of_full
    (hfull : 0xffff < c.constants.size)
    (v : Value)
    (line : Int64) :
    c.emitConstant v line = (c.addConstant v, some ⟨c.constants.size + 1⟩) := by
  rw [emitConstant, if_neg (by omega), if_neg (by omega)]

end Chunk

end Writing

section Runs

variable {c : Chunk} {is : List Instruction}

theorem Chunk.constants_take (c : Chunk) (s : Step) :
    (c.take s).1.constants.toList = c.constants.toList ++ s.constant?.toList := by
  cases s with
  | instruction op x line =>
      simp [take, Step.constant?, (c.extends_writeCoded op x line).constants]
  | constant v line =>
      rw [take, Step.constant?]
      by_cases hroom : c.constants.size ≤ 0xffff
      · rw [(c.emitConstant_of_room hroom v line).2.constants, constants_addConstant]
        simp
      · rw [emitConstant_of_full (by omega), constants_addConstant]
        simp

theorem Chunk.constants_run (c : Chunk) (steps : List Step) :
    (c.run steps).constants.toList = c.constants.toList ++ steps.filterMap Step.constant? := by
  induction steps generalizing c with
  | nil =>
      simp [run]
  | cons s steps ih =>
      rw [run, List.foldl_cons, ← run, ih, constants_take]
      cases hs : s.constant? with
      | none =>
          simp [hs]
      | some v =>
          simp [hs]

/-- A step adds the instruction it writes to those that the code consists of. -/
theorem Chunk.Written.take
    (h : c.Written is)
    (s : Step) :
    (c.take s).1.Written (is ++ (s.instruction? c.length c.constants.size).toList) := by
  cases s with
  | instruction op x line =>
      exact h.extend rfl (Instruction.fits_coded ..) (c.extends_writeCoded op x line)
  | constant v line =>
      rw [Chunk.take, Step.instruction?]
      by_cases hroom : c.constants.size ≤ 0xffff
      · rw [if_pos hroom]
        refine (h.addConstant v).extend ?_ (Chunk.fits_loading hroom ..)
          (c.emitConstant_of_room hroom v line).2
        rw [loading, Chunk.length, Chunk.length, Chunk.code_addConstant]
      · rw [if_neg hroom, Chunk.emitConstant_of_full (by omega), Option.toList_none,
          List.append_nil]
        exact h.addConstant v

/-- Steps add the instructions they write. -/
theorem Chunk.Written.run
    (h : c.Written is)
    (steps : List Step) :
    (c.run steps).Written (is ++ instructionsOf c.length c.constants.size steps) := by
  induction steps generalizing c is with
  | nil =>
      simpa [instructionsOf, Chunk.run] using h
  | cons s steps ih =>
      have htake := h.take s
      have hlength : (c.take s).1.length =
          endOf c.length (s.instruction? c.length c.constants.size).toList := by
        rw [← htake.consists.endOf_eq, ← h.consists.endOf_eq]
        simp [endOf]
      have hpool : (c.take s).1.constants.size =
          c.constants.size + s.constant?.toList.length := by
        have hconstants := congrArg List.length (c.constants_take s)
        simpa using hconstants
      have hrun := ih htake
      rw [hlength, hpool, List.append_assoc] at hrun
      exact hrun

theorem written_build (steps : List Step) : (build steps).Written (instructionsOf 0 0 steps) :=
  Chunk.written_empty.run steps

theorem build_append (front back : List Step) : build (front ++ back) = (build front).run back :=
  List.foldl_append

theorem constants_build (steps : List Step) :
    (build steps).constants.toList = steps.filterMap Step.constant? := by
  rw [build, Chunk.constants_run]
  rfl

theorem instructionsOf_append (offset pool : Nat) (front back : List Step) :
    instructionsOf offset pool (front ++ back) = instructionsOf offset pool front ++
      instructionsOf (endOf offset (instructionsOf offset pool front))
        (pool + (front.filterMap Step.constant?).length) back := by
  induction front generalizing offset pool with
  | nil =>
      simp [instructionsOf, endOf]
  | cons s front ih =>
      have hpool : ((s :: front).filterMap Step.constant?).length =
          s.constant?.toList.length + (front.filterMap Step.constant?).length := by
        cases hs : s.constant? with
        | none =>
            simp [hs]
        | some v =>
            simp [hs, Nat.add_comm]
      rw [List.cons_append, instructionsOf, instructionsOf, ih, hpool]
      simp [endOf, Nat.add_assoc]

/-- Rewriting instructions whose operands fit gives their bytes. -/
theorem code_run_steps
    (is : List Instruction)
    (c : Chunk) :
    (c.run (is.map Instruction.step)).code.toList =
      c.code.toList ++ is.flatMap Instruction.bytes := by
  induction is generalizing c with
  | nil =>
      simp [Chunk.run]
  | cons i is ih =>
      have hbytes := (c.extends_writeCoded i.op i.cut i.line).code
      rw [Instruction.bytes_coded] at hbytes
      rw [List.map_cons, Chunk.run, List.foldl_cons, ← Chunk.run, ih, Instruction.step, Chunk.take,
        hbytes, List.flatMap_cons, Instruction.bytes, List.append_assoc]

end Runs

section Inverse

theorem size_constants_build (steps : List Step) :
    (build steps).constants.size = (steps.filterMap Step.constant?).length := by
  rw [← constants_build, Array.length_toList]

theorem emitConstant_eq_none_iff (c : Chunk) (v : Value) (line : Int64) :
    (c.emitConstant v line).2 = none ↔ c.constants.size ≤ 0xffff := by
  refine ⟨?_, fun hroom => (Chunk.emitConstant_of_room hroom v line).1⟩
  intro h
  rcases Nat.lt_or_ge 0xffff c.constants.size with hfull | hroom
  · rw [Chunk.emitConstant_of_full hfull] at h
    cases h
  · exact hroom

/-- The instruction of a constant that finds room is among those that are read. -/
theorem loading_mem_instructionsOf
    (front : List Step)
    (v : Value)
    (line : Int64)
    (back : List Step)
    (hroom : (build front).constants.size ≤ 0xffff) :
    loading (build front).length (build front).constants.size line ∈
      instructionsOf 0 0 (front ++ .constant v line :: back) := by
  rw [instructionsOf_append, (written_build front).consists.endOf_eq, Nat.zero_add,
    ← size_constants_build, instructionsOf, Step.instruction?, if_pos hroom]
  simp

/-- What steps have built is read back: the instructions they wrote, one behind the other, each
constant under the index that its instruction names, and a line for each byte at any time. -/
structure ReadsBack (steps : List Step) : Prop where
  instructions : (build steps).instructions = .ok (instructionsOf 0 0 steps)
  consecutive : Consecutive 0 (instructionsOf 0 0 steps)
  /-- A constant fails exactly if the pool is full, and then no code is written; otherwise its
  instruction is read at the offset where it was written. -/
  constant : ∀ front v line back, steps = front ++ .constant v line :: back →
    (build steps).constants[(build front).constants.size]? = some v ∧
    (((build front).emitConstant v line).2 = none ↔ (build front).constants.size ≤ 0xffff) ∧
    (((build front).emitConstant v line).2 = none →
      loading (build front).length (build front).constants.size line ∈ instructionsOf 0 0 steps) ∧
    (((build front).emitConstant v line).2 ≠ none →
      (build (front ++ [.constant v line])).code = (build front).code)
  lines : ∀ front, front <+: steps → (build front).lines.size = (build front).length

theorem readsBack (steps : List Step) : ReadsBack steps where
  instructions := ((build steps).instructions_eq_ok_iff _).mpr (written_build steps).consists
  consecutive := (written_build steps).consists.consecutive
  constant := by
    rintro front v line back rfl
    have hiff := emitConstant_eq_none_iff (build front) v line
    refine ⟨?_, hiff, ?_, ?_⟩
    · rw [← Array.getElem?_toList, constants_build, size_constants_build, List.filterMap_append,
        List.filterMap_cons]
      simp [Step.constant?]
    · intro hnone
      exact loading_mem_instructionsOf front v line back (hiff.mp hnone)
    · intro hsome
      have hfull : 0xffff < (build front).constants.size := by
        have hnot := mt hiff.mpr hsome
        omega
      rw [build_append, Chunk.run, List.foldl_cons, List.foldl_nil, Chunk.take,
        Chunk.emitConstant_of_full hfull, Chunk.code_addConstant]
  lines := fun front _ => (written_build front).size_lines

/-- Whatever steps build is read back as they wrote it, and whatever instructions are read of a
chunk give its code when they are written again. -/
theorem building_inverts_reading :
    (∀ steps, ReadsBack steps) ∧
      ∀ c is, Chunk.instructions c = .ok is →
        (build (is.map Instruction.step)).code = c.code := by
  refine ⟨readsBack, ?_⟩
  intro c is his
  have hbytes := ((c.instructions_eq_ok_iff is).mp his).bytes
  refine Array.toList_inj.mp ?_
  rw [build, code_run_steps, ← hbytes]
  rfl

/-- A jump back, a constant and a loop. -/
def mixedSteps : List Step :=
  [.instruction .jump (-3 : Int16) 1, .constant (.string [0x61]) 2,
    .instruction .loop (8 : UInt16) 2]

theorem mixedSteps_inverts :
    (build mixedSteps).instructions =
        .ok [⟨0, .jump, -3, 1⟩, ⟨3, .const, 0, 2⟩, ⟨5, .loop, 8, 2⟩] ∧
      (build ((instructionsOf 0 0 mixedSteps).map Instruction.step)).code =
        #[36, 0xff, 0xfd, 0, 0, 39, 0, 8] := by
  have hread := (building_inverts_reading.1 mixedSteps).instructions
  exact ⟨hread, building_inverts_reading.2 _ _ hread⟩

end Inverse

end Bytecode
end StackNative
