import Mathlib.Logic.Relation
import StackNative.Bytecode.Verify
import StackNative.Proofs.Bytecode.Code

/-!
# Verified code

**Input.**  A chunk with any code, any line table and any constants.

**Algorithm.**  A run begins at the first byte.  From an instruction it goes to the one
behind it, and from a jump also to its target.  Where a run may stand is kept by each
such move.

**Results.**
* `Chunk.WellFormed`: the structure of a chunk, said without its verification.
* `Chunk.verify_eq_none_iff`: verification decides it.
* `Chunk.verify_of_constants`: what is left for verification to refuse is the first jump that
  does not land.
* `Chunk.Safe`, `Chunk.WellFormed.safe_of_moves`, `Chunk.WellFormed.safe_of_run`: where the
  runs of a well-formed chunk stand.
* `Chunk.verify_exact_and_safe`: verification is exact, and closed under execution.
-/

namespace StackNative
namespace Bytecode

section Starts

/-- Instructions that stand one behind the other do not begin before the first. -/
theorem Consecutive.le_offset
    {offset : Nat} {is : List Instruction}
    (h : Consecutive offset is)
    {i : Instruction}
    (hi : i ∈ is) :
    offset ≤ i.offset := by
  induction is generalizing offset with
  | nil =>
      cases hi
  | cons j is ih =>
      rcases List.mem_cons.mp hi with rfl | hi
      · exact Nat.le_of_eq h.1.symm
      · have hle := ih h.2 hi
        omega

theorem Consecutive.end_le_endOf
    {offset : Nat} {is : List Instruction}
    (h : Consecutive offset is)
    {i : Instruction}
    (hi : i ∈ is) :
    i.offset + i.width ≤ endOf offset is := by
  induction is generalizing offset with
  | nil =>
      cases hi
  | cons j is ih =>
      rw [endOf_cons]
      rcases List.mem_cons.mp hi with rfl | hi
      · rw [h.1, endOf]
        omega
      · exact ih h.2 hi

/-- Behind each instruction begins another, or is the end. -/
theorem Consecutive.next
    {offset : Nat} {is : List Instruction}
    (h : Consecutive offset is)
    {i : Instruction}
    (hi : i ∈ is) :
    i.offset + i.width = endOf offset is ∨ ∃ j ∈ is, i.offset + i.width = j.offset := by
  induction is generalizing offset with
  | nil =>
      cases hi
  | cons k is ih =>
      rw [endOf_cons]
      rcases List.mem_cons.mp hi with rfl | hi
      · cases is with
        | nil =>
            rw [h.1]
            exact Or.inl rfl
        | cons j is =>
            refine Or.inr ⟨j, List.mem_cons_of_mem i List.mem_cons_self, ?_⟩
            rw [h.1, h.2.1]
      · rcases ih h.2 hi with hend | ⟨j, hj, hnext⟩
        · exact Or.inl hend
        · exact Or.inr ⟨j, List.mem_cons_of_mem k hj, hnext⟩

/-- No instruction begins inside another. -/
theorem Consecutive.not_inside
    {offset : Nat} {is : List Instruction}
    (h : Consecutive offset is)
    {i j : Instruction}
    (hi : i ∈ is)
    (hj : j ∈ is) :
    j.offset ≤ i.offset ∨ i.offset + i.width ≤ j.offset := by
  induction is generalizing offset with
  | nil =>
      cases hi
  | cons k is ih =>
      obtain ⟨hk, hrest⟩ := h
      rcases List.mem_cons.mp hi with rfl | hi'
      · rcases List.mem_cons.mp hj with rfl | hj'
        · exact Or.inl (Nat.le_refl _)
        · rw [hk]
          exact Or.inr (hrest.le_offset hj')
      · rcases List.mem_cons.mp hj with rfl | hj'
        · have hle := hrest.le_offset hi'
          exact Or.inl (by omega)
        · exact ih hrest hi' hj'

end Starts

section Structure

namespace Chunk

variable {c : Chunk} {is : List Instruction}

/-- A jump may go there: an instruction begins there, or the code ends. -/
def Lands (c : Chunk) (is : List Instruction) (target : Int) : Prop :=
  (∃ i ∈ is, target = i.offset) ∨ target = c.length

/-- The line table is as long as the code, the code consists of instructions, each operand that
names a constant is below the size of the pool, and each jump lands. -/
structure WellFormed (c : Chunk) (is : List Instruction) : Prop where
  size_lines : c.lines.size = c.length
  consists : c.Consists is
  constants : ∀ i ∈ is, i.op = .const ∨ i.op = .constLong → i.operand < c.constants.size
  jumps : ∀ i ∈ is, i.op ∈ [.jump, .jumpIfFalse, .jumpIfTrue, .loop] → c.Lands is i.target

theorem takesConstant_iff (op : Opcode) :
    op.takesConstant = true ↔ op = .const ∨ op = .constLong := by
  simp [Opcode.takesConstant]

theorem isJump_iff (op : Opcode) :
    op.isJump = true ↔ op ∈ [Opcode.jump, .jumpIfFalse, .jumpIfTrue, .loop] := by
  cases op <;> decide

theorem isJump_of_takesConstant
    {op : Opcode}
    (h : op.takesConstant = true) :
    op.isJump = false := by
  rcases (takesConstant_iff op).mp h with rfl | rfl <;> rfl

theorem contains_boundaries (c : Chunk) (is : List Instruction) (target : Int) :
    (c.boundaries is).contains target = true ↔ c.Lands is target := by
  simp only [boundaries, Std.HashSet.contains_insert, Std.HashSet.contains_ofList,
    Bool.or_eq_true, beq_iff_eq, List.contains_eq_mem, decide_eq_true_eq, List.mem_map, Lands]
  grind

/-- Nothing is wrong with the operand of an instruction. -/
theorem operandFault_eq_none_iff (c : Chunk) (is : List Instruction) (i : Instruction) :
    c.operandFault (c.boundaries is) i = none ↔
      (i.op.takesConstant = true → i.operand < c.constants.size) ∧
        (i.op.isJump = true → c.Lands is i.target) := by
  rw [← contains_boundaries, operandFault]
  cases hconstant : i.op.takesConstant with
  | true =>
      simp [isJump_of_takesConstant hconstant]
  | false =>
      cases hjump : i.op.isJump <;> simp

/-- A jump that does not land is what is wrong. -/
theorem operandFault_of_not_lands
    {i : Instruction}
    (hjump : i.op.isJump = true)
    (hlands : ¬ c.Lands is i.target) :
    c.operandFault (c.boundaries is) i = some (.jumpTarget i.op i.target) := by
  have hconstant : i.op.takesConstant = false := by
    cases hconstant : i.op.takesConstant with
    | false =>
        rfl
    | true =>
        rw [isJump_of_takesConstant hconstant] at hjump
        cases hjump
  rw [← contains_boundaries] at hlands
  simp [operandFault, hconstant, hjump, hlands]

/-- Of code that is read, each operand is looked at in order. -/
theorem verify_of_consists
    (hlines : c.lines.size = c.length)
    (h : c.Consists is) :
    c.verify =
      is.findSome? fun i => (c.operandFault (c.boundaries is) i).map (.invalid i.offset) := by
  simp only [verify, hlines, ne_eq, not_true_eq_false, if_false,
    (c.instructions_eq_ok_iff is).mpr h]

/-- Verification finds nothing exactly in well-formed chunks. -/
theorem verify_eq_none_iff (c : Chunk) : c.verify = none ↔ ∃ is, c.WellFormed is := by
  constructor
  · intro h
    have hlines : c.lines.size = c.length := by
      refine Decidable.byContradiction fun hne => ?_
      rw [verify, if_pos hne] at h
      cases h
    cases his : c.instructions with
    | error e =>
        rw [verify, if_neg (fun hne => hne hlines), his] at h
        cases h
    | ok is =>
        have hconsists := (c.instructions_eq_ok_iff is).mp his
        rw [verify_of_consists hlines hconsists, List.findSome?_eq_none_iff] at h
        have hall : ∀ i ∈ is, c.operandFault (c.boundaries is) i = none :=
          fun i hi => Option.map_eq_none_iff.mp (h i hi)
        refine ⟨is, hlines, hconsists, ?_, ?_⟩
        · intro i hi hop
          have hconstant := ((c.operandFault_eq_none_iff is i).mp (hall i hi)).1
          exact hconstant ((takesConstant_iff i.op).mpr hop)
        · intro i hi hop
          exact ((c.operandFault_eq_none_iff is i).mp (hall i hi)).2 ((isJump_iff i.op).mpr hop)
  · rintro ⟨is, h⟩
    rw [verify_of_consists h.size_lines h.consists, List.findSome?_eq_none_iff]
    intro i hi
    refine Option.map_eq_none_iff.mpr ((c.operandFault_eq_none_iff is i).mpr ⟨?_, ?_⟩)
    · exact fun hop => h.constants i hi ((takesConstant_iff i.op).mp hop)
    · exact fun hop => h.jumps i hi ((isJump_iff i.op).mp hop)

/-- The first jump, in code order, that does not land. -/
structure StraysFirst (c : Chunk) (is : List Instruction) (i : Instruction) : Prop where
  first : ∃ front back, is = front ++ i :: back ∧
    ∀ j ∈ front, j.op.isJump = true → c.Lands is j.target
  jump : i.op.isJump = true
  not_lands : ¬ c.Lands is i.target

/-- In code whose constants are all in the pool, verification looks for the first jump that does not
land. -/
theorem verify_of_constants
    (hlines : c.lines.size = c.length)
    (h : c.Consists is)
    (hconstants : ∀ i ∈ is, i.op.takesConstant = true → i.operand < c.constants.size) :
    (c.verify = none ↔ ∀ i ∈ is, i.op.isJump = true → c.Lands is i.target) ∧
      ∀ e, c.verify = some e →
        ∃ i, c.StraysFirst is i ∧ e = .invalid i.offset (.jumpTarget i.op i.target) := by
  have hnone : ∀ i ∈ is, c.operandFault (c.boundaries is) i = none ↔
      (i.op.isJump = true → c.Lands is i.target) := by
    intro i hi
    rw [operandFault_eq_none_iff]
    exact and_iff_right (hconstants i hi)
  rw [verify_of_consists hlines h]
  constructor
  · rw [List.findSome?_eq_none_iff]
    refine forall₂_congr fun i hi => ?_
    rw [Option.map_eq_none_iff, hnone i hi]
  · intro e he
    obtain ⟨front, i, back, rfl, hmap, hfront⟩ := List.findSome?_eq_some_iff.mp he
    obtain ⟨fault, hfault, rfl⟩ := Option.map_eq_some_iff.mp hmap
    have hi : i ∈ front ++ i :: back := by simp
    -- with all constants in the pool, only a jump can be at fault
    have hstrays : ¬ (i.op.isJump = true → c.Lands (front ++ i :: back) i.target) := by
      rw [← hnone i hi, hfault]
      nofun
    obtain ⟨hjump, hlands⟩ := Classical.not_imp.mp hstrays
    rw [operandFault_of_not_lands hjump hlands] at hfault
    cases hfault
    refine ⟨i, ⟨⟨front, back, rfl, ?_⟩, hjump, hlands⟩, rfl⟩
    intro j hj
    exact (hnone j (List.mem_append_left _ hj)).mp (Option.map_eq_none_iff.mp (hfront j hj))

end Chunk

end Structure

section Runs

namespace Chunk

variable {c : Chunk} {is : List Instruction}

/-- From an instruction a run goes to what stands behind it, and from a jump also to its target. -/
inductive Moves (c : Chunk) : Int → Int → Prop
  | next {offset : Int} {i : Instruction} :
      c.decodeAt offset = .ok i → Moves c offset (offset + i.width)
  | jump {offset : Int} {i : Instruction} :
      c.decodeAt offset = .ok i → i.op ∈ [.jump, .jumpIfFalse, .jumpIfTrue, .loop] →
        Moves c offset i.target

/-- A run may stand there: at the end of the code, or where one of its instructions is decoded,
with a constant in the pool if it names one. -/
def Safe (c : Chunk) (is : List Instruction) (offset : Int) : Prop :=
  offset = c.length ∨
    ∃ i ∈ is, offset = i.offset ∧ c.decodeAt offset = .ok i ∧
      (i.op = .const ∨ i.op = .constLong → ∃ n < c.constants.size, i.operand = n)

theorem decodeAt_length (c : Chunk) :
    c.decodeAt c.length = .error ⟨c.length, .outOfRange⟩ := by
  have hnone : c.code[c.length]? = none := Array.getElem?_eq_none (Nat.le_refl _)
  change c.decode c.length = _
  rw [decode, hnone]

/-- An operand that names a constant is no negative number. -/
theorem nonneg_of_fits
    {i : Instruction}
    (h : i.Fits)
    (hop : i.op = .const ∨ i.op = .constLong) :
    0 ≤ i.operand := by
  obtain ⟨offset, op, operand, line⟩ := i
  rcases hop with rfl | rfl
  · rw [← show _ = operand from h]
    exact Int.natCast_nonneg _
  · rw [← show _ = operand from h]
    exact Int.natCast_nonneg _

/-- Where a jump lands, a run may stand. -/
theorem WellFormed.safe_of_lands
    (h : c.WellFormed is)
    {offset : Int}
    (hlands : c.Lands is offset) :
    c.Safe is offset := by
  rcases hlands with ⟨i, hi, rfl⟩ | hend
  · refine Or.inr ⟨i, hi, rfl, h.consists.decode hi, ?_⟩
    intro hop
    have hlt := h.constants i hi hop
    obtain ⟨n, hn⟩ := Int.eq_ofNat_of_zero_le (nonneg_of_fits (h.consists.fits i hi) hop)
    exact ⟨n, by omega, hn⟩
  · exact Or.inl hend

theorem WellFormed.safe_zero
    (h : c.WellFormed is) :
    c.Safe is 0 := by
  refine h.safe_of_lands ?_
  cases is with
  | nil =>
      have hle := (c.consistsFrom_nil_iff 0).mp h.consists
      exact Or.inr (by omega)
  | cons i is =>
      have hoffset := h.consists.consecutive.1
      exact Or.inl ⟨i, List.mem_cons_self, by omega⟩

/-- A move goes from where a run may stand to where it may stand. -/
theorem WellFormed.safe_of_moves
    (h : c.WellFormed is)
    {o o' : Int}
    (hsafe : c.Safe is o)
    (hmove : c.Moves o o') :
    c.Safe is o' := by
  -- nothing is decoded at the end of the code, so the move begins at an instruction of the code
  have hmem : ∀ i, c.decodeAt o = .ok i → i ∈ is ∧ o = i.offset := by
    intro i hi
    rcases hsafe with rfl | ⟨j, hj, hoffset, hdecode, -⟩
    · rw [decodeAt_length] at hi
      cases hi
    · rw [hdecode] at hi
      cases hi
      exact ⟨hj, hoffset⟩
  refine h.safe_of_lands ?_
  cases hmove with
  | @next i hi =>
      obtain ⟨hmi, rfl⟩ := hmem i hi
      rcases h.consists.consecutive.next hmi with hend | ⟨j, hj, hnext⟩
      · rw [h.consists.endOf_eq] at hend
        exact Or.inr (by omega)
      · exact Or.inl ⟨j, hj, by omega⟩
  | @jump i hi hop =>
      exact h.jumps i (hmem i hi).1 hop

/-- Wherever a run comes to, it may stand. -/
theorem WellFormed.safe_of_run
    (h : c.WellFormed is)
    {o : Int}
    (hrun : Relation.ReflTransGen c.Moves 0 o) :
    c.Safe is o := by
  induction hrun with
  | refl =>
      exact h.safe_zero
  | tail _ hmove ih =>
      exact h.safe_of_moves ih hmove

/-- Where a run may stand is inside the code or its end, and never inside an instruction. -/
theorem WellFormed.bounds_of_safe
    (h : c.WellFormed is)
    {o : Int}
    (hsafe : c.Safe is o) :
    0 ≤ o ∧ o ≤ c.length ∧ ∀ i ∈ is, o ≤ i.offset ∨ i.offset + i.width ≤ o := by
  have hend : ∀ i ∈ is, i.offset + i.width ≤ c.length := by
    intro i hi
    rw [← h.consists.endOf_eq]
    exact h.consists.consecutive.end_le_endOf hi
  rcases hsafe with rfl | ⟨j, hj, rfl, -, -⟩
  · refine ⟨by omega, by omega, ?_⟩
    intro i hi
    have hle := hend i hi
    exact Or.inr (by omega)
  · have hle := hend j hj
    refine ⟨by omega, by omega, ?_⟩
    intro i hi
    have hinside := h.consists.consecutive.not_inside hi hj
    omega

/-- Verification finds nothing exactly in well-formed chunks, and no run of such a chunk leaves the
beginnings of its instructions and the end of its code. -/
theorem verify_exact_and_safe (c : Chunk) :
    (c.verify = none ↔ ∃ is, c.WellFormed is) ∧
      (c.verify = none → ∃ is, c.instructions = .ok is ∧
        ∀ o, Relation.ReflTransGen c.Moves 0 o →
          c.Safe is o ∧ 0 ≤ o ∧ o ≤ c.length ∧
            ∀ i ∈ is, o ≤ i.offset ∨ i.offset + i.width ≤ o) := by
  refine ⟨c.verify_eq_none_iff, ?_⟩
  intro h
  obtain ⟨is, his⟩ := c.verify_eq_none_iff.mp h
  refine ⟨is, (c.instructions_eq_ok_iff is).mpr his.consists, ?_⟩
  intro o hrun
  have hsafe := his.safe_of_run hrun
  exact ⟨hsafe, his.bounds_of_safe hsafe⟩

/-- A constant, a conditional jump to the end, and a loop back to the beginning. -/
def looping : Chunk :=
  ⟨some #[0, 0, 37, 0, 3, 39, 0, 8], some #[1, 1, 2, 2, 2, 3, 3, 3], #[.int 7]⟩

/-- The instructions of that chunk. -/
def loopingCode : List Instruction :=
  [⟨0, .const, 0, 1⟩, ⟨2, .jumpIfFalse, 3, 2⟩, ⟨5, .loop, 8, 3⟩]

theorem looping_wellFormed : looping.WellFormed loopingCode where
  size_lines := rfl
  consists := ⟨rfl, ⟨rfl, rfl, rfl, trivial⟩, by decide, by decide⟩
  constants := by decide
  jumps := by
    simp only [loopingCode, List.forall_mem_cons]
    exact ⟨nofun, fun _ => Or.inr rfl,
      fun _ => Or.inl ⟨⟨0, .const, 0, 1⟩, List.mem_cons_self, rfl⟩, nofun⟩

theorem looping_run : Relation.ReflTransGen looping.Moves 0 8 := by
  have hconst : looping.Moves 0 2 := .next (i := ⟨0, .const, 0, 1⟩) rfl
  have hskip : looping.Moves 2 5 := .next (i := ⟨2, .jumpIfFalse, 3, 2⟩) rfl
  have hloop : looping.Moves 5 0 := .jump (i := ⟨5, .loop, 8, 3⟩) rfl (by decide)
  have hleave : looping.Moves 2 8 := .jump (i := ⟨2, .jumpIfFalse, 3, 2⟩) rfl (by decide)
  exact ((((Relation.ReflTransGen.single hconst).tail hskip).tail hloop).tail hconst).tail hleave

theorem looping_safe :
    looping.verify = none ∧ ∃ is, looping.instructions = .ok is ∧ looping.Safe is 8 := by
  have hverify : looping.verify = none :=
    looping.verify_exact_and_safe.1.mpr ⟨loopingCode, looping_wellFormed⟩
  obtain ⟨is, his, hsafe⟩ := looping.verify_exact_and_safe.2 hverify
  exact ⟨hverify, is, his, (hsafe 8 looping_run).1⟩

end Chunk

end Runs

end Bytecode
end StackNative
