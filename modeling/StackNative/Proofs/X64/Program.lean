import Mathlib.Data.List.Nodup
import StackNative.Proofs.Ir.Validate
import StackNative.Proofs.Results
import StackNative.Proofs.X64.Machine
import StackNative.X64.Codegen

/-!
# The program of a module

**Input.**  A module that has machine code.

**Results.**
* `moduleCode_valid`: a program uses registers and conditions that the machine has.
* `functionCode_ok`, `block_ok`, `moduleCode_ok`: what code that is made consists of.
* `binds_nodup`: each function and each block of a valid module has its label bound
  once.
* `main_placed`: where the code of the main function stands in a program.
-/

namespace StackNative
namespace X64

open Ir (Register BlockId Module)
open Allocation (allocate)

section Validity

/-- All instructions have registers and conditions that the machine has. -/
def AllValid (is : List (Instruction Label)) : Prop := ∀ i ∈ is, i.Valid

instance (is : List (Instruction Label)) : Decidable (AllValid is) :=
  inferInstanceAs (Decidable (∀ i ∈ is, i.Valid))

theorem AllValid.append
    {is js : List (Instruction Label)}
    (hi : AllValid is)
    (hj : AllValid js) :
    AllValid (is ++ js) := by
  intro i h
  rcases List.mem_append.mp h with h | h
  · exact hi i h
  · exact hj i h

theorem allValid_single
    {i : Instruction Label}
    (h : i.Valid) :
    AllValid [i] := by
  intro j hj
  rwa [List.mem_singleton.mp hj]

/-- An instruction without conditions is valid if its registers are. -/
theorem valid_of_registers
    {i : Instruction Label}
    (hregs : ∀ r ∈ i.registers, r.Valid)
    (hconds : i.conds = []) :
    i.Valid :=
  ⟨hregs, by simp [hconds]⟩

/-- The machine registers that hold values are machine registers. -/
theorem valueReg_valid
    (index : Nat) :
    (Context.valueReg index).Valid := by
  have hall : ∀ r ∈ valueRegs, r.Valid := by decide
  unfold Context.valueReg
  by_cases h : index < valueRegs.length
  · rw [List.getD_eq_getElem?_getD, List.getElem?_eq_getElem h, Option.getD_some]
    exact hall _ (List.getElem_mem h)
  · rw [List.getD_eq_getElem?_getD, List.getElem?_eq_none (by omega), Option.getD_none]
    decide

/-- A copy uses the registers that it is given. -/
theorem copy_valid
    {target source : Reg}
    (ht : target.Valid)
    (hs : source.Valid) :
    AllValid (Context.copy target source) := by
  unfold Context.copy
  split
  · simp [AllValid]
  · exact allValid_single (valid_of_registers (by simp [Instruction.registers, ht, hs]) rfl)

/-- What brings a value into a machine register is valid. -/
theorem load_valid
    {g : Context}
    {target : Reg}
    {r : Register}
    {is : List (Instruction Label)}
    (ht : target.Valid)
    (h : g.load target r = .ok is) :
    AllValid is := by
  have hbp : Reg.rbp.Valid := by decide
  unfold Context.load at h
  split at h
  · cases h
    exact copy_valid ht (valueReg_valid _)
  · cases h
    exact allValid_single (valid_of_registers (by simp [Instruction.registers, ht, hbp]) rfl)
  · cases h

/-- What puts a value in its place is valid. -/
theorem store_valid
    (g : Context)
    (r : Register)
    {source : Reg}
    (hs : source.Valid) :
    AllValid (g.store r source) := by
  have hbp : Reg.rbp.Valid := by decide
  unfold Context.store
  split
  · exact copy_valid (valueReg_valid _) hs
  · exact allValid_single (valid_of_registers (by simp [Instruction.registers, hs, hbp]) rfl)
  · simp [AllValid]

/-- What brings two operands into machine registers is valid. -/
theorem loadPair_valid
    {g : Context}
    {i : Ir.Instruction}
    {is : List (Instruction Label)}
    (h : g.loadPair i = .ok is) :
    AllValid is := by
  unfold Context.loadPair at h
  split at h
  · obtain ⟨left, hleft, h⟩ := bind_eq_ok h
    obtain ⟨right, hright, h⟩ := bind_eq_ok h
    cases h
    exact (load_valid (by decide) hleft).append (load_valid (by decide) hright)
  · cases h

/-- What brings the first operand into a machine register is valid. -/
theorem loadFirst_valid
    {g : Context}
    {target : Reg}
    {i : Ir.Instruction}
    {is : List (Instruction Label)}
    (ht : target.Valid)
    (h : g.loadFirst target i = .ok is) :
    AllValid is := by
  unfold Context.loadFirst at h
  split at h
  · cases h
  · exact load_valid ht h

/-- The work of every operation with two operands is valid. -/
theorem pairWork_valid
    {op : Ir.Op}
    {is : List (Instruction Label)}
    (h : Context.pairWork? op = some is) :
    AllValid is := by
  cases op <;> cases h <;> decide +kernel

/-- The work of every operation with one operand is valid. -/
theorem singleWork_valid
    {op : Ir.Op}
    {is : List (Instruction Label)}
    (h : Context.singleWork? op = some is) :
    AllValid is := by
  cases op <;> cases h <;> decide +kernel

/-- A constant is brought into `rax` by a valid instruction. -/
theorem loadConstant_valid
    (c : Ir.Constant) :
    (Context.loadConstant c).Valid := by
  have hrax : ∀ r ∈ [Reg.rax], r.Valid := by decide
  cases c with
  | int n =>
      exact Instruction.valid_movImm (by decide) n
  | float x =>
      exact Instruction.valid_movImm (by decide) x.toInt64
  | _ =>
      exact valid_of_registers hrax rfl

/-- What makes the result of an instruction is valid. -/
theorem result_valid
    {g : Context}
    {i : Ir.Instruction}
    {is : List (Instruction Label)}
    (h : g.result i = .ok is) :
    AllValid is := by
  have hregs : ∀ r ∈ [Reg.rax, Reg.rbp], r.Valid := by decide
  have hmem : ∀ r ∈ [Reg.rax, Reg.rcx], r.Valid := by decide
  unfold Context.result at h
  split at h
  · cases h
    exact allValid_single (loadConstant_valid _)
  · obtain ⟨offset, -, h⟩ := bind_eq_ok h
    cases h
    exact allValid_single (valid_of_registers hregs rfl)
  · cases h
    exact allValid_single (valid_of_registers hregs rfl)
  · obtain ⟨front, hfront, h⟩ := bind_eq_ok h
    cases h
    exact (loadFirst_valid (by decide) hfront).append
      (allValid_single (valid_of_registers hmem rfl))
  · split at h
    · rename_i hwork
      obtain ⟨front, hfront, h⟩ := bind_eq_ok h
      cases h
      exact (loadPair_valid hfront).append (pairWork_valid hwork)
    · rename_i hwork
      obtain ⟨front, hfront, h⟩ := bind_eq_ok h
      cases h
      exact (loadFirst_valid (by decide) hfront).append (singleWork_valid hwork)
    · cases h

/-- The code of every instruction is valid. -/
theorem instruction_valid
    {g : Context}
    {i : Ir.Instruction}
    {is : List (Instruction Label)}
    (h : g.instruction i = .ok is) :
    AllValid is := by
  have hstore : ∀ r ∈ [Reg.rbp, Reg.rax], r.Valid := by decide
  have hpointer : ∀ r ∈ [Reg.rcx, Reg.rax], r.Valid := by decide
  unfold Context.instruction at h
  split at h
  · cases h
    simp [AllValid]
  · cases h
    simp [AllValid]
  · obtain ⟨offset, -, h⟩ := bind_eq_ok h
    obtain ⟨front, hfront, h⟩ := bind_eq_ok h
    cases h
    exact (loadFirst_valid (by decide) hfront).append
      (allValid_single (valid_of_registers hstore rfl))
  · split at h
    · obtain ⟨left, hleft, h⟩ := bind_eq_ok h
      obtain ⟨right, hright, h⟩ := bind_eq_ok h
      cases h
      exact ((load_valid (by decide) hleft).append (load_valid (by decide) hright)).append
        (allValid_single (valid_of_registers hpointer rfl))
    · cases h
  · obtain ⟨work, hwork, h⟩ := bind_eq_ok h
    split at h
    · cases h
      exact (result_valid hwork).append (store_valid g _ (by decide))
    · cases h
      exact result_valid hwork

/-- A function that returns a value leaves it in `rax`. -/
theorem Context.terminator_ret
    (g : Context)
    (r : Register) :
    g.terminator (.ret (some r)) = (do return (← g.load .rax r) ++ epilogue) :=
  rfl

/-- A jump is made to a block that the function has. -/
theorem Context.terminator_jump
    (g : Context)
    (target : Ir.BlockId) :
    g.terminator (.jump target) =
      if (g.function.block? target).isNone then .error (.jumpTarget target)
      else .ok [.jump (g.label target)] :=
  rfl

/-- A branch goes by whether the value is zero, to blocks that the function has. -/
theorem Context.terminator_branch
    (g : Context)
    (r : Register)
    (onTrue onFalse : Ir.BlockId) :
    g.terminator (.branch r onTrue onFalse) =
      if (g.function.block? onTrue).isNone then .error (.branchTarget onTrue)
      else if (g.function.block? onFalse).isNone then .error (.branchTarget onFalse)
      else do
        return (← g.load .rax r) ++ [.pair .test .rax .rax,
          .jumpIf Cond.notEqual (g.label onTrue), .jump (g.label onFalse)] :=
  rfl

/-- The code of a jump, if there is one. -/
theorem eq_of_terminator_jump
    {g : Context}
    {target : Ir.BlockId}
    {is : List (Instruction Label)}
    (h : g.terminator (.jump target) = .ok is) :
    is = [.jump (g.label target)] := by
  rw [Context.terminator_jump] at h
  split at h
  · cases h
  · cases h
    rfl

/-- The code of a branch, if there is one. -/
theorem eq_of_terminator_branch
    {g : Context}
    {r : Register}
    {onTrue onFalse : Ir.BlockId}
    {is : List (Instruction Label)}
    (h : g.terminator (.branch r onTrue onFalse) = .ok is) :
    ∃ loads, g.load .rax r = .ok loads ∧ is = loads ++ [.pair .test .rax .rax,
      .jumpIf Cond.notEqual (g.label onTrue), .jump (g.label onFalse)] := by
  rw [Context.terminator_branch] at h
  split at h
  · cases h
  · split at h
    · cases h
    · obtain ⟨loads, hloads, h⟩ := bind_eq_ok h
      cases h
      exact ⟨loads, hloads, rfl⟩

/-- The code of every terminator is valid. -/
theorem terminator_valid
    {g : Context}
    {t : Ir.Terminator}
    {is : List (Instruction Label)}
    (h : g.terminator t = .ok is) :
    AllValid is := by
  have hepilogue : AllValid Context.epilogue := by decide +kernel
  cases t with
  | ret value =>
      cases value with
      | none =>
          cases h
          exact (allValid_single (by decide +kernel)).append hepilogue
      | some r =>
          obtain ⟨front, hfront, h⟩ := bind_eq_ok h
          cases h
          exact (load_valid (by decide) hfront).append hepilogue
  | jump target =>
      rw [eq_of_terminator_jump h]
      exact allValid_single (valid_of_registers (by simp [Instruction.registers]) rfl)
  | branch condition onTrue onFalse =>
      obtain ⟨front, hfront, rfl⟩ := eq_of_terminator_branch h
      refine (load_valid (by decide) hfront).append ?_
      intro i hi
      simp only [List.mem_cons, List.not_mem_nil, or_false] at hi
      rcases hi with rfl | rfl | rfl
      · decide +kernel
      · exact ⟨by simp [Instruction.registers], by simp [Instruction.conds]; decide⟩
      · exact valid_of_registers (by simp [Instruction.registers]) rfl
  | unreachable =>
      cases h
      decide +kernel
  | throw value =>
      cases h
  | unknown code =>
      cases h

/-- What sets up the frame is valid. -/
theorem prologue_valid
    (g : Context)
    (os : Os) :
    AllValid (g.prologue os) := by
  have hsp : ∀ r ∈ [Reg.rsp], r.Valid := by decide
  have harguments : ∀ r ∈ argumentRegs os, r.Valid := by
    unfold argumentRegs
    split <;> decide
  have hroom : AllValid (if 0 < g.frame.size then [.subImm .rsp g.frame.size] else []) := by
    split
    · exact allValid_single (valid_of_registers hsp rfl)
    · simp [AllValid]
  have henter : AllValid [.push .rbp, .pair .mov .rbp .rsp] := by decide +kernel
  refine (henter.append hroom).append ?_
  intro i hi
  obtain ⟨⟨p, source⟩, hp, hi⟩ := List.mem_flatMap.mp hi
  exact store_valid g p.register (harguments source (List.of_mem_zip hp).2) i hi

end Validity

section Parts

/-- The code that is skipped to come to the entry block. -/
def Context.skip (g : Context) : Code :=
  match g.function.blocks[0]? with
  | some b => if b.id = g.function.entry then [] else code [.jump (g.label g.function.entry)]
  | none => []

/-- The code of a block is its label, then that of its instructions and of its terminator. -/
theorem block_ok
    {g : Context}
    {b : Ir.Block}
    {c : Code}
    (h : g.block b = .ok c) :
    ∃ body exit, b.instructions.toList.mapM g.instruction = .ok body ∧
      g.terminator b.terminator = .ok exit ∧
      c = .bind (g.label b.id) :: code (body.flatten ++ exit) := by
  obtain ⟨body, hbody, h⟩ := bind_eq_ok h
  obtain ⟨exit, hexit, h⟩ := bind_eq_ok h
  cases h
  exact ⟨body, exit, hbody, hexit, rfl⟩

/-- What the code of a function consists of. -/
theorem functionCode_ok
    {os : Os}
    {index : Nat}
    {f : Ir.Function}
    {c : Code}
    (h : functionCode os index f = .ok c) :
    ∃ (g : Context) (blocks : List Code), f.entryBlock?.isSome = true ∧
      g.index = index ∧ g.function = f ∧
      g.allocation = allocate valueRegs.length f ∧
      Frame.layout f g.allocation.spillCount = .ok g.frame ∧
      f.blocks.toList.mapM g.block = .ok blocks ∧
      c = code (g.prologue os) ++ g.skip ++ blocks.flatten := by
  unfold functionCode at h
  simp only at h
  split at h
  · cases h
  · split at h
    · cases h
    · rename_i hentry
      split at h
      · cases h
      · cases h
      · rename_i frame hframe
        obtain ⟨blocks, hblocks, h⟩ := bind_eq_ok h
        cases h
        refine ⟨⟨index, f, allocate valueRegs.length f, frame⟩, blocks,
          by simpa [Option.isSome_iff_ne_none] using hentry, rfl, rfl, rfl, hframe, ?_, rfl⟩
        refine mapM_eq_ok_of_imp ?_ hblocks
        intro b c hc
        split at hc
        · cases hc
          assumption
        · cases hc

/-- The code of a function and its label. -/
def labelled (os : Os) (f : Ir.Function × Nat) : Except CodegenError Code := do
  return .bind (.function f.1.name) :: (← functionCode os f.2 f.1)

/-- What the program of a module consists of. -/
theorem moduleCode_ok
    {os : Os}
    {m : Module}
    {program : Code}
    (h : moduleCode os m = .ok program) :
    ∃ (main : Ir.Function) (bodies : List Code),
      m.function? mainName = some main ∧ main.external = false ∧
      (m.functions.toList.filter fun f => !f.external).zipIdx.mapM (labelled os) = .ok bodies ∧
      program = stub os (.function mainName) ++ bodies.flatten ++
        pool (literals bodies.flatten) := by
  unfold moduleCode at h
  simp only at h
  split at h
  · cases h
  · rename_i main hmain
    split at h
    · cases h
    · rename_i hexternal
      split at h
      · cases h
      · obtain ⟨bodies, hbodies, h⟩ := bind_eq_ok h
        cases h
        exact ⟨main, bodies, hmain, by simpa using hexternal, hbodies, rfl⟩

theorem instruction_mem_code
    {i : Instruction Label}
    {is : List (Instruction Label)} :
    Item.instruction i ∈ code is ↔ i ∈ is := by
  simp [code]

/-- Every instruction of a function is valid, by those of its blocks. -/
theorem functionCode_valid
    {os : Os}
    {index : Nat}
    {f : Ir.Function}
    {c : Code}
    (h : functionCode os index f = .ok c)
    {i : Instruction Label}
    (hi : Item.instruction i ∈ c) :
    i.Valid := by
  obtain ⟨g, blocks, -, -, -, -, -, hblocks, rfl⟩ := functionCode_ok h
  rcases List.mem_append.mp hi with hi | hi
  · rcases List.mem_append.mp hi with hi | hi
    · exact prologue_valid g os i (instruction_mem_code.mp hi)
    · unfold Context.skip at hi
      split at hi
      · split at hi
        · simp at hi
        · obtain rfl := List.mem_singleton.mp (instruction_mem_code.mp hi)
          exact valid_of_registers (by simp [Instruction.registers]) rfl
      · simp at hi
  · obtain ⟨c, hc, hi⟩ := List.mem_flatten.mp hi
    obtain ⟨b, -, hb⟩ := exists_of_mem_mapM hblocks hc
    obtain ⟨body, exit, hbody, hexit, rfl⟩ := block_ok hb
    have hi' : i ∈ body.flatten ++ exit := by
      rcases List.mem_cons.mp hi with hi | hi
      · cases hi
      · exact instruction_mem_code.mp hi
    rcases List.mem_append.mp hi' with hi' | hi'
    · obtain ⟨is, his, hi'⟩ := List.mem_flatten.mp hi'
      obtain ⟨j, -, hj⟩ := exists_of_mem_mapM hbody his
      exact instruction_valid hj i hi'
    · exact terminator_valid hexit i hi'

/-- A program uses registers and conditions that the machine has. -/
theorem moduleCode_valid
    {os : Os}
    {m : Module}
    {program : Code}
    (h : moduleCode os m = .ok program) :
    ∀ i, Item.instruction i ∈ program → i.Valid := by
  intro i hi
  obtain ⟨main, bodies, -, -, hbodies, rfl⟩ := moduleCode_ok h
  rcases List.mem_append.mp hi with hi | hi
  · rcases List.mem_append.mp hi with hi | hi
    · unfold stub at hi
      split at hi
      · have hi' := instruction_mem_code.mp hi
        simp only [List.mem_cons, List.not_mem_nil, or_false] at hi'
        rcases hi' with rfl | rfl <;> decide +kernel
      · have hi' := instruction_mem_code.mp hi
        simp only [List.mem_cons, List.not_mem_nil, or_false] at hi'
        have hrax : ∀ r ∈ [Reg.rax], r.Valid := by decide
        rcases hi' with rfl | rfl | rfl | rfl | rfl
        · decide +kernel
        · decide +kernel
        · exact valid_of_registers hrax rfl
        · decide +kernel
        · decide +kernel
    · obtain ⟨c, hc, hi⟩ := List.mem_flatten.mp hi
      obtain ⟨⟨f, index⟩, -, hf⟩ := exists_of_mem_mapM hbodies hc
      obtain ⟨body, hbody, h⟩ := bind_eq_ok hf
      cases h
      rcases List.mem_cons.mp hi with hi | hi
      · cases hi
      · exact functionCode_valid hbody hi
  · unfold pool at hi
    split at hi
    · simp at hi
    · simp at hi

end Parts

section Labels

/-- The labels that a program binds, in order. -/
def binds (c : Code) : List Label :=
  c.filterMap fun
    | .bind l => some l
    | _ => none

theorem binds_append
    (c d : Code) :
    binds (c ++ d) = binds c ++ binds d := by
  simp [binds]

@[simp] theorem binds_code
    (is : List (Instruction Label)) :
    binds (code is) = [] := by
  simp [binds, code]

theorem mem_binds
    {c : Code}
    {l : Label} :
    l ∈ binds c ↔ Item.bind l ∈ c := by
  simp only [binds, List.mem_filterMap]
  constructor
  · rintro ⟨item, hitem, hl⟩
    cases item <;> simp_all
  · intro h
    exact ⟨.bind l, h, rfl⟩

/-- The blocks of a function bind their own labels. -/
theorem binds_flatten_blocks
    {g : Context}
    {bs : List Ir.Block}
    {blocks : List Code}
    (h : bs.mapM g.block = .ok blocks) :
    binds blocks.flatten = bs.map fun b => g.label b.id := by
  induction bs generalizing blocks with
  | nil =>
      cases h
      rfl
  | cons b bs ih =>
      obtain ⟨c, cs, rfl, hc, hcs⟩ := mapM_cons_eq_ok h
      obtain ⟨body, exit, -, -, rfl⟩ := block_ok hc
      rw [List.flatten_cons, binds_append, ih hcs, List.map_cons]
      rw [show binds (.bind (g.label b.id) :: code (body.flatten ++ exit)) =
        g.label b.id :: binds (code (body.flatten ++ exit)) from rfl, binds_code]
      rfl

/-- A function binds the labels of its blocks and no other. -/
theorem binds_functionCode
    {os : Os}
    {index : Nat}
    {f : Ir.Function}
    {c : Code}
    (h : functionCode os index f = .ok c) :
    binds c = f.blocks.toList.map fun b => .block index b.id := by
  obtain ⟨g, blocks, -, rfl, rfl, -, -, hblocks, rfl⟩ := functionCode_ok h
  have hskip : binds g.skip = [] := by
    unfold Context.skip
    split
    · split
      · rfl
      · exact binds_code _
    · rfl
  rw [binds_append, binds_append, binds_code, hskip, binds_flatten_blocks hblocks]
  rfl

/-- The labels of a function and its blocks. -/
def functionLabels (f : Ir.Function × Nat) : List Label :=
  .function f.1.name :: f.1.blocks.toList.map fun b => .block f.2 b.id

/-- The functions of a module bind their own labels and those of their blocks. -/
theorem binds_flatten_functions
    {os : Os}
    {fs : List (Ir.Function × Nat)}
    {bodies : List Code}
    (h : fs.mapM (labelled os) = .ok bodies) :
    binds bodies.flatten = fs.flatMap functionLabels := by
  induction fs generalizing bodies with
  | nil =>
      cases h
      rfl
  | cons f fs ih =>
      obtain ⟨c, cs, rfl, hc, hcs⟩ := mapM_cons_eq_ok h
      obtain ⟨body, hbody, hc⟩ := bind_eq_ok hc
      cases hc
      rw [List.flatten_cons, binds_append, ih hcs, List.flatMap_cons, functionLabels,
        ← binds_functionCode hbody]
      rfl

/-- A function with different blocks binds no label twice. -/
theorem functionLabels_nodup
    {f : Ir.Function}
    (h : Allocation.DistinctBlocks f)
    (index : Nat) :
    (functionLabels (f, index)).Nodup := by
  have hblocks : ((f.blocks.toList.map Ir.Block.id).map (Label.block index)).Nodup := by
    refine List.Nodup.map ?_ h
    intro a b hab
    exact (Label.block.inj hab).2
  rw [List.map_map] at hblocks
  exact List.nodup_cons.mpr ⟨by simp, hblocks⟩

/-- Two functions bind no label in common. -/
theorem functionLabels_disjoint
    {f g : Ir.Function × Nat}
    (hname : f.1.name ≠ g.1.name)
    (hindex : f.2 ≠ g.2) :
    List.Disjoint (functionLabels f) (functionLabels g) := by
  intro l hf hg
  simp only [functionLabels, List.mem_cons, List.mem_map] at hf hg
  rcases hf with rfl | ⟨b, -, rfl⟩
  · rcases hg with hg | ⟨c, -, hg⟩
    · exact hname (Label.function.inj hg)
    · cases hg
  · rcases hg with hg | ⟨c, -, hg⟩
    · cases hg
    · exact hindex (Label.block.inj hg).1.symm

/-- Each function and each block of a valid module has its label bound once. -/
theorem binds_nodup
    {os : Os}
    {m : Module}
    {bodies : List Code}
    (hvalid : m.validate = [])
    (h : (m.functions.toList.filter fun f => !f.external).zipIdx.mapM (labelled os) =
      .ok bodies) :
    (binds bodies.flatten).Nodup := by
  have hnames : (m.functions.toList.filter fun f => !f.external).Pairwise
      fun f g => f.name ≠ g.name :=
    (List.pairwise_map.mp (Ir.validate_names hvalid)).filter _
  have hfst : ((m.functions.toList.filter fun f => !f.external).zipIdx).Pairwise
      fun f g => f.1.name ≠ g.1.name := by
    rw [← List.pairwise_map (R := fun f g : Ir.Function => f.name ≠ g.name),
      List.zipIdx_map_fst]
    exact hnames
  have hsnd : ((m.functions.toList.filter fun f => !f.external).zipIdx).Pairwise
      fun f g => f.2 ≠ g.2 := by
    rw [← List.pairwise_map (R := fun i j : Nat => i ≠ j), List.zipIdx_map_snd]
    exact List.nodup_range'
  rw [binds_flatten_functions h, List.nodup_flatMap]
  refine ⟨?_, (hfst.and hsnd).imp fun hne => functionLabels_disjoint hne.1 hne.2⟩
  rintro ⟨f, index⟩ hf
  have hmem := List.mem_filter.mp (List.fst_mem_of_mem_zipIdx hf)
  exact functionLabels_nodup (Ir.validate_blocks hvalid (Array.mem_toList_iff.mp hmem.1)
    (by simpa using hmem.2)) index

/-- In a program whose functions' labels are bound once, the place where such a label stands is its
offset. -/
theorem offsetOf_label
    {front back : Code}
    {strings : List Text}
    {l : Label}
    (hnodup : (binds (front ++ .bind l :: back)).Nodup)
    (hl : ∀ s, l ≠ .literal s) :
    offsetOf (front ++ .bind l :: back ++ pool strings) l = endOf 0 front := by
  have hback : l ∉ binds back := by
    rw [binds_append] at hnodup
    exact (List.nodup_cons.mp (List.nodup_append.mp hnodup).2.1).1
  have hpool : Item.bind l ∉ pool strings := by
    unfold pool
    split
    · simp
    · simp [hl]
  rw [List.append_assoc, List.cons_append]
  refine offsetOf_of_last front ?_
  rw [List.mem_append, not_or]
  exact ⟨fun h => hback (mem_binds.mpr h), hpool⟩

end Labels

section Placement

/-- The code behind a label stands at its offset. -/
theorem codeAt_label
    {front back : Code}
    {is : List (Instruction Label)}
    {strings : List Text}
    {l : Label}
    (hnodup : (binds (front ++ .bind l :: (code is ++ back))).Nodup)
    (hl : ∀ s, l ≠ .literal s) :
    CodeAt (front ++ .bind l :: (code is ++ back) ++ pool strings)
      (offsetOf (front ++ .bind l :: (code is ++ back) ++ pool strings) l) is := by
  rw [offsetOf_label hnodup hl]
  refine ⟨front ++ [.bind l], back ++ pool strings, ?_, ?_⟩
  · simp [code]
  · rw [endOf_append]
    rfl

/-- The instructions that begin a process and end it. -/
def stubInstructions (os : Os) : List (Instruction Label) :=
  [.call (.function mainName), .pair .mov .rdi .rax, .movImm32 .rax (exitCall os), .syscall, .ud2]

/-- The code of the main function stands in a program behind its labels. -/
structure Placed (os : Os) (g : Context) (program : Code) : Prop where
  stub : CodeAt program 0 (stubInstructions os)
  prologue : CodeAt program (offsetOf program (.function mainName)) (g.prologue os)
  /-- Control goes from the prologue to the entry block. -/
  entry : CodeAt program (behind (offsetOf program (.function mainName)) (g.prologue os))
      [.jump (g.label g.function.entry)] ∨
    behind (offsetOf program (.function mainName)) (g.prologue os) =
      offsetOf program (g.label g.function.entry)
  blocks : ∀ (k : Nat) (b : Ir.Block), g.function.blocks[k]? = some b → ∃ body exit,
    b.instructions.toList.mapM g.instruction = .ok body ∧ g.terminator b.terminator = .ok exit ∧
      CodeAt program (offsetOf program (g.label b.id)) (body.flatten ++ exit)

/-- An element of a list has something in front of it and something behind it. -/
theorem exists_split_of_getElem?
    {α : Type}
    {xs : List α}
    {k : Nat}
    {x : α}
    (h : xs[k]? = some x) :
    ∃ front back, xs = front ++ x :: back ∧ front.length = k := by
  obtain ⟨hk, rfl⟩ := List.getElem?_eq_some_iff.mp h
  refine ⟨xs.take k, xs.drop (k + 1), ?_, ?_⟩
  · rw [← List.drop_eq_getElem_cons hk, List.take_append_drop]
  · rw [List.length_take]
    omega

section Main

variable
  {os : Os}
  {g : Context}
  {front back : Code}
  {blocks : List Code}

/-- A program with the code of the main function in it. -/
def withMain (os : Os) (g : Context) (front : Code) (blocks : List Code) (back : Code) : Code :=
  code (stubInstructions os) ++ front ++ .bind (.function mainName) ::
    (code (g.prologue os) ++ (g.skip ++ (blocks.flatten ++ back)))

/-- Behind the label of a block its code stands in the program. -/
theorem codeAt_block
    {strings : List Text}
    (hblocks : g.function.blocks.toList.mapM g.block = .ok blocks)
    (hnodup : (binds (withMain os g front blocks back)).Nodup)
    {k : Nat}
    {b : Ir.Block}
    (hb : g.function.blocks[k]? = some b) :
    ∃ body exit, b.instructions.toList.mapM g.instruction = .ok body ∧
      g.terminator b.terminator = .ok exit ∧
      CodeAt (withMain os g front blocks back ++ pool strings)
        (offsetOf (withMain os g front blocks back ++ pool strings) (g.label b.id))
        (body.flatten ++ exit) := by
  rw [← Array.getElem?_toList] at hb
  obtain ⟨before, after, hsplit, -⟩ := exists_split_of_getElem? hb
  rw [hsplit] at hblocks
  obtain ⟨cs, rest, rfl, -, hrest⟩ := mapM_append_eq_ok hblocks
  obtain ⟨c, ds, rfl, hc, -⟩ := mapM_cons_eq_ok hrest
  obtain ⟨body, exit, hbody, hexit, rfl⟩ := block_ok hc
  refine ⟨body, exit, hbody, hexit, ?_⟩
  have hprogram : withMain os g front
      (cs ++ (.bind (g.label b.id) :: code (body.flatten ++ exit)) :: ds) back =
      (code (stubInstructions os) ++ front ++ .bind (.function mainName) ::
        (code (g.prologue os) ++ (g.skip ++ cs.flatten))) ++
        .bind (g.label b.id) :: (code (body.flatten ++ exit) ++ (ds.flatten ++ back)) := by
    simp [withMain]
  rw [hprogram] at hnodup ⊢
  exact codeAt_label hnodup (by simp [Context.label])

/-- The prologue of the main function leads to its entry block. -/
theorem entry_placed
    {strings : List Text}
    (hentry : g.function.entryBlock?.isSome = true)
    (hblocks : g.function.blocks.toList.mapM g.block = .ok blocks)
    (hnodup : (binds (withMain os g front blocks back)).Nodup) :
    let program := withMain os g front blocks back ++ pool strings
    let offset := behind (offsetOf program (.function mainName)) (g.prologue os)
    CodeAt program offset [.jump (g.label g.function.entry)] ∨
      offset = offsetOf program (g.label g.function.entry) := by
  intro program offset
  cases hfirst : g.function.blocks[0]? with
  | none =>
      have hempty : g.function.blocks = #[] := by simpa using hfirst
      simp [Ir.Function.entryBlock?, Ir.Function.block?, hempty] at hentry
  | some b =>
      by_cases hid : b.id = g.function.entry
      · right
        have hskip : g.skip = [] := by simp [Context.skip, hfirst, hid]
        rw [← Array.getElem?_toList] at hfirst
        obtain ⟨before, after, hsplit, hlength⟩ := exists_split_of_getElem? hfirst
        obtain rfl := List.length_eq_zero_iff.mp hlength
        rw [hsplit, List.nil_append] at hblocks
        obtain ⟨c, cs, rfl, hc, -⟩ := mapM_cons_eq_ok hblocks
        obtain ⟨body, exit, -, -, rfl⟩ := block_ok hc
        have hprogram : withMain os g front
            ((.bind (g.label b.id) :: code (body.flatten ++ exit)) :: cs) back =
            (code (stubInstructions os) ++ front ++ .bind (.function mainName) ::
              code (g.prologue os)) ++
              .bind (g.label b.id) :: (code (body.flatten ++ exit) ++ (cs.flatten ++ back)) := by
          simp [withMain, hskip]
        have hmain : offsetOf program (.function mainName) =
            endOf 0 (code (stubInstructions os) ++ front) :=
          offsetOf_label hnodup (by simp)
        have hblock : offsetOf program (g.label b.id) =
            endOf 0 (code (stubInstructions os) ++ front ++ .bind (.function mainName) ::
              code (g.prologue os)) := by
          rw [hprogram] at hnodup
          simp only [program, hprogram]
          exact offsetOf_label hnodup (by simp [Context.label])
        simp only [offset]
        rw [← hid, hmain, hblock, endOf_append 0 (code (stubInstructions os) ++ front)]
        rfl
      · left
        have hskip : g.skip = code [.jump (g.label g.function.entry)] := by
          simp [Context.skip, hfirst, hid]
        have hprogram : withMain os g front blocks back =
            code (stubInstructions os) ++ front ++ .bind (.function mainName) ::
              (code (g.prologue os ++ [.jump (g.label g.function.entry)]) ++
                (blocks.flatten ++ back)) := by
          simp [withMain, hskip, code]
        have hcode : CodeAt program (offsetOf program (.function mainName))
            (g.prologue os ++ [.jump (g.label g.function.entry)]) := by
          rw [hprogram] at hnodup
          simp only [program, hprogram]
          exact codeAt_label hnodup (by simp)
        exact hcode.right

end Main

/-- The main function of a valid module is placed in its program. -/
theorem main_placed
    {os : Os}
    {m : Module}
    {main : Ir.Function}
    {program : Code}
    (hos : os ≠ .windows)
    (hvalid : m.validate = [])
    (hmain : m.function? mainName = some main)
    (h : moduleCode os m = .ok program) :
    ∃ g : Context, g.function = main ∧ g.allocation = allocate valueRegs.length main ∧
      Frame.layout main g.allocation.spillCount = .ok g.frame ∧ Placed os g program := by
  obtain ⟨main', bodies, hmain', hexternal, hbodies, rfl⟩ := moduleCode_ok h
  obtain rfl : main = main' := Option.some.inj (hmain.symm.trans hmain')
  have hname : main.name = mainName := by
    have hfound := Array.find?_some hmain
    simpa using hfound
  have hmem : main ∈ m.functions.toList.filter fun f => !f.external := by
    rw [List.mem_filter]
    exact ⟨by simpa using Array.mem_of_find?_eq_some hmain, by simp [hexternal]⟩
  have hnodup := binds_nodup hvalid hbodies
  obtain ⟨before, after, hsplit⟩ := List.append_of_mem hmem
  rw [hsplit, List.zipIdx_append, List.zipIdx_cons] at hbodies
  obtain ⟨front, rest, rfl, -, hrest⟩ := mapM_append_eq_ok hbodies
  obtain ⟨body, back, rfl, hbody, -⟩ := mapM_cons_eq_ok hrest
  obtain ⟨c, hc, hcons⟩ := bind_eq_ok hbody
  cases hcons
  obtain ⟨g, blocks, hentry, hindex, hfunction, hallocation, hframe, hblocks, rfl⟩ :=
    functionCode_ok hc
  subst hfunction
  have hstub : stub os (.function mainName) = code (stubInstructions os) := if_neg hos
  have hflatten : code (stubInstructions os) ++
      (front ++ (.bind (.function g.function.name) ::
        (code (g.prologue os) ++ g.skip ++ blocks.flatten)) :: back).flatten =
      code (stubInstructions os) ++ front.flatten ++ .bind (.function mainName) ::
        (code (g.prologue os) ++ (g.skip ++ (blocks.flatten ++ back.flatten))) := by
    simp [hname]
  refine ⟨g, rfl, hallocation, hframe, ?_⟩
  rw [hstub, hflatten]
  have hnodup' : (binds (withMain os g front.flatten blocks back.flatten)).Nodup := by
    rw [withMain, ← hflatten, binds_append, binds_code, List.nil_append]
    exact hnodup
  refine ⟨?_, codeAt_label hnodup' (by simp), entry_placed hentry hblocks hnodup', ?_⟩
  · exact ⟨[], _, by simp [code]; rfl, rfl⟩
  · exact fun k b hb => codeAt_block hblocks hnodup' hb

end Placement

end X64
end StackNative
