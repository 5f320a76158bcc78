import StackNative.Proofs.X64.Program
import StackNative.Proofs.X64.Values

/-!
# Machine code does what the function does

**Input.**  A valid module with a main function on integers, and its machine code.

**Algorithm.**  A run of the main function and a run of the processor go side by side.
Whenever the first is at a point of a block, the second is at the code of what is
left of the block, and its registers and its memory hold the values that the first
one has.

**Results.**
* `simulates_step`: a step of the function is some steps of the processor.
* `simulates_return`: where the function returns, so does the processor.
* `simulates_run`: a whole run.
* `machineCode_exits`: the process ends with the value of the main function.
-/

namespace StackNative
namespace X64

open Allocation (Point Flow Numbering Interval liveIntervals allocate)
open Ir (Module Env Config enter)
open Relation (ReflTransGen)

section Matching

/-- The code of what is left of a block stands at an offset. -/
def Located (g : Context) (program : Code) (p : Point) (offset : Nat) : Prop :=
  ∃ b body exit, g.function.blocks[p.block]? = some b ∧ p.index ≤ b.instructions.size ∧
    (b.instructions.toList.drop p.index).mapM g.instruction = .ok body ∧
    g.terminator b.terminator = .ok exit ∧ CodeAt program offset (body.flatten ++ exit)

/-- The processor is where the function is, and holds what the function has written. -/
structure Matches (g : Context) (program : Code) (base frameBase back : Word) (c : Config)
    (s : Word × Machine) : Prop where
  located : ∃ offset, s.1 = base + .ofNat 64 offset ∧ Located g program c.point offset
  agrees : Agrees g frameBase back c.point c.env s.2

variable
  {os : Os}
  {g : Context}
  {program : Code}
  {base frameBase back : Word}
  {d : Config}
  {p : Point}
  {env : Env}
  {m : Machine}

/-- Control that comes to the label of a block is at the first point of the block. -/
theorem Placed.enters
    (hplaced : Placed os g program)
    {k : Nat}
    {b : Ir.Block}
    (hb : g.function.blocks[k]? = some b)
    (h : Agrees g frameBase back ⟨k, 0⟩ env m) :
    Matches g program base frameBase back ⟨⟨k, 0⟩, env⟩
      (place base program (g.label b.id), m) := by
  obtain ⟨body, exit, hbody, hexit, hcode⟩ := hplaced.blocks k b hb
  exact ⟨⟨_, rfl, b, body, exit, hb, Nat.zero_le _, hbody, hexit, hcode⟩, h⟩

/-- A terminator that goes to a block leads to the label of the block. -/
theorem Placed.jumps
    (hplaced : Placed os g program)
    (h : Agrees g frameBase back p env m)
    {b : Ir.Block}
    (hb : g.function.blocks[p.block]? = some b)
    (hindex : p.index = b.instructions.size)
    {target : Ir.BlockId}
    (htarget : target ∈ b.terminator.successors)
    (henter : enter g.function target env = some d) :
    Matches g program base frameBase back d (place base program (g.label target), m) := by
  obtain ⟨k, b', hk, hid, rfl⟩ := Ir.enter_eq_some henter
  have hflow : Flow g.function p ⟨k, 0⟩ := .jump hb hindex hk (hid ▸ htarget)
  rw [← hid]
  exact hplaced.enters hk (h.flow hflow)

end Matching

section Steps

variable
  {os : Os}
  {g : Context}
  {program : Code}
  {bytes : Text}
  {base frameBase back : Word}
  {c d : Config}
  {p : Point}
  {b : Ir.Block}
  {env : Env}
  {m : Machine}
  {offset : Nat}
  {exit : List (Instruction Label)}
  {v : Int64}

/-- An instruction is carried out. -/
theorem simulates_instruction
    (hcode : Loaded program bytes)
    (hg : g.Laid)
    (h : Agrees g frameBase back p env m)
    (hlocated : Located g program p offset)
    (hb : g.function.blocks[p.block]? = some b)
    {i : Ir.Instruction}
    (hi : b.instructions[p.index]? = some i)
    {env' : Env}
    (hrun : i.run env = some env') :
    ∃ t, Steps bytes base (base + .ofNat 64 offset, m) t ∧
      Matches g program base frameBase back ⟨⟨p.block, p.index + 1⟩, env'⟩ t := by
  obtain ⟨b', body, exit, hb', hle, hbody, hexit, hat⟩ := hlocated
  obtain rfl : b = b' := Option.some.inj (hb.symm.trans hb')
  obtain ⟨hlt, rfl⟩ := Array.getElem?_eq_some_iff.mp hi
  rw [List.drop_eq_getElem_cons (by simpa using hlt)] at hbody
  obtain ⟨is, rest, rfl, his, hrest⟩ := mapM_cons_eq_ok hbody
  rw [List.flatten_cons, List.append_assoc] at hat
  obtain ⟨m', hm', hagrees⟩ :=
    instruction_spec hg h hb hi his hrun (place base program)
  exact ⟨_, steps_of_effects hcode base hat.left hm',
    ⟨_, rfl, b, rest, exit, hb, hlt, hrest, hexit, hat.right⟩, hagrees⟩

/-- A register that a terminator reads is brought into `rax`. -/
theorem simulates_load
    (hcode : Loaded program bytes)
    (hg : g.Laid)
    (h : Agrees g frameBase back p env m)
    (hb : g.function.blocks[p.block]? = some b)
    (hindex : p.index = b.instructions.size)
    {r : Ir.Register}
    {is : List (Instruction Label)}
    (huses : r ∈ b.terminator.uses)
    (hr : env.registers r = some v)
    (his : g.load .rax r = .ok is)
    (hat : CodeAt program offset (is ++ exit)) :
    Steps bytes base (base + .ofNat 64 offset, m)
        (base + .ofNat 64 (behind offset is), m.set .rax v.toBitVec) ∧
      Agrees g frameBase back p env (m.set .rax v.toBitVec) := by
  have hneeded : Needed g.function r p := ⟨p, .refl, b, hb, Or.inr ⟨hindex, huses⟩⟩
  obtain ⟨hload, -, hagrees⟩ :=
    load_scratch hg h (by decide) hneeded hr his (place base program)
  exact ⟨steps_of_effects hcode base hat.left hload, hagrees⟩

/-- A jump is carried out. -/
theorem simulates_jump
    (hcode : Loaded program bytes)
    (hplaced : Placed os g program)
    (h : Agrees g frameBase back p env m)
    (hb : g.function.blocks[p.block]? = some b)
    (hindex : p.index = b.instructions.size)
    {target : Ir.BlockId}
    (htarget : target ∈ b.terminator.successors)
    (henter : enter g.function target env = some d)
    (hat : CodeAt program offset [.jump (g.label target)]) :
    ∃ t, Steps bytes base (base + .ofNat 64 offset, m) t ∧
      Matches g program base frameBase back d t := by
  refine ⟨_, .single ?_, hplaced.jumps h hb hindex htarget henter⟩
  rw [step_instruction hcode base hat]
  rfl

/-- A branch is carried out. -/
theorem simulates_branch
    (hcode : Loaded program bytes)
    (hplaced : Placed os g program)
    (hg : g.Laid)
    (h : Agrees g frameBase back p env m)
    (hb : g.function.blocks[p.block]? = some b)
    (hindex : p.index = b.instructions.size)
    {onTrue onFalse : Ir.BlockId}
    (htrue : onTrue ∈ b.terminator.successors)
    (hfalse : onFalse ∈ b.terminator.successors)
    (hrax : m.regs .rax = v.toBitVec)
    (henter : enter g.function (if v ≠ 0 then onTrue else onFalse) env = some d)
    (hat : CodeAt program offset [.pair .test .rax .rax, .jumpIf Cond.notEqual (g.label onTrue),
      .jump (g.label onFalse)]) :
    ∃ t, Steps bytes base (base + .ofNat 64 offset, m) t ∧
      Matches g program base frameBase back d t := by
  set flags := Flags.ofResult (v.toBitVec &&& v.toBitVec) (some false) with hflags
  have hagrees : Agrees g frameBase back p env (m.setFlags flags) :=
    h.onlyScratch hg ((OnlyScratch.refl m).setFlags flags)
  have htest : effects (place base program) [.pair .test .rax .rax] m =
      some (m.setFlags flags) := by
    simp only [effects_cons, effects_nil, Instruction.operation, Operation.effect,
      PairOp.effect, hrax, Option.bind_some, hflags]
  have hsteps := steps_of_effects hcode base hat.head htest
  have hrest := hat.tail
  have hbranch := step_jumpIf hcode base hrest.head (m := m.setFlags flags) (holds?_test v).2
  by_cases hv : v ≠ 0
  · rw [if_pos hv] at henter
    rw [decide_eq_true hv, if_pos rfl] at hbranch
    exact ⟨_, hsteps.tail hbranch, hplaced.jumps hagrees hb hindex htrue henter⟩
  · rw [if_neg hv] at henter
    rw [decide_eq_false hv, if_neg Bool.false_ne_true] at hbranch
    obtain ⟨t, hsteps', hmatches⟩ :=
      simulates_jump hcode hplaced hagrees hb hindex hfalse henter hrest.tail
    exact ⟨t, (hsteps.tail hbranch).trans hsteps', hmatches⟩

/-- The frame is left, and control goes back to where the function was called. -/
theorem simulates_epilogue
    (hcode : Loaded program bytes)
    (h : Agrees g frameBase back p env m)
    (hrax : m.regs .rax = v.toBitVec)
    (hat : CodeAt program offset Context.epilogue) :
    ∃ m', Steps bytes base (base + .ofNat 64 offset, m) (back, m') ∧
      m'.regs .rax = v.toBitVec := by
  replace hat : CodeAt program offset ([.pair .mov .rsp .rbp, .pop .rbp] ++ [.ret]) := hat
  set m' := ((m.set .rsp frameBase).set .rsp (frameBase + 8)).set .rbp
    (m.memory.read frameBase) with hm'
  have hleave : effects (place base program) [.pair .mov .rsp .rbp, .pop .rbp] m = some m' := by
    simp only [effects_cons, effects_nil, Instruction.operation, Operation.effect,
      PairOp.effect, Machine.pop, Machine.regs_set, Machine.memory_set, h.rbp, if_true,
      Option.bind_some, hm']
  have hsteps := steps_of_effects hcode base hat.left hleave
  have hret : step bytes base (base + .ofNat 64 (behind offset _), m') = some m'.pop :=
    step_instruction hcode base hat.right m'
  have hback : m'.pop.1 = back := by
    rw [← h.returns]
    rfl
  have hrax' : m'.pop.2.regs .rax = v.toBitVec := by
    rw [← hrax]
    rfl
  rw [← hback]
  exact ⟨m'.pop.2, hsteps.tail hret, hrax'⟩

/-- What stands where a block is left is the code of its terminator. -/
theorem Located.terminator
    (h : Located g program p offset)
    (hb : g.function.blocks[p.block]? = some b)
    (hindex : b.instructions.size ≤ p.index) :
    p.index = b.instructions.size ∧
      ∃ is, g.terminator b.terminator = .ok is ∧ CodeAt program offset is := by
  obtain ⟨b', body, is, hb', hle, hbody, his, hat⟩ := h
  obtain rfl : b = b' := Option.some.inj (hb.symm.trans hb')
  rw [List.drop_eq_nil_of_le (by simpa using hindex)] at hbody
  cases hbody
  exact ⟨Nat.le_antisymm hle hindex, is, his, hat⟩

/-- A step of the function is some steps of the processor. -/
theorem simulates_step
    (hcode : Loaded program bytes)
    (hplaced : Placed os g program)
    (hg : g.Laid)
    {s : Word × Machine}
    (h : Matches g program base frameBase back c s)
    (hstep : Ir.step g.function c = some (.running d)) :
    ∃ t, Steps bytes base s t ∧ Matches g program base frameBase back d t := by
  obtain ⟨rip, m⟩ := s
  obtain ⟨⟨offset, rfl, hlocated⟩, hagrees⟩ := h
  obtain ⟨b, hb, ⟨i, env', hi, hrun, heq⟩ | ⟨hindex, hrun⟩⟩ := Ir.step_cases hstep
  · cases heq
    exact simulates_instruction hcode hg hagrees hlocated hb hi hrun
  · obtain ⟨hindex, is, his, hat⟩ := hlocated.terminator hb hindex
    obtain ⟨target, hexit, henter⟩ | ⟨r, onTrue, onFalse, v, hexit, hv, henter⟩ :=
      Ir.Terminator.run_running hrun
    · have htarget : target ∈ b.terminator.successors := by simp [hexit, Ir.Terminator.successors]
      rw [hexit] at his
      rw [eq_of_terminator_jump his] at hat
      exact simulates_jump hcode hplaced hagrees hb hindex htarget henter hat
    · have htrue : onTrue ∈ b.terminator.successors := by simp [hexit, Ir.Terminator.successors]
      have hfalse : onFalse ∈ b.terminator.successors := by simp [hexit, Ir.Terminator.successors]
      have huses : r ∈ b.terminator.uses := by simp [hexit, Ir.Terminator.uses]
      rw [hexit] at his
      obtain ⟨loads, hloads, rfl⟩ := eq_of_terminator_branch his
      obtain ⟨hsteps, hagrees'⟩ :=
        simulates_load hcode hg hagrees hb hindex huses hv hloads hat
      obtain ⟨t, hsteps', hmatches⟩ := simulates_branch hcode hplaced hg hagrees' hb hindex
        htrue hfalse (by simp) henter hat.right
      exact ⟨t, hsteps.trans hsteps', hmatches⟩

/-- Where the function returns, so does the processor. -/
theorem simulates_return
    (hcode : Loaded program bytes)
    (hg : g.Laid)
    {s : Word × Machine}
    (h : Matches g program base frameBase back c s)
    (hstep : Ir.step g.function c = some (.returned v)) :
    ∃ m', Steps bytes base s (back, m') ∧ m'.regs .rax = v.toBitVec := by
  obtain ⟨rip, m⟩ := s
  obtain ⟨⟨offset, rfl, hlocated⟩, hagrees⟩ := h
  obtain ⟨b, hb, ⟨i, env', hi, hrun, heq⟩ | ⟨hindex, hrun⟩⟩ := Ir.step_cases hstep
  · cases heq
  · obtain ⟨hindex, is, his, hat⟩ := hlocated.terminator hb hindex
    obtain ⟨r, hexit, hv⟩ | ⟨hexit, rfl⟩ := Ir.Terminator.run_returned hrun
    · have huses : r ∈ b.terminator.uses := by simp [hexit, Ir.Terminator.uses]
      rw [hexit, Context.terminator_ret] at his
      obtain ⟨loads, hloads, his⟩ := bind_eq_ok his
      cases his
      obtain ⟨hsteps, hagrees'⟩ :=
        simulates_load hcode hg hagrees hb hindex huses hv hloads hat
      obtain ⟨m', hsteps', hrax⟩ :=
        simulates_epilogue hcode hagrees' (v := v) (by simp) hat.right
      exact ⟨m', hsteps.trans hsteps', hrax⟩
    · rw [hexit] at his
      cases his
      have hzero : effects (place base program) [.movImm32 .rax 0] m =
          some (m.set .rax (0 : Int64).toBitVec) :=
        rfl
      have hagrees' := hagrees.onlyScratch hg
        ((OnlyScratch.refl m).set (r := .rax) (by decide) (0 : Int64).toBitVec)
      obtain ⟨m', hsteps, hrax⟩ :=
        simulates_epilogue hcode hagrees' (v := 0) (by simp) hat.tail
      exact ⟨m', (steps_of_effects hcode base hat.head hzero).trans hsteps, hrax⟩

/-- A run that comes to its end is a run of the processor that comes back with its value. -/
theorem simulates_run
    (hcode : Loaded program bytes)
    (hplaced : Placed os g program)
    (hg : g.Laid)
    (hreturns : Ir.Returns g.function c v)
    {s : Word × Machine}
    (h : Matches g program base frameBase back c s) :
    ∃ m', Steps bytes base s (back, m') ∧ m'.regs .rax = v.toBitVec := by
  induction hreturns generalizing s with
  | done hstep =>
      exact simulates_return hcode hg h hstep
  | next hstep _ ih =>
      obtain ⟨t, hsteps, hmatches⟩ := simulates_step hcode hplaced hg h hstep
      obtain ⟨m', hsteps', hrax⟩ := ih hmatches
      exact ⟨m', hsteps.trans hsteps', hrax⟩

end Steps

section Processes

variable
  {os : Os}
  {g : Context}
  {program : Code}
  {bytes : Text}
  {v : Int64}

/-- A function that is called makes its frame below the return address. -/
theorem prologue_spec
    (os : Os)
    (hparams : g.function.params = [])
    (p : Point)
    (m : Machine)
    (locate : Label → Word) :
    ∃ m', effects locate (g.prologue os) m = some m' ∧
      Agrees g (m.regs .rsp - 8) (m.memory.read (m.regs .rsp)) p {} m' := by
  set mid := (m.push (m.regs .rbp)).set .rbp (m.regs .rsp - 8) with hmid
  have hframe : effects locate [.push .rbp, .pair .mov .rbp .rsp] m = some mid :=
    rfl
  have htop : cell (m.regs .rsp - 8) 1 = m.regs .rsp :=
    BitVec.sub_add_cancel _ _
  have hbottom : cell (m.regs .rsp - 8) 0 = m.regs .rsp - 8 :=
    BitVec.add_zero _
  have hreturns : mid.memory.read (cell (m.regs .rsp - 8) 1) = m.memory.read (m.regs .rsp) := by
    have hapart := read_cell_of_ne m.memory (m.regs .rsp - 8) (m.regs .rbp)
      (j := 1) (k := 0) (by decide) (by decide) (by decide)
    rw [hbottom] at hapart
    rw [hmid, Machine.memory_set, Machine.push, Machine.memory_setWord, Machine.memory_set,
      hapart, htop]
  have hprologue : g.prologue os = [.push .rbp, .pair .mov .rbp .rsp] ++
      if 0 < g.frame.size then [.subImm .rsp g.frame.size] else [] := by
    simp [Context.prologue, hparams]
  rw [hprologue, effects_append, hframe, Option.bind_some]
  split
  · refine ⟨(mid.set .rsp _).setFlags _, rfl, Agrees.of_frame ?_ ?_ p⟩
    · rfl
    · rw [Machine.memory_setFlags, Machine.memory_set, hreturns]
  · exact ⟨mid, rfl, Agrees.of_frame rfl hreturns p⟩

/-- A called function on integers comes back with its value. -/
theorem call_spec
    (hcode : Loaded program bytes)
    (hplaced : Placed os g program)
    (hg : g.Laid)
    (hparams : g.function.params = [])
    (hreturns : g.function.Returns v)
    (base : Word)
    (m : Machine) :
    ∃ m', Steps bytes base (place base program (.function mainName), m)
        (m.memory.read (m.regs .rsp), m') ∧ m'.regs .rax = v.toBitVec := by
  obtain ⟨c, henter, hrun⟩ := hreturns
  obtain ⟨k, b, hb, hid, rfl⟩ := Ir.enter_eq_some henter
  obtain ⟨m', hm', hagrees⟩ :=
    prologue_spec os hparams ⟨k, 0⟩ m (place base program)
  have hprologue := steps_of_effects hcode base hplaced.prologue hm'
  have hentry : Steps bytes base (base + .ofNat 64 (behind (offsetOf program
      (.function mainName)) (g.prologue os)), m') (place base program (g.label b.id), m') := by
    rw [hid]
    obtain hat | hsame := hplaced.entry
    · exact .single (step_instruction hcode base hat m')
    · rw [hsame]
      exact .refl
  obtain ⟨m'', hsteps, hrax⟩ :=
    simulates_run hcode hplaced hg hrun (hplaced.enters hb hagrees)
  exact ⟨m'', (hprologue.trans hentry).trans hsteps, hrax⟩

theorem machineCode_ok
    {m : Module}
    (h : machineCode os m = .ok bytes) :
    ∃ program, moduleCode os m = .ok program ∧ finish program = .ok bytes := by
  unfold machineCode at h
  split at h
  · cases h
  · rename_i program hprogram
    split at h
    · cases h
    · rename_i code hfinish
      cases h
      exact ⟨program, hprogram, hfinish⟩

/-- The main function of a module that has machine code is laid out. -/
theorem main_laid
    {m : Module}
    (hvalid : m.validate = [])
    (hmain : m.function? mainName = some g.function)
    (horder : g.function.LocalsInOrder)
    (hfit : g.function.LocalsFit)
    (hplain : g.function.Plain)
    (hprogram : moduleCode os m = .ok program)
    (hallocation : g.allocation = allocate valueRegs.length g.function)
    (hframe : Frame.layout g.function g.allocation.spillCount = .ok g.frame) :
    g.Laid := by
  obtain ⟨main, bodies, hmain', hexternal, -, -⟩ := moduleCode_ok hprogram
  obtain rfl : g.function = main := Option.some.inj (hmain.symm.trans hmain')
  have hmem : g.function ∈ m.functions := Array.mem_of_find?_eq_some hmain
  have hlocals : g.function.locals.size < 2 ^ 58 := by
    unfold Ir.Function.LocalsFit at hfit
    omega
  have hspills : g.allocation.spillCount ≤ 2 ^ 32 := by
    rw [hallocation]
    exact Allocation.spillCount_le _ _
  obtain ⟨hroom, hspillBase⟩ :=
    layout_spec (fun b hb i hi => (hplain b hb i hi).op_ne_alloca) hlocals hspills hframe
  exact ⟨hallocation, Ir.validate_blocks hvalid hmem hexternal, horder, hspillBase, hroom⟩

/-- The first instructions of a program call the main function and end the process with its
value. -/
theorem stub_spec
    (hcode : Loaded program bytes)
    (hplaced : Placed os g program)
    (hg : g.Laid)
    (hparams : g.function.params = [])
    (hreturns : g.function.Returns v)
    (base : Word)
    (start : Machine) :
    ∃ rip stop, Steps bytes base (base, start) (rip, stop) ∧
      (fetch bytes base rip).map Prod.fst = some .syscall ∧
      stop.regs .rax = (exitCall os).toInt64.toBitVec ∧ stop.regs .rdi = v.toBitVec := by
  have hstub := hplaced.stub
  set next := base + BitVec.ofNat 64 (behind 0 [.call (Label.function mainName)]) with hnext
  have hcall : step bytes base (base, start) =
      some (place base program (.function mainName), start.push next) := by
    have hstep := step_instruction hcode base hstub.head start
    rwa [BitVec.add_zero] at hstep
  have hback : (start.push next).memory.read ((start.push next).regs .rsp) = next :=
    start.memory.read_write_self _ next
  obtain ⟨m, hsteps, hrax⟩ :=
    call_spec hcode hplaced hg hparams hreturns base (start.push next)
  rw [hback] at hsteps
  have hrest : CodeAt program (behind 0 [.call (Label.function mainName)])
      ([.pair .mov .rdi .rax, .movImm32 .rax (exitCall os)] ++ [.syscall, .ud2]) := hstub.tail
  have hexit : effects (place base program)
      [.pair .mov .rdi .rax, .movImm32 .rax (exitCall os)] m =
      some ((m.set .rdi (m.regs .rax)).set .rax (exitCall os).toInt64.toBitVec) :=
    rfl
  have hreaches : Steps bytes base (base, start) (next, m) := .head hcall hsteps
  refine ⟨_, _, hreaches.trans (steps_of_effects hcode base hrest.left hexit), ?_, ?_, ?_⟩
  · rw [fetch_instruction hcode base hrest.right.head]
    rfl
  · rw [Machine.regs_set, if_pos rfl]
  · rw [Machine.regs_set, if_neg (by decide), Machine.regs_set, if_pos rfl, hrax]

/-- The process ends with the value of the main function: the processor comes to the call of the
operating system that ends a process, with the value as the exit status. -/
theorem machineCode_exits
    {m : Module}
    {main : Ir.Function}
    {w : Int64}
    (hos : os = .linux ∨ os = .macos)
    (hvalid : m.validate = [])
    (hmain : m.function? mainName = some main)
    (hparams : main.params = [])
    (horder : main.LocalsInOrder)
    (hfit : main.LocalsFit)
    (hplain : main.Plain)
    (hbytes : machineCode os m = .ok bytes)
    (hlength : bytes.length < 2 ^ 31)
    (hreturns : main.Returns w)
    (base : Word)
    (start : Machine) :
    ∃ rip stop, Steps bytes base (base, start) (rip, stop) ∧
      (fetch bytes base rip).map Prod.fst = some .syscall ∧
      stop.regs .rax = (exitCall os).toInt64.toBitVec ∧
      stop.regs .rdi = w.toBitVec := by
  have hne : os ≠ .windows := by
    rcases hos with rfl | rfl <;> decide
  obtain ⟨program, hprogram, hfinish⟩ := machineCode_ok hbytes
  have hcode : Loaded program bytes :=
    Loaded.of_finish hfinish hlength (moduleCode_valid hprogram)
  obtain ⟨g, rfl, hallocation, hframe, hplaced⟩ := main_placed hne hvalid hmain hprogram
  have hg : g.Laid := main_laid hvalid hmain horder hfit hplain hprogram hallocation hframe
  exact stub_spec hcode hplaced hg hparams hreturns base start

end Processes

section Factorials

variable
  {os : Os}
  {program : Code}

/-- The product of the numbers up to three, counted down in a loop.  There are more registers than
machine registers, and the entry block is not the first one. -/
def factorial : Ir.Function :=
  ({ name := mainName
     returnType := .i64
     entry := 1
     blocks := #[
      ⟨2, #[.loadLocal 2 0, .loadLocal 3 1, .binary .mul 4 2 3, .storeLocal 1 4,
        .loadConst 5 (.int 1), .binary .sub 6 2 5, .storeLocal 0 6], .jump 3, true⟩,
      ⟨1, #[.loadConst 0 (.int 3), .storeLocal 0 0, .loadConst 1 (.bool true),
        .storeLocal 1 1], .jump 3, true⟩,
      ⟨3, #[.loadLocal 7 0, .loadLocal 8 1], .branch 7 2 4, true⟩,
      ⟨4, #[], .ret (some 8), true⟩] : Ir.Function
    }.addLocal "n" .i64).addLocal "product" .i64

def factorialModule : Module := { name := "factorial", functions := #[factorial] }

theorem factorial_plain : factorial.Plain := by
  simp only [Ir.Function.Plain, factorial, Ir.Function.addLocal, List.mem_toArray,
    List.forall_mem_cons, List.not_mem_nil, false_imp_iff, implies_true, and_true]
  exact ⟨⟨.loadLocal .., .loadLocal .., .binary _ _ _ _ rfl, .storeLocal .., .loadConst _ _ rfl,
    .binary _ _ _ _ rfl, .storeLocal ..⟩, ⟨.loadConst _ _ rfl, .storeLocal .., .loadConst _ _ rfl,
    .storeLocal ..⟩, .loadLocal .., .loadLocal ..⟩

theorem factorial_localsInOrder : factorial.LocalsInOrder := by
  refine Ir.Function.LocalsInOrder.addLocal (Ir.Function.LocalsInOrder.addLocal ?_ _ _) _ _
  intro slot l hl
  simp at hl

theorem factorial_size : (Numbering.function factorial).intervals.size = 9 := by
  simp [Numbering.function, Numbering.block, Numbering.instruction, Numbering.params,
    Allocation.touch, factorial, Ir.Function.addLocal, Ir.Instruction.uses, Ir.Instruction.binary,
    Ir.Instruction.loadLocal, Ir.Instruction.storeLocal, Ir.Instruction.loadConst,
    Ir.Terminator.uses, Std.HashMap.size_insert]

/-- All values are needed for as long as the loop runs, and the last one is returned. -/
def factorialIntervals : List Interval :=
  [⟨0, 0, 15, false⟩, ⟨1, 0, 15, false⟩, ⟨2, 0, 15, false⟩, ⟨3, 0, 15, false⟩,
    ⟨4, 0, 15, false⟩, ⟨5, 0, 15, false⟩, ⟨6, 0, 15, false⟩, ⟨7, 0, 15, false⟩,
    ⟨8, 0, 16, false⟩]

theorem factorial_liveIntervals : liveIntervals factorial = factorialIntervals := by
  have hspans : (Numbering.function factorial).backwardSpans factorial =
      [⟨0, 0, 15, false⟩] := by
    simp [Numbering.backwardSpans, Numbering.backward?, Numbering.function, Numbering.block,
      Numbering.instruction, Numbering.params, factorial, Ir.Function.addLocal,
      Ir.Terminator.successors, Std.HashMap.getElem_insert]
  have hmem : ∀ (j : Interval),
      (Numbering.function factorial).intervals[j.value]? = some j →
      j.grow [⟨0, 0, 15, false⟩] ∈ liveIntervals factorial :=
    fun _ => Allocation.grow_mem_liveIntervals hspans
  refine Allocation.liveIntervals_eq _ (Nat.le_of_eq factorial_size) (by decide) ?_
  simp only [factorialIntervals, List.forall_mem_cons, List.not_mem_nil, false_imp_iff,
    implies_true, and_true]
  refine ⟨hmem ⟨0, 8, 9, false⟩ ?_, hmem ⟨1, 10, 11, false⟩ ?_, hmem ⟨2, 0, 5, false⟩ ?_,
    hmem ⟨3, 1, 2, false⟩ ?_, hmem ⟨4, 2, 3, false⟩ ?_, hmem ⟨5, 4, 5, false⟩ ?_,
    hmem ⟨6, 5, 6, false⟩ ?_, hmem ⟨7, 13, 15, false⟩ ?_, hmem ⟨8, 14, 16, false⟩ ?_⟩
  all_goals
    simp [Numbering.function, Numbering.block, Numbering.instruction, Numbering.params,
      Allocation.touch, Interval.point, Interval.extend, factorial, Ir.Function.addLocal,
      Ir.Instruction.uses, Ir.Instruction.binary, Ir.Instruction.loadLocal,
      Ir.Instruction.storeLocal, Ir.Instruction.loadConst, Ir.Terminator.uses,
      Std.HashMap.getElem_insert]

/-- The values that are still needed when the machine registers have run out go to the frame. -/
theorem factorial_allocate :
    allocate valueRegs.length factorial =
      { intervals := factorialIntervals
        places := (∅ : Std.HashMap Ir.Register Allocation.Place) |>.insert 0 (.machine 0)
          |>.insert 1 (.machine 1) |>.insert 2 (.machine 2) |>.insert 3 (.machine 3)
          |>.insert 4 (.machine 4) |>.insert 5 (.slot 0) |>.insert 6 (.slot 1)
          |>.insert 7 (.slot 2) |>.insert 8 (.slot 3)
        spillCount := 4 } := by
  rw [allocate, factorial_liveIntervals]
  rfl

/-- The program of a module with one function. -/
theorem moduleCode_single
    (os : Os)
    (name : Text)
    {f : Ir.Function}
    (hname : f.name = mainName)
    (hexternal : f.external = false) :
    moduleCode os { name, functions := #[f] } = (do
      let c ← functionCode os 0 f
      let body : Code := .bind (.function f.name) :: c
      return stub os (.function mainName) ++ body ++ pool (literals body)) := by
  simp [moduleCode, Module.function?, hname, hexternal]

/-- A program whose labels are bound and that is short has machine code. -/
theorem machineCode_of_bound
    {m : Module}
    (hprogram : moduleCode os m = .ok program)
    (hbound : ∀ l ∈ references program, l ∈ binds program)
    (hshort : endOf 0 program < 2 ^ 31) :
    ∃ bytes, machineCode os m = .ok bytes ∧ bytes.length < 2 ^ 31 := by
  have hfinish := finish_eq fun l hl => mem_binds.mp (hbound l hl)
  refine ⟨bytesFrom (offsetOf program) 0 program, ?_, ?_⟩
  · simp only [machineCode, hprogram, hfinish]
  · rwa [length_bytesFrom_zero]

theorem factorial_machineCode :
    ∃ bytes, machineCode .linux factorialModule = .ok bytes ∧ bytes.length < 2 ^ 31 := by
  have hmain : mainName = [0x6d, 0x61, 0x69, 0x6e] := by decide
  have hn : ("n" : Text) = [0x6e] := by decide
  have hproduct : ("product" : Text) = [0x70, 0x72, 0x6f, 0x64, 0x75, 0x63, 0x74] := by decide
  have hentry : factorial.entryBlock?.isNone = false := rfl
  have hframe : Frame.layout factorial 4 = .ok ⟨∅, 16, 48⟩ := by rfl
  have hcode := Eq.refl (functionCode .linux 0 factorial)
  conv at hcode =>
    rhs
    unfold functionCode
    rw [factorial_allocate, hentry]
    simp only [hframe]
    simp only [factorial, hmain, hn, hproduct, Ir.Function.addLocal, List.mapM_cons, List.mapM_nil,
      Context.block, Context.terminator_ret, Context.terminator_jump, Context.terminator_branch,
      ← Option.not_isSome]
    cbv
  have hprogram := moduleCode_single .linux "factorial" (f := factorial) rfl rfl
  rw [hcode] at hprogram
  exact machineCode_of_bound hprogram (by decide +kernel) (by decide +kernel)

/-- The process ends with the product. -/
theorem factorial_exits :
    ∃ bytes, machineCode .linux factorialModule = .ok bytes ∧
      ∀ (base : Word) (start : Machine), ∃ rip stop,
        Steps bytes base (base, start) (rip, stop) ∧
        (fetch bytes base rip).map Prod.fst = some .syscall ∧
        stop.regs .rax = 60 ∧ stop.regs .rdi = 6 := by
  obtain ⟨bytes, hbytes, hlength⟩ := factorial_machineCode
  have hvalid : factorialModule.validate = [] := by
    rw [Ir.validate_eq]
    decide +kernel
  have hreturns : factorial.Returns 6 := .of_run (n := 60) (by decide +kernel)
  have hfit : 32 * factorial.locals.size < 2 ^ 63 := by decide
  exact ⟨bytes, hbytes, machineCode_exits (Or.inl rfl) hvalid rfl rfl factorial_localsInOrder hfit
    factorial_plain hbytes hlength hreturns⟩

end Factorials

end X64
end StackNative
