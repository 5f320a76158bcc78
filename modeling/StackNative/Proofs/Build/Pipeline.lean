import StackNative.Build.Compiler
import StackNative.Proofs.Allocation.Places
import StackNative.Proofs.Lowering.Straight
import StackNative.Proofs.X64.Binding
import StackNative.Proofs.X64.Values

/-!
# What is lowered can be built

**Input.**  A chunk of less than `2 ^ 27` bytes that is lowered, and options of a
build for an `x86_64` target.

**Results.**
* `exists_layout`: a function without reserved areas and with so few registers
  has a frame, even if every register is spilled.
* `exists_functionCode`: straight-line code on registers that are written has
  machine code.
* `convert_builds`: the module of the chunk is straight-line code, nothing is
  wrong with it, and every compiler lowers the chunk to it and makes an image of it.
-/

namespace StackNative

namespace Ir

theorem Instruction.Simple.computes
    {i : Instruction}
    (h : i.Simple) :
    i.op.computes = true := by
  cases h with
  | const hop _ =>
      rw [hop]
      rfl
  | binary hop _ =>
      rw [Op.computes, hop]
      rfl
  | unary hop _ =>
      rw [Op.computes, hop, Bool.or_true]
      rfl

theorem Instruction.Simple.uses_eq
    {i : Instruction}
    (h : i.Simple) :
    i.uses = i.args := by
  rw [Instruction.uses, if_neg (Op.ne_of_computes h.computes rfl)]

end Ir

namespace X64

open Ir (Register)
open Allocation (allocate Occurs)

section Frames

/-- A function without local variables and reserved areas has a frame for so many spill slots. -/
theorem exists_layout
    {f : Ir.Function} {n : Nat}
    (hareas : ∀ b ∈ f.blocks, ∀ i ∈ b.instructions, i.op ≠ .alloca)
    (hlocals : f.locals = #[])
    (hn : n ≤ 2 ^ 27) :
    ∃ frame, Frame.layout f n = .ok frame := by
  have hreservations := reservations_eq_nil hareas
  have hwords : reservedWords f = 0 := by
    rw [reservedWords, hreservations, hlocals]
    rfl
  refine exists_layout_of_frameBytes_lt (by simp [hreservations]) ?_
  rw [frameBytes, hwords]
  omega

end Frames

section Code

variable {g : Context} {i : Ir.Instruction}

theorem exists_load
    {r : Register} {place : Allocation.Place}
    (target : Reg)
    (h : g.allocation.place? r = some place) :
    ∃ is, g.load target r = .ok is := by
  unfold Context.load
  rw [h]
  cases place with
  | machine index => exact ⟨_, rfl⟩
  | slot number => exact ⟨_, rfl⟩

theorem exists_pairWork
    {op : Ir.Op}
    (h : op.isBinary = true) :
    ∃ work, Context.pairWork? op = some work := by
  cases op <;> first | exact ⟨_, rfl⟩ | cases h

theorem exists_singleWork
    {op : Ir.Op}
    (h : op.isUnary = true) :
    ∃ work, Context.pairWork? op = none ∧ Context.singleWork? op = some work := by
  cases op <;> first | exact ⟨_, rfl, rfl⟩ | cases h

/-- An operator is no access to memory: its result is the work on its operands. -/
theorem result_of_operator
    (h : (i.op.isBinary || i.op.isUnary) = true) :
    g.result i =
      match Context.pairWork? i.op, Context.singleWork? i.op with
      | some work, _ => do return (← g.loadPair i) ++ work
      | none, some work => do return (← g.loadFirst .rax i) ++ work
      | none, none => .error (.unsupportedInstruction i.text) := by
  unfold Context.result
  split
  · rename_i hop
    simp [hop, Ir.Op.isBinary, Ir.Op.isUnary] at h
  · rename_i hop
    simp [hop, Ir.Op.isBinary, Ir.Op.isUnary] at h
  · rename_i hop
    simp [hop, Ir.Op.isBinary, Ir.Op.isUnary] at h
  · rename_i hop
    simp [hop, Ir.Op.isBinary, Ir.Op.isUnary] at h
  · rfl

theorem exists_result
    (hi : i.Simple)
    (hplaces : ∀ r ∈ i.args, ∃ place, g.allocation.place? r = some place) :
    ∃ is, g.result i = .ok is := by
  cases hi with
  | const hop _ =>
      unfold Context.result
      rw [hop]
      exact ⟨_, rfl⟩
  | @binary left right hop hargs =>
      obtain ⟨work, hwork⟩ := exists_pairWork hop
      rw [hargs] at hplaces
      obtain ⟨place, hplace⟩ := hplaces left (by simp)
      obtain ⟨place', hplace'⟩ := hplaces right (by simp)
      obtain ⟨is, his⟩ := exists_load .rax hplace
      obtain ⟨js, hjs⟩ := exists_load .rcx hplace'
      have hpair : g.loadPair i = .ok (is ++ js) := by
        simp only [Context.loadPair, hargs, his, hjs]
        rfl
      rw [result_of_operator (by simp [hop])]
      simp only [hwork, hpair]
      exact ⟨_, rfl⟩
  | @unary operand hop hargs =>
      obtain ⟨work, hnone, hwork⟩ := exists_singleWork hop
      rw [hargs] at hplaces
      obtain ⟨place, hplace⟩ := hplaces operand (by simp)
      obtain ⟨is, his⟩ := exists_load .rax hplace
      have hfirst : g.loadFirst .rax i = .ok is := by
        simp only [Context.loadFirst, hargs, his]
      rw [result_of_operator (by simp [hop])]
      simp only [hnone, hwork, hfirst]
      exact ⟨_, rfl⟩

theorem exists_instruction
    {r : Register}
    (hi : i.Simple)
    (hdest : i.dest? = some r)
    (hplaces : ∀ r ∈ i.args, ∃ place, g.allocation.place? r = some place) :
    ∃ is, g.instruction i = .ok is := by
  obtain ⟨work, hwork⟩ := exists_result hi hplaces
  rw [instruction_of_computes hi.computes hdest, hwork]
  exact ⟨_, rfl⟩

theorem exists_block
    {b : Ir.Block} {r : Register}
    (hsimple : ∀ i ∈ b.instructions, i.Simple ∧ ∃ r, i.dest? = some r)
    (hargs : ∀ i ∈ b.instructions, ∀ r ∈ i.args, ∃ place, g.allocation.place? r = some place)
    (hterminator : b.terminator = .ret (some r))
    (hr : ∃ place, g.allocation.place? r = some place) :
    ∃ c, g.block b = .ok c := by
  have hbody : ∃ body, b.instructions.toList.mapM g.instruction = .ok body := by
    refine exists_mapM_eq_ok ?_
    intro i hi
    rw [Array.mem_toList_iff] at hi
    obtain ⟨hsimple, r, hdest⟩ := hsimple i hi
    exact exists_instruction hsimple hdest (hargs i hi)
  obtain ⟨body, hbody⟩ := hbody
  obtain ⟨place, hplace⟩ := hr
  obtain ⟨is, his⟩ := exists_load .rax hplace
  have hexit : g.terminator b.terminator = .ok (is ++ Context.epilogue) := by
    rw [hterminator, Context.terminator_ret, his]
    rfl
  rw [Context.block, hbody, hexit]
  exact ⟨_, rfl⟩

end Code

section Functions

variable {f : Ir.Function} {b : Ir.Block} {r : Register} {live : List Register}

theorem lt_of_occurs
    (hparams : f.params = [])
    (hblocks : f.blocks = #[b])
    (hchained : Ir.Chained b.instructions.toList live)
    (hterminator : b.terminator = .ret (some r))
    (hr : r.toNat < b.instructions.size)
    {s : Register}
    (hs : Occurs f s) :
    s.toNat < b.instructions.size := by
  rcases hs with ⟨p, hp, -⟩ | ⟨b', hb', ⟨i, hi, hs⟩ | hs⟩
  · rw [hparams] at hp
    cases hp
  · rw [hblocks, Array.mem_singleton] at hb'
    subst hb'
    rw [← Array.mem_toList_iff] at hi
    rw [(hchained.simple i hi).uses_eq] at hs
    rcases List.mem_append.mp hs with hs | hs
    · simpa using hchained.lt_of_mem_args (List.mem_flatMap.mpr ⟨i, hi, hs⟩)
    · simpa using hchained.lt_of_mem_dest hi (Option.mem_toList.mp hs)
  · rw [hblocks, Array.mem_singleton] at hb'
    subst hb'
    rw [hterminator] at hs
    cases List.mem_singleton.mp hs
    exact hr

/-- Straight-line code that returns a register it has written has machine code, whatever the
number of registers it needs at a time. -/
theorem exists_functionCode
    (os : Os)
    (index : Nat)
    (hparams : f.params = [])
    (hlocals : f.locals = #[])
    (hblocks : f.blocks = #[b])
    (hentry : b.id = f.entry)
    (hchained : Ir.Chained b.instructions.toList live)
    (hsize : b.instructions.size ≤ 2 ^ 27)
    (hterminator : b.terminator = .ret (some r))
    (hr : r.toNat < b.instructions.size) :
    ∃ c, functionCode os index f = .ok c := by
  have hoccurs : ∀ s, Occurs f s → s.toNat < b.instructions.size :=
    fun s hs => lt_of_occurs hparams hblocks hchained hterminator hr hs
  have hsimple : ∀ i ∈ b.instructions, i.Simple :=
    fun i hi => hchained.simple i (Array.mem_toList_iff.mpr hi)
  have hframe : ∃ frame, Frame.layout f (allocate valueRegs.length f).spillCount = .ok frame := by
    refine exists_layout ?_ hlocals ?_
    · intro b' hb' i hi
      rw [hblocks, Array.mem_singleton] at hb'
      subst hb'
      exact Ir.Op.ne_of_computes (hsimple i hi).computes rfl
    · exact (Allocation.spillCount_le_of_occurs valueRegs.length hoccurs).trans hsize
  obtain ⟨frame, hframe⟩ := hframe
  have hcode : ∃ c, Context.block ⟨index, f, allocate valueRegs.length f, frame⟩ b = .ok c := by
    have hmem : b ∈ f.blocks := by simp [hblocks]
    refine exists_block ?_ ?_ hterminator ?_
    · intro i hi
      exact ⟨hsimple i hi, hchained.exists_dest (Array.mem_toList_iff.mpr hi)⟩
    · intro i hi s hs
      refine Allocation.exists_place _ (Or.inr ⟨b, hmem, Or.inl ⟨i, hi, ?_⟩⟩)
      rw [(hsimple i hi).uses_eq]
      exact List.mem_append_left _ hs
    · refine Allocation.exists_place _ (Or.inr ⟨b, hmem, Or.inr ?_⟩)
      simp [hterminator, Ir.Terminator.uses]
  obtain ⟨c, hc⟩ := hcode
  have hfound : f.entryBlock? = some b := by
    simp [Ir.Function.entryBlock?, Ir.Function.block?, hblocks, hentry]
  unfold functionCode
  rw [if_neg (by simp [hparams]), if_neg (by simp [hfound])]
  simp only [hframe, hblocks, List.mapM_cons, List.mapM_nil, hc]
  exact ⟨_, rfl⟩

end Functions

end X64

namespace Lowering

open Bytecode (Chunk)
open Ir (Register)

variable {name : Text} {c : Chunk} {m : Ir.Module}

theorem exists_machineCode_lowered
    {s : State} {live : List Register} {r : Register}
    (os : Os)
    (name : Text)
    (h : Ir.Chained s.instructions.toList live)
    (hsize : s.instructions.size ≤ 2 ^ 27)
    (hterminator : s.terminator = some (.ret (some r)))
    (hr : r.toNat < s.instructions.size) :
    ∃ bytes, X64.machineCode os (lowered name s) = .ok bytes := by
  have hexit : s.terminator.getD .unreachable = .ret (some r) := by
    rw [hterminator, Option.getD_some]
  obtain ⟨code, hcode⟩ := X64.exists_functionCode (f := loweredFunction s) os 0 rfl rfl rfl rfl h
    hsize hexit hr
  have hprogram : ∃ program, X64.moduleCode os (lowered name s) = .ok program := by
    have hmain : (loweredFunction s).name = X64.mainName := rfl
    have hinternal : (loweredFunction s).external = false := rfl
    simp [X64.moduleCode, lowered, Ir.Module.function?, hmain, hinternal, hcode]
  obtain ⟨program, hprogram⟩ := hprogram
  exact X64.machineCode_of_moduleCode hprogram

theorem ofOptions_eq
    {o : Build.Options}
    (hproblems : o.problems = [])
    (harch : o.target.arch = .x86_64) :
    Build.Compiler.ofOptions o = .ok ⟨o, ⟨o.target.os⟩, Image.Format.ofTarget o.target⟩ := by
  simp [Build.Compiler.ofOptions, Build.Backend.ofTarget, hproblems, harch]

/-- Whatever is lowered is straight-line code that nothing is wrong with, and every compiler for
the architecture takes it to an image. -/
theorem convert_builds
    (hlength : c.length < 2 ^ 27)
    (h : convert name c = .ok m) :
    ∃ f b is last, m.functions = #[f] ∧ f.name = "main" ∧ f.blocks = #[b] ∧
      Ir.SingleUse b.instructions.toList ∧
      m.nextRegister.toNat = b.instructions.size ∧
      c.instructions = .ok is ∧
      b.instructions.toList.map (fun i => (i.op, i.line)) = emissions c is ++ [(.loadConst, 0)] ∧
      b.instructions.back? = some (.loadConst last (.int 0)) ∧
      b.terminator = .ret (some last) ∧
      b.terminated = true ∧
      m.validate = [] ∧
      ∀ o : Build.Options, o.problems = [] → o.target.arch = .x86_64 →
        ∃ k, Build.Compiler.ofOptions o = .ok k ∧ (k.lower name c).result = .ok m ∧
          ∃ image, (k.emit m).result = .ok image := by
  have hconvert := h
  obtain ⟨is, s, his, hlines, hcount, hfold, rfl⟩ := convert_eq_lowered h
  obtain ⟨⟨live, hstraight⟩, hsize, hemitted⟩ :=
    straight_begin.foldlM is (by simp [begin]; omega) hlines hfold
  simp only [begin, List.size_toArray, List.length_nil, Nat.zero_add, List.map_nil,
    List.nil_append] at hsize hemitted
  obtain ⟨hchained, hnext⟩ := hstraight.finish (by omega)
  have hfinish : s.finish.instructions = s.instructions.push (.loadConst s.next (.int 0)) := rfl
  have hfinal : s.finish.instructions.size = s.instructions.size + 1 := by
    rw [hfinish, Array.size_push]
  have hlast : s.next.toNat < s.finish.instructions.size := by
    rw [hfinal, hstraight.next]
    exact Nat.lt_succ_self _
  have hvalid := lowered_validate name hchained (by omega) rfl
  refine ⟨_, _, is, s.next, rfl, rfl, rfl, hchained.singleUse, hnext, his, ?_, ?_, rfl, rfl, hvalid,
    ?_⟩
  · rw [hfinish, Array.toList_push, List.map_append, hemitted]
    rfl
  · rw [hfinish, Array.back?_push]
  · intro o hproblems harch
    refine ⟨_, ofOptions_eq hproblems harch, ?_, ?_⟩
    · simp [Build.Compiler.lower, hconvert, hvalid]
    · obtain ⟨bytes, hbytes⟩ := exists_machineCode_lowered o.target.os name hchained (by omega) rfl
        hlast
      simp [Build.Compiler.emit, hbytes]

/-- Code that builds although more values are live at a time than there are machine registers. -/
def deepSum : Chunk :=
  ⟨some #[6, 6, 6, 6, 6, 6, 6, 14, 14, 14, 14, 14, 14, 41], none, #[]⟩

theorem deepSum_builds :
    ∃ m, convert [] deepSum = .ok m ∧ m.validate = [] ∧
      ∃ k, Build.Compiler.ofOptions (.default ⟨.x86_64, .windows⟩) = .ok k ∧
        (k.lower [] deepSum).result = .ok m ∧ ∃ image, (k.emit m).result = .ok image := by
  have hrun : (run deepSum 0 begin).2 = none := by
    conv => lhs; arg 1; cbv
  obtain ⟨m, hm⟩ := convert_of_run_ok [] hrun
  obtain ⟨-, -, -, -, -, -, -, -, -, -, -, -, -, -, hvalid, hbuilds⟩ := convert_builds (by decide) hm
  exact
    ⟨m, hm, hvalid, hbuilds (.default ⟨.x86_64, .windows⟩) (by decide) rfl⟩

end Lowering
end StackNative
