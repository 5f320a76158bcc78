import StackNative.Proofs.Allocation.Places
import StackNative.Proofs.X64.Binding

/-!
# Modules with machine code

**Input.**  A module and an operating system.

**Algorithm.**  The code of an instruction asks for operands, for local variables and
for places of the registers it reads.  Every register that is read has a place,
whether or not something writes it, so the last question is never answered with no.

**Results.**
* `machineCode_ok_iff_compilable`: a module has machine code exactly when it is
  compilable, which says nothing about what its registers hold; and no error is about
  a register.
* `hollow_has_machineCode`: a function may return a register that nothing writes.
-/

namespace StackNative

open Ir (Register Module)

section Decisions

variable {ε α β : Type} {p q : Prop} {allowed : ε → Prop} {x : Except ε α}

/-- A computation succeeds exactly when a condition holds, and fails only with certain errors. -/
inductive Decides (p : Prop) (allowed : ε → Prop) : Except ε α → Prop where
  | ok (a : α) : p → Decides p allowed (.ok a)
  | error (e : ε) : ¬ p → allowed e → Decides p allowed (.error e)

/-- What decides a property succeeds exactly if it holds. -/
theorem Decides.exists_ok_iff
    (h : Decides p allowed x) :
    (∃ a, x = .ok a) ↔ p := by
  cases h with
  | ok a hp =>
      exact ⟨fun _ => hp, fun _ => ⟨a, rfl⟩⟩
  | error e hp _ =>
      exact ⟨nofun, fun h => absurd h hp⟩

/-- What decides a property and fails has refuted it, with an error that is allowed. -/
theorem Decides.of_error
    (h : Decides p allowed x)
    {e : ε}
    (he : x = .error e) :
    ¬ p ∧ allowed e := by
  cases h with
  | ok a _ =>
      cases he
  | error e' hp hallowed =>
      cases he
      exact ⟨hp, hallowed⟩

/-- What decides a property decides every equivalent one. -/
theorem Decides.congr
    (h : Decides p allowed x)
    (hpq : p ↔ q) :
    Decides q allowed x := by
  cases h with
  | ok a hp =>
      exact .ok a (hpq.mp hp)
  | error e hp he =>
      exact .error e (fun hq => hp (hpq.mpr hq)) he

/-- Two steps one after the other decide both of their properties. -/
theorem Decides.bind
    {f : α → Except ε β}
    (hx : Decides p allowed x)
    (hf : ∀ a, Decides q allowed (f a)) :
    Decides (p ∧ q) allowed (x >>= f) := by
  cases hx with
  | ok a hp =>
      exact (hf a).congr ⟨fun hq => ⟨hp, hq⟩, And.right⟩
  | error e hp he =>
      exact .error e (fun h => hp h.1) he

/-- What is made of a result does not matter. -/
theorem Decides.map
    (h : Decides p allowed x)
    (f : α → β) :
    Decides p allowed (x >>= fun a => pure (f a)) :=
  (h.bind fun a => Decides.ok (f a) trivial).congr (by simp)

/-- A guard decides that its condition does not hold. -/
theorem Decides.guard
    {c : Prop}
    [Decidable c]
    {e : ε}
    (he : allowed e)
    (hx : Decides p allowed x) :
    Decides (¬ c ∧ p) allowed (if c then .error e else x) := by
  by_cases hc : c
  · rw [if_pos hc]
    exact .error e (fun h => h.1 hc) he
  · rw [if_neg hc]
    exact hx.congr ⟨fun hp => ⟨hc, hp⟩, And.right⟩

/-- Steps over a list decide the property of every element. -/
theorem Decides.mapM
    {f : α → Except ε β}
    {p : α → Prop}
    {as : List α}
    (h : ∀ a ∈ as, Decides (p a) allowed (f a)) :
    Decides (∀ a ∈ as, p a) allowed (as.mapM f) := by
  induction as with
  | nil =>
      exact .ok [] nofun
  | cons a as ih =>
      obtain ⟨ha, has⟩ := List.forall_mem_cons.mp h
      rw [List.mapM_cons]
      refine (ha.bind fun b => (ih has).map (b :: ·)).congr ?_
      rw [List.forall_mem_cons]

end Decisions

namespace X64

open Allocation (Occurs allocate)

section Requirements

variable (f : Ir.Function)

/-- A function has a local variable. -/
def HasLocal (slot : Int) : Prop := 0 ≤ slot ∧ slot < f.locals.size

/-- What the code of an instruction asks for: a local variable, and so many operands. -/
def Translatable (i : Ir.Instruction) : Prop :=
  match i.op with
  | .nop | .debugLine | .loadConst | .alloca => True
  | .loadLocal => HasLocal f i.slot
  | .storeLocal => HasLocal f i.slot ∧ i.args ≠ []
  | .load => i.args ≠ []
  | .store => i.args.length = 2
  | op =>
    op.isBinary = true ∧ i.args.length = 2 ∨ (op.isUnary = true ∨ op = .move) ∧ i.args ≠ []

/-- What the code of a terminator asks for. -/
def Leaves : Ir.Terminator → Prop
  | .ret _ | .unreachable => True
  | .jump target => (f.block? target).isSome = true
  | .branch _ onTrue onFalse =>
    (f.block? onTrue).isSome = true ∧ (f.block? onFalse).isSome = true
  | .throw .. | .unknown _ => False

/-- A function with machine code. -/
structure CompilableFunction (os : Os) : Prop where
  params : f.params.length ≤ (argumentRegs os).length
  entry : f.entryBlock?.isSome = true
  frame : ∃ frame, Frame.layout f (allocate valueRegs.length f).spillCount = .ok frame
  instructions : ∀ b ∈ f.blocks, ∀ i ∈ b.instructions, Translatable f i
  exits : ∀ b ∈ f.blocks, Leaves f b.terminator

/-- A module with machine code. -/
structure Compilable (os : Os) (m : Module) : Prop where
  main : ∃ main, m.function? mainName = some main ∧ main.external = false
  globals : m.globals = #[]
  functions : ∀ f ∈ m.functions, f.external = false → CompilableFunction f os

end Requirements

/-- A fault that is not about a register. -/
def CodegenFault.Grounded (fault : CodegenFault) : Prop := ∀ r, fault ≠ .undefinedRegister r

/-- An error that is not about a register. -/
def CodegenError.Grounded (e : CodegenError) : Prop := e.fault.Grounded

section Values

variable {g : Context} {i : Ir.Instruction}

/-- A value that has a place can be brought into a machine register. -/
theorem decides_load
    {r : Register}
    (h : ∃ place, g.allocation.place? r = some place)
    (target : Reg) :
    Decides True CodegenFault.Grounded (g.load target r) := by
  obtain ⟨place, hplace⟩ := h
  rw [Context.load, hplace]
  cases place with
  | machine index =>
      exact .ok _ trivial
  | slot number =>
      exact .ok _ trivial

/-- Two operands can be brought into machine registers exactly if there are two. -/
theorem decides_loadPair
    (h : ∀ r ∈ i.args, ∃ place, g.allocation.place? r = some place) :
    Decides (i.args.length = 2) CodegenFault.Grounded (g.loadPair i) := by
  rw [Context.loadPair]
  split
  · rename_i left right hargs
    rw [hargs] at h
    have hleft := decides_load (h left (by simp)) .rax
    have hright := decides_load (h right (by simp)) .rcx
    exact (hleft.bind fun _ => hright.map _).congr (by simp [hargs])
  · rename_i hargs
    refine .error _ ?_ nofun
    intro hlength
    obtain ⟨left, right, hpair⟩ := List.length_eq_two.mp hlength
    exact hargs left right hpair

/-- The first operand can be brought into a machine register exactly if there is one. -/
theorem decides_loadFirst
    (h : ∀ r ∈ i.args, ∃ place, g.allocation.place? r = some place)
    (target : Reg) :
    Decides (i.args ≠ []) CodegenFault.Grounded (g.loadFirst target i) := by
  rw [Context.loadFirst]
  split
  · rename_i hargs
    exact .error _ (fun hne => hne hargs) nofun
  · rename_i r rest hargs
    exact (decides_load (h r (by simp [hargs])) target).congr (by simp [hargs])

/-- A local variable has an offset exactly if the function has it. -/
theorem decides_localOffset
    (slot : Int) :
    Decides (HasLocal g.function slot) CodegenFault.Grounded (g.localOffset slot) := by
  rw [Context.localOffset]
  split
  · exact .error _ (fun h => by have := h.1; omega) nofun
  · rename_i hslot
    split
    · rename_i l hl
      obtain ⟨hlt, -⟩ := Array.getElem?_eq_some_iff.mp hl
      exact .ok _ ⟨by omega, by omega⟩
    · rename_i hl
      rw [Array.getElem?_eq_none_iff] at hl
      exact .error _ (fun h => by have := h.2; omega) nofun

end Values

section Instructions

variable {g : Context} {i : Ir.Instruction}

/-- The operations with two operands are those with work on two machine registers. -/
theorem isSome_pairWork
    (op : Ir.Op) :
    (Context.pairWork? op).isSome = op.isBinary := by
  cases op <;> rfl

/-- The operations with one operand, and moving, are those with work on one machine register. -/
theorem isSome_singleWork
    (op : Ir.Op) :
    (Context.singleWork? op).isSome = (op.isUnary || op = .move) := by
  cases op <;> rfl

/-- An operator can be translated exactly if it has its operands. -/
theorem translatable_iff_of_operator
    {f : Ir.Function}
    (h : i.op ≠ .nop ∧ i.op ≠ .debugLine ∧ i.op ≠ .loadConst ∧ i.op ≠ .alloca ∧
      i.op ≠ .loadLocal ∧ i.op ≠ .storeLocal ∧ i.op ≠ .load ∧ i.op ≠ .store) :
    Translatable f i ↔
      i.op.isBinary = true ∧ i.args.length = 2 ∨
        (i.op.isUnary = true ∨ i.op = .move) ∧ i.args ≠ [] := by
  unfold Translatable
  split <;> simp_all

/-- The work of an operator is found exactly if it has its operands. -/
theorem decides_operator
    (h : ∀ r ∈ i.args, ∃ place, g.allocation.place? r = some place) :
    Decides (i.op.isBinary = true ∧ i.args.length = 2 ∨
        (i.op.isUnary = true ∨ i.op = .move) ∧ i.args ≠ []) CodegenFault.Grounded
      (match Context.pairWork? i.op, Context.singleWork? i.op with
        | some work, _ => do return (← g.loadPair i) ++ work
        | none, some work => do return (← g.loadFirst .rax i) ++ work
        | none, none => .error (.unsupportedInstruction i.text)) := by
  have hpair := isSome_pairWork i.op
  have hsingle := isSome_singleWork i.op
  have hsorts : i.op.isBinary = true → i.op.isUnary = false ∧ i.op ≠ .move := by
    cases i.op <;> simp [Ir.Op.isBinary, Ir.Op.isUnary]
  split
  · rename_i work hwork
    rw [hwork, Option.isSome_some] at hpair
    obtain ⟨hunary, hmove⟩ := hsorts hpair.symm
    exact ((decides_loadPair h).map (· ++ work)).congr (by simp [← hpair, hunary, hmove])
  · rename_i work hnone hwork
    rw [hnone, Option.isSome_none] at hpair
    rw [hwork, Option.isSome_some] at hsingle
    exact ((decides_loadFirst h .rax).map (· ++ work)).congr (by simp_all)
  · rename_i hnone hnone'
    rw [hnone, Option.isSome_none] at hpair
    rw [hnone', Option.isSome_none] at hsingle
    exact .error _ (by simp_all) nofun

/-- An instruction has a result exactly if it can be translated. -/
theorem decides_result
    (hop : i.op ≠ .nop ∧ i.op ≠ .debugLine ∧ i.op ≠ .storeLocal ∧ i.op ≠ .store)
    (h : ∀ r ∈ i.args, ∃ place, g.allocation.place? r = some place) :
    Decides (Translatable g.function i) CodegenFault.Grounded (g.result i) := by
  unfold Context.result
  split
  · rename_i hconst
    exact .ok _ (by simp [Translatable, hconst])
  · rename_i hlocal
    exact ((decides_localOffset i.slot).map _).congr (by simp [Translatable, hlocal])
  · rename_i halloca
    exact .ok _ (by simp [Translatable, halloca])
  · rename_i hload
    exact ((decides_loadFirst h .rcx).map _).congr (by simp [Translatable, hload])
  · rename_i hconst hlocal halloca hload
    obtain ⟨hnop, hline, hstoreLocal, hstore⟩ := hop
    refine (decides_operator h).congr (translatable_iff_of_operator ?_).symm
    exact ⟨hnop, hline, hconst, halloca, hlocal, hstoreLocal, hload, hstore⟩

/-- An instruction whose operands have places has code exactly if it can be translated. -/
theorem decides_instruction_of_args
    (h : ∀ r ∈ i.args, ∃ place, g.allocation.place? r = some place) :
    Decides (Translatable g.function i) CodegenFault.Grounded (g.instruction i) := by
  unfold Context.instruction
  split
  · rename_i hnop
    exact .ok _ (by simp [Translatable, hnop])
  · rename_i hline
    exact .ok _ (by simp [Translatable, hline])
  · rename_i hstoreLocal
    refine ((decides_localOffset i.slot).bind fun offset =>
      (decides_loadFirst h .rax).map _).congr ?_
    simp [Translatable, hstoreLocal]
  · rename_i hstore
    split
    · rename_i pointer value hargs
      rw [hargs] at h
      have hpointer := decides_load (h pointer (by simp)) .rcx
      have hvalue := decides_load (h value (by simp)) .rax
      exact (hpointer.bind fun _ => hvalue.map _).congr (by simp [Translatable, hstore, hargs])
    · rename_i hargs
      refine .error _ ?_ nofun
      simp only [Translatable, hstore]
      intro hlength
      obtain ⟨pointer, value, hpair⟩ := List.length_eq_two.mp hlength
      exact hargs pointer value hpair
  · rename_i hnop hline hstoreLocal hstore
    exact (decides_result ⟨hnop, hline, hstoreLocal, hstore⟩ h).map _

/-- What chooses between values never has code. -/
theorem decides_phi
    (g : Context)
    (h : i.op = .phi) :
    Decides (Translatable g.function i) CodegenFault.Grounded (g.instruction i) := by
  have hcode : g.instruction i = .error (.unsupportedInstruction i.text) := by
    simp only [Context.instruction, Context.result, h]
    rfl
  rw [hcode]
  exact .error _ (by simp [Translatable, h, Ir.Op.isBinary, Ir.Op.isUnary]) nofun

/-- Where the registers that an instruction reads have places, only its shape counts. -/
theorem decides_instruction
    (h : ∀ r ∈ i.uses, ∃ place, g.allocation.place? r = some place) :
    Decides (Translatable g.function i) CodegenFault.Grounded (g.instruction i) := by
  by_cases hphi : i.op = .phi
  · exact decides_phi g hphi
  · rw [Ir.Instruction.uses, if_neg hphi] at h
    exact decides_instruction_of_args h

end Instructions

section Functions

variable {g : Context} {b : Ir.Block} {os : Os}

/-- A terminator has code exactly if it leads to blocks of its function. -/
theorem decides_terminator
    {t : Ir.Terminator}
    (h : ∀ r ∈ t.uses, ∃ place, g.allocation.place? r = some place) :
    Decides (Leaves g.function t) CodegenFault.Grounded (g.terminator t) := by
  cases t with
  | unreachable =>
      exact .ok _ trivial
  | jump target =>
      rw [Context.terminator_jump]
      refine (Decides.guard nofun (.ok _ trivial)).congr ?_
      simp [Leaves, Option.isSome_iff_ne_none]
  | branch condition onTrue onFalse =>
      rw [Context.terminator_branch]
      have hload := decides_load (h condition (by simp [Ir.Terminator.uses])) .rax
      refine (Decides.guard nofun (Decides.guard nofun (hload.map _))).congr ?_
      simp [Leaves, Option.isSome_iff_ne_none]
  | ret value =>
      cases value with
      | none =>
          exact .ok _ trivial
      | some r =>
          rw [Context.terminator_ret]
          exact (decides_load (h r (by simp [Ir.Terminator.uses])) .rax).map _
  | throw value =>
      exact .error _ id nofun
  | unknown code =>
      exact .error _ id nofun

/-- A block has code exactly if its instructions and its terminator have. -/
theorem decides_block
    (hallocation : g.allocation = allocate valueRegs.length g.function)
    (hb : b ∈ g.function.blocks) :
    Decides ((∀ i ∈ b.instructions, Translatable g.function i) ∧ Leaves g.function b.terminator)
      CodegenFault.Grounded (g.block b) := by
  have hplaces : ∀ r, Occurs g.function r → ∃ place, g.allocation.place? r = some place := by
    intro r hr
    rw [hallocation]
    exact Allocation.exists_place valueRegs.length hr
  have hbody : Decides (∀ i ∈ b.instructions.toList, Translatable g.function i)
      CodegenFault.Grounded (b.instructions.toList.mapM g.instruction) := by
    refine Decides.mapM fun i hi => decides_instruction fun r hr => hplaces r (Or.inr ?_)
    exact ⟨b, hb, Or.inl ⟨i, Array.mem_toList_iff.mp hi, List.mem_append_left _ hr⟩⟩
  have hexit : Decides (Leaves g.function b.terminator) CodegenFault.Grounded
      (g.terminator b.terminator) :=
    decides_terminator fun r hr => hplaces r (Or.inr ⟨b, hb, Or.inr hr⟩)
  refine (hbody.bind fun body => hexit.map _).congr ?_
  simp only [Array.mem_toList_iff]

/-- The places that faults were met in do not matter. -/
theorem decides_blocks
    (hallocation : g.allocation = allocate valueRegs.length g.function) :
    Decides (∀ b ∈ g.function.blocks,
        (∀ i ∈ b.instructions, Translatable g.function i) ∧ Leaves g.function b.terminator)
      CodegenError.Grounded
      (g.function.blocks.toList.mapM fun b =>
        match g.block b with
        | .ok c => .ok c
        | .error fault => .error ⟨g.function.name, b.id, fault⟩) := by
  refine (Decides.mapM (p := fun b =>
    (∀ i ∈ b.instructions, Translatable g.function i) ∧ Leaves g.function b.terminator)
    fun b hb => ?_).congr ?_
  · have hblock := decides_block hallocation (Array.mem_toList_iff.mp hb)
    cases hcode : g.block b with
    | ok c =>
        exact .ok c (hblock.exists_ok_iff.mp ⟨c, hcode⟩)
    | error fault =>
        obtain ⟨hfails, hfault⟩ := hblock.of_error hcode
        exact .error _ hfails hfault
  · simp only [Array.mem_toList_iff]

/-- A function has code when it is compilable. -/
theorem decides_functionCode
    (os : Os)
    (index : Nat)
    (f : Ir.Function) :
    Decides (CompilableFunction f os) CodegenError.Grounded (functionCode os index f) := by
  have hnoFrame : ∀ {e : FrameError},
      Frame.layout f (allocate valueRegs.length f).spillCount = .error e →
        ¬ CompilableFunction f os := by
    intro e he h
    obtain ⟨frame, hframe⟩ := h.frame
    rw [he] at hframe
    cases hframe
  unfold functionCode
  dsimp only
  split
  · rename_i hparams
    exact .error _ (fun h => Nat.not_le_of_lt hparams h.params) nofun
  · rename_i hparams
    split
    · rename_i hentry
      rw [← Option.not_isSome] at hentry
      exact .error _ (fun h => by simp [h.entry] at hentry) nofun
    · rename_i hentry
      split
      · rename_i hframe
        exact .error _ (hnoFrame hframe) nofun
      · rename_i hframe
        exact .error _ (hnoFrame hframe) nofun
      · rename_i frame hframe
        have hblocks := decides_blocks (g := ⟨index, f, allocate valueRegs.length f, frame⟩) rfl
        refine (hblocks.map _).congr ⟨?_, ?_⟩
        · intro h
          exact ⟨Nat.le_of_not_lt hparams, by simpa [Option.isSome_iff_ne_none] using hentry,
            ⟨frame, hframe⟩, fun b hb => (h b hb).1, fun b hb => (h b hb).2⟩
        · intro h b hb
          exact ⟨h.instructions b hb, h.exits b hb⟩

end Functions

section Modules

variable {os : Os} {m : Module}

/-- A module has a program exactly if it can be compiled, and every error says what is wrong. -/
theorem decides_moduleCode
    (os : Os)
    (m : Module) :
    Decides (Compilable os m) CodegenError.Grounded (moduleCode os m) := by
  unfold moduleCode
  dsimp only
  split
  · rename_i hmain
    refine .error _ (fun h => ?_) nofun
    obtain ⟨main, hfound, -⟩ := h.main
    rw [hmain] at hfound
    cases hfound
  · rename_i main hmain
    split
    · rename_i hexternal
      refine .error _ (fun h => ?_) nofun
      obtain ⟨main', hfound, hinternal⟩ := h.main
      rw [hmain] at hfound
      cases hfound
      rw [hexternal] at hinternal
      cases hinternal
    · rename_i hexternal
      split
      · rename_i x hglobal
        refine .error _ (fun h => ?_) nofun
        rw [h.globals] at hglobal
        simp at hglobal
      · rename_i hglobal
        have hcodes : ∀ p ∈ (m.functions.toList.filter fun f => !f.external).zipIdx,
            Decides (CompilableFunction p.1 os) CodegenError.Grounded (labelled os p) :=
          fun p _ => (decides_functionCode os p.2 p.1).map _
        refine ((Decides.mapM hcodes).map _).congr ⟨?_, ?_⟩
        · intro h
          refine ⟨⟨main, hmain, by simpa using hexternal⟩, ?_, ?_⟩
          · exact Array.size_eq_zero_iff.mp
              (Nat.eq_zero_of_le_zero (Array.getElem?_eq_none_iff.mp hglobal))
          · intro f hf hinternal
            have hmem : f ∈ m.functions.toList.filter fun f => !f.external :=
              List.mem_filter.mpr ⟨Array.mem_toList_iff.mpr hf, by simp [hinternal]⟩
            obtain ⟨index, hindex⟩ := List.mem_iff_getElem?.mp hmem
            exact h (f, index) (List.mk_mem_zipIdx_iff_getElem?.mpr hindex)
        · intro h p hp
          obtain ⟨hf, hinternal⟩ := List.mem_filter.mp (List.fst_mem_of_mem_zipIdx hp)
          exact h.functions p.1 (Array.mem_toList_iff.mp hf) (by simpa using hinternal)

/-- A program always has machine code: its labels are bound. -/
theorem exists_machineCode_iff
    (os : Os)
    (m : Module) :
    (∃ bytes, machineCode os m = .ok bytes) ↔ ∃ program, moduleCode os m = .ok program := by
  constructor
  · rintro ⟨bytes, hbytes⟩
    cases hprogram : moduleCode os m with
    | ok program =>
        exact ⟨program, rfl⟩
    | error e =>
        rw [machineCode, hprogram] at hbytes
        cases hbytes
  · rintro ⟨program, hprogram⟩
    exact machineCode_of_moduleCode hprogram

/-- What can be compiled has machine code. -/
theorem Compilable.exists_machineCode
    (h : Compilable os m) :
    ∃ bytes, machineCode os m = .ok bytes :=
  (exists_machineCode_iff os m).mpr ((decides_moduleCode os m).exists_ok_iff.mpr h)

/-- A module has machine code exactly when it is compilable, whatever its registers hold, and no
error is about a register. -/
theorem machineCode_ok_iff_compilable
    (os : Os)
    (m : Module) :
    ((∃ bytes, machineCode os m = .ok bytes) ↔ Compilable os m) ∧
      ∀ e, machineCode os m = .error e → ∃ c, e = .codegen c ∧ c.Grounded := by
  have hcode := decides_moduleCode os m
  refine ⟨(exists_machineCode_iff os m).trans hcode.exists_ok_iff, ?_⟩
  intro e he
  cases hprogram : moduleCode os m with
  | ok program =>
      obtain ⟨bytes, hbytes⟩ := machineCode_of_moduleCode hprogram
      rw [hbytes] at he
      cases he
  | error c =>
      rw [machineCode, hprogram] at he
      cases he
      exact ⟨c, rfl, (hcode.of_error hprogram).2⟩

/-- A register is read, although it is no parameter and nothing writes it. -/
def Undefined (f : Ir.Function) (r : Register) : Prop :=
  (∃ b ∈ f.blocks, (∃ i ∈ b.instructions, r ∈ i.args) ∨ r ∈ b.terminator.uses) ∧
    (∀ p ∈ f.params, p.register ≠ r) ∧ ∀ b ∈ f.blocks, ∀ i ∈ b.instructions, i.dest? ≠ some r

/-- Returns a register that nothing writes. -/
def hollow : Ir.Function :=
  { name := "main", returnType := .i64, blocks := #[⟨0, #[], .ret (some 0), true⟩] }

/-- A function that returns a register which nothing writes has machine code. -/
theorem hollow_has_machineCode :
    Undefined hollow 0 ∧
      ∃ bytes, machineCode .linux { name := "m", functions := #[hollow] } = .ok bytes := by
  have hspills : (allocate valueRegs.length hollow).spillCount ≤ 1 := by
    refine Allocation.spillCount_le_of_occurs valueRegs.length fun r hr => ?_
    simp [Occurs, hollow, Ir.Terminator.uses] at hr
    rw [hr]
    decide
  have hframe : frameBytes hollow (allocate valueRegs.length hollow).spillCount < 2 ^ 31 := by
    rw [frameBytes, show reservedWords hollow = 0 by decide]
    omega
  have hcompilable : CompilableFunction hollow .linux :=
    ⟨by decide, by decide, exists_layout_of_frameBytes_lt (by decide) hframe,
      by simp [hollow], by simp [hollow, Leaves]⟩
  refine ⟨by simp [Undefined, hollow, Ir.Terminator.uses], ?_⟩
  refine Compilable.exists_machineCode ⟨⟨hollow, rfl, rfl⟩, rfl, ?_⟩
  intro f hf _
  rw [List.mem_toArray, List.mem_singleton] at hf
  rwa [hf]

end Modules

end X64
end StackNative
