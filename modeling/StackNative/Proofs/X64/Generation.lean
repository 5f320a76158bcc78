import StackNative.Proofs.X64.Emission

/-!
# Every module has machine code or is refused

**Input.**  A module, valid or not, and an operating system.

**Algorithm.**  The generator is followed from the start.  A function finds the table of its
blocks filled with labels that were not given before, and the program that the emitter holds
goes on under numbers for more labels.  At the end the strings are placed, and every label that
the program names is bound.

**Results.**
* `realizes_function`, `realizes_module`: the generator makes the program of a function and of a
  module, or stops with its fault.
* `compiles_or_refuses`: a module has machine code, the same from the generator, or both refuse
  it with the same fault; no label is left unbound and no index is out of range.
-/

namespace StackNative
namespace X64

open Ir (BlockId Module)

section Functions

open Generation

variable {fixed : Label → Option Int} {c : Code} {e : Emitter} {os : Os}

/-- A function is given tables that say what places its registers have. -/
theorem exists_tables (f : Ir.Function) :
    ∃ t, Generation.allocation f = pure t ∧
      Tabulates (Allocation.allocate valueRegs.length f) t := by
  have hrecords := (Allocation.represents_allocate { count := valueRegs.length } f).records
  obtain ⟨now, hsettled⟩ := Allocation.allocate_settled valueRegs.length f
  refine ⟨(Allocation.Allocator.allocate { count := valueRegs.length } f).tables, ?_,
    hrecords.registers, hrecords.slots, hrecords.spillCount, hsettled.bounded.index_lt⟩
  rw [Generation.allocation, Allocation.guarded_eq]

/-- The numbers of labels, with those of the blocks of a function. -/
def withBlocks (fixed : Label → Option Int) (index : Nat) (t : Std.HashMap BlockId Int) :
    Label → Option Int
  | .block k id => if k = index then t[id]? else fixed (.block k id)
  | l => fixed l

theorem withBlocks_block (fixed : Label → Option Int) (index : Nat) (t : Std.HashMap BlockId Int)
    (id : BlockId) :
    withBlocks fixed index t (.block index id) = t[id]? :=
  if_pos rfl

theorem Follows.blocks
    {index : Nat} {t : Std.HashMap BlockId Int} {next : Int} {ids : List BlockId}
    (h : Follows fixed c e)
    (hfree : ∀ id, fixed (.block index id) = none)
    (hle : e.assembler.nextLabel ≤ next)
    (ht : Fresh e.assembler.nextLabel next ids t) :
    Follows (withBlocks fixed index t) c (e.counted next) := by
  refine h.extend (Label.block index) hle ht ?_ ?_
  · intro l n hl
    cases l with
    | block k id =>
        rw [withBlocks, if_neg, hl]
        rintro rfl
        rw [hfree] at hl
        cases hl
    | _ =>
        exact hl
  · intro l n hl
    cases l with
    | block k id =>
        rw [withBlocks] at hl
        split at hl
        · next hk =>
            subst hk
            exact Or.inr ⟨id, rfl, hl⟩
        · exact Or.inl hl
    | _ =>
        exact Or.inl hl

theorem isNone_block?
    {f : Ir.Function} {t : Std.HashMap BlockId Int} {first next : Int}
    (ht : Fresh first next (f.blocks.toList.map Ir.Block.id) t)
    (id : BlockId) :
    (f.block? id).isNone = t[id]?.isNone := by
  have hiff : (f.block? id).isSome = true ↔ t[id]?.isSome = true := by
    rw [ht.isSome, Ir.Function.block?, Array.find?_isSome]
    simp
  rw [← Option.not_isSome, ← Option.not_isSome, Bool.eq_iff_iff.mpr hiff]

theorem realizes_body
    {g : Context} {k : Generator}
    (hk : Mirrors fixed g k)
    (hroom : g.function.params.length ≤ (argumentRegs os).length)
    (hentry : g.function.entryBlock?.isSome = true)
    (h : Follows fixed c e) :
    Realizes Stop.codegen (fun d => Follows fixed (c ++ d))
      ((do
        k.prologue os
        k.skip
        g.function.blocks.toList.forM k.blockCode).run e)
      (do
        let blocks ← g.function.blocks.toList.mapM fun b =>
          match g.block b with
          | .ok c => .ok c
          | .error fault => .error (⟨g.function.name, b.id, fault⟩ : CodegenError)
        return code (g.prologue os) ++ g.skip ++ blocks.flatten) := by
  have hblocks : ∀ b ∈ g.function.blocks.toList, ∀ c e, Follows fixed c e →
      Realizes Stop.codegen (fun d => Follows fixed (c ++ d)) ((k.blockCode b).run e)
        (match g.block b with
          | .ok c => .ok c
          | .error fault => .error (⟨g.function.name, b.id, fault⟩ : CodegenError)) := by
    intro b hb c e h
    have hsome : (g.function.block? b.id).isSome = true := by
      rw [Ir.Function.block?, Array.find?_isSome]
      exact ⟨b, Array.mem_toList_iff.mp hb, beq_self_eq_true _⟩
    have hblock := realizes_block hk h hsome
    generalize g.block b = x at hblock ⊢
    cases hblock with
    | ok d e' hrun hd =>
        exact .ok d e' hrun hd
    | error fault hrun =>
        refine .error _ ?_
        rw [hrun, ← hk.function]
        rfl
  refine (realizes_prologue hk hroom h).seq fun e₁ h₁ => ?_
  refine (realizes_skip hk hentry h₁).seq fun e₂ h₂ => ?_
  refine (Realizes.forM id hblocks h₂).map fun blocks e₃ h₃ => ?_
  simpa [List.flatMap_id] using h₃

theorem realizes_function
    {f : Ir.Function} {index : Nat}
    (hfree : ∀ id, fixed (.block index id) = none)
    (h : Follows fixed c e) :
    Realizes Stop.codegen (fun d e' => ∃ t, Follows (withBlocks fixed index t) (c ++ d) e')
      ((Generation.function os f).run e)
      (functionCode os index f) := by
  unfold Generation.function functionCode
  simp only
  split
  · exact .error _ rfl
  · next hroom =>
      split
      · exact .error _ rfl
      · next hentry =>
          obtain ⟨t, hallocation, ht⟩ := exists_tables f
          rw [hallocation, pure_bind, ht.spillCount]
          cases hframe : Frame.layout f (Allocation.allocate valueRegs.length f).spillCount with
          | error err =>
              cases err with
              | areaSize block size =>
                  exact .error _ rfl
              | tooLarge size =>
                  exact .error _ rfl
          | ok frame =>
              obtain ⟨labels, next, hle, hfresh, hrun⟩ :=
                run_newLabels (f.blocks.toList.map Ir.Block.id) e
              simp only
              rw [StateT.run_bind, hrun]
              have hk : Mirrors (withBlocks fixed index labels)
                  ⟨index, f, Allocation.allocate valueRegs.length f, frame⟩
                  ⟨f, f.entry, t, frame, labels⟩ :=
                ⟨rfl, rfl, ht, fun id => (withBlocks_block fixed index labels id).symm,
                  isNone_block? hfresh⟩
              have hroom' : f.params.length ≤ (argumentRegs os).length := Nat.le_of_not_lt hroom
              have hentry' : f.entryBlock?.isSome = true := by
                simpa [Option.isSome_iff_ne_none] using hentry
              exact (realizes_body hk hroom' hentry' (h.blocks hfree hle hfresh)).mono
                fun d e' hd => ⟨labels, hd⟩

end Functions

section Programs

open Generation

variable {fixed : Label → Option Int} {c : Code} {e : Emitter} {os : Os}

theorem realizes_functions
    {labels : Std.HashMap Text Int} {fs : List Ir.Function} {index : Nat}
    (hfree : ∀ k id, index ≤ k → fixed (.block k id) = none)
    (hnames : ∀ f ∈ fs, ∃ l, labels[f.name]? = some l ∧ fixed (.function f.name) = some l)
    (h : Follows fixed c e) :
    Realizes Stop.codegen (fun bodies e' => ∃ fixed', Follows fixed' (c ++ bodies.flatten) e')
      ((fs.forM fun f => do
        add (.bind (labels.getD f.name 0))
        Generation.function os f).run e)
      ((fs.zipIdx index).mapM (labelled os)) := by
  induction fs generalizing fixed c e index with
  | nil =>
      exact .ok [] e rfl ⟨fixed, by simpa using h⟩
  | cons f fs ih =>
      obtain ⟨⟨l, hl, hfixed⟩, hrest⟩ := List.forall_mem_cons.mp hnames
      have hnumber : e.number? fixed (.function f.name) = some l := hfixed
      rw [List.zipIdx_cons, List.mapM_cons]
      have hfunction : Realizes Stop.codegen
          (fun d e' => ∃ t, Follows (withBlocks fixed index t) (c ++ d) e')
          ((do
            add (.bind (labels.getD f.name 0))
            Generation.function os f).run e) (labelled os (f, index)) := by
        rw [Std.HashMap.getD_eq_getD_getElem?, hl, Option.getD_some]
        refine (realizes_function (fun id => hfree index id (Nat.le_refl _))
          (h.bind hnumber)).map ?_
        rintro d e' ⟨t, ht⟩
        exact ⟨t, by simpa using ht⟩
      refine hfunction.bind fun d e' ⟨t, ht⟩ => ?_
      -- the blocks of the functions that follow have no numbers yet
      refine (ih ?_ ?_ ht).map fun bodies e'' ⟨fixed', h'⟩ => ⟨fixed', by simpa using h'⟩
      · intro k id hk
        rw [withBlocks, if_neg (by omega)]
        exact hfree k id (by omega)
      · exact hrest

/-- Strings that the program points to are added as data, with their labels. -/
theorem follows_strings
    {t : Std.HashMap Text Int} {ss : List Text}
    (hss : ∀ s ∈ ss, t[s]?.isSome = true)
    (ht : e.labels = t)
    (h : Follows fixed c e) :
    ∃ e', (ss.forM (Generation.string t)).run e = .ok ((), e') ∧
      Follows fixed (c ++ ss.flatMap fun s => [.bind (.literal s), .data s, .data [0]]) e' := by
  induction ss generalizing c e with
  | nil =>
      exact ⟨e, rfl, by simpa using h⟩
  | cons s ss ih =>
      obtain ⟨hs, hss⟩ := List.forall_mem_cons.mp hss
      obtain ⟨n, hn⟩ := Option.isSome_iff_exists.mp hs
      have hnumber : e.number? fixed (.literal s) = some n := by
        rw [Emitter.number?, ht, hn]
      obtain ⟨e', hrun, h'⟩ := ih hss (by exact ht) (((h.bind hnumber).data s).data [0])
      refine ⟨e', ?_, by simpa using h'⟩
      show StateT.run (do Generation.string t s; ss.forM (Generation.string t)) e = _
      rw [Generation.string, Std.HashMap.getD_eq_getD_getElem?, hn]
      exact hrun

/-- The strings that a program points to follow it. -/
theorem follows_pool
    (h : Follows fixed c e) :
    ∃ e', Generation.pool.run e = .ok ((), e') ∧
      Follows fixed (c ++ X64.pool (literals c)) e' := by
  have hempty : e.ordered.isEmpty = (literals c).isEmpty := by
    rw [← h.ordered, Array.isEmpty_toList]
  by_cases hnone : (literals c).isEmpty = true
  · refine ⟨e, ?_, by simpa [X64.pool, hnone] using h⟩
    rw [Generation.pool, StateT.run_bind]
    show StateT.run (if e.ordered.isEmpty = true then _ else _) e = _
    rw [if_pos (hempty.trans hnone)]
    rfl
  · have halign : Follows fixed (c ++ [.align 8 0xcc]) (e.add (.align 8 0xcc)) :=
      h.add (by simp [Item.label?]) (by simp [Item.literal?]) rfl
    obtain ⟨e', hrun, h'⟩ := follows_strings (t := e.labels) (fun s hs => (h.listed s).mpr hs)
      (by exact rfl) halign
    refine ⟨e', ?_, by simpa [X64.pool, hnone] using h'⟩
    rw [Generation.pool, StateT.run_bind]
    show StateT.run (if e.ordered.isEmpty = true then _ else _) e = _
    rw [if_neg (by rw [hempty]; exact hnone), h.ordered]
    exact hrun

theorem literal?_stub (os : Os) (name : Text) :
    ∀ item ∈ stub os (.function name), Item.literal? item = none := by
  unfold stub
  split <;> simp [code, Item.literal?]

theorem realizes_stub
    {main : Int}
    (hmain : fixed (.function mainName) = some main)
    (h : Follows fixed c e) :
    Realizes Stop.codegen (fun _ => Follows fixed (c ++ stub os (.function mainName)))
      ((Generation.stub os main).run e) (.ok ()) := by
  have hnumber : e.number? fixed (.function mainName) = some main := hmain
  rw [stub, Generation.stub]
  refine (h.emitTo (i := .call (.function mainName)) rfl rfl hnumber).seq fun e₁ h₁ => ?_
  split
  · refine (h₁.emitAll (unlabelled_single rfl)).done fun e₂ h₂ => ?_
    simpa [Behind, code] using h₂
  · have hexit : Unlabelled
        [.pair .mov .rdi .rax, .movImm32 .rax (exitCall os), .syscall, .ud2] := by
      simp [Unlabelled, Instruction.label?]
    refine (h₁.emitAll hexit).done fun e₂ h₂ => ?_
    simpa [Behind, code] using h₂

/-- The numbers of functions. -/
def functionNumbers (t : Std.HashMap Text Int) : Label → Option Int
  | .function name => t[name]?
  | _ => none

theorem follows_functionNumbers
    {t : Std.HashMap Text Int} {next : Int} {names : List Text}
    (hle : 0 ≤ next)
    (ht : Fresh 0 next names t) :
    Follows (functionNumbers t) [] (({} : Emitter).counted next) := by
  have hempty : Follows (fun _ => none) [] {} := by
    have hnone : ∀ l, ({} : Emitter).number? (fun _ => none) l = none := by
      intro l
      cases l <;> simp [Emitter.number?]
    refine ⟨⟨?_, ?_⟩, ⟨?_, rfl⟩, rfl, ?_⟩
    · simp [hnone]
    · simp [hnone]
    · simp
    · simp [literals]
  refine hempty.extend Label.function hle ht (by simp) ?_
  intro l n hl
  cases l with
  | function name =>
      exact Or.inr ⟨name, rfl, hl⟩
  | _ =>
      cases hl

theorem realizes_program
    {fs : List Ir.Function}
    (hmain : mainName ∈ fs.map Ir.Function.name) :
    Realizes Stop.codegen (fun program e => ∃ fixed, Follows fixed program e)
      ((Generation.program os fs).run {})
      (do
        let bodies ← fs.zipIdx.mapM (labelled os)
        return stub os (.function mainName) ++ bodies.flatten ++
          X64.pool (literals bodies.flatten)) := by
  obtain ⟨labels, next, hle, hfresh, hrun⟩ := run_newLabels (fs.map Ir.Function.name) {}
  have hnames : ∀ name ∈ fs.map Ir.Function.name, ∃ l, labels[name]? = some l := by
    intro name hname
    exact Option.isSome_iff_exists.mp ((hfresh.isSome name).mpr hname)
  obtain ⟨main, hl⟩ := hnames mainName hmain
  rw [Generation.program, StateT.run_bind, hrun]
  show Realizes _ _ ((do
    Generation.stub os (labels.getD mainName 0)
    fs.forM fun f => do
      add (.bind (labels.getD f.name 0))
      Generation.function os f
    Generation.pool).run (({} : Emitter).counted next)) _
  rw [Std.HashMap.getD_eq_getD_getElem?, hl, Option.getD_some]
  refine (realizes_stub hl (follows_functionNumbers hle hfresh)).seq fun e₁ h₁ => ?_
  have hfixed : ∀ f ∈ fs, ∃ l, labels[f.name]? = some l ∧
      functionNumbers labels (.function f.name) = some l := by
    intro f hf
    obtain ⟨l, hl⟩ := hnames f.name (List.mem_map_of_mem hf)
    exact ⟨l, hl, hl⟩
  refine (realizes_functions (fun _ _ _ => rfl) hfixed h₁).bind fun bodies e₂ ⟨fixed, h₂⟩ => ?_
  obtain ⟨e₃, hpool, h₃⟩ := follows_pool h₂
  refine .ok _ e₃ hpool ⟨fixed, ?_⟩
  rwa [List.nil_append, literals_append_of_none (literal?_stub os mainName)] at h₃

end Programs

section Modules

variable {fixed : Label → Option Int} {e : Emitter} {os : Os} {m : Module}

/-- A program whose labels are bound is laid out, whatever numbers its labels have. -/
theorem Follows.finish
    {program : Code}
    (h : Follows fixed program e)
    (hbound : ∀ l ∈ references program, Item.bind l ∈ program) :
    e.assembler.finish = .ok (bytesFrom (offsetOf program) 0 program) := by
  rw [Assembler.finish, h.renamed.items]
  refine finish_rename _ hbound fun l l' hl hl' heq => ?_
  obtain ⟨n, hn⟩ := Option.isSome_iff_exists.mp (h.renamed.named _ hl l rfl)
  obtain ⟨n', hn'⟩ := Option.isSome_iff_exists.mp (h.renamed.named _ hl' l' rfl)
  rw [hn, hn', Option.getD_some, Option.getD_some] at heq
  exact h.numbered.injective l l' n hn (heq ▸ hn')

theorem realizes_module (os : Os) (m : Module) :
    Realizes Stop.codegen (fun program e => ∃ fixed, Follows fixed program e)
      ((Generation.moduleProgram os m).run {}) (moduleCode os m) := by
  unfold Generation.moduleProgram moduleCode
  cases hmain : m.function? mainName with
  | none =>
      exact .error _ rfl
  | some main =>
      have hname : main.name = mainName := by
        simpa using Array.find?_some hmain
      simp only
      split
      · exact .error _ rfl
      · next hexternal =>
          cases m.globals[0]? with
          | some global =>
              exact .error _ rfl
          | none =>
              have hmem : main ∈ m.functions.toList.filter fun f => !f.external := by
                rw [List.mem_filter, Array.mem_toList_iff]
                exact ⟨Array.mem_of_find?_eq_some hmain, by simpa using hexternal⟩
              exact realizes_program (List.mem_map.mpr ⟨main, hmem, hname⟩)

/-- Every module has machine code, or is refused with a fault of code generation.  The generator
that checks its labels and its indices comes to the same end, so that none of them is missing. -/
theorem compiles_or_refuses (os : Os) (m : Module) :
    (∃ program bytes, moduleCode os m = .ok program ∧
      (∀ l ∈ references program, Item.bind l ∈ program) ∧
      machineCode os m = .ok bytes ∧ compile os m = .ok bytes) ∨
    ∃ fault, machineCode os m = .error (.codegen fault) ∧
      compile os m = .error (.codegen fault) := by
  have hrealizes := realizes_module os m
  cases hcode : moduleCode os m with
  | error fault =>
      rw [hcode] at hrealizes
      cases hrealizes with
      | error _ hrun =>
          exact Or.inr ⟨fault, by rw [machineCode, hcode], by rw [compile, hrun]⟩
  | ok program =>
      rw [hcode] at hrealizes
      have hbound := bound_of_moduleCode hcode
      cases hrealizes with
      | ok _ e hrun hpost =>
          obtain ⟨fixed, hfollows⟩ := hpost
          refine Or.inl ⟨program, bytesFrom (offsetOf program) 0 program, rfl, hbound, ?_, ?_⟩
          · rw [machineCode, hcode]
            simp only [finish_eq hbound]
          · rw [compile, hrun]
            simp only [hfollows.finish hbound]

end Modules

end X64
end StackNative
