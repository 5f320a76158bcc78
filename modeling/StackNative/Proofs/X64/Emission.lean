import StackNative.Proofs.X64.Following

/-!
# The code of a block, piece by piece

**Input.**  An emitter that holds a program, and the generator of a function.

**Algorithm.**  Each part of the generator adds behind the program what the code of that part
says, or stops with the fault that the code has.  Operands are looked up where their number was
measured before, and machine registers where the allocator gave one.

**Results.**
* `Mirrors`: what the generator looks up is what is known about the function.
* `realizes_instruction`, `realizes_terminator`, `realizes_block`, `realizes_prologue`: the parts
  of a function.
-/

namespace StackNative
namespace X64

open Ir (Register BlockId)

section Values

open Generation

variable {ε : Type} {stop : ε → Stop} {fixed : Label → Option Int} {c : Code} {e : Emitter}
variable {g : Context} {k : Generator}

/-- The tables of an allocator say what places registers have, and the machine registers are
there. -/
structure Tabulates (a : Allocation.Assignment) (t : Allocation.Tables) : Prop where
  registers : ∀ r : Register, t.registers[r]? = (a.place? r).bind Allocation.Place.index?
  slots : ∀ r : Register, t.slots[r]? = (a.place? r).bind Allocation.Place.number?
  spillCount : t.spillCount = a.spillCount
  index_lt : ∀ (r : Register) (index : Nat), a.place? r = some (.machine index) →
    index < valueRegs.length

/-- What the generator of a function looks up is what is known about the function. -/
structure Mirrors (fixed : Label → Option Int) (g : Context) (k : Generator) : Prop where
  function : k.function = g.function
  frame : k.frame = g.frame
  tables : Tabulates g.allocation k.tables
  labels : ∀ id : BlockId, k.labels[id]? = fixed (g.label id)
  isNone : ∀ id : BlockId, (g.function.block? id).isNone = (k.labels[id]?).isNone

/-- The table of machine registers has the one of every index that is given out. -/
theorem valueReg_of_lt
    {index : Nat}
    (h : index < valueRegs.length) :
    valueRegs[index]? = some (Context.valueReg index) := by
  rw [List.getElem?_eq_getElem h, Context.valueReg, List.getD_eq_getElem?_getD,
    List.getElem?_eq_getElem h, Option.getD_some]

/-- Bringing a value into a machine register writes what the plain generator gives. -/
theorem realizes_load
    (hk : Mirrors fixed g k)
    (h : Follows fixed c e)
    (target : Reg) (r : Register) :
    Realizes k.stop (Behind fixed c) ((k.load target r).run e) (g.load target r) := by
  have hregisters := hk.tables.registers r
  have hslots := hk.tables.slots r
  unfold Generator.load Context.load
  cases hplace : g.allocation.place? r with
  | none =>
      rw [hregisters, hslots, hplace]
      exact .error _ rfl
  | some place =>
      rw [hregisters, hslots, hplace]
      cases place with
      | machine index =>
          show Realizes _ _ ((do emitAll (Context.copy target (← look valueRegs index))).run e) _
          rw [look_eq (valueReg_of_lt (hk.tables.index_lt r index hplace)), pure_bind]
          exact h.emitAll (unlabelled_copy _ _)
      | slot number =>
          rw [← hk.frame]
          exact h.emitAll (unlabelled_single rfl)

/-- Putting a value in its place writes what the plain generator gives. -/
theorem realizes_store
    (hk : Mirrors fixed g k)
    (h : Follows fixed c e)
    (r : Register) (source : Reg) :
    Realizes stop (Behind fixed c) ((k.store r source).run e) (.ok (g.store r source)) := by
  have hregisters := hk.tables.registers r
  have hslots := hk.tables.slots r
  unfold Generator.store Context.store
  cases hplace : g.allocation.place? r with
  | none =>
      rw [hregisters, hslots, hplace]
      exact h.emitAll unlabelled_nil
  | some place =>
      rw [hregisters, hslots, hplace]
      cases place with
      | machine index =>
          show Realizes _ _ ((do emitAll (Context.copy (← look valueRegs index) source)).run e) _
          rw [look_eq (valueReg_of_lt (hk.tables.index_lt r index hplace)), pure_bind]
          exact h.emitAll (unlabelled_copy _ _)
      | slot number =>
          rw [← hk.frame]
          exact h.emitAll (unlabelled_single rfl)

/-- Bringing two operands into machine registers writes what the plain generator gives. -/
theorem realizes_loadPair
    (hk : Mirrors fixed g k)
    (h : Follows fixed c e)
    (i : Ir.Instruction) :
    Realizes k.stop (Behind fixed c) ((k.loadPair i).run e) (g.loadPair i) := by
  unfold Generator.loadPair Context.loadPair
  match hargs : i.args with
  | [] | [_] | _ :: _ :: _ :: _ =>
      simp only [List.length_cons, List.length_nil]
      rw [if_pos (by omega)]
      exact .error _ rfl
  | [left, right] =>
      simp only [List.length_cons, List.length_nil]
      rw [if_neg (by omega), look_eq rfl, look_eq rfl, pure_bind, pure_bind]
      refine (realizes_load hk h _ _).bind fun is e' h' => ?_
      refine (realizes_load hk h' _ _).map fun js e'' h'' => ?_
      exact behind_append.mpr h''

/-- Bringing the first operand into a machine register writes what the plain generator gives. -/
theorem realizes_loadFirst
    (hk : Mirrors fixed g k)
    (h : Follows fixed c e)
    (target : Reg) (i : Ir.Instruction) :
    Realizes k.stop (Behind fixed c) ((k.loadFirst target i).run e) (g.loadFirst target i) := by
  unfold Generator.loadFirst Context.loadFirst
  cases hargs : i.args with
  | nil =>
      exact .error _ rfl
  | cons r rest =>
      rw [if_neg (by simp), look_eq rfl, pure_bind]
      exact realizes_load hk h _ _

/-- The generator finds a local variable, or stops with the error. -/
theorem localOffset_eq
    (hk : Mirrors fixed g k)
    (slot : Int) :
    k.localOffset slot = match g.localOffset slot with
      | .ok offset => pure offset
      | .error fault => k.fail fault := by
  unfold Generator.localOffset Context.localOffset
  rw [hk.function]
  by_cases hneg : slot < 0
  · simp only [hneg, true_or, if_true]
  · by_cases hlt : slot.toNat < g.function.locals.size
    · rw [if_neg (by omega), if_neg hneg, Array.getElem?_eq_getElem hlt,
        look_eq (x := g.function.locals[slot.toNat]) (by simp [hlt]), pure_bind]
    · rw [if_pos (by omega), if_neg hneg, Array.getElem?_eq_none (by omega)]

end Values

section Instructions

open Generation

variable {ε : Type} {stop : ε → Stop} {fixed : Label → Option Int} {c : Code} {e : Emitter}
variable {g : Context} {k : Generator}

/-- A string that was met has its label already. -/
theorem run_literalLabel_of_some
    {s : Text} {l : Int}
    (hs : e.labels[s]? = some l) :
    (literalLabel s).run e = .ok (l, e) := by
  simp only [literalLabel, StateT.run_bind, StateT.run_get, pure_bind, hs]
  rfl

/-- A string that is met first gets the next label. -/
theorem run_literalLabel_of_none
    {s : Text}
    (hs : e.labels[s]? = none) :
    (literalLabel s).run e = .ok (e.assembler.nextLabel,
      { assembler := { e.assembler with nextLabel := e.assembler.nextLabel + 1 }
        labels := e.labels.insert s e.assembler.nextLabel
        ordered := e.ordered.push s }) := by
  simp only [literalLabel, StateT.run_bind, StateT.run_get, pure_bind, hs]
  rfl

/-- A string is pointed to, whether or not it was before. -/
theorem realizes_string
    (h : Follows fixed c e)
    (s : Text) :
    Realizes stop (Behind fixed c) ((Generator.loadConstant (.string s)).run e)
      (.ok [.leaLabel .rax (.literal s)]) := by
  cases hs : e.labels[s]? with
  | some l =>
      have hknown : Follows fixed (c ++ [.instruction (.leaLabel .rax (.literal s))])
          (e.add (.instruction (.leaLabel .rax l))) := by
        refine h.add ?_ ?_ ?_
        · intro l' hl'
          cases hl'
          rw [Emitter.number?, hs]
          rfl
        · intro t ht
          cases ht
          rw [← h.listed, hs]
          rfl
        · rw [Item.rename, Instruction.rename, Emitter.number?, hs, Option.getD_some]
      refine .ok _ _ ?_ hknown
      rw [Generator.loadConstant, StateT.run_bind, run_literalLabel_of_some hs]
      rfl
  | none =>
      refine .ok _ _ ?_ (h.addLiteral hs .rax)
      rw [Generator.loadConstant, StateT.run_bind, run_literalLabel_of_none hs]
      rfl

/-- Loading a constant writes what the plain generator gives. -/
theorem realizes_loadConstant
    (h : Follows fixed c e)
    (value : Ir.Constant) :
    Realizes stop (Behind fixed c) ((Generator.loadConstant value).run e)
      (.ok [Context.loadConstant value]) := by
  cases value with
  | string s =>
      exact realizes_string h s
  | int n =>
      exact h.emitAll (unlabelled_single (Instruction.label?_movImm _ _))
  | float x =>
      exact h.emitAll (unlabelled_single (Instruction.label?_movImm _ _))
  | bool b =>
      exact h.emitAll (unlabelled_single rfl)
  | null =>
      exact h.emitAll (unlabelled_single rfl)
  | unknown code =>
      exact h.emitAll (unlabelled_single rfl)

/-- Instructions that name no label are added behind others. -/
theorem Realizes.append
    {act : Generation Unit} {x : Except ε (List (Instruction Label))}
    {work : List (Instruction Label)}
    (h : Realizes stop (Behind fixed c) (act.run e) x)
    (hwork : Unlabelled work) :
    Realizes stop (Behind fixed c) ((do act; emitAll work).run e) (do return (← x) ++ work) := by
  refine h.bind fun is e' h' => ?_
  exact (h'.emitAll hwork).done fun e'' h'' => behind_append.mpr h''

/-- An operation writes the work that the plain generator gives. -/
theorem realizes_operation
    (hk : Mirrors fixed g k)
    (h : Follows fixed c e)
    (i : Ir.Instruction) :
    Realizes k.stop (Behind fixed c) ((k.operation i).run e)
      (match Context.pairWork? i.op, Context.singleWork? i.op with
        | some work, _ => do return (← g.loadPair i) ++ work
        | none, some work => do return (← g.loadFirst .rax i) ++ work
        | none, none => .error (.unsupportedInstruction i.text)) := by
  unfold Generator.operation
  cases hpair : Context.pairWork? i.op with
  | some work =>
      exact (realizes_loadPair hk h i).append (unlabelled_pairWork hpair)
  | none =>
      cases hsingle : Context.singleWork? i.op with
      | some work =>
          exact (realizes_loadFirst hk h .rax i).append (unlabelled_singleWork hsingle)
      | none =>
          exact .error _ rfl

/-- What is neither a load nor an address is an operation. -/
theorem result_eq_operation
    {i : Ir.Instruction}
    (hop : i.op ≠ .loadConst ∧ i.op ≠ .loadLocal ∧ i.op ≠ .alloca ∧ i.op ≠ .load) :
    k.result i = k.operation i := by
  unfold Generator.result
  split <;> simp_all

/-- Making a result writes what the plain generator gives. -/
theorem realizes_result
    (hk : Mirrors fixed g k)
    (h : Follows fixed c e)
    (i : Ir.Instruction) :
    Realizes k.stop (Behind fixed c) ((k.result i).run e) (g.result i) := by
  unfold Context.result
  split
  · next hop =>
      simp only [Generator.result, hop]
      exact realizes_loadConstant h _
  · next hop =>
      simp only [Generator.result, hop, localOffset_eq hk]
      cases g.localOffset i.slot with
      | error fault =>
          exact .error fault rfl
      | ok offset =>
          rw [pure_bind]
          exact h.emitAll (unlabelled_single rfl)
  · next hop =>
      simp only [Generator.result, hop, hk.frame]
      exact h.emitAll (unlabelled_single rfl)
  · next hop =>
      simp only [Generator.result, hop]
      exact (realizes_loadFirst hk h .rcx i).append (unlabelled_single rfl)
  · next hconst hlocal halloca hload =>
      rw [result_eq_operation ⟨hconst, hlocal, halloca, hload⟩]
      exact realizes_operation hk h i

/-- Storing through a pointer writes what the plain generator gives. -/
theorem realizes_storeThrough
    (hk : Mirrors fixed g k)
    (h : Follows fixed c e)
    (i : Ir.Instruction) :
    Realizes k.stop (Behind fixed c) ((k.storeThrough i).run e)
      (match i.args with
        | [pointer, value] => do
          return (← g.load .rcx pointer) ++ (← g.load .rax value) ++ [.storeMem .rcx 0 .rax]
        | _ => .error .storeOperands) := by
  unfold Generator.storeThrough
  match hargs : i.args with
  | [] | [_] | _ :: _ :: _ :: _ =>
      simp only [List.length_cons, List.length_nil]
      rw [if_pos (by omega)]
      exact .error _ rfl
  | [pointer, value] =>
      simp only [List.length_cons, List.length_nil]
      rw [if_neg (by omega), look_eq rfl, look_eq rfl, pure_bind, pure_bind]
      refine (realizes_load hk h .rcx pointer).bind fun is e₁ h₁ => ?_
      refine (realizes_load hk h₁ .rax value).bind fun js e₂ h₂ => ?_
      refine (h₂.emitAll (unlabelled_single rfl)).done fun e₃ h₃ => ?_
      simpa [Behind, code] using h₃

/-- The step of the generator: an instruction writes what the plain generator gives, or fails with
the same fault. -/
theorem realizes_instruction
    (hk : Mirrors fixed g k)
    (h : Follows fixed c e)
    (i : Ir.Instruction) :
    Realizes k.stop (Behind fixed c) ((k.instruction i).run e) (g.instruction i) := by
  unfold Context.instruction
  split
  · next hop =>
      simp only [Generator.instruction, hop]
      exact h.emitAll unlabelled_nil
  · next hop =>
      simp only [Generator.instruction, hop]
      exact h.emitAll unlabelled_nil
  · next hop =>
      simp only [Generator.instruction, hop, localOffset_eq hk]
      cases g.localOffset i.slot with
      | error fault =>
          exact .error fault rfl
      | ok offset =>
          rw [pure_bind]
          exact (realizes_loadFirst hk h .rax i).append (unlabelled_single rfl)
  · next hop =>
      simp only [Generator.instruction, hop]
      exact realizes_storeThrough hk h i
  · next hnop hline hstoreLocal hstore =>
      have hresult : k.instruction i = (do k.result i; i.dest?.forM fun r => k.store r .rax) := by
        unfold Generator.instruction
        split <;> simp_all
      rw [hresult]
      refine (realizes_result hk h i).bind fun is e' h' => ?_
      cases i.dest? with
      | none =>
          exact .ok is e' rfl h'
      | some r =>
          exact (realizes_store hk h' r .rax).done fun e'' h'' => behind_append.mpr h''

end Instructions

section Control

open Generation

variable {ε : Type} {stop : ε → Stop} {fixed : Label → Option Int} {c : Code} {e : Emitter}
variable {g : Context} {k : Generator}

/-- A block of the function has a number. -/
theorem Mirrors.number?_label
    (hk : Mirrors fixed g k)
    (e : Emitter)
    {id : BlockId} {l : Int}
    (h : k.labels[id]? = some l) :
    e.number? fixed (g.label id) = some l := by
  rw [← h, hk.labels]
  rfl

/-- A jump goes to a block that has a label. -/
theorem Generator.terminator_jump (k : Generator) (target : BlockId) :
    k.terminator (.jump target) =
      match k.labels[target]? with
      | some l => emit (.jump l)
      | none => k.fail (.jumpTarget target) :=
  rfl

/-- A branch goes to blocks that have labels. -/
theorem Generator.terminator_branch
    (k : Generator) (condition : Register) (onTrue onFalse : BlockId) :
    k.terminator (.branch condition onTrue onFalse) =
      match k.labels[onTrue]?, k.labels[onFalse]? with
      | some l, some l' => do
        k.load .rax condition
        emitAll [.pair .test .rax .rax]
        emit (.jumpIf Cond.notEqual l)
        emit (.jump l')
      | none, _ => k.fail (.branchTarget onTrue)
      | some _, none => k.fail (.branchTarget onFalse) :=
  rfl

/-- A branch to labels that are known writes what the plain generator gives. -/
theorem realizes_branch
    (hk : Mirrors fixed g k)
    (h : Follows fixed c e)
    {onTrue onFalse : BlockId} {l l' : Int}
    (hl : k.labels[onTrue]? = some l)
    (hl' : k.labels[onFalse]? = some l')
    (condition : Register) :
    Realizes k.stop (Behind fixed c)
      ((do
        k.load .rax condition
        emitAll [.pair .test .rax .rax]
        emit (.jumpIf Cond.notEqual l)
        emit (.jump l')).run e)
      (do return (← g.load .rax condition) ++ [.pair .test .rax .rax,
        .jumpIf Cond.notEqual (g.label onTrue), .jump (g.label onFalse)]) := by
  refine (realizes_load hk h .rax condition).bind fun is e₁ h₁ => ?_
  refine (h₁.emitAll (unlabelled_single rfl)).seq fun e₂ h₂ => ?_
  refine (h₂.emitTo (i := .jumpIf Cond.notEqual (g.label onTrue)) rfl rfl
    (hk.number?_label e₂ hl)).seq fun e₃ h₃ => ?_
  refine (h₃.emitTo (i := .jump (g.label onFalse)) rfl rfl
    (hk.number?_label e₃ hl')).done fun e₄ h₄ => ?_
  simpa [Behind, code] using h₄

/-- A terminator writes what the plain generator gives, or fails with the same fault. -/
theorem realizes_terminator
    (hk : Mirrors fixed g k)
    (h : Follows fixed c e)
    (t : Ir.Terminator) :
    Realizes k.stop (Behind fixed c) ((k.terminator t).run e) (g.terminator t) := by
  have hepilogue : Unlabelled Context.epilogue := by decide +kernel
  cases t with
  | ret value =>
      cases value with
      | none =>
          exact h.emitAll ((unlabelled_single rfl).append hepilogue)
      | some r =>
          exact (realizes_load hk h .rax r).append hepilogue
  | jump target =>
      rw [Context.terminator_jump, hk.isNone, Generator.terminator_jump]
      cases hl : k.labels[target]? with
      | none =>
          exact .error _ rfl
      | some l =>
          exact h.emitTo (i := .jump (g.label target)) rfl rfl (hk.number?_label e hl)
  | branch condition onTrue onFalse =>
      rw [Context.terminator_branch, hk.isNone, hk.isNone, Generator.terminator_branch]
      cases hl : k.labels[onTrue]? with
      | none =>
          exact .error _ rfl
      | some l =>
          cases hl' : k.labels[onFalse]? with
          | none =>
              exact .error _ rfl
          | some l' =>
              exact realizes_branch hk h hl hl' condition
  | unreachable =>
      exact h.emitAll (unlabelled_single rfl)
  | throw value =>
      exact .error _ rfl
  | unknown code =>
      exact .error _ rfl

/-- A generator that enters a block is still that of the function. -/
theorem Mirrors.enter
    (hk : Mirrors fixed g k)
    (id : BlockId) :
    Mirrors fixed g (k.enter id) :=
  ⟨hk.function, hk.frame, hk.tables, hk.labels, hk.isNone⟩

/-- A block of the function has a label. -/
theorem Mirrors.exists_label
    (hk : Mirrors fixed g k)
    {id : BlockId}
    (h : (g.function.block? id).isSome = true) :
    ∃ l, k.labels[id]? = some l := by
  rw [← Option.isSome_iff_exists, ← Option.not_isNone, ← hk.isNone, Option.not_isNone]
  exact h

/-- Code of instructions in groups is the code of all of them. -/
theorem flatMap_code (iss : List (List (Instruction Label))) :
    iss.flatMap code = code iss.flatten := by
  rw [code, List.map_flatten, List.flatMap_def]
  rfl

/-- A block writes its label and what the plain generator gives. -/
theorem realizes_block
    (hk : Mirrors fixed g k)
    (h : Follows fixed c e)
    {b : Ir.Block}
    (hb : (g.function.block? b.id).isSome = true) :
    Realizes (k.enter b.id).stop (fun d => Follows fixed (c ++ d)) ((k.blockCode b).run e)
      (g.block b) := by
  obtain ⟨l, hl⟩ := hk.exists_label hb
  have hbind := h.bind (hk.number?_label e hl)
  rw [Generator.blockCode, Std.HashMap.getD_eq_getD_getElem?, hl, Option.getD_some]
  show Realizes _ _ ((do
    b.instructions.toList.forM (k.enter b.id).instruction
    (k.enter b.id).terminator b.terminator).run (e.add (.bind l))) _
  refine (Realizes.forM code (fun i _ c e h => realizes_instruction (hk.enter b.id) h i)
    hbind).bind fun body e' h' => ?_
  refine (realizes_terminator (hk.enter b.id) h' b.terminator).map fun exit e'' h'' => ?_
  simpa [Behind, flatMap_code, code] using h''

/-- An argument is stored as any value of its register. -/
theorem realizes_storeArgument
    (hk : Mirrors fixed g k)
    (h : Follows fixed c e)
    (p : Ir.Param) (source : Reg) :
    Realizes stop (Behind fixed c) ((k.storeArgument p source).run e)
      (.ok (g.store p.register source)) := by
  rw [Generator.storeArgument, hk.tables.slots]
  cases hplace : g.allocation.place? p.register with
  | none =>
      exact realizes_store hk h _ _
  | some place =>
      cases place with
      | machine index =>
          exact realizes_store hk h _ _
      | slot number =>
          -- the slot is looked up first, and a register with a slot has no machine register
          have hslot := unlabelled_store g p.register source
          rw [Context.store, hplace] at hslot ⊢
          rw [← hk.frame] at hslot ⊢
          exact h.emitAll hslot

/-- Arguments are put in their places as the plain generator does it. -/
theorem realizes_arguments
    (hk : Mirrors fixed g k)
    {regs : List Reg} {ps : List Ir.Param} {n : Nat}
    (hroom : n + ps.length ≤ regs.length)
    (h : Follows fixed c e) :
    Realizes stop (Behind fixed c)
      (((ps.zipIdx n).forM fun (p, index) => do k.storeArgument p (← look regs index)).run e)
      (.ok ((ps.zip (regs.drop n)).flatMap fun (p, source) => g.store p.register source)) := by
  induction ps generalizing c e n with
  | nil =>
      exact .ok _ e rfl (by simpa [Behind, code] using h)
  | cons p ps ih =>
      rw [List.length_cons] at hroom
      have hn : n < regs.length := by omega
      rw [List.drop_eq_getElem_cons hn, List.zip_cons_cons, List.flatMap_cons, List.zipIdx_cons]
      show Realizes _ _ ((do
        (do k.storeArgument p (← look regs n))
        (ps.zipIdx (n + 1)).forM fun (p, index) => do k.storeArgument p (← look regs index)).run
          e) _
      -- there are no more arguments than registers, so the one with this index is there
      rw [look_eq (List.getElem?_eq_getElem hn), pure_bind]
      refine (realizes_storeArgument hk h p regs[n]).seq fun e' h' => ?_
      exact (ih (by omega) h').done fun e'' h'' => behind_append.mpr h''

/-- The frame is set up as the plain generator does it. -/
theorem realizes_prologue
    (hk : Mirrors fixed g k)
    {os : Os}
    (hroom : g.function.params.length ≤ (argumentRegs os).length)
    (h : Follows fixed c e) :
    Realizes stop (Behind fixed c) ((k.prologue os).run e) (.ok (g.prologue os)) := by
  have henter : Unlabelled [.push .rbp, .pair .mov .rbp .rsp] := by decide +kernel
  have hframe : Unlabelled (if 0 < g.frame.size then [.subImm .rsp g.frame.size] else []) := by
    split
    · exact unlabelled_single rfl
    · exact unlabelled_nil
  rw [Generator.prologue, hk.frame, hk.function]
  refine (h.emitAll henter).seq fun e₁ h₁ => ?_
  refine (h₁.emitAll hframe).seq fun e₂ h₂ => ?_
  refine (realizes_arguments hk (by omega) h₂).done fun e₃ h₃ => ?_
  rw [Context.prologue, List.append_assoc]
  exact behind_append.mpr (behind_append.mpr h₃)

/-- The jump to the entry is written exactly if another block stands first. -/
theorem realizes_skip
    (hk : Mirrors fixed g k)
    (hentry : g.function.entryBlock?.isSome = true)
    (h : Follows fixed c e) :
    Realizes stop (fun _ => Follows fixed (c ++ g.skip)) (k.skip.run e) (.ok ()) := by
  obtain ⟨l, hl⟩ := hk.exists_label hentry
  have hblocks : 0 < g.function.blocks.size := by
    obtain ⟨b, hb⟩ := Option.isSome_iff_exists.mp hentry
    exact Array.size_pos_of_mem (Array.mem_of_find?_eq_some hb)
  rw [Generator.skip, Context.skip, hk.function, Array.getElem?_eq_getElem hblocks,
    look_eq (x := g.function.blocks[0]) (by simp [hblocks]), pure_bind]
  simp only
  split
  · exact .ok () e rfl (by simpa using h)
  · rw [Std.HashMap.getD_eq_getD_getElem?, hl]
    exact (h.emitTo (i := .jump (g.label g.function.entry)) rfl rfl
      (hk.number?_label e hl)).done fun e' h' => h'

end Control

end X64
end StackNative
