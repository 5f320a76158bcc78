import Mathlib.Data.List.Induction
import Mathlib.Data.List.Nodup
import StackNative.Ir.Validate
import StackNative.Proofs.Allocation.Flow

/-!
# What the validation reports

**Input.**  A module.

**Algorithm.**  The validation makes one check after the other: the name of every function
and, for each function that is not external, its entry, its parameters, and the number, the
terminator, the successors and the instructions of each block.  A check fails by itself, or
because an earlier one has taken its name, its number or its register.

**Results.**
* `validate_eq`: the errors are the complaints of the checks, each told by the checks
  before it.
* `validate_eq_nil_iff`: the modules that nothing is wrong with.
* `validate_exact`: and for any module, one error for each check that fails.
-/

namespace StackNative
namespace Ir

section Checks

/-- The registers that a block writes. -/
def Block.dests (b : Block) : List Register := b.instructions.toList.filterMap Instruction.dest?

/-- The registers that a function writes. -/
def Function.dests (f : Function) : List Register := f.blocks.toList.flatMap Block.dests

/-- The numbers of the blocks of a function. -/
def Function.blockIds (f : Function) : List BlockId := f.blocks.toList.map Block.id

/-- The functions that are more than declared. -/
def Module.bodies (m : Module) : List Function := m.functions.toList.filter fun f => !f.external

/-- What the validation looks at. -/
inductive Check where
  | name (f : Function)
  | entry (f : Function)
  | param (f : Function) (p : Param)
  | block (f : Function) (b : Block)
  | exit (f : Function) (b : Block)
  | target (f : Function) (b : Block) (target : BlockId)
  | instruction (f : Function) (b : Block) (i : Instruction)

/-- The checks of a block. -/
def Block.checks (f : Function) (b : Block) : List Check :=
  .block f b :: .exit f b :: (b.terminator.successors.map (.target f b) ++
    b.instructions.toList.map (.instruction f b))

/-- The checks of a function. -/
def Function.checks (f : Function) : List Check :=
  .name f :: if f.external then [] else
    .entry f :: (f.params.map (.param f) ++ f.blocks.toList.flatMap (Block.checks f))

/-- The checks of a module, in the order of the visit. -/
def Module.checks (m : Module) : List Check := m.functions.toList.flatMap Function.checks

namespace Check

/-- The name of a function. -/
def name? : Check → Option Text
  | .name f => some f.name
  | _ => none

/-- The number of a block. -/
def blockId? : Check → Option BlockId
  | .block _ b => some b.id
  | _ => none

/-- The register of a parameter. -/
def param? : Check → Option Register
  | .param _ p => some p.register
  | _ => none

/-- The register that an instruction writes. -/
def dest? : Check → Option Register
  | .instruction _ _ i => i.dest?
  | _ => none

/-- The function that is looked at. -/
def owner : Check → Text
  | .name f => f.name
  | .entry f => f.name
  | .param f _ => f.name
  | .block f _ => f.name
  | .exit f _ => f.name
  | .target f _ _ => f.name
  | .instruction f _ _ => f.name

/-- Something is missing, whatever was looked at before. -/
def Flawed : Check → Prop
  | .entry f => f.entry ∉ f.blockIds
  | .exit _ b => b.terminated = false
  | .target f _ t => t ∉ f.blockIds
  | _ => False

/-- A later check has the name or the number of an earlier one, or writes a register that the
earlier one writes or has for a parameter. -/
def Clashes (c d : Check) : Prop :=
  (∃ n ∈ c.name?, n ∈ d.name?) ∨ (∃ id ∈ c.blockId?, id ∈ d.blockId?) ∨
    (∃ r ∈ c.param?, r ∈ d.dest?) ∨ ∃ r ∈ c.dest?, r ∈ d.dest?

/-- A check fails behind others. -/
def Fails (before : List Check) (c : Check) : Prop := c.Flawed ∨ ∃ d ∈ before, d.Clashes c

instance : (c : Check) → Decidable c.Flawed
  | .entry f => inferInstanceAs (Decidable (f.entry ∉ f.blockIds))
  | .exit _ b => inferInstanceAs (Decidable (b.terminated = false))
  | .target f _ t => inferInstanceAs (Decidable (t ∉ f.blockIds))
  | .name _ | .param .. | .block .. | .instruction .. => inferInstanceAs (Decidable False)

instance (c d : Check) : Decidable (c.Clashes d) :=
  inferInstanceAs (Decidable ((∃ n ∈ c.name?, n ∈ d.name?) ∨ (∃ id ∈ c.blockId?, id ∈ d.blockId?) ∨
    (∃ r ∈ c.param?, r ∈ d.dest?) ∨ ∃ r ∈ c.dest?, r ∈ d.dest?))

instance (before : List Check) (c : Check) : Decidable (c.Fails before) :=
  inferInstanceAs (Decidable (c.Flawed ∨ ∃ d ∈ before, d.Clashes c))

end Check

end Checks

section Histories

variable {α : Type}

/-- The elements of a list, each with those before it. -/
def withEarlier (before : List α) : List α → List (List α × α)
  | [] => []
  | a :: as => (before, a) :: withEarlier (before ++ [a]) as

/-- What comes behind other elements has them before it as well. -/
theorem withEarlier_append (before as bs : List α) :
    withEarlier before (as ++ bs) = withEarlier before as ++ withEarlier (before ++ as) bs := by
  induction as generalizing before with
  | nil =>
      simp [withEarlier]
  | cons a as ih =>
      simp [withEarlier, ih]

theorem withEarlier_concat (as : List α) (a : α) :
    withEarlier [] (as ++ [a]) = withEarlier [] as ++ [(as, a)] := by
  rw [withEarlier_append]
  rfl

/-- A relation to all that stands before. -/
theorem forall_withEarlier_iff {R : α → α → Prop} {as : List α} :
    (∀ s ∈ withEarlier [] as, ∀ b ∈ s.1, R b s.2) ↔ as.Pairwise R := by
  induction as using List.reverseRecOn with
  | nil =>
      simp [withEarlier]
  | append_singleton as a ih =>
      rw [withEarlier_concat, List.forall_mem_append, ih, List.pairwise_append]
      simp

/-- A property of the elements, whatever stands before them. -/
theorem forall_snd_withEarlier_iff {p : α → Prop} {as : List α} :
    (∀ s ∈ withEarlier [] as, p s.2) ↔ ∀ a ∈ as, p a := by
  induction as using List.reverseRecOn with
  | nil =>
      simp [withEarlier]
  | append_singleton as a ih =>
      rw [withEarlier_concat, List.forall_mem_append, ih, List.forall_mem_append]
      simp

end Histories

section Complaints

/-- The function of the last block with a number. -/
def blockOwner? (cs : List Check) (id : BlockId) : Option Text :=
  (cs.reverse.find? fun c => c.blockId? = some id).map Check.owner

/-- The function that a register is said to be defined in: that of the last parameter or, if
there is none, that of the first instruction. -/
def registerOwner? (cs : List Check) (r : Register) : Option Text :=
  ((cs.reverse.find? fun c => c.param? = some r).or
    (cs.find? fun c => c.dest? = some r)).map Check.owner

/-- What is reported about a check that stands behind others. -/
def Check.complaint? (before : List Check) : Check → Option ValidationError
  | .name f =>
    if ∃ c ∈ before, c.name? = some f.name then some ⟨[], 0, .duplicateFunction f.name⟩ else none
  | .entry f => if f.entry ∈ f.blockIds then none else some ⟨f.name, f.entry, .entryMissing⟩
  | .param .. => none
  | .block f b => (blockOwner? before b.id).map fun owner => ⟨f.name, b.id, .blockReused owner⟩
  | .exit f b => if b.terminated = false then some ⟨f.name, b.id, .unterminated⟩ else none
  | .target f b t => if t ∈ f.blockIds then none else some ⟨f.name, b.id, .targetMissing t⟩
  | .instruction f b i => i.dest?.bind fun r =>
    (registerOwner? before r).map fun owner => ⟨f.name, b.id, .redefined r owner⟩

/-- What is reported about checks in order. -/
def complaints (cs : List Check) : List ValidationError :=
  (withEarlier [] cs).filterMap fun s => s.2.complaint? s.1

/-- The last check decides on the owner of a block. -/
theorem blockOwner?_concat (cs : List Check) (c : Check) (id : BlockId) :
    blockOwner? (cs ++ [c]) id =
      if c.blockId? = some id then some c.owner else blockOwner? cs id := by
  rw [blockOwner?, List.reverse_concat, List.find?_cons]
  by_cases h : c.blockId? = some id <;> simp [h, blockOwner?]

/-- The last parameter decides on the owner of a register, and the first instruction if there is no
parameter. -/
theorem registerOwner?_concat (cs : List Check) (c : Check) (r : Register) :
    registerOwner? (cs ++ [c]) r =
      if c.param? = some r then some c.owner
      else (registerOwner? cs r).or (if c.dest? = some r then some c.owner else none) := by
  rw [registerOwner?, List.reverse_concat, List.find?_cons, List.find?_append]
  by_cases hparam : c.param? = some r
  · simp [hparam]
  · by_cases hdest : c.dest? = some r <;> simp [hparam, hdest, registerOwner?, Option.map_or]

/-- A number has an owner exactly if an earlier check has it. -/
theorem isSome_blockOwner? {cs : List Check} {id : BlockId} :
    (blockOwner? cs id).isSome = true ↔ ∃ c ∈ cs, id ∈ c.blockId? := by
  simp [blockOwner?]

/-- A register has an owner exactly if it is a parameter or the destination of an earlier check. -/
theorem isSome_registerOwner? {cs : List Check} {r : Register} :
    (registerOwner? cs r).isSome = true ↔ ∃ c ∈ cs, r ∈ c.param? ∨ r ∈ c.dest? := by
  simp [registerOwner?, exists_or, and_or_left]

/-- A complaint is made exactly about a check that fails. -/
theorem Check.isSome_complaint?_iff {before : List Check} {c : Check} :
    (c.complaint? before).isSome = true ↔ c.Fails before := by
  cases c with
  | name f =>
      have hfails : (Check.name f).Fails before ↔ ∃ c ∈ before, c.name? = some f.name := by
        simp [Fails, Flawed, Clashes, name?, blockId?, dest?]
      rw [hfails, complaint?]
      split
      · next h =>
          exact ⟨fun _ => h, fun _ => rfl⟩
      · next h =>
          exact ⟨nofun, fun h' => absurd h' h⟩
  | block f b =>
      simp [complaint?, Fails, Flawed, Clashes, name?, blockId?, dest?, isSome_blockOwner?]
  | instruction f b i =>
      cases hdest : i.dest? <;>
        simp [complaint?, Fails, Flawed, Clashes, name?, blockId?, dest?, hdest,
          isSome_registerOwner?]
  | _ =>
      simp [complaint?, Fails, Flawed, Clashes, name?, blockId?, dest?]

end Complaints

namespace Visit

section Steps

/-- Makes a check. -/
def check (v : Visit) : Check → Visit
  | .name f =>
    { v.require (!v.functions.contains f.name) [] 0 (.duplicateFunction f.name) with
      functions := v.functions.insert f.name }
  | .entry f => v.require f.entryBlock?.isSome f.name f.entry .entryMissing
  | .param f p => { v with registers := v.registers.insert p.register f.name }
  | .block f b =>
    { v.require v.blocks[b.id]?.isNone f.name b.id (.blockReused (v.blocks.getD b.id [])) with
      blocks := v.blocks.insert b.id f.name }
  | .exit f b => v.require b.terminated f.name b.id .unterminated
  | .target f b t => v.require (f.block? t).isSome f.name b.id (.targetMissing t)
  | .instruction f b i => v.instruction f.name b.id i

/-- A report leaves what the visit knows as it is. -/
theorem blocks_require
    (v : Visit)
    (holds : Bool)
    (function : Text)
    (block : BlockId)
    (p : Problem) :
    (v.require holds function block p).blocks = v.blocks := by
  cases holds <;> rfl

theorem functions_require
    (v : Visit)
    (holds : Bool)
    (function : Text)
    (block : BlockId)
    (p : Problem) :
    (v.require holds function block p).functions = v.functions := by
  cases holds <;> rfl

theorem registers_require
    (v : Visit)
    (holds : Bool)
    (function : Text)
    (block : BlockId)
    (p : Problem) :
    (v.require holds function block p).registers = v.registers := by
  cases holds <;> rfl

/-- Visiting a block is making its checks. -/
theorem block_eq_foldl (f : Function) (v : Visit) (b : Block) :
    v.block f b = (b.checks f).foldl check v := by
  rw [block, Block.checks, List.foldl_cons, List.foldl_cons, List.foldl_append, List.foldl_map,
    List.foldl_map, ← Array.foldl_toList]
  congr 2
  simp only [check]
  cases hid : v.blocks[b.id]? with
  | none =>
      rfl
  | some owner =>
      simp [require, Std.HashMap.getD_eq_getD_getElem?, hid]

/-- The parameters of a function only give their registers an owner. -/
theorem foldl_params (f : Function) (ps : List Param) (v : Visit) :
    (ps.map (.param f)).foldl check v =
      { v with registers := ps.foldl (fun rs p => rs.insert p.register f.name) v.registers } := by
  induction ps generalizing v with
  | nil =>
      rfl
  | cons p ps ih =>
      rw [List.map_cons, List.foldl_cons, ih]
      rfl

/-- Visiting a function is making its checks. -/
theorem function_eq_foldl (v : Visit) (f : Function) :
    v.function f = f.checks.foldl check v := by
  rw [function, Function.checks, List.foldl_cons]
  cases f.external with
  | true =>
      simp [check, functions_require]
  | false =>
      have hblock : block f = fun v b => (b.checks f).foldl check v :=
        funext₂ (block_eq_foldl f)
      rw [if_neg (by simp), if_neg (by simp), List.foldl_cons, List.foldl_append, foldl_params,
        ← Array.foldl_toList, List.foldl_flatMap, hblock]
      simp only [check, functions_require]

end Steps

section Runs

/-- What a visit knows after some checks: their names, the last function of each block and the
function of each register, and the complaints so far. -/
structure Made (cs : List Check) (v : Visit) : Prop where
  functions : ∀ name, name ∈ v.functions ↔ ∃ c ∈ cs, c.name? = some name
  blocks : ∀ id, v.blocks[id]? = blockOwner? cs id
  registers : ∀ r, v.registers[r]? = registerOwner? cs r
  errors : v.errors.toList = complaints cs

/-- The last check adds its own complaint. -/
theorem complaints_concat (cs : List Check) (c : Check) :
    complaints (cs ++ [c]) = complaints cs ++ (c.complaint? cs).toList := by
  rw [complaints, withEarlier_concat, List.filterMap_append]
  cases h : c.complaint? cs <;> simp [complaints, h]

/-- A report is the last of the errors. -/
theorem errors_require
    (v : Visit)
    (holds : Bool)
    (function : Text)
    (block : BlockId)
    (p : Problem) :
    (v.require holds function block p).errors.toList =
      v.errors.toList ++ if holds then [] else [⟨function, block, p⟩] := by
  cases holds <;> simp [require]

/-- A function finds a block exactly if one of its blocks has the number. -/
theorem isSome_block?_iff (f : Function) (id : BlockId) :
    (f.block? id).isSome = true ↔ id ∈ f.blockIds := by
  simp [Function.block?, Function.blockIds]

/-- A check takes the name that it is about. -/
theorem mem_functions_check (v : Visit) (c : Check) (name : Text) :
    name ∈ (v.check c).functions ↔ name ∈ v.functions ∨ c.name? = some name := by
  cases c with
  | name f =>
      simp [check, Check.name?, or_comm]
  | instruction f b i =>
      simp only [check, instruction]
      split
      · simp [Check.name?]
      · split <;> simp [functions_require, Check.name?]
  | _ =>
      simp [check, functions_require, Check.name?]

/-- A check takes the number that it is about. -/
theorem blocks_check (v : Visit) (c : Check) (id : BlockId) :
    (v.check c).blocks[id]? = if c.blockId? = some id then some c.owner else v.blocks[id]? := by
  cases c with
  | block f b =>
      simp [check, Std.HashMap.getElem?_insert, Check.blockId?, Check.owner]
  | instruction f b i =>
      simp only [check, instruction]
      split
      · simp [Check.blockId?]
      · split <;> simp [blocks_require, Check.blockId?]
  | _ =>
      simp [check, blocks_require, Check.blockId?]

/-- A check takes the register of a parameter, and that of an instruction if nobody has it. -/
theorem registers_check (v : Visit) (c : Check) (r : Register) :
    (v.check c).registers[r]? =
      if c.param? = some r then some c.owner
      else v.registers[r]?.or (if c.dest? = some r then some c.owner else none) := by
  cases c with
  | param f p =>
      simp [check, Std.HashMap.getElem?_insert, Check.param?, Check.dest?, Check.owner]
  | instruction f b i =>
      simp only [check, instruction, Check.param?, Check.dest?, Check.owner]
      split
      · next hdest =>
          simp [hdest]
      · next q hdest =>
          split
          · next owner howner =>
              rw [registers_require]
              by_cases hq : q = r
              · subst hq
                simp [howner]
              · simp [hdest, hq]
          · next howner =>
              rw [Std.HashMap.getElem?_insert]
              by_cases hq : q = r
              · subst hq
                simp [howner, hdest]
              · simp [hdest, hq]
  | _ =>
      simp [check, registers_require, Check.param?, Check.dest?]

/-- A check adds its complaint to the errors of a visit that has made the earlier ones. -/
theorem errors_check
    {cs : List Check}
    {v : Visit}
    (h : Made cs v)
    (c : Check) :
    (v.check c).errors.toList = v.errors.toList ++ (c.complaint? cs).toList := by
  cases c with
  | name f =>
      have hname := h.functions f.name
      rw [Std.HashSet.mem_iff_contains] at hname
      simp only [check, errors_require, Check.complaint?, ← hname]
      cases v.functions.contains f.name <;> rfl
  | entry f =>
      simp only [check, errors_require, Check.complaint?, Function.entryBlock?,
        ← isSome_block?_iff]
      cases (f.block? f.entry).isSome <;> rfl
  | param f p =>
      exact (List.append_nil _).symm
  | block f b =>
      have hid := h.blocks b.id
      simp only [check, errors_require, Check.complaint?, Std.HashMap.getD_eq_getD_getElem?, hid]
      cases blockOwner? cs b.id <;> rfl
  | exit f b =>
      simp only [check, errors_require, Check.complaint?]
      cases b.terminated <;> rfl
  | target f b t =>
      simp only [check, errors_require, Check.complaint?, ← isSome_block?_iff]
      cases (f.block? t).isSome <;> rfl
  | instruction f b i =>
      simp only [check, instruction, Check.complaint?]
      cases i.dest? with
      | none =>
          exact (List.append_nil _).symm
      | some r =>
          simp only [h.registers r, Option.bind_some]
          cases registerOwner? cs r with
          | none =>
              exact (List.append_nil _).symm
          | some owner =>
              exact errors_require v _ _ _ _

/-- A check adds what it looks at to what is known, and its complaint to the others. -/
theorem Made.check
    {cs : List Check}
    {v : Visit}
    (h : Made cs v)
    (c : Check) :
    Made (cs ++ [c]) (v.check c) where
  functions := by
    intro name
    rw [mem_functions_check, h.functions]
    simp [or_and_right, exists_or]
  blocks := by
    intro id
    rw [blocks_check, h.blocks, blockOwner?_concat]
  registers := by
    intro r
    rw [registers_check, h.registers, registerOwner?_concat]
  errors := by
    rw [errors_check h, h.errors, complaints_concat]

/-- A visit that makes checks one after the other knows all of them: each step keeps what is known.
-/
theorem made_foldl (cs : List Check) : Made cs (cs.foldl check {}) := by
  induction cs using List.reverseRecOn with
  | nil =>
      exact ⟨by simp, by simp [blockOwner?], by simp [registerOwner?], rfl⟩
  | append_singleton cs c ih =>
      rw [List.foldl_append]
      exact ih.check c

end Runs

end Visit

section Reports

/-- The errors of a module are the complaints of its checks. -/
theorem validate_eq (m : Module) : m.validate = complaints m.checks := by
  have hfunction : Visit.function = fun v f => f.checks.foldl Visit.check v :=
    funext₂ Visit.function_eq_foldl
  rw [Module.validate, ← Array.foldl_toList, hfunction, ← List.foldl_flatMap]
  exact (Visit.made_foldl m.checks).errors

/-- There are no complaints exactly if no check is flawed and none clashes with an earlier one. -/
theorem complaints_eq_nil_iff (cs : List Check) :
    complaints cs = [] ↔ (∀ c ∈ cs, ¬ c.Flawed) ∧ cs.Pairwise fun c d => ¬ c.Clashes d := by
  rw [complaints, List.filterMap_eq_nil_iff,
    ← forall_snd_withEarlier_iff (p := fun c : Check => ¬ c.Flawed), ← forall_withEarlier_iff,
    ← forall₂_and]
  refine forall₂_congr fun s _ => ?_
  rw [← Option.not_isSome_iff_eq_none, Check.isSome_complaint?_iff, Check.Fails, not_or]
  simp

/-- Two checks do not clash if they share no name, no number and no register. -/
theorem not_clashes_iff {c d : Check} :
    ¬ c.Clashes d ↔ (∀ n ∈ c.name?, n ∉ d.name?) ∧ (∀ id ∈ c.blockId?, id ∉ d.blockId?) ∧
      (∀ r ∈ c.param?, r ∉ d.dest?) ∧ ∀ r ∈ c.dest?, r ∉ d.dest? := by
  simp [Check.Clashes]

end Reports

section Validity

variable (m : Module)

/-- Nothing is wrong with a module. -/
structure Module.WellFormed : Prop where
  names : (m.functions.toList.map Function.name).Nodup
  entries : ∀ f ∈ m.bodies, f.entry ∈ f.blockIds
  blocks : (m.bodies.flatMap Function.blockIds).Nodup
  exits : ∀ f ∈ m.bodies, ∀ b ∈ f.blocks, b.terminated = true
  targets : ∀ f ∈ m.bodies, ∀ b ∈ f.blocks, ∀ t ∈ b.terminator.successors, t ∈ f.blockIds
  dests : (m.bodies.flatMap Function.dests).Nodup
  ownParams : ∀ f ∈ m.bodies, ∀ p ∈ f.params, p.register ∉ f.dests
  earlierParams : m.bodies.Pairwise fun f g => ∀ p ∈ f.params, p.register ∉ g.dests

/-- What only the functions with a body have. -/
theorem flatMap_external {α : Type} (g : Function → List α) :
    (m.functions.toList.flatMap fun f => if f.external then [] else g f) = m.bodies.flatMap g := by
  rw [Module.bodies]
  induction m.functions.toList with
  | nil =>
      rfl
  | cons f fs ih =>
      cases h : f.external <;> simp [h, ih]

/-- What is read off the checks of a block. -/
theorem filterMap_block {α : Type} (read : Check → Option α) (f : Function) (b : Block) :
    (b.checks f).filterMap read = (read (.block f b)).toList ++ ((read (.exit f b)).toList ++
      ((b.terminator.successors.filterMap fun t => read (.target f b t)) ++
        b.instructions.toList.filterMap fun i => read (.instruction f b i))) := by
  simp only [List.filterMap_eq_flatMap_toList, Block.checks, List.flatMap_cons,
    List.flatMap_append, List.flatMap_map]

/-- What is read off the checks of a function. -/
theorem filterMap_function {α : Type} (read : Check → Option α) (f : Function) :
    f.checks.filterMap read = (read (.name f)).toList ++ if f.external then [] else
      (read (.entry f)).toList ++ ((f.params.filterMap fun p => read (.param f p)) ++
        f.blocks.toList.flatMap fun b => (b.checks f).filterMap read) := by
  cases h : f.external <;>
    simp [Function.checks, h, List.filterMap_eq_flatMap_toList, List.flatMap_map,
      List.flatMap_assoc]

/-- The names that are checked are those of all functions, external ones included. -/
theorem names_checks : m.checks.filterMap Check.name? = m.functions.toList.map Function.name := by
  have hblock : ∀ f b, (Block.checks f b).filterMap Check.name? = [] := by
    intro f b
    simp [filterMap_block, Check.name?]
  have hfunction : ∀ f : Function, f.checks.filterMap Check.name? = [f.name] := by
    intro f
    simp [filterMap_function, hblock, Check.name?]
  simp [Module.checks, List.filterMap_flatMap, hfunction, List.map_eq_flatMap]

/-- The numbers that are checked are those of the blocks of all functions with a body. -/
theorem blockIds_checks :
    m.checks.filterMap Check.blockId? = m.bodies.flatMap Function.blockIds := by
  have hblock : ∀ f b, (Block.checks f b).filterMap Check.blockId? = [b.id] := by
    intro f b
    simp [filterMap_block, Check.blockId?]
  rw [← flatMap_external]
  simp [Module.checks, List.filterMap_flatMap, filterMap_function, hblock, Check.blockId?,
    Function.blockIds, List.map_eq_flatMap]

/-- The destinations that are checked in a block are those of its instructions. -/
theorem dests_block (f : Function) (b : Block) :
    (b.checks f).filterMap Check.dest? = b.dests := by
  simp [filterMap_block, Check.dest?, Block.dests]

/-- The destinations that are checked are those of all functions with a body. -/
theorem dests_checks : m.checks.filterMap Check.dest? = m.bodies.flatMap Function.dests := by
  rw [← flatMap_external]
  simp [Module.checks, List.filterMap_flatMap, filterMap_function, dests_block, Check.dest?,
    Function.dests]

/-- Nothing is read twice exactly if no check shares what is read with a later one. -/
theorem nodup_filterMap_iff {α : Type} {read : Check → Option α} {cs : List Check} :
    (cs.filterMap read).Nodup ↔ cs.Pairwise fun c d => ∀ x ∈ read c, x ∉ read d := by
  rw [List.Nodup, List.pairwise_filterMap]
  refine List.Pairwise.iff fun c d => ⟨fun h x hx hx' => h x hx x hx' rfl, ?_⟩
  rintro h x hx y hy rfl
  exact h x hx hy

/-- A block has no parameters. -/
theorem params_block (f : Function) (b : Block) :
    (b.checks f).filterMap Check.param? = [] := by
  simp [filterMap_block, Check.param?]

/-- The parameters that are checked are those of the functions with a body. -/
theorem mem_params_checks {f : Function} {r : Register} :
    (∃ c ∈ f.checks, c.param? = some r) ↔
      f.external = false ∧ ∃ p ∈ f.params, p.register = r := by
  rw [← List.mem_filterMap, filterMap_function]
  cases f.external <;> simp [params_block, Check.param?]

/-- The destinations that are checked in a function are its own, if it has a body. -/
theorem mem_dests_checks {f : Function} {r : Register} :
    (∃ c ∈ f.checks, c.dest? = some r) ↔ f.external = false ∧ r ∈ f.dests := by
  rw [← List.mem_filterMap, filterMap_function]
  cases f.external <;> simp [dests_block, Check.dest?, Function.dests]

/-- In a function the parameters come before the instructions. -/
theorem pairwise_params_checks {f : Function} :
    (f.checks.Pairwise fun c d => ∀ r ∈ c.param?, r ∉ d.dest?) ↔
      (f.external = false → ∀ p ∈ f.params, p.register ∉ f.dests) := by
  cases h : f.external with
  | true =>
      simp [Function.checks, h]
  | false =>
      have hsplit : f.checks = (.name f :: .entry f :: f.params.map (.param f)) ++
          f.blocks.toList.flatMap (Block.checks f) := by
        simp [Function.checks, h]
      have hfront : ∀ d ∈ (.name f :: .entry f :: f.params.map (.param f) : List Check),
          d.dest? = none := by
        simp [Check.dest?]
      have hback : ∀ c ∈ f.blocks.toList.flatMap (Block.checks f), c.param? = none := by
        intro c hc
        obtain ⟨b, -, hc⟩ := List.mem_flatMap.mp hc
        exact List.filterMap_eq_nil_iff.mp (params_block f b) c hc
      rw [hsplit, List.pairwise_append]
      constructor
      · rintro ⟨-, -, hcross⟩ - p hp hmem
        obtain ⟨b, hb, hmem⟩ := List.mem_flatMap.mp hmem
        rw [← dests_block f b] at hmem
        obtain ⟨d, hd, hdest⟩ := List.mem_filterMap.mp hmem
        exact hcross (.param f p) (by simp [hp]) d (List.mem_flatMap.mpr ⟨b, hb, hd⟩) _ rfl hdest
      · intro hparams
        refine ⟨?_, ?_, ?_⟩
        · exact List.pairwise_of_forall_mem_list fun c _ d hd r _ => by simp [hfront d hd]
        · exact List.pairwise_of_forall_mem_list fun c hc d _ r hr => by simp [hback c hc] at hr
        · intro c hc d hd r hparam hdest
          obtain ⟨b, hb, hd⟩ := List.mem_flatMap.mp hd
          have hmem : r ∈ f.dests := by
            rw [Function.dests, List.mem_flatMap]
            exact ⟨b, hb, dests_block f b ▸ List.mem_filterMap.mpr ⟨d, hd, hdest⟩⟩
          simp only [List.mem_cons, List.mem_map] at hc
          obtain rfl | rfl | ⟨p, hp, rfl⟩ := hc
          · cases hparam
          · cases hparam
          · cases hparam
            exact hparams rfl p hp hmem

/-- What an earlier function has for a parameter, a later one does not write. -/
theorem params_checks_of_functions {f g : Function} :
    (∀ c ∈ f.checks, ∀ d ∈ g.checks, ∀ r ∈ c.param?, r ∉ d.dest?) ↔
      (f.external = false → g.external = false → ∀ p ∈ f.params, p.register ∉ g.dests) := by
  constructor
  · intro h hf hg p hp hmem
    obtain ⟨c, hc, hparam⟩ := mem_params_checks.mpr ⟨hf, p, hp, rfl⟩
    obtain ⟨d, hd, hdest⟩ := mem_dests_checks.mpr ⟨hg, hmem⟩
    exact h c hc d hd _ hparam hdest
  · intro h c hc d hd r hparam hdest
    obtain ⟨hf, p, hp, rfl⟩ := mem_params_checks.mp ⟨c, hc, hparam⟩
    obtain ⟨hg, hmem⟩ := mem_dests_checks.mp ⟨d, hd, hdest⟩
    exact h hf hg p hp hmem

/-- No check has a parameter that a later one writes exactly if no function writes a parameter of
its own or of an earlier function. -/
theorem pairwise_params_iff :
    (m.checks.Pairwise fun c d => ∀ r ∈ c.param?, r ∉ d.dest?) ↔
      (∀ f ∈ m.bodies, ∀ p ∈ f.params, p.register ∉ f.dests) ∧
        m.bodies.Pairwise fun f g => ∀ p ∈ f.params, p.register ∉ g.dests := by
  rw [Module.checks, List.pairwise_flatMap, Module.bodies, List.pairwise_filter]
  simp only [pairwise_params_checks, params_checks_of_functions, List.mem_filter,
    Bool.not_eq_true', and_imp]

/-- The checks of a block find nothing missing exactly if it is closed and leads to blocks of its
function. -/
theorem forall_block_not_flawed_iff {f : Function} {b : Block} :
    (∀ c ∈ b.checks f, ¬ c.Flawed) ↔
      b.terminated = true ∧ ∀ t ∈ b.terminator.successors, t ∈ f.blockIds := by
  simp only [Block.checks, List.forall_mem_cons, List.forall_mem_append, List.forall_mem_map]
  simp [Check.Flawed]

/-- The checks of a module find nothing missing exactly if every body has its entry, and every block
is closed and leads to blocks of its function. -/
theorem forall_not_flawed_iff :
    (∀ c ∈ m.checks, ¬ c.Flawed) ↔ ∀ f ∈ m.bodies, f.entry ∈ f.blockIds ∧
      ∀ b ∈ f.blocks, b.terminated = true ∧ ∀ t ∈ b.terminator.successors, t ∈ f.blockIds := by
  have hfunction : ∀ f : Function, (∀ c ∈ f.checks, ¬ c.Flawed) ↔ (f.external = false →
      f.entry ∈ f.blockIds ∧ ∀ b ∈ f.blocks, b.terminated = true ∧
        ∀ t ∈ b.terminator.successors, t ∈ f.blockIds) := by
    intro f
    cases h : f.external with
    | true =>
        simp [Function.checks, h, Check.Flawed]
    | false =>
        simp only [Function.checks, h, Bool.false_eq_true, if_false, List.forall_mem_cons,
          List.forall_mem_append, List.forall_mem_map, List.forall_mem_flatMap,
          forall_block_not_flawed_iff]
        simp [Check.Flawed]
  simp only [Module.checks, List.forall_mem_flatMap, hfunction, Module.bodies, List.mem_filter,
    Bool.not_eq_true', and_imp]

/-- The validation finds nothing wrong exactly with a well-formed module. -/
theorem validate_eq_nil_iff : m.validate = [] ↔ m.WellFormed := by
  rw [validate_eq, complaints_eq_nil_iff, forall_not_flawed_iff]
  simp only [not_clashes_iff, List.pairwise_and_iff, ← nodup_filterMap_iff, names_checks,
    blockIds_checks, dests_checks, pairwise_params_iff]
  constructor
  · rintro ⟨hbodies, hnames, hblocks, ⟨hown, hearlier⟩, hdests⟩
    exact ⟨hnames, fun f hf => (hbodies f hf).1, hblocks,
      fun f hf b hb => ((hbodies f hf).2 b hb).1, fun f hf b hb => ((hbodies f hf).2 b hb).2,
      hdests, hown, hearlier⟩
  · intro h
    exact ⟨fun f hf => ⟨h.entries f hf, fun b hb => ⟨h.exits f hf b hb, h.targets f hf b hb⟩⟩,
      h.names, h.blocks, ⟨h.ownParams, h.earlierParams⟩, h.dests⟩

/-- The functions of a valid module have different names. -/
theorem validate_names
    {m : Module}
    (h : m.validate = []) :
    (m.functions.toList.map Function.name).Nodup :=
  ((validate_eq_nil_iff m).mp h).names

/-- The blocks of a function of a valid module have different numbers. -/
theorem validate_blocks
    {m : Module}
    (h : m.validate = [])
    {f : Function}
    (hf : f ∈ m.functions)
    (hexternal : f.external = false) :
    Allocation.DistinctBlocks f := by
  have hmem : f ∈ m.bodies := by
    simp [Module.bodies, hf, hexternal]
  exact (List.nodup_flatMap.mp ((validate_eq_nil_iff m).mp h).blocks).1 f hmem

/-- Where a function gives something exactly on the elements of a kind, its results go with these
elements one by one. -/
theorem forall₂_filterMap
    {α β : Type}
    {f : α → Option β}
    {p : α → Prop}
    [DecidablePred p]
    (h : ∀ a, (f a).isSome = true ↔ p a)
    (as : List α) :
    List.Forall₂ (fun a b => f a = some b) (as.filter fun a => p a) (as.filterMap f) := by
  induction as with
  | nil =>
      exact .nil
  | cons a as ih =>
      cases ha : f a with
      | none =>
          have hp : ¬ p a := by simp [← h, ha]
          rw [List.filterMap_cons_none ha, List.filter_cons_of_neg (by simpa using hp)]
          exact ih
      | some b =>
          have hp : p a := by simp [← h, ha]
          rw [List.filterMap_cons_some ha, List.filter_cons_of_pos (by simpa using hp)]
          exact .cons ha ih

/-- The validation finds nothing wrong exactly with a well-formed module, and reports one error
for each check that fails, in the order of the checks, and no other. -/
theorem validate_exact :
    (m.validate = [] ↔ m.WellFormed) ∧
      List.Forall₂ (fun s e => s.2.complaint? s.1 = some e)
        ((withEarlier [] m.checks).filter fun s => s.2.Fails s.1) m.validate := by
  refine ⟨validate_eq_nil_iff m, ?_⟩
  rw [validate_eq, complaints]
  exact forall₂_filterMap (fun s => Check.isSome_complaint?_iff) _

/-- Two functions of one name.  The block of the first one is open and leads to a block that is
missing.  The second one takes its number and writes the register of its own parameter. -/
def tangled : Module :=
  { name := "m", functions := #[{ name := "f", blocks := #[⟨0, #[], .jump 9, false⟩] },
      { name := "f", params := [⟨1, .i64⟩], entry := 7,
        blocks := #[⟨0, #[.loadConst 1 .null], .unreachable, true⟩] }] }

example :
    tangled.validate =
      [⟨"f", 0, .unterminated⟩, ⟨"f", 0, .targetMissing 9⟩, ⟨[], 0, .duplicateFunction "f"⟩,
        ⟨"f", 7, .entryMissing⟩, ⟨"f", 0, .blockReused "f"⟩, ⟨"f", 0, .redefined 1 "f"⟩] := by
  rw [validate_eq]
  decide +kernel

end Validity

end Ir
end StackNative
