import StackNative.Proofs.Ir.Validate
import StackNative.Proofs.Lowering.Conversion

/-!
# Lowered code is straight-line code

**Input.**  A chunk that is lowered.

**Algorithm.**  The registers on the operand stack are followed together with the
instructions emitted so far.

**Results.**
* `advance_cases`: all that one instruction of the code can do.
* `Straight`: what holds of the emitted instructions and the stack, kept by every
  instruction of the code.
* `Straight.foldlM`: each instruction that is emitted writes the next register and
  reads earlier ones, each of them once.
* `convert_eq_lowered`: the module of a chunk has one function with one block of them.
* `lowered_validate`: nothing is wrong with such a module.
-/

namespace StackNative

namespace Ir

/-- An instruction that loads a constant or applies an operator to as many operands as it takes. -/
inductive Instruction.Simple (i : Instruction) : Prop
  | const : i.op = .loadConst → i.args = [] → i.Simple
  | binary {left right : Register} : i.op.isBinary = true → i.args = [left, right] → i.Simple
  | unary {operand : Register} : i.op.isUnary = true → i.args = [operand] → i.Simple

/-- Code in which each instruction writes the next register, reads registers that were written
before, and no register is read twice. -/
structure SingleUse (is : List Instruction) : Prop where
  dests : is.map Instruction.dest? = (List.range is.length).map fun k => some (UInt32.ofNat k)
  earlier : ∀ (k : Nat) (i : Instruction), is[k]? = some i → ∀ r ∈ i.args,
    ∃ j < k, (is[j]?).bind Instruction.dest? = some r
  once : (is.flatMap Instruction.args).Nodup

/-- The same with the registers that may still be read: they are written, and neither among them
nor among those that were read does one stand twice. -/
structure Chained (is : List Instruction) (live : List Register) : Prop where
  simple : ∀ i ∈ is, i.Simple
  dests : is.map Instruction.dest? = (List.range is.length).map fun k => some (UInt32.ofNat k)
  below : ∀ (k : Nat) (i : Instruction), is[k]? = some i → ∀ r ∈ i.args, r.toNat < k
  live_lt : ∀ r ∈ live, r.toNat < is.length
  once : (is.flatMap Instruction.args ++ live).Nodup

namespace Chained

variable {is : List Instruction} {live rest : List Register} {i : Instruction}

theorem nil : Chained [] [] where
  simple := by simp
  dests := rfl
  below := by simp
  live_lt := by simp
  once := by simp

/-- Registers that are read no more. -/
theorem drop
    (h : Chained is live)
    (hrest : rest <:+ live) :
    Chained is rest where
  simple := h.simple
  dests := h.dests
  below := h.below
  live_lt := fun r hr => h.live_lt r (hrest.subset hr)
  once := h.once.sublist (hrest.sublist.append_left _)

theorem lt_of_mem_args
    (h : Chained is live)
    {r : Register}
    (hr : r ∈ is.flatMap Instruction.args) :
    r.toNat < is.length := by
  obtain ⟨i, hi, hr⟩ := List.mem_flatMap.mp hr
  obtain ⟨k, hk, hget⟩ := List.getElem_of_mem hi
  have hlt := h.below k i (by rw [List.getElem?_eq_getElem hk, hget]) r hr
  omega

/-- One more instruction, which reads the last of the registers and writes the next one. -/
theorem emit
    (h : Chained is live)
    (hroom : is.length < 2 ^ 32)
    (hi : i.Simple)
    (hdest : i.dest? = some (UInt32.ofNat is.length))
    (hlive : live = i.args.reverse ++ rest) :
    Chained (is ++ [i]) (UInt32.ofNat is.length :: rest) := by
  subst hlive
  have hnat : (UInt32.ofNat is.length).toNat = is.length := UInt32.toNat_ofNat_of_lt' hroom
  refine ⟨?_, ?_, ?_, ?_, ?_⟩
  · intro j hj
    rcases List.mem_append.mp hj with hj | hj
    · exact h.simple j hj
    · cases List.mem_singleton.mp hj
      exact hi
  · rw [List.map_append, h.dests, List.length_append, List.length_singleton, List.range_succ,
      List.map_append, List.map_singleton, List.map_singleton, hdest]
  · intro k j hj r hr
    rcases Nat.lt_or_ge k is.length with hk | hk
    · rw [List.getElem?_append_left hk] at hj
      exact h.below k j hj r hr
    · rw [List.getElem?_append_right hk, List.getElem?_singleton] at hj
      split at hj
      · cases hj
        have hlt := h.live_lt r (List.mem_append_left _ (List.mem_reverse.mpr hr))
        omega
      · cases hj
  · intro r hr
    rw [List.length_append, List.length_singleton]
    rcases List.mem_cons.mp hr with rfl | hr
    · omega
    · have hlt := h.live_lt r (List.mem_append_right _ hr)
      omega
  · have hfresh : UInt32.ofNat is.length ∉
        is.flatMap Instruction.args ++ (i.args.reverse ++ rest) := by
      intro hmem
      rcases List.mem_append.mp hmem with hmem | hmem
      · have hlt := h.lt_of_mem_args hmem
        omega
      · have hlt := h.live_lt _ hmem
        omega
    have hperm : (is ++ [i]).flatMap Instruction.args ++ UInt32.ofNat is.length :: rest |>.Perm
        (UInt32.ofNat is.length :: (is.flatMap Instruction.args ++ (i.args.reverse ++ rest))) := by
      rw [List.flatMap_append, List.flatMap_singleton]
      refine List.perm_middle.trans (List.Perm.cons _ ?_)
      rw [List.append_assoc]
      exact ((List.reverse_perm i.args).symm.append_right rest).append_left _
    exact hperm.nodup_iff.mpr (List.nodup_cons.mpr ⟨hfresh, h.once⟩)

theorem exists_dest
    (h : Chained is live)
    (hi : i ∈ is) :
    ∃ r, i.dest? = some r := by
  have hmem : i.dest? ∈ is.map Instruction.dest? := List.mem_map_of_mem hi
  rw [h.dests] at hmem
  obtain ⟨k, -, hk⟩ := List.mem_map.mp hmem
  exact ⟨_, hk.symm⟩

theorem lt_of_mem_dest
    (h : Chained is live)
    (hi : i ∈ is)
    {r : Register}
    (hr : i.dest? = some r) :
    r.toNat < is.length := by
  have hmem : i.dest? ∈ is.map Instruction.dest? := List.mem_map_of_mem hi
  rw [h.dests, hr] at hmem
  obtain ⟨k, hk, hkr⟩ := List.mem_map.mp hmem
  cases hkr
  have hlt : k < is.length := List.mem_range.mp hk
  rw [UInt32.toNat_ofNat']
  omega

/-- The registers that an instruction reads are written by instructions before it. -/
theorem singleUse
    (h : Chained is live) :
    SingleUse is where
  dests := h.dests
  earlier := by
    intro k i hi r hr
    have hlt := h.below k i hi r hr
    have hk : k < is.length := (List.getElem?_eq_some_iff.mp hi).1
    refine ⟨r.toNat, hlt, ?_⟩
    have hdest := congrArg (fun ds => ds[r.toNat]?) h.dests
    simp only [List.getElem?_map, List.getElem?_range (show r.toNat < is.length by omega),
      Option.map_some, UInt32.ofNat_toNat] at hdest
    obtain ⟨j, hj, hdest⟩ := Option.map_eq_some_iff.mp hdest
    rw [hj, Option.bind_some, hdest]
  once := h.once.sublist (List.sublist_append_left _ _)

theorem dests_nodup
    (h : Chained is live)
    (hroom : is.length ≤ 2 ^ 32) :
    (is.filterMap Instruction.dest?).Nodup := by
  have hdests : is.filterMap Instruction.dest? = (List.range is.length).map UInt32.ofNat := by
    have hid := congrArg (List.filterMap id) h.dests
    rw [List.filterMap_map, List.filterMap_map] at hid
    simpa [Function.comp_def, List.filterMap_eq_map'] using hid
  rw [hdests, List.Nodup, List.pairwise_map]
  refine List.pairwise_lt_range.imp_of_mem ?_
  intro a b ha hb hlt heq
  have hsize : UInt32.size = 2 ^ 32 := rfl
  have ha := List.mem_range.mp ha
  have hb := List.mem_range.mp hb
  have hnat := congrArg UInt32.toNat heq
  rw [UInt32.toNat_ofNat_of_lt' (by omega), UInt32.toNat_ofNat_of_lt' (by omega)] at hnat
  omega

end Chained

end Ir

namespace Lowering

open Bytecode (Chunk Opcode Value)
open Ir (Register Module)

section Steps

/-- The operation of the instruction that an opcode emits, if it emits one. -/
def emitted? (op : Opcode) : Option Ir.Op :=
  match effect op with
  | .loadPool | .push _ => some .loadConst
  | .binary op | .unary op => some op
  | .drop | .returnTop | .returnNothing | .unsupported => none

/-- The operations that instructions of a chunk emit, each with the line of the chunk that it
comes from. -/
def emissions (c : Chunk) (is : List Bytecode.Instruction) : List (Ir.Op × Int64) :=
  is.filterMap fun i => (emitted? i.op).map fun op => (op, c.lineAt i.offset)

variable {c : Chunk} {s s' : State} {i : Bytecode.Instruction} {live : List Register}

/-- An instruction of the code emits an instruction on registers from the top of the stack, or
emits none and at most takes the top away. -/
theorem advance_cases
    (hrep : Represents some s.stack live)
    (h : s.advance c i = .ok s') :
    (∃ (j : Ir.Instruction) (o : Operands) (rest : List Register),
      s' = s.define o i.line (fun r => { j with dest := r, hasDest := true }) ∧
        emitted? i.op = some j.op ∧ j.Simple ∧ live = j.args.reverse ++ rest ∧
        Represents some o rest) ∨
      (emitted? i.op = none ∧ s'.next = s.next ∧ s'.instructions = s.instructions ∧
        ∃ rest, rest <:+ live ∧ Represents some s'.stack rest) := by
  unfold State.advance at h
  unfold emitted?
  cases heffect : effect i.op <;> simp only [heffect] at h ⊢
  case loadPool =>
      split at h
      · cases h
      · obtain ⟨k, _, h⟩ := bind_eq_ok h
        cases h
        exact Or.inl ⟨.loadConst 0 k, s.stack, live, rfl, rfl, .const rfl rfl, rfl, hrep⟩
  case push k =>
      cases h
      exact Or.inl ⟨.loadConst 0 k, s.stack, live, rfl, rfl, .const rfl rfl, rfl, hrep⟩
  case binary op =>
      obtain ⟨⟨right, o⟩, hright, h⟩ := bind_eq_ok h
      obtain ⟨⟨left, o'⟩, hleft, h⟩ := bind_eq_ok h
      cases h
      obtain ⟨b, rest, rfl, hb, hrest⟩ := hrep.pop hright
      obtain ⟨a, rest, rfl, ha, hrest'⟩ := hrest.pop hleft
      cases hb
      cases ha
      exact Or.inl ⟨.binary op 0 left right, o', rest, rfl, rfl,
        .binary (isBinary_of_effect heffect) rfl, rfl, hrest'⟩
  case unary op =>
      obtain ⟨⟨operand, o⟩, hoperand, h⟩ := bind_eq_ok h
      cases h
      obtain ⟨a, rest, rfl, ha, hrest⟩ := hrep.pop hoperand
      cases ha
      exact Or.inl ⟨.unary op 0 operand, o, rest, rfl, rfl,
        .unary (isUnary_of_effect heffect) rfl, rfl, hrest⟩
  case drop =>
      obtain ⟨⟨top, o⟩, htop, h⟩ := bind_eq_ok h
      cases h
      obtain ⟨a, rest, rfl, _, hrest⟩ := hrep.pop htop
      exact Or.inr ⟨trivial, rfl, rfl, rest, List.suffix_cons a rest, hrest⟩
  case returnTop =>
      split at h
      · cases h
        exact Or.inr ⟨trivial, rfl, rfl, live, List.suffix_refl live, hrep⟩
      · obtain ⟨⟨top, o⟩, htop, h⟩ := bind_eq_ok h
        cases h
        obtain ⟨a, rest, rfl, _, hrest⟩ := hrep.pop htop
        exact Or.inr ⟨trivial, rfl, rfl, rest, List.suffix_cons a rest, hrest⟩
  case returnNothing =>
      cases h
      exact Or.inr ⟨trivial, rfl, rfl, live, List.suffix_refl live, hrep⟩
  case unsupported =>
      cases h

end Steps

section Invariant

/-- The emitted instructions are chained, the next register is not written yet, and the stack holds
the registers that may still be read. -/
structure Straight (s : State) (live : List Register) : Prop where
  next : s.next.toNat = s.instructions.size
  chained : Ir.Chained s.instructions.toList live
  stack : Represents some s.stack live

variable {c : Chunk} {s s' : State} {live rest : List Register} {j : Ir.Instruction}

theorem straight_begin : Straight begin [] where
  next := rfl
  chained := .nil
  stack := ⟨Operands.recorded_empty, rfl, by simp [begin]⟩

theorem Straight.define
    (h : Straight s live)
    (hroom : s.instructions.size + 1 < 2 ^ 32)
    (hj : j.Simple)
    (hlive : live = j.args.reverse ++ rest)
    {o : Operands}
    (ho : Represents some o rest)
    (line : Int64) :
    Straight (s.define o line fun r => { j with dest := r, hasDest := true }) (s.next :: rest) := by
  have hnext : (s.next + 1).toNat = s.next.toNat + 1 := by
    have hlt := h.next
    rw [UInt32.toNat_add]
    simp
    omega
  have hfresh : s.next = UInt32.ofNat s.instructions.toList.length := by
    rw [Array.length_toList, ← h.next, UInt32.ofNat_toNat]
  refine ⟨?_, ?_, ho.push rfl⟩
  · simp only [State.define, State.mint, Array.size_push, hnext, h.next]
  · simp only [State.define, State.mint, Array.toList_push]
    rw [hfresh]
    refine h.chained.emit ?_ ?_ rfl hlive
    · rw [Array.length_toList]
      omega
    · cases hj with
      | const hop hargs => exact .const hop hargs
      | binary hop hargs => exact .binary hop hargs
      | unary hop hargs => exact .unary hop hargs

/-- One instruction of the code keeps the invariant, and emits what its opcode says. -/
theorem Straight.advance
    {i : Bytecode.Instruction}
    (h : Straight s live)
    (hroom : s.instructions.size + 1 < 2 ^ 32)
    (hline : i.line = c.lineAt i.offset)
    (hs' : s.advance c i = .ok s') :
    (∃ live', Straight s' live') ∧ s'.instructions.size ≤ s.instructions.size + 1 ∧
      s'.instructions.toList.map (fun j => (j.op, j.line)) =
        s.instructions.toList.map (fun j => (j.op, j.line)) ++ emissions c [i] := by
  rcases advance_cases h.stack hs' with
    ⟨j, o, rest, rfl, hop, hj, hlive, ho⟩ | ⟨hop, hnext, hinstructions, rest, hrest, ho⟩
  · refine ⟨⟨_, h.define hroom hj hlive ho i.line⟩, ?_, ?_⟩
    · simp [State.define, State.mint]
    · simp [State.define, State.mint, emissions, hop, Ir.Instruction.withLine, hline]
  · refine ⟨⟨rest, ?_, ?_, ho⟩, ?_, ?_⟩
    · rw [hnext, hinstructions]
      exact h.next
    · rw [hinstructions]
      exact h.chained.drop hrest
    · rw [hinstructions]
      exact Nat.le_succ _
    · simp [hinstructions, emissions, hop]

/-- Instructions of the code keep the invariant, and emit what their opcodes say. -/
theorem Straight.foldlM
    (is : List Bytecode.Instruction)
    (h : Straight s live)
    (hroom : s.instructions.size + is.length < 2 ^ 32)
    (hlines : ∀ i ∈ is, i.line = c.lineAt i.offset)
    (hs' : is.foldlM (State.advance c) s = .ok s') :
    (∃ live', Straight s' live') ∧ s'.instructions.size ≤ s.instructions.size + is.length ∧
      s'.instructions.toList.map (fun j => (j.op, j.line)) =
        s.instructions.toList.map (fun j => (j.op, j.line)) ++ emissions c is := by
  induction is generalizing s live with
  | nil =>
      cases hs'
      exact ⟨⟨live, h⟩, Nat.le_refl _, by simp [emissions]⟩
  | cons i is ih =>
      rw [List.foldlM_cons] at hs'
      obtain ⟨s₁, hs₁, hs'⟩ := bind_eq_ok hs'
      rw [List.length_cons] at hroom
      obtain ⟨⟨live₁, h₁⟩, hsize₁, htrace₁⟩ :=
        h.advance (by omega) (hlines i List.mem_cons_self) hs₁
      obtain ⟨hstraight, hsize, htrace⟩ :=
        ih h₁ (by omega) (fun i hi => hlines i (List.mem_cons_of_mem _ hi)) hs'
      refine ⟨hstraight, ?_, ?_⟩
      · rw [List.length_cons]
        omega
      · rw [htrace, htrace₁, List.append_assoc, emissions, emissions, ← List.filterMap_append]
        rfl

end Invariant

section Modules

/-- The function whose only block has the instructions and the terminator of a state. -/
def loweredFunction (s : State) : Ir.Function where
  name := entryName
  returnType := .i64
  blocks := #[⟨0, s.instructions, s.terminator.getD .unreachable, s.terminator.isSome⟩]
  exported := true

/-- The module with that function alone. -/
def lowered (name : Text) (s : State) : Module where
  name := name
  functions := #[loweredFunction s]
  nextRegister := s.next
  nextBlock := 1

variable {name : Text} {c : Chunk} {m : Module}

theorem line_of_decode
    {offset : Nat} {i : Bytecode.Instruction}
    (h : c.decode offset = .ok i) :
    i.line = c.lineAt i.offset := by
  unfold Chunk.decode at h
  split at h
  · cases h
  · split at h
    · cases h
    · split at h
      · cases h
      · cases h
        rfl

theorem line_of_mem_instructionsFrom
    {offset : Nat} {done is : Array Bytecode.Instruction}
    (hdone : ∀ i ∈ done, i.line = c.lineAt i.offset)
    (h : c.instructionsFrom offset done = .ok is) :
    ∀ i ∈ is, i.line = c.lineAt i.offset := by
  fun_induction Bytecode.Chunk.instructionsFrom c offset done with
  | case1 offset done hlt e hdecode =>
      cases h
  | case2 offset done hlt i hdecode ih =>
      exact ih (Array.forall_mem_push.mpr ⟨line_of_decode hdecode, hdone⟩) h
  | case3 offset done hge =>
      cases h
      exact hdone

/-- The module of a chunk is that of the state after all its instructions. -/
theorem convert_eq_lowered
    (h : convert name c = .ok m) :
    ∃ is s, c.instructions = .ok is ∧ (∀ i ∈ is, i.line = c.lineAt i.offset) ∧
      is.length ≤ c.length ∧ is.foldlM (State.advance c) begin = .ok s ∧
      m = lowered name s.finish := by
  have hrun : ∃ s, run c 0 begin = (s, none) ∧ m = lowered name s := by
    unfold convert lower at h
    split at h
    · cases h
    · next m' o hlower =>
        cases h
        unfold lowerOnto at hlower
        simp only [Ir.Module.freshFunction, Ir.Module.newBlockId] at hlower
        cases hrun : run c 0 ⟨0, {}, #[], none⟩ with
        | mk s e =>
            rw [hrun] at hlower
            cases hlower
            exact ⟨s, hrun, rfl⟩
  obtain ⟨s', hrun, rfl⟩ := hrun
  obtain ⟨is, s, hdecode, hcount, hfold, rfl⟩ := run_ok hrun
  refine ⟨is, s, ?_, ?_, hcount, hfold, rfl⟩
  · rw [Bytecode.Chunk.instructions, hdecode]
    simp [Except.map]
  · intro i hi
    exact line_of_mem_instructionsFrom (by simp) (hdecode #[]) i (by simpa using hi)

/-- The code ends by loading zero into the last register. -/
theorem Straight.finish
    {s : State} {live : List Register}
    (h : Straight s live)
    (hroom : s.instructions.size + 1 < 2 ^ 32) :
    Ir.Chained s.finish.instructions.toList (s.next :: live) ∧
      s.finish.next.toNat = s.finish.instructions.size := by
  have hdefine := h.define (j := .loadConst 0 (.int 0)) hroom (.const rfl rfl) rfl h.stack 0
  exact ⟨hdefine.chained, hdefine.next⟩

theorem lowered_validate
    {s : State} {live : List Register} {r : Register}
    (name : Text)
    (h : Ir.Chained s.instructions.toList live)
    (hroom : s.instructions.size ≤ 2 ^ 32)
    (hterminator : s.terminator = some (.ret (some r))) :
    (lowered name s).validate = [] := by
  have hnodup := h.dests_nodup (by rwa [Array.length_toList])
  have hbodies : (lowered name s).bodies = [loweredFunction s] := rfl
  exact (Ir.validate_eq_nil_iff _).mpr
    { names := by simp [lowered]
      entries := by simp [hbodies, loweredFunction, Ir.Function.blockIds]
      blocks := by simp [hbodies, loweredFunction, Ir.Function.blockIds]
      exits := by simp [hbodies, loweredFunction, hterminator]
      targets := by
        simp [hbodies, loweredFunction, hterminator, Ir.Terminator.successors]
      dests := by
        simpa [hbodies, loweredFunction, Ir.Function.dests, Ir.Block.dests] using hnodup
      ownParams := by simp [hbodies, loweredFunction]
      earlierParams := by simp [hbodies] }

end Modules

end Lowering
end StackNative
