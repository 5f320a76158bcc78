import StackNative.Proofs.Lowering.StackMachine

/-!
# Whole chunks

**Input.**  A chunk, read from its beginning to its end.

**Results.**
* `run_ok`: code that is lowered is decoded to its end, and its instructions are
  taken one after the other.
* `convert_simulates`: every prefix of the code leaves the lowering and the stack
  machine in agreement, and the error of a missing entry never arises.
-/

namespace StackNative
namespace Lowering

open Bytecode (Chunk Opcode Value)
open Ir (Register Module)

universe u

variable {α : Type u}

section Prefixes

/-- The state after instructions. -/
def stateAfter (c : Chunk) (is : List Bytecode.Instruction) : Except LoweringError State :=
  is.foldlM (State.advance c) begin

/-- After some instructions the stack machine has run them, the instructions emitted by then
evaluate, the table has an entry for each depth of the stack and for no other, and the register at
each depth has the value that the machine has at that depth. -/
def AgreesAfter (m : Meaning α) (c : Chunk) (is : List Bytecode.Instruction)
    (emitted : List Ir.Instruction) : Prop :=
  ∃ s stack env, stateAfter c is = .ok s ∧ machineRun m c is = some stack ∧
    s.instructions.toList <+: emitted ∧ evaluate m s.instructions.toList = some env ∧
    s.stack.depth = stack.length ∧ (∀ d, d ∈ s.stack.registers ↔ d < s.stack.depth) ∧
    ∀ d < s.stack.depth, ∃ r v, s.stack.registers[d]? = some r ∧ env r = some v ∧
      stack.reverse[d]? = some v

end Prefixes

section Runs

/-- An instruction keeps the table recorded and what is emitted, and emits at most one more. -/
theorem advance_ok
    {c : Chunk} {s s' : State} {i : Bytecode.Instruction}
    (h : s.stack.Recorded)
    (hs' : s.advance c i = .ok s') :
    s'.stack.Recorded ∧ s.instructions.toList <+: s'.instructions.toList ∧
      s'.instructions.size ≤ s.instructions.size + 1 := by
  have hdefine : ∀ (o : Operands) (instruction : Register → Ir.Instruction), o.Recorded →
      (s.define o i.line instruction).stack.Recorded ∧
        s.instructions.toList <+: (s.define o i.line instruction).instructions.toList ∧
        (s.define o i.line instruction).instructions.size ≤ s.instructions.size + 1 := by
    intro o instruction ho
    refine ⟨ho.push s.next, ?_, ?_⟩
    · simp [State.define, State.mint]
    · simp [State.define, State.mint]
  have hkeep : ∀ (o : Operands) (t : Option Ir.Terminator), o.Recorded →
      o.Recorded ∧ s.instructions.toList <+:
        ({ s with stack := o, terminator := t } : State).instructions.toList ∧
        s.instructions.size ≤ s.instructions.size + 1 :=
    fun o _ ho => ⟨ho, List.prefix_refl _, Nat.le_succ _⟩
  unfold State.advance at hs'
  cases heffect : effect i.op <;> simp only [heffect] at hs'
  case loadPool =>
      split at hs'
      · cases hs'
      · obtain ⟨k, _, hs'⟩ := bind_eq_ok hs'
        cases hs'
        exact hdefine s.stack _ h
  case push k =>
      cases hs'
      exact hdefine s.stack _ h
  case binary op =>
      obtain ⟨⟨right, o⟩, hright, hs'⟩ := bind_eq_ok hs'
      obtain ⟨⟨left, o'⟩, hleft, hs'⟩ := bind_eq_ok hs'
      cases hs'
      exact hdefine o' _ ((h.pop hright).pop hleft)
  case unary op =>
      obtain ⟨⟨operand, o⟩, hoperand, hs'⟩ := bind_eq_ok hs'
      cases hs'
      exact hdefine o _ (h.pop hoperand)
  case drop =>
      obtain ⟨⟨top, o⟩, htop, hs'⟩ := bind_eq_ok hs'
      cases hs'
      exact hkeep o s.terminator (h.pop htop)
  case returnTop =>
      split at hs'
      · cases hs'
        exact hkeep s.stack (some (.ret none)) h
      · obtain ⟨⟨top, o⟩, htop, hs'⟩ := bind_eq_ok hs'
        cases hs'
        exact hkeep o (some (.ret (some top))) (h.pop htop)
  case returnNothing =>
      cases hs'
      exact hkeep s.stack (some (.ret none)) h
  case unsupported =>
      cases hs'

/-- The error of an instruction is not that of a missing entry. -/
theorem advance_ne_unrecorded
    {c : Chunk} {s : State} {i : Bytecode.Instruction}
    (h : s.stack.Recorded)
    (d : Nat) :
    s.advance c i ≠ .error (.unrecorded d) := by
  have hpop : ∀ {o : Operands}, o.Recorded → o.pop i ≠ .error (.unrecorded d) := by
    intro o ho hd
    cases ho.pop_error hd
  intro hd
  unfold State.advance at hd
  cases heffect : effect i.op <;> simp only [heffect] at hd
  case loadPool =>
      split at hd
      · cases hd
      · next v _ =>
          rcases bind_eq_error hd with hd | ⟨k, _, hd⟩
          · cases v <;> cases hd
          · cases hd
  case push k =>
      cases hd
  case binary op =>
      rcases bind_eq_error hd with hd | ⟨⟨right, o⟩, hright, hd⟩
      · exact hpop h hd
      · rcases bind_eq_error hd with hd | ⟨⟨left, o'⟩, _, hd⟩
        · exact hpop (h.pop hright) hd
        · cases hd
  case unary op =>
      rcases bind_eq_error hd with hd | ⟨⟨operand, o⟩, _, hd⟩
      · exact hpop h hd
      · cases hd
  case drop =>
      rcases bind_eq_error hd with hd | ⟨⟨top, o⟩, _, hd⟩
      · exact hpop h hd
      · cases hd
  case returnTop =>
      split at hd
      · cases hd
      · rcases bind_eq_error hd with hd | ⟨⟨top, o⟩, _, hd⟩
        · exact hpop h hd
        · cases hd
  case returnNothing =>
      cases hd
  case unsupported =>
      cases hd

theorem read_ok
    {c : Chunk} {offset : Nat} {i : Bytecode.Instruction}
    (h : read c offset = .ok i) :
    c.decode offset = .ok i := by
  unfold read at h
  split at h
  · next hi =>
      cases h
      exact hi
  · cases h
  · cases h

theorem read_ne_unrecorded (c : Chunk) (offset d : Nat) :
    read c offset ≠ .error (.unrecorded d) := by
  unfold read
  split <;> exact fun h => nomatch h

theorem advance_of_step_ok
    {c : Chunk} {s s' : State} {i : Bytecode.Instruction}
    (h : s.step c i = (s', none)) :
    s.advance c i = .ok s' := by
  unfold State.step at h
  split at h
  · next hs =>
      cases h
      exact hs
  · cases h

theorem advance_of_step_error
    {c : Chunk} {s s' : State} {i : Bytecode.Instruction} {e : LoweringError}
    (h : s.step c i = (s', some e)) :
    s.advance c i = .error e := by
  unfold State.step at h
  split at h
  · cases h
  · next hs =>
      cases h
      exact hs

/-- Code that is lowered to its end is decoded to its end, and its instructions are taken one
after the other. -/
theorem run_ok
    {c : Chunk} {offset : Nat} {s s' : State}
    (h : run c offset s = (s', none)) :
    ∃ (is : List Bytecode.Instruction) (s'' : State),
      (∀ done, c.instructionsFrom offset done = .ok (done ++ is.toArray)) ∧
      is.length ≤ c.length - offset ∧ is.foldlM (State.advance c) s = .ok s'' ∧
      s' = s''.finish := by
  fun_induction run c offset s with
  | case1 offset s hlt e hread =>
      cases h
  | case2 offset s hlt i hread s₁ e hstep =>
      cases h
  | case3 offset s hlt i hread s₁ hstep ih =>
      obtain ⟨is, s'', hdecode, hlen, hfold, hfinish⟩ := ih h
      refine ⟨i :: is, s'', ?_, ?_, ?_, hfinish⟩
      · intro done
        rw [Bytecode.Chunk.instructionsFrom, if_pos hlt, read_ok hread]
        simp [hdecode]
      · have hwidth : 0 < i.width := by
          unfold Bytecode.Instruction.width
          omega
        simp only [List.length_cons]
        omega
      · rw [List.foldlM_cons, advance_of_step_ok hstep]
        exact hfold
  | case4 offset s hge =>
      cases h
      refine ⟨[], s, ?_, Nat.zero_le _, rfl, rfl⟩
      intro done
      rw [Bytecode.Chunk.instructionsFrom, if_neg hge]
      simp

theorem run_ne_unrecorded
    {c : Chunk} {offset : Nat} {s s' : State} {d : Nat}
    (hrec : s.stack.Recorded) :
    run c offset s ≠ (s', some (.unrecorded d)) := by
  intro h
  fun_induction run c offset s with
  | case1 offset s hlt e hread =>
      cases h
      exact read_ne_unrecorded c offset d hread
  | case2 offset s hlt i hread s₁ e hstep =>
      cases h
      exact advance_ne_unrecorded hrec d (advance_of_step_error hstep)
  | case3 offset s hlt i hread s₁ hstep ih =>
      exact ih (advance_ok hrec (advance_of_step_ok hstep)).1 h
  | case4 offset s hge =>
      cases h

/-- Instructions of the code keep the lowering and the machine in agreement. -/
theorem foldlM_simulates
    {m : Meaning α} {c : Chunk}
    (is : List Bytecode.Instruction)
    {s s' : State} {stack : List α}
    (h : Simulates m s stack)
    (hroom : s.instructions.size + is.length < 2 ^ 32)
    (hs' : is.foldlM (State.advance c) s = .ok s') :
    ∃ stack', is.foldlM (machineStep m c) stack = some stack' ∧ Simulates m s' stack' := by
  induction is generalizing s stack with
  | nil =>
      cases hs'
      exact ⟨stack, rfl, h⟩
  | cons i is ih =>
      rw [List.foldlM_cons] at hs'
      obtain ⟨s₁, hs₁, hs'⟩ := bind_eq_ok hs'
      rw [List.length_cons] at hroom
      obtain ⟨env, _, _, hrep⟩ := h.values
      have hsize := (advance_ok hrep.recorded hs₁).2.2
      obtain ⟨stack₁, hstack₁, h₁⟩ := advance_simulates h (by omega) hs₁
      obtain ⟨stack', hstack', h'⟩ := ih h₁ (by omega) hs'
      refine ⟨stack', ?_, h'⟩
      rw [List.foldlM_cons, hstack₁]
      exact hstack'

theorem foldlM_emits
    {c : Chunk}
    (is : List Bytecode.Instruction)
    {s s' : State}
    (hrec : s.stack.Recorded)
    (hs' : is.foldlM (State.advance c) s = .ok s') :
    s.instructions.toList <+: s'.instructions.toList := by
  induction is generalizing s with
  | nil =>
      cases hs'
      exact List.prefix_refl _
  | cons i is ih =>
      rw [List.foldlM_cons] at hs'
      obtain ⟨s₁, hs₁, hs'⟩ := bind_eq_ok hs'
      obtain ⟨hrec₁, hprefix, _⟩ := advance_ok hrec hs₁
      exact hprefix.trans (ih hrec₁ hs')

/-- The module of a chunk has one function with one block, whose instructions are those that the
run of the code leaves. -/
theorem convert_ok
    {name : Text} {c : Chunk} {out : Module}
    (h : convert name c = .ok out) :
    ∃ s f b, run c 0 begin = (s, none) ∧ out.functions = #[f] ∧ f.blocks = #[b] ∧
      b.instructions = s.instructions := by
  unfold convert lower at h
  split at h
  · cases h
  · next m o hlower =>
      cases h
      unfold lowerOnto at hlower
      simp only [Ir.Module.freshFunction, Ir.Module.newBlockId] at hlower
      cases hrun : run c 0 ⟨0, {}, #[], none⟩ with
      | mk s e =>
          rw [hrun] at hlower
          cases hlower
          exact ⟨s, _, _, hrun, rfl, rfl, rfl⟩

theorem convert_ne_unrecorded (name : Text) (c : Chunk) (d : Nat) :
    convert name c ≠ .error (.unrecorded d) := by
  intro h
  unfold convert lower at h
  split at h
  · next m o e hlower =>
      cases h
      unfold lowerOnto at hlower
      simp only [Ir.Module.freshFunction, Ir.Module.newBlockId] at hlower
      cases hrun : run c 0 ⟨0, {}, #[], none⟩ with
      | mk s e =>
          rw [hrun] at hlower
          cases hlower
          exact run_ne_unrecorded Operands.recorded_empty hrun
  · cases h

/-- **Lowered code computes the operand stack.**  No entry of the table of registers is ever
missing.  And for code that is lowered, for any values and any meaning, lowering and stack machine
agree after any number of instructions. -/
theorem convert_simulates :
    (∀ (name : Text) (c : Chunk) (d : Nat), convert name c ≠ .error (.unrecorded d)) ∧
      ∀ {α : Type u} (m : Meaning α) (name : Text) (c : Chunk) (out : Module),
        c.length < 2 ^ 32 → convert name c = .ok out →
        ∃ is f b, c.instructions = .ok is ∧ out.functions = #[f] ∧ f.blocks = #[b] ∧
          ∀ n : Nat, AgreesAfter m c (is.take n) b.instructions.toList := by
  refine ⟨convert_ne_unrecorded, ?_⟩
  intro α m name c out hlen hout
  obtain ⟨s', f, b, hrun, hf, hb, hinstructions⟩ := convert_ok hout
  obtain ⟨is, s'', hdecode, hcount, hfold, rfl⟩ := run_ok hrun
  refine ⟨is, f, b, ?_, hf, hb, ?_⟩
  · rw [Bytecode.Chunk.instructions, hdecode]
    simp [Except.map]
  · intro n
    have hsplit := hfold
    rw [← List.take_append_drop n is, List.foldlM_append] at hsplit
    obtain ⟨s, hs, hrest⟩ := bind_eq_ok hsplit
    have htake : (is.take n).length ≤ is.length := by
      rw [List.length_take]
      exact Nat.min_le_right _ _
    obtain ⟨stack, hstack, hsim⟩ := foldlM_simulates (is.take n) (simulates_begin m)
      (by simp only [begin, List.size_toArray, List.length_nil]; omega) hs
    obtain ⟨env, henv, _, hrep⟩ := hsim.values
    have hemitted : s.instructions.toList <+: b.instructions.toList := by
      refine (foldlM_emits (is.drop n) hrep.recorded hrest).trans ?_
      rw [hinstructions]
      simp [State.finish, State.mint]
    refine ⟨s, stack, env, hs, hstack, hemitted, henv, hrep.depth_eq, hrep.recorded, ?_⟩
    intro d hd
    have hmem := (hrep.recorded d).mpr hd
    obtain ⟨r, hr⟩ := Option.isSome_iff_exists.mp (Std.HashMap.mem_iff_isSome_getElem?.mp hmem)
    obtain ⟨v, hv, hvd⟩ := hrep.value d r hr
    exact ⟨r, v, hr, hv, hvd⟩

/-- Code that is run to its end is taken over. -/
theorem convert_of_run_ok
    {c : Chunk}
    (name : Text)
    (h : (run c 0 begin).2 = none) :
    ∃ m, convert name c = .ok m := by
  cases hrun : run c 0 begin with
  | mk s e =>
      rw [hrun] at h
      cases h
      unfold convert lower lowerOnto
      simp only [Ir.Module.freshFunction, Ir.Module.newBlockId]
      rw [show run c 0 ⟨0, {}, #[], none⟩ = (s, none) from hrun]
      exact ⟨_, rfl⟩

/-- Ten less three, negated, with a one pushed and dropped in between, returned. -/
def difference : Chunk :=
  ⟨some #[0, 0, 0, 1, 15, 6, 7, 19, 41], none, #[.int 10, .int 3]⟩

/-- Operators as subtraction and negation of integers. -/
def subtraction : Meaning Int where
  const
    | .int n => n.toInt
    | _ => 0
  binary _ a b := a - b
  unary _ a := -a

theorem difference_simulates :
    ∃ out is f b, convert [] difference = .ok out ∧ difference.instructions = .ok is ∧
      out.functions = #[f] ∧ f.blocks = #[b] ∧
      ∀ n : Nat, AgreesAfter subtraction difference (is.take n) b.instructions.toList := by
  have hrun : (run difference 0 begin).2 = none := by
    conv => lhs; arg 1; cbv
  obtain ⟨out, hout⟩ := convert_of_run_ok [] hrun
  obtain ⟨is, f, b, his, hf, hb, hagree⟩ :=
    convert_simulates.2 subtraction [] difference out (by decide) hout
  exact ⟨out, is, f, b, hout, his, hf, hb, hagree⟩

end Runs

end Lowering
end StackNative
