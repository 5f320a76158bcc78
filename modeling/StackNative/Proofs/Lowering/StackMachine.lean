import Mathlib.Algebra.Group.Int.Defs
import Mathlib.Algebra.Group.Nat.Defs
import StackNative.Lowering
import StackNative.Proofs.Results

/-!
# Lowered code computes the operand stack

**Input.**  A chunk of bytecode that is lowered, and any meaning of constants and
operators in any domain of values.

**Algorithm.**  A stack machine runs the bytecode with that meaning, and the
lowered instructions are evaluated with it one after the other.

**Results.**
* `Operands.Recorded`: the table of registers has an entry for each depth of the
  operand stack and for no other.
* `advance_simulates`: one instruction keeps the registers of the table at the
  values of the stack machine.
-/

namespace StackNative
namespace Lowering

open Bytecode (Chunk Opcode Value)
open Ir (Register Module)

universe u

variable {α : Type u}

/-- A meaning of constants and operators in a domain of values. -/
structure Meaning (α : Type u) where
  const : Ir.Constant → α
  binary : Ir.Op → α → α → α
  unary : Ir.Op → α → α

section Machine

/-- The literal that a constant of a pool stands for. -/
def literal? : Value → Option Ir.Constant
  | .null => some .null
  | .bool b => some (.bool b)
  | .int n => some (.int n)
  | .float x => some (.float x)
  | .string s => some (.string s)
  | _ => none

variable (m : Meaning α)

/-- Takes the right operand, then the left one, and pushes the result. -/
def applyBinary (op : Ir.Op) : List α → Option (List α)
  | right :: left :: stack => some (m.binary op left right :: stack)
  | _ => none

/-- Puts the result in the place of the top. -/
def applyUnary (op : Ir.Op) : List α → Option (List α)
  | operand :: stack => some (m.unary op operand :: stack)
  | [] => none

/-- Drops the top. -/
def dropTop : List α → Option (List α)
  | _ :: stack => some stack
  | [] => none

/-- The stack machine: the stack, the top first, after an instruction. -/
def machineStep (c : Chunk) (stack : List α) (i : Bytecode.Instruction) : Option (List α) :=
  match i.op with
  | .const | .constLong =>
    ((c.constants[i.operand.toNat]?).bind literal?).map fun k => m.const k :: stack
  | .pushNull => some (m.const .null :: stack)
  | .pushTrue => some (m.const (.bool true) :: stack)
  | .pushFalse => some (m.const (.bool false) :: stack)
  | .pushZero => some (m.const (.int 0) :: stack)
  | .pushOne => some (m.const (.int 1) :: stack)
  | .add => applyBinary m .add stack
  | .sub => applyBinary m .sub stack
  | .mul => applyBinary m .mul stack
  | .div => applyBinary m .div stack
  | .mod => applyBinary m .mod stack
  | .eq => applyBinary m .eq stack
  | .ne => applyBinary m .ne stack
  | .lt => applyBinary m .lt stack
  | .le => applyBinary m .le stack
  | .gt => applyBinary m .gt stack
  | .ge => applyBinary m .ge stack
  | .and => applyBinary m .and stack
  | .or => applyBinary m .or stack
  | .bitAnd => applyBinary m .bitAnd stack
  | .bitOr => applyBinary m .bitOr stack
  | .bitXor => applyBinary m .bitXor stack
  | .shl => applyBinary m .shl stack
  | .shr => applyBinary m .shr stack
  | .neg => applyUnary m .neg stack
  | .not => applyUnary m .not stack
  | .bitNot => applyUnary m .bitNot stack
  | .pop | .print | .printLn => dropTop stack
  | .ret => some stack.tail
  | .retNull => some stack
  | _ => none

/-- The stack after instructions, from the empty one. -/
def machineRun (c : Chunk) (is : List Bytecode.Instruction) : Option (List α) :=
  is.foldlM (machineStep m c) []

end Machine

section Evaluation

variable (m : Meaning α)

/-- The values of registers, as far as they are written. -/
abbrev Env (α : Type u) := Register → Option α

/-- Writes a register. -/
def Env.set (env : Env α) (r : Register) (v : α) : Env α := fun s => if s = r then some v else env s

/-- Evaluates an instruction that loads a constant or applies an operator. -/
def evaluateStep (env : Env α) (i : Ir.Instruction) : Option (Env α) :=
  match i.op, i.dest?, i.args with
  | .loadConst, some dest, [] => some (env.set dest (m.const i.const))
  | op, some dest, [left, right] =>
    if op.isBinary then do return env.set dest (m.binary op (← env left) (← env right)) else none
  | op, some dest, [operand] =>
    if op.isUnary then do return env.set dest (m.unary op (← env operand)) else none
  | _, _, _ => none

/-- Evaluates instructions in order, from registers without values. -/
def evaluate (is : List Ir.Instruction) : Option (Env α) :=
  is.foldlM (evaluateStep m) fun _ => none

end Evaluation

/-- The state that lowering begins with. -/
def begin : State := ⟨0, {}, #[], none⟩

namespace Operands

/-- The table has an entry for each depth of the stack and for no other. -/
def Recorded (o : Operands) : Prop := ∀ d, d ∈ o.registers ↔ d < o.depth

theorem recorded_empty : ({} : Operands).Recorded := by
  intro d
  simp

theorem Recorded.push
    {o : Operands}
    (h : o.Recorded)
    (r : Register) :
    (o.push r).Recorded := by
  intro d
  simp only [Operands.push, Std.HashMap.mem_insert, h d, beq_iff_eq]
  omega

/-- What is on top of a recorded stack, and what is left. -/
theorem pop_ok
    {i : Bytecode.Instruction} {o o' : Operands} {r : Register}
    (hpop : o.pop i = .ok (r, o')) :
    ∃ depth, o.depth = depth + 1 ∧ o.registers[depth]? = some r ∧
      o' = ⟨depth, o.registers.erase depth⟩ := by
  unfold pop at hpop
  split at hpop
  · cases hpop
  · next depth hdepth =>
      split at hpop
      · cases hpop
      · next s hs =>
          cases hpop
          exact ⟨depth, hdepth, hs, rfl⟩

theorem Recorded.pop
    {i : Bytecode.Instruction} {o o' : Operands} {r : Register}
    (h : o.Recorded)
    (hpop : o.pop i = .ok (r, o')) :
    o'.Recorded := by
  obtain ⟨depth, hdepth, _, rfl⟩ := pop_ok hpop
  intro d
  simp only [Std.HashMap.mem_erase, h d, hdepth, beq_eq_false_iff_ne]
  omega

/-- Nothing is missing in a recorded stack: only an empty one gives nothing. -/
theorem Recorded.pop_error
    {i : Bytecode.Instruction} {o : Operands} {e : LoweringError}
    (h : o.Recorded)
    (hpop : o.pop i = .error e) :
    e = .stackUnderflow i.offset i.op := by
  unfold Operands.pop at hpop
  split at hpop
  · cases hpop
    rfl
  · next depth hdepth =>
      split at hpop
      · next hnone =>
          have hmem : depth ∈ o.registers := (h depth).mpr (by omega)
          rw [Std.HashMap.mem_iff_isSome_getElem?, hnone] at hmem
          simp at hmem
      · cases hpop

end Operands

section Representation

/-- The registers of the table have the values of a stack. -/
structure Represents (env : Env α) (o : Operands) (stack : List α) : Prop where
  recorded : o.Recorded
  depth_eq : o.depth = stack.length
  value : ∀ (d : Nat) (r : Register), o.registers[d]? = some r →
    ∃ v, env r = some v ∧ stack.reverse[d]? = some v

variable {env : Env α} {o : Operands} {stack : List α}

/-- Writing a register that had no value keeps what is represented. -/
theorem Represents.set
    (h : Represents env o stack)
    {r : Register}
    (hr : env r = none)
    (v : α) :
    Represents (env.set r v) o stack := by
  refine ⟨h.recorded, h.depth_eq, ?_⟩
  intro d s hs
  obtain ⟨w, hw, hd⟩ := h.value d s hs
  refine ⟨w, ?_, hd⟩
  have hne : s ≠ r := by
    rintro rfl
    rw [hr] at hw
    cases hw
  simp [Env.set, hne, hw]

theorem Represents.push
    (h : Represents env o stack)
    {r : Register} {v : α}
    (hr : env r = some v) :
    Represents env (o.push r) (v :: stack) := by
  refine ⟨h.recorded.push r, ?_, ?_⟩
  · simp [Operands.push, h.depth_eq]
  · intro d s hs
    rw [Operands.push, Std.HashMap.getElem?_insert] at hs
    by_cases hd : o.depth = d
    · rw [if_pos (by simpa using hd)] at hs
      cases hs
      refine ⟨v, hr, ?_⟩
      rw [List.reverse_cons, ← hd, h.depth_eq, List.getElem?_append_right (by simp)]
      simp
    · rw [if_neg (by simpa using hd)] at hs
      obtain ⟨w, hw, hdw⟩ := h.value d s hs
      refine ⟨w, hw, ?_⟩
      have hlt : d < stack.reverse.length := by
        rw [List.getElem?_eq_some_iff] at hdw
        exact hdw.1
      rw [List.reverse_cons, List.getElem?_append_left hlt]
      exact hdw

/-- The register on top has the value on top. -/
theorem Represents.pop
    (h : Represents env o stack)
    {i : Bytecode.Instruction} {r : Register} {o' : Operands}
    (hpop : o.pop i = .ok (r, o')) :
    ∃ v rest, stack = v :: rest ∧ env r = some v ∧ Represents env o' rest := by
  have hrec := h.recorded.pop hpop
  obtain ⟨depth, hdepth, hr, rfl⟩ := Operands.pop_ok hpop
  cases stack with
  | nil =>
      have := h.depth_eq
      simp [hdepth] at this
  | cons v rest =>
      have hlen : depth = rest.length := by
        simpa [hdepth] using h.depth_eq
      obtain ⟨w, hw, hd⟩ := h.value depth r hr
      rw [List.reverse_cons, List.getElem?_append_right (by simp [hlen])] at hd
      simp only [hlen, List.length_reverse, Nat.sub_self, List.getElem?_cons_zero,
        Option.some.injEq] at hd
      subst hd
      refine ⟨v, rest, rfl, hw, hrec, hlen, ?_⟩
      intro d s hs
      rw [Std.HashMap.getElem?_erase] at hs
      by_cases hd : depth = d
      · rw [if_pos (by simpa using hd)] at hs
        cases hs
      · rw [if_neg (by simpa using hd)] at hs
        obtain ⟨w, hw', hdw⟩ := h.value d s hs
        refine ⟨w, hw', ?_⟩
        rw [List.reverse_cons] at hdw
        have hlt : d < rest.length + 1 := by
          rw [List.getElem?_eq_some_iff] at hdw
          simpa using hdw.1
        rwa [List.getElem?_append_left (by simp; omega)] at hdw

end Representation

section Simulation

variable (m : Meaning α)

/-- A state of the lowering and a stack of the machine agree: the instructions emitted so far
evaluate, they have given values to the registers minted so far only, and the table represents
the stack. -/
structure Simulates (s : State) (stack : List α) : Prop where
  count : s.next.toNat = s.instructions.size
  values : ∃ env, evaluate m s.instructions.toList = some env ∧
    (∀ r : Register, s.next.toNat ≤ r.toNat → env r = none) ∧ Represents env s.stack stack

theorem simulates_begin : Simulates m begin [] := by
  refine ⟨rfl, fun _ => none, rfl, fun _ _ => rfl, Operands.recorded_empty, rfl, ?_⟩
  intro d r hr
  simp [begin] at hr

theorem evaluate_push
    {is : Array Ir.Instruction} {i : Ir.Instruction} {env env' : Env α}
    (his : evaluate m is.toList = some env)
    (hi : evaluateStep m env i = some env') :
    evaluate m (is.push i).toList = some env' := by
  unfold evaluate at his ⊢
  rw [Array.toList_push, List.foldlM_append, his]
  simp [hi]

variable {m}

/-- Minting a register for a value and putting it on top of what is left of the stack. -/
theorem Simulates.define
    {s : State} {env : Env α} {o : Operands} {rest : List α} {v : α} {line : Int64}
    {instruction : Register → Ir.Instruction}
    (hcount : s.next.toNat = s.instructions.size)
    (hroom : s.instructions.size + 1 < 2 ^ 32)
    (henv : evaluate m s.instructions.toList = some env)
    (hfresh : ∀ r : Register, s.next.toNat ≤ r.toNat → env r = none)
    (hrest : Represents env o rest)
    (hstep : evaluateStep m env ((instruction s.next).withLine line) =
      some (env.set s.next v)) :
    Simulates m (s.define o line instruction) (v :: rest) := by
  have hnext : (s.next + 1).toNat = s.next.toNat + 1 := by
    rw [UInt32.toNat_add]
    simp
    omega
  refine ⟨?_, env.set s.next v, ?_, ?_, ?_⟩
  · simp only [State.define, State.mint, Array.size_push]
    omega
  · exact evaluate_push m henv hstep
  · intro r hr
    simp only [State.define, State.mint] at hr
    have hne : r ≠ s.next := by
      rintro rfl
      omega
    simp only [Env.set, hne, if_false]
    exact hfresh r (by omega)
  · refine (hrest.set (hfresh s.next (Nat.le_refl _)) v).push ?_
    simp [Env.set]

/-- The stack after an effect. -/
def afterEffect (m : Meaning α) (c : Chunk) (stack : List α) (i : Bytecode.Instruction) :
    Effect → Option (List α)
  | .loadPool => ((c.constants[i.operand.toNat]?).bind literal?).map fun k => m.const k :: stack
  | .push k => some (m.const k :: stack)
  | .binary op => applyBinary m op stack
  | .unary op => applyUnary m op stack
  | .drop => dropTop stack
  | .returnTop => some stack.tail
  | .returnNothing => some stack
  | .unsupported => none

/-- Each opcode has the effect on the stack that the machine gives it. -/
theorem machineStep_eq (c : Chunk) (stack : List α) (i : Bytecode.Instruction) :
    machineStep m c stack i = afterEffect m c stack i (effect i.op) := by
  unfold machineStep
  cases i.op <;> rfl

theorem isBinary_of_effect
    {op : Opcode} {ir : Ir.Op}
    (h : effect op = .binary ir) :
    ir.isBinary = true := by
  cases op <;> cases h <;> rfl

theorem isUnary_of_effect
    {op : Opcode} {ir : Ir.Op}
    (h : effect op = .unary ir) :
    ir.isUnary = true := by
  cases op <;> cases h <;> rfl

theorem literal?_of_constant
    {index : Int} {v : Value} {k : Ir.Constant}
    (h : constant index v = .ok k) :
    literal? v = some k := by
  cases v <;> cases h <;> rfl

theorem evaluateStep_loadConst (env : Env α) (r : Register) (k : Ir.Constant) (line : Int64) :
    evaluateStep m env ((Ir.Instruction.loadConst r k).withLine line) =
      some (env.set r (m.const k)) := rfl

theorem evaluateStep_binary
    {env : Env α} {op : Ir.Op} {left right : Register} {a b : α}
    (hop : op.isBinary = true)
    (hleft : env left = some a)
    (hright : env right = some b)
    (r : Register)
    (line : Int64) :
    evaluateStep m env ((Ir.Instruction.binary op r left right).withLine line) =
      some (env.set r (m.binary op a b)) := by
  unfold evaluateStep
  simp only [Ir.Instruction.binary, Ir.Instruction.withLine]
  simp [hop, hleft, hright]

theorem evaluateStep_unary
    {env : Env α} {op : Ir.Op} {operand : Register} {a : α}
    (hop : op.isUnary = true)
    (hoperand : env operand = some a)
    (r : Register)
    (line : Int64) :
    evaluateStep m env ((Ir.Instruction.unary op r operand).withLine line) =
      some (env.set r (m.unary op a)) := by
  unfold evaluateStep
  simp only [Ir.Instruction.unary, Ir.Instruction.withLine]
  simp [hop, hoperand]

/-- One instruction of the code keeps the lowering and the machine in agreement. -/
theorem advance_simulates
    {c : Chunk} {s s' : State} {stack : List α} {i : Bytecode.Instruction}
    (h : Simulates m s stack)
    (hroom : s.instructions.size + 1 < 2 ^ 32)
    (hs' : s.advance c i = .ok s') :
    ∃ stack', machineStep m c stack i = some stack' ∧ Simulates m s' stack' := by
  obtain ⟨hcount, env, henv, hfresh, hrep⟩ := h
  rw [machineStep_eq]
  unfold State.advance at hs'
  cases heffect : effect i.op with
  | loadPool =>
      simp only [heffect] at hs'
      split at hs'
      · cases hs'
      · next v hv =>
          obtain ⟨k, hk, hs'⟩ := bind_eq_ok hs'
          cases hs'
          refine ⟨m.const k :: stack, ?_, ?_⟩
          · simp [afterEffect, hv, literal?_of_constant hk]
          · exact Simulates.define hcount hroom henv hfresh hrep
              (evaluateStep_loadConst env s.next k i.line)
  | push k =>
      simp only [heffect] at hs'
      cases hs'
      exact ⟨m.const k :: stack, rfl, Simulates.define hcount hroom henv hfresh hrep
        (evaluateStep_loadConst env s.next k i.line)⟩
  | binary op =>
      simp only [heffect] at hs'
      obtain ⟨⟨right, o⟩, hright, hs'⟩ := bind_eq_ok hs'
      obtain ⟨⟨left, o'⟩, hleft, hs'⟩ := bind_eq_ok hs'
      cases hs'
      obtain ⟨b, rest, rfl, hb, hrest⟩ := hrep.pop hright
      obtain ⟨a, rest, rfl, ha, hrest⟩ := hrest.pop hleft
      refine ⟨m.binary op a b :: rest, rfl, ?_⟩
      exact Simulates.define hcount hroom henv hfresh hrest
        (evaluateStep_binary (isBinary_of_effect heffect) ha hb s.next i.line)
  | unary op =>
      simp only [heffect] at hs'
      obtain ⟨⟨operand, o⟩, hoperand, hs'⟩ := bind_eq_ok hs'
      cases hs'
      obtain ⟨a, rest, rfl, ha, hrest⟩ := hrep.pop hoperand
      refine ⟨m.unary op a :: rest, rfl, ?_⟩
      exact Simulates.define hcount hroom henv hfresh hrest
        (evaluateStep_unary (isUnary_of_effect heffect) ha s.next i.line)
  | drop =>
      simp only [heffect] at hs'
      obtain ⟨⟨top, o⟩, htop, hs'⟩ := bind_eq_ok hs'
      cases hs'
      obtain ⟨a, rest, rfl, _, hrest⟩ := hrep.pop htop
      exact ⟨rest, rfl, hcount, env, henv, hfresh, hrest⟩
  | returnTop =>
      simp only [heffect] at hs'
      split at hs'
      · next hdepth =>
          cases hs'
          have hnil : stack = [] := by
            rw [← List.length_eq_zero_iff, ← hrep.depth_eq, hdepth]
          subst hnil
          exact ⟨[], rfl, hcount, env, henv, hfresh, hrep⟩
      · obtain ⟨⟨top, o⟩, htop, hs'⟩ := bind_eq_ok hs'
        cases hs'
        obtain ⟨a, rest, rfl, _, hrest⟩ := hrep.pop htop
        exact ⟨rest, rfl, hcount, env, henv, hfresh, hrest⟩
  | returnNothing =>
      simp only [heffect] at hs'
      cases hs'
      exact ⟨stack, rfl, hcount, env, henv, hfresh, hrep⟩
  | unsupported =>
      simp only [heffect] at hs'
      cases hs'

end Simulation

end Lowering
end StackNative
