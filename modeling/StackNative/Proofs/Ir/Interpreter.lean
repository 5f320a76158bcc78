import Mathlib.Algebra.Group.Int.Defs
import Mathlib.Algebra.Group.Nat.Defs
import StackNative.Proofs.Allocation.Flow

/-!
# Running functions

**Input.**  A function and the point where control is.

**Algorithm.**  Values are 64-bit integers.  Sums and products wrap around, division
cuts towards zero, shift counts are taken modulo 64 and shifts to the right keep
the sign; comparisons are signed and give one or zero, and so do the operations on
truth values.  A run has no next step where it reads what was never written, divides
by zero or divides the smallest integer by minus one.

**Results.**
* `step`: one step of a run, and `Returns`: the value of a whole run.
* `run_cases`: what an instruction that can be run does.
* `step_cases`: a step carries out an instruction or leaves a block.
* `enter_eq_some`: control that enters a block is at its first instruction.
-/

namespace StackNative
namespace Ir

open Allocation (Point Flow Reads Writes)

section Values

/-- One for true and zero for false. -/
def truthValue (b : Bool) : Int64 := if b then 1 else 0

/-- The value of a constant that is a number, a truth value or null. -/
def Constant.value? : Constant → Option Int64
  | .int n => some n
  | .bool b => some (truthValue b)
  | .null => some 0
  | _ => none

/-- The result of an operation on two values. -/
def Op.binary? (op : Op) (a b : Int64) : Option Int64 :=
  match op with
  | .add => some (a + b)
  | .sub => some (a - b)
  | .mul => some (a * b)
  | .div => if b = 0 ∨ a = Int64.minValue ∧ b = -1 then none else some (a / b)
  | .mod => if b = 0 ∨ a = Int64.minValue ∧ b = -1 then none else some (a % b)
  | .eq => some (truthValue (a = b))
  | .ne => some (truthValue (a ≠ b))
  | .lt => some (truthValue (a < b))
  | .le => some (truthValue (a ≤ b))
  | .gt => some (truthValue (b < a))
  | .ge => some (truthValue (b ≤ a))
  | .and => some (truthValue (a ≠ 0 ∧ b ≠ 0))
  | .or => some (truthValue (a ≠ 0 ∨ b ≠ 0))
  | .bitAnd => some (a &&& b)
  | .bitOr => some (a ||| b)
  | .bitXor => some (a ^^^ b)
  | .shl => some (a <<< b)
  | .shr => some (a >>> b)
  | _ => none

/-- The result of an operation on one value. -/
def Op.unary? (op : Op) (a : Int64) : Option Int64 :=
  match op with
  | .move => some a
  | .neg => some (-a)
  | .bitNot => some (~~~a)
  | .not => some (truthValue (a = 0))
  | _ => none

/-- The result of an operation on its operands. -/
def Op.result? (op : Op) : List Int64 → Option Int64
  | [a] => op.unary? a
  | [a, b] => op.binary? a b
  | _ => none

end Values

section Steps

/-- The values of the registers and the local variables that were written. -/
structure Env where
  registers : Register → Option Int64 := fun _ => none
  locals : Int → Option Int64 := fun _ => none

namespace Env

def setRegister (env : Env) (r : Register) (v : Int64) : Env :=
  { env with registers := fun q => if q = r then some v else env.registers q }

def setLocal (env : Env) (slot : Int) (v : Int64) : Env :=
  { env with locals := fun k => if k = slot then some v else env.locals k }

end Env

/-- The value that an instruction computes. -/
def Instruction.value? (i : Instruction) (env : Env) : Option Int64 :=
  match i.op with
  | .loadConst => i.const.value?
  | .loadLocal => env.locals i.slot
  | op => (i.args.mapM env.registers).bind op.result?

/-- What is written after an instruction. -/
def Instruction.run (i : Instruction) (env : Env) : Option Env :=
  match i.op, i.dest?, i.args with
  | .nop, _, _ => some env
  | .debugLine, _, _ => some env
  | .storeLocal, _, [r] => (env.registers r).map (env.setLocal i.slot)
  | _, some r, _ => (i.value? env).map (env.setRegister r)
  | _, none, _ => none

/-- Where control is, and what is written there. -/
structure Config where
  point : Point
  env : Env

/-- What a step leads to. -/
inductive Outcome where
  | running (c : Config)
  | returned (v : Int64)

/-- Goes to the first instruction of a block. -/
def enter (f : Function) (id : BlockId) (env : Env) : Option Config :=
  (f.blocks.findIdx? fun b => b.id == id).map fun k => ⟨⟨k, 0⟩, env⟩

/-- Leaves a block. -/
def Terminator.run (f : Function) (t : Terminator) (env : Env) : Option Outcome :=
  match t with
  | .jump target => (enter f target env).map .running
  | .branch condition onTrue onFalse => do
    let v ← env.registers condition
    (enter f (if v ≠ 0 then onTrue else onFalse) env).map .running
  | .ret (some r) => (env.registers r).map .returned
  | .ret none => some (.returned 0)
  | _ => none

/-- One step of a run. -/
def step (f : Function) (c : Config) : Option Outcome := do
  let b ← f.blocks[c.point.block]?
  match b.instructions[c.point.index]? with
  | some i => (i.run c.env).map fun env => .running ⟨⟨c.point.block, c.point.index + 1⟩, env⟩
  | none => b.terminator.run f c.env

/-- A run from a point on comes to its end and returns a value. -/
inductive Returns (f : Function) : Config → Int64 → Prop
  | done {c : Config} {v : Int64} :
      step f c = some (.returned v) →
      Returns f c v
  | next {c d : Config} {v : Int64} :
      step f c = some (.running d) →
      Returns f d v →
      Returns f c v

/-- A run from the entry block on returns a value. -/
def Function.Returns (f : Function) (v : Int64) : Prop :=
  ∃ c, enter f f.entry {} = some c ∧ Ir.Returns f c v

/-- The value of a run of so many steps at most. -/
def run (f : Function) : Nat → Config → Option Int64
  | 0, _ => none
  | n + 1, c =>
    match step f c with
    | some (.running d) => run f n d
    | some (.returned v) => some v
    | none => none

theorem Returns.of_run
    {f : Function}
    {n : Nat}
    {c : Config}
    {v : Int64}
    (h : run f n c = some v) :
    Returns f c v := by
  induction n generalizing c with
  | zero =>
      cases h
  | succ n ih =>
      simp only [run] at h
      split at h
      · rename_i d hstep
        exact .next hstep (ih h)
      · rename_i w hstep
        cases h
        exact .done hstep
      · cases h

theorem Function.Returns.of_run
    {f : Function}
    {n : Nat}
    {v : Int64}
    (h : (enter f f.entry {}).bind (run f n) = some v) :
    f.Returns v := by
  obtain ⟨c, hc, hrun⟩ := Option.bind_eq_some_iff.mp h
  exact ⟨c, hc, Ir.Returns.of_run hrun⟩

end Steps

section Inversion

variable
  {f : Function}
  {i : Instruction}
  {env env' : Env}

theorem value?_of_ne
    (hconst : i.op ≠ .loadConst)
    (hlocal : i.op ≠ .loadLocal) :
    i.value? env = (i.args.mapM env.registers).bind i.op.result? := by
  unfold Instruction.value?
  split
  · contradiction
  · contradiction
  · rfl

/-- The operations that have a result. -/
def Op.computes (op : Op) : Bool :=
  op.isBinary || op.isUnary || op ∈ [.loadConst, .loadLocal, .move]

theorem Op.ne_of_computes
    {op other : Op}
    (h : op.computes = true)
    (hother : other.computes = false) :
    op ≠ other := by
  rintro rfl
  rw [h] at hother
  cases hother

theorem unary?_eq_none
    {op : Op}
    (h : op.computes = false)
    (a : Int64) :
    op.unary? a = none := by
  cases op <;> cases h <;> rfl

theorem binary?_eq_none
    {op : Op}
    (h : op.computes = false)
    (a b : Int64) :
    op.binary? a b = none := by
  cases op <;> cases h <;> rfl

theorem computes_of_result?
    {op : Op}
    {values : List Int64}
    {v : Int64}
    (h : op.result? values = some v) :
    op.computes = true := by
  cases hcomputes : op.computes with
  | true =>
      rfl
  | false =>
      unfold Op.result? at h
      split at h
      · rw [unary?_eq_none hcomputes] at h
        cases h
      · rw [binary?_eq_none hcomputes] at h
        cases h
      · cases h

theorem computes_of_value?
    {v : Int64}
    (h : i.value? env = some v) :
    i.op.computes = true := by
  unfold Instruction.value? at h
  split at h
  · rename_i hop
    rw [hop]
    rfl
  · rename_i hop
    rw [hop]
    rfl
  · obtain ⟨values, -, hvalues⟩ := Option.bind_eq_some_iff.mp h
    exact computes_of_result? hvalues

/-- What an instruction that can be run does. -/
theorem run_cases
    (h : i.run env = some env') :
    ((i.op = .nop ∨ i.op = .debugLine) ∧ env' = env) ∨
      (∃ r v, i.op = .storeLocal ∧ i.args = [r] ∧ env.registers r = some v ∧
        env' = env.setLocal i.slot v) ∨
      ∃ r v, i.dest? = some r ∧ i.value? env = some v ∧ env' = env.setRegister r v := by
  unfold Instruction.run at h
  split at h
  · rename_i hop
    cases h
    exact Or.inl ⟨Or.inl hop, rfl⟩
  · rename_i hop
    cases h
    exact Or.inl ⟨Or.inr hop, rfl⟩
  · rename_i r hop hargs
    obtain ⟨v, hv, rfl⟩ := Option.map_eq_some_iff.mp h
    exact Or.inr (Or.inl ⟨r, v, hop, hargs, hv, rfl⟩)
  · rename_i r hdest _ _ _
    obtain ⟨v, hv, rfl⟩ := Option.map_eq_some_iff.mp h
    exact Or.inr (Or.inr ⟨r, v, hdest, hv, rfl⟩)
  · cases h

theorem enter_eq_some
    {id : BlockId}
    {c : Config}
    (h : enter f id env = some c) :
    ∃ k b, f.blocks[k]? = some b ∧ b.id = id ∧ c = ⟨⟨k, 0⟩, env⟩ := by
  obtain ⟨k, hk, rfl⟩ := Option.map_eq_some_iff.mp h
  obtain ⟨hlt, hid, -⟩ := Array.findIdx?_eq_some_iff_getElem.mp hk
  exact ⟨k, f.blocks[k], Array.getElem?_eq_getElem hlt, by simpa using hid, rfl⟩

/-- What a terminator that goes on does. -/
theorem Terminator.run_running
    {t : Terminator}
    {d : Config}
    (h : t.run f env = some (.running d)) :
    (∃ target, t = .jump target ∧ enter f target env = some d) ∨
      ∃ r onTrue onFalse v, t = .branch r onTrue onFalse ∧ env.registers r = some v ∧
        enter f (if v ≠ 0 then onTrue else onFalse) env = some d := by
  cases t with
  | jump target =>
      obtain ⟨c, henter, heq⟩ := Option.map_eq_some_iff.mp h
      cases heq
      exact Or.inl ⟨target, rfl, henter⟩
  | branch r onTrue onFalse =>
      obtain ⟨v, hv, h⟩ := Option.bind_eq_some_iff.mp h
      obtain ⟨c, henter, heq⟩ := Option.map_eq_some_iff.mp h
      cases heq
      exact Or.inr ⟨r, onTrue, onFalse, v, rfl, hv, henter⟩
  | ret value =>
      cases value with
      | none =>
          cases h
      | some r =>
          obtain ⟨v, -, heq⟩ := Option.map_eq_some_iff.mp h
          cases heq
  | _ =>
      cases h

/-- What a terminator that returns does. -/
theorem Terminator.run_returned
    {t : Terminator}
    {v : Int64}
    (h : t.run f env = some (.returned v)) :
    (∃ r, t = .ret (some r) ∧ env.registers r = some v) ∨ t = .ret none ∧ v = 0 := by
  cases t with
  | jump target =>
      obtain ⟨c, -, heq⟩ := Option.map_eq_some_iff.mp h
      cases heq
  | branch r onTrue onFalse =>
      obtain ⟨w, -, h⟩ := Option.bind_eq_some_iff.mp h
      obtain ⟨c, -, heq⟩ := Option.map_eq_some_iff.mp h
      cases heq
  | ret value =>
      cases value with
      | none =>
          cases h
          exact Or.inr ⟨rfl, rfl⟩
      | some r =>
          obtain ⟨w, hw, heq⟩ := Option.map_eq_some_iff.mp h
          cases heq
          exact Or.inl ⟨r, rfl, hw⟩
  | _ =>
      cases h

/-- A step carries out an instruction or leaves a block. -/
theorem step_cases
    {c : Config}
    {o : Outcome}
    (h : step f c = some o) :
    ∃ b, f.blocks[c.point.block]? = some b ∧
      ((∃ i env', b.instructions[c.point.index]? = some i ∧ i.run c.env = some env' ∧
        o = .running ⟨⟨c.point.block, c.point.index + 1⟩, env'⟩) ∨
      b.instructions.size ≤ c.point.index ∧ b.terminator.run f c.env = some o) := by
  obtain ⟨b, hb, h⟩ := Option.bind_eq_some_iff.mp h
  refine ⟨b, hb, ?_⟩
  split at h
  · rename_i i hi
    obtain ⟨env', henv', rfl⟩ := Option.map_eq_some_iff.mp h
    exact Or.inl ⟨i, env', hi, henv', rfl⟩
  · rename_i hi
    exact Or.inr ⟨Array.getElem?_eq_none_iff.mp hi, h⟩

end Inversion

section Fragments

/-- Instructions on integers, registers and local variables, as they are built. -/
inductive Instruction.Plain : Instruction → Prop
  | nop : Plain .nop
  | debugLine (line : Int64) : Plain (.debugLine line)
  | loadConst (dest : Register) (c : Constant) : c.value?.isSome → Plain (.loadConst dest c)
  | move (dest source : Register) : Plain (.move dest source)
  | loadLocal (dest : Register) (slot : Int) : Plain (.loadLocal dest slot)
  | storeLocal (slot : Int) (value : Register) : Plain (.storeLocal slot value)
  | binary (op : Op) (dest left right : Register) :
      op.isBinary = true → Plain (.binary op dest left right)
  | unary (op : Op) (dest operand : Register) :
      op.isUnary = true → Plain (.unary op dest operand)
  | withLine (i : Instruction) (line : Int64) : Plain i → Plain (i.withLine line)

/-- All instructions of a function are plain. -/
def Function.Plain (f : Function) : Prop :=
  ∀ b ∈ f.blocks, ∀ i ∈ b.instructions, i.Plain

/-- Every local variable lies where `addLocal` puts it. -/
def Function.LocalsInOrder (f : Function) : Prop :=
  ∀ slot l, f.locals[slot]? = some l → l.offset = Int64.ofNat ((slot + 1) * slotSize)

/-- Memory has room for the local variables, whose records take 32 bytes each. -/
def Function.LocalsFit (f : Function) : Prop := 32 * f.locals.size < 2 ^ 63

theorem Instruction.Plain.op_ne_alloca
    {i : Instruction}
    (h : i.Plain) :
    i.op ≠ .alloca := by
  induction h with
  | binary op dest left right hop =>
      rintro rfl
      cases hop
  | unary op dest operand hop =>
      rintro rfl
      cases hop
  | withLine i line _ ih =>
      exact ih
  | _ =>
      nofun

theorem Function.LocalsInOrder.addLocal
    {f : Function}
    (h : f.LocalsInOrder)
    (name : Text)
    (type : Ty) :
    (f.addLocal name type).LocalsInOrder := by
  intro slot l hl
  simp only [Function.addLocal, Array.getElem?_push] at hl
  split at hl
  · rename_i hslot
    simp only [Option.some.injEq] at hl
    rw [← hl, hslot]
  · exact h slot l hl

end Fragments

end Ir
end StackNative
