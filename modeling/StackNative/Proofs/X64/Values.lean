import StackNative.Proofs.Results
import StackNative.Proofs.X64.Frame
import StackNative.Proofs.X64.Work

/-!
# Where values are kept

**Input.**  A function, the places of its registers, and the point where control is.

**Algorithm.**  A register that was written on the way to the point, and that can be
read on the way from it, has its value in its place.  A register that no way reads
may have lost it.

**Results.**
* `Agrees`: the machine keeps what is written, at a point.
* `load_spec`, `store_spec`: values are brought to a machine register and back.
* `instruction_spec`: the code of an instruction does what the instruction does.
-/

namespace StackNative
namespace X64

open Allocation (Point Flow Reads Writes Place DistinctBlocks allocate)
open Ir (Register Env)
open Relation (ReflTransGen)

section Points

variable (f : Ir.Function)

/-- The register was written on some way to the point. -/
def Written (r : Register) (p : Point) : Prop := ∃ q, Writes f q r ∧ ReflTransGen (Flow f) q p

/-- The register is read on some way from the point. -/
def Needed (r : Register) (p : Point) : Prop := ∃ u, ReflTransGen (Flow f) p u ∧ Reads f u r

end Points

section Agreement

/-- What is known of a function whose code is made. -/
structure Context.Laid (g : Context) : Prop where
  allocation : g.allocation = allocate valueRegs.length g.function
  distinct : DistinctBlocks g.function
  locals : g.function.LocalsInOrder
  spillBase : g.frame.spillBase.toInt = 8 * g.function.locals.size
  room : 8 * (g.function.locals.size + g.allocation.spillCount) < 2 ^ 31

/-- The word of the frame that is a local variable. -/
def Context.localCell (frameBase : Word) (slot : Int) : Word := cell frameBase (-(slot + 1))

/-- The word of the frame that is a spill slot. -/
def Context.slotCell (g : Context) (frameBase : Word) (n : Nat) : Word :=
  cell frameBase (-(g.function.locals.size + n + 1 : Int))

/-- A place holds a value. -/
def Context.Holds (g : Context) (frameBase : Word) (m : Machine) (v : Int64) : Place → Prop
  | .machine k => m.regs (valueReg k) = v.toBitVec
  | .slot n => m.memory.read (g.slotCell frameBase n) = v.toBitVec

theorem Context.holds_machine
    {g : Context}
    {frameBase : Word}
    {m : Machine}
    {v : Int64}
    {k : Nat} :
    g.Holds frameBase m v (.machine k) ↔ m.regs (valueReg k) = v.toBitVec :=
  Iff.rfl

theorem Context.holds_slot
    {g : Context}
    {frameBase : Word}
    {m : Machine}
    {v : Int64}
    {n : Nat} :
    g.Holds frameBase m v (.slot n) ↔
      m.memory.read (g.slotCell frameBase n) = v.toBitVec :=
  Iff.rfl

/-- The machine keeps what is written, at a point. -/
structure Agrees (g : Context) (frameBase back : Word) (p : Point) (env : Env) (m : Machine) :
    Prop where
  rbp : m.regs .rbp = frameBase
  returns : m.memory.read (cell frameBase 1) = back
  written : ∀ r v, env.registers r = some v → Written g.function r p
  registers : ∀ r v place, env.registers r = some v → Needed g.function r p →
    g.allocation.place? r = some place → g.Holds frameBase m v place
  locals : ∀ slot v, env.locals slot = some v → 0 ≤ slot ∧ slot < g.function.locals.size ∧
    m.memory.read (Context.localCell frameBase slot) = v.toBitVec

variable
  {g : Context}
  {frameBase back : Word}
  {p q : Point}
  {env : Env}
  {m m' : Machine}

theorem Context.Laid.index_lt
    (hg : g.Laid)
    {r : Register}
    {k : Nat}
    (h : g.allocation.place? r = some (.machine k)) :
    k < valueRegs.length := by
  rw [hg.allocation] at h
  exact (Allocation.allocate_valid _ g.function).2.index_lt r k h

theorem Context.Laid.slot_lt
    (hg : g.Laid)
    {r : Register}
    {n : Nat}
    (h : g.allocation.place? r = some (.slot n)) :
    n < g.allocation.spillCount := by
  rw [hg.allocation] at h ⊢
  exact (Allocation.allocate_valid _ g.function).2.slot_lt r n h

theorem Context.Laid.slot_inj
    (hg : g.Laid)
    {r r' : Register}
    {n : Nat}
    (h : g.allocation.place? r = some (.slot n))
    (h' : g.allocation.place? r' = some (.slot n)) :
    r = r' := by
  rw [hg.allocation] at h h'
  exact (Allocation.allocate_valid _ g.function).2.slot_inj r r' n h h'

theorem valueReg_spec
    {k : Nat}
    (h : k < valueRegs.length) :
    Context.valueReg k ∉ scratchRegs ∧ Context.valueReg k ≠ .rbp := by
  have hall : ∀ k : Fin valueRegs.length,
      Context.valueReg k ∉ scratchRegs ∧ Context.valueReg k ≠ .rbp := by
    decide
  exact hall ⟨k, h⟩

theorem valueReg_inj
    {j k : Nat}
    (hj : j < valueRegs.length)
    (hk : k < valueRegs.length)
    (h : Context.valueReg j = Context.valueReg k) :
    j = k := by
  have hall : ∀ j k : Fin valueRegs.length,
      Context.valueReg j = Context.valueReg k → j = k := by
    decide
  exact congrArg Fin.val (hall ⟨j, hj⟩ ⟨k, hk⟩ h)

/-- Where nothing is written, the frame is all there is to keep. -/
theorem Agrees.of_frame
    (hrbp : m.regs .rbp = frameBase)
    (hreturns : m.memory.read (cell frameBase 1) = back)
    (p : Point) :
    Agrees g frameBase back p {} m := by
  refine ⟨hrbp, hreturns, ?_, ?_, ?_⟩
  · intro r v hr
    cases hr
  · intro r v place hr
    cases hr
  · intro slot v hslot
    cases hslot

/-- Control goes on and nothing is written. -/
theorem Agrees.flow
    (h : Agrees g frameBase back p env m)
    (hflow : Flow g.function p q) :
    Agrees g frameBase back q env m := by
  refine ⟨h.rbp, h.returns, ?_, ?_, h.locals⟩
  · intro r v hr
    obtain ⟨w, hw, hway⟩ := h.written r v hr
    exact ⟨w, hw, hway.tail hflow⟩
  · intro r v place hr hneeded hplace
    obtain ⟨u, hway, hu⟩ := hneeded
    exact h.registers r v place hr ⟨u, .head hflow hway, hu⟩ hplace

/-- Work in scratch registers disturbs nothing. -/
theorem Agrees.onlyScratch
    (hg : g.Laid)
    (h : Agrees g frameBase back p env m)
    (honly : OnlyScratch m m') :
    Agrees g frameBase back p env m' := by
  refine ⟨?_, ?_, h.written, ?_, ?_⟩
  · rw [honly.regs .rbp (by decide), h.rbp]
  · rw [honly.memory, h.returns]
  · intro r v place hr hneeded hplace
    have hholds := h.registers r v place hr hneeded hplace
    cases place with
    | machine k =>
        exact (honly.regs _ (valueReg_spec (hg.index_lt hplace)).1).trans hholds
    | slot n =>
        rw [Context.holds_slot] at hholds ⊢
        rw [honly.memory, hholds]
  · intro slot v hslot
    rw [honly.memory]
    exact h.locals slot v hslot

end Agreement

section Transfers

variable
  {g : Context}
  {frameBase back : Word}
  {p q : Point}
  {env : Env}
  {m : Machine}

theorem Machine.set_self
    (m : Machine)
    (r : Reg) :
    m.set r (m.regs r) = m := by
  obtain ⟨regs, flags, memory⟩ := m
  simp only [Machine.set, Machine.mk.injEq, and_self, and_true]
  funext q
  split
  · rename_i h
    rw [h]
  · rfl

theorem effects_copy
    (locate : Label → Word)
    (target source : Reg)
    (m : Machine) :
    effects locate (Context.copy target source) m = some (m.set target (m.regs source)) := by
  unfold Context.copy
  split
  · rename_i h
    rw [h, Machine.set_self]
    rfl
  · rfl

theorem Context.Laid.add_slotOffset
    (hg : g.Laid)
    {n : Nat}
    (hn : n < g.allocation.spillCount)
    (frameBase : Word) :
    frameBase + (g.frame.slotOffset n).toInt64.toBitVec = g.slotCell frameBase n :=
  add_offset (slotOffset_toInt hg.spillBase hg.room hn) frameBase

/-- The value of a register that is needed is brought into a machine register. -/
theorem load_spec
    (hg : g.Laid)
    (h : Agrees g frameBase back p env m)
    {target : Reg}
    {r : Register}
    {v : Int64}
    {is : List (Instruction Label)}
    (hneeded : Needed g.function r p)
    (hr : env.registers r = some v)
    (his : g.load target r = .ok is)
    (locate : Label → Word) :
    effects locate is m = some (m.set target v.toBitVec) := by
  unfold Context.load at his
  split at his
  · rename_i k hplace
    cases his
    rw [effects_copy]
    exact congrArg (fun w => some (m.set target w)) (h.registers r v _ hr hneeded hplace)
  · rename_i n hplace
    cases his
    have hholds : m.memory.read (g.slotCell frameBase n) = v.toBitVec :=
      h.registers r v _ hr hneeded hplace
    simp only [effects_cons, effects_nil, Instruction.operation, Operation.effect,
      Option.bind_some, h.rbp, hg.add_slotOffset (hg.slot_lt hplace), hholds]
  · cases his

/-- A register is written, and what the others need is kept. -/
theorem Agrees.setRegister
    (h : Agrees g frameBase back p env m)
    (hflow : Flow g.function p q)
    {r : Register}
    (hwrites : Writes g.function p r)
    {v : Int64}
    {m' : Machine}
    (hrbp : m'.regs .rbp = m.regs .rbp)
    (hreturns : m'.memory.read (cell frameBase 1) = m.memory.read (cell frameBase 1))
    (hlocals : ∀ slot : Int, 0 ≤ slot → slot < g.function.locals.size →
      m'.memory.read (Context.localCell frameBase slot) =
        m.memory.read (Context.localCell frameBase slot))
    (hself : ∀ place, g.allocation.place? r = some place → g.Holds frameBase m' v place)
    (hothers : ∀ s w place, s ≠ r → Written g.function s p → Needed g.function s p →
      g.allocation.place? s = some place → g.Holds frameBase m w place →
      g.Holds frameBase m' w place) :
    Agrees g frameBase back q (env.setRegister r v) m' := by
  refine ⟨hrbp.trans h.rbp, hreturns.trans h.returns, ?_, ?_, ?_⟩
  · intro s w hs
    simp only [Env.setRegister] at hs
    split at hs
    · rename_i hsr
      rw [hsr]
      exact ⟨p, hwrites, .single hflow⟩
    · obtain ⟨o, ho, hway⟩ := h.written s w hs
      exact ⟨o, ho, hway.tail hflow⟩
  · intro s w place hs hneeded hplace
    simp only [Env.setRegister] at hs
    split at hs
    · rename_i hsr
      cases hs
      exact hself place (hsr ▸ hplace)
    · rename_i hsr
      obtain ⟨u, hway, hu⟩ := hneeded
      have hneeded' : Needed g.function s p := ⟨u, .head hflow hway, hu⟩
      exact hothers s w place hsr (h.written s w hs) hneeded' hplace
        (h.registers s w place hs hneeded' hplace)
  · intro slot w hslot
    obtain ⟨hlow, hhigh, hread⟩ := h.locals slot w hslot
    exact ⟨hlow, hhigh, (hlocals slot hlow hhigh).trans hread⟩

/-- A value is put into the machine register of a register. -/
theorem Agrees.setMachine
    (hg : g.Laid)
    (h : Agrees g frameBase back p env m)
    (hflow : Flow g.function p q)
    {r : Register}
    (hwrites : Writes g.function p r)
    {k : Nat}
    (hplace : g.allocation.place? r = some (.machine k))
    (v : Int64) :
    Agrees g frameBase back q (env.setRegister r v)
      (m.set (Context.valueReg k) v.toBitVec) := by
  obtain ⟨-, hrbp⟩ := valueReg_spec (hg.index_lt hplace)
  refine h.setRegister hflow hwrites ?_ rfl (fun _ _ _ => rfl) ?_ ?_
  · rw [Machine.regs_set, if_neg hrbp.symm]
  · intro place hplace'
    rw [hplace] at hplace'
    cases hplace'
    rw [Context.holds_machine, Machine.regs_set, if_pos rfl]
  · intro s w place hne hwritten hneeded hplace' hholds
    cases place with
    | machine j =>
        obtain ⟨o, ho, hway⟩ := hwritten
        obtain ⟨u, hway', hu⟩ := hneeded
        have hapart : g.allocation.place? s ≠ some (.machine k) := by
          rw [hg.allocation] at hplace ⊢
          exact Allocation.place?_ne_of_flow hg.distinct hne hwrites ho hu hway hway' _ _ hplace
        have hreg : Context.valueReg j ≠ Context.valueReg k := by
          intro heq
          apply hapart
          rw [hplace', valueReg_inj (hg.index_lt hplace') (hg.index_lt hplace) heq]
        rw [Context.holds_machine] at hholds ⊢
        rw [Machine.regs_set, if_neg hreg, hholds]
    | slot n =>
        rw [Context.holds_slot] at hholds ⊢
        rw [Machine.memory_set, hholds]

/-- A value is put into the spill slot of a register. -/
theorem Agrees.setSlot
    (hg : g.Laid)
    (h : Agrees g frameBase back p env m)
    (hflow : Flow g.function p q)
    {r : Register}
    (hwrites : Writes g.function p r)
    {n : Nat}
    (hplace : g.allocation.place? r = some (.slot n))
    (v : Int64) :
    Agrees g frameBase back q (env.setRegister r v)
      (m.setWord (g.slotCell frameBase n) v.toBitVec) := by
  have hroom := hg.room
  have hn := hg.slot_lt hplace
  refine h.setRegister hflow hwrites rfl ?_ ?_ ?_ ?_
  · rw [Machine.memory_setWord, Context.slotCell,
      read_cell_of_ne m.memory frameBase v.toBitVec (by omega) (by omega) (by omega)]
  · intro slot hlow hhigh
    rw [Machine.memory_setWord, Context.slotCell, Context.localCell,
      read_cell_of_ne m.memory frameBase v.toBitVec (by omega) (by omega) (by omega)]
  · intro place hplace'
    rw [hplace] at hplace'
    cases hplace'
    rw [Context.holds_slot, Machine.memory_setWord, Memory.read_write_self]
  · intro s w place hne _ _ hplace' hholds
    cases place with
    | machine j =>
        rw [Context.holds_machine] at hholds ⊢
        rw [Machine.regs_setWord, hholds]
    | slot k =>
        have hk := hg.slot_lt hplace'
        have hkn : k ≠ n := by
          rintro rfl
          exact hne (hg.slot_inj hplace' hplace)
        rw [Context.holds_slot] at hholds ⊢
        rw [← hholds, Machine.memory_setWord, Context.slotCell, Context.slotCell,
          read_cell_of_ne m.memory frameBase v.toBitVec (by omega) (by omega) (by omega)]

/-- A value in `rax` is stored as the value of a register. -/
theorem store_spec
    (hg : g.Laid)
    (h : Agrees g frameBase back p env m)
    (hflow : Flow g.function p q)
    {r : Register}
    (hwrites : Writes g.function p r)
    {v : Int64}
    (hrax : m.regs .rax = v.toBitVec)
    (locate : Label → Word) :
    ∃ m', effects locate (g.store r .rax) m = some m' ∧
      Agrees g frameBase back q (env.setRegister r v) m' := by
  unfold Context.store
  cases hplace : g.allocation.place? r with
  | none =>
      refine ⟨m, rfl, h.setRegister hflow hwrites rfl rfl (fun _ _ _ => rfl) ?_ ?_⟩
      · intro place hplace'
        rw [hplace] at hplace'
        cases hplace'
      · exact fun _ _ _ _ _ _ _ hholds => hholds
  | some place =>
      cases place with
      | machine k =>
          refine ⟨_, ?_, h.setMachine hg hflow hwrites hplace v⟩
          rw [← hrax]
          exact effects_copy locate _ _ m
      | slot n =>
          refine ⟨_, ?_, h.setSlot hg hflow hwrites hplace v⟩
          simp only [effects_cons, effects_nil, Instruction.operation, Operation.effect,
            Option.bind_some, h.rbp, hg.add_slotOffset (hg.slot_lt hplace), hrax]

theorem Context.Laid.localOffset_spec
    (hg : g.Laid)
    {slot : Int}
    {offset : Int32}
    (h : g.localOffset slot = .ok offset) :
    0 ≤ slot ∧ slot < g.function.locals.size ∧
      ∀ frameBase : Word, frameBase + offset.toInt64.toBitVec =
        Context.localCell frameBase slot := by
  have hroom := hg.room
  unfold Context.localOffset at h
  split at h
  · cases h
  · split at h
    · rename_i hslot l hl
      cases h
      have hlt : slot.toNat < g.function.locals.size := by
        obtain ⟨hlt, -⟩ := Array.getElem?_eq_some_iff.mp hl
        exact hlt
      refine ⟨by omega, by omega, fun frameBase => ?_⟩
      have hoffset := localOffset_toInt (hg.locals slot.toNat l hl) (by omega)
      rw [add_offset hoffset, Context.localCell]
      congr 2
      omega
    · cases h

/-- A value in `rax` is stored in a local variable. -/
theorem storeLocal_spec
    (hg : g.Laid)
    (h : Agrees g frameBase back p env m)
    (hflow : Flow g.function p q)
    {slot : Int}
    {offset : Int32}
    (hoffset : g.localOffset slot = .ok offset)
    {v : Int64}
    (hrax : m.regs .rax = v.toBitVec)
    (locate : Label → Word) :
    ∃ m', effects locate [.storeMem .rbp offset .rax] m = some m' ∧
      Agrees g frameBase back q (env.setLocal slot v) m' := by
  have hroom := hg.room
  obtain ⟨hlow, hhigh, haddress⟩ := hg.localOffset_spec hoffset
  have h' := h.flow hflow
  refine ⟨m.setWord (Context.localCell frameBase slot) v.toBitVec, ?_, ?_⟩
  · simp only [effects_cons, effects_nil, Instruction.operation, Operation.effect,
      Option.bind_some, h.rbp, haddress, hrax]
  · refine ⟨h.rbp, ?_, h'.written, ?_, ?_⟩
    · rw [← h.returns]
      exact read_cell_of_ne m.memory frameBase v.toBitVec (by omega) (by omega) (by omega)
    · intro r w place hr hneeded hplace
      have hholds := h'.registers r w place hr hneeded hplace
      cases place with
      | machine k =>
          exact hholds
      | slot n =>
          have hn := hg.slot_lt hplace
          have hread := read_cell_of_ne m.memory frameBase v.toBitVec
            (j := -(g.function.locals.size + n + 1 : Int)) (k := -(slot + 1)) (by omega)
            (by omega) (by omega)
          exact hread.trans hholds
    · intro k w hk
      simp only [Env.setLocal] at hk
      split at hk
      · rename_i hslot
        cases hk
        rw [hslot]
        exact ⟨hlow, hhigh, m.memory.read_write_self _ _⟩
      · obtain ⟨hklow, hkhigh, hread⟩ := h.locals k w hk
        refine ⟨hklow, hkhigh, ?_⟩
        rw [← hread]
        exact read_cell_of_ne m.memory frameBase v.toBitVec (by omega) (by omega) (by omega)

end Transfers

section Instructions

variable
  {g : Context}
  {frameBase back : Word}
  {p q : Point}
  {env : Env}
  {m : Machine}

/-- An operation whose work is on one operand has one. -/
theorem eq_single_of_result?
    {op : Ir.Op}
    {is : List (Instruction Label)}
    {values : List Int64}
    {v : Int64}
    (h : Context.singleWork? op = some is)
    (hv : op.result? values = some v) :
    ∃ a, values = [a] ∧ op.unary? a = some v := by
  have hbinary : ∀ a b, op.binary? a b = none := by
    intro a b
    cases op <;> cases h <;> rfl
  match values with
  | [] =>
      cases hv
  | [a] =>
      exact ⟨a, rfl, hv⟩
  | [a, b] =>
      rw [Ir.Op.result?, hbinary] at hv
      cases hv
  | _ :: _ :: _ :: _ =>
      cases hv

theorem computes_constant
    {c : Ir.Constant}
    {v : Int64}
    (hv : c.value? = some v)
    (locate : Label → Word)
    (m : Machine) :
    Computes locate [Context.loadConstant c] m v := by
  have hset : ∀ i : Instruction Label, i.operation locate = .moveImm .rax v →
      Computes locate [i] m v := by
    intro i hi
    refine ⟨m.set .rax v.toBitVec, ?_, by simp, (OnlyScratch.refl m).set (by decide) _⟩
    rw [effects_cons, hi]
    rfl
  apply hset
  cases c with
  | int n =>
      cases hv
      exact Instruction.operation_movImm locate .rax v
  | bool b =>
      cases hv
      cases b <;> rfl
  | null =>
      cases hv
      rfl
  | _ =>
      cases hv

/-- An operand is brought into a scratch register. -/
theorem load_scratch
    (hg : g.Laid)
    (h : Agrees g frameBase back p env m)
    {target : Reg}
    (htarget : target ∈ scratchRegs)
    {r : Register}
    {v : Int64}
    {is : List (Instruction Label)}
    (hneeded : Needed g.function r p)
    (hr : env.registers r = some v)
    (his : g.load target r = .ok is)
    (locate : Label → Word) :
    effects locate is m = some (m.set target v.toBitVec) ∧
      OnlyScratch m (m.set target v.toBitVec) ∧
      Agrees g frameBase back p env (m.set target v.toBitVec) := by
  have honly : OnlyScratch m (m.set target v.toBitVec) := (OnlyScratch.refl m).set htarget _
  exact ⟨load_spec hg h hneeded hr his locate, honly, h.onlyScratch hg honly⟩

/-- Work on operands that were brought into scratch registers. -/
theorem Computes.after
    {locate : Label → Word}
    {is js : List (Instruction Label)}
    {m m' : Machine}
    {v : Int64}
    (his : effects locate is m = some m')
    (honly : OnlyScratch m m')
    (h : Computes locate js m' v) :
    Computes locate (is ++ js) m v := by
  obtain ⟨m'', hm'', hrax, honly'⟩ := h
  refine ⟨m'', ?_, hrax, honly.trans honly'⟩
  rw [effects_append, his, Option.bind_some, hm'']

/-- An operation on two operands. -/
theorem pair_spec
    (hg : g.Laid)
    (h : Agrees g frameBase back p env m)
    {i : Ir.Instruction}
    {loads work : List (Instruction Label)}
    {v : Int64}
    (hargs : ∀ r ∈ i.args, Needed g.function r p)
    {values : List Int64}
    (hvalues : i.args.mapM env.registers = some values)
    (hv : i.op.result? values = some v)
    (hloads : g.loadPair i = .ok loads)
    (hwork : Context.pairWork? i.op = some work)
    (locate : Label → Word) :
    Computes locate (loads ++ work) m v := by
  unfold Context.loadPair at hloads
  split at hloads
  · rename_i left right hpair
    obtain ⟨is, his, hloads⟩ := bind_eq_ok hloads
    obtain ⟨js, hjs, hloads⟩ := bind_eq_ok hloads
    cases hloads
    rw [hpair] at hargs hvalues
    obtain ⟨a, _, rfl, ha, hvalues⟩ := mapM_cons_eq_some hvalues
    obtain ⟨b, _, rfl, hb, hvalues⟩ := mapM_cons_eq_some hvalues
    cases hvalues
    obtain ⟨hleft, honly, h'⟩ :=
      load_scratch hg h (by decide) (hargs left (by simp)) ha his locate
    obtain ⟨hright, honly', -⟩ :=
      load_scratch hg h' (by decide) (hargs right (by simp)) hb hjs locate
    rw [List.append_assoc]
    refine .after hleft honly (.after hright honly' (pairWork_spec hwork hv ?_ ?_ locate))
    · rw [Machine.regs_set, if_neg (by decide), Machine.regs_set, if_pos rfl]
    · rw [Machine.regs_set, if_pos rfl]
  · cases hloads

/-- An operation on one operand. -/
theorem single_spec
    (hg : g.Laid)
    (h : Agrees g frameBase back p env m)
    {i : Ir.Instruction}
    {loads work : List (Instruction Label)}
    {v : Int64}
    (hargs : ∀ r ∈ i.args, Needed g.function r p)
    {values : List Int64}
    (hvalues : i.args.mapM env.registers = some values)
    (hv : i.op.result? values = some v)
    (hloads : g.loadFirst .rax i = .ok loads)
    (hwork : Context.singleWork? i.op = some work)
    (locate : Label → Word) :
    Computes locate (loads ++ work) m v := by
  unfold Context.loadFirst at hloads
  split at hloads
  · cases hloads
  · rename_i r rest hcons
    obtain ⟨a, rfl, hv⟩ := eq_single_of_result? hwork hv
    rw [hcons] at hargs hvalues
    obtain ⟨_, _, heq, ha, -⟩ := mapM_cons_eq_some hvalues
    obtain ⟨rfl, -⟩ := List.cons.inj heq
    obtain ⟨hload, honly, -⟩ :=
      load_scratch hg h (by decide) (hargs r (by simp)) ha hloads locate
    refine .after hload honly (singleWork_spec hwork hv ?_ locate)
    rw [Machine.regs_set, if_pos rfl]

/-- The code of a result computes it. -/
theorem result_spec
    (hg : g.Laid)
    (h : Agrees g frameBase back p env m)
    {i : Ir.Instruction}
    {is : List (Instruction Label)}
    {v : Int64}
    (hargs : ∀ r ∈ i.args, Needed g.function r p)
    (hv : i.value? env = some v)
    (his : g.result i = .ok is)
    (locate : Label → Word) :
    Computes locate is m v := by
  have hcomputes := Ir.computes_of_value? hv
  unfold Context.result at his
  split at his
  · rename_i hop
    cases his
    rw [Ir.Instruction.value?, hop] at hv
    exact computes_constant hv locate m
  · rename_i hop
    obtain ⟨offset, hoffset, his⟩ := bind_eq_ok his
    cases his
    rw [Ir.Instruction.value?, hop] at hv
    obtain ⟨-, -, hread⟩ := h.locals i.slot v hv
    obtain ⟨-, -, haddress⟩ := hg.localOffset_spec hoffset
    refine ⟨m.set .rax v.toBitVec, ?_, by simp, (OnlyScratch.refl m).set (by decide) _⟩
    simp only [effects_cons, effects_nil, Instruction.operation, Operation.effect,
      Option.bind_some, h.rbp, haddress, hread]
  · rename_i hop
    exact absurd hop (Ir.Op.ne_of_computes hcomputes rfl)
  · rename_i hop
    exact absurd hop (Ir.Op.ne_of_computes hcomputes rfl)
  · rename_i hconst hlocal halloca hload
    rw [Ir.value?_of_ne hconst hlocal] at hv
    obtain ⟨values, hvalues, hv⟩ := Option.bind_eq_some_iff.mp hv
    split at his
    · rename_i work hwork
      obtain ⟨loads, hloads, his⟩ := bind_eq_ok his
      cases his
      exact pair_spec hg h hargs hvalues hv hloads hwork locate
    · rename_i work hnone hwork
      obtain ⟨loads, hloads, his⟩ := bind_eq_ok his
      cases his
      exact single_spec hg h hargs hvalues hv hloads hwork locate
    · cases his

theorem instruction_of_computes
    {i : Ir.Instruction}
    {r : Register}
    (hcomputes : i.op.computes = true)
    (hdest : i.dest? = some r) :
    g.instruction i = do return (← g.result i) ++ g.store r .rax := by
  unfold Context.instruction
  split
  · rename_i hop
    exact absurd hop (Ir.Op.ne_of_computes hcomputes rfl)
  · rename_i hop
    exact absurd hop (Ir.Op.ne_of_computes hcomputes rfl)
  · rename_i hop
    exact absurd hop (Ir.Op.ne_of_computes hcomputes rfl)
  · rename_i hop
    exact absurd hop (Ir.Op.ne_of_computes hcomputes rfl)
  · rw [hdest]

/-- The code of an instruction does what the instruction does. -/
theorem instruction_spec
    (hg : g.Laid)
    (h : Agrees g frameBase back p env m)
    {b : Ir.Block}
    {i : Ir.Instruction}
    {is : List (Instruction Label)}
    {env' : Env}
    (hb : g.function.blocks[p.block]? = some b)
    (hi : b.instructions[p.index]? = some i)
    (his : g.instruction i = .ok is)
    (hrun : i.run env = some env')
    (locate : Label → Word) :
    ∃ m', effects locate is m = some m' ∧
      Agrees g frameBase back ⟨p.block, p.index + 1⟩ env' m' := by
  obtain ⟨hindex, -⟩ := Array.getElem?_eq_some_iff.mp hi
  have hflow : Flow g.function p ⟨p.block, p.index + 1⟩ := .next hb hindex
  have hargs : i.op ≠ .phi → ∀ r ∈ i.args, Needed g.function r p := by
    intro hphi r hr
    refine ⟨p, .refl, b, hb, Or.inl ⟨i, hi, ?_⟩⟩
    rwa [Ir.Instruction.uses, if_neg hphi]
  rcases Ir.run_cases hrun with ⟨hop, rfl⟩ | ⟨r, v, hop, hr, hv, rfl⟩ |
    ⟨r, v, hdest, hv, rfl⟩
  · have hnone : g.instruction i = .ok [] := by
      rcases hop with hop | hop <;> rw [Context.instruction, hop]
    cases hnone.symm.trans his
    exact ⟨m, rfl, h.flow hflow⟩
  · simp only [Context.instruction, hop] at his
    obtain ⟨offset, hoffset, his⟩ := bind_eq_ok his
    obtain ⟨loads, hloads, his⟩ := bind_eq_ok his
    cases his
    simp only [Context.loadFirst, hr] at hloads
    obtain ⟨hload, -, h'⟩ := load_scratch hg h (by decide)
      (hargs (by simp [hop]) r (by simp [hr])) hv hloads locate
    obtain ⟨m', hm', hagrees⟩ := storeLocal_spec hg h' hflow hoffset (v := v) (by simp) locate
    refine ⟨m', ?_, hagrees⟩
    rw [effects_append, hload, Option.bind_some, hm']
  · have hcomputes := Ir.computes_of_value? hv
    rw [instruction_of_computes hcomputes hdest] at his
    obtain ⟨work, hresult, his⟩ := bind_eq_ok his
    cases his
    have hphi : i.op ≠ .phi := Ir.Op.ne_of_computes hcomputes rfl
    obtain ⟨m', hm', hrax, honly⟩ := result_spec hg h (hargs hphi) hv hresult locate
    obtain ⟨m'', hm'', hagrees⟩ := store_spec hg (h.onlyScratch hg honly) hflow
      ⟨b, i, hb, hi, hdest⟩ hrax locate
    refine ⟨m'', ?_, hagrees⟩
    rw [effects_append, hm', Option.bind_some, hm'']

end Instructions

end X64
end StackNative
