import Mathlib.Tactic.Set
import StackNative.Proofs.Ir.Interpreter
import StackNative.Proofs.X64.Machine
import StackNative.X64.Codegen

/-!
# The work of operations

**Input.**  An operation whose operands are in `rax` and `rcx`.

**Results.**
* `pairWork_spec`, `singleWork_spec`: the instructions of an operation leave its
  result in `rax` and change scratch registers and flags only.
-/

namespace StackNative
namespace X64

open Ir (Op truthValue)

section Effects

variable {label : Type} (locate : label → Word)

@[simp] theorem effects_nil
    (m : Machine) :
    effects locate [] m = some m :=
  rfl

@[simp] theorem effects_cons
    (i : Instruction label)
    (is : List (Instruction label))
    (m : Machine) :
    effects locate (i :: is) m = ((i.operation locate).effect m).bind (effects locate is) :=
  rfl

theorem effects_append
    (is js : List (Instruction label))
    (m : Machine) :
    effects locate (is ++ js) m = (effects locate is m).bind (effects locate js) := by
  rw [effects, List.foldlM_append]
  rfl

end Effects

section Registers

@[simp] theorem Machine.regs_set
    (m : Machine)
    (r q : Reg)
    (w : Word) :
    (m.set r w).regs q = if q = r then w else m.regs q :=
  rfl

@[simp] theorem Machine.flags_set
    (m : Machine)
    (r : Reg)
    (w : Word) :
    (m.set r w).flags = m.flags :=
  rfl

@[simp] theorem Machine.memory_set
    (m : Machine)
    (r : Reg)
    (w : Word) :
    (m.set r w).memory = m.memory :=
  rfl

@[simp] theorem Machine.regs_setFlags
    (m : Machine)
    (flags : Flags) :
    (m.setFlags flags).regs = m.regs :=
  rfl

@[simp] theorem Machine.flags_setFlags
    (m : Machine)
    (flags : Flags) :
    (m.setFlags flags).flags = flags :=
  rfl

@[simp] theorem Machine.memory_setFlags
    (m : Machine)
    (flags : Flags) :
    (m.setFlags flags).memory = m.memory :=
  rfl

@[simp] theorem Machine.regs_setWord
    (m : Machine)
    (a w : Word) :
    (m.setWord a w).regs = m.regs :=
  rfl

@[simp] theorem Machine.memory_setWord
    (m : Machine)
    (a w : Word) :
    (m.setWord a w).memory = m.memory.write a w :=
  rfl

/-- The registers that instructions work in. -/
def scratchRegs : List Reg := [.rax, .rcx, .rdx]

/-- Nothing but scratch registers and flags is changed. -/
structure OnlyScratch (m m' : Machine) : Prop where
  memory : m'.memory = m.memory
  regs : ∀ r, r ∉ scratchRegs → m'.regs r = m.regs r

theorem OnlyScratch.refl
    (m : Machine) :
    OnlyScratch m m :=
  ⟨rfl, fun _ _ => rfl⟩

theorem OnlyScratch.trans
    {m m' m'' : Machine}
    (h : OnlyScratch m m')
    (h' : OnlyScratch m' m'') :
    OnlyScratch m m'' :=
  ⟨h'.memory.trans h.memory, fun r hr => (h'.regs r hr).trans (h.regs r hr)⟩

theorem OnlyScratch.set
    {m m' : Machine}
    (h : OnlyScratch m m')
    {r : Reg}
    (hr : r ∈ scratchRegs)
    (w : Word) :
    OnlyScratch m (m'.set r w) := by
  refine ⟨h.memory, ?_⟩
  intro q hq
  have hne : q ≠ r := by
    rintro rfl
    exact hq hr
  rw [Machine.regs_set, if_neg hne, h.regs q hq]

theorem OnlyScratch.setFlags
    {m m' : Machine}
    (h : OnlyScratch m m')
    (flags : Flags) :
    OnlyScratch m (m'.setFlags flags) :=
  ⟨h.memory, h.regs⟩

end Registers

section Comparisons

theorem sub_eq_zero_iff
    (a b : Int64) :
    (a.toBitVec - b.toBitVec == 0) = decide (a = b) := by
  by_cases h : a = b
  · subst h
    simp
  · have hne : a.toBitVec ≠ b.toBitVec := fun hbits => h (Int64.toBitVec_inj.mp hbits)
    have hsub : a.toBitVec - b.toBitVec ≠ 0#64 := by
      intro hzero
      apply hne
      bv_omega
    simpa [h] using hsub

/-- A difference is negative, or overflows and is not, exactly if the first is less. -/
theorem msb_sub_bne_overflow
    (a b : Int64) :
    ((a.toBitVec - b.toBitVec).msb != a.toBitVec.ssubOverflow b.toBitVec) =
      decide (a < b) := by
  have ha := a.toBitVec.toInt_lt
  have ha' := a.toBitVec.le_toInt
  have hb := b.toBitVec.toInt_lt
  have hb' := b.toBitVec.le_toInt
  have hlt : a < b ↔ a.toBitVec.toInt < b.toBitVec.toInt := by
    rw [Int64.lt_iff_toInt_lt]
    rfl
  rw [BitVec.msb_eq_toInt, BitVec.ssubOverflow, BitVec.toInt_sub, Int.bmod_def]
  simp only [hlt]
  generalize a.toBitVec.toInt = x at *
  generalize b.toBitVec.toInt = y at *
  by_cases hhigh : x - y ≥ 2 ^ (64 - 1)
  · simp only [hhigh, decide_true, Bool.true_or]
    by_cases hless : x < y
    · omega
    · simp only [hless, decide_false, bne_eq_false_iff_eq, decide_eq_true_eq]
      omega
  · by_cases hlow : x - y < -2 ^ (64 - 1)
    · simp only [hlow, decide_true, Bool.or_true]
      by_cases hless : x < y
      · simp only [hless, decide_true, bne_iff_ne, ne_eq, decide_eq_true_eq]
        omega
      · omega
    · simp only [hhigh, hlow, decide_false, Bool.or_self, Bool.bne_false, decide_eq_decide]
      omega

/-- The conditions after a comparison. -/
theorem holds?_cmp
    (a b : Int64) :
    let flags := Flags.ofResult (a.toBitVec - b.toBitVec)
      (some (a.toBitVec.ssubOverflow b.toBitVec))
    Cond.equal.holds? flags = some (decide (a = b)) ∧
      Cond.notEqual.holds? flags = some (decide (a ≠ b)) ∧
      Cond.less.holds? flags = some (decide (a < b)) ∧
      Cond.greaterOrEqual.holds? flags = some (decide (b ≤ a)) ∧
      Cond.lessOrEqual.holds? flags = some (decide (a ≤ b)) ∧
      Cond.greater.holds? flags = some (decide (b < a)) := by
  have hzero := sub_eq_zero_iff a b
  have hless := msb_sub_bne_overflow a b
  have hle : ∀ c d : Int64, c ≤ d ↔ ¬d < c := by
    intro c d
    rw [Int64.le_iff_toInt_le, Int64.lt_iff_toInt_lt, Int.not_lt]
  have heq : a = b ↔ ¬a < b ∧ ¬b < a := by
    rw [← Int64.toInt_inj, Int64.lt_iff_toInt_lt, Int64.lt_iff_toInt_lt]
    omega
  have hnot : ∀ x y : Bool, (x == y) = !(x != y) := by decide
  refine ⟨congrArg some hzero, congrArg some ?_, congrArg some hless, congrArg some ?_,
    congrArg some ?_, congrArg some ?_⟩
  · rw [hzero]
    simp
  · rw [hnot, hless, ← decide_not, decide_eq_decide, hle]
  · rw [hzero, hless, ← Bool.decide_or, decide_eq_decide, hle]
    grind
  · rw [hzero, hnot, hless]
    simp only [← decide_not, ← Bool.decide_and, decide_eq_decide]
    grind

/-- The conditions after a test of a word with itself. -/
theorem holds?_test
    (a : Int64) :
    let flags := Flags.ofResult (a.toBitVec &&& a.toBitVec) (some false)
    Cond.equal.holds? flags = some (decide (a = 0)) ∧
      Cond.notEqual.holds? flags = some (decide (a ≠ 0)) := by
  have hzero : (a.toBitVec &&& a.toBitVec == 0) = decide (a = 0) := by
    have hsub := sub_eq_zero_iff a 0
    rwa [Int64.toBitVec_zero, BitVec.sub_zero, ← BitVec.and_self (x := a.toBitVec)] at hsub
  refine ⟨congrArg some hzero, congrArg some ?_⟩
  rw [hzero]
  simp

end Comparisons

section TruthValues

theorem Machine.set_set
    (m : Machine)
    (r : Reg)
    (v w : Word) :
    (m.set r v).set r w = m.set r w := by
  simp only [Machine.set, Machine.mk.injEq, and_self, and_true]
  funext q
  split <;> rfl

theorem setWidth_lowByte
    (w : Word)
    (b : Bool) :
    ((w &&& ~~~0xff ||| if b then 1 else 0).setWidth 8).setWidth 64 =
      (truthValue b).toBitVec := by
  have hmask : (~~~0xff : Word).setWidth 8 = 0 := by decide
  rw [BitVec.setWidth_or, BitVec.setWidth_and, hmask]
  cases b <;> simp [truthValue]

variable {label : Type} (locate : label → Word)

/-- A condition is made a truth value in a register. -/
theorem effects_setCond
    {c : Cond}
    {m : Machine}
    {b : Bool}
    (hb : c.holds? m.flags = some b)
    (r : Reg) :
    effects locate [.setCond c r, .wide .movzx8 r r] m =
      some (m.set r (truthValue b).toBitVec) := by
  simp only [effects_cons, Instruction.operation, Operation.effect, hb, Option.map_some,
    Option.bind_some, WideOp.effect, Machine.regs_set, if_true, setWidth_lowByte,
    Machine.set_set, effects_nil]

/-- What a test of a register with itself tells is made a truth value there. -/
theorem effects_tested
    {c : Cond}
    {m : Machine}
    {r : Reg}
    {a : Int64}
    {b : Bool}
    (ha : m.regs r = a.toBitVec)
    (hc : c.holds? (.ofResult (a.toBitVec &&& a.toBitVec) (some false)) = some b) :
    effects locate [.pair .test r r, .setCond c r, .wide .movzx8 r r] m =
      some ((m.setFlags (.ofResult (a.toBitVec &&& a.toBitVec) (some false))).set r
        (truthValue b).toBitVec) := by
  rw [effects_cons]
  simp only [Instruction.operation, Operation.effect, PairOp.effect, ha, Option.bind_some]
  exact effects_setCond locate hc r

end TruthValues

section Division

/-- A word and its sign, as one number. -/
theorem toInt_extended
    (a : Word) :
    ((if a.msb then BitVec.allOnes 64 else 0) ++ a).toInt = a.toInt := by
  have hlt := a.isLt
  have htoInt := BitVec.toInt_eq_toNat_cond a
  rw [BitVec.toInt_append, if_neg (by decide), BitVec.msb_eq_decide]
  by_cases h : 2 ^ (64 - 1) ≤ a.toNat
  · have hsign : (BitVec.allOnes 64).toInt = -1 := by decide
    simp only [h, decide_true, if_true, hsign]
    omega
  · have hsign : (0 : Word).toInt = 0 := by decide
    simp only [h, decide_false, Bool.false_eq_true, if_false, hsign]
    omega

/-- The numbers that a division gives. -/
theorem div_mod_bits
    {a b : Int64}
    (hb : b ≠ 0)
    (hmin : ¬(a = Int64.minValue ∧ b = -1)) :
    b.toBitVec ≠ 0 ∧
      ¬(a.toBitVec.toInt.tdiv b.toBitVec.toInt < -2 ^ 63 ∨
        2 ^ 63 ≤ a.toBitVec.toInt.tdiv b.toBitVec.toInt) ∧
      BitVec.ofInt 64 (a.toBitVec.toInt.tdiv b.toBitVec.toInt) = (a / b).toBitVec ∧
      BitVec.ofInt 64 (a.toBitVec.toInt.tmod b.toBitVec.toInt) = (a % b).toBitVec := by
  have hdiv : a.toBitVec.toInt.tdiv b.toBitVec.toInt = (a / b).toBitVec.toInt := by
    by_cases ha : a = Int64.minValue
    · exact (Int64.toInt_div_of_ne_right a b fun h => hmin ⟨ha, h⟩).symm
    · exact (Int64.toInt_div_of_ne_left a b ha).symm
  have hmod : a.toBitVec.toInt.tmod b.toBitVec.toInt = (a % b).toBitVec.toInt :=
    (Int64.toInt_mod a b).symm
  have hlow := (a / b).toBitVec.le_toInt
  have hhigh := (a / b).toBitVec.toInt_lt
  refine ⟨fun h => hb (Int64.toBitVec_inj.mp h), ?_, ?_, ?_⟩
  · rw [hdiv]
    omega
  · rw [hdiv, BitVec.ofInt_toInt]
  · rw [hmod, BitVec.ofInt_toInt]

/-- A division leaves the quotient in `rax` and the remainder in `rdx`. -/
theorem effects_idiv
    {m : Machine}
    {a b : Int64}
    (ha : m.regs .rax = a.toBitVec)
    (hb : m.regs .rcx = b.toBitVec)
    (hzero : b ≠ 0)
    (hmin : ¬(a = Int64.minValue ∧ b = -1))
    (locate : Label → Word) :
    ∃ m', effects locate [.cqo, .single .idiv .rcx] m = some m' ∧
      m'.regs .rax = (a / b).toBitVec ∧ m'.regs .rdx = (a % b).toBitVec ∧ OnlyScratch m m' := by
  obtain ⟨hne, hroom, hquotient, hremainder⟩ := div_mod_bits hzero hmin
  have hdividend := toInt_extended a.toBitVec
  have hrax : Reg.rax ≠ Reg.rdx := by decide
  have hrcx : Reg.rcx ≠ Reg.rdx := by decide
  have heffects : effects locate [.cqo, .single .idiv .rcx] m =
      some ((((m.set .rdx (if a.toBitVec.msb then .allOnes 64 else 0)).set .rax
        (a / b).toBitVec).set .rdx (a % b).toBitVec).setFlags {}) := by
    simp only [effects_cons, effects_nil, Instruction.operation, Operation.effect,
      SingleOp.effect, Option.bind_some, Machine.regs_set, if_neg hrax, if_neg hrcx, if_true, ha,
      hb, hdividend, hne, hroom, or_self, if_false, hquotient, hremainder]
  refine ⟨_, heffects, by simp [hrax], by simp, ?_⟩
  exact ((((OnlyScratch.refl m).set (by decide) _).set (by decide) _).set (by decide) _).setFlags _

end Division

section Shifts

/-- A shift count is taken modulo the number of bits. -/
theorem toNat_smod
    (x : Word) :
    (x.smod 64).toNat = x.toNat % 64 := by
  have hlt := x.isLt
  have hx := BitVec.toInt_eq_toNat_cond x
  have hmod : (x.smod 64).toInt = x.toInt % 64 := by
    rw [BitVec.toInt_smod]
    exact Int.fmod_eq_emod_of_nonneg _ (by decide)
  have hresult := BitVec.toInt_eq_toNat_cond (x.smod 64)
  have hlt' := (x.smod 64).isLt
  omega

end Shifts

section Operations

/-- Instructions leave a value in `rax` and change nothing but scratch registers and flags. -/
def Computes (locate : Label → Word) (is : List (Instruction Label)) (m : Machine) (v : Int64) :
    Prop :=
  ∃ m', effects locate is m = some m' ∧ m'.regs .rax = v.toBitVec ∧ OnlyScratch m m'

theorem computes_compared
    {c : Cond}
    {m : Machine}
    {a b : Int64}
    {holds : Bool}
    (ha : m.regs .rax = a.toBitVec)
    (hb : m.regs .rcx = b.toBitVec)
    (hc : c.holds? (.ofResult (a.toBitVec - b.toBitVec)
      (some (a.toBitVec.ssubOverflow b.toBitVec))) = some holds)
    (locate : Label → Word) :
    Computes locate (Context.compared c) m (truthValue holds) := by
  have heffects : effects locate (Context.compared c) m =
      some ((m.setFlags (.ofResult (a.toBitVec - b.toBitVec)
        (some (a.toBitVec.ssubOverflow b.toBitVec)))).set .rax (truthValue holds).toBitVec) := by
    rw [Context.compared, effects_cons]
    simp only [Instruction.operation, Operation.effect, PairOp.effect, ha, hb, Option.bind_some]
    exact effects_setCond locate hc .rax
  exact ⟨_, heffects, by simp, ((OnlyScratch.refl m).setFlags _).set (by decide) _⟩

/-- An instruction that writes `rax` and the flags computes what it writes. -/
theorem computes_of_effect
    {locate : Label → Word}
    {i : Instruction Label}
    {m : Machine}
    {w : Word}
    {flags : Flags}
    {v : Int64}
    (hi : (i.operation locate).effect m = some ((m.set .rax w).setFlags flags))
    (hw : w = v.toBitVec) :
    Computes locate [i] m v := by
  refine ⟨(m.set .rax w).setFlags flags, ?_, by simp [hw], ?_⟩
  · rw [effects_cons, hi]
    rfl
  · exact ((OnlyScratch.refl m).set (by decide) w).setFlags flags

/-- Both operands are made truth values. -/
theorem effects_truths
    {m : Machine}
    {a b : Int64}
    (ha : m.regs .rax = a.toBitVec)
    (hb : m.regs .rcx = b.toBitVec)
    (locate : Label → Word) :
    ∃ m', effects locate (Context.truth .rax ++ Context.truth .rcx) m = some m' ∧
      m'.regs .rax = (truthValue (a ≠ 0)).toBitVec ∧
      m'.regs .rcx = (truthValue (b ≠ 0)).toBitVec ∧ OnlyScratch m m' := by
  have hne : Reg.rcx ≠ Reg.rax := by decide
  have hleft := effects_tested locate ha (holds?_test a).2
  set mid := (m.setFlags (.ofResult (a.toBitVec &&& a.toBitVec) (some false))).set .rax
    (truthValue (a ≠ 0)).toBitVec with hmid
  have hcx : mid.regs .rcx = b.toBitVec := by simp [hmid, hne, hb]
  have honly : OnlyScratch m mid := ((OnlyScratch.refl m).setFlags _).set (by decide) _
  refine ⟨_, ?_, ?_, ?_, (honly.setFlags (.ofResult (b.toBitVec &&& b.toBitVec) (some false))).set
    (r := .rcx) (by decide) (truthValue (b ≠ 0)).toBitVec⟩
  · rw [effects_append, Context.truth, hleft, Option.bind_some]
    exact effects_tested locate hcx (holds?_test b).2
  · simp [hmid, hne.symm]
  · simp

/-- The instructions of an operation on two operands compute its result. -/
theorem pairWork_spec
    {op : Op}
    {is : List (Instruction Label)}
    {m : Machine}
    {a b v : Int64}
    (his : Context.pairWork? op = some is)
    (hv : op.binary? a b = some v)
    (ha : m.regs .rax = a.toBitVec)
    (hb : m.regs .rcx = b.toBitVec)
    (locate : Label → Word) :
    Computes locate is m v := by
  obtain ⟨heq, hne, hlt, hge, hle, hgt⟩ := holds?_cmp a b
  have hcount : b.toBitVec.toNat % 256 % 64 = b.toBitVec.toNat % 64 := by omega
  cases op with
  | add =>
      simp only [Context.pairWork?, Op.binary?, Option.some.injEq] at his hv
      subst his hv
      exact computes_of_effect rfl (by simp [ha, hb])
  | sub =>
      simp only [Context.pairWork?, Op.binary?, Option.some.injEq] at his hv
      subst his hv
      exact computes_of_effect rfl (by simp [ha, hb])
  | mul =>
      simp only [Context.pairWork?, Op.binary?, Option.some.injEq] at his hv
      subst his hv
      exact computes_of_effect rfl (by simp [ha, hb])
  | bitAnd =>
      simp only [Context.pairWork?, Op.binary?, Option.some.injEq] at his hv
      subst his hv
      exact computes_of_effect rfl (by simp [ha, hb])
  | bitOr =>
      simp only [Context.pairWork?, Op.binary?, Option.some.injEq] at his hv
      subst his hv
      exact computes_of_effect rfl (by simp [ha, hb])
  | bitXor =>
      simp only [Context.pairWork?, Op.binary?, Option.some.injEq] at his hv
      subst his hv
      exact computes_of_effect rfl (by simp [ha, hb])
  | div =>
      simp only [Op.binary?, Option.ite_none_left_eq_some, not_or, Option.some.injEq] at hv
      obtain ⟨⟨hzero, hmin⟩, rfl⟩ := hv
      simp only [Context.pairWork?, Option.some.injEq] at his
      subst his
      obtain ⟨m', hm', hq, -, honly⟩ := effects_idiv ha hb hzero hmin locate
      exact ⟨m', hm', hq, honly⟩
  | mod =>
      simp only [Op.binary?, Option.ite_none_left_eq_some, not_or, Option.some.injEq] at hv
      obtain ⟨⟨hzero, hmin⟩, rfl⟩ := hv
      simp only [Context.pairWork?, Option.some.injEq] at his
      subst his
      obtain ⟨m', hm', -, hr, honly⟩ := effects_idiv ha hb hzero hmin locate
      refine ⟨m'.set .rax (m'.regs .rdx), ?_, by simp [hr], honly.set (by decide) _⟩
      exact (effects_append locate [.cqo, .single .idiv .rcx] [.pair .mov .rax .rdx] m).trans
        (by rw [hm']; rfl)
  | shl =>
      simp only [Context.pairWork?, Op.binary?, Option.some.injEq] at his hv
      subst his hv
      refine computes_of_effect rfl ?_
      rw [Int64.toBitVec_shiftLeft, BitVec.shiftLeft_eq', toNat_smod, ha, Machine.shiftCount, hb,
        hcount]
  | shr =>
      simp only [Context.pairWork?, Op.binary?, Option.some.injEq] at his hv
      subst his hv
      refine computes_of_effect rfl ?_
      rw [Int64.toBitVec_shiftRight, BitVec.sshiftRight_eq', toNat_smod, ha, Machine.shiftCount,
        hb, hcount]
  | eq =>
      simp only [Context.pairWork?, Op.binary?, Option.some.injEq] at his hv
      subst his hv
      exact computes_compared ha hb heq locate
  | ne =>
      simp only [Context.pairWork?, Op.binary?, Option.some.injEq] at his hv
      subst his hv
      exact computes_compared ha hb hne locate
  | lt =>
      simp only [Context.pairWork?, Op.binary?, Option.some.injEq] at his hv
      subst his hv
      exact computes_compared ha hb hlt locate
  | le =>
      simp only [Context.pairWork?, Op.binary?, Option.some.injEq] at his hv
      subst his hv
      exact computes_compared ha hb hle locate
  | gt =>
      simp only [Context.pairWork?, Op.binary?, Option.some.injEq] at his hv
      subst his hv
      exact computes_compared ha hb hgt locate
  | ge =>
      simp only [Context.pairWork?, Op.binary?, Option.some.injEq] at his hv
      subst his hv
      exact computes_compared ha hb hge locate
  | and =>
      simp only [Context.pairWork?, Op.binary?, Option.some.injEq] at his hv
      subst his hv
      obtain ⟨m', hm', hleft, hright, honly⟩ := effects_truths ha hb locate
      obtain ⟨m'', hm'', hrax, honly'⟩ : Computes locate [.pair .and .rax .rcx] m'
          (truthValue (a ≠ 0 ∧ b ≠ 0)) := by
        refine computes_of_effect rfl ?_
        rw [hleft, hright]
        by_cases hzero : a = 0 <;> by_cases hzero' : b = 0 <;> simp [hzero, hzero', truthValue]
      refine ⟨m'', ?_, hrax, honly.trans honly'⟩
      rw [effects_append, hm', Option.bind_some, hm'']
  | or =>
      simp only [Context.pairWork?, Op.binary?, Option.some.injEq] at his hv
      subst his hv
      obtain ⟨m', hm', hleft, hright, honly⟩ := effects_truths ha hb locate
      obtain ⟨m'', hm'', hrax, honly'⟩ : Computes locate [.pair .or .rax .rcx] m'
          (truthValue (a ≠ 0 ∨ b ≠ 0)) := by
        refine computes_of_effect rfl ?_
        rw [hleft, hright]
        by_cases hzero : a = 0 <;> by_cases hzero' : b = 0 <;> simp [hzero, hzero', truthValue]
      refine ⟨m'', ?_, hrax, honly.trans honly'⟩
      rw [effects_append, hm', Option.bind_some, hm'']
  | _ =>
      simp [Context.pairWork?] at his

/-- The instructions of an operation on one operand compute its result. -/
theorem singleWork_spec
    {op : Op}
    {is : List (Instruction Label)}
    {m : Machine}
    {a v : Int64}
    (his : Context.singleWork? op = some is)
    (hv : op.unary? a = some v)
    (ha : m.regs .rax = a.toBitVec)
    (locate : Label → Word) :
    Computes locate is m v := by
  cases op with
  | move =>
      simp only [Context.singleWork?, Op.unary?, Option.some.injEq] at his hv
      subst his hv
      exact ⟨m, rfl, ha, OnlyScratch.refl m⟩
  | neg =>
      simp only [Context.singleWork?, Op.unary?, Option.some.injEq] at his hv
      subst his hv
      exact computes_of_effect rfl (by simp [ha])
  | bitNot =>
      simp only [Context.singleWork?, Op.unary?, Option.some.injEq] at his hv
      subst his hv
      exact ⟨_, rfl, by simp [ha], (OnlyScratch.refl m).set (by decide) _⟩
  | not =>
      simp only [Context.singleWork?, Op.unary?, Option.some.injEq] at his hv
      subst his hv
      exact ⟨_, effects_tested locate ha (holds?_test a).1, by simp,
        ((OnlyScratch.refl m).setFlags _).set (by decide) _⟩
  | _ =>
      simp [Context.singleWork?] at his

end Operations

end X64
end StackNative
