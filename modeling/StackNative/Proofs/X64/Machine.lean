import Mathlib.Logic.Relation
import StackNative.Proofs.X64.Layout

/-!
# Running machine code

**Input.**  The bytes of a program, the address they are loaded at, and the state of
the processor.

**Algorithm.**  A step reads the instruction at the instruction pointer and carries
it out: registers and memory hold 64-bit words, memory is addressed by bytes, and
addresses wrap around.  Flags that an instruction leaves undefined have no value.
There is no next step where the bytes are not an instruction, a trap or a call of
the operating system is met, a division faults, or an undefined flag is asked for.

**Results.**
* `read_write_self`, `read_write_of_apart`: words in memory.
* `step_instruction`: the step at an instruction of a program.
* `steps_of_effects`: instructions in a row are carried out one after the other.
-/

namespace StackNative
namespace X64

open Relation (ReflTransGen)
open Text (littleEndian)

/-- A word of the processor. -/
abbrev Word := BitVec 64

section Memory

/-- The bytes at all addresses. -/
abbrev Memory := Word → UInt8

namespace Memory

/-- The word at an address, its lowest byte first. -/
def read (mem : Memory) (a : Word) : Word :=
  .ofNat 64 (numberOf ((List.range 8).map fun k => mem (a + .ofNat 64 k)))

/-- Writes a word at an address. -/
def write (mem : Memory) (a w : Word) : Memory := fun b =>
  if (b - a).toNat < 8 then (littleEndian 8 w.toNat).getD (b - a).toNat 0 else mem b

theorem read_write_self
    (mem : Memory)
    (a w : Word) :
    (mem.write a w).read a = w := by
  have hbytes : ((List.range 8).map fun k => mem.write a w (a + .ofNat 64 k)) =
      littleEndian 8 w.toNat := by
    apply List.ext_getElem
    · simp
    · intro k hk hk'
      simp only [List.length_map, List.length_range] at hk
      have hdistance : (a + BitVec.ofNat 64 k - a).toNat = k := by
        rw [BitVec.add_comm, BitVec.add_sub_cancel, BitVec.toNat_ofNat]
        omega
      simp only [List.getElem_map, List.getElem_range, write, hdistance, if_pos hk]
      rw [List.getD_eq_getElem?_getD, List.getElem?_eq_getElem hk', Option.getD_some]
  have hw : w.toNat < 256 ^ 8 := Nat.lt_of_lt_of_eq w.isLt (by decide)
  rw [read, hbytes, numberOf_littleEndian, Nat.mod_eq_of_lt hw, BitVec.ofNat_toNat,
    BitVec.setWidth_eq]

theorem read_write_of_apart
    (mem : Memory)
    {a b : Word}
    (w : Word)
    (hab : 8 ≤ (b - a).toNat)
    (hba : 8 ≤ (a - b).toNat) :
    (mem.write a w).read b = mem.read b := by
  have hbytes : ∀ k < 8, mem.write a w (b + .ofNat 64 k) = mem (b + .ofNat 64 k) := by
    intro k hk
    have hfar : ¬(b + BitVec.ofNat 64 k - a).toNat < 8 := by
      have ha := a.isLt
      have hb := b.isLt
      simp only [BitVec.toNat_sub, BitVec.toNat_add, BitVec.toNat_ofNat] at *
      omega
    rw [write, if_neg hfar]
  rw [read, read, List.map_congr_left fun k hk => hbytes k (List.mem_range.mp hk)]

end Memory

end Memory

section Processor

/-- The flags that signed comparisons look at, as far as they are defined. -/
structure Flags where
  zero : Option Bool := none
  sign : Option Bool := none
  overflow : Option Bool := none

/-- The flags of a result. -/
def Flags.ofResult (w : Word) (overflow : Option Bool) : Flags :=
  ⟨some (w == 0), some w.msb, overflow⟩

/-- Whether a condition holds.  Those that look at other flags have no value. -/
def Cond.holds? (c : Cond) (flags : Flags) : Option Bool :=
  if c = equal then flags.zero
  else if c = notEqual then flags.zero.map (!·)
  else if c = less then do return (← flags.sign) != (← flags.overflow)
  else if c = greaterOrEqual then do return (← flags.sign) == (← flags.overflow)
  else if c = lessOrEqual then do
    return (← flags.zero) || (← flags.sign) != (← flags.overflow)
  else if c = greater then do
    return !(← flags.zero) && (← flags.sign) == (← flags.overflow)
  else none

/-- The state of the processor, without the instruction pointer. -/
structure Machine where
  regs : Reg → Word
  flags : Flags := {}
  memory : Memory

namespace Machine

def set (m : Machine) (r : Reg) (w : Word) : Machine :=
  { m with regs := fun q => if q = r then w else m.regs q }

def setFlags (m : Machine) (flags : Flags) : Machine := { m with flags := flags }

def setWord (m : Machine) (a w : Word) : Machine := { m with memory := m.memory.write a w }

/-- Puts a word on the stack. -/
def push (m : Machine) (w : Word) : Machine :=
  (m.set .rsp (m.regs .rsp - 8)).setWord (m.regs .rsp - 8) w

/-- The word on the stack, and the state without it. -/
def pop (m : Machine) : Word × Machine :=
  (m.memory.read (m.regs .rsp), m.set .rsp (m.regs .rsp + 8))

/-- The number of places that a shift by `cl` shifts. -/
def shiftCount (m : Machine) : Nat := (m.regs .rcx).toNat % 256 % 64

/-- The flags after a shift.  A shift by nothing keeps them; the overflow of a shift by more than
one is undefined. -/
def shiftFlags (m : Machine) (w : Word) (overflow : Bool) : Flags :=
  if m.shiftCount = 0 then m.flags
  else .ofResult w (if m.shiftCount = 1 then some overflow else none)

end Machine

end Processor

section Effects

/-- Carries out an operation on two registers. -/
def PairOp.effect (op : PairOp) (target source : Reg) (m : Machine) : Machine :=
  let a := m.regs target
  let b := m.regs source
  match op with
  | .mov => m.set target b
  | .add => (m.set target (a + b)).setFlags (.ofResult (a + b) (some (a.saddOverflow b)))
  | .sub => (m.set target (a - b)).setFlags (.ofResult (a - b) (some (a.ssubOverflow b)))
  | .and => (m.set target (a &&& b)).setFlags (.ofResult (a &&& b) (some false))
  | .or => (m.set target (a ||| b)).setFlags (.ofResult (a ||| b) (some false))
  | .xor => (m.set target (a ^^^ b)).setFlags (.ofResult (a ^^^ b) (some false))
  | .cmp => m.setFlags (.ofResult (a - b) (some (a.ssubOverflow b)))
  | .test => m.setFlags (.ofResult (a &&& b) (some false))

/-- Carries out a product or the extension of a byte. -/
def WideOp.effect (op : WideOp) (target source : Reg) (m : Machine) : Machine :=
  let a := m.regs target
  let b := m.regs source
  match op with
  | .imul => (m.set target (a * b)).setFlags ⟨none, none, some (a.smulOverflow b)⟩
  | .movzx8 => m.set target ((b.setWidth 8).setWidth 64)

/-- Carries out an operation on one register.  A division takes `rdx` and `rax` together, leaves
the quotient in `rax` and the remainder in `rdx`, and faults where the quotient has no room. -/
def SingleOp.effect (op : SingleOp) (r : Reg) (m : Machine) : Option Machine :=
  let a := m.regs r
  match op with
  | .not => some (m.set r (~~~a))
  | .neg => some ((m.set r (-a)).setFlags (.ofResult (-a) (some (a.negOverflow))))
  | .idiv =>
    let dividend := (m.regs .rdx ++ m.regs .rax).toInt
    let quotient := dividend.tdiv a.toInt
    if a = 0 ∨ quotient < -2 ^ 63 ∨ 2 ^ 63 ≤ quotient then none
    else
      let remainder := dividend.tmod a.toInt
      some (((m.set .rax (.ofInt 64 quotient)).set .rdx (.ofInt 64 remainder)).setFlags {})
  | .shl =>
    let w := a <<< m.shiftCount
    some ((m.set r w).setFlags (m.shiftFlags w (w.msb != a.msb)))
  | .sar =>
    let w := a.sshiftRight m.shiftCount
    some ((m.set r w).setFlags (m.shiftFlags w false))

/-- Carries out an operation that goes on with the next instruction. -/
def Operation.effect (op : Operation Word) (m : Machine) : Option Machine :=
  match op with
  | .pair op target source => some (op.effect target source m)
  | .wide op target source => some (op.effect target source m)
  | .single op r => op.effect r m
  | .moveImm target n => some (m.set target n.toBitVec)
  | .subImm target n =>
    let a := m.regs target
    some ((m.set target (a - n.toBitVec)).setFlags
      (.ofResult (a - n.toBitVec) (some (a.ssubOverflow n.toBitVec))))
  | .load target base offset =>
    some (m.set target (m.memory.read (m.regs base + offset.toBitVec)))
  | .store base offset source =>
    some (m.setWord (m.regs base + offset.toBitVec) (m.regs source))
  | .lea target base offset => some (m.set target (m.regs base + offset.toBitVec))
  | .leaPlace target a => some (m.set target a)
  | .setCond c r =>
    (c.holds? m.flags).map fun b => m.set r (m.regs r &&& ~~~0xff ||| if b then 1 else 0)
  | .push r => some (m.push (m.regs r))
  | .pop r => some (m.pop.2.set r m.pop.1)
  | .cqo => some (m.set .rdx (if (m.regs .rax).msb then .allOnes 64 else 0))
  | _ => none

/-- Carries out an operation, given the address of the next instruction. -/
def Operation.exec (op : Operation Word) (next : Word) (m : Machine) : Option (Word × Machine) :=
  match op with
  | .jump a => some (a, m)
  | .jumpIf c a => (c.holds? m.flags).map fun b => (if b then a else next, m)
  | .call a => some (a, m.push next)
  | .callReg r => some (m.regs r, m.push next)
  | .ret => some m.pop
  | op => (op.effect m).map (next, ·)

/-- The operation at an address, and the address behind it. -/
def fetch (code : Text) (base rip : Word) : Option (Operation Word × Word) :=
  (decodeAt code (rip - base).toNat).map fun (op, size) =>
    (op.map fun offset => base + .ofInt 64 offset, rip + .ofNat 64 size)

/-- One step of the processor. -/
def step (code : Text) (base : Word) (s : Word × Machine) : Option (Word × Machine) :=
  (fetch code base s.1).bind fun (op, next) => op.exec next s.2

/-- Some steps of the processor. -/
abbrev Steps (code : Text) (base : Word) : Word × Machine → Word × Machine → Prop :=
  ReflTransGen fun s t => step code base s = some t

theorem Operation.exec_of_effect
    {op : Operation Word}
    {m m' : Machine}
    (h : op.effect m = some m')
    (next : Word) :
    op.exec next m = some (next, m') := by
  cases op with
  | jump a =>
      simp [Operation.effect] at h
  | jumpIf c a =>
      simp [Operation.effect] at h
  | call a =>
      simp [Operation.effect] at h
  | callReg r =>
      simp [Operation.effect] at h
  | ret =>
      simp [Operation.effect] at h
  | _ =>
      exact congrArg (Option.map fun m => (next, m)) h

theorem Operation.exec_jumpIf
    {c : Cond}
    {m : Machine}
    {b : Bool}
    (h : c.holds? m.flags = some b)
    (a next : Word) :
    (Operation.jumpIf c a).exec next m = some (if b then a else next, m) := by
  change (c.holds? m.flags).map (fun b => (if b then a else next, m)) = _
  rw [h]
  rfl

end Effects

section Programs

variable {label : Type} [BEq label] [Hashable label]

/-- The bytes are those of a program whose labels are bound and whose registers and conditions the
machine has, and they are not too far apart for any jump. -/
structure Loaded (items : List (Item label)) (code : Text) : Prop where
  bytes : code = bytesFrom (offsetOf items) 0 items
  short : endOf 0 items < 2 ^ 31
  bound : ∀ l ∈ references items, Item.bind l ∈ items
  valid : ∀ i, Item.instruction i ∈ items → i.Valid

theorem Loaded.of_finish
    [LawfulBEq label]
    {items : List (Item label)}
    {code : Text}
    (hfinish : finish items = .ok code)
    (hlength : code.length < 2 ^ 31)
    (hvalid : ∀ i, Item.instruction i ∈ items → i.Valid) :
    Loaded items code := by
  have hbound := bound_of_finish hfinish
  rw [finish_eq hbound, Except.ok.injEq] at hfinish
  subst hfinish
  rw [length_bytesFrom_zero] at hlength
  exact ⟨rfl, hlength, hbound, hvalid⟩

/-- The address of a label. -/
def place (base : Word) (items : List (Item label)) (l : label) : Word :=
  base + .ofNat 64 (offsetOf items l)

/-- Instructions stand in a row at an offset of a program. -/
def CodeAt (items : List (Item label)) (offset : Nat) (is : List (Instruction label)) : Prop :=
  ∃ front back, items = front ++ is.map .instruction ++ back ∧ endOf 0 front = offset

/-- The offset behind instructions in a row. -/
def behind (offset : Nat) (is : List (Instruction label)) : Nat :=
  endOf offset (is.map .instruction)

omit [BEq label] [Hashable label] in
theorem CodeAt.left
    {items : List (Item label)}
    {offset : Nat}
    {is js : List (Instruction label)}
    (h : CodeAt items offset (is ++ js)) :
    CodeAt items offset is := by
  obtain ⟨front, back, rfl, hfront⟩ := h
  exact ⟨front, js.map .instruction ++ back, by simp, hfront⟩

omit [BEq label] [Hashable label] in
theorem CodeAt.right
    {items : List (Item label)}
    {offset : Nat}
    {is js : List (Instruction label)}
    (h : CodeAt items offset (is ++ js)) :
    CodeAt items (behind offset is) js := by
  obtain ⟨front, back, rfl, rfl⟩ := h
  exact ⟨front ++ is.map .instruction, back, by simp, endOf_append 0 front _⟩

omit [BEq label] [Hashable label] in
theorem CodeAt.head
    {items : List (Item label)}
    {offset : Nat}
    {i : Instruction label}
    {is : List (Instruction label)}
    (h : CodeAt items offset (i :: is)) :
    CodeAt items offset [i] :=
  CodeAt.left h

omit [BEq label] [Hashable label] in
theorem CodeAt.tail
    {items : List (Item label)}
    {offset : Nat}
    {i : Instruction label}
    {is : List (Instruction label)}
    (h : CodeAt items offset (i :: is)) :
    CodeAt items (behind offset [i]) is :=
  CodeAt.right h

/-- The operation at an instruction of a program. -/
theorem fetch_instruction
    [LawfulBEq label]
    {items : List (Item label)}
    {code : Text}
    (hcode : Loaded items code)
    (base : Word)
    {offset : Nat}
    {i : Instruction label}
    (h : CodeAt items offset [i]) :
    fetch code base (base + .ofNat 64 offset) =
      some (i.operation (place base items), base + .ofNat 64 (behind offset [i])) := by
  obtain ⟨front, back, hitems, rfl⟩ := h
  have hshape : items = front ++ .instruction i :: back := by simpa using hitems
  have hvalid : i.Valid := hcode.valid i (by simp [hshape])
  have hshort := hcode.short
  have htarget : ∀ l, i.label? = some l → offsetOf items l < 2 ^ 31 := by
    intro l hl
    have hreference : l ∈ references items := mem_references.mpr ⟨i, by simp [hshape], hl⟩
    exact Nat.lt_of_le_of_lt (offsetOf_le (hcode.bound l hreference)) hshort
  have hoffset : endOf 0 front < 2 ^ 31 := by
    have hle := le_endOf (endOf 0 front) (.instruction i :: back)
    rw [← endOf_append, ← hshape] at hle
    exact Nat.lt_of_le_of_lt hle hshort
  have hrip : (base + BitVec.ofNat 64 (endOf 0 front) - base).toNat = endOf 0 front := by
    rw [BitVec.add_comm, BitVec.add_sub_cancel, BitVec.toNat_ofNat]
    omega
  have hdecode : decodeAt code (endOf 0 front) =
      some (i.operation fun l => (offsetOf items l : Int), i.size) := by
    have := decodeAt_instruction front back hvalid htarget (hshape ▸ hshort)
    rwa [← hshape, ← hcode.bytes] at this
  have hplace : (fun l => base + BitVec.ofInt 64 (offsetOf items l : Int)) = place base items := by
    funext l
    rw [place, BitVec.ofInt_natCast]
  rw [fetch, hrip, hdecode, Option.map_some]
  simp only [i.map_operation, hplace, BitVec.add_assoc, ← BitVec.ofNat_add]
  rfl

theorem step_instruction
    [LawfulBEq label]
    {items : List (Item label)}
    {code : Text}
    (hcode : Loaded items code)
    (base : Word)
    {offset : Nat}
    {i : Instruction label}
    (h : CodeAt items offset [i])
    (m : Machine) :
    step code base (base + .ofNat 64 offset, m) =
      (i.operation (place base items)).exec (base + .ofNat 64 (behind offset [i])) m := by
  rw [step, fetch_instruction hcode base h]
  rfl

theorem step_jumpIf
    [LawfulBEq label]
    {items : List (Item label)}
    {code : Text}
    (hcode : Loaded items code)
    (base : Word)
    {offset : Nat}
    {c : Cond}
    {l : label}
    (h : CodeAt items offset [.jumpIf c l])
    {m : Machine}
    {b : Bool}
    (hb : c.holds? m.flags = some b) :
    step code base (base + .ofNat 64 offset, m) =
      some (if b then place base items l else base + .ofNat 64 (behind offset [.jumpIf c l]),
        m) := by
  rw [step_instruction hcode base h]
  exact Operation.exec_jumpIf hb _ _

/-- Carries out instructions in a row. -/
def effects (locate : label → Word) (is : List (Instruction label)) (m : Machine) :
    Option Machine :=
  is.foldlM (fun m i => (i.operation locate).effect m) m

/-- Instructions in a row are carried out one after the other. -/
theorem steps_of_effects
    [LawfulBEq label]
    {items : List (Item label)}
    {code : Text}
    (hcode : Loaded items code)
    (base : Word)
    {offset : Nat}
    {is : List (Instruction label)}
    {m m' : Machine}
    (h : CodeAt items offset is)
    (hm : effects (place base items) is m = some m') :
    Steps code base (base + .ofNat 64 offset, m) (base + .ofNat 64 (behind offset is), m') := by
  induction is generalizing offset m with
  | nil =>
      simp only [effects, List.foldlM_nil, Option.pure_def, Option.some.injEq] at hm
      subst hm
      exact .refl
  | cons i is ih =>
      simp only [effects, List.foldlM_cons, Option.bind_eq_bind, Option.bind_eq_some_iff] at hm
      obtain ⟨mid, hmid, hrest⟩ := hm
      have hstep : step code base (base + .ofNat 64 offset, m) =
          some (base + .ofNat 64 (behind offset [i]), mid) := by
        rw [step_instruction hcode base h.head, Operation.exec_of_effect hmid]
      exact .head hstep (ih h.tail hrest)

end Programs

end X64
end StackNative
