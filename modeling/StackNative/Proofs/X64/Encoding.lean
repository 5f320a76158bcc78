import Mathlib.Algebra.Group.Int.Defs
import Mathlib.Algebra.GroupWithZero.Nat
import StackNative.Proofs.X64.Decoder

/-!
# Instructions are read back

**Input.**  An instruction whose registers and condition the machine has, with the
distance to the label it names.

**Results.**
* `registerOf_lowBits`: a register is the register of its low bits and the bit
  that extends them.
* `readOperand_memory`: a base and an offset are read back from any of the forms
  they are written in.
* `Instruction.decode_bytes`: an instruction is read back from its bytes, whatever follows
  them.
-/

namespace StackNative
namespace X64

open Text (littleEndian)

section Numbers

theorem littleEndian_succ
    (k n : Nat) :
    littleEndian (k + 1) n = n.toUInt8 :: littleEndian k (n / 256) := by
  simp [littleEndian, List.range_succ_eq_map, Function.comp_def, Nat.pow_succ,
    Nat.div_div_eq_div_mul, Nat.mul_comm]

@[simp] theorem length_littleEndian
    (k n : Nat) :
    (littleEndian k n).length = k := by
  simp [littleEndian]

@[simp] theorem length_bytes32
    (n : Int32) :
    (bytes32 n).length = 4 := by
  simp [bytes32]

/-- Bytes of a number, low one first, give the number as far as they reach. -/
theorem numberOf_littleEndian
    (k n : Nat) :
    numberOf (littleEndian k n) = n % 256 ^ k := by
  induction k generalizing n with
  | zero =>
      simp [littleEndian, numberOf, Nat.mod_one]
  | succ k ih =>
      rw [littleEndian_succ, numberOf, ih, Nat.pow_succ', Nat.mod_mul]
      simp

/-- A number is read from its bytes, and what stands behind them is left. -/
theorem readNumber_littleEndian
    (k n : Nat)
    (rest : Text) :
    readNumber k (littleEndian k n ++ rest) = some (n % 256 ^ k, rest) := by
  have hlength : (littleEndian k n).length = k := length_littleEndian k n
  simp [readNumber, hlength, numberOf_littleEndian]

/-- A distance is read from its bytes. -/
theorem readInt32_bytes32
    (n : Int32)
    (rest : Text) :
    readInt32 (bytes32 n ++ rest) = some (n, rest) := by
  have hn : n.toUInt32.toNat % 256 ^ 4 = n.toUInt32.toNat :=
    Nat.mod_eq_of_lt n.toUInt32.toNat_lt
  simp only [readInt32, bytes32, readNumber_littleEndian, hn, Option.map_some]
  simp [Int32.ofNat]

/-- A constant is read from its bytes. -/
theorem readInt64_littleEndian
    (n : UInt64)
    (rest : Text) :
    readInt64 (littleEndian 8 n.toNat ++ rest) = some (n.toInt64, rest) := by
  have hn : n.toNat % 256 ^ 8 = n.toNat := Nat.mod_eq_of_lt n.toNat_lt
  simp only [readInt64, readNumber_littleEndian, hn, Option.map_some]
  simp [Int64.ofNat, UInt64.toInt64]

/-- A number that fits a byte comes back from the byte by its sign. -/
theorem toInt64_of_fitsByte
    {n : Int32}
    (h : fitsByte n = true) :
    n.toUInt32.toUInt8.toInt8.toInt64 = n.toInt64 := by
  have hbyte : n.toUInt32.toUInt8.toInt8 = n.toInt8 := by
    rw [← Int8.toBitVec_inj]
    simp [BitVec.signExtend_eq_setWidth_of_le]
  have hbounds : -128 ≤ n.toInt ∧ n.toInt ≤ 127 := by
    simpa [fitsByte, Int32.le_iff_toInt_le] using h
  rw [hbyte, ← Int64.toInt_inj]
  simp only [Int8.toInt_toInt64, Int32.toInt_toInt8, Int32.toInt_toInt64, Int.bmod_def]
  omega

end Numbers

section Fields

/-- The register is one of the sixteen of the machine. -/
def Reg.Valid (r : Reg) : Prop := 0 ≤ r.number ∧ r.number < 16

instance (r : Reg) : Decidable r.Valid := inferInstanceAs (Decidable (_ ∧ _))

/-- What holds of the sixteen registers holds of every valid one. -/
theorem Reg.Valid.forall
    {p : Reg → Prop}
    (h : ∀ n : Fin 16, p ⟨n⟩)
    (r : Reg)
    (hr : r.Valid) :
    p r := by
  obtain ⟨n⟩ := r
  obtain ⟨hlow, hhigh⟩ := hr
  have hn := h ⟨n.toNat, by simp only at hhigh; omega⟩
  rwa [show ((n.toNat : Nat) : Int) = n from Int.toNat_of_nonneg hlow] at hn

/-- A register is the one of its low bits and its extension bit. -/
theorem registerOf_lowBits
    {r : Reg}
    (hr : r.Valid) :
    registerOf r.isExtended r.lowBits = r :=
  Reg.Valid.forall (p := fun r => registerOf r.isExtended r.lowBits = r) (by decide) r hr

/-- The registers with an extension bit are not the first four. -/
theorem four_le_of_isExtended
    {r : Reg}
    (h : r.isExtended = true) :
    4 ≤ r.number := by
  simp only [Reg.isExtended, Bool.and_eq_true, decide_eq_true_eq] at h
  omega

/-- The low bits of a register are three. -/
theorem lowBits_lt
    (r : Reg) :
    r.lowBits < 8 := by
  have hlow : 0 ≤ r.number % 8 := Int.emod_nonneg _ (by omega)
  have hhigh : r.number % 8 < 8 := Int.emod_lt_of_pos _ (by omega)
  have hn : (r.number % 8).toNat < 8 := by omega
  rw [UInt8.lt_iff_toNat_lt]
  simp only [Reg.lowBits, UInt8.toNat_ofNat', Nat.toUInt8_eq, UInt8.reduceToNat]
  omega

/-- The low bits that ask for a SIB byte are those of two registers. -/
theorem lowBits_eq_four
    {r : Reg}
    (hr : r.Valid) :
    r.lowBits = 4 ↔ r = .rsp ∨ r = .r12 :=
  Reg.Valid.forall (p := fun r => r.lowBits = 4 ↔ r = .rsp ∨ r = .r12) (by decide) r hr

/-- The low bits that have no form without a displacement are those of two registers. -/
theorem lowBits_eq_five
    {r : Reg}
    (hr : r.Valid) :
    r.lowBits = 5 ↔ r = .rbp ∨ r = .r13 :=
  Reg.Valid.forall (p := fun r => r.lowBits = 5 ↔ r = .rbp ∨ r = .r13) (by decide) r hr

/-- The opcodes that a register is added to. -/
theorem opcode_add_low
    (base : UInt8)
    {low : UInt8}
    (hbase : base ∈ [0x50, 0x58, 0xb8])
    (hlow : low < 8) :
    (base + low) >>> 3 = base >>> 3 ∧ (base + low) &&& 7 = low ∧ (base + low) >>> 4 ≠ 4 ∧
      base + low ≠ 0x0f := by
  have hall : ∀ base ∈ [(0x50 : UInt8), 0x58, 0xb8], ∀ l : Fin 8,
      (base + .ofNat l) >>> 3 = base >>> 3 ∧ (base + .ofNat l) &&& 7 = .ofNat l ∧
        (base + .ofNat l) >>> 4 ≠ 4 ∧ base + .ofNat l ≠ 0x0f := by
    decide +kernel
  simpa using hall base hbase ⟨low.toNat, hlow⟩

/-- The opcodes that a condition is added to. -/
theorem opcode_add_cond
    (base : UInt8)
    {c : Cond}
    (hbase : base ∈ [0x80, 0x90])
    (hc : c < 16) :
    (base + c) >>> 4 = base >>> 4 ∧ (base + c) &&& 0xf = c := by
  have hall : ∀ base ∈ [(0x80 : UInt8), 0x90], ∀ l : Fin 16,
      (base + .ofNat l) >>> 4 = base >>> 4 ∧ (base + .ofNat l) &&& 0xf = .ofNat l := by
    decide +kernel
  simpa using hall base hbase ⟨c.toNat, hc⟩

/-- The three parts of a ModR/M byte. -/
theorem modrm_fields
    (mode field low : UInt8)
    (hmode : mode < 4)
    (hfield : field < 8)
    (hlow : low < 8) :
    modrm mode field low >>> 6 = mode ∧ (modrm mode field low >>> 3) &&& 7 = field ∧
      modrm mode field low &&& 7 = low := by
  have hall : ∀ m : Fin 4, ∀ f l : Fin 8,
      modrm (.ofNat m) (.ofNat f) (.ofNat l) >>> 6 = .ofNat m ∧
        (modrm (.ofNat m) (.ofNat f) (.ofNat l) >>> 3) &&& 7 = .ofNat f ∧
        modrm (.ofNat m) (.ofNat f) (.ofNat l) &&& 7 = .ofNat l := by
    decide +kernel
  simpa using hall ⟨mode.toNat, hmode⟩ ⟨field.toNat, hfield⟩ ⟨low.toNat, hlow⟩

/-- A byte of extension bits is read back. -/
theorem readRex_rex
    (w r x b : Bool)
    (rest : Text) :
    readRex (rex w r x b :: rest) = (some ⟨w, r, x, b⟩, rest) := by
  cases w <;> cases r <;> cases x <;> cases b <;> rfl

/-- Any other byte is none of extension bits. -/
theorem readRex_of_ne
    {byte : UInt8}
    (h : byte >>> 4 ≠ 4)
    (rest : Text) :
    readRex (byte :: rest) = (none, byte :: rest) := by
  simp [readRex, h]

/-- The bits of a REX byte that stands only for the sake of a register. -/
def rexFor (present extended : Bool) : Option Rex :=
  if present then some ⟨false, false, false, extended⟩ else none

/-- A byte of extension bits that may be left out is read back, or is not there. -/
theorem readRex_rexIf
    (present extended : Bool)
    {byte : UInt8}
    (h : byte >>> 4 ≠ 4)
    (rest : Text) :
    readRex (rexIf present extended ++ byte :: rest) =
      (rexFor present extended, byte :: rest) := by
  cases present with
  | false =>
      simpa [rexIf, rexFor] using readRex_of_ne h rest
  | true =>
      simp [rexIf, rexFor, readRex_rex]

theorem rexFor_b
    (present extended : Bool) :
    ((rexFor present extended).getD {}).b = (present && extended) := by
  cases present <;> rfl

theorem rexFor_isNone
    (present extended : Bool) :
    (rexFor present extended).isNone = !present := by
  cases present <;> rfl

end Fields

section Operands

/-- An operand that is a register is read back. -/
theorem readOperand_register
    (rx : Rex)
    {field low : UInt8}
    (hfield : field < 8)
    (hlow : low < 8)
    (rest : Text) :
    readOperand rx (modrm 3 field low :: rest) =
      some (field, .register (registerOf rx.b low), rest) := by
  obtain ⟨hmode, hreg, hrm⟩ := modrm_fields 3 field low (by decide) hfield hlow
  simp [readOperand, hmode, hreg, hrm]

/-- An operand with a distance to the next instruction is read back. -/
theorem readOperand_relative
    (rx : Rex)
    {field : UInt8}
    (hfield : field < 8)
    (n : Int32)
    (rest : Text) :
    readOperand rx (modrm 0 field 5 :: (bytes32 n ++ rest)) =
      some (field, .relative n, rest) := by
  obtain ⟨hmode, hreg, hrm⟩ := modrm_fields 0 field 5 (by decide) hfield (by decide)
  simp [readOperand, hmode, hreg, hrm, readInt32_bytes32]

/-- The mode of a memory operand: no displacement, one byte or four. -/
def memoryMode (base : Reg) (offset : Int32) : UInt8 :=
  if offset == 0 && base != .rbp && base != .r13 then 0
  else if fitsByte offset then 1
  else 2

/-- The displacement of a memory operand. -/
def displacement (base : Reg) (offset : Int32) : Text :=
  if memoryMode base offset == 0 then []
  else if memoryMode base offset == 1 then [offset.toUInt32.toUInt8]
  else bytes32 offset

/-- The bytes of a memory operand: two registers need one more byte, and the displacement stands
last. -/
theorem memoryOperand_eq
    (field : UInt8)
    (base : Reg)
    (offset : Int32) :
    memoryOperand field base offset =
      (if base == .rsp || base == .r12 then [modrm (memoryMode base offset) field 4, 0x24]
        else [modrm (memoryMode base offset) field base.lowBits]) ++ displacement base offset :=
  rfl

/-- A memory operand has no displacement, one byte of it, or four. -/
theorem memoryMode_cases
    (base : Reg)
    (offset : Int32) :
    memoryMode base offset = 0 ∧ offset = 0 ∧ base ≠ .rbp ∧ base ≠ .r13 ∨
      memoryMode base offset = 1 ∧ fitsByte offset = true ∨ memoryMode base offset = 2 := by
  unfold memoryMode
  split
  · rename_i h
    simp only [Bool.and_eq_true, beq_iff_eq, bne_iff_ne, ne_eq] at h
    exact .inl ⟨rfl, h.1.1, h.1.2, h.2⟩
  · split
    · rename_i h
      exact .inr (.inl ⟨rfl, h⟩)
    · exact .inr (.inr rfl)

/-- A displacement is read back in each of its lengths. -/
theorem readDisplacement_displacement
    (base : Reg)
    (offset : Int32)
    (rest : Text) :
    readDisplacement (memoryMode base offset) (displacement base offset ++ rest) =
      some (offset.toInt64, rest) := by
  unfold displacement
  rcases memoryMode_cases base offset with ⟨hmode, hoffset, -⟩ | ⟨hmode, hbyte⟩ | hmode
  · subst hoffset
    simp [hmode, readDisplacement]
  · simp [hmode, readDisplacement, readInt8, toInt64_of_fitsByte hbyte]
  · simp [hmode, readDisplacement, readInt32_bytes32]

/-- A base and an offset are read back from their shortest form. -/
theorem readOperand_memory
    (rx : Rex)
    {field : UInt8}
    {base : Reg}
    (hfield : field < 8)
    (hbase : base.Valid)
    (hx : rx.x = false)
    (hb : rx.b = base.isExtended)
    (offset : Int32)
    (rest : Text) :
    readOperand rx (memoryOperand field base offset ++ rest) =
      some (field, .memory base offset.toInt64, rest) := by
  have hmode : memoryMode base offset < 4 ∧ memoryMode base offset ≠ 3 := by
    rcases memoryMode_cases base offset with ⟨h, -⟩ | ⟨h, -⟩ | h <;> rw [h] <;> decide
  have hshort : memoryMode base offset = 0 → base.lowBits ≠ 5 := by
    intro h hlow
    rcases memoryMode_cases base offset with ⟨-, -, h5, h13⟩ | ⟨h1, -⟩ | h2
    · rcases (lowBits_eq_five hbase).mp hlow with rfl | rfl
      · exact h5 rfl
      · exact h13 rfl
    · rw [h] at h1
      exact absurd h1 (by decide)
    · rw [h] at h2
      exact absurd h2 (by decide)
  rw [memoryOperand_eq]
  by_cases hsib : base.lowBits = 4
  · have hregs := (lowBits_eq_four hbase).mp hsib
    obtain ⟨h6, h3, h0⟩ := modrm_fields _ field 4 hmode.1 hfield (by decide)
    have hreg : registerOf rx.b 4 = base := by
      rw [hb, ← hsib, registerOf_lowBits hbase]
    have hindex : (0x24 : UInt8) >>> 3 &&& 7 = 4 := by decide
    have hlow : (0x24 : UInt8) &&& 7 = 4 := by decide
    simp [readOperand, hregs, h6, h3, h0, hmode.2, hx, hindex, hlow, hreg,
      readDisplacement_displacement]
  · have hregs : ¬(base = .rsp ∨ base = .r12) := fun h => hsib ((lowBits_eq_four hbase).mpr h)
    obtain ⟨h6, h3, h0⟩ := modrm_fields _ field _ hmode.1 hfield (lowBits_lt base)
    have hreg : registerOf rx.b base.lowBits = base := by
      rw [hb, registerOf_lowBits hbase]
    have hrelative : ¬(memoryMode base offset = 0 ∧ base.lowBits = 5) := fun h => hshort h.1 h.2
    simp [readOperand, hregs, h6, h3, h0, hmode.2, hsib, hrelative, hreg,
      readDisplacement_displacement]

end Operands

namespace Instruction

variable {label : Type}

/-- What an instruction tells the processor to do, given the places of the labels. -/
def operation {p : Type} (place : label → p) : Instruction label → Operation p
  | .pair op target source => .pair op target source
  | .wide op target source => .wide op target source
  | .single op r => .single op r
  | .movImm64 target n => .moveImm target n.toInt64
  | .movImm32 target n => .moveImm target n.toInt64
  | .subImm target n => .subImm target n.toInt64
  | .loadMem target base offset => .load target base offset.toInt64
  | .storeMem base offset source => .store base offset.toInt64 source
  | .lea target base offset => .lea target base offset.toInt64
  | .leaLabel target l => .leaPlace target (place l)
  | .setCond c r => .setCond c r
  | .push r => .push r
  | .pop r => .pop r
  | .jump l => .jump (place l)
  | .jumpIf c l => .jumpIf c (place l)
  | .call l => .call (place l)
  | .callReg r => .callReg r
  | .cqo => .cqo
  | .ret => .ret
  | .syscall => .syscall
  | .ud2 => .ud2
  | .int3 => .int3

/-- The registers of an instruction. -/
def registers : Instruction label → List Reg
  | .pair _ target source => [target, source]
  | .wide _ target source => [target, source]
  | .single _ r => [r]
  | .movImm64 target _ => [target]
  | .movImm32 target _ => [target]
  | .subImm target _ => [target]
  | .loadMem target base _ => [target, base]
  | .storeMem base _ source => [base, source]
  | .lea target base _ => [target, base]
  | .leaLabel target _ => [target]
  | .setCond _ r => [r]
  | .push r => [r]
  | .pop r => [r]
  | .callReg r => [r]
  | _ => []

/-- The conditions of an instruction. -/
def conds : Instruction label → List Cond
  | .setCond c _ => [c]
  | .jumpIf c _ => [c]
  | _ => []

/-- The machine has the registers and the conditions of the instruction. -/
def Valid (i : Instruction label) : Prop :=
  (∀ r ∈ i.registers, r.Valid) ∧ ∀ c ∈ i.conds, c < 16

instance (i : Instruction label) : Decidable i.Valid := inferInstanceAs (Decidable (_ ∧ _))

/-- The bytes of an instruction with the distance to its label. -/
def bytes (i : Instruction label) (n : Int32) : Text :=
  i.opcodeBytes ++ if i.label?.isSome then bytes32 n else []

/-- An instruction has as many bytes as it is said to have. -/
theorem length_bytes
    (i : Instruction label)
    (n : Int32) :
    (i.bytes n).length = i.size := by
  unfold bytes size
  split <;> simp

/-- What an instruction does goes with the places of its label. -/
theorem map_operation
    {p q : Type}
    (f : p → q)
    (place : label → p)
    (i : Instruction label) :
    (i.operation place).map f = i.operation (fun l => f (place l)) := by
  cases i <;> rfl

/-- An opcode of one byte is decoded behind its extension bits. -/
theorem decode_short
    (w r x b : Bool)
    {opcode : UInt8}
    (h : opcode ≠ 0x0f)
    (rest : Text) :
    decode (rex w r x b :: opcode :: rest) = decodeShort ⟨w, r, x, b⟩ opcode rest := by
  simp [decode, readRex_rex, h]

/-- An opcode of two bytes is decoded behind its extension bits. -/
theorem decode_long
    (w r x b : Bool)
    (rest : Text) :
    decode (rex w r x b :: 0x0f :: rest) = decodeLong (some ⟨w, r, x, b⟩) rest := by
  simp [decode, readRex_rex]

/-- An instruction with a memory operand. -/
theorem decode_memory
    {opcode : UInt8}
    (hop : opcode ∈ [0x89, 0x8b, 0x8d])
    {r base : Reg}
    (hbase : base.Valid)
    (offset : Int32)
    (rest : Text) :
    decode (rex true r.isExtended false base.isExtended :: opcode ::
        (memoryOperand r.lowBits base offset ++ rest)) =
      (operandOperation ⟨true, r.isExtended, false, base.isExtended⟩ opcode r.lowBits
        (.memory base offset.toInt64)).map (·, rest) := by
  have hoperand := readOperand_memory ⟨true, r.isExtended, false, base.isExtended⟩
    (lowBits_lt r) hbase rfl rfl offset rest
  simp only [List.mem_cons, List.not_mem_nil, or_false] at hop
  rcases hop with rfl | rfl | rfl <;> rw [decode_short _ _ _ _ (by decide)] <;>
    simp +decide [decodeShort, hoperand]

section Immediates

/-- Every form of loading a constant is valid. -/
theorem valid_movImm
    {target : Reg}
    (h : target.Valid)
    (n : Int64) :
    (movImm target n : Instruction label).Valid := by
  unfold movImm
  split <;> simpa [Valid, registers, conds] using h

/-- Loading a constant has no label. -/
theorem label?_movImm
    (target : Reg)
    (n : Int64) :
    (movImm target n : Instruction label).label? = none := by
  unfold movImm
  split <;> rfl

/-- Both instructions that load an integer load it whole. -/
theorem operation_movImm
    {p : Type}
    (place : label → p)
    (target : Reg)
    (n : Int64) :
    (movImm target n).operation place = .moveImm target n := by
  unfold movImm
  split
  · rename_i h
    simp only [Bool.and_eq_true, decide_eq_true_eq, Int64.le_iff_toInt_le,
      Int64.lt_iff_toInt_lt] at h
    have hn : n.toInt32.toInt64 = n := by
      rw [← Int64.toInt_inj, Int32.toInt_toInt64, Int64.toInt_toInt32]
      exact Int.bmod_eq_of_le (by simpa using h.1) (by simpa using h.2)
    rw [operation, hn]
  · simp [operation]

end Immediates

/-- An instruction is read back from its bytes, whatever follows them. -/
theorem decode_bytes
    (i : Instruction label)
    (hi : i.Valid)
    (n : Int32)
    (rest : Text) :
    decode (i.bytes n ++ rest) = some (i.operation fun _ => n.toInt, rest) := by
  obtain ⟨hregs, hconds⟩ := hi
  cases i with
  | pair op target source =>
      simp only [registers, List.forall_mem_cons] at hregs
      obtain ⟨ht, hs, -⟩ := hregs
      cases op <;>
        simp +decide [bytes, label?, opcodeBytes, decode_short, PairOp.opcode, decodeShort,
          readOperand_register, lowBits_lt, operandOperation, singleOp?, pairOp?,
          registerOf_lowBits, ht, hs, operation]
  | wide op target source =>
      simp only [registers, List.forall_mem_cons] at hregs
      obtain ⟨ht, hs, -⟩ := hregs
      cases op <;>
        simp +decide [bytes, label?, opcodeBytes, decode_long, WideOp.opcode, decodeLong,
          readOperand_register, lowBits_lt, registerOf_lowBits, ht, hs, operation]
  | single op r =>
      have hr : r.Valid := hregs r (by simp [registers])
      cases op <;>
        simp +decide [bytes, label?, opcodeBytes, decode_short, SingleOp.opcode, decodeShort,
          readOperand_register, lowBits_lt, operandOperation, singleOp?,
          registerOf_lowBits, hr, operation]
  | movImm64 target k =>
      have hr : target.Valid := hregs target (by simp [registers])
      obtain ⟨h3, hlow, -, hne⟩ := opcode_add_low 0xb8 (by decide) (lowBits_lt target)
      simp +decide [bytes, label?, opcodeBytes, decode_short, hne, decodeShort, h3, hlow,
        readInt64_littleEndian, registerOf_lowBits, hr, operation]
  | movImm32 target k =>
      have hr : target.Valid := hregs target (by simp [registers])
      simp +decide [bytes, label?, opcodeBytes, decode_short, decodeShort, readOperand_register,
        lowBits_lt, immediateOperation, readInt32_bytes32, registerOf_lowBits, hr, operation]
  | subImm target k =>
      have hr : target.Valid := hregs target (by simp [registers])
      by_cases hk : fitsByte k = true
      · simp +decide [bytes, label?, opcodeBytes, hk, decode_short, decodeShort,
          readOperand_register, lowBits_lt, immediateOperation, readInt8,
          toInt64_of_fitsByte, registerOf_lowBits, hr, operation]
      · simp +decide [bytes, label?, opcodeBytes, hk, decode_short, decodeShort,
          readOperand_register, lowBits_lt, immediateOperation, readInt32_bytes32,
          registerOf_lowBits, hr, operation]
  | loadMem target base offset =>
      simp only [registers, List.forall_mem_cons] at hregs
      obtain ⟨ht, hb, -⟩ := hregs
      simp [bytes, label?, opcodeBytes, decode_memory, hb, operandOperation,
        registerOf_lowBits, ht, operation]
  | storeMem base offset source =>
      simp only [registers, List.forall_mem_cons] at hregs
      obtain ⟨hb, hs, -⟩ := hregs
      simp [bytes, label?, opcodeBytes, decode_memory, hb, operandOperation,
        registerOf_lowBits, hs, operation]
  | lea target base offset =>
      simp only [registers, List.forall_mem_cons] at hregs
      obtain ⟨ht, hb, -⟩ := hregs
      simp [bytes, label?, opcodeBytes, decode_memory, hb, operandOperation,
        registerOf_lowBits, ht, operation]
  | leaLabel target l =>
      have hr : target.Valid := hregs target (by simp [registers])
      simp +decide [bytes, label?, opcodeBytes, decode_short, decodeShort, readOperand_relative,
        lowBits_lt, operandOperation, registerOf_lowBits, hr, operation]
  | setCond c r =>
      have hr : r.Valid := hregs r (by simp [registers])
      have hc : c < 16 := hconds c (by simp [conds])
      obtain ⟨h4, hlow⟩ := opcode_add_cond 0x90 (by decide) hc
      have hb : (decide (4 ≤ r.number) && r.isExtended) = r.isExtended := by
        simpa using four_le_of_isExtended
      simp +decide [bytes, label?, opcodeBytes, decode, readRex_rexIf, decodeLong, h4, hlow,
        readOperand_register, lowBits_lt, rexFor_b, hb, rexFor_isNone, registerOf_lowBits, hr,
        operation]
  | push r =>
      have hr : r.Valid := hregs r (by simp [registers])
      obtain ⟨h3, hlow, h4, hne⟩ := opcode_add_low 0x50 (by decide) (lowBits_lt r)
      simp +decide [bytes, label?, opcodeBytes, decode, readRex_rexIf, h4, hne, decodeShort, h3,
        hlow, rexFor_b, registerOf_lowBits, hr, operation]
  | pop r =>
      have hr : r.Valid := hregs r (by simp [registers])
      obtain ⟨h3, hlow, h4, hne⟩ := opcode_add_low 0x58 (by decide) (lowBits_lt r)
      simp +decide [bytes, label?, opcodeBytes, decode, readRex_rexIf, h4, hne, decodeShort, h3,
        hlow, rexFor_b, registerOf_lowBits, hr, operation]
  | jump l =>
      simp +decide [bytes, label?, opcodeBytes, decode, readRex_of_ne, decodeShort,
        readInt32_bytes32, operation]
  | jumpIf c l =>
      have hc : c < 16 := hconds c (by simp [conds])
      obtain ⟨h4, hlow⟩ := opcode_add_cond 0x80 (by decide) hc
      simp +decide [bytes, label?, opcodeBytes, decode, readRex_of_ne, decodeLong, h4, hlow,
        readInt32_bytes32, operation]
  | call l =>
      simp +decide [bytes, label?, opcodeBytes, decode, readRex_of_ne, decodeShort,
        readInt32_bytes32, operation]
  | callReg r =>
      have hr : r.Valid := hregs r (by simp [registers])
      simp +decide [bytes, label?, opcodeBytes, decode, readRex_rexIf, decodeShort,
        readOperand_register, lowBits_lt, rexFor_b, registerOf_lowBits, hr, operation]
  | cqo =>
      rfl
  | ret =>
      rfl
  | syscall =>
      rfl
  | ud2 =>
      rfl
  | int3 =>
      rfl

end Instruction

end X64
end StackNative
