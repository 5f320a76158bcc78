import StackNative.Text.Endian
import StackNative.X64.Register

/-!
# Machine instructions

**Input.** Instructions of the 64-bit machine, with labels of any type.
**Algorithm.** An instruction is an optional REX byte, an opcode, a ModR/M byte
with its SIB byte and displacement, and an immediate.  An instruction that names
a label ends with a four-byte distance, which is left to the layout.
**Results.** `Instruction.opcodeBytes`, `Instruction.label?`, `Instruction.size`.
-/

namespace StackNative
namespace X64

open Text (littleEndian)

/-- A condition code. -/
abbrev Cond := UInt8

namespace Cond

def equal : Cond := 0x4
def notEqual : Cond := 0x5
def less : Cond := 0xc
def greaterOrEqual : Cond := 0xd
def lessOrEqual : Cond := 0xe
def greater : Cond := 0xf

end Cond

/-- The operations on two registers whose source stands in the register field. -/
inductive PairOp where
  | mov
  | add
  | sub
  | and
  | or
  | xor
  | cmp
  | test
  deriving DecidableEq, Repr

/-- The operations on two registers whose destination stands in the register field. -/
inductive WideOp where
  | imul
  /-- Copies the lowest byte and clears the rest. -/
  | movzx8
  deriving DecidableEq, Repr

/-- The operations on one register that a ModR/M byte tells apart. -/
inductive SingleOp where
  | not
  | neg
  | idiv
  /-- Shifts left by the low byte of `rcx`. -/
  | shl
  /-- Shifts right by the low byte of `rcx`, keeping the sign. -/
  | sar
  deriving DecidableEq, Repr

/-- A machine instruction. -/
inductive Instruction (label : Type) where
  | pair (op : PairOp) (target source : Reg)
  | wide (op : WideOp) (target source : Reg)
  | single (op : SingleOp) (r : Reg)
  | movImm64 (target : Reg) (n : UInt64)
  /-- The immediate is extended by its sign. -/
  | movImm32 (target : Reg) (n : Int32)
  | subImm (target : Reg) (n : Int32)
  | loadMem (target base : Reg) (offset : Int32)
  | storeMem (base : Reg) (offset : Int32) (source : Reg)
  | lea (target base : Reg) (offset : Int32)
  | leaLabel (target : Reg) (l : label)
  | setCond (c : Cond) (r : Reg)
  | push (r : Reg)
  | pop (r : Reg)
  | jump (l : label)
  | jumpIf (c : Cond) (l : label)
  | call (l : label)
  | callReg (r : Reg)
  /-- Extends the sign of `rax` into `rdx`. -/
  | cqo
  | ret
  | syscall
  /-- An instruction that always traps. -/
  | ud2
  | int3
  deriving DecidableEq, Repr

section Encoding

/-- The REX byte. -/
def rex (w r x b : Bool) : UInt8 :=
  0x40 ||| (if w then 0x08 else 0) ||| (if r then 0x04 else 0) ||| (if x then 0x02 else 0) |||
    (if b then 0x01 else 0)

/-- The ModR/M byte. -/
def modrm (mode reg rm : UInt8) : UInt8 := (mode <<< 6) ||| ((reg &&& 7) <<< 3) ||| (rm &&& 7)

/-- The four bytes of a signed number. -/
def bytes32 (n : Int32) : Text := littleEndian 4 n.toUInt32.toNat

/-- The number fits a signed byte. -/
def fitsByte (n : Int32) : Bool := -128 ≤ n && n ≤ 127

/-- A memory operand: a base register and an offset in the shortest form.  The bases `rsp` and
`r12` need a SIB byte; `rbp` and `r13` have no form without an offset. -/
def memoryOperand (reg : UInt8) (base : Reg) (offset : Int32) : Text :=
  let mode : UInt8 :=
    if offset == 0 && base != .rbp && base != .r13 then 0
    else if fitsByte offset then 1
    else 2
  let address : Text :=
    if base == .rsp || base == .r12 then [modrm mode reg 4, 0x24]
    else [modrm mode reg base.lowBits]
  let displacement : Text :=
    if mode == 0 then []
    else if mode == 1 then [offset.toUInt32.toUInt8]
    else bytes32 offset
  address ++ displacement

/-- The opcode of an operation on two registers. -/
def PairOp.opcode : PairOp → UInt8
  | .mov => 0x89
  | .add => 0x01
  | .sub => 0x29
  | .and => 0x21
  | .or => 0x09
  | .xor => 0x31
  | .cmp => 0x39
  | .test => 0x85

/-- The second opcode byte of an operation on two registers. -/
def WideOp.opcode : WideOp → UInt8
  | .imul => 0xaf
  | .movzx8 => 0xb6

/-- The opcode of an operation on one register, and what stands in the register field. -/
def SingleOp.opcode : SingleOp → UInt8 × UInt8
  | .not => (0xf7, 2)
  | .neg => (0xf7, 3)
  | .idiv => (0xf7, 7)
  | .shl => (0xd3, 4)
  | .sar => (0xd3, 7)

/-- The REX byte that an instruction has only for the sake of its register. -/
def rexIf (present extended : Bool) : Text :=
  if present then [rex false false false extended] else []

namespace Instruction

variable {label : Type}

/-- The bytes of an instruction, without the distance to a label. -/
def opcodeBytes : Instruction label → Text
  | .pair op target source =>
    [rex true source.isExtended false target.isExtended, op.opcode,
      modrm 3 source.lowBits target.lowBits]
  | .wide op target source =>
    [rex true target.isExtended false source.isExtended, 0x0f, op.opcode,
      modrm 3 target.lowBits source.lowBits]
  | .single op r =>
    [rex true false false r.isExtended, op.opcode.1, modrm 3 op.opcode.2 r.lowBits]
  | .movImm64 target n =>
    [rex true false false target.isExtended, 0xb8 + target.lowBits] ++ littleEndian 8 n.toNat
  | .movImm32 target n =>
    [rex true false false target.isExtended, 0xc7, modrm 3 0 target.lowBits] ++ bytes32 n
  | .subImm target n =>
    let front := rex true false false target.isExtended
    if fitsByte n then [front, 0x83, modrm 3 5 target.lowBits, n.toUInt32.toUInt8]
    else [front, 0x81, modrm 3 5 target.lowBits] ++ bytes32 n
  | .loadMem target base offset =>
    [rex true target.isExtended false base.isExtended, 0x8b] ++
      memoryOperand target.lowBits base offset
  | .storeMem base offset source =>
    [rex true source.isExtended false base.isExtended, 0x89] ++
      memoryOperand source.lowBits base offset
  | .lea target base offset =>
    [rex true target.isExtended false base.isExtended, 0x8d] ++
      memoryOperand target.lowBits base offset
  | .leaLabel target _ =>
    [rex true target.isExtended false false, 0x8d, modrm 0 target.lowBits 5]
  | .setCond c r => rexIf (4 ≤ r.number) r.isExtended ++ [0x0f, 0x90 + c, modrm 3 0 r.lowBits]
  | .push r => rexIf r.isExtended true ++ [0x50 + r.lowBits]
  | .pop r => rexIf r.isExtended true ++ [0x58 + r.lowBits]
  | .jump _ => [0xe9]
  | .jumpIf c _ => [0x0f, 0x80 + c]
  | .call _ => [0xe8]
  | .callReg r => rexIf r.isExtended true ++ [0xff, modrm 3 2 r.lowBits]
  | .cqo => [0x48, 0x99]
  | .ret => [0xc3]
  | .syscall => [0x0f, 0x05]
  | .ud2 => [0x0f, 0x0b]
  | .int3 => [0xcc]

/-- The label whose distance ends an instruction. -/
def label? : Instruction label → Option label
  | .leaLabel _ l => some l
  | .jump l => some l
  | .jumpIf _ l => some l
  | .call l => some l
  | _ => none

/-- The number of bytes of an instruction. -/
def size (i : Instruction label) : Nat :=
  i.opcodeBytes.length + if i.label?.isSome then 4 else 0

/-- Puts an integer into a register, by the shorter instruction where it fits. -/
def movImm (target : Reg) (n : Int64) : Instruction label :=
  if -2147483648 ≤ n && n < 2147483648 then .movImm32 target n.toInt32
  else .movImm64 target n.toUInt64

end Instruction

end Encoding

end X64
end StackNative
