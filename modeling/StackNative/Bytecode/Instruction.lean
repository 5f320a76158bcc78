import StackNative.Bytecode.Chunk

/-!
# Instructions in code

**Input.** A chunk.
**Algorithm.** An instruction is an opcode byte and the operand its opcode asks
for; the next one begins right behind it.
**Results.** `Chunk.decode` reads one instruction, `Chunk.instructions` all of
them or the fault of the first that cannot be read.
-/

namespace StackNative
namespace Bytecode

/-- An instruction with its place. -/
structure Instruction where
  offset : Nat
  op : Opcode
  /-- Zero where the opcode takes none. -/
  operand : Int
  line : Int64
  deriving DecidableEq, Repr

namespace Instruction

/-- The number of bytes of the instruction. -/
def width (i : Instruction) : Nat := 1 + i.op.operandWidth

/-- Where a jump goes: back for the loop instruction, forward for the others, counted from the
next instruction. -/
def target (i : Instruction) : Int :=
  let next : Int := i.offset + i.width
  if i.op = .loop then next - i.operand else next + i.operand

end Instruction

/-- Why no instruction can be read. -/
inductive DecodeFault where
  | outOfRange
  | unknownOpcode (b : UInt8)
  | truncatedOperand (op : Opcode)
  deriving DecidableEq, Repr

/-- A place where no instruction can be read. -/
structure DecodeError where
  offset : Int
  fault : DecodeFault
  deriving DecidableEq, Repr

/-- The text of a fault. -/
def DecodeFault.message : DecodeFault → Text
  | .outOfRange => "offset out of range"
  | .unknownOpcode b => "unknown opcode 0x" ++ Text.hexPadded 2 b.toNat
  | .truncatedOperand op => "truncated operand for " ++ op.mnemonic

/-- The text of a decoding error. -/
def DecodeError.message (e : DecodeError) : Text :=
  "malformed bytecode at offset " ++ Text.ofInt e.offset ++ ": " ++ e.fault.message

namespace Chunk

/-- The operand of a form at an offset. -/
def readOperand? (c : Chunk) (offset : Nat) : OperandForm → Option Int
  | .none => some 0
  | .byte => (c.code[offset]?).map fun b => b.toNat
  | .word => (c.readWord? offset).map fun w => w.toNat
  | .signedWord => (c.readSignedWord? offset).map Int16.toInt

/-- Reads the instruction at an offset. -/
def decode (c : Chunk) (offset : Nat) : Except DecodeError Instruction :=
  match c.code[offset]? with
  | none => .error ⟨offset, .outOfRange⟩
  | some b =>
    match Opcode.ofByte? b with
    | none => .error ⟨offset, .unknownOpcode b⟩
    | some op =>
      match c.readOperand? (offset + 1) op.operandForm with
      | none => .error ⟨offset, .truncatedOperand op⟩
      | some operand => .ok ⟨offset, op, operand, c.lineAt offset⟩

/-- Reads the instruction at an offset that may be negative. -/
def decodeAt (c : Chunk) : Int → Except DecodeError Instruction
  | .ofNat offset => c.decode offset
  | .negSucc n => .error ⟨.negSucc n, .outOfRange⟩

/-- The instructions from an offset on, after those already read. -/
def instructionsFrom (c : Chunk) (offset : Nat) (done : Array Instruction) :
    Except DecodeError (Array Instruction) :=
  if offset < c.length then
    match c.decode offset with
    | .error e => .error e
    | .ok i => c.instructionsFrom (offset + i.width) (done.push i)
  else .ok done
termination_by c.length - offset
decreasing_by
  have : 0 < i.width := by unfold Instruction.width; omega
  omega

/-- All instructions of a chunk. -/
def instructions (c : Chunk) : Except DecodeError (List Instruction) :=
  (c.instructionsFrom 0 #[]).map Array.toList

end Chunk
end Bytecode
end StackNative
