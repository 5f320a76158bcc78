import StackNative.Bytecode.Opcode
import StackNative.Bytecode.Value

/-!
# Building and reading chunks

**Input.** A chunk and what to write or where to read.
**Results.** Writing bytes with their line, adding constants, emitting the
instruction that loads a constant, reading back.
-/

namespace StackNative
namespace Bytecode
namespace Chunk

section Tables

/-- The code bytes. -/
def code (c : Chunk) : Array UInt8 := c.codeTable.getD #[]

/-- The source line of each code byte. -/
def lines (c : Chunk) : Array Int64 := c.lineTable.getD #[]

/-- A chunk with nothing in it. -/
def empty : Chunk := ⟨some #[], some #[], #[]⟩

/-- The number of code bytes. -/
def length (c : Chunk) : Nat := c.code.size

/-- The source line of a code byte, zero where there is none. -/
def lineAt (c : Chunk) (offset : Nat) : Int64 := c.lines.getD offset 0

end Tables

section Writing

/-- Writes one byte. -/
def write (c : Chunk) (b : UInt8) (line : Int64) : Chunk :=
  match c with
  | ⟨code, lines, constants⟩ =>
    ⟨some ((code.getD #[]).push b), some ((lines.getD #[]).push line), constants⟩

/-- Writes an opcode. -/
def writeOp (c : Chunk) (op : Opcode) (line : Int64) : Chunk := c.write op.toByte line

/-- Writes a word, the high byte first. -/
def writeWord (c : Chunk) (n : UInt16) (line : Int64) : Chunk :=
  (c.write (n >>> 8).toUInt8 line).write n.toUInt8 line

/-- Adds a constant to the pool. -/
def addConstant (c : Chunk) (v : Value) : Chunk :=
  match c with
  | ⟨code, lines, constants⟩ => ⟨code, lines, constants.push v⟩

/-- The pool has more constants than an operand can name. -/
structure PoolFull where
  size : Nat
  deriving DecidableEq, Repr

/-- The text of a full pool. -/
def PoolFull.message (e : PoolFull) : Text :=
  "too many constants in one chunk (" ++ Text.ofNat e.size ++ ")"

/-- Adds a constant and writes the instruction that loads it, the short one where its operand can
name the constant.  The constant stays in the pool even where no instruction can name it. -/
def emitConstant (c : Chunk) (v : Value) (line : Int64) : Chunk × Option PoolFull :=
  let index := c.constants.size
  let c := c.addConstant v
  if index ≤ 0xff then ((c.writeOp .const line).write index.toUInt8 line, none)
  else if index ≤ 0xffff then ((c.writeOp .constLong line).writeWord index.toUInt16 line, none)
  else (c, some ⟨index + 1⟩)

end Writing

section Reading

/-- The word at an offset, if both its bytes are there. -/
def readWord? (c : Chunk) (offset : Nat) : Option UInt16 :=
  match c.code[offset]?, c.code[offset + 1]? with
  | some high, some low => some ((high.toUInt16 <<< 8) ||| low.toUInt16)
  | _, _ => none

/-- The word at an offset, read with a sign. -/
def readSignedWord? (c : Chunk) (offset : Nat) : Option Int16 :=
  (c.readWord? offset).map UInt16.toInt16

end Reading

end Chunk
end Bytecode
end StackNative
