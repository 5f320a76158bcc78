import Std.Data.HashSet
import StackNative.Bytecode.Instruction

/-!
# Verification

**Input.** A chunk.
**Algorithm.** The code is read into instructions; then each operand that names
a constant is compared with the pool, and each jump with the places where
instructions begin and the end of the code.
**Results.** `Chunk.verify`, the first problem in code order.
-/

namespace StackNative
namespace Bytecode

/-- What is wrong with the structure of a chunk. -/
inductive VerifyFault where
  | noChunk
  | lineTable (lines code : Nat)
  | constantIndex (op : Opcode) (index : Int) (pool : Nat)
  | jumpTarget (op : Opcode) (target : Int)
  deriving DecidableEq, Repr

/-- The text of a fault. -/
def VerifyFault.message : VerifyFault → Text
  | .noChunk => "nil chunk"
  | .lineTable lines code =>
    "line table has " ++ Text.ofNat lines ++ " entries for " ++ Text.ofNat code ++ " code bytes"
  | .constantIndex op index pool =>
    op.mnemonic ++ " index " ++ Text.ofInt index ++ " out of range (pool has " ++
      Text.ofNat pool ++ " constants)"
  | .jumpTarget op target =>
    op.mnemonic ++ " target " ++ Text.ofInt target ++ " is not an instruction boundary"

/-- The first problem of a chunk. -/
inductive VerifyError where
  | undecodable (e : DecodeError)
  | invalid (offset : Nat) (fault : VerifyFault)
  deriving DecidableEq, Repr

/-- The text of a problem. -/
def VerifyError.message : VerifyError → Text
  | .undecodable e => e.message
  | .invalid offset fault =>
    "invalid bytecode at offset " ++ Text.ofNat offset ++ ": " ++ fault.message

namespace Chunk

/-- The problem with the operand of an instruction, given where instructions begin. -/
def operandFault (c : Chunk) (boundaries : Std.HashSet Int) (i : Instruction) :
    Option VerifyFault :=
  if i.op.takesConstant then
    if i.operand < c.constants.size then none
    else some (.constantIndex i.op i.operand c.constants.size)
  else if i.op.isJump then
    if boundaries.contains i.target then none else some (.jumpTarget i.op i.target)
  else none

/-- The places a jump may go to. -/
def boundaries (c : Chunk) (is : List Instruction) : Std.HashSet Int :=
  (Std.HashSet.ofList (is.map fun i => (i.offset : Int))).insert c.length

/-- The first problem of a chunk, if it has one. -/
def verify (c : Chunk) : Option VerifyError :=
  if c.lines.size ≠ c.length then some (.invalid 0 (.lineTable c.lines.size c.length))
  else match c.instructions with
    | .error e => some (.undecodable e)
    | .ok is =>
      let places := c.boundaries is
      is.findSome? fun i => (c.operandFault places i).map (.invalid i.offset)

end Chunk

/-- The first problem of what should be a chunk. -/
def verify : Option Chunk → Option VerifyError
  | none => some (.invalid 0 .noChunk)
  | some c => c.verify

end Bytecode
end StackNative
