import Std.Data.HashMap
import StackNative.Bytecode.Instruction
import StackNative.Ir.Module

/-!
# From bytecode to the intermediate representation

**Input.** A chunk, and the module that takes it up.
**Algorithm.** The code is read once, from its beginning.  A table of registers by
depth stands for the operand stack: what pushes a value mints a register and
enters it at the depth reached, what pops one takes the entry on top out.
**Results.** `lower` adds one function with one block, which ends by returning
zero, or names the first instruction that has no meaning here.
-/

namespace StackNative
namespace Lowering

open Bytecode (Chunk Opcode Value)
open Ir (Register Module)

/-- Why a chunk cannot be taken up. -/
inductive LoweringError where
  /-- The module was given away, or given up, before. -/
  | consumed
  | unsupportedOpcode (byte : UInt8) (offset : Nat)
  | undecodable (e : Bytecode.DecodeError)
  | constantIndex (index : Int) (offset : Nat)
  | unsupportedConstant (index : Int) (tag : UInt8)
  /-- A number constant has no number; unlike the others this leaves the work as it stands. -/
  | missingNumber (index : Int)
  | stackUnderflow (offset : Nat) (op : Opcode)
  /-- The operand stack is this deep and has no register there. -/
  | unrecorded (depth : Nat)
  deriving DecidableEq, Repr

/-- The text of an error. -/
def LoweringError.message : LoweringError → Text
  | .consumed => "converter module already consumed"
  | .unsupportedOpcode byte offset =>
    "unsupported opcode " ++ Opcode.nameOfByte byte ++ " at offset " ++ Text.ofNat offset
  | .undecodable e => e.message
  | .constantIndex index offset =>
    "constant index " ++ Text.ofInt index ++ " out of range at offset " ++ Text.ofNat offset
  | .unsupportedConstant index tag =>
    "unsupported constant kind " ++ Bytecode.typeName tag ++ " at index " ++ Text.ofInt index
  | .missingNumber index => "number constant without a number at index " ++ Text.ofInt index
  | .stackUnderflow offset op =>
    "stack underflow at offset " ++ Text.ofNat offset ++ " (" ++ op.mnemonic ++ ")"
  | .unrecorded depth => "no register recorded at stack depth " ++ Text.ofNat depth

/-- The constant of the intermediate representation for a constant of a pool. -/
def constant (index : Int) : Value → Except LoweringError Ir.Constant
  | .int n => .ok (.int n)
  | .float x => .ok (.float x)
  | .string s => .ok (.string s)
  | .bool b => .ok (.bool b)
  | .null => .ok .null
  | .missingInt | .missingFloat => .error (.missingNumber index)
  | v => .error (.unsupportedConstant index v.tag)

/-- What an opcode does to the operand stack. -/
inductive Effect where
  | loadPool
  | push (c : Ir.Constant)
  | binary (op : Ir.Op)
  | unary (op : Ir.Op)
  | drop
  /-- Returns the top if there is one. -/
  | returnTop
  | returnNothing
  | unsupported
  deriving DecidableEq

/-- The effect of each opcode. -/
def effect : Opcode → Effect
  | .const | .constLong => .loadPool
  | .pushNull => .push .null
  | .pushTrue => .push (.bool true)
  | .pushFalse => .push (.bool false)
  | .pushZero => .push (.int 0)
  | .pushOne => .push (.int 1)
  | .add => .binary .add
  | .sub => .binary .sub
  | .mul => .binary .mul
  | .div => .binary .div
  | .mod => .binary .mod
  | .eq => .binary .eq
  | .ne => .binary .ne
  | .lt => .binary .lt
  | .le => .binary .le
  | .gt => .binary .gt
  | .ge => .binary .ge
  | .and => .binary .and
  | .or => .binary .or
  | .bitAnd => .binary .bitAnd
  | .bitOr => .binary .bitOr
  | .bitXor => .binary .bitXor
  | .shl => .binary .shl
  | .shr => .binary .shr
  | .neg => .unary .neg
  | .not => .unary .not
  | .bitNot => .unary .bitNot
  | .print | .printLn | .pop => .drop
  | .ret => .returnTop
  | .retNull => .returnNothing
  | _ => .unsupported

/-- The registers that stand for the operand stack: its depth, and the register at each depth. -/
structure Operands where
  depth : Nat := 0
  registers : Std.HashMap Nat Register := ∅

namespace Operands

/-- Puts a register on top. -/
def push (o : Operands) (r : Register) : Operands :=
  ⟨o.depth + 1, o.registers.insert o.depth r⟩

/-- Takes the register on top, for an instruction. -/
def pop (i : Bytecode.Instruction) (o : Operands) :
    Except LoweringError (Register × Operands) :=
  match o.depth with
  | 0 => .error (.stackUnderflow i.offset i.op)
  | depth + 1 =>
    match o.registers[depth]? with
    | none => .error (.unrecorded depth)
    | some r => .ok (r, ⟨depth, o.registers.erase depth⟩)

end Operands

/-- The function under construction. -/
structure State where
  /-- The register to be minted next. -/
  next : Register
  stack : Operands
  instructions : Array Ir.Instruction
  /-- How the block ends, as far as the code has said. -/
  terminator : Option Ir.Terminator := none

namespace State

/-- Emits an instruction whose result a fresh register holds. -/
def mint (s : State) (line : Int64) (instruction : Register → Ir.Instruction) : State :=
  { s with
    next := s.next + 1
    instructions := s.instructions.push ((instruction s.next).withLine line) }

/-- Emits such an instruction and puts the register on top of a stack. -/
def define (s : State) (stack : Operands) (line : Int64)
    (instruction : Register → Ir.Instruction) : State :=
  { s.mint line instruction with stack := stack.push s.next }

/-- The state after an instruction of the chunk, or the error that stops it there. -/
def advance (c : Chunk) (s : State) (i : Bytecode.Instruction) : Except LoweringError State :=
  match effect i.op with
  | .loadPool =>
    match c.constants[i.operand.toNat]? with
    | none => .error (.constantIndex i.operand i.offset)
    | some v => do
      let k ← constant i.operand v
      return s.define s.stack i.line fun r => .loadConst r k
  | .push k => .ok (s.define s.stack i.line fun r => .loadConst r k)
  | .binary op => do
    let (right, stack) ← s.stack.pop i
    let (left, stack) ← stack.pop i
    return s.define stack i.line fun r => .binary op r left right
  | .unary op => do
    let (operand, stack) ← s.stack.pop i
    return s.define stack i.line fun r => .unary op r operand
  | .drop => do
    let (_, stack) ← s.stack.pop i
    return { s with stack := stack }
  | .returnTop =>
    if s.stack.depth = 0 then .ok { s with terminator := some (.ret none) }
    else do
      let (r, stack) ← s.stack.pop i
      return { s with stack := stack, terminator := some (.ret (some r)) }
  | .returnNothing => .ok { s with terminator := some (.ret none) }
  | .unsupported => .error (.unsupportedOpcode i.op.toByte i.offset)

/-- The state after an instruction of the chunk, or as it is with the error that stops it there. -/
def step (c : Chunk) (s : State) (i : Bytecode.Instruction) : State × Option LoweringError :=
  match s.advance c i with
  | .ok s => (s, none)
  | .error e => (s, some e)

/-- The state at the end of the code: zero is returned, whatever was to be returned before. -/
def finish (s : State) : State :=
  { s.mint 0 fun r => .loadConst r (.int 0) with terminator := some (.ret (some s.next)) }

end State

/-- Reads the instruction at an offset; a byte that is no opcode counts as an unsupported one. -/
def read (c : Chunk) (offset : Nat) : Except LoweringError Bytecode.Instruction :=
  match c.decode offset with
  | .ok i => .ok i
  | .error ⟨_, .unknownOpcode b⟩ => .error (.unsupportedOpcode b offset)
  | .error e => .error (.undecodable e)

/-- The state that the code from an offset on leads to, and the error that stops it there, if
one does. -/
def run (c : Chunk) (offset : Nat) (s : State) : State × Option LoweringError :=
  if offset < c.length then
    match read c offset with
    | .error e => (s, some e)
    | .ok i =>
      match s.step c i with
      | (s, some e) => (s, some e)
      | (s, none) => run c (offset + i.width) s
  else (s.finish, none)
termination_by c.length - offset
decreasing_by
  have : 0 < i.width := by unfold Bytecode.Instruction.width; omega
  omega

/-- The name of the function that code becomes. -/
def entryName : Text := "main"

/-- The module with the code of a chunk as one more function, as far as it could be read, the
operand stack there, and the error that stops it, if one does. -/
def lowerOnto (m : Module) (stack : Operands) (c : Chunk) :
    Module × Operands × Option LoweringError :=
  let (f, m) := m.freshFunction entryName .i64
  let (s, e) := run c 0 ⟨m.nextRegister, stack, #[], none⟩
  let block : Ir.Block :=
    ⟨f.entry, s.instructions, s.terminator.getD .unreachable, s.terminator.isSome⟩
  let m := { m with
    nextRegister := s.next
    functions := m.functions.push { f with exported := true, blocks := #[block] } }
  (m, s.stack, e)

/-- The module with the code of a chunk as one more function. -/
def lower (m : Module) (c : Chunk) : Except LoweringError Module :=
  match lowerOnto m {} c with
  | (_, _, some e) => .error e
  | (m, _, none) => .ok m

/-- The module of a chunk. -/
def convert (name : Text) (c : Chunk) : Except LoweringError Module := lower { name := name } c

/-- A module that takes up one chunk and is then given away, or given up if that fails. -/
structure Converter where
  module : Option Module
  /-- The operand stack of a chunk that could not be read to its end. -/
  stack : Operands := {}

/-- Takes up a chunk, once.  A missing number leaves the converter in the middle of the chunk. -/
def Converter.convert (k : Converter) (c : Chunk) : Except LoweringError Module × Converter :=
  match k.module with
  | none => (.error .consumed, k)
  | some m =>
    match lowerOnto m k.stack c with
    | (m, stack, some (.missingNumber index)) => (.error (.missingNumber index), ⟨some m, stack⟩)
    | (_, _, some e) => (.error e, ⟨none, {}⟩)
    | (m, _, none) => (.ok m, ⟨none, {}⟩)

end Lowering
end StackNative
