import StackNative.Ir.Basic

/-!
# Instructions

**Results.** The operations, instructions with the operands each operation
takes, the registers an instruction reads, and texts.
-/

namespace StackNative
namespace Ir

/-- What an instruction does. -/
inductive Op where
  | nop
  | loadConst
  | loadGlobal
  | storeGlobal
  | loadLocal
  | storeLocal
  | move
  /-- Reads through a pointer. -/
  | load
  /-- Writes through a pointer. -/
  | store
  | add
  | sub
  | mul
  | div
  | mod
  | neg
  | eq
  | ne
  | lt
  | le
  | gt
  | ge
  | and
  | or
  | not
  | bitAnd
  | bitOr
  | bitXor
  | bitNot
  | shl
  | shr
  | call
  | callIndirect
  | alloca
  | heapAlloc
  | free
  | throw
  | tryBegin
  | tryEnd
  | phi
  | debugLine
  | unknown (code : UInt8)
  deriving DecidableEq, Repr

namespace Op

/-- The operations with a name, in the order of their codes. -/
def named : List Op :=
  [.nop, .loadConst, .loadGlobal, .storeGlobal, .loadLocal, .storeLocal, .move, .load, .store,
    .add, .sub, .mul, .div, .mod, .neg, .eq, .ne, .lt, .le, .gt, .ge, .and, .or, .not, .bitAnd,
    .bitOr, .bitXor, .bitNot, .shl, .shr, .call, .callIndirect, .alloca, .heapAlloc, .free,
    .throw, .tryBegin, .tryEnd, .phi, .debugLine]

/-- The operation with a code. -/
def ofCode (code : UInt8) : Op := named.getD code.toNat (.unknown code)

/-- The name of an operation. -/
def name : Op → Text
  | .nop => "nop"
  | .loadConst => "const"
  | .loadGlobal => "load_global"
  | .storeGlobal => "store_global"
  | .loadLocal => "load_local"
  | .storeLocal => "store_local"
  | .move => "move"
  | .load => "load"
  | .store => "store"
  | .add => "add"
  | .sub => "sub"
  | .mul => "mul"
  | .div => "div"
  | .mod => "mod"
  | .neg => "neg"
  | .eq => "eq"
  | .ne => "ne"
  | .lt => "lt"
  | .le => "le"
  | .gt => "gt"
  | .ge => "ge"
  | .and => "and"
  | .or => "or"
  | .not => "not"
  | .bitAnd => "bit_and"
  | .bitOr => "bit_or"
  | .bitXor => "bit_xor"
  | .bitNot => "bit_not"
  | .shl => "shl"
  | .shr => "shr"
  | .call => "call"
  | .callIndirect => "call_indirect"
  | .alloca => "alloca"
  | .heapAlloc => "heap_alloc"
  | .free => "free"
  | .throw => "throw"
  | .tryBegin => "try_begin"
  | .tryEnd => "try_end"
  | .phi => "phi"
  | .debugLine => "debug_line"
  | .unknown code => numbered "op" code

/-- The operation with a name. -/
def ofName? (name : Text) : Option Op := named.find? fun op => op.name == name

/-- The comparisons. -/
def isComparison : Op → Bool
  | .eq | .ne | .lt | .le | .gt | .ge => true
  | _ => false

/-- The operations on two operands. -/
def isBinary : Op → Bool
  | .add | .sub | .mul | .div | .mod | .eq | .ne | .lt | .le | .gt | .ge | .and | .or
  | .bitAnd | .bitOr | .bitXor | .shl | .shr => true
  | _ => false

/-- The operations on one operand. -/
def isUnary : Op → Bool
  | .neg | .not | .bitNot => true
  | _ => false

end Op

/-- A value that reaches a phi along an edge. -/
structure Edge where
  source : BlockId
  value : Register
  deriving DecidableEq, Repr

/-- An instruction.  Which of the fields an instruction uses depends on its operation; the others
keep their defaults. -/
structure Instruction where
  op : Op
  /-- The register that is named, whether it is written or not. -/
  dest : Register := 0
  /-- The instruction writes the register that it names. -/
  hasDest : Bool := false
  args : List Register := []
  const : Constant := .null
  name : Text := []
  slot : Int := 0
  size : Int64 := 0
  handler : BlockId := 0
  incoming : List Edge := []
  /-- The source line, zero where it is not known. -/
  line : Int64 := 0
  deriving DecidableEq, Repr

namespace Instruction

section Constructors

/-- Puts a constant into a register. -/
def loadConst (dest : Register) (c : Constant) : Instruction :=
  { op := .loadConst, dest := dest, hasDest := true, const := c }

/-- Reads a global variable. -/
def loadGlobal (dest : Register) (name : Text) : Instruction :=
  { op := .loadGlobal, dest := dest, hasDest := true, name := name }

/-- Writes a global variable. -/
def storeGlobal (name : Text) (value : Register) : Instruction :=
  { op := .storeGlobal, name := name, args := [value] }

/-- Reads a local variable. -/
def loadLocal (dest : Register) (slot : Int) : Instruction :=
  { op := .loadLocal, dest := dest, hasDest := true, slot := slot }

/-- Writes a local variable. -/
def storeLocal (slot : Int) (value : Register) : Instruction :=
  { op := .storeLocal, slot := slot, args := [value] }

/-- Copies a register. -/
def move (dest source : Register) : Instruction :=
  { op := .move, dest := dest, hasDest := true, args := [source] }

/-- Reads through a pointer. -/
def load (dest pointer : Register) : Instruction :=
  { op := .load, dest := dest, hasDest := true, args := [pointer] }

/-- Writes through a pointer. -/
def store (pointer value : Register) : Instruction :=
  { op := .store, args := [pointer, value] }

/-- An operation on two operands. -/
def binary (op : Op) (dest left right : Register) : Instruction :=
  { op := op, dest := dest, hasDest := true, args := [left, right] }

/-- An operation on one operand. -/
def unary (op : Op) (dest operand : Register) : Instruction :=
  { op := op, dest := dest, hasDest := true, args := [operand] }

/-- Calls a function by name. -/
def call (dest : Option Register) (callee : Text) (args : List Register) : Instruction :=
  { op := .call, dest := dest.getD 0, hasDest := dest.isSome, name := callee, args := args }

/-- Calls a function through a register. -/
def callIndirect (dest : Option Register) (callee : Register) (args : List Register) :
    Instruction :=
  { op := .callIndirect, dest := dest.getD 0, hasDest := dest.isSome, args := callee :: args }

/-- Reserves bytes in the frame. -/
def alloca (dest : Register) (size : Int64) : Instruction :=
  { op := .alloca, dest := dest, hasDest := true, size := size }

/-- Reserves bytes on the heap. -/
def heapAlloc (dest : Register) (size : Int64) : Instruction :=
  { op := .heapAlloc, dest := dest, hasDest := true, size := size }

/-- Gives bytes on the heap back. -/
def free (pointer : Register) : Instruction := { op := .free, args := [pointer] }

/-- Throws a value. -/
def throwValue (value : Register) : Instruction := { op := .throw, args := [value] }

/-- Begins a region whose exceptions go to a block. -/
def tryBegin (handler : BlockId) : Instruction := { op := .tryBegin, handler := handler }

/-- Ends such a region. -/
def tryEnd : Instruction := { op := .tryEnd }

/-- Takes the value of the edge that control came along. -/
def phi (dest : Register) (incoming : List Edge) : Instruction :=
  { op := .phi, dest := dest, hasDest := true, incoming := incoming }

/-- Does nothing. -/
def nop : Instruction := { op := .nop }

/-- Names the source line of what follows. -/
def debugLine (line : Int64) : Instruction := { op := .debugLine, line := line }

/-- The instruction with another source line. -/
def withLine (i : Instruction) (line : Int64) : Instruction := { i with line := line }

end Constructors

/-- The register that an instruction writes. -/
def dest? (i : Instruction) : Option Register := if i.hasDest then some i.dest else none

/-- The register that an instruction writes, read off its fields. -/
@[simp] theorem dest?_mk (op dest hasDest args const name slot size handler incoming line) :
    dest? ⟨op, dest, hasDest, args, const, name, slot, size, handler, incoming, line⟩ =
      if hasDest then some dest else none :=
  rfl

/-- The registers that an instruction reads. -/
def uses (i : Instruction) : List Register :=
  if i.op = .phi then i.incoming.map Edge.value else i.args

section Texts

/-- Registers with commas between them. -/
def registersText (rs : List Register) : Text := Text.join ", " (rs.map registerText)

/-- The operands of an instruction. -/
def operandsText (i : Instruction) : Text :=
  match i.op with
  | .loadConst => " " ++ i.const.text
  | .loadGlobal => " @" ++ i.name
  | .storeGlobal => " @" ++ i.name ++ ", " ++ registersText i.args
  | .loadLocal => " $" ++ Text.ofInt i.slot
  | .storeLocal => " $" ++ Text.ofInt i.slot ++ ", " ++ registersText i.args
  | .call => " @" ++ i.name ++ "(" ++ registersText i.args ++ ")"
  | .callIndirect =>
    match i.args with
    | [] => []
    | callee :: args => " " ++ registerText callee ++ "(" ++ registersText args ++ ")"
  | .alloca | .heapAlloc => " " ++ Text.ofInt i.size.toInt
  | .tryBegin => " " ++ blockText i.handler
  | .phi =>
    let edges := i.incoming.map fun e =>
      "[" ++ blockText e.source ++ ", " ++ registerText e.value ++ "]"
    " " ++ Text.join ", " edges
  | .debugLine => " " ++ Text.ofInt i.line.toInt
  | _ => if i.args.isEmpty then [] else " " ++ registersText i.args

/-- The text of an instruction. -/
def text (i : Instruction) : Text :=
  let target : Text := match i.dest? with
    | some r => registerText r ++ " = "
    | none => []
  target ++ i.op.name ++ i.operandsText

end Texts

end Instruction
end Ir
end StackNative
