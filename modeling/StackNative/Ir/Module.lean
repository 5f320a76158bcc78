import StackNative.Ir.Instruction

/-!
# Terminators, blocks, functions and modules

**Results.** The data of the intermediate representation and the operations that
build it.  A module hands out the numbers of registers and blocks.
-/

namespace StackNative
namespace Ir

/-- How a block ends. -/
inductive Terminator where
  | unreachable
  | jump (target : BlockId)
  | branch (condition : Register) (onTrue onFalse : BlockId)
  | ret (value : Option Register)
  /-- The register is named also where no value is carried. -/
  | throw (value : Register) (hasValue : Bool)
  | unknown (code : UInt8)
  deriving DecidableEq, Repr

namespace Terminator

/-- The name of a kind of terminator by its code. -/
def kindNameOfCode (code : UInt8) : Text :=
  match code with
  | 0 => "unreachable"
  | 1 => "jump"
  | 2 => "branch"
  | 3 => "ret"
  | 4 => "throw"
  | code => numbered "term" code

/-- The code of the kind of a terminator. -/
def kindCode : Terminator → UInt8
  | .unreachable => 0
  | .jump _ => 1
  | .branch .. => 2
  | .ret _ => 3
  | .throw .. => 4
  | .unknown code => code

/-- The terminator of a kind whose operands are zero. -/
def zeroOfCode (code : UInt8) : Terminator :=
  match code with
  | 0 => .unreachable
  | 1 => .jump 0
  | 2 => .branch 0 0 0
  | 3 => .ret none
  | 4 => .throw 0 false
  | code => .unknown code

/-- The blocks that control may go to. -/
def successors : Terminator → List BlockId
  | .jump target => [target]
  | .branch _ onTrue onFalse => [onTrue, onFalse]
  | _ => []

/-- The registers that a terminator reads. -/
def uses : Terminator → List Register
  | .branch condition _ _ => [condition]
  | .ret value => value.toList
  | .throw value hasValue => if hasValue then [value] else []
  | _ => []

/-- The register whose value is returned. -/
def returnValue : Terminator → Option Register
  | .ret value => value
  | _ => none

/-- The register that a terminator carries out of the function. -/
def carried : Terminator → Option Register
  | .ret value => value
  | .throw value hasValue => if hasValue then some value else none
  | _ => none

/-- The text of a terminator. -/
def text : Terminator → Text
  | .jump target => "jump " ++ blockText target
  | .branch condition onTrue onFalse =>
    "branch " ++ registerText condition ++ ", " ++ blockText onTrue ++ ", " ++ blockText onFalse
  | .ret (some value) => "ret " ++ registerText value
  | .ret none => "ret"
  | .throw value _ => "throw " ++ registerText value
  | .unreachable => "unreachable"
  | .unknown _ => "unreachable"

end Terminator

/-- A basic block: instructions in order and one way out.  Whether the way out was set is noted
apart from it, so a block that counts as open may still lead somewhere. -/
structure Block where
  id : BlockId
  instructions : Array Instruction := #[]
  terminator : Terminator := .unreachable
  /-- The terminator was set. -/
  terminated : Bool := false

namespace Block

/-- Adds an instruction at the end. -/
def append (b : Block) (i : Instruction) : Block :=
  { b with instructions := b.instructions.push i }

/-- Sets the terminator, also where there is one. -/
def setTerminator (b : Block) (t : Terminator) : Block :=
  { b with terminator := t, terminated := true }

end Block

/-- A parameter of a function. -/
structure Param where
  register : Register
  type : Ty

/-- A local variable and how far below the frame base it lies. -/
structure Local where
  name : Text
  type : Ty
  offset : Int64

/-- A function; an external one is only declared. -/
structure Function where
  name : Text
  params : List Param := []
  returnType : Ty := .void
  entry : BlockId := 0
  locals : Array Local := #[]
  blocks : Array Block := #[]
  external : Bool := false
  exported : Bool := false

namespace Function

/-- The first block with a number. -/
def block? (f : Function) (id : BlockId) : Option Block := f.blocks.find? fun b => b.id == id

/-- The block where control enters. -/
def entryBlock? (f : Function) : Option Block := f.block? f.entry

/-- Adds an empty block. -/
def addBlock (f : Function) (id : BlockId) : Function := { f with blocks := f.blocks.push { id } }

/-- Changes the first block with a number. -/
def modifyBlock (f : Function) (id : BlockId) (change : Block → Block) : Function :=
  match f.blocks.findIdx? fun b => b.id == id with
  | some i => { f with blocks := f.blocks.modify i change }
  | none => f

/-- The number of bytes of a local variable. -/
def slotSize : Nat := 8

/-- Adds a local variable in the next slot. -/
def addLocal (f : Function) (name : Text) (type : Ty) : Function :=
  { f with locals := f.locals.push ⟨name, type, Int64.ofNat ((f.locals.size + 1) * slotSize)⟩ }

/-- The bytes that the local variables take. -/
def frameSize (f : Function) : Nat := f.locals.size * slotSize

end Function

/-- A global variable. -/
structure Global where
  name : Text
  type : Ty
  init : Option Constant
  isMutable : Bool
  exported : Bool

/-- A module, with the next register and the next block to hand out. -/
structure Module where
  name : Text
  metadata : List (Text × Text) := []
  globals : Array Global := #[]
  functions : Array Function := #[]
  nextRegister : Register := 0
  nextBlock : BlockId := 0

namespace Module

/-- Hands out a register. -/
def newRegister (m : Module) : Register × Module :=
  (m.nextRegister, { m with nextRegister := m.nextRegister + 1 })

/-- Hands out a block number. -/
def newBlockId (m : Module) : BlockId × Module :=
  (m.nextBlock, { m with nextBlock := m.nextBlock + 1 })

/-- Adds a function. -/
def addFunction (m : Module) (f : Function) : Module :=
  { m with functions := m.functions.push f }

/-- A function with a fresh entry block, and the module after the block number is handed out. -/
def freshFunction (m : Module) (name : Text) (ret : Ty) : Function × Module :=
  let (id, m) := m.newBlockId
  (({ name := name, returnType := ret, entry := id : Function }).addBlock id, m)

/-- Adds a function with a fresh entry block. -/
def newFunction (m : Module) (name : Text) (ret : Ty) : Module :=
  let (f, m) := m.freshFunction name ret
  m.addFunction f

/-- Adds a global variable. -/
def addGlobal (m : Module) (g : Global) : Module := { m with globals := m.globals.push g }

/-- Changes a function. -/
def modifyFunction (m : Module) (index : Nat) (change : Function → Function) : Module :=
  { m with functions := m.functions.modify index change }

/-- Sets an entry of the metadata; the last value of a key counts. -/
def setMetadata (m : Module) (key value : Text) : Module :=
  { m with metadata := (key, value) :: m.metadata.filter fun e => e.1 != key }

/-- The first function with a name. -/
def function? (m : Module) (name : Text) : Option Function :=
  m.functions.find? fun f => f.name == name

/-- The first global variable with a name. -/
def global? (m : Module) (name : Text) : Option Global :=
  m.globals.find? fun g => g.name == name

/-- The metadata in the order of the keys. -/
def sortedMetadata (m : Module) : List (Text × Text) :=
  m.metadata.mergeSort fun a b => Text.le a.1 b.1

end Module
end Ir
end StackNative
