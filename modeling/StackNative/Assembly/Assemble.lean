import StackNative.Assembly.Statement

/-!
# Assembling

**Input.** Statements, or the bytes of a source.
**Algorithm.** Each statement writes its instruction behind the ones before it;
a statement whose operand does not fit writes none.
**Results.** `assemble`, the chunk of a source or the faults of the first stage
that finds any.
-/

namespace StackNative
namespace Assembly

open Bytecode (Opcode Value Chunk)

/-- What can be wrong with a statement. -/
inductive EmitFault where
  | poolFull (e : Chunk.PoolFull)
  | constantIndex (index : Nat)
  | operandRange (n : Int64) (op : Opcode) (least greatest : Int)
  deriving DecidableEq, Repr

/-- The text of a fault. -/
def EmitFault.message : EmitFault → Text
  | .poolFull e => e.message
  | .constantIndex index => "constant index " ++ Text.ofNat index ++ " exceeds 65535"
  | .operandRange n op least greatest =>
    "operand " ++ Text.ofInt n.toInt ++ " of " ++ op.mnemonic ++ " out of range [" ++
      Text.ofInt least ++ ", " ++ Text.ofInt greatest ++ "]"

/-- The integers that an operand of an opcode can be. -/
def operandRange (op : Opcode) : Int × Int :=
  match op.operandForm with
  | .signedWord => (-32768, 32767)
  | .byte => (0, 255)
  | _ => (0, 65535)

/-- Writes the operand of an opcode, cut to its width. -/
def writeOperand (c : Chunk) (op : Opcode) (n : Int64) (line : Int64) : Chunk :=
  match op.operandForm with
  | .none => c
  | .byte => c.write n.toUInt64.toUInt8 line
  | _ => c.writeWord n.toUInt64.toUInt16 line

/-- Writes the instruction of a statement. -/
def Statement.emit (c : Chunk) (s : Statement) : Chunk × Option (Position × EmitFault) :=
  let line := Int64.ofNat s.start.line
  match s.operation with
  | .plain op => (c.writeOp op line, none)
  | .loadConstant false v =>
    let (c, full) := c.emitConstant v line
    (c, full.map fun e => (s.start, .poolFull e))
  | .loadConstant true v =>
    let index := c.constants.size
    let c := c.addConstant v
    if 0xffff < index then (c, some (s.start, .constantIndex index))
    else ((c.writeOp .constLong line).writeWord index.toUInt16 line, none)
  | .withInteger op n place =>
    let (least, greatest) := operandRange op
    if n.toInt < least || greatest < n.toInt then
      (c, some (place, .operandRange n op least greatest))
    else (writeOperand (c.writeOp op line) op n line, none)

/-- Writes statements one after the other. -/
def emitOnto (c : Chunk) (faults : Array (Position × EmitFault)) :
    List Statement → Chunk × Array (Position × EmitFault)
  | [] => (c, faults)
  | s :: rest =>
    match s.emit c with
    | (c, none) => emitOnto c faults rest
    | (c, some f) => emitOnto c (faults.push f) rest

/-- The chunk of statements, or what is wrong with them. -/
def emit (ss : List Statement) : Except (List (Position × EmitFault)) Chunk :=
  let (c, faults) := emitOnto .empty #[] ss
  if faults.isEmpty then .ok c else .error faults.toList

/-- The faults of the first stage that finds any. -/
inductive AssemblyError where
  | lexing (faults : List (Position × LexFault))
  | parsing (faults : List Fault)
  | emitting (faults : List (Position × EmitFault))
  deriving DecidableEq, Repr

/-- The name of the stage. -/
def AssemblyError.stage : AssemblyError → Text
  | .lexing _ => "lex error"
  | .parsing _ => "parse error"
  | .emitting _ => "bytecode compile error"

/-- Faults with their positions, a semicolon between neighbours. -/
def located (message : α → Text) (faults : List (Position × α)) : Text :=
  Text.join "; " (faults.map fun (p, f) => p.text ++ ": " ++ message f)

/-- The text of the faults. -/
def AssemblyError.faultsText : AssemblyError → Text
  | .lexing faults => located LexFault.message faults
  | .parsing faults => located ParseFault.message faults
  | .emitting faults => located EmitFault.message faults

/-- The chunk of a source. -/
def assemble (source : Text) : Except AssemblyError Chunk :=
  match tokens source with
  | .error faults => .error (.lexing faults)
  | .ok ts =>
    match statements ts with
    | .error faults => .error (.parsing faults)
    | .ok ss =>
      match emit ss with
      | .error faults => .error (.emitting faults)
      | .ok c => .ok c

end Assembly
end StackNative
