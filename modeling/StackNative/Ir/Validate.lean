import Std.Data.HashMap
import Std.Data.HashSet
import StackNative.Ir.Module

/-!
# Validation

**Input.** A module.
**Algorithm.** Functions are visited in order, and in each function that is not
external its blocks and their instructions, with a record of the names, blocks
and registers met so far.
**Results.** `Module.validate`, every problem in the order of the visit.
-/

namespace StackNative
namespace Ir

/-- What is wrong with a module. -/
inductive Problem where
  | duplicateFunction (name : Text)
  | entryMissing
  | blockReused (owner : Text)
  | unterminated
  | targetMissing (target : BlockId)
  | redefined (register : Register) (owner : Text)
  deriving DecidableEq, Repr

/-- The text of a problem. -/
def Problem.message : Problem → Text
  | .duplicateFunction name => "duplicate function " ++ Text.quoted name
  | .entryMissing => "entry block not found"
  | .blockReused owner => "block id already used in " ++ owner
  | .unterminated => "block has no terminator"
  | .targetMissing target => "jump target " ++ blockText target ++ " not found"
  | .redefined register owner =>
    "register " ++ registerText register ++ " redefined (first defined in " ++ owner ++ ")"

/-- A problem and the block it is found in; a problem of the module as a whole has neither function
nor block. -/
structure ValidationError where
  function : Text
  block : BlockId
  problem : Problem
  deriving DecidableEq, Repr

/-- The text of an error; a function without a name is not named. -/
def ValidationError.message (e : ValidationError) : Text :=
  if e.function.isEmpty then e.problem.message
  else e.function ++ "/" ++ blockText e.block ++ ": " ++ e.problem.message

/-- What the visit has met, and what it has found wrong. -/
structure Visit where
  functions : Std.HashSet Text := ∅
  blocks : Std.HashMap BlockId Text := ∅
  registers : Std.HashMap Register Text := ∅
  errors : Array ValidationError := #[]

namespace Visit

/-- Reports a problem unless a condition holds. -/
def require (v : Visit) (holds : Bool) (function : Text) (block : BlockId) (p : Problem) : Visit :=
  if holds then v else { v with errors := v.errors.push ⟨function, block, p⟩ }

/-- Visits an instruction: its destination is new. -/
def instruction (function : Text) (block : BlockId) (v : Visit) (i : Instruction) : Visit :=
  match i.dest? with
  | none => v
  | some r =>
    match v.registers[r]? with
    | some owner => v.require false function block (.redefined r owner)
    | none => { v with registers := v.registers.insert r function }

/-- Visits a block: its number is new, its terminator is set, its successors exist. -/
def block (f : Function) (v : Visit) (b : Block) : Visit :=
  let v := match v.blocks[b.id]? with
    | some owner => v.require false f.name b.id (.blockReused owner)
    | none => v
  let v := { v with blocks := v.blocks.insert b.id f.name }
  let v := v.require b.terminated f.name b.id .unterminated
  let v := b.terminator.successors.foldl
    (fun v target => v.require (f.block? target).isSome f.name b.id (.targetMissing target)) v
  b.instructions.foldl (instruction f.name b.id) v

/-- Visits a function: its name is new, its entry exists, its blocks are in order. -/
def function (v : Visit) (f : Function) : Visit :=
  let v := v.require (!v.functions.contains f.name) [] 0 (.duplicateFunction f.name)
  let v := { v with functions := v.functions.insert f.name }
  if f.external then v
  else
    let v := v.require f.entryBlock?.isSome f.name f.entry .entryMissing
    let v := { v with
      registers := f.params.foldl (fun rs p => rs.insert p.register f.name) v.registers }
    f.blocks.foldl (block f) v

end Visit

/-- Every problem of a module. -/
def Module.validate (m : Module) : List ValidationError :=
  (m.functions.foldl Visit.function {}).errors.toList

end Ir
end StackNative
