import StackNative.Ir.Module
import StackNative.Json.Document

/-!
# Modules as documents

**Results.** `Module.document`, in which empty parts are left out.
-/

namespace StackNative
namespace Ir

open Json (Document record member memberIf memberOf)

/-- Numbers of registers or blocks. -/
def numbersDocument (ns : List UInt32) : Document := .array (ns.map fun n => .number n.toNat)

/-- An instruction with its text. -/
def Instruction.document (i : Instruction) : Document :=
  record [
    member "op" (.string i.op.name),
    memberOf "dest" (i.dest?.map fun r => .number r.toNat),
    memberIf (!i.args.isEmpty) "args" (numbersDocument i.args),
    memberIf (i.op = .loadConst) "const" (.string i.const.text),
    memberIf (!i.name.isEmpty) "name" (.string i.name),
    memberIf (i.line != 0) "line" (.number i.line.toInt),
    member "text" (.string i.text)]

/-- A terminator with its text. -/
def Terminator.document (t : Terminator) : Document :=
  record [
    member "kind" (.string (kindNameOfCode t.kindCode)),
    memberIf (!t.successors.isEmpty) "targets" (numbersDocument t.successors),
    memberOf "value" (t.carried.map fun r => .number r.toNat),
    member "text" (.string t.text)]

/-- A block. -/
def Block.document (b : Block) : Document :=
  record [
    member "id" (.number b.id.toNat),
    member "instructions" (.array (b.instructions.toList.map Instruction.document)),
    member "terminator" b.terminator.document]

/-- A parameter. -/
def Param.document (p : Param) : Document :=
  record [
    member "reg" (.number p.register.toNat),
    member "type" (.string p.type.name)]

/-- A local variable. -/
def Local.document (l : Local) : Document :=
  record [
    member "name" (.string l.name),
    member "type" (.string l.type.name),
    member "offset" (.number l.offset.toInt)]

/-- A function. -/
def Function.document (f : Function) : Document :=
  record [
    member "name" (.string f.name),
    memberIf (!f.params.isEmpty) "params" (.array (f.params.map Param.document)),
    member "returnType" (.string f.returnType.name),
    member "entry" (.number f.entry.toNat),
    memberIf (!f.locals.isEmpty) "locals" (.array (f.locals.toList.map Local.document)),
    member "blocks" (.array (f.blocks.toList.map Block.document)),
    memberIf f.external "external" (.bool true),
    memberIf f.exported "exported" (.bool true)]

/-- A global variable. -/
def Global.document (g : Global) : Document :=
  record [
    member "name" (.string g.name),
    member "type" (.string g.type.name),
    memberOf "init" (g.init.map fun c => .string c.text),
    member "mutable" (.bool g.isMutable),
    member "exported" (.bool g.exported)]

/-- A module. -/
def Module.document (m : Module) : Document :=
  let entries := m.sortedMetadata.map fun (key, value) => (key, Document.string value)
  record [
    member "name" (.string m.name),
    memberIf (!entries.isEmpty) "metadata" (.object entries),
    memberIf (!m.globals.isEmpty) "globals" (.array (m.globals.toList.map Global.document)),
    member "functions" (.array (m.functions.toList.map Function.document))]

end Ir
end StackNative
