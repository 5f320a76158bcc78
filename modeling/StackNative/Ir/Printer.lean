import StackNative.Ir.Module

/-!
# Modules as text

**Results.** `Module.text` and the texts of its parts.
-/

namespace StackNative
namespace Ir

/-- A block: its name, its numbered instructions, its terminator. -/
def Block.text (b : Block) : Text :=
  let lines := b.instructions.toList.mapIdx fun n i =>
    Text.padLeft 4 0x20 (Text.ofNat n) ++ ": " ++ i.text ++ "\n"
  blockText b.id ++ ":\n" ++ lines.flatten ++ "      " ++ b.terminator.text ++ "\n"

/-- A global variable. -/
def Global.text (g : Global) : Text :=
  "global " ++ (if g.exported then ("export " : Text) else []) ++
    (if g.isMutable then ("mut " : Text) else []) ++ "@" ++ g.name ++ ": " ++ g.type.name ++
    match g.init with
    | some c => " = " ++ c.text
    | none => []

/-- A function: its head, and its locals and blocks unless it is external. -/
def Function.text (f : Function) : Text :=
  let label : Text := if f.external then "declare " else if f.exported then "export " else []
  let params := f.params.map fun p => registerText p.register ++ ": " ++ p.type.name
  let head := label ++ "func " ++ f.name ++ "(" ++ Text.join ", " params ++ ") -> " ++
    f.returnType.name
  if f.external then head ++ "\n"
  else
    let locals := f.locals.toList.mapIdx fun n l =>
      "  $" ++ Text.ofNat n ++ " " ++ l.name ++ ": " ++ l.type.name ++ " ; [fp-" ++
        Text.ofInt l.offset.toInt ++ "]\n"
    head ++ " \x7b\n" ++ locals.flatten ++ f.blocks.toList.flatMap Block.text ++ "\x7d\n"

/-- A module: its name, its metadata, its global variables, its functions. -/
def Module.text (m : Module) : Text :=
  let entries : Text := m.sortedMetadata.flatMap fun (key, value) =>
    "; " ++ key ++ " = " ++ value ++ "\n"
  let globals : Text := m.globals.toList.flatMap fun g => g.text ++ "\n"
  let functions : Text := m.functions.toList.flatMap fun f => 0x0a :: f.text
  "; module " ++ m.name ++ "\n" ++ entries ++ globals ++ functions

end Ir
end StackNative
