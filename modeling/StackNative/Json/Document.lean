import StackNative.Text.Utf8

/-!
# Structured text

**Input.** Documents as trees.
**Algorithm.** Strings escape what would end them, control characters, the three
characters that matter inside markup, and the two line separators; a stray byte
is shown as the escape of the replacement character.
**Results.** `Document.compact` on one line, `Document.indented` with two blanks
for each level.
-/

namespace StackNative
namespace Json

/-- A document.  The members of an object stand in the order in which they are written. -/
inductive Document where
  | string (t : Text)
  | number (n : Int)
  | bool (b : Bool)
  | array (items : List Document)
  | object (members : List (Text × Document))

section Strings

/-- A character inside a string. -/
def escapeChar (c : Char) : Text :=
  match c with
  | '"' => "\\\""
  | '\\' => "\\\\"
  | '\n' => "\\n"
  | '\r' => "\\r"
  | '\t' => "\\t"
  | c =>
    let n := c.toNat
    if n < 0x20 || n == 0x3c || n == 0x3e || n == 0x26 || n == 0x2028 || n == 0x2029 then
      "\\u" ++ Text.hexPadded 4 n
    else String.utf8EncodeChar c

/-- A string in quotes. -/
def quote (t : Text) : Text :=
  let body := t.pieces.flatMap fun
    | .scalar c => escapeChar c
    | .stray _ => "\\ufffd"
  "\"" ++ body ++ "\""

end Strings

section Layout

/-- How a document is spread over lines: on one line, or indented by a step for each level. -/
inductive Spread where
  | compact
  | indented (step : Nat)

/-- A line break and the blanks of a level, where lines are broken. -/
def Spread.newline (spread : Spread) (level : Nat) : Text :=
  match spread with
  | .compact => []
  | .indented step => 0x0a :: List.replicate (step * level) 0x20

/-- What divides a key from its value. -/
def Spread.colon : Spread → Text
  | .compact => ":"
  | .indented _ => ": "

/-- Appends bytes to what is written. -/
def append (out : Array UInt8) (t : Text) : Array UInt8 := t.foldl Array.push out

mutual

/-- Writes a document at a level. -/
def Document.write (spread : Spread) (level : Nat) (out : Array UInt8) : Document → Array UInt8
  | .string t => append out (quote t)
  | .number n => append out (Text.ofInt n)
  | .bool true => append out "true"
  | .bool false => append out "false"
  | .array [] => append out "[]"
  | .array (item :: items) =>
    let out := append (append out "[") (spread.newline (level + 1))
    let out := writeItems spread (level + 1) (item.write spread (level + 1) out) items
    append (append out (spread.newline level)) "]"
  | .object [] => append out "\x7b\x7d"
  | .object (member :: members) =>
    let out := append (append out "\x7b") (spread.newline (level + 1))
    let out := append (append out (quote member.1)) spread.colon
    let out := writeMembers spread (level + 1) (member.2.write spread (level + 1) out) members
    append (append out (spread.newline level)) "\x7d"

/-- Writes the items after the first. -/
def writeItems (spread : Spread) (level : Nat) (out : Array UInt8) : List Document → Array UInt8
  | [] => out
  | item :: items =>
    let out := append (append out ",") (spread.newline level)
    writeItems spread level (item.write spread level out) items

/-- Writes the members after the first. -/
def writeMembers (spread : Spread) (level : Nat) (out : Array UInt8) :
    List (Text × Document) → Array UInt8
  | [] => out
  | (key, value) :: members =>
    let out := append (append out ",") (spread.newline level)
    let out := append (append out (quote key)) spread.colon
    writeMembers spread level (value.write spread level out) members

end

/-- A document on one line. -/
def Document.compact (d : Document) : Text := (d.write .compact 0 #[]).toList

/-- A document over several lines. -/
def Document.indented (d : Document) : Text := (d.write (.indented 2) 0 #[]).toList

end Layout

section Members

/-- A member of an object. -/
def member (key : Text) (value : Document) : List (Text × Document) := [(key, value)]

/-- A member that is left out where it has nothing to say. -/
def memberIf (present : Bool) (key : Text) (value : Document) : List (Text × Document) :=
  if present then [(key, value)] else []

/-- A member that is left out where there is no value. -/
def memberOf (key : Text) (value : Option Document) : List (Text × Document) :=
  (value.map fun v => (key, v)).toList

/-- An object from its members. -/
def record (members : List (List (Text × Document))) : Document := .object members.flatten

end Members

end Json
end StackNative
