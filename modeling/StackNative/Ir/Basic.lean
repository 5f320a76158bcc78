import StackNative.Number.Shortest
import StackNative.Text.Quoted

/-!
# Registers, blocks, types and constants

**Results.** The names of virtual registers and basic blocks, the types of the
intermediate representation and its constants, with their texts.
-/

namespace StackNative
namespace Ir

/-- The number of a virtual register. -/
abbrev Register := UInt32

/-- The number of a basic block. -/
abbrev BlockId := UInt32

/-- A register as text. -/
def registerText (r : Register) : Text := "r" ++ Text.ofNat r.toNat

/-- A block as text. -/
def blockText (b : BlockId) : Text := "bb" ++ Text.ofNat b.toNat

/-- A name with a number in parentheses, for codes without a name of their own. -/
def numbered (name : Text) (code : UInt8) : Text := name ++ "(" ++ Text.ofNat code.toNat ++ ")"

/-- The type of a value. -/
inductive Ty where
  | void
  | bool
  | i64
  | f64
  | string
  | ptr
  | any
  | unknown (code : UInt8)
  deriving DecidableEq, Repr

namespace Ty

/-- The types with a name, in the order of their codes. -/
def named : List Ty := [.void, .bool, .i64, .f64, .string, .ptr, .any]

/-- The type with a code. -/
def ofCode (code : UInt8) : Ty := named.getD code.toNat (.unknown code)

/-- The name of a type. -/
def name : Ty → Text
  | .void => "void"
  | .bool => "bool"
  | .i64 => "i64"
  | .f64 => "f64"
  | .string => "string"
  | .ptr => "ptr"
  | .any => "any"
  | .unknown code => numbered "type" code

end Ty

/-- A constant. -/
inductive Constant where
  | null
  | int (n : Int64)
  | float (x : Binary64)
  | string (s : Text)
  | bool (b : Bool)
  | unknown (code : UInt8)
  deriving DecidableEq, Repr

namespace Constant

/-- The name of a kind of constant by its code. -/
def kindNameOfCode (code : UInt8) : Text :=
  match code with
  | 0 => "null"
  | 1 => "int"
  | 2 => "float"
  | 3 => "string"
  | 4 => "bool"
  | code => numbered "const" code

/-- The code of the kind of a constant. -/
def kindCode : Constant → UInt8
  | .null => 0
  | .int _ => 1
  | .float _ => 2
  | .string _ => 3
  | .bool _ => 4
  | .unknown code => code

/-- The name of the kind of a constant. -/
def kindName (c : Constant) : Text := kindNameOfCode c.kindCode

/-- The constant of a kind whose content is zero. -/
def zeroOfCode (code : UInt8) : Constant :=
  match code with
  | 0 => .null
  | 1 => .int 0
  | 2 => .float .zero
  | 3 => .string []
  | 4 => .bool false
  | code => .unknown code

/-- The type of a constant. -/
def type : Constant → Ty
  | .int _ => .i64
  | .float _ => .f64
  | .string _ => .string
  | .bool _ => .bool
  | .null => .any
  | .unknown _ => .any

/-- The text of a constant. -/
def text : Constant → Text
  | .int n => Text.ofInt n.toInt
  | .float x => x.text
  | .string s => Text.quoted s
  | .bool true => "true"
  | .bool false => "false"
  | .null => "null"
  | .unknown _ => "null"

end Constant
end Ir
end StackNative
