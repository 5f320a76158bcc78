import StackNative.Number.Shortest

/-!
# Constants and chunks

**Input.** Constants of a chunk of bytecode.
**Results.** The types of constants, function prototypes and chunks; reading a
constant as a plain value; its text; equality of constants; whether a text or an
equality needs a number that is missing.
-/

namespace StackNative
namespace Bytecode

mutual

/-- A constant of a pool. -/
inductive Value where
  | null
  | bool (b : Bool)
  | int (n : Int64)
  | float (x : Binary64)
  | string (s : Text)
  | array (items : List Value)
  | func (f : Prototype)
  /-- An integer constant without its number. -/
  | missingInt
  /-- A float constant without its number. -/
  | missingFloat
  /-- A function constant without a function. -/
  | missingFunc
  /-- A constant whose tag is none of the above. -/
  | unknown (tag : UInt8)

/-- A function in a constant pool.  Two functions are the same exactly if their places agree. -/
structure Prototype where
  place : List Nat
  name : Text
  arity : Int64
  body : Option Chunk

/-- A chunk of bytecode.  An absent table counts as an empty one wherever it is read. -/
structure Chunk where
  codeTable : Option (Array UInt8)
  lineTable : Option (Array Int64)
  constants : Array Value

end

instance : Inhabited Value := ⟨.null⟩

/-- The name of the type with a tag. -/
def typeName (tag : UInt8) : Text :=
  match tag with
  | 0 => "null"
  | 1 => "bool"
  | 2 => "int"
  | 3 => "float"
  | 4 => "string"
  | 5 => "array"
  | 6 => "func"
  | n => "ValueType(" ++ Text.ofNat n.toNat ++ ")"

namespace Value

/-- The tag of a constant. -/
def tag : Value → UInt8
  | .null => 0
  | .bool _ => 1
  | .int _ => 2
  | .float _ => 3
  | .string _ => 4
  | .array _ => 5
  | .func _ => 6
  | .missingInt => 2
  | .missingFloat => 3
  | .missingFunc => 6
  | .unknown tag => tag

section Readings

/-- The truth value, false for anything else. -/
def asBool : Value → Bool
  | .bool b => b
  | _ => false

/-- The integer, or the integer part of a float, zero for anything else. -/
def asInt : Value → Int64
  | .int n => n
  | .float x => x.toInt64
  | _ => 0

/-- The float, or the float nearest to an integer, zero for anything else. -/
def asFloat : Value → Binary64
  | .float x => x
  | .int n => Binary64.ofInt n.toInt
  | _ => Binary64.zero

/-- The string, empty for anything else. -/
def asString : Value → Text
  | .string s => s
  | _ => []

/-- The items of an array, none for anything else. -/
def asArray : Value → List Value
  | .array items => items
  | _ => []

/-- The function, if there is one. -/
def asFunc : Value → Option Prototype
  | .func f => some f
  | _ => none

end Readings

mutual

/-- The text of a constant; a missing number has none. -/
def text : Value → Text
  | .null => "null"
  | .bool true => "true"
  | .bool false => "false"
  | .int n => Text.ofInt n.toInt
  | .float x => x.text
  | .string s => s
  | .array items => "[" ++ Text.join ", " (textsOnto #[] items) ++ "]"
  | .func f => "<fn " ++ f.name ++ "/" ++ Text.ofInt f.arity.toInt ++ ">"
  | .missingInt => ""
  | .missingFloat => ""
  | .missingFunc => "<fn>"
  | .unknown _ => "<unknown>"

/-- The texts of constants after those already written. -/
def textsOnto (done : Array Text) : List Value → List Text
  | [] => done.toList
  | v :: rest => textsOnto (done.push v.text) rest

end

mutual

/-- Equality of constants: floats compare as numbers, functions as objects, arrays item by item. -/
def equals : Value → Value → Bool
  | .null, .null => true
  | .bool a, .bool b => a == b
  | .int a, .int b => a == b
  | .float a, .float b => a.equal b
  | .string a, .string b => a == b
  | .array as, .array bs => equalItems as bs
  | .func f, .func g => f.place == g.place
  | .missingFunc, .missingFunc => true
  | .unknown a, .unknown b => a == b
  | _, _ => false

/-- Item by item equality of two lists of the same length. -/
def equalItems : List Value → List Value → Bool
  | [], [] => true
  | a :: as, b :: bs => a.equals b && equalItems as bs
  | _, _ => false

end

mutual

/-- The text of a constant needs no missing number. -/
def isComplete : Value → Bool
  | .missingInt | .missingFloat => false
  | .array items => areComplete items
  | _ => true

/-- The texts of constants need no missing number. -/
def areComplete : List Value → Bool
  | [] => true
  | v :: rest => v.isComplete && areComplete rest

end

mutual

/-- Comparing two constants needs no missing number.  Constants of two types differ by that
alone, and so do arrays of two lengths. -/
def isComparable : Value → Value → Bool
  | .missingInt, w => w.tag != 2
  | .missingFloat, w => w.tag != 3
  | v, .missingInt => v.tag != 2
  | v, .missingFloat => v.tag != 3
  | .array as, .array bs => as.length != bs.length || areComparable as bs
  | _, _ => true

/-- Comparing items up to the first two that differ needs no missing number. -/
def areComparable : List Value → List Value → Bool
  | a :: as, b :: bs => a.isComparable b && (!a.equals b || areComparable as bs)
  | _, _ => true

end

end Value
end Bytecode
end StackNative
