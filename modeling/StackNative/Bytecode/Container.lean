import StackNative.Bytecode.Verify
import StackNative.Cbor.Reader
import StackNative.Cbor.Field
import StackNative.Text.Quoted

/-!
# Containers

A container is the file form of a chunk: a map from small integers to fields,
in which each constant is a map of its own and the body of a function is a
container again.

**Input.** A chunk, or the bytes of a container.
**Algorithm.** Writing leaves out the fields of a constant that are zero; reading
starts from zero fields, takes the first of several entries for one field, and
skips keys that name none.
**Results.** `Chunk.marshal` and `Chunk.unmarshal`.
-/

namespace StackNative
namespace Bytecode

open Cbor (Item)

/-- The mark every container begins with. -/
def containerMagic : Text := "SOLA"

/-- The version of the format that is written, of which the first number has to agree in reading. -/
def containerVersion : UInt8 × UInt8 := (1, 0)

/-- Why a chunk cannot be written or a container cannot be read. -/
inductive ContainerError where
  /-- The bytes are no item of the right shape. -/
  | malformed
  | badMagic (magic : Text)
  | badVersion (major minor : UInt8)
  | lineTable (lines code : Nat)
  | constant (index : Nat) (cause : ContainerError)
  | missingNumber
  | missingFunction
  | unknownValue (tag : UInt8)
  | unknownKind (kind : UInt8)
  deriving DecidableEq, Repr

/-- The text of a container error. -/
def ContainerError.message : ContainerError → Text
  | .malformed => "bytecode: unmarshal container"
  | .badMagic magic => "bytecode: bad container magic " ++ Text.quoted magic
  | .badVersion major minor =>
    "bytecode: unsupported container version " ++ Text.ofNat major.toNat ++ "." ++
      Text.ofNat minor.toNat
  | .lineTable lines code => "bytecode: " ++ (VerifyFault.lineTable lines code).message
  | .constant index cause => "bytecode: constant " ++ Text.ofNat index ++ ": " ++ cause.message
  | .missingNumber => "number constant without a number"
  | .missingFunction => "nil function constant"
  | .unknownValue tag => "cannot encode value of type " ++ typeName tag
  | .unknownKind kind => "unknown constant kind " ++ Text.ofNat kind.toNat

/-- What an error comes down to, wherever it arose. -/
def ContainerError.root : ContainerError → ContainerError
  | .constant _ cause => cause.root
  | e => e

section Writing

/-- A field that is written only if it is not zero. -/
def optionalField (key : Nat) (present : Bool) (item : Item) : List (Item × Item) :=
  if present then [(.natural key, item)] else []

/-- The map of a constant: its kind, then its other fields. -/
def constantItem (kind : Nat) (fields : List (Item × Item)) : Item :=
  .map ((.natural 1, .natural kind) :: fields)

/-- A list that is written as null when it is empty. -/
def listItem : List Item → Item
  | [] => .null
  | items => .array items

mutual

/-- The item of a constant. -/
def Value.toItem : Value → Except ContainerError Item
  | .null => .ok (constantItem 0 [])
  | .bool b => .ok (constantItem 1 (optionalField 2 b (.ofBool b)))
  | .int n => .ok (constantItem 2 (optionalField 3 (n != 0) (.ofInt n.toInt)))
  | .float x => .ok (constantItem 3 (optionalField 4 (!x.isZero) (.float x)))
  | .string s => .ok (constantItem 4 (optionalField 5 (!s.isEmpty) (.text [s])))
  | .array values =>
    match itemsOnto #[] values with
    | .error e => .error e
    | .ok items => .ok (constantItem 5 (optionalField 6 (!items.isEmpty) (.array items)))
  | .func f => f.toItem
  | .missingInt | .missingFloat => .error .missingNumber
  | .missingFunc => .error .missingFunction
  | .unknown tag => .error (.unknownValue tag)

/-- The item of a function. -/
def Prototype.toItem : Prototype → Except ContainerError Item
  | ⟨_, name, arity, body⟩ =>
    let front := optionalField 5 (!name.isEmpty) (.text [name]) ++
      optionalField 7 (arity != 0) (.ofInt arity.toInt)
    match body with
    | none => .ok (constantItem 6 front)
    | some chunk =>
      match chunk.toItem with
      | .error e => .error e
      | .ok item => .ok (constantItem 6 (front ++ [(.natural 8, item)]))

/-- The item of a chunk. -/
def Chunk.toItem : Chunk → Except ContainerError Item
  | ⟨code, lines, ⟨constants⟩⟩ =>
    let codeSize := (code.getD #[]).size
    let lineCount := (lines.getD #[]).size
    if lineCount ≠ codeSize then .error (.lineTable lineCount codeSize)
    else match poolItems 0 #[] constants with
      | .error e => .error e
      | .ok pool =>
        .ok (.map [
          (.natural 1, .text [containerMagic]),
          (.natural 2, .natural containerVersion.1.toNat),
          (.natural 3, .natural containerVersion.2.toNat),
          (.natural 4, match code with
            | none => .null
            | some bytes => .bytes bytes.toList),
          (.natural 5, match lines with
            | none => .null
            | some ns => .array (ns.toList.map fun n => .ofInt n.toInt)),
          (.natural 6, listItem pool)])

/-- The items of constants after those already made. -/
def itemsOnto (done : Array Item) : List Value → Except ContainerError (List Item)
  | [] => .ok done.toList
  | v :: rest =>
    match v.toItem with
    | .error e => .error e
    | .ok item => itemsOnto (done.push item) rest

/-- The items of a pool; an error names the constant it belongs to. -/
def poolItems (index : Nat) (done : Array Item) : List Value → Except ContainerError (List Item)
  | [] => .ok done.toList
  | v :: rest =>
    match v.toItem with
    | .error e => .error (.constant index e)
    | .ok item => poolItems (index + 1) (done.push item) rest

end

/-- The bytes of the container of a chunk. -/
def Chunk.marshal (c : Chunk) : Except ContainerError Text := c.toItem.map Item.encode

end Writing

section Fields

mutual

/-- A container as it stands in a file, before its fields are looked at. -/
structure Container where
  magic : Text
  major : UInt8
  minor : UInt8
  code : Array UInt8
  lines : Array Int64
  constants : List Constant

/-- A constant as it stands in a file; which fields count depends on its kind. -/
structure Constant where
  kind : UInt8
  bool : Bool
  int : Int64
  float : Binary64
  string : Text
  items : List Constant
  arity : Int64
  body : Option Container

end

/-- All fields zero. -/
def Container.zero : Container := ⟨[], 0, 0, #[], #[], []⟩

/-- All fields zero. -/
def Constant.zero : Constant := ⟨0, false, 0, .zero, [], [], 0, none⟩

/-- What a key of a map is good for. -/
inductive FieldKey where
  | field (n : Nat)
  | skipped
  | invalid
  deriving DecidableEq

/-- The field that a key names: a small integer, or a text that is its numeral. -/
def FieldKey.of (count : Nat) : Item → FieldKey
  | .natural n => if 1 ≤ n && n ≤ count then .field n else .skipped
  | .negative n => if n < 0x8000000000000000 then .skipped else .invalid
  | .text pieces =>
    if !pieces.all Text.isValid then .invalid
    else match pieces.flatten with
      | [b] =>
        if 0x31 ≤ b && b.toNat ≤ 0x30 + count then .field (b.toNat - 0x30) else .skipped
      | _ => .skipped
  | _ => .invalid

mutual

/-- Reads a container. -/
def readContainer : Item → Option Container
  | .map entries => readContainerFields entries [] .zero
  | .tagged tag item =>
    if Item.tagFits tag item && tag != 2 && tag != 3 then readContainer item else none
  | .simple n => if n == 22 || n == 23 then some .zero else none
  | _ => none

/-- Reads the fields of a container; those in `seen` have their value. -/
def readContainerFields : List (Item × Item) → List Nat → Container → Option Container
  | [], _, c => some c
  | (key, value) :: rest, seen, c =>
    match FieldKey.of 6 key with
    | .invalid => none
    | .skipped => readContainerFields rest seen c
    | .field n =>
      if seen.contains n then readContainerFields rest seen c
      else
        let updated : Option Container := match n with
          | 1 => (value.textField c.magic).map fun x => { c with magic := x }
          | 2 => (value.byteField c.major).map fun x => { c with major := x }
          | 3 => (value.byteField c.minor).map fun x => { c with minor := x }
          | 4 => (value.bytesField c.code).map fun x => { c with code := x }
          | 5 => (value.int64sField c.lines).map fun x => { c with lines := x }
          | _ => (readConstants value).map fun x => { c with constants := x }
        match updated with
        | some c => readContainerFields rest (n :: seen) c
        | none => none

/-- Reads a list of constants. -/
def readConstants : Item → Option (List Constant)
  | .array items => readConstantsOnto #[] items
  | .tagged tag item =>
    if Item.tagFits tag item && tag != 2 && tag != 3 then readConstants item else none
  | .simple n => if n == 22 || n == 23 then some [] else none
  | _ => none

/-- Reads constants after those already read. -/
def readConstantsOnto (done : Array Constant) : List Item → Option (List Constant)
  | [] => some done.toList
  | item :: rest =>
    match readConstant item with
    | some c => readConstantsOnto (done.push c) rest
    | none => none

/-- Reads a constant. -/
def readConstant : Item → Option Constant
  | .map entries => readConstantFields entries [] .zero
  | .tagged tag item =>
    if Item.tagFits tag item && tag != 2 && tag != 3 then readConstant item else none
  | .simple n => if n == 22 || n == 23 then some .zero else none
  | _ => none

/-- Reads the fields of a constant; those in `seen` have their value. -/
def readConstantFields : List (Item × Item) → List Nat → Constant → Option Constant
  | [], _, c => some c
  | (key, value) :: rest, seen, c =>
    match FieldKey.of 8 key with
    | .invalid => none
    | .skipped => readConstantFields rest seen c
    | .field n =>
      if seen.contains n then readConstantFields rest seen c
      else
        let updated : Option Constant := match n with
          | 1 => (value.byteField c.kind).map fun x => { c with kind := x }
          | 2 => (value.boolField c.bool).map fun x => { c with bool := x }
          | 3 => (value.int64Field c.int).map fun x => { c with int := x }
          | 4 => (value.realField c.float).map fun x => { c with float := x }
          | 5 => (value.textField c.string).map fun x => { c with string := x }
          | 6 => (readConstants value).map fun x => { c with items := x }
          | 7 => (value.int64Field c.arity).map fun x => { c with arity := x }
          | _ => (readBody value).map fun x => { c with body := x }
        match updated with
        | some c => readConstantFields rest (n :: seen) c
        | none => none

/-- Reads the body of a function; no value means no body. -/
def readBody : Item → Option (Option Container)
  | .simple n => if n == 22 || n == 23 then some none else none
  | .map entries => (readContainerFields entries [] .zero).map some
  | .tagged tag item =>
    if Item.tagFits tag item && tag != 2 && tag != 3 then (readContainer item).map some else none
  | _ => none

end

end Fields

section Reading

/-- A table, absent when it is empty. -/
def tableOf (xs : Array α) : Option (Array α) := if xs.isEmpty then none else some xs

mutual

/-- The chunk of a container whose place among the constants is given. -/
def Container.toChunk (place : List Nat) : Container → Except ContainerError Chunk
  | ⟨magic, major, minor, code, lines, constants⟩ =>
    if magic ≠ containerMagic then .error (.badMagic magic)
    else if major ≠ containerVersion.1 then .error (.badVersion major minor)
    else if lines.size ≠ code.size then .error (.lineTable lines.size code.size)
    else match poolValues place 0 #[] constants with
      | .error e => .error e
      | .ok pool => .ok ⟨tableOf code, tableOf lines, pool⟩

/-- The value of a constant at a place. -/
def Constant.toValue (place : List Nat) : Constant → Except ContainerError Value
  | ⟨kind, bool, int, float, string, items, arity, body⟩ =>
    match kind with
    | 0 => .ok .null
    | 1 => .ok (.bool bool)
    | 2 => .ok (.int int)
    | 3 => .ok (.float float)
    | 4 => .ok (.string string)
    | 5 => (arrayValues place 0 #[] items).map fun values => .array values
    | 6 =>
      match body with
      | none => .ok (.func ⟨place, string, arity, none⟩)
      | some container =>
        match container.toChunk place with
        | .error e => .error e
        | .ok chunk => .ok (.func ⟨place, string, arity, some chunk⟩)
    | kind => .error (.unknownKind kind)

/-- The values of a pool; an error names the constant it belongs to. -/
def poolValues (place : List Nat) (index : Nat) (done : Array Value) :
    List Constant → Except ContainerError (Array Value)
  | [] => .ok done
  | c :: rest =>
    match c.toValue (index :: place) with
    | .error e => .error (.constant index e)
    | .ok v => poolValues place (index + 1) (done.push v) rest

/-- The values of the items of an array. -/
def arrayValues (place : List Nat) (index : Nat) (done : Array Value) :
    List Constant → Except ContainerError (List Value)
  | [] => .ok done.toList
  | c :: rest =>
    match c.toValue (index :: place) with
    | .error e => .error e
    | .ok v => arrayValues place (index + 1) (done.push v) rest

end

/-- The chunk in the bytes of a container. -/
def Chunk.unmarshal (bytes : Text) : Except ContainerError Chunk :=
  match Item.decode? bytes with
  | none => .error .malformed
  | some item =>
    match readContainer item with
    | none => .error .malformed
    | some container => container.toChunk []

end Reading

end Bytecode
end StackNative
