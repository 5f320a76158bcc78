import StackNative.Cbor.Item
import StackNative.Text.Utf8

/-!
# Fields made of data items

**Input.** The item that stands for a field, and the value the field has so far.
**Algorithm.** Tags are looked through, big numbers are read as integers, and an
item without a value leaves the field as it is.
**Results.** One reader for each type of field; `none` where the item does not fit.
-/

namespace StackNative
namespace Cbor

/-- What a field sees of an item. -/
inductive Payload where
  | nothing
  | truth (b : Bool)
  | integer (n : Int)
  /-- A big number, with the bytes it was written as. -/
  | big (n : Int) (raw : Text)
  | real (x : Binary64)
  | text (t : Text)
  | bytes (b : Text)
  | items (xs : List Item)

namespace Item

/-- The tags with a fixed meaning stand before items of the right type. -/
def tagFits (tag : Nat) (item : Item) : Bool :=
  match tag, item with
  | 0, .text _ => true
  | 1, .natural _ => true
  | 1, .negative _ => true
  | 1, .float _ => true
  | 2, .bytes _ => true
  | 3, .bytes _ => true
  | tag, _ => 3 < tag

/-- The number written as bytes, the most significant first. -/
def magnitude (bytes : Text) : Int := (bytes.foldl (fun n b => n * 256 + b.toNat) 0 : Nat)

/-- Looks through tags. -/
def payload : Item → Option Payload
  | .natural n => some (.integer n)
  | .negative n => some (.integer (-1 - (n : Int)))
  | .bytes b => some (.bytes b)
  | .text pieces => if pieces.all Text.isValid then some (.text pieces.flatten) else none
  | .array items => some (.items items)
  | .map _ => none
  | .float x => some (.real x)
  | .simple n =>
    if n == 20 then some (.truth false)
    else if n == 21 then some (.truth true)
    else if n == 22 || n == 23 then some .nothing
    else some (.integer n)
  | .tagged tag item =>
    if !tagFits tag item then none
    else match tag, item with
      | 2, .bytes b => some (.big (magnitude b) b)
      | 3, .bytes b => some (.big (-1 - magnitude b) b)
      | _, item => item.payload

/-- An integer field between two bounds. -/
def integerField (least greatest : Int) (old : Int) (item : Item) : Option Int :=
  let fit (n : Int) : Option Int := if least ≤ n && n ≤ greatest then some n else none
  match item.payload with
  | some .nothing => some old
  | some (.integer n) => fit n
  | some (.big n _) => fit n
  | _ => none

/-- A field of one unsigned byte. -/
def byteField (old : UInt8) (item : Item) : Option UInt8 :=
  (item.integerField 0 255 old.toNat).map fun n => n.toNat.toUInt8

/-- A field of one signed 64-bit integer. -/
def int64Field (old : Int64) (item : Item) : Option Int64 :=
  (item.integerField (-0x8000000000000000) (0x8000000000000000 - 1) old.toInt).map Int64.ofInt

/-- A truth value. -/
def boolField (old : Bool) (item : Item) : Option Bool :=
  match item.payload with
  | some .nothing => some old
  | some (.truth b) => some b
  | _ => none

/-- A float; integers between the bounds of the two 64-bit types are taken too. -/
def realField (old : Binary64) (item : Item) : Option Binary64 :=
  let fit (n : Int) : Option Binary64 :=
    if -0x8000000000000000 ≤ n && n < 0x10000000000000000 then some (Binary64.ofInt n) else none
  match item.payload with
  | some .nothing => some old
  | some (.real x) => some x
  | some (.integer n) => fit n
  | some (.big n _) => fit n
  | _ => none

/-- A text. -/
def textField (old : Text) (item : Item) : Option Text :=
  match item.payload with
  | some .nothing => some old
  | some (.text t) => some t
  | _ => none

/-- Reads the elements of a list, each from its zero. -/
def elements (read : Item → Option α) : Array α → List Item → Option (Array α)
  | done, [] => some done
  | done, item :: rest =>
    match read item with
    | some a => elements read (done.push a) rest
    | none => none

/-- Bytes: a byte string, the bytes of a big number, or a list of small integers. -/
def bytesField (old : Array UInt8) (item : Item) : Option (Array UInt8) :=
  match item.payload with
  | some .nothing => some old
  | some (.bytes b) => some b.toArray
  | some (.big _ b) => some b.toArray
  | some (.items xs) => elements (byteField 0) #[] xs
  | _ => none

/-- A list of signed 64-bit integers. -/
def int64sField (old : Array Int64) (item : Item) : Option (Array Int64) :=
  match item.payload with
  | some .nothing => some old
  | some (.items xs) => elements (int64Field 0) #[] xs
  | _ => none

end Item

end Cbor
end StackNative
