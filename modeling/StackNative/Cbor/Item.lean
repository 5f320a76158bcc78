import StackNative.Number.Binary64
import StackNative.Text.Endian

/-!
# Data items of the concise binary object representation

**Input.** Items as trees.
**Algorithm.** Canonical writing: every head in its shortest form, every float
in the narrowest of three widths that keeps its value.
**Results.** `Item.encode`.
-/

namespace StackNative
namespace Cbor

/-- A data item.  A text keeps the pieces it was written in, since each piece is UTF-8 on its
own. -/
inductive Item where
  | natural (n : Nat)
  /-- The integer `-1 - n`. -/
  | negative (n : Nat)
  | bytes (content : Text)
  | text (pieces : List Text)
  | array (items : List Item)
  | map (entries : List (Item × Item))
  | tagged (tag : Nat) (item : Item)
  | simple (n : Nat)
  | float (x : Binary64)

namespace Item

/-- The item without a value. -/
def null : Item := .simple 22

/-- A truth value. -/
def ofBool (b : Bool) : Item := .simple (if b then 21 else 20)

/-- An integer. -/
def ofInt : Int → Item
  | .ofNat n => .natural n
  | .negSucc n => .negative n

end Item

section Writing

open Text (bigEndian)

/-- The head of an item: its major type and the shortest form of its argument. -/
def head (major n : Nat) : Text :=
  let first (info : Nat) : UInt8 := (major * 32 + info).toUInt8
  if n < 24 then [first n]
  else if n < 0x100 then first 24 :: bigEndian 1 n
  else if n < 0x10000 then first 25 :: bigEndian 2 n
  else if n < 0x100000000 then first 26 :: bigEndian 4 n
  else first 27 :: bigEndian 8 n

/-- A float in the narrowest width that keeps its value. -/
def floatBytes (x : Binary64) : Text :=
  match x.number with
  | .notANumber .. => [0xf9, 0x7e, 0x00]
  | .infinite false => [0xf9, 0x7c, 0x00]
  | .infinite true => [0xf9, 0xfc, 0x00]
  | .finite .. =>
    match x.narrow? .half, x.narrow? .single with
    | some h, _ => 0xf9 :: bigEndian 2 h
    | none, some s => 0xfa :: bigEndian 4 s
    | none, none => 0xfb :: bigEndian 8 x.bits.toNat

/-- Appends bytes to what is written. -/
def append (out : Array UInt8) (bytes : Text) : Array UInt8 := bytes.foldl Array.push out

mutual

/-- Writes an item after what is written. -/
def Item.write (out : Array UInt8) : Item → Array UInt8
  | .natural n => append out (head 0 n)
  | .negative n => append out (head 1 n)
  | .bytes content => append (append out (head 2 content.length)) content
  | .text pieces =>
    let content := pieces.flatten
    append (append out (head 3 content.length)) content
  | .array items => writeAll (append out (head 4 items.length)) items
  | .map entries => writeEntries (append out (head 5 entries.length)) entries
  | .tagged tag item => Item.write (append out (head 6 tag)) item
  | .simple n => append out (head 7 n)
  | .float x => append out (floatBytes x)

/-- Writes items one after the other. -/
def writeAll (out : Array UInt8) : List Item → Array UInt8
  | [] => out
  | item :: rest => writeAll (item.write out) rest

/-- Writes keys and values one after the other. -/
def writeEntries (out : Array UInt8) : List (Item × Item) → Array UInt8
  | [] => out
  | (key, value) :: rest => writeEntries (value.write (key.write out)) rest

end

/-- The canonical bytes of an item. -/
def Item.encode (item : Item) : Text := (item.write #[]).toList

end Writing

end Cbor
end StackNative
