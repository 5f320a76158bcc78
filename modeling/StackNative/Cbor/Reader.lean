import StackNative.Cbor.Item

/-!
# Reading data items

**Input.** Bytes that should be one item and nothing more.
**Algorithm.** A head is read, then what its major type asks for.  Heads need
not be in shortest form, and strings, arrays and maps may be of indefinite
length.  Nesting and counts are limited.
**Results.** `Item.decode?`.
-/

namespace StackNative
namespace Cbor

/-- Arrays and maps may be nested so deep. -/
def maxNesting : Nat := 32

/-- An array may have so many elements, a map so many entries. -/
def maxCount : Nat := 131072

section Heads

/-- The first byte of an item split into its major type and the additional information, with the
argument that follows. -/
structure Head where
  major : Nat
  info : Nat
  argument : Nat

/-- Splits off exactly `count` bytes. -/
def splitExactly (count : Nat) (front : Array UInt8) (rest : Text) : Option (Text × Text) :=
  match count, rest with
  | 0, rest => some (front.toList, rest)
  | _ + 1, [] => none
  | count + 1, b :: rest => splitExactly count (front.push b) rest

/-- The number that bytes stand for, the most significant byte first. -/
def ofBigEndian (bytes : Text) : Nat := bytes.foldl (fun n b => n * 256 + b.toNat) 0

/-- Reads the head of an item.  Indefinite length is left to strings, arrays and maps. -/
def readHead : Text → Option (Head × Text)
  | [] => none
  | b :: rest =>
    let major := b.toNat / 32
    let info := b.toNat % 32
    let argument (count : Nat) : Option (Head × Text) :=
      (splitExactly count #[] rest).map fun (front, rest) =>
        (⟨major, info, ofBigEndian front⟩, rest)
    if info < 24 then some (⟨major, info, info⟩, rest)
    else if info == 24 then
      (argument 1).filter fun (h, _) => !(major == 7 && h.argument < 32)
    else if info == 25 then argument 2
    else if info == 26 then argument 4
    else if info == 27 then argument 8
    else if info == 31 && 2 ≤ major && major ≤ 5 then some (⟨major, info, info⟩, rest)
    else none

end Heads

section Items

/-- Reads items until `count` of them are there. -/
def readCount (read : Text → Option (Item × Text)) :
    Nat → Array Item → Text → Option (Array Item × Text)
  | 0, items, rest => some (items, rest)
  | count + 1, items, rest =>
    match read rest with
    | some (item, rest) => readCount read count (items.push item) rest
    | none => none

/-- Reads items until the byte that ends an indefinite length, which comes after fewer than so many
items. -/
def readToBreak (read : Text → Option (Item × Text)) :
    Nat → Array Item → Text → Option (Array Item × Text)
  | 0, _, _ => none
  | tries + 1, items, rest =>
    match rest with
    | [] => none
    | b :: more =>
      if b == 0xff then some (items, more)
      else match read rest with
        | some (item, rest) => readToBreak read tries (items.push item) rest
        | none => none

/-- Reads the pieces of a string of indefinite length, each of the same type and definite. -/
def readPieces (major : Nat) : Nat → Array Text → Text → Option (List Text × Text)
  | 0, _, _ => none
  | tries + 1, pieces, rest =>
    match rest with
    | [] => none
    | b :: more =>
      if b == 0xff then some (pieces.toList, more)
      else match readHead rest with
        | some (h, rest) =>
          if h.major == major && h.info != 31 then
            match splitExactly h.argument #[] rest with
            | some (piece, rest) => readPieces major tries (pieces.push piece) rest
            | none => none
          else none
        | none => none

/-- Pairs keys with values; a key at the end has none. -/
def pairUp (done : Array (Item × Item)) : List Item → Option (List (Item × Item))
  | [] => some done.toList
  | [_] => none
  | key :: value :: rest => pairUp (done.push (key, value)) rest

/-- Reads an array or a map, given how its elements are read. -/
def readCollection (read : Text → Option (Item × Text)) (h : Head) (rest : Text) :
    Option (Item × Text) :=
  let isMap := h.major == 5
  let width := if isMap then 2 else 1
  let elements :=
    if h.info == 31 then readToBreak read (width * maxCount + 1) #[] rest
    else if maxCount < h.argument then none
    else readCount read (width * h.argument) #[] rest
  match elements with
  | none => none
  | some (items, rest) =>
    if isMap then (pairUp #[] items.toList).map fun entries => (.map entries, rest)
    else some (.array items.toList, rest)

/-- The item of a head of major type seven. -/
def readSimple (h : Head) : Item :=
  if h.info == 25 then .float (.widen .half h.argument)
  else if h.info == 26 then .float (.widen .single h.argument)
  else if h.info == 27 then .float ⟨h.argument.toUInt64⟩
  else .simple h.argument

/-- Reads one item at a nesting depth.  A tag inside a tag counts as one more level. -/
def readItem : (fuel depth : Nat) → (insideTag : Bool) → Text → Option (Item × Text)
  | 0, _, _, _ => none
  | fuel + 1, depth, insideTag, bytes =>
    match readHead bytes with
    | none => none
    | some (h, rest) =>
      match h.major with
      | 0 => some (.natural h.argument, rest)
      | 1 => some (.negative h.argument, rest)
      | 2 =>
        if h.info == 31 then
          (readPieces 2 (rest.length + 1) #[] rest).map fun (ps, rest) => (.bytes ps.flatten, rest)
        else (splitExactly h.argument #[] rest).map fun (b, rest) => (.bytes b, rest)
      | 3 =>
        if h.info == 31 then
          (readPieces 3 (rest.length + 1) #[] rest).map fun (ps, rest) => (.text ps, rest)
        else (splitExactly h.argument #[] rest).map fun (b, rest) => (.text [b], rest)
      | 6 =>
        let depth := if insideTag then depth + 1 else depth
        if maxNesting < depth then none
        else (readItem fuel depth true rest).map fun (item, rest) => (.tagged h.argument item, rest)
      | 7 => some (readSimple h, rest)
      | _ =>
        if maxNesting < depth + 1 then none
        else readCollection (readItem fuel (depth + 1) false) h rest

end Items

/-- The one item that the bytes are.  Between two collections there is at most one tag that is not
counted, so twice the nesting is enough fuel. -/
def Item.decode? (bytes : Text) : Option Item :=
  match readItem (2 * maxNesting + 2) 0 false bytes with
  | some (item, []) => some item
  | _ => none

end Cbor
end StackNative
