import Std.Data.HashMap
import StackNative.X64.Instruction

/-!
# Laying out machine code

**Input.** Instructions, labels, data and alignments in order.
**Algorithm.** A first pass gives every label the offset where it was bound
last; a second pass writes the bytes and, behind an instruction that names a
label, the distance from its end to that offset.
**Results.** `finish`, the bytes or the first label that is nowhere bound.
-/

namespace StackNative
namespace X64

variable {label : Type} [BEq label] [Hashable label]

/-- A piece of a program. -/
inductive Item (label : Type) where
  | instruction (i : Instruction label)
  /-- Binds a label to the place where it stands. -/
  | bind (l : label)
  | data (bytes : Text)
  /-- Fills up to a multiple of a positive number. -/
  | align (modulus : Nat) (fill : UInt8)
  deriving DecidableEq, Repr

/-- The bytes that fill up to a multiple. -/
def padding (modulus offset : Nat) : Nat := (modulus - offset % modulus) % modulus

/-- The number of bytes of an item at an offset. -/
def Item.size (offset : Nat) : Item label → Nat
  | .instruction i => i.size
  | .bind _ => 0
  | .data bytes => bytes.length
  | .align modulus _ => padding modulus offset

/-- A label that is named and nowhere bound, and where its distance would stand. -/
structure Unbound (label : Type) where
  label : label
  offset : Nat
  deriving DecidableEq, Repr

/-- The text of an unbound label that is a number. -/
def Unbound.message (e : Unbound Int) : Text :=
  "unbound label " ++ Text.ofInt e.label ++ " referenced at offset " ++ Text.ofNat e.offset

/-- The offset of each label that items from an offset on bind, over those bound before. -/
def bindings (bound : Std.HashMap label Nat) (offset : Nat) :
    List (Item label) → Std.HashMap label Nat
  | [] => bound
  | .bind l :: rest => bindings (bound.insert l offset) offset rest
  | item :: rest => bindings bound (offset + item.size offset) rest

/-- The distance from the end of an instruction to an offset, in 32 bits. -/
def distance (siteEnd target : Nat) : Text :=
  bytes32 (Int32.ofInt ((target : Int) - siteEnd))

/-- Writes items behind the bytes already written. -/
def write (bound : Std.HashMap label Nat) (out : Array UInt8) :
    List (Item label) → Except (Unbound label) (Array UInt8)
  | [] => .ok out
  | .instruction i :: rest =>
    let out := i.opcodeBytes.foldl Array.push out
    match i.label? with
    | none => write bound out rest
    | some l =>
      match bound[l]? with
      | none => .error ⟨l, out.size⟩
      | some target => write bound ((distance (out.size + 4) target).foldl Array.push out) rest
  | .bind _ :: rest => write bound out rest
  | .data bytes :: rest => write bound (bytes.foldl Array.push out) rest
  | .align modulus fill :: rest =>
    write bound (out ++ Array.replicate (padding modulus out.size) fill) rest

/-- The bytes of a program. -/
def finish (items : List (Item label)) : Except (Unbound label) Text :=
  (write (bindings ∅ 0 items) #[] items).map Array.toList

/-- A program under construction whose labels are numbers. -/
structure Assembler where
  items : Array (Item Int) := #[]
  length : Nat := 0
  nextLabel : Int := 0

namespace Assembler

/-- Adds an item. -/
def add (a : Assembler) (item : Item Int) : Assembler :=
  { a with items := a.items.push item, length := a.length + item.size a.length }

/-- Adds an instruction. -/
def emit (a : Assembler) (i : Instruction Int) : Assembler := a.add (.instruction i)

/-- A label that no other call has given. -/
def newLabel (a : Assembler) : Int × Assembler :=
  (a.nextLabel, { a with nextLabel := a.nextLabel + 1 })

/-- The bytes of what is there so far. -/
def finish (a : Assembler) : Except (Unbound Int) Text := X64.finish a.items.toList

end Assembler

end X64
end StackNative
