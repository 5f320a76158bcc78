import StackNative.X64.Assembler

/-!
# Machine code patched in place

**Input.** Calls that add pieces of a program whose labels are numbers, take new labels, and
ask for the bytes at any time.
**Algorithm.** Bytes are written as the pieces come.  An instruction that names a label ends
with four zero bytes, and the place is noted.  When the bytes are asked for, the distances are
written over these places, in the order in which they were noted, up to the first one whose
label is not bound.  What was written stays there, and the code grows on behind it.
**Results.** `Buffer.finish`, the bytes or the first label that is not bound, and the buffer
after it.
-/

namespace StackNative
namespace X64

/-- Four bytes of the code that are to hold the distance to a label. -/
structure Site where
  offset : Nat
  target : Int
  deriving DecidableEq, Repr

/-- Code under construction. -/
structure Buffer where
  code : Array UInt8 := #[]
  labels : Std.HashMap Int Nat := ∅
  sites : Array Site := #[]
  nextLabel : Int := 0

namespace Buffer

section Growth

/-- Writes bytes at the end. -/
def append (b : Buffer) (bytes : Text) : Buffer :=
  { b with code := bytes.foldl Array.push b.code }

/-- Leaves four bytes for the distance to a label. -/
def reserve (b : Buffer) (l : Int) : Buffer :=
  { b.append [0, 0, 0, 0] with sites := b.sites.push ⟨b.code.size, l⟩ }

/-- Adds an instruction. -/
def emit (b : Buffer) (i : Instruction Int) : Buffer :=
  match i.label? with
  | some l => (b.append i.opcodeBytes).reserve l
  | none => b.append i.opcodeBytes

/-- Adds a piece.  A label that is bound again moves. -/
def add (b : Buffer) : Item Int → Buffer
  | .instruction i => b.emit i
  | .bind l => { b with labels := b.labels.insert l b.code.size }
  | .data bytes => b.append bytes
  | .align modulus fill => b.append (.replicate (padding modulus b.code.size) fill)

/-- A label that no other call has given. -/
def newLabel (b : Buffer) : Int × Buffer :=
  (b.nextLabel, { b with nextLabel := b.nextLabel + 1 })

end Growth

section Patches

/-- Writes bytes over those that stand at an offset. -/
def overwrite (code : Array UInt8) (offset : Nat) : Text → Array UInt8
  | [] => code
  | byte :: rest => overwrite (code.setIfInBounds offset byte) (offset + 1) rest

/-- Writes the distances of sites in order, up to the first one whose label is not bound. -/
def patch (labels : Std.HashMap Int Nat) (code : Array UInt8) :
    List Site → Option (Unbound Int) × Array UInt8
  | [] => (none, code)
  | s :: rest =>
    match labels[s.target]? with
    | none => (some ⟨s.target, s.offset⟩, code)
    | some target =>
      patch labels (overwrite code s.offset (distance (s.offset + 4) target)) rest

/-- The bytes of what is there so far, and the buffer with the distances in it. -/
def finish (b : Buffer) : Except (Unbound Int) Text × Buffer :=
  match patch b.labels b.code b.sites.toList with
  | (none, code) => (.ok code.toList, { b with code })
  | (some e, code) => (.error e, { b with code })

end Patches

section Calls

/-- A call on a buffer. -/
inductive Call where
  | add (item : Item Int)
  | newLabel
  | finish
  deriving DecidableEq, Repr

/-- The piece that a call adds. -/
def Call.item? : Call → Option (Item Int)
  | .add item => some item
  | .newLabel => none
  | .finish => none

/-- The buffer after a call. -/
def Call.run (b : Buffer) : Call → Buffer
  | .add item => b.add item
  | .newLabel => b.newLabel.2
  | .finish => b.finish.2

/-- The buffer after calls, from the empty one on. -/
def after (calls : List Call) : Buffer := calls.foldl Call.run {}

end Calls

end Buffer

end X64
end StackNative
