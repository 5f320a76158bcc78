import StackNative.Text.Endian

/-!
# Writing images

**Input.** Bytes written so far and what comes next.
**Results.** Numbers with the low byte first, fields of a fixed width, zeros up
to a multiple.
-/

namespace StackNative
namespace Image

open Text (littleEndian)

/-- The bytes of an image, as far as they are written. -/
abbrev Writer := Array UInt8

namespace Writer

/-- Writes bytes. -/
def bytes (w : Writer) (b : Text) : Writer := b.foldl Array.push w

/-- Writes one byte. -/
def u8 (w : Writer) (n : UInt8) : Writer := w.push n

/-- Writes two bytes, the low one first. -/
def u16 (w : Writer) (n : UInt16) : Writer := bytes w (littleEndian 2 n.toNat)

/-- Writes four bytes, the low one first. -/
def u32 (w : Writer) (n : UInt32) : Writer := bytes w (littleEndian 4 n.toNat)

/-- Writes eight bytes, the low one first. -/
def u64 (w : Writer) (n : UInt64) : Writer := bytes w (littleEndian 8 n.toNat)

/-- Writes zeros, none for a number below zero. -/
def zeros (w : Writer) (n : Int) : Writer := w ++ Array.replicate n.toNat 0

/-- The most bytes that there can be room for at once, two to the power of 48. -/
def roomLimit : Int := 281474976710656

/-- Writes zeros, none for a number below zero, if there can be room for them. -/
def zeros? (w : Writer) (n : Int) : Option Writer :=
  if roomLimit < n then none else some (zeros w n)

/-- Writes a field of a width, cut or filled with zeros; there is no width below zero. -/
def field? (w : Writer) (t : Text) (width : Int) : Option Writer :=
  if width < 0 || roomLimit < width then none
  else some (zeros (bytes w (t.take width.toNat)) (width - t.length))

/-- Writes zeros up to a multiple of a number other than zero.  The remainder takes the sign of
the length, so that a number below zero asks for fewer than no zeros, unless their number does
not fit a signed word and wraps around. -/
def padTo? (w : Writer) (multiple : Int) : Option Writer :=
  if multiple = 0 then none
  else
    let rest := Int.tmod w.size multiple
    if rest = 0 then some w else zeros? w (Int64.ofInt (multiple - rest)).toInt

/-- Writes zeros up to a multiple of a positive number. -/
def pad (w : Writer) (multiple : Nat) : Writer :=
  zeros w ((multiple - w.size % multiple) % multiple : Nat)

end Writer

/-- The least multiple of a positive number that is no less than `n`. -/
def alignUp (n multiple : Nat) : Nat := (n + multiple - 1) / multiple * multiple

end Image
end StackNative
