import StackNative.Allocation.LinearScan

/-!
# Frames

**Input.** A function and the places of its registers.
**Algorithm.** Going down from the frame base there are the local variables,
then the reserved areas in the order of the code, then the spill slots; the whole
is a multiple of sixteen bytes.  Sizes are added as 64-bit integers and offsets
are kept in 32 bits.
**Results.** `Frame.layout`.
-/

namespace StackNative
namespace X64

open Ir (Register BlockId)
open Allocation (Assignment)

/-- Where things are, relative to the frame base. -/
structure Frame where
  /-- The offset of each reserved area, by the register that points to it. -/
  areas : Std.HashMap Register Int32
  /-- How far the spill slots begin below the frame base. -/
  spillBase : Int32
  /-- The number of bytes of the frame. -/
  size : Int32

/-- Why a function has no frame. -/
inductive FrameError where
  | areaSize (block : BlockId) (size : Int64)
  | tooLarge (size : Int64)
  deriving DecidableEq, Repr

namespace Frame

/-- Rounds up to a multiple of a power of two, given less one. -/
def roundUp (mask n : Int64) : Int64 := (n + mask) &&& ~~~mask

/-- The reserved areas so far, and the bytes taken. -/
structure Areas where
  taken : Int64
  offsets : Std.HashMap Register Int32 := ∅

/-- Takes in an instruction of a block. -/
def Areas.instruction (block : BlockId) (a : Areas) (i : Ir.Instruction) :
    Except FrameError Areas :=
  if i.op ≠ .alloca then .ok a
  else if i.size ≤ 0 then .error (.areaSize block i.size)
  else
    let taken := a.taken + roundUp 7 i.size
    .ok ⟨taken, a.offsets.insert i.dest (-taken).toInt32⟩

/-- Takes in a block. -/
def Areas.block (a : Areas) (b : Ir.Block) : Except FrameError Areas :=
  b.instructions.toList.foldlM (Areas.instruction b.id) a

/-- The frame of a function. -/
def layout (f : Ir.Function) (spillCount : Nat) : Except FrameError Frame :=
  match f.blocks.toList.foldlM Areas.block ⟨Int64.ofNat f.frameSize, ∅⟩ with
  | .error e => .error e
  | .ok areas =>
    let total := roundUp 15 (areas.taken + Int64.ofNat spillCount * 8)
    if 2147483647 < total then .error (.tooLarge total)
    else .ok ⟨areas.offsets, areas.taken.toInt32, total.toInt32⟩

/-- The offset of a spill slot. -/
def slotOffset (frame : Frame) (slot : Nat) : Int32 :=
  -(frame.spillBase + Int32.ofNat (slot + 1) * 8)

/-- The offset of a reserved area. -/
def areaOffset (frame : Frame) (r : Register) : Int32 := frame.areas.getD r 0

end Frame
end X64
end StackNative
