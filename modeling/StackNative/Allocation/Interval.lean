import Std.Data.HashMap
import StackNative.Ir.Module

/-!
# Live intervals

**Input.** A function.
**Algorithm.** Instructions and terminators are numbered in the order of the
blocks.  The interval of a register spans the positions that mention it; where
it meets the span of a backward jump it grows to cover that span.
**Results.** `liveIntervals`, by start and then by register.
-/

namespace StackNative
namespace Allocation

open Ir (Register BlockId)

/-- The positions during which a register is taken to hold a value. -/
structure Interval where
  value : Register
  start : Int
  stop : Int
  /-- The register is a parameter. -/
  fixed : Bool := false
  deriving DecidableEq, Repr

namespace Interval

/-- The interval of one position. -/
def point (value : Register) (position : Int) : Interval := ⟨value, position, position, false⟩

/-- Moves the end to a later position. -/
def extend (i : Interval) (position : Int) : Interval := { i with stop := max i.stop position }

/-- Two intervals share a position. -/
def overlaps (i j : Interval) : Bool := i.start ≤ j.stop && j.start ≤ i.stop

/-- The order of the scan. -/
def before (i j : Interval) : Bool :=
  i.start < j.start || (i.start == j.start && i.value ≤ j.value)

/-- Grows to cover a span that it meets. -/
def cover (i : Interval) (span : Interval) : Interval :=
  if i.overlaps span then
    { i with start := min i.start span.start, stop := max i.stop span.stop }
  else i

end Interval

section Numbering

/-- The intervals of registers met so far. -/
abbrev Intervals := Std.HashMap Register Interval

/-- Records that a position mentions a register. -/
def touch (position : Int) (is : Intervals) (r : Register) : Intervals :=
  match is[r]? with
  | some i => is.insert r (i.extend position)
  | none => is.insert r (.point r position)

/-- The intervals of registers and the positions where blocks begin and end. -/
structure Numbering where
  position : Int := 0
  intervals : Intervals := ∅
  starts : Std.HashMap BlockId Int := ∅
  stops : Std.HashMap BlockId Int := ∅

namespace Numbering

/-- Numbers an instruction: it mentions what it reads and then what it writes. -/
def instruction (n : Numbering) (i : Ir.Instruction) : Numbering :=
  { n with
    position := n.position + 1
    intervals := (i.uses ++ i.dest?.toList).foldl (touch n.position) n.intervals }

/-- Numbers a block, its terminator last. -/
def block (n : Numbering) (b : Ir.Block) : Numbering :=
  let n := { n with starts := n.starts.insert b.id n.position }
  let n := b.instructions.foldl instruction n
  { n with
    position := n.position + 1
    intervals := b.terminator.uses.foldl (touch n.position) n.intervals
    stops := n.stops.insert b.id n.position }

/-- The intervals of parameters. -/
def params (f : Ir.Function) : Intervals :=
  f.params.foldl (fun is p => is.insert p.register ⟨p.register, 0, 0, true⟩) ∅

/-- Numbers a function. -/
def function (f : Ir.Function) : Numbering :=
  f.blocks.foldl block { intervals := params f }

/-- The span of the jump from a block to another that does not begin later. -/
def backward? (n : Numbering) (source target : BlockId) : Option Interval :=
  match n.starts[target]?, n.starts[source]?, n.stops[source]? with
  | some start, some own, some stop =>
    if start ≤ own then some ⟨0, start, stop, false⟩ else none
  | _, _, _ => none

/-- The spans of all backward jumps, in the order of the blocks. -/
def backwardSpans (n : Numbering) (f : Ir.Function) : List Interval :=
  f.blocks.toList.flatMap fun b => b.terminator.successors.filterMap (n.backward? b.id)

end Numbering

end Numbering

/-- The live intervals of a function. -/
def liveIntervals (f : Ir.Function) : List Interval :=
  let n := Numbering.function f
  let spans := n.backwardSpans f
  let grown := n.intervals.toList.map fun (_, i) => spans.foldl Interval.cover i
  grown.mergeSort Interval.before

end Allocation
end StackNative
