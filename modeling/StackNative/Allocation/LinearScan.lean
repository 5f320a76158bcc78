import StackNative.Allocation.Interval

/-!
# Linear scan

**Input.** A function and the number of machine registers.
**Algorithm.** Intervals are taken by their start.  Those that are over give
their machine register back; the next interval takes the first free one.  Where
none is free, the interval that ends last, of the active ones and the new one,
goes to a spill slot.  Parameters always go to a spill slot.
**Results.** `allocate`, a place for every register of the function.
-/

namespace StackNative
namespace Allocation

open Ir (Register)

/-- Where the value of a register is kept. -/
inductive Place where
  /-- In a machine register, given by its index. -/
  | machine (index : Nat)
  /-- In the frame, given by the number of the slot. -/
  | slot (number : Nat)
  deriving DecidableEq, Repr

/-- An interval that holds a machine register. -/
structure Held where
  interval : Interval
  index : Nat
  deriving DecidableEq, Repr

/-- The state of the scan.  The active intervals stand in the order of their ends. -/
structure Scan where
  active : List Held := []
  places : Std.HashMap Register Place := ∅
  slots : Nat := 0

namespace Scan

/-- Drops the intervals that are over before a position. -/
def expire (s : Scan) (position : Int) : Scan :=
  { s with active := s.active.filter fun h => position ≤ h.interval.stop }

/-- For each of the first machine registers, whether an active interval holds it. -/
def marks (s : Scan) (size : Nat) : Array Bool :=
  s.active.foldl (fun m h => m.setIfInBounds h.index true) (Array.replicate size false)

/-- The first machine register that no active interval holds.  One more than are held need to be
looked at. -/
def free? (s : Scan) (count : Nat) : Option Nat :=
  let size := min count (s.active.length + 1)
  let m := s.marks size
  (List.range size).find? fun index => !m.getD index false

/-- Marking holders keeps what is marked, and marks the registers they hold. -/
theorem getD_foldl_mark (hs : List Held) (m : Array Bool) {index : Nat} (h : index < m.size) :
    (hs.foldl (fun m h => m.setIfInBounds h.index true) m).getD index false =
      (m.getD index false || hs.any fun h => h.index == index) := by
  induction hs generalizing m with
  | nil => simp
  | cons x hs ih =>
    rw [List.foldl_cons, ih _ (by simpa using h)]
    by_cases hx : x.index = index
    · subst hx
      simp [h]
    · have hne : (x.index == index) = false := by simpa using hx
      simp [Array.getD, h, hx, hne]

/-- A machine register is marked exactly if an active interval holds it. -/
theorem getD_marks (s : Scan) {size index : Nat} (h : index < size) :
    (s.marks size).getD index false = s.active.any fun h => h.index == index := by
  rw [marks, getD_foldl_mark _ _ (by simpa using h)]
  simp [Array.getD]

/-- Gives an interval the next spill slot. -/
def spill (s : Scan) (i : Interval) : Scan :=
  { s with places := s.places.insert i.value (.slot s.slots), slots := s.slots + 1 }

/-- Gives an interval a machine register and makes it active, before those that end no earlier. -/
def hold (s : Scan) (i : Interval) (index : Nat) : Scan :=
  let earlier := s.active.takeWhile fun h => h.interval.stop < i.stop
  let later := s.active.dropWhile fun h => h.interval.stop < i.stop
  { s with
    active := earlier ++ ⟨i, index⟩ :: later
    places := s.places.insert i.value (.machine index) }

/-- Finds a place for an interval where no machine register is free. -/
def contend (s : Scan) (i : Interval) : Scan :=
  match s.active.getLast? with
  | none => s.spill i
  | some last =>
    if i.stop < last.interval.stop then
      (({ s with active := s.active.dropLast }).spill last.interval).hold i last.index
    else s.spill i

/-- Takes the next interval. -/
def step (count : Nat) (s : Scan) (i : Interval) : Scan :=
  let s := s.expire i.start
  if i.fixed then s.spill i
  else match s.free? count with
    | some index => s.hold i index
    | none => s.contend i

end Scan

/-- The places of the registers of a function. -/
structure Assignment where
  intervals : List Interval
  places : Std.HashMap Register Place
  spillCount : Nat

namespace Assignment

/-- The place of a register, if the function has it. -/
def place? (a : Assignment) (r : Register) : Option Place := a.places[r]?

end Assignment

/-- Allocates the registers of a function to a number of machine registers and to spill slots. -/
def allocate (count : Nat) (f : Ir.Function) : Assignment :=
  let intervals := liveIntervals f
  let s := intervals.foldl (Scan.step count) {}
  ⟨intervals, s.places, s.slots⟩

end Allocation
end StackNative
