import Std.Data.HashSet
import StackNative.Allocation.Interval

/-!
# The register allocator and its tables

**Input.** Functions, one after the other, and the number of machine registers.
**Algorithm.** The allocator writes the decisions of a linear scan into tables: an
entry for each interval, and what each register was given, machine registers and
spill slots apart.  Beside them it keeps the entries that hold a machine register,
in the order of their ends, and the machine registers that are taken.  A decision
can be undone: an interval that gives way loses its machine register.  All of this
starts anew with every function.
**Results.** `Allocator.run`, the tables of each function.
-/

namespace StackNative
namespace Allocation

open Ir (Register)

/-- An interval and what it was given. -/
structure Entry where
  interval : Interval
  /-- The index of a machine register. -/
  register : Option Nat := none
  /-- The number of a spill slot. -/
  slot : Option Nat := none
  deriving DecidableEq, Repr

/-- What the registers of a function were given. -/
structure Tables where
  entries : Array Entry := #[]
  registers : Std.HashMap Register Nat := ∅
  slots : Std.HashMap Register Nat := ∅
  spillCount : Nat := 0

namespace Tables

/-- The entry with a number. -/
def entry (t : Tables) (k : Nat) : Entry := t.entries.getD k ⟨.point 0 0, none, none⟩

/-- The machine register that an entry holds. -/
def index (t : Tables) (k : Nat) : Nat := (t.entry k).register.getD 0

/-- Gives an entry a machine register. -/
def assign (t : Tables) (k index : Nat) : Tables :=
  { t with
    entries := t.entries.modify k fun e => { e with register := some index }
    registers := t.registers.insert (t.entry k).interval.value index }

/-- Gives an entry the next spill slot, and takes its machine register away. -/
def spill (t : Tables) (k : Nat) : Tables :=
  { entries := t.entries.modify k fun e => { e with register := none, slot := some t.spillCount }
    registers := t.registers.erase (t.entry k).interval.value
    slots := t.slots.insert (t.entry k).interval.value t.spillCount
    spillCount := t.spillCount + 1 }

end Tables

/-- An allocator at work. -/
structure Allocator where
  /-- How many machine registers there are. -/
  count : Nat
  tables : Tables := {}
  active : List Nat := []
  taken : Std.HashSet Nat := ∅

namespace Allocator

/-- The first machine register that is not taken, of so many from an index on. -/
def firstFree (taken : Std.HashSet Nat) (index : Nat) : Nat → Option Nat
  | 0 => none
  | n + 1 => if taken.contains index then firstFree taken (index + 1) n else some index

/-- Drops the active entries that are over before a position, and frees what they hold. -/
def expire (a : Allocator) (position : Int) : Allocator :=
  let ended := a.active.filter fun k => (a.tables.entry k).interval.stop < position
  { a with
    active := a.active.filter fun k => position ≤ (a.tables.entry k).interval.stop
    taken := ended.foldl (fun taken k => taken.erase (a.tables.index k)) a.taken }

/-- Makes an entry active, before those that end no earlier. -/
def activate (a : Allocator) (k : Nat) : Allocator :=
  let endsBefore (j : Nat) : Bool :=
    (a.tables.entry j).interval.stop < (a.tables.entry k).interval.stop
  { a with active := a.active.takeWhile endsBefore ++ k :: a.active.dropWhile endsBefore }

/-- Finds something for an entry where no machine register is free. -/
def contend (a : Allocator) (k : Nat) : Allocator :=
  match a.active.getLast? with
  | none => { a with tables := a.tables.spill k }
  | some last =>
    if (a.tables.entry k).interval.stop < (a.tables.entry last).interval.stop then
      let tables := (a.tables.assign k (a.tables.index last)).spill last
      { a with tables := tables, active := a.active.dropLast }.activate k
    else { a with tables := a.tables.spill k }

/-- Takes the next entry. -/
def step (a : Allocator) (k : Nat) : Allocator :=
  let a := a.expire (a.tables.entry k).interval.start
  if (a.tables.entry k).interval.fixed then { a with tables := a.tables.spill k }
  else match firstFree a.taken 0 a.count with
    | some index =>
      { a with tables := a.tables.assign k index, taken := a.taken.insert index }.activate k
    | none => a.contend k

/-- Forgets the last function and lists the intervals of the next one. -/
def reset (a : Allocator) (f : Ir.Function) : Allocator :=
  { count := a.count, tables := { entries := ((liveIntervals f).map ({ interval := · })).toArray } }

/-- Allocates the registers of a function. -/
def allocate (a : Allocator) (f : Ir.Function) : Allocator :=
  let a := a.reset f
  (List.range a.tables.entries.size).foldl step a

/-- The tables of functions that are given to an allocator one after the other. -/
def run (a : Allocator) : List Ir.Function → List Tables
  | [] => []
  | f :: fs => (a.allocate f).tables :: (a.allocate f).run fs

end Allocator

end Allocation
end StackNative
