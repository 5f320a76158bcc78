import StackNative.Proofs.Allocation.Tables

/-!
# The indices of an allocator

**Input.**  An allocator at work on a function.

**Algorithm.**  Before each step the guarded allocator looks whether the entry it takes is
there, and whether every active entry is there and holds one of the machine registers, and
gives up where this is not so.

**Results.**
* `guarded_eq`: the guarded allocator never gives up.
-/

namespace StackNative
namespace Allocation

open Ir (Function)

namespace Allocator

/-- Whether an entry is there and holds one of the machine registers. -/
def holds (a : Allocator) (k : Nat) : Bool :=
  decide (k < a.tables.entries.size) && (a.tables.entry k).register.any (· < a.count)

/-- Takes the next entry, if it is there and the active entries hold machine registers. -/
def step? (a : Allocator) (k : Nat) : Option Allocator :=
  if k < a.tables.entries.size ∧ a.active.all a.holds then some (a.step k) else none

/-- Allocates the registers of a function, and gives up where an index is out of range. -/
def guarded (a : Allocator) (f : Function) : Option Allocator :=
  let a := a.reset f
  (List.range a.tables.entries.size).foldlM step? a

end Allocator

section Guarded

variable {count : Nat} {is done : List Interval} {now : Int} {a : Allocator} {s : Scan}

theorem Represents.size_entries
    (h : Represents count is a s) :
    a.tables.entries.size = is.length := by
  rw [← Array.length_toList, h.records.entries, List.length_map]

/-- What is active holds one of the machine registers. -/
theorem Represents.holds
    (h : Represents count is a s)
    (hs : Scan.Settled count done now s)
    (hdone : done ⊆ is) :
    a.active.all a.holds = true := by
  rw [List.all_eq_true, h.active]
  intro k hk
  obtain ⟨g, hg, rfl⟩ := List.mem_map.mp hk
  have hmem : g.interval ∈ is := hdone (hs.valid.active_done g hg)
  have hplace : s.place g.interval.value = some (.machine g.index) := hs.valid.active_place g hg
  have hthere : is.idxOf g.interval < a.tables.entries.size := by
    rw [h.size_entries]
    exact List.idxOf_lt_length_of_mem hmem
  have hregister : (a.tables.entry (is.idxOf g.interval)).register = some g.index := by
    rw [h.records.entry_idxOf hmem, entryOf, hplace]
    rfl
  rw [Allocator.holds, hregister, h.count]
  simpa [hthere] using hs.index_lt g hg

/-- No step of what is left is given up. -/
theorem Represents.foldlM
    {front rest : List Interval}
    (h : Represents count (front ++ rest) a s)
    (hs : Scan.Settled count front.reverse now s)
    (hschedule : Scan.Schedule now front.reverse rest)
    (hdistinct : (front ++ rest).Pairwise fun i j => i.value ≠ j.value) :
    (List.range' front.length rest.length).foldlM Allocator.step? a =
      some ((List.range' front.length rest.length).foldl Allocator.step a) := by
  induction rest generalizing front a s now with
  | nil =>
      rfl
  | cons i rest ih =>
      obtain ⟨hstep, hsettled, htail⟩ := h.advance hs hschedule hdistinct
      have hthere : front.length < a.tables.entries.size := by
        rw [h.size_entries]
        simp
      have hguard : a.step? front.length = some (a.step front.length) :=
        if_pos ⟨hthere, h.holds hs (by simp)⟩
      rw [List.append_cons] at hdistinct
      have hrest := ih hstep hsettled htail hdistinct
      rw [List.length_cons, List.range'_succ, List.foldlM_cons, List.foldl_cons, hguard]
      simpa using hrest

/-- The guarded allocator never gives up. -/
theorem guarded_eq (a : Allocator) (f : Function) : a.guarded f = some (a.allocate f) := by
  obtain ⟨now, hschedule⟩ := exists_schedule f
  have hreset : Represents a.count ([] ++ liveIntervals f) (a.reset f) {} := represents_reset a f
  have hrun := hreset.foldlM (Scan.settled_empty a.count now) hschedule (liveIntervals_distinct f)
  simp only [Allocator.guarded, Allocator.allocate, hreset.size_entries, List.range_eq_range']
  exact hrun

end Guarded

end Allocation
end StackNative
