import StackNative.Allocation.LinearScan
import StackNative.Proofs.Allocation.Spans

/-!
# What the linear scan keeps

**Input.**  Intervals of different registers, in the order of their starts.

**Algorithm.**  One step of the scan drops what is over, and then spills the
interval, gives it a free machine register or takes that of the interval that
ends last.

**Results.**
* `Bounded`: machine registers stay below the count, and no two registers share a
  slot.
* `Valid`, `foldl_step_valid`: intervals that share a machine register do not
  overlap.
-/

namespace StackNative
namespace Allocation
namespace Scan

open Ir (Register)

/-- Machine registers are in range and slots are handed out once. -/
structure Bounded (count : Nat) (s : Scan) : Prop where
  index_lt : ∀ (r : Register) (k : Nat), s.places[r]? = some (.machine k) → k < count
  slot_lt : ∀ (r : Register) (n : Nat), s.places[r]? = some (.slot n) → n < s.slots
  slot_inj : ∀ (r r' : Register) (n : Nat),
    s.places[r]? = some (.slot n) → s.places[r']? = some (.slot n) → r = r'

/-- The state of the scan behind some intervals, at a position. -/
structure Valid (done : List Interval) (now : Int) (s : Scan) : Prop where
  active_done : ∀ h ∈ s.active, h.interval ∈ done
  active_place : ∀ h ∈ s.active, s.places[h.interval.value]? = some (.machine h.index)
  index_ne : s.active.Pairwise fun g h => g.index ≠ h.index
  /-- What has a machine register is active or over. -/
  held : ∀ i ∈ done, ∀ k : Nat, s.places[i.value]? = some (.machine k) →
    ⟨i, k⟩ ∈ s.active ∨ i.stop < now
  apart : ∀ i ∈ done, ∀ j ∈ done, i.value ≠ j.value → ∀ k : Nat,
    s.places[i.value]? = some (.machine k) → s.places[j.value]? = some (.machine k) →
      i.overlaps j = false

section Places

/-- Spilling a value gives no machine register. -/
theorem machine_of_spill
    {s : Scan} {i : Interval} {r : Register} {k : Nat}
    (h : (s.spill i).places[r]? = some (.machine k)) :
    r ≠ i.value ∧ s.places[r]? = some (.machine k) := by
  simp only [spill, Std.HashMap.getElem?_insert] at h
  by_cases hr : i.value = r
  · simp [hr] at h
  · rw [if_neg (by simpa using hr)] at h
    exact ⟨fun heq => hr heq.symm, h⟩

/-- Spilling a value gives it the next slot, and no other value a slot. -/
theorem slot_of_spill
    {s : Scan} {i : Interval} {r : Register} {n : Nat}
    (h : (s.spill i).places[r]? = some (.slot n)) :
    r = i.value ∧ n = s.slots ∨ s.places[r]? = some (.slot n) := by
  simp only [spill, Std.HashMap.getElem?_insert] at h
  by_cases hr : i.value = r
  · simp only [hr, beq_self_eq_true, if_true, Option.some.injEq, Place.slot.injEq] at h
    exact Or.inl ⟨hr.symm, h.symm⟩
  · rw [if_neg (by simpa using hr)] at h
    exact Or.inr h

/-- Holding gives the machine register to one value only. -/
theorem machine_of_hold
    {s : Scan} {i : Interval} {index : Nat} {r : Register} {k : Nat}
    (h : (s.hold i index).places[r]? = some (.machine k)) :
    r = i.value ∧ k = index ∨ r ≠ i.value ∧ s.places[r]? = some (.machine k) := by
  simp only [hold, Std.HashMap.getElem?_insert] at h
  by_cases hr : i.value = r
  · simp only [hr, beq_self_eq_true, if_true, Option.some.injEq, Place.machine.injEq] at h
    exact Or.inl ⟨hr.symm, h.symm⟩
  · rw [if_neg (by simpa using hr)] at h
    exact Or.inr ⟨fun heq => hr heq.symm, h⟩

/-- Holding gives no slot. -/
theorem slot_of_hold
    {s : Scan} {i : Interval} {index : Nat} {r : Register} {n : Nat}
    (h : (s.hold i index).places[r]? = some (.slot n)) :
    s.places[r]? = some (.slot n) := by
  simp only [hold, Std.HashMap.getElem?_insert] at h
  by_cases hr : i.value = r
  · simp [hr] at h
  · rwa [if_neg (by simpa using hr)] at h

/-- Holding a value leaves the places of the others. -/
theorem places_hold_of_ne
    {s : Scan} {i : Interval} {index : Nat} {r : Register}
    (h : r ≠ i.value) :
    (s.hold i index).places[r]? = s.places[r]? := by
  simp only [hold, Std.HashMap.getElem?_insert]
  rw [if_neg (by simpa using fun heq => h heq.symm)]

/-- Spilling a value leaves the places of the others. -/
theorem places_spill_of_ne
    {s : Scan} {i : Interval} {r : Register}
    (h : r ≠ i.value) :
    (s.spill i).places[r]? = s.places[r]? := by
  simp only [spill, Std.HashMap.getElem?_insert]
  rw [if_neg (by simpa using fun heq => h heq.symm)]

/-- A value that is held becomes active. -/
theorem mem_active_hold
    {s : Scan} {i : Interval} {index : Nat} {h : Held} :
    h ∈ (s.hold i index).active ↔ h = ⟨i, index⟩ ∨ h ∈ s.active := by
  have hsplit := List.takeWhile_append_dropWhile
    (p := fun h : Held => decide (h.interval.stop < i.stop)) (l := s.active)
  conv_rhs => rw [← hsplit]
  simp only [hold, List.mem_append, List.mem_cons]
  constructor
  · rintro (h | h | h)
    · exact Or.inr (Or.inl h)
    · exact Or.inl h
    · exact Or.inr (Or.inr h)
  · rintro (h | h | h)
    · exact Or.inr (Or.inl h)
    · exact Or.inl h
    · exact Or.inr (Or.inr h)

/-- The machine register that is found free is in range, and no active interval holds it. -/
theorem free?_spec
    {s : Scan} {count index : Nat}
    (h : s.free? count = some index) :
    index < count ∧ ∀ g ∈ s.active, g.index ≠ index := by
  have hrange := List.mem_range.mp (List.mem_of_find?_eq_some h)
  have hmark := List.find?_some h
  rw [getD_marks s hrange] at hmark
  constructor
  · omega
  · intro g hg heq
    have hany : (s.active.any fun h => h.index == index) = true :=
      List.any_eq_true.mpr ⟨g, hg, by simpa using heq⟩
    simp [hany] at hmark

end Places

section Bounds

variable {count : Nat} {s : Scan}

/-- Spilling a value keeps machine registers and slots in their bounds. -/
theorem Bounded.spill
    (h : Bounded count s)
    (i : Interval) :
    Bounded count (s.spill i) where
  index_lt r k hr := h.index_lt r k (machine_of_spill hr).2
  slot_lt r n hr := by
    rcases slot_of_spill hr with ⟨_, rfl⟩ | hr
    · exact Nat.lt_succ_self _
    · exact Nat.lt_succ_of_lt (h.slot_lt r n hr)
  slot_inj r r' n hr hr' := by
    rcases slot_of_spill hr with ⟨hv, hn⟩ | hr
    · rcases slot_of_spill hr' with ⟨hv', _⟩ | hr'
      · rw [hv, hv']
      · have := h.slot_lt r' n hr'
        omega
    · rcases slot_of_spill hr' with ⟨_, hn'⟩ | hr'
      · have := h.slot_lt r n hr
        omega
      · exact h.slot_inj r r' n hr hr'

/-- Holding a value in a machine register that there is keeps the bounds. -/
theorem Bounded.hold
    (h : Bounded count s)
    (i : Interval)
    {index : Nat}
    (hindex : index < count) :
    Bounded count (s.hold i index) where
  index_lt r k hr := by
    rcases machine_of_hold hr with ⟨_, rfl⟩ | ⟨_, hr⟩
    · exact hindex
    · exact h.index_lt r k hr
  slot_lt r n hr := h.slot_lt r n (slot_of_hold hr)
  slot_inj r r' n hr hr' := h.slot_inj r r' n (slot_of_hold hr) (slot_of_hold hr')

end Bounds

section Validity

variable {done : List Interval} {now : Int} {s : Scan}

/-- The scan begins valid. -/
theorem valid_empty (now : Int) : Valid [] now {} where
  active_done := by simp
  active_place := by simp
  index_ne := List.Pairwise.nil
  held := by simp
  apart := by simp

/-- Dropping what is over keeps the scan valid. -/
theorem Valid.expire
    (h : Valid done now s)
    {later : Int}
    (hle : now ≤ later) :
    Valid done later (s.expire later) where
  active_done g hg := h.active_done g (List.mem_filter.mp hg).1
  active_place g hg := h.active_place g (List.mem_filter.mp hg).1
  index_ne := h.index_ne.filter _
  held i hi k hk := by
    rcases h.held i hi k hk with hactive | hover
    · by_cases hstop : later ≤ i.stop
      · exact Or.inl (List.mem_filter.mpr ⟨hactive, by simpa using hstop⟩)
      · exact Or.inr (by omega)
    · exact Or.inr (by omega)
  apart := h.apart

/-- A new interval may be spilled. -/
theorem Valid.spill
    (h : Valid done now s)
    {i : Interval}
    (hnew : ∀ j ∈ done, j.value ≠ i.value) :
    Valid (i :: done) now (s.spill i) where
  active_done g hg := List.mem_cons_of_mem _ (h.active_done g hg)
  active_place g hg := by
    rw [places_spill_of_ne (hnew _ (h.active_done g hg))]
    exact h.active_place g hg
  index_ne := h.index_ne
  held j hj k hk := by
    obtain ⟨hne, hk⟩ := machine_of_spill hk
    rcases List.mem_cons.mp hj with rfl | hj
    · exact absurd rfl hne
    · exact h.held j hj k hk
  apart j hj l hl hjl k hk hk' := by
    obtain ⟨hne, hk⟩ := machine_of_spill hk
    obtain ⟨hne', hk'⟩ := machine_of_spill hk'
    rcases List.mem_cons.mp hj with rfl | hj
    · exact absurd rfl hne
    · rcases List.mem_cons.mp hl with rfl | hl
      · exact absurd rfl hne'
      · exact h.apart j hj l hl hjl k hk hk'

/-- A new interval that starts now may take a machine register that no active interval holds. -/
theorem Valid.hold
    {i : Interval}
    (h : Valid done i.start s)
    (hnew : ∀ j ∈ done, j.value ≠ i.value)
    {index : Nat}
    (hfree : ∀ g ∈ s.active, g.index ≠ index) :
    Valid (i :: done) i.start (s.hold i index) where
  active_done g hg := by
    rcases mem_active_hold.mp hg with rfl | hg
    · exact List.mem_cons_self
    · exact List.mem_cons_of_mem _ (h.active_done g hg)
  active_place g hg := by
    rcases mem_active_hold.mp hg with rfl | hg
    · simp [Scan.hold]
    · rw [places_hold_of_ne (hnew _ (h.active_done g hg))]
      exact h.active_place g hg
  index_ne := by
    have hsplit := List.takeWhile_append_dropWhile
      (p := fun h : Held => decide (h.interval.stop < i.stop)) (l := s.active)
    have hpair := h.index_ne
    rw [← hsplit] at hpair hfree
    rw [List.pairwise_append] at hpair
    simp only [Scan.hold]
    rw [List.pairwise_append, List.pairwise_cons]
    refine ⟨hpair.1, ⟨?_, hpair.2.1⟩, ?_⟩
    · intro g hg
      exact (hfree g (List.mem_append_right _ hg)).symm
    · intro g hg l hl
      rcases List.mem_cons.mp hl with rfl | hl
      · exact hfree g (List.mem_append_left _ hg)
      · exact hpair.2.2 g hg l hl
  held j hj k hk := by
    rcases List.mem_cons.mp hj with rfl | hj
    · rcases machine_of_hold hk with ⟨_, rfl⟩ | ⟨hne, _⟩
      · exact Or.inl (mem_active_hold.mpr (Or.inl rfl))
      · exact absurd rfl hne
    · rw [places_hold_of_ne (hnew j hj)] at hk
      rcases h.held j hj k hk with hactive | hover
      · exact Or.inl (mem_active_hold.mpr (Or.inr hactive))
      · exact Or.inr hover
  apart := by
    -- Whoever had the register before is not active any more, hence over.
    have hbefore : ∀ j ∈ done, s.places[j.value]? = some (.machine index) →
        j.stop < i.start := by
      intro j hj hk
      rcases h.held j hj index hk with hactive | hover
      · exact absurd rfl (hfree _ hactive)
      · exact hover
    intro j hj l hl hjl k hk hk'
    rcases List.mem_cons.mp hj with rfl | hj'
    · rcases List.mem_cons.mp hl with rfl | hl'
      · exact absurd rfl hjl
      · rw [places_hold_of_ne (hnew l hl')] at hk'
        rcases machine_of_hold hk with ⟨_, rfl⟩ | ⟨hne, _⟩
        · have := hbefore l hl' hk'
          simp [Interval.overlaps]
          omega
        · exact absurd rfl hne
    · rw [places_hold_of_ne (hnew j hj')] at hk
      rcases List.mem_cons.mp hl with rfl | hl'
      · rcases machine_of_hold hk' with ⟨_, rfl⟩ | ⟨hne, _⟩
        · have := hbefore j hj' hk
          simp [Interval.overlaps]
          omega
        · exact absurd rfl hne
      · rw [places_hold_of_ne (hnew l hl')] at hk'
        exact h.apart j hj' l hl' hjl k hk hk'

/-- The interval that ends last may give its machine register away for a slot. -/
theorem Valid.evict
    (h : Valid done now s)
    {last : Held}
    (hlast : s.active.getLast? = some last) :
    Valid done now (({ s with active := s.active.dropLast }).spill last.interval) ∧
      ∀ g ∈ s.active.dropLast, g.index ≠ last.index := by
  have hsplit : s.active = s.active.dropLast ++ [last] := by
    obtain ⟨front, hfront⟩ := List.getLast?_eq_some_iff.mp hlast
    rw [hfront, List.dropLast_concat]
  have hpair := h.index_ne
  rw [hsplit, List.pairwise_append] at hpair
  have hindex : ∀ g ∈ s.active.dropLast, g.index ≠ last.index :=
    fun g hg => hpair.2.2 g hg last (by simp)
  have hmem : ∀ g ∈ s.active.dropLast, g ∈ s.active := by
    intro g hg
    rw [hsplit]
    exact List.mem_append_left _ hg
  have hlastmem : last ∈ s.active := by
    rw [hsplit]
    simp
  have hvalue : ∀ g ∈ s.active.dropLast, g.interval.value ≠ last.interval.value := by
    intro g hg heq
    have hg' := h.active_place g (hmem g hg)
    have hl' := h.active_place last hlastmem
    rw [heq, hl'] at hg'
    simp only [Option.some.injEq, Place.machine.injEq] at hg'
    exact hindex g hg hg'.symm
  refine ⟨⟨?_, ?_, hpair.1, ?_, ?_⟩, hindex⟩
  · intro g hg
    exact h.active_done g (hmem g hg)
  · intro g hg
    rw [places_spill_of_ne (hvalue g hg)]
    exact h.active_place g (hmem g hg)
  · intro i hi k hk
    obtain ⟨hne, hk⟩ := machine_of_spill hk
    rcases h.held i hi k hk with hactive | hover
    · rw [hsplit] at hactive
      rcases List.mem_append.mp hactive with hactive | hactive
      · exact Or.inl hactive
      · rw [List.mem_singleton] at hactive
        exact absurd (by rw [← hactive]) hne
    · exact Or.inr hover
  · intro i hi j hj hij k hk hk'
    exact h.apart i hi j hj hij k (machine_of_spill hk).2 (machine_of_spill hk').2

/-- One step of the scan. -/
theorem step_valid
    {count : Nat} {i : Interval}
    (h : Valid done now s)
    (hb : Bounded count s)
    (hnow : now ≤ i.start)
    (hnew : ∀ j ∈ done, j.value ≠ i.value) :
    Valid (i :: done) i.start (s.step count i) ∧ Bounded count (s.step count i) := by
  have hv : Valid done i.start (s.expire i.start) := h.expire hnow
  have hb' : Bounded count (s.expire i.start) := ⟨hb.index_lt, hb.slot_lt, hb.slot_inj⟩
  unfold step
  dsimp only
  split
  · exact ⟨hv.spill hnew, hb'.spill i⟩
  · split
    · next index hfree =>
        obtain ⟨hlt, hne⟩ := free?_spec hfree
        exact ⟨hv.hold hnew hne, hb'.hold i hlt⟩
    · unfold contend
      split
      · exact ⟨hv.spill hnew, hb'.spill i⟩
      · next last hlast =>
          split
          · obtain ⟨hevict, hne⟩ := hv.evict hlast
            have hplace := hv.active_place last (List.mem_of_getLast? hlast)
            have hevictb : Bounded count
                (({ s.expire i.start with active := (s.expire i.start).active.dropLast }).spill
                  last.interval) :=
              Bounded.spill (s := { s.expire i.start with
                active := (s.expire i.start).active.dropLast })
                ⟨hb'.index_lt, hb'.slot_lt, hb'.slot_inj⟩ last.interval
            exact ⟨hevict.hold hnew hne, hevictb.hold i (hb'.index_lt _ _ hplace)⟩
          · exact ⟨hv.spill hnew, hb'.spill i⟩

/-- The whole scan, over intervals of new registers in the order of their starts. -/
theorem foldl_step_valid
    {count : Nat}
    (is : List Interval)
    (h : Valid done now s)
    (hb : Bounded count s)
    (hnow : ∀ i ∈ is, now ≤ i.start)
    (hsort : is.Pairwise fun i j => i.start ≤ j.start)
    (hnew : ∀ i ∈ is, ∀ j ∈ done, j.value ≠ i.value)
    (hdistinct : is.Pairwise fun i j => i.value ≠ j.value) :
    ∃ now', Valid (is.reverse ++ done) now' (is.foldl (Scan.step count) s) ∧
      Bounded count (is.foldl (Scan.step count) s) := by
  induction is generalizing done now s with
  | nil =>
      exact ⟨now, h, hb⟩
  | cons i is ih =>
      rw [List.pairwise_cons] at hsort hdistinct
      obtain ⟨hv, hb'⟩ := step_valid h hb (hnow i List.mem_cons_self) (hnew i List.mem_cons_self)
      obtain ⟨now', hfinal⟩ := ih hv hb' hsort.1 hsort.2 (by
        intro k hk j hj
        rcases List.mem_cons.mp hj with rfl | hj
        · exact hdistinct.1 k hk
        · exact hnew k (List.mem_cons_of_mem _ hk) j hj) hdistinct.2
      refine ⟨now', ?_⟩
      rw [List.foldl_cons, List.reverse_cons, List.append_assoc]
      exact hfinal

end Validity

end Scan
end Allocation
end StackNative
