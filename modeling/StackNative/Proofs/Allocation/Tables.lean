import Mathlib.Logic.Function.Basic
import StackNative.Allocation.Allocator
import StackNative.Proofs.Allocation.Settled

/-!
# The tables of an allocator

**Input.**  Functions that are given to an allocator one after the other, in
whatever state it is.

**Algorithm.**  The tables of the allocator are compared with the places that the
scan of the same intervals finds: each write to them is one change of a place.

**Results.**
* `Represents`: the entries, the tables by register, the active entries and the
  machine registers that are taken all say the same as the state of the scan.
* `represents_allocate`: so they do when a function is done.
* `run_sound`: every function is given a valid allocation.
-/

namespace StackNative
namespace Allocation

open Ir (Register Function)

section Places

/-- The index of the machine register, if that is the place. -/
def Place.index? : Place → Option Nat
  | .machine index => some index
  | .slot _ => none

/-- The number of the spill slot, if that is the place. -/
def Place.number? : Place → Option Nat
  | .machine _ => none
  | .slot number => some number

/-- A place has an index exactly if it is a machine register. -/
theorem bind_index?_eq_some
    {p : Option Place} {index : Nat} :
    p.bind Place.index? = some index ↔ p = some (.machine index) := by
  rcases p with _ | ⟨_ | _⟩ <;> simp [Place.index?]

/-- A place has a number exactly if it is a slot. -/
theorem bind_number?_eq_some
    {p : Option Place} {number : Nat} :
    p.bind Place.number? = some number ↔ p = some (.slot number) := by
  rcases p with _ | ⟨_ | _⟩ <;> simp [Place.number?]

/-- The entry of an interval, where each register has its place. -/
def entryOf (places : Register → Option Place) (i : Interval) : Entry :=
  ⟨i, (places i.value).bind Place.index?, (places i.value).bind Place.number?⟩

end Places

section Records

variable {is : List Interval} {t : Tables} {places : Register → Option Place} {used : Nat}
variable {i : Interval} {k : Nat}

/-- The tables say of the intervals of a list what places their registers have. -/
structure Records (is : List Interval) (t : Tables) (places : Register → Option Place)
    (used : Nat) : Prop where
  entries : t.entries.toList = is.map (entryOf places)
  registers : ∀ r : Register, t.registers[r]? = (places r).bind Place.index?
  slots : ∀ r : Register, t.slots[r]? = (places r).bind Place.number?
  spillCount : t.spillCount = used

/-- The entry of an interval says the place of its value. -/
theorem Records.entry
    (h : Records is t places used)
    (hk : is[k]? = some i) :
    t.entry k = entryOf places i := by
  rw [Tables.entry, Array.getD_eq_getD_getElem?, ← Array.getElem?_toList, h.entries,
    List.getElem?_map, hk]
  rfl

/-- The entry of an interval is found by its place in the list. -/
theorem Records.entry_idxOf
    (h : Records is t places used)
    (hi : i ∈ is) :
    t.entry (is.idxOf i) = entryOf places i :=
  h.entry (List.getElem?_idxOf hi)

/-- A write to one entry follows the change of one place. -/
theorem modify_map_entryOf
    {places' : Register → Option Place} {write : Entry → Entry}
    (hdistinct : is.Pairwise fun i j => i.value ≠ j.value)
    (hk : is[k]? = some i)
    (hwrite : write (entryOf places i) = entryOf places' i)
    (hother : ∀ r, r ≠ i.value → places' r = places r) :
    (is.map (entryOf places)).modify k write = is.map (entryOf places') := by
  refine List.ext_getElem? fun n => ?_
  rw [List.getElem?_modify, List.getElem?_map, List.getElem?_map]
  cases hn : is[n]? with
  | none =>
      rfl
  | some j =>
      simp only [Option.map_eq_map, Option.map_some, Option.some.injEq]
      split
      · next hkn =>
          subst hkn
          rw [hk, Option.some.injEq] at hn
          subst hn
          exact hwrite
      · next hkn =>
          obtain ⟨hklt, rfl⟩ := List.getElem?_eq_some_iff.mp hk
          obtain ⟨hnlt, rfl⟩ := List.getElem?_eq_some_iff.mp hn
          rw [List.pairwise_iff_getElem] at hdistinct
          have hne : is[n].value ≠ is[k].value := by
            rcases Nat.lt_or_gt_of_ne hkn with hlt | hgt
            · exact (hdistinct k n hklt hnlt hlt).symm
            · exact hdistinct n k hnlt hklt hgt
          rw [entryOf, entryOf, hother _ hne]

/-- Giving an interval a machine register is recorded, and nothing else changes. -/
theorem Records.assign
    (h : Records is t places used)
    (hdistinct : is.Pairwise fun i j => i.value ≠ j.value)
    (hk : is[k]? = some i)
    (hnew : places i.value = none)
    (index : Nat) :
    Records is (t.assign k index) (Function.update places i.value (some (.machine index)))
      used where
  entries := by
    rw [Tables.assign, Array.toList_modify, h.entries]
    refine modify_map_entryOf hdistinct hk ?_ fun r hr => Function.update_of_ne hr _ _
    simp [entryOf, hnew, Place.index?, Place.number?]
  registers r := by
    rw [Tables.assign, h.entry hk, Std.HashMap.getElem?_insert]
    by_cases hr : i.value = r
    · subst hr
      simp [entryOf, Place.index?]
    · rw [if_neg (by simpa [entryOf] using hr), h.registers,
        Function.update_of_ne (fun heq => hr heq.symm)]
  slots r := by
    rw [Tables.assign, h.slots]
    by_cases hr : i.value = r
    · subst hr
      simp [hnew, Place.number?]
    · rw [Function.update_of_ne (fun heq => hr heq.symm)]
  spillCount := h.spillCount

/-- Giving an interval a slot is recorded, and nothing else changes. -/
theorem Records.spill
    (h : Records is t places used)
    (hdistinct : is.Pairwise fun i j => i.value ≠ j.value)
    (hk : is[k]? = some i) :
    Records is (t.spill k) (Function.update places i.value (some (.slot used))) (used + 1) where
  entries := by
    rw [Tables.spill, Array.toList_modify, h.entries]
    refine modify_map_entryOf hdistinct hk ?_ fun r hr => Function.update_of_ne hr _ _
    simp [entryOf, h.spillCount, Place.index?, Place.number?]
  registers r := by
    rw [Tables.spill, h.entry hk, Std.HashMap.getElem?_erase]
    by_cases hr : i.value = r
    · subst hr
      simp [entryOf, Place.index?]
    · rw [if_neg (by simpa [entryOf] using hr), h.registers,
        Function.update_of_ne (fun heq => hr heq.symm)]
  slots r := by
    rw [Tables.spill, h.entry hk, Std.HashMap.getElem?_insert]
    by_cases hr : i.value = r
    · subst hr
      simp [entryOf, h.spillCount, Place.number?]
    · rw [if_neg (by simpa [entryOf] using hr), h.slots,
        Function.update_of_ne (fun heq => hr heq.symm)]
  spillCount := by
    rw [Tables.spill, h.spillCount]

end Records

namespace Scan

/-- The places that a scan has found. -/
def place (s : Scan) (r : Register) : Option Place := s.places[r]?

/-- Spilling changes the place of one value. -/
theorem place_spill (s : Scan) (i : Interval) :
    (s.spill i).place = Function.update s.place i.value (some (.slot s.slots)) := by
  funext r
  by_cases hr : r = i.value
  · subst hr
    rw [Function.update_self]
    exact places_spill_self s i
  · rw [Function.update_of_ne hr]
    exact places_spill_of_ne hr

/-- Holding changes the place of one value. -/
theorem place_hold (s : Scan) (i : Interval) (index : Nat) :
    (s.hold i index).place = Function.update s.place i.value (some (.machine index)) := by
  funext r
  by_cases hr : r = i.value
  · subst hr
    rw [Function.update_self]
    exact places_hold_self s i index
  · rw [Function.update_of_ne hr]
    exact places_hold_of_ne hr

end Scan

section Representation

variable {count k : Nat} {is done : List Interval} {now : Int} {a : Allocator} {s : Scan}
variable {i : Interval}

/-- All that an allocator keeps says the same as the state of a scan. -/
structure Represents (count : Nat) (is : List Interval) (a : Allocator) (s : Scan) : Prop where
  count : a.count = count
  records : Records is a.tables s.place s.slots
  active : a.active = s.active.map fun h => is.idxOf h.interval
  taken : ∀ index : Nat, a.taken.contains index = s.active.any fun h => h.index == index

/-- Machine registers that are given back are no longer taken. -/
theorem contains_foldl_erase (ks : List Nat) (index : Nat → Nat) (taken : Std.HashSet Nat)
    (x : Nat) :
    (ks.foldl (fun taken k => taken.erase (index k)) taken).contains x =
      (taken.contains x && !ks.any fun k => index k == x) := by
  induction ks generalizing taken with
  | nil =>
      simp
  | cons k ks ih =>
      rw [List.foldl_cons, ih, Std.HashSet.contains_erase, List.any_cons]
      cases hk : index k == x <;> simp

/-- The search for a free machine register finds the first one that is not taken. -/
theorem firstFree_eq (taken : Std.HashSet Nat) (index n : Nat) :
    Allocator.firstFree taken index n =
      (List.range' index n).find? fun index => !taken.contains index := by
  induction n generalizing index with
  | zero =>
      rfl
  | succ n ih =>
      rw [Allocator.firstFree, List.range'_succ, List.find?_cons, ih]
      cases taken.contains index <;> rfl

/-- The allocator finds the machine register that the scan finds. -/
theorem Represents.firstFree
    (h : Represents count is a s) :
    Allocator.firstFree a.taken 0 a.count = s.free? count := by
  rw [firstFree_eq, ← List.range_eq_range', Scan.free?_eq, h.count]
  simp only [h.taken]

/-- The entry of an active interval says its machine register. -/
theorem Represents.entry_active
    (h : Represents count is a s)
    (hmem : ∀ g ∈ s.active, g.interval ∈ is)
    {g : Held}
    (hg : g ∈ s.active) :
    a.tables.entry (is.idxOf g.interval) = entryOf s.place g.interval :=
  h.records.entry_idxOf (hmem g hg)

/-- Both allocators drop the same intervals. -/
theorem Represents.expire
    (h : Represents count is a s)
    (hmem : ∀ g ∈ s.active, g.interval ∈ is)
    (hv : Scan.Valid done now s)
    (position : Int) :
    Represents count is (a.expire position) (s.expire position) where
  count := h.count
  records := h.records
  active := by
    simp only [Allocator.expire, Scan.expire, h.active, List.filter_map]
    congr 1
    refine List.filter_congr fun g hg => ?_
    simp only [Function.comp_apply, h.entry_active hmem hg, entryOf]
  taken x := by
    -- what is freed is what the dropped intervals hold, and no other active one holds it
    have hindex : ∀ g ∈ s.active, a.tables.index (is.idxOf g.interval) = g.index := by
      intro g hg
      have hplace : s.place g.interval.value = some (.machine g.index) := hv.active_place g hg
      rw [Tables.index, h.entry_active hmem hg, entryOf, hplace]
      rfl
    have hinj : (s.active.map Held.index).Nodup := by
      rw [List.Nodup, List.pairwise_map]
      exact hv.index_ne
    simp only [Allocator.expire, contains_foldl_erase, Scan.expire, h.taken, h.active]
    rw [Bool.eq_iff_iff]
    simp only [Bool.and_eq_true, Bool.not_eq_true', List.any_eq_true, List.any_eq_false,
      List.mem_filter, List.mem_map, beq_iff_eq, decide_eq_true_eq]
    constructor
    · rintro ⟨⟨g, hg, hx⟩, hfreed⟩
      refine ⟨g, ⟨hg, ?_⟩, hx⟩
      by_contra hstop
      refine hfreed _ ⟨⟨g, hg, rfl⟩, ?_⟩ ((hindex g hg).trans hx)
      rw [h.entry_active hmem hg]
      exact Int.not_le.mp hstop
    · rintro ⟨g, ⟨hg, hstop⟩, hx⟩
      refine ⟨⟨g, hg, hx⟩, ?_⟩
      rintro _ ⟨⟨l, hl, rfl⟩, hover⟩ heq
      rw [hindex l hl, ← hx] at heq
      obtain rfl := List.inj_on_of_nodup_map hinj hl hg heq
      rw [h.entry_active hmem hl] at hover
      exact absurd hstop (Int.not_le.mpr hover)

/-- A list is split at the same place before and after a map. -/
theorem span_map
    {p : Nat → Bool} {q : Held → Bool} {f : Held → Nat} {hs : List Held}
    (h : ∀ g ∈ hs, p (f g) = q g) :
    (hs.map f).takeWhile p = (hs.takeWhile q).map f ∧
      (hs.map f).dropWhile p = (hs.dropWhile q).map f := by
  induction hs with
  | nil =>
      exact ⟨rfl, rfl⟩
  | cons g hs ih =>
      obtain ⟨htake, hdrop⟩ := ih fun l hl => h l (List.mem_cons_of_mem _ hl)
      have hg := h g List.mem_cons_self
      rw [List.map_cons]
      cases hq : q g with
      | false =>
          simp [hg, hq]
      | true =>
          simp [hg, hq, htake, hdrop]

/-- Making an entry active puts it where the scan puts its interval. -/
theorem active_activate
    {used index : Nat} {places : Register → Option Place}
    (h : Records is a.tables places used)
    (hactive : a.active = s.active.map fun g => is.idxOf g.interval)
    (hmem : ∀ g ∈ s.active, g.interval ∈ is)
    (hk : is[k]? = some i)
    (hidx : is.idxOf i = k) :
    (a.activate k).active = (s.hold i index).active.map fun g => is.idxOf g.interval := by
  have hends : ∀ g ∈ s.active,
      decide ((a.tables.entry (is.idxOf g.interval)).interval.stop <
        (a.tables.entry k).interval.stop) = decide (g.interval.stop < i.stop) := by
    intro g hg
    rw [h.entry_idxOf (hmem g hg), h.entry hk]
    rfl
  obtain ⟨htake, hdrop⟩ := span_map (f := fun g : Held => is.idxOf g.interval)
    (p := fun j => decide ((a.tables.entry j).interval.stop < (a.tables.entry k).interval.stop))
    hends
  simp only [Allocator.activate, Scan.hold, hactive, htake, hdrop, List.map_append, List.map_cons,
    hidx]

/-- Holding takes one more machine register. -/
theorem any_active_hold (s : Scan) (i : Interval) (index x : Nat) :
    ((s.hold i index).active.any fun h => h.index == x) =
      (index == x || s.active.any fun h => h.index == x) := by
  rw [Bool.eq_iff_iff]
  simp only [Bool.or_eq_true, List.any_eq_true, Scan.mem_active_hold]
  constructor
  · rintro ⟨g, rfl | hg, hx⟩
    · exact Or.inl hx
    · exact Or.inr ⟨g, hg, hx⟩
  · rintro (hx | ⟨g, hg, hx⟩)
    · exact ⟨_, Or.inl rfl, hx⟩
    · exact ⟨g, Or.inr hg, hx⟩

/-- The intervals that an allocator works on, and the one that is next. -/
structure Next (is : List Interval) (k : Nat) (i : Interval) : Prop where
  distinct : is.Pairwise fun i j => i.value ≠ j.value
  get : is[k]? = some i
  idxOf : is.idxOf i = k

/-- Both allocators spill the next interval in the same way. -/
theorem Represents.spill
    (h : Represents count is a s)
    (hnext : Next is k i) :
    Represents count is { a with tables := a.tables.spill k } (s.spill i) where
  count := h.count
  records := by
    rw [Scan.place_spill]
    exact h.records.spill hnext.distinct hnext.get
  active := h.active
  taken := h.taken

/-- Both allocators give the next interval the same machine register. -/
theorem Represents.hold
    (h : Represents count is a s)
    (hmem : ∀ g ∈ s.active, g.interval ∈ is)
    (hnext : Next is k i)
    (hnew : s.place i.value = none)
    (index : Nat) :
    Represents count is
      ({ a with tables := a.tables.assign k index, taken := a.taken.insert index }.activate k)
      (s.hold i index) := by
  have hrecords : Records is (a.tables.assign k index) (s.hold i index).place s.slots := by
    rw [Scan.place_hold]
    exact h.records.assign hnext.distinct hnext.get hnew index
  refine ⟨h.count, hrecords, ?_, ?_⟩
  · exact active_activate hrecords h.active hmem hnext.get hnext.idxOf
  · intro x
    rw [any_active_hold, ← h.taken]
    exact Std.HashSet.contains_insert

/-- The machine register of the entry that ends last goes over to the next one: it stays taken. -/
theorem Represents.evict
    (h : Represents count is a s)
    (hmem : ∀ g ∈ s.active, g.interval ∈ is)
    (hv : Scan.Valid done now s)
    (hnext : Next is k i)
    (hnew : s.place i.value = none)
    {last : Held}
    (hlast : s.active.getLast? = some last) :
    Represents count is
      ({ a with
          tables := (a.tables.assign k last.index).spill (is.idxOf last.interval)
          active := a.active.dropLast }.activate k)
      ((({ s with active := s.active.dropLast }).spill last.interval).hold i last.index) := by
  have hlastmem : last ∈ s.active := List.mem_of_getLast? hlast
  have hplace : s.place last.interval.value = some (.machine last.index) :=
    hv.active_place last hlastmem
  have hvalue : last.interval.value ≠ i.value := by
    intro heq
    rw [heq, hnew] at hplace
    cases hplace
  have hsplit : s.active = s.active.dropLast ++ [last] := by
    obtain ⟨front, hfront⟩ := List.getLast?_eq_some_iff.mp hlast
    rw [hfront, List.dropLast_concat]
  have hrecords : Records is ((a.tables.assign k last.index).spill (is.idxOf last.interval))
      ((({ s with active := s.active.dropLast }).spill last.interval).hold i last.index).place
      (s.slots + 1) := by
    rw [Scan.place_hold, Scan.place_spill, Function.update_comm hvalue]
    exact (h.records.assign hnext.distinct hnext.get hnew last.index).spill hnext.distinct
      (List.getElem?_idxOf (hmem last hlastmem))
  refine ⟨h.count, hrecords, ?_, ?_⟩
  · refine active_activate (s := ({ s with active := s.active.dropLast }).spill last.interval)
      (a := { a with
        tables := (a.tables.assign k last.index).spill (is.idxOf last.interval)
        active := a.active.dropLast })
      hrecords ?_ ?_ hnext.get hnext.idxOf
    · show a.active.dropLast = s.active.dropLast.map _
      rw [h.active, List.map_dropLast]
    · intro g hg
      exact hmem g (List.dropLast_subset _ hg)
  · intro x
    rw [any_active_hold]
    show a.taken.contains x = (_ || s.active.dropLast.any _)
    rw [h.taken]
    conv_lhs => rw [hsplit]
    rw [List.any_append, List.any_cons, List.any_nil, Bool.or_false, Bool.or_comm]

/-- Both allocators decide in the same way who gives way. -/
theorem Represents.contend
    (h : Represents count is a s)
    (hmem : ∀ g ∈ s.active, g.interval ∈ is)
    (hv : Scan.Valid done now s)
    (hnext : Next is k i)
    (hnew : s.place i.value = none) :
    Represents count is (a.contend k) (s.contend i) := by
  have hlast : a.active.getLast? = s.active.getLast?.map fun g => is.idxOf g.interval := by
    rw [h.active, List.getLast?_map]
  unfold Allocator.contend Scan.contend
  rw [hlast]
  cases hcase : s.active.getLast? with
  | none =>
      exact h.spill hnext
  | some last =>
      have hlastmem : last ∈ s.active := List.mem_of_getLast? hcase
      have hentry := h.entry_active hmem hlastmem
      have hplace : s.place last.interval.value = some (.machine last.index) :=
        hv.active_place last hlastmem
      have hindex : a.tables.index (is.idxOf last.interval) = last.index := by
        rw [Tables.index, hentry, entryOf, hplace]
        rfl
      simp only [Option.map_some, hentry, h.records.entry hnext.get, entryOf, hindex]
      split
      · exact h.evict hmem hv hnext hnew hcase
      · exact h.spill hnext

/-- One step of the allocator is one step of the scan. -/
theorem Represents.step
    (h : Represents count is a s)
    (hs : Scan.Settled count done now s)
    (hdone : done ⊆ is)
    (hnext : Next is k i)
    (hnow : now ≤ i.start)
    (hnew : ∀ j ∈ done, j.value ≠ i.value) :
    Represents count is (a.step k) (s.step count i) := by
  have hentry := h.records.entry hnext.get
  have he := hs.expire hnow
  have hr : Represents count is (a.expire i.start) (s.expire i.start) :=
    h.expire (fun g hg => hdone (hs.valid.active_done g hg)) hs.valid i.start
  have hmem : ∀ g ∈ (s.expire i.start).active, g.interval ∈ is :=
    fun g hg => hdone (he.valid.active_done g hg)
  have hplace : (s.expire i.start).place i.value = none := he.not_mem_places hnew
  have hfixed : ((a.expire i.start).tables.entry k).interval.fixed = i.fixed := by
    rw [hr.records.entry hnext.get]
    rfl
  unfold Allocator.step Scan.step
  simp only [hentry, entryOf, hr.firstFree]
  rw [hfixed]
  split
  · exact hr.spill hnext
  · cases (s.expire i.start).free? count with
    | some index =>
        exact hr.hold hmem hnext hplace index
    | none =>
        exact hr.contend hmem he.valid hnext hplace

/-- The allocator takes the next of its intervals as the scan does, and both stay in step. -/
theorem Represents.advance
    {front rest : List Interval}
    (h : Represents count (front ++ i :: rest) a s)
    (hs : Scan.Settled count front.reverse now s)
    (hschedule : Scan.Schedule now front.reverse (i :: rest))
    (hdistinct : (front ++ i :: rest).Pairwise fun i j => i.value ≠ j.value) :
    Represents count (front ++ [i] ++ rest) (a.step front.length) (s.step count i) ∧
      Scan.Settled count (front ++ [i]).reverse i.start (s.step count i) ∧
      Scan.Schedule i.start (front ++ [i]).reverse rest := by
  have hnodup : (front ++ i :: rest).Nodup := by
    refine hdistinct.imp ?_
    rintro i j hne rfl
    exact hne rfl
  have hget : (front ++ i :: rest)[front.length]? = some i := by simp
  have hnext : Next (front ++ i :: rest) front.length i := by
    refine ⟨hdistinct, hget, ?_⟩
    obtain ⟨hlt, hi⟩ := List.getElem?_eq_some_iff.mp hget
    have hidx := hnodup.idxOf_getElem front.length hlt
    rwa [hi] at hidx
  have hnow := hschedule.now_le i List.mem_cons_self
  have hnew := hschedule.fresh i List.mem_cons_self
  have hstep := h.step hs (by simp) hnext hnow hnew
  rw [List.append_cons] at hstep
  exact ⟨hstep, by simpa using hs.step hnow hnew, by simpa using hschedule.tail⟩

/-- What is left of the intervals is taken in step. -/
theorem Represents.foldl
    {front rest : List Interval}
    (h : Represents count (front ++ rest) a s)
    (hs : Scan.Settled count front.reverse now s)
    (hschedule : Scan.Schedule now front.reverse rest)
    (hdistinct : (front ++ rest).Pairwise fun i j => i.value ≠ j.value) :
    Represents count (front ++ rest)
      ((List.range' front.length rest.length).foldl Allocator.step a)
      (rest.foldl (Scan.step count) s) := by
  induction rest generalizing front a s now with
  | nil =>
      exact h
  | cons i rest ih =>
      obtain ⟨hstep, hsettled, htail⟩ := h.advance hs hschedule hdistinct
      rw [List.length_cons, List.range'_succ, List.foldl_cons, List.foldl_cons]
      rw [List.append_cons] at hdistinct ⊢
      simpa using ih hstep hsettled htail hdistinct

/-- A function is begun with empty tables, whatever was done before. -/
theorem represents_reset (a : Allocator) (f : Function) :
    Represents a.count (liveIntervals f) (a.reset f) {} where
  count := rfl
  records := by
    refine ⟨?_, by simp [Allocator.reset, Scan.place], by simp [Allocator.reset, Scan.place], rfl⟩
    simp [Allocator.reset, entryOf, Scan.place]
  active := rfl
  taken := by simp [Allocator.reset]

/-- The tables of a function say what places its registers have. -/
theorem represents_allocate (a : Allocator) (f : Function) :
    Represents a.count (liveIntervals f) (a.allocate f)
      ((liveIntervals f).foldl (Scan.step a.count) {}) := by
  obtain ⟨now, hschedule⟩ := exists_schedule f
  have hsize : (a.reset f).tables.entries.size = (liveIntervals f).length := by
    simp [Allocator.reset]
  have hreset : Represents a.count ([] ++ liveIntervals f) (a.reset f) {} := represents_reset a f
  have hrun := hreset.foldl (Scan.settled_empty a.count now) hschedule (liveIntervals_distinct f)
  simp only [Allocator.allocate, hsize, List.range_eq_range']
  exact hrun

end Representation

section Soundness

/-- The tables are a valid allocation of the registers of a function. -/
structure Sound (count : Nat) (f : Function) (t : Tables) : Prop where
  /-- There is at most one interval for a register. -/
  distinct : t.entries.toList.Pairwise fun e e' => e.interval.value ≠ e'.interval.value
  /-- The registers with an interval are those that occur in the function. -/
  complete : ∀ r : Register, (∃ e ∈ t.entries, e.interval.value = r) ↔ Occurs f r
  /-- Each of them has a machine register or a spill slot, and not both. -/
  placed : ∀ r : Register, Occurs f r →
    (∃ index < count, t.registers[r]? = some index ∧ t.slots[r]? = none) ∨
      (∃ number, t.slots[r]? = some number ∧ t.registers[r]? = none)
  /-- What an interval was given is what its register was given. -/
  agrees : ∀ e ∈ t.entries,
    e.register = t.registers[e.interval.value]? ∧ e.slot = t.slots[e.interval.value]?
  /-- Intervals that overlap have different machine registers. -/
  apart : ∀ e ∈ t.entries, ∀ e' ∈ t.entries, e.interval.value ≠ e'.interval.value →
    e.interval.overlaps e'.interval = true →
    ∀ index, e.register = some index → e'.register ≠ some index
  /-- No two registers have the same spill slot. -/
  slot_inj : ∀ (r r' : Register) (number : Nat),
    t.slots[r]? = some number → t.slots[r']? = some number → r = r'
  /-- The spill slots in use are the first ones. -/
  slot_iff : ∀ number : Nat, (∃ r : Register, t.slots[r]? = some number) ↔ number < t.spillCount
  /-- Parameters have spill slots. -/
  param_slot : ∀ p ∈ f.params, ∃ number, t.slots[p.register]? = some number
  /-- The assignment that code is made with has the same places. -/
  assignment : ∀ r : Register,
    t.registers[r]? = ((allocate count f).place? r).bind Place.index? ∧
      t.slots[r]? = ((allocate count f).place? r).bind Place.number?
  /-- It has as many spill slots. -/
  spillCount : t.spillCount = (allocate count f).spillCount

section Tables

variable {count : Nat} {f : Function} {t : Tables} {s : Scan} {now : Int}
variable {is : List Interval} {places : Register → Option Place} {used : Nat}

/-- The entries are those of the intervals. -/
theorem Records.mem_entries
    (h : Records is t places used)
    {e : Entry} :
    e ∈ t.entries ↔ ∃ i ∈ is, entryOf places i = e := by
  rw [← Array.mem_toList_iff, h.entries, List.mem_map]

/-- A register has a slot in the table exactly if its place is that slot. -/
theorem Records.slot_eq_some
    (h : Records is t places used)
    {r : Register} {number : Nat} :
    t.slots[r]? = some number ↔ places r = some (.slot number) := by
  rw [h.slots, bind_number?_eq_some]

/-- Intervals that overlap have different machine registers. -/
theorem Records.apart
    (h : Records (liveIntervals f) t s.place s.slots)
    (hs : Scan.Settled count (liveIntervals f).reverse now s)
    {e e' : Entry}
    (he : e ∈ t.entries)
    (he' : e' ∈ t.entries)
    (hne : e.interval.value ≠ e'.interval.value)
    (hover : e.interval.overlaps e'.interval = true)
    {index : Nat}
    (hindex : e.register = some index) :
    e'.register ≠ some index := by
  intro hindex'
  obtain ⟨i, hi, rfl⟩ := h.mem_entries.mp he
  obtain ⟨j, hj, rfl⟩ := h.mem_entries.mp he'
  have hapart := hs.valid.apart i (List.mem_reverse.mpr hi) j (List.mem_reverse.mpr hj) hne index
    (bind_index?_eq_some.mp hindex) (bind_index?_eq_some.mp hindex')
  exact absurd (hover.symm.trans hapart) (by decide)

/-- Every parameter has a slot. -/
theorem Records.param_slot
    (h : Records (liveIntervals f) t s.place s.slots)
    (hs : Scan.Settled count (liveIntervals f).reverse now s)
    {p : Ir.Param}
    (hp : p ∈ f.params) :
    ∃ number, t.slots[p.register]? = some number := by
  obtain ⟨i, hi, hvalue⟩ := (exists_liveInterval_iff f p.register).mpr (Or.inl ⟨p, hp, rfl⟩)
  have hfixed : i.fixed = true := (liveIntervals_fixed_iff hi).mpr ⟨p, hp, hvalue.symm⟩
  obtain ⟨number, hnumber⟩ := hs.fixed_slot i (List.mem_reverse.mpr hi) hfixed
  refine ⟨number, ?_⟩
  rw [h.slot_eq_some, ← hvalue]
  exact hnumber

end Tables

/-- Whatever an allocator did before, it gives the registers of a function a valid allocation. -/
theorem sound_allocate (a : Allocator) (f : Function) :
    Sound a.count f (a.allocate f).tables := by
  have h := (represents_allocate a f).records
  obtain ⟨now, hs⟩ := allocate_settled a.count f
  exact
    { distinct := by
        rw [h.entries, List.pairwise_map]
        exact liveIntervals_distinct f
      complete := by
        intro r
        rw [← exists_liveInterval_iff]
        constructor
        · rintro ⟨e, he, rfl⟩
          obtain ⟨i, hi, rfl⟩ := h.mem_entries.mp he
          exact ⟨i, hi, rfl⟩
        · rintro ⟨i, hi, rfl⟩
          exact ⟨_, h.mem_entries.mpr ⟨i, hi, rfl⟩, rfl⟩
      placed := by
        intro r hr
        obtain ⟨place, hplace⟩ := exists_place a.count hr
        have hregister : _ = ((allocate a.count f).place? r).bind Place.index? := h.registers r
        have hslot : _ = ((allocate a.count f).place? r).bind Place.number? := h.slots r
        rw [hregister, hslot, hplace]
        cases place with
        | machine index =>
            exact Or.inl ⟨index, hs.bounded.index_lt r index hplace, rfl, rfl⟩
        | slot number =>
            exact Or.inr ⟨number, rfl, rfl⟩
      agrees := by
        intro e he
        obtain ⟨i, -, rfl⟩ := h.mem_entries.mp he
        exact ⟨(h.registers i.value).symm, (h.slots i.value).symm⟩
      apart := fun e he e' he' hne hover index hindex => h.apart hs he he' hne hover hindex
      slot_inj := by
        intro r r' number hr hr'
        exact hs.bounded.slot_inj r r' number (h.slot_eq_some.mp hr) (h.slot_eq_some.mp hr')
      slot_iff := by
        intro number
        rw [h.spillCount]
        constructor
        · rintro ⟨r, hr⟩
          exact hs.bounded.slot_lt r number (h.slot_eq_some.mp hr)
        · intro hlt
          obtain ⟨r, hr⟩ := hs.slot_used number hlt
          exact ⟨r, h.slot_eq_some.mpr hr⟩
      param_slot := fun p hp => h.param_slot hs hp
      assignment := fun r => ⟨h.registers r, h.slots r⟩
      spillCount := h.spillCount }

/-- **Linear scan yields a valid allocation**, also where an allocator is used for any number of
functions, and whatever it was used for before. -/
theorem run_sound (a : Allocator) (fs : List Function) :
    List.Forall₂ (Sound a.count) fs (a.run fs) := by
  induction fs generalizing a with
  | nil =>
      exact .nil
  | cons f fs ih =>
      have hrest := ih (a.allocate f)
      rw [(represents_allocate a f).count] at hrest
      exact .cons (sound_allocate a f) hrest

end Soundness

end Allocation
end StackNative
