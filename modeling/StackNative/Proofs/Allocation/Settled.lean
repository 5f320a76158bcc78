import Mathlib.Data.List.Find
import Mathlib.Data.List.TakeWhile
import StackNative.Proofs.Allocation.Places

/-!
# What a step of the scan can do, and what the scan settles

**Input.**  A function and the number of machine registers.

**Algorithm.**  A step spills a parameter, takes a free machine register, or
decides between the interval and the active one that ends last.

**Results.**
* `liveIntervals_start_le`, `liveIntervals_fixed_iff`: live intervals are not empty,
  and those of parameters are the fixed ones.
* `Takes`, `takes_step`: the four things that a step can do.
* `length_active_of_crowded`: where no machine register is free, as many intervals
  are active as there are machine registers.
* `Settled`, `allocate_settled`: what holds behind any intervals, and hence of the
  places of a function.
-/

namespace StackNative
namespace Allocation

open Ir (Register Function Block)

/-- The register is a parameter of the function. -/
def IsParam (f : Function) (r : Register) : Prop := ∃ p ∈ f.params, p.register = r

instance (f : Function) (r : Register) : Decidable (IsParam f r) :=
  inferInstanceAs (Decidable (∃ p ∈ f.params, p.register = r))

section Intervals

/-- What holds of the parameters, and stays where a register is mentioned, holds of all intervals
that the numbering of a function makes. -/
theorem Numbering.function_induction
    {J : Intervals → Prop} {f : Function}
    (hparams : J (params f))
    (htouch : ∀ (p : Int) (is : Intervals) (r : Register), J is → J (touch p is r)) :
    J (function f).intervals := by
  have hlist : ∀ (p : Int) (rs : List Register) (is : Intervals), J is →
      J (rs.foldl (touch p) is) := by
    intro p rs
    induction rs with
    | nil =>
        exact fun _ h => h
    | cons r rs ih =>
        exact fun is h => ih _ (htouch p is r h)
  have hinstructions : ∀ (is : List Ir.Instruction) (n : Numbering), J n.intervals →
      J (is.foldl instruction n).intervals := by
    intro is
    induction is with
    | nil =>
        exact fun _ h => h
    | cons i is ih =>
        exact fun n h => ih _ (hlist n.position _ _ h)
  have hblocks : ∀ (bs : List Block) (n : Numbering), J n.intervals →
      J (bs.foldl block n).intervals := by
    intro bs
    induction bs with
    | nil =>
        exact fun _ h => h
    | cons b bs ih =>
        intro n h
        refine ih (n.block b) ?_
        rw [block_intervals]
        exact hlist _ _ _ (hinstructions _ _ h)
  rw [function_eq]
  exact hblocks _ _ hparams

/-- No interval is empty, and the fixed ones are those of parameters, which all have one. -/
structure Marked (f : Function) (is : Intervals) : Prop where
  start_le : ∀ (r : Register) (i : Interval), is[r]? = some i → i.start ≤ i.stop
  fixed_iff : ∀ (r : Register) (i : Interval), is[r]? = some i →
    (i.fixed = true ↔ IsParam f r)
  mem_of_param : ∀ r : Register, IsParam f r → r ∈ is

/-- At the beginning only the parameters have intervals, and these are fixed. -/
theorem params_marked (f : Function) : Marked f (Numbering.params f) := by
  have hvalue : ∀ (r : Register) (i : Interval), (Numbering.params f)[r]? = some i →
      i = ⟨r, 0, 0, true⟩ := by
    unfold Numbering.params
    suffices h : ∀ (ps : List Ir.Param) (is : Intervals),
        (∀ (r : Register) (i : Interval), is[r]? = some i → i = ⟨r, 0, 0, true⟩) →
        ∀ (r : Register) (i : Interval),
          (ps.foldl (fun is p => is.insert p.register ⟨p.register, 0, 0, true⟩) is)[r]? = some i →
            i = ⟨r, 0, 0, true⟩ by
      exact h f.params ∅ (by simp)
    intro ps
    induction ps with
    | nil =>
        exact fun _ h => h
    | cons p ps ih =>
        intro is h
        refine ih _ ?_
        intro r i hi
        rw [Std.HashMap.getElem?_insert] at hi
        by_cases hr : p.register = r
        · simpa [hr] using hi.symm
        · rw [if_neg (by simpa using hr)] at hi
          exact h r i hi
  refine ⟨?_, ?_, fun r hr => (mem_params f).mpr hr⟩
  · intro r i hi
    rw [hvalue r i hi]
  · intro r i hi
    have hparam : IsParam f r := by
      rw [IsParam, ← mem_params, Std.HashMap.mem_iff_isSome_getElem?, hi]
      rfl
    rw [hvalue r i hi]
    exact iff_of_true rfl hparam

/-- Touching a register fixes nothing: what it adds is a point that is not fixed. -/
theorem Marked.touch
    {f : Function} {is : Intervals}
    (h : Marked f is)
    (p : Int)
    (r : Register) :
    Marked f (touch p is r) := by
  refine ⟨?_, ?_, fun s hs => (mem_touch p is r).mpr (Or.inl (h.mem_of_param s hs))⟩
  · intro s i hi
    rw [getElem?_touch] at hi
    split at hi
    · cases hr : is[r]? with
      | none =>
          rw [hr, Option.some.injEq] at hi
          subst hi
          exact Int.le_max_left _ _
      | some j =>
          rw [hr, Option.some.injEq] at hi
          subst hi
          exact Int.le_trans (h.start_le r j hr) (Int.le_max_left _ _)
    · exact h.start_le s i hi
  · intro s i hi
    rw [getElem?_touch] at hi
    split at hi
    · rename_i hrs
      subst hrs
      cases hr : is[r]? with
      | none =>
          rw [hr, Option.some.injEq] at hi
          subst hi
          refine iff_of_false (by simp [Interval.point, Interval.extend]) fun hparam => ?_
          have hmem := h.mem_of_param r hparam
          rw [Std.HashMap.mem_iff_isSome_getElem?, hr] at hmem
          cases hmem
      | some j =>
          rw [hr, Option.some.injEq] at hi
          subst hi
          exact h.fixed_iff r j hr
    · exact h.fixed_iff s i hi

/-- An interval that grows stays fixed, or stays free. -/
theorem Interval.grow_fixed (i : Interval) (spans : List Interval) :
    (i.grow spans).fixed = i.fixed := by
  induction spans generalizing i with
  | nil =>
      rfl
  | cons span spans ih =>
      rw [grow_cons, ih, cover]
      split <;> rfl

variable {f : Function} {i : Interval}

/-- After a whole function the fixed intervals are still those of the parameters. -/
theorem function_marked (f : Function) : Marked f (Numbering.function f).intervals :=
  Numbering.function_induction (params_marked f) fun p _ r h => h.touch p r

/-- An interval does not end before it begins. -/
theorem liveIntervals_start_le
    (h : i ∈ liveIntervals f) :
    i.start ≤ i.stop := by
  obtain ⟨j, hj, rfl⟩ := grow_of_mem_liveIntervals h rfl
  have hgrow := Interval.within_grow j ((Numbering.function f).backwardSpans f)
  have hle := (function_marked f).start_le _ _ hj
  exact Int.le_trans hgrow.1 (Int.le_trans hle hgrow.2)

/-- The fixed live intervals are those of the parameters. -/
theorem liveIntervals_fixed_iff
    (h : i ∈ liveIntervals f) :
    i.fixed = true ↔ IsParam f i.value := by
  obtain ⟨j, hj, hi⟩ := grow_of_mem_liveIntervals h rfl
  have hfixed := (function_marked f).fixed_iff _ _ hj
  rwa [hi, Interval.grow_fixed, ← hi]

/-- No interval stands twice. -/
theorem liveIntervals_nodup (f : Function) : (liveIntervals f).Nodup := by
  refine (liveIntervals_distinct f).imp ?_
  rintro i j hne rfl
  exact hne rfl

end Intervals

namespace Scan

section Steps

/-- What a step does with an interval, once what is over has been dropped. -/
inductive Takes (count : Nat) (s : Scan) (i : Interval) : Scan → Prop
  | fixed :
      i.fixed = true →
      Takes count s i (s.spill i)
  | free {index : Nat} :
      i.fixed = false →
      s.free? count = some index →
      Takes count s i (s.hold i index)
  | yield :
      i.fixed = false →
      s.free? count = none →
      (∀ last, s.active.getLast? = some last → last.interval.stop ≤ i.stop) →
      Takes count s i (s.spill i)
  | evict {last : Held} :
      i.fixed = false →
      s.free? count = none →
      s.active.getLast? = some last →
      i.stop < last.interval.stop →
      Takes count s i
        ((({ s with active := s.active.dropLast }).spill last.interval).hold i last.index)

/-- A step of the scan takes the interval in one of four ways: it is spilled as it is, gets a free
machine register, gives way, or takes the place of another one. -/
theorem takes_step (count : Nat) (s : Scan) (i : Interval) :
    Takes count (s.expire i.start) i (s.step count i) := by
  unfold step
  dsimp only
  split
  · next hfixed =>
      exact .fixed hfixed
  · next hfixed =>
      rw [Bool.not_eq_true] at hfixed
      split
      · next index hfree =>
          exact .free hfixed hfree
      · next hnone =>
          unfold contend
          split
          · next hlast =>
              refine .yield hfixed hnone ?_
              intro last h
              rw [hlast] at h
              cases h
          · next last hlast =>
              split
              · next hlt =>
                  exact .evict hfixed hnone hlast hlt
              · next hle =>
                  refine .yield hfixed hnone ?_
                  intro last' h
                  rw [hlast, Option.some.injEq] at h
                  subst h
                  exact Int.not_lt.mp hle

variable {count : Nat} {s : Scan}

/-- Intervals that hold the first machine registers are at least as many as these. -/
theorem le_length_active
    {n : Nat}
    (h : ∀ index < n, (s.active.any fun h => h.index == index) = true) :
    n ≤ s.active.length := by
  have hsubset : List.range n ⊆ s.active.map Held.index := by
    intro index hindex
    obtain ⟨g, hg, heq⟩ := List.any_eq_true.mp (h index (List.mem_range.mp hindex))
    exact List.mem_map.mpr ⟨g, hg, by simpa using heq⟩
  simpa using (List.nodup_range.subperm hsubset).length_le

/-- The scan looks at enough machine registers: the one it finds is the first of all that no active
interval holds. -/
theorem free?_eq (count : Nat) (s : Scan) :
    s.free? count =
      (List.range count).find? fun index => !s.active.any fun h => h.index == index := by
  have hsize : s.free? count = (List.range (min count (s.active.length + 1))).find?
      fun index => !s.active.any fun h => h.index == index := by
    unfold free?
    refine List.find?_congr ?_
    intro index hindex
    rw [getD_marks s (List.mem_range.mp hindex)]
  rw [hsize]
  rcases Nat.le_total count (s.active.length + 1) with hle | hle
  · rw [Nat.min_eq_left hle]
  · rw [Nat.min_eq_right hle]
    obtain ⟨rest, rfl⟩ := Nat.exists_eq_add_of_le hle
    rw [List.range_add (n := s.active.length + 1), List.find?_append]
    cases hfound : (List.range (s.active.length + 1)).find?
        fun index => !s.active.any fun h => h.index == index with
    | some index =>
        rfl
    | none =>
        have hall := le_length_active (s := s) (n := s.active.length + 1) fun index hindex => by
          simpa using List.find?_eq_none.mp hfound index (List.mem_range.mpr hindex)
        omega

/-- Where no machine register is free, as many intervals are active as there are machine
registers. -/
theorem length_active_of_crowded
    (hdistinct : s.active.Pairwise fun g h => g.index ≠ h.index)
    (hbound : ∀ h ∈ s.active, h.index < count)
    (hfree : s.free? count = none) :
    s.active.length = count := by
  have hlow : count ≤ s.active.length := by
    refine le_length_active fun index hindex => ?_
    rw [free?_eq] at hfree
    simpa using List.find?_eq_none.mp hfree index (List.mem_range.mpr hindex)
  have hhigh : (s.active.map Held.index).length ≤ (List.range count).length := by
    refine (List.Nodup.subperm ?_ ?_).length_le
    · rw [List.Nodup, List.pairwise_map]
      exact hdistinct
    · intro index hindex
      obtain ⟨h, hh, rfl⟩ := List.mem_map.mp hindex
      exact List.mem_range.mpr (hbound h hh)
  rw [List.length_map, List.length_range] at hhigh
  omega

end Steps

section Settling

/-- The state behind some intervals: what their registers were given, and the order of those that
are active. -/
structure Settled (count : Nat) (done : List Interval) (now : Int) (s : Scan) : Prop where
  distinct : done.Pairwise fun i j => i.value ≠ j.value
  begun : ∀ i ∈ done, i.start ≤ now
  valid : Valid done now s
  bounded : Bounded count s
  mem_places : ∀ r : Register, r ∈ s.places ↔ ∃ i ∈ done, i.value = r
  slot_used : ∀ n < s.slots, ∃ r : Register, s.places[r]? = some (.slot n)
  fixed_slot : ∀ i ∈ done, i.fixed = true → ∃ n : Nat, s.places[i.value]? = some (.slot n)
  byStop : s.active.Pairwise fun g h => g.interval.stop ≤ h.interval.stop

variable {count : Nat} {done : List Interval} {now : Int} {s : Scan} {i : Interval}

/-- Before the first step everything is settled. -/
theorem settled_empty (count : Nat) (now : Int) : Settled count [] now {} where
  distinct := List.Pairwise.nil
  begun := by simp
  valid := valid_empty now
  bounded := ⟨by simp, by simp, by simp⟩
  mem_places := by simp
  slot_used := by simp
  fixed_slot := by simp
  byStop := List.Pairwise.nil

/-- Dropping what is over keeps the scan settled. -/
theorem Settled.expire
    (h : Settled count done now s)
    {later : Int}
    (hle : now ≤ later) :
    Settled count done later (s.expire later) where
  distinct := h.distinct
  begun i hi := Int.le_trans (h.begun i hi) hle
  valid := h.valid.expire hle
  bounded := ⟨h.bounded.index_lt, h.bounded.slot_lt, h.bounded.slot_inj⟩
  mem_places := h.mem_places
  slot_used := h.slot_used
  fixed_slot := h.fixed_slot
  byStop := h.byStop.filter _

/-- A value that was not taken has no place yet. -/
theorem Settled.not_mem_places
    (h : Settled count done now s)
    (hnew : ∀ j ∈ done, j.value ≠ i.value) :
    s.places[i.value]? = none := by
  rw [← Option.not_isSome_iff_eq_none, ← Std.HashMap.mem_iff_isSome_getElem?, h.mem_places]
  rintro ⟨j, hj, heq⟩
  exact hnew j hj heq

/-- A value that is spilled has the next slot. -/
theorem places_spill_self (s : Scan) (i : Interval) :
    (s.spill i).places[i.value]? = some (.slot s.slots) := by
  simp [Scan.spill]

/-- A value that gets a machine register has it. -/
theorem places_hold_self (s : Scan) (i : Interval) (index : Nat) :
    (s.hold i index).places[i.value]? = some (.machine index) := by
  simp [Scan.hold]

/-- A slot that was used stays so, also where the interval that is spilled had a machine
register. -/
theorem slot_used_spill
    (hused : ∀ n < s.slots, ∃ r : Register, s.places[r]? = some (.slot n))
    (hfresh : ∀ n : Nat, s.places[i.value]? ≠ some (.slot n)) :
    ∀ n < (s.spill i).slots, ∃ r : Register, (s.spill i).places[r]? = some (.slot n) := by
  intro n hn
  rcases Nat.lt_succ_iff_lt_or_eq.mp hn with hn | rfl
  · obtain ⟨r, hr⟩ := hused n hn
    refine ⟨r, ?_⟩
    rw [places_spill_of_ne]
    · exact hr
    · rintro rfl
      exact hfresh n hr
  · exact ⟨i.value, places_spill_self s i⟩

/-- A new value is different from those that were taken. -/
theorem Settled.distinct_cons
    (h : Settled count done now s)
    (hnew : ∀ j ∈ done, j.value ≠ i.value) :
    (i :: done).Pairwise fun i j => i.value ≠ j.value :=
  List.pairwise_cons.mpr ⟨fun j hj => (hnew j hj).symm, h.distinct⟩

/-- A new interval begins no earlier than those that were taken. -/
theorem Settled.begun_cons
    (h : Settled count done i.start s) :
    ∀ j ∈ i :: done, j.start ≤ i.start :=
  List.forall_mem_cons.mpr ⟨Int.le_refl _, h.begun⟩

/-- Spilling the next value keeps the scan settled. -/
theorem Settled.spill
    (h : Settled count done i.start s)
    (hnew : ∀ j ∈ done, j.value ≠ i.value) :
    Settled count (i :: done) i.start (s.spill i) where
  distinct := h.distinct_cons hnew
  begun := h.begun_cons
  valid := h.valid.spill hnew
  bounded := h.bounded.spill i
  mem_places r := by
    rw [Scan.spill, Std.HashMap.mem_insert, beq_iff_eq, List.exists_mem_cons_iff, h.mem_places]
  slot_used := slot_used_spill h.slot_used (by simp [h.not_mem_places hnew])
  fixed_slot j hj hfixed := by
    rcases List.mem_cons.mp hj with rfl | hj
    · exact ⟨s.slots, places_spill_self s j⟩
    · rw [places_spill_of_ne (hnew j hj)]
      exact h.fixed_slot j hj hfixed
  byStop := h.byStop

/-- The active intervals stay in the order of their ends. -/
theorem byStop_hold
    (h : s.active.Pairwise fun g h => g.interval.stop ≤ h.interval.stop)
    (i : Interval)
    (index : Nat) :
    (s.hold i index).active.Pairwise fun g h => g.interval.stop ≤ h.interval.stop := by
  have hsplit := List.takeWhile_append_dropWhile
    (p := fun h : Held => decide (h.interval.stop < i.stop)) (l := s.active)
  rw [← hsplit, List.pairwise_append] at h
  have hlow : ∀ g ∈ s.active.takeWhile (fun h : Held => decide (h.interval.stop < i.stop)),
      g.interval.stop < i.stop := by
    intro g hg
    simpa using List.mem_takeWhile_imp hg
  have hhigh : ∀ g ∈ s.active.dropWhile (fun h : Held => decide (h.interval.stop < i.stop)),
      i.stop ≤ g.interval.stop := by
    intro g hg
    cases hdrop : s.active.dropWhile (fun h : Held => decide (h.interval.stop < i.stop)) with
    | nil =>
        rw [hdrop] at hg
        cases hg
    | cons first rest =>
        have hfirst := List.head?_dropWhile_not
          (fun h : Held => decide (h.interval.stop < i.stop)) s.active
        rw [hdrop] at hg hfirst h
        have hle : i.stop ≤ first.interval.stop := by simpa using hfirst
        rcases List.mem_cons.mp hg with rfl | hg
        · exact hle
        · exact Int.le_trans hle ((List.pairwise_cons.mp h.2.1).1 g hg)
  simp only [Scan.hold]
  rw [List.pairwise_append, List.pairwise_cons]
  refine ⟨h.1, ⟨hhigh, h.2.1⟩, ?_⟩
  intro g hg l hl
  rcases List.mem_cons.mp hl with rfl | hl
  · exact Int.le_of_lt (hlow g hg)
  · exact h.2.2 g hg l hl

/-- Giving the next value a free machine register keeps the scan settled. -/
theorem Settled.hold
    (h : Settled count done i.start s)
    (hnew : ∀ j ∈ done, j.value ≠ i.value)
    (hfixed : i.fixed = false)
    {index : Nat}
    (hindex : index < count)
    (hfree : ∀ g ∈ s.active, g.index ≠ index) :
    Settled count (i :: done) i.start (s.hold i index) where
  distinct := h.distinct_cons hnew
  begun := h.begun_cons
  valid := h.valid.hold hnew hfree
  bounded := h.bounded.hold i hindex
  mem_places r := by
    rw [Scan.hold, Std.HashMap.mem_insert, beq_iff_eq, List.exists_mem_cons_iff, h.mem_places]
  slot_used n hn := by
    obtain ⟨r, hr⟩ := h.slot_used n hn
    refine ⟨r, ?_⟩
    rw [places_hold_of_ne]
    · exact hr
    · rintro rfl
      rw [h.not_mem_places hnew] at hr
      cases hr
  fixed_slot j hj hj' := by
    rcases List.mem_cons.mp hj with rfl | hj
    · rw [hfixed] at hj'
      cases hj'
    · rw [places_hold_of_ne (hnew j hj)]
      exact h.fixed_slot j hj hj'
  byStop := byStop_hold h.byStop i index

/-- The interval that ends last gives its machine register away. -/
theorem Settled.evict
    (h : Settled count done now s)
    {last : Held}
    (hlast : s.active.getLast? = some last) :
    Settled count done now (({ s with active := s.active.dropLast }).spill last.interval) := by
  have hplace := h.valid.active_place last (List.mem_of_getLast? hlast)
  have hdone := h.valid.active_done last (List.mem_of_getLast? hlast)
  refine ⟨h.distinct, h.begun, (h.valid.evict hlast).1, ?_, ?_, ?_, ?_,
    h.byStop.sublist (List.dropLast_sublist _)⟩
  · exact Bounded.spill (s := { s with active := s.active.dropLast })
      ⟨h.bounded.index_lt, h.bounded.slot_lt, h.bounded.slot_inj⟩ last.interval
  · intro r
    rw [Scan.spill, Std.HashMap.mem_insert, beq_iff_eq, h.mem_places]
    constructor
    · rintro (rfl | hr)
      · exact ⟨_, hdone, rfl⟩
      · exact hr
    · exact Or.inr
  · refine slot_used_spill (s := { s with active := s.active.dropLast }) h.slot_used ?_
    intro n
    show s.places[last.interval.value]? ≠ _
    rw [hplace]
    simp
  · intro j hj hfixed
    by_cases hvalue : j.value = last.interval.value
    · rw [hvalue]
      exact ⟨_, places_spill_self _ _⟩
    · rw [places_spill_of_ne hvalue]
      exact h.fixed_slot j hj hfixed

/-- Active intervals hold machine registers that there are. -/
theorem Settled.index_lt
    (h : Settled count done now s) :
    ∀ g ∈ s.active, g.index < count :=
  fun g hg => h.bounded.index_lt _ _ (h.valid.active_place g hg)

/-- One step of the scan. -/
theorem Settled.step
    (h : Settled count done now s)
    (hnow : now ≤ i.start)
    (hnew : ∀ j ∈ done, j.value ≠ i.value) :
    Settled count (i :: done) i.start (s.step count i) := by
  have he := h.expire hnow
  have htakes := takes_step count s i
  generalize s.step count i = s' at htakes ⊢
  cases htakes with
  | fixed _ =>
      exact he.spill hnew
  | free hfixed hfree =>
      obtain ⟨hlt, hne⟩ := free?_spec hfree
      exact he.hold hnew hfixed hlt hne
  | yield _ _ _ =>
      exact he.spill hnew
  | @evict last hfixed _ hlast _ =>
      refine (he.evict hlast).hold hnew hfixed ?_ (he.valid.evict hlast).2
      exact he.index_lt last (List.mem_of_getLast? hlast)

/-- The intervals of a scan are not empty, stand in the order of their starts and belong to
different registers; no step of it comes before a position. -/
structure Schedule (now : Int) (done is : List Interval) : Prop where
  start_le : ∀ i ∈ is, i.start ≤ i.stop
  now_le : ∀ i ∈ is, now ≤ i.start
  byStart : is.Pairwise fun i j => i.start ≤ j.start
  distinct : is.Pairwise fun i j => i.value ≠ j.value
  fresh : ∀ i ∈ is, ∀ j ∈ done, j.value ≠ i.value

/-- Behind its first interval a schedule is one for the rest. -/
theorem Schedule.tail
    {is : List Interval}
    (h : Schedule now done (i :: is)) :
    Schedule i.start (i :: done) is where
  start_le := fun j hj => h.start_le j (List.mem_cons_of_mem _ hj)
  now_le := (List.pairwise_cons.mp h.byStart).1
  byStart := (List.pairwise_cons.mp h.byStart).2
  distinct := (List.pairwise_cons.mp h.distinct).2
  fresh k hk j hj := by
    rcases List.mem_cons.mp hj with rfl | hj
    · exact (List.pairwise_cons.mp h.distinct).1 k hk
    · exact h.fresh k (List.mem_cons_of_mem _ hk) j hj

/-- What one step keeps, given what is settled, a whole scan keeps. -/
theorem foldl_step_induction
    {P : List Interval → Int → Scan → Prop}
    (hstep : ∀ (done : List Interval) (now : Int) (s : Scan) (i : Interval),
      Settled count done now s → i.start ≤ i.stop → now ≤ i.start →
      (∀ j ∈ done, j.value ≠ i.value) → P done now s → P (i :: done) i.start (s.step count i))
    (is : List Interval)
    (h : Settled count done now s)
    (hschedule : Schedule now done is)
    (hP : P done now s) :
    ∃ now', Settled count (is.reverse ++ done) now' (is.foldl (Scan.step count) s) ∧
      P (is.reverse ++ done) now' (is.foldl (Scan.step count) s) := by
  induction is generalizing done now s with
  | nil =>
      exact ⟨now, h, hP⟩
  | cons i is ih =>
      have hnow := hschedule.now_le i List.mem_cons_self
      have hnew := hschedule.fresh i List.mem_cons_self
      have hle := hschedule.start_le i List.mem_cons_self
      obtain ⟨now', hfinal⟩ :=
        ih (h.step hnow hnew) hschedule.tail (hstep _ _ _ _ h hle hnow hnew hP)
      refine ⟨now', ?_⟩
      rw [List.foldl_cons, List.reverse_cons, List.append_assoc]
      exact hfinal

end Settling

end Scan

section Functions

variable {f : Function}

/-- The live intervals of a function can be scanned. -/
theorem exists_schedule (f : Function) :
    ∃ now, Scan.Schedule now [] (liveIntervals f) := by
  have hsort := liveIntervals_byStart f
  cases hf : liveIntervals f with
  | nil =>
      exact ⟨0, by simp, by simp, List.Pairwise.nil, List.Pairwise.nil, by simp⟩
  | cons i is =>
      rw [hf] at hsort
      refine ⟨i.start, ?_, ?_, hsort, hf ▸ liveIntervals_distinct f, by simp⟩
      · intro j hj
        exact liveIntervals_start_le (hf ▸ hj)
      · intro j hj
        rcases List.mem_cons.mp hj with rfl | hj
        · exact Int.le_refl _
        · exact (List.pairwise_cons.mp hsort).1 j hj

theorem allocate_settled (count : Nat) (f : Function) :
    ∃ now, Scan.Settled count (liveIntervals f).reverse now
      ((liveIntervals f).foldl (Scan.step count) {}) := by
  obtain ⟨now, hschedule⟩ := exists_schedule f
  obtain ⟨now', hsettled, -⟩ := Scan.foldl_step_induction (P := fun _ _ _ => True)
    (fun _ _ _ _ _ _ _ _ _ => trivial) (liveIntervals f) (Scan.settled_empty count now) hschedule
    trivial
  rw [List.append_nil] at hsettled
  exact ⟨now', hsettled⟩

end Functions

end Allocation
end StackNative
