import Mathlib.Order.Bounds.Basic
import Mathlib.Data.Finset.Dedup
import StackNative.Proofs.Allocation.Tables

/-!
# Linear scan spills as few intervals as possible

**Input.**  A function and the number of machine registers.

**Algorithm.**  Where no machine register is free, the interval that ends last goes
to a spill slot.  Any other choice of intervals is compared with those that the
scan keeps: at every later position, no more of the chosen ones are over than of
the kept ones.

**Results.**
* `Ahead`, `Ahead.step`: a step of the scan keeps this lead over every choice.
* `length_add_one_le_kept`: a choice with an interval that the scan has no free
  machine register for has lost one already.
* `spilled_minimal`: the number of spilled intervals is the least that leaves no
  position with more intervals than machine registers.
-/

namespace StackNative
namespace Allocation

open Ir (Register Function)

instance (i : Interval) (p : Int) : Decidable (i.Has p) :=
  inferInstanceAs (Decidable (i.start ≤ p ∧ p ≤ i.stop))

/-- No position is covered by more than so many of the intervals. -/
def Fits (count : Nat) (is : List Interval) : Prop :=
  ∀ p : Int, is.countP (fun i => i.Has p) ≤ count

theorem Fits.sublist
    {count : Nat} {is js : List Interval}
    (h : Fits count js)
    (hsub : is.Sublist js) :
    Fits count is :=
  fun p => (hsub.countP_le).trans (h p)

namespace Scan

variable {count : Nat} {done chosen : List Interval} {now : Int} {s : Scan} {i : Interval}

section Kept

/-- The interval has a machine register. -/
def keeps (s : Scan) (i : Interval) : Bool := ((s.place i.value).bind Place.index?).isSome

/-- How many of the intervals have a machine register. -/
def kept (s : Scan) (done : List Interval) : Nat := done.countP s.keeps

theorem keeps_spill_self (s : Scan) (i : Interval) : (s.spill i).keeps i = false := by
  simp [keeps, place_spill, Place.index?]

theorem keeps_hold_self (s : Scan) (i : Interval) (index : Nat) :
    (s.hold i index).keeps i = true := by
  simp [keeps, place_hold, Place.index?]

theorem keeps_spill_of_ne
    {j : Interval}
    (h : j.value ≠ i.value) :
    (s.spill i).keeps j = s.keeps j := by
  rw [keeps, place_spill, Function.update_of_ne h, keeps]

theorem keeps_hold_of_ne
    {j : Interval} {index : Nat}
    (h : j.value ≠ i.value) :
    (s.hold i index).keeps j = s.keeps j := by
  rw [keeps, place_hold, Function.update_of_ne h, keeps]

theorem kept_spill
    (hnew : ∀ j ∈ done, j.value ≠ i.value) :
    (s.spill i).kept (i :: done) = s.kept done := by
  rw [kept, List.countP_cons_of_neg (by simp [keeps_spill_self])]
  exact List.countP_congr fun j hj => by rw [keeps_spill_of_ne (hnew j hj)]

theorem kept_hold
    (hnew : ∀ j ∈ done, j.value ≠ i.value)
    (index : Nat) :
    (s.hold i index).kept (i :: done) = s.kept done + 1 := by
  rw [kept, List.countP_cons_of_pos (by simp [keeps_hold_self])]
  congr 1
  exact List.countP_congr fun j hj => by rw [keeps_hold_of_ne (hnew j hj)]

/-- An interval that is spilled later is one less. -/
theorem kept_spill_of_mem
    (hdistinct : done.Pairwise fun i j => i.value ≠ j.value)
    (hi : i ∈ done)
    (hkeeps : s.keeps i = true) :
    (s.spill i).kept done + 1 = s.kept done := by
  obtain ⟨front, back, rfl⟩ := List.append_of_mem hi
  rw [List.pairwise_append, List.pairwise_cons] at hdistinct
  have hfront : front.countP (s.spill i).keeps = front.countP s.keeps :=
    List.countP_congr fun j hj => by
      rw [keeps_spill_of_ne (hdistinct.2.2 j hj i List.mem_cons_self)]
  have hback : back.countP (s.spill i).keeps = back.countP s.keeps :=
    List.countP_congr fun j hj => by
      rw [keeps_spill_of_ne (hdistinct.2.1.1 j hj).symm]
  simp only [kept, List.countP_append, List.countP_cons, keeps_spill_self, hkeeps, hfront, hback]
  simp only [Bool.false_eq_true, if_false, if_true]
  omega

end Kept

section Lead

/-- Of intervals that fit, however they were chosen, no more are over at a later position than the
scan has kept and is done with. -/
def Ahead (count : Nat) (done : List Interval) (now : Int) (s : Scan) : Prop :=
  ∀ chosen : List Interval, chosen.Sublist done → (∀ i ∈ chosen, i.fixed = false) →
    Fits count chosen → ∀ t : Int, now ≤ t →
      chosen.countP (fun i => i.stop < t) + s.active.countP (fun h => t ≤ h.interval.stop) ≤
        s.kept done

theorem countP_hold (s : Scan) (i : Interval) (index : Nat) (p : Held → Bool) :
    (s.hold i index).active.countP p = s.active.countP p + if p ⟨i, index⟩ then 1 else 0 := by
  have hsplit := congrArg (List.countP p) (List.takeWhile_append_dropWhile
    (p := fun h : Held => decide (h.interval.stop < i.stop)) (l := s.active))
  rw [List.countP_append] at hsplit
  simp only [hold, List.countP_append, List.countP_cons]
  omega

theorem Ahead.expire
    (h : Ahead count done now s)
    {later : Int}
    (hle : now ≤ later) :
    Ahead count done later (s.expire later) := by
  intro chosen hsub hfixed hfits t ht
  have hahead := h chosen hsub hfixed hfits t (Int.le_trans hle ht)
  have hactive : (s.expire later).active.countP (fun h => t ≤ h.interval.stop) ≤
      s.active.countP (fun h => t ≤ h.interval.stop) :=
    List.filter_sublist.countP_le
  have hkept : (s.expire later).kept done = s.kept done := rfl
  omega

/-- Where no machine register is free, a choice that takes the next interval has lost another one
already. -/
theorem length_add_one_le_kept
    (h : Ahead count done i.start s)
    (hs : Settled count done i.start s)
    (hactive : ∀ g ∈ s.active, i.start ≤ g.interval.stop)
    (hle : i.start ≤ i.stop)
    (hfree : s.free? count = none)
    (hsub : chosen.Sublist done)
    (hfixed : ∀ j ∈ chosen, j.fixed = false)
    (hfits : Fits count (i :: chosen)) :
    chosen.length + 1 ≤ s.kept done := by
  have hlength : s.active.length = count :=
    length_active_of_crowded hs.valid.index_ne hs.index_lt hfree
  have hall : s.active.countP (fun h => i.start ≤ h.interval.stop) = s.active.length :=
    List.countP_eq_length.mpr fun g hg => by simpa using hactive g hg
  have hahead := h chosen hsub hfixed (hfits.sublist (List.sublist_cons_self i chosen)) i.start
    (Int.le_refl _)
  have hcovered := hfits i.start
  rw [List.countP_cons_of_pos (by simpa [Interval.Has] using hle)] at hcovered
  have hsplit := List.length_eq_countP_add_countP (fun j : Interval => decide (j.stop < i.start))
    (l := chosen)
  have hrest : chosen.countP (fun j => decide ¬decide (j.stop < i.start) = true) ≤
      chosen.countP (fun j => decide (j.Has i.start)) := by
    refine List.countP_mono_left fun j hj hstop => ?_
    have hstart := hs.begun j (hsub.subset hj)
    simp only [decide_eq_true_eq, Int.not_lt] at hstop
    exact decide_eq_true ⟨hstart, hstop⟩
  omega

theorem stop_le_last
    {last g : Held}
    (h : s.active.Pairwise fun g h => g.interval.stop ≤ h.interval.stop)
    (hlast : s.active.getLast? = some last)
    (hg : g ∈ s.active) :
    g.interval.stop ≤ last.interval.stop := by
  obtain ⟨front, hfront⟩ := List.getLast?_eq_some_iff.mp hlast
  rw [hfront] at h hg
  rcases List.mem_append.mp hg with hg | hg
  · exact (List.pairwise_append.mp h).2.2 g hg last (by simp)
  · rw [List.mem_singleton.mp hg]

theorem Ahead.spill
    (h : Ahead count done i.start s)
    (hnew : ∀ j ∈ done, j.value ≠ i.value)
    (hlost : ∀ chosen : List Interval, chosen.Sublist done → (∀ j ∈ i :: chosen, j.fixed = false) →
      Fits count (i :: chosen) → chosen.length + 1 ≤ s.kept done ∧
        ∀ g ∈ s.active, g.interval.stop ≤ i.stop) :
    Ahead count (i :: done) i.start (s.spill i) := by
  intro chosen hsub hfixed hfits t ht
  rw [kept_spill hnew]
  rcases List.sublist_cons_iff.mp hsub with hsub | ⟨rest, rfl, hrest⟩
  · exact h chosen hsub hfixed hfits t ht
  · obtain ⟨hlength, hactive⟩ := hlost rest hrest hfixed hfits
    by_cases hstop : i.stop < t
    · have hnone : s.active.countP (fun h => t ≤ h.interval.stop) = 0 := by
        refine List.countP_eq_zero.mpr fun g hg => ?_
        have := hactive g hg
        simp only [decide_eq_true_eq]
        omega
      have hover : rest.countP (fun j => decide (j.stop < t)) ≤ rest.length :=
        List.countP_le_length
      have hsame : (s.spill i).active = s.active := rfl
      rw [hsame, hnone, List.countP_cons_of_pos (by simpa using hstop)]
      omega
    · rw [List.countP_cons_of_neg (by simpa using hstop)]
      exact h rest hrest (fun j hj => hfixed j (List.mem_cons_of_mem _ hj))
        (hfits.sublist (List.sublist_cons_self i rest)) t ht

theorem Ahead.hold
    (h : Ahead count done i.start s)
    (hnew : ∀ j ∈ done, j.value ≠ i.value)
    (index : Nat) :
    Ahead count (i :: done) i.start (s.hold i index) := by
  intro chosen hsub hfixed hfits t ht
  rw [kept_hold hnew, countP_hold]
  rcases List.sublist_cons_iff.mp hsub with hsub | ⟨rest, rfl, hrest⟩
  · have hahead := h chosen hsub hfixed hfits t ht
    split <;> omega
  · have hahead := h rest hrest (fun j hj => hfixed j (List.mem_cons_of_mem _ hj))
      (hfits.sublist (List.sublist_cons_self i rest)) t ht
    -- the interval is over at the position, or it is active there
    rw [List.countP_cons]
    simp only [decide_eq_true_eq]
    split <;> split <;> omega

/-- The interval that ends last is given up for one that ends earlier. -/
theorem Ahead.evict
    (h : Ahead count done i.start s)
    (hs : Settled count done i.start s)
    (hactive : ∀ g ∈ s.active, i.start ≤ g.interval.stop)
    (hle : i.start ≤ i.stop)
    (hnew : ∀ j ∈ done, j.value ≠ i.value)
    (hfree : s.free? count = none)
    {last : Held}
    (hlast : s.active.getLast? = some last)
    (hlt : i.stop < last.interval.stop) :
    Ahead count (i :: done) i.start
      ((({ s with active := s.active.dropLast }).spill last.interval).hold i last.index) := by
  have hlastmem : last ∈ s.active := List.mem_of_getLast? hlast
  have hkeeps : s.keeps last.interval = true := by
    have hplace : s.place last.interval.value = some (.machine last.index) :=
      hs.valid.active_place last hlastmem
    rw [keeps, hplace]
    rfl
  have hkept : (({ s with active := s.active.dropLast }).spill last.interval).kept done + 1 =
      s.kept done :=
    kept_spill_of_mem (s := { s with active := s.active.dropLast }) hs.distinct
      (hs.valid.active_done last hlastmem) hkeeps
  have hsplit : s.active = s.active.dropLast ++ [last] := by
    obtain ⟨front, hfront⟩ := List.getLast?_eq_some_iff.mp hlast
    rw [hfront, List.dropLast_concat]
  intro chosen hsub hfixed hfits t ht
  rw [kept_hold hnew, countP_hold, hkept]
  show _ + (s.active.dropLast.countP _ + _) ≤ _
  have hcount := congrArg (List.countP fun h : Held => decide (t ≤ h.interval.stop)) hsplit
  rw [List.countP_append, List.countP_singleton] at hcount
  simp only [decide_eq_true_eq] at hcount ⊢
  rcases List.sublist_cons_iff.mp hsub with hsub | ⟨rest, rfl, hrest⟩
  · have hahead := h chosen hsub hfixed hfits t ht
    split at hcount <;> split <;> omega
  · have hfixed' : ∀ j ∈ rest, j.fixed = false :=
      fun j hj => hfixed j (List.mem_cons_of_mem _ hj)
    have hahead := h rest hrest hfixed' (hfits.sublist (List.sublist_cons_self i rest)) t ht
    rw [List.countP_cons]
    simp only [decide_eq_true_eq]
    by_cases hover : last.interval.stop < t
    · -- nothing is active any more at the position, but the choice had lost an interval before
      have hlength := length_add_one_le_kept h hs hactive hle hfree hrest hfixed' hfits
      have hnone : s.active.countP (fun h => decide (t ≤ h.interval.stop)) = 0 := by
        refine List.countP_eq_zero.mpr fun g hg => ?_
        have := stop_le_last hs.byStop hlast hg
        simp only [decide_eq_true_eq]
        omega
      have hbound : rest.countP (fun j => decide (j.stop < t)) ≤ rest.length :=
        List.countP_le_length
      split at hcount <;> split <;> split <;> omega
    · split at hcount <;> split <;> split <;> omega

theorem ahead_empty (count : Nat) (now : Int) : Ahead count [] now {} := by
  intro chosen hsub _ _ t _
  rw [List.sublist_nil.mp hsub]
  exact Nat.le_refl _

/-- One step of the scan keeps its lead. -/
theorem Ahead.step
    (h : Ahead count done now s)
    (hs : Settled count done now s)
    (hle : i.start ≤ i.stop)
    (hnow : now ≤ i.start)
    (hnew : ∀ j ∈ done, j.value ≠ i.value) :
    Ahead count (i :: done) i.start (s.step count i) := by
  have he := h.expire hnow
  have hse := hs.expire hnow
  have hactive : ∀ g ∈ (s.expire i.start).active, i.start ≤ g.interval.stop := by
    intro g hg
    simpa using (List.mem_filter.mp hg).2
  have htakes := takes_step count s i
  generalize s.step count i = s' at htakes ⊢
  cases htakes with
  | fixed hfixed =>
      refine he.spill hnew fun chosen _ hchosen _ => ?_
      have := hchosen i List.mem_cons_self
      rw [hfixed] at this
      cases this
  | free _ _ =>
      exact he.hold hnew _
  | yield _ hfree hlast =>
      refine he.spill hnew fun chosen hsub hchosen hfits => ⟨?_, ?_⟩
      · exact length_add_one_le_kept he hse hactive hle hfree hsub
          (fun j hj => hchosen j (List.mem_cons_of_mem _ hj)) hfits
      · intro g hg
        cases hget : (s.expire i.start).active.getLast? with
        | none =>
            rw [List.getLast?_eq_none_iff.mp hget] at hg
            cases hg
        | some last =>
            exact Int.le_trans (stop_le_last hse.byStop hget hg) (hlast last hget)
  | evict _ hfree hlast hlt =>
      exact he.evict hse hactive hle hnew hfree hlast hlt

end Lead

end Scan

section Functions

variable {count : Nat} {f : Function} {chosen : List Interval} {i : Interval}

/-- The live intervals of a function that are not those of parameters. -/
def contenders (f : Function) : List Interval :=
  (liveIntervals f).filter fun i => ¬ IsParam f i.value

/-- The contenders that are left in spill slots. -/
def spilled (count : Nat) (f : Function) : List Interval :=
  (contenders f).filter fun i => (((allocate count f).place? i.value).bind Place.number?).isSome

theorem contenders_sublist (f : Function) : (contenders f).Sublist (liveIntervals f) :=
  List.filter_sublist

theorem contenders_nodup (f : Function) : (contenders f).Nodup :=
  (liveIntervals_nodup f).sublist (contenders_sublist f)

theorem fixed_of_mem_contenders
    (h : i ∈ contenders f) :
    i.fixed = false := by
  obtain ⟨hi, hparam⟩ := List.mem_filter.mp h
  rw [← Bool.not_eq_true, liveIntervals_fixed_iff hi]
  simpa using hparam

/-- The contenders that have machine registers. -/
def keptContenders (count : Nat) (f : Function) : List Interval :=
  (contenders f).filter fun i => (((allocate count f).place? i.value).bind Place.index?).isSome

/-- Each contender is kept or spilled. -/
theorem isSome_index?_eq
    (count : Nat)
    (h : i ∈ liveIntervals f) :
    (((allocate count f).place? i.value).bind Place.index?).isSome =
      !(((allocate count f).place? i.value).bind Place.number?).isSome := by
  obtain ⟨place, hplace⟩ := exists_place count ((exists_liveInterval_iff f i.value).mp ⟨i, h, rfl⟩)
  rw [hplace]
  cases place <;> rfl

theorem keptContenders_eq (count : Nat) (f : Function) :
    keptContenders count f = (contenders f).filter (· ∉ (spilled count f).toFinset) := by
  refine List.filter_congr fun i hi => ?_
  have hmem : i ∈ (spilled count f).toFinset ↔
      (((allocate count f).place? i.value).bind Place.number?).isSome = true := by
    rw [List.mem_toFinset, spilled, List.mem_filter, and_iff_right hi]
  rw [isSome_index?_eq count ((contenders_sublist f).subset hi), decide_not, Bool.not_inj_iff,
    Bool.eq_iff_iff, decide_eq_true_eq]
  exact hmem.symm

theorem length_spilled_add (count : Nat) (f : Function) :
    (spilled count f).length + (keptContenders count f).length = (contenders f).length := by
  have hkept : keptContenders count f = (contenders f).filter fun i =>
      !(((allocate count f).place? i.value).bind Place.number?).isSome :=
    List.filter_congr fun i hi => isSome_index?_eq count ((contenders_sublist f).subset hi)
  have hsplit := List.length_eq_length_filter_add (l := contenders f)
    fun i => (((allocate count f).place? i.value).bind Place.number?).isSome
  rw [hkept]
  exact hsplit.symm

/-- The intervals that have machine registers fit. -/
theorem fits_keptContenders (count : Nat) (f : Function) : Fits count (keptContenders count f) := by
  intro p
  let index (i : Interval) : Nat := (((allocate count f).place? i.value).bind Place.index?).getD 0
  have hplace : ∀ i ∈ keptContenders count f,
      (allocate count f).place? i.value = some (.machine (index i)) := by
    intro i hi
    obtain ⟨k, hk⟩ := Option.isSome_iff_exists.mp (List.mem_filter.mp hi).2
    rw [← bind_index?_eq_some]
    simp [index, hk]
  have hsub : ((keptContenders count f).filter fun i => decide (i.Has p)).Sublist
      (keptContenders count f) := List.filter_sublist
  have hlive : (keptContenders count f).Sublist (liveIntervals f) :=
    List.filter_sublist.trans (contenders_sublist f)
  rw [List.countP_eq_length_filter]
  -- intervals that share the position have different machine registers
  have hnodup : (((keptContenders count f).filter fun i => decide (i.Has p)).map index).Nodup := by
    rw [List.Nodup, List.pairwise_map]
    refine ((liveIntervals_distinct f).sublist (hsub.trans hlive)).imp_of_mem ?_
    intro i j hi hj hne heq
    have hover : i.overlaps j = true :=
      Interval.overlaps_of_has (by simpa using (List.mem_filter.mp hi).2)
        (by simpa using (List.mem_filter.mp hj).2)
    have hj' := hplace j (hsub.subset hj)
    rw [← heq] at hj'
    exact place?_ne_of_overlaps ((hsub.trans hlive).subset hi) ((hsub.trans hlive).subset hj) hne
      hover count _ (hplace i (hsub.subset hi)) hj'
  have hrange : ((keptContenders count f).filter fun i => decide (i.Has p)).map index ⊆
      List.range count := by
    intro k hk
    obtain ⟨i, hi, rfl⟩ := List.mem_map.mp hk
    exact List.mem_range.mpr ((allocate_valid count f).2.index_lt i.value _
      (hplace i (hsub.subset hi)))
  simpa using (hnodup.subperm hrange).length_le

/-- Some position lies behind any intervals. -/
theorem exists_later (is : List Interval) (now : Int) :
    ∃ t, now ≤ t ∧ ∀ i ∈ is, i.stop < t := by
  induction is with
  | nil =>
      exact ⟨now, Int.le_refl _, by simp⟩
  | cons i is ih =>
      obtain ⟨t, hnow, ht⟩ := ih
      refine ⟨max t (i.stop + 1), by omega, ?_⟩
      intro j hj
      rcases List.mem_cons.mp hj with rfl | hj
      · omega
      · have := ht j hj
        omega

/-- Contenders that fit are not more than those that the scan keeps. -/
theorem length_le_keptContenders
    (hsub : chosen.Sublist (contenders f))
    (hfits : Fits count chosen) :
    chosen.length ≤ (keptContenders count f).length := by
  obtain ⟨now, hschedule⟩ := exists_schedule f
  obtain ⟨now', hs, hahead⟩ := Scan.foldl_step_induction (P := Scan.Ahead count)
    (fun _ _ _ _ hs hle hnow hnew h => h.step hs hle hnow hnew) (liveIntervals f)
    (Scan.settled_empty count now) hschedule (Scan.ahead_empty count now)
  rw [List.append_nil] at hs hahead
  generalize hscan : (liveIntervals f).foldl (Scan.step count) {} = s at hs hahead
  have hkept : s.kept (liveIntervals f).reverse = (keptContenders count f).length := by
    rw [Scan.kept, List.countP_reverse, keptContenders, contenders, List.filter_filter,
      ← List.countP_eq_length_filter]
    refine List.countP_congr fun i hi => ?_
    have hplace : (allocate count f).place? i.value = s.place i.value := by
      rw [← hscan]
      rfl
    rw [Scan.keeps, hplace, Bool.and_eq_true, iff_self_and]
    intro hkeeps
    by_contra hparam
    obtain ⟨n, hn⟩ := hs.fixed_slot i (List.mem_reverse.mpr hi)
      ((liveIntervals_fixed_iff hi).mpr (by simpa using hparam))
    rw [Scan.place, hn] at hkeeps
    cases hkeeps
  obtain ⟨t, hnow, ht⟩ := exists_later chosen.reverse now'
  have hlead := hahead chosen.reverse
    (List.reverse_sublist.mpr (hsub.trans (contenders_sublist f)))
    (fun i hi => fixed_of_mem_contenders (hsub.subset (List.mem_reverse.mp hi)))
    (fun p => by rw [List.countP_reverse]; exact hfits p) t hnow
  rw [hkept, List.countP_eq_length.mpr (fun i hi => by simpa using ht i hi),
    List.length_reverse] at hlead
  omega

/-- Taking away a set of contenders leaves as many as are not in it. -/
theorem card_add_length_filter
    {X : Finset Interval}
    (h : ∀ i ∈ X, i ∈ contenders f) :
    X.card + ((contenders f).filter (· ∉ X)).length = (contenders f).length := by
  have hX : ((contenders f).filter (· ∈ X)).length = X.card := by
    rw [← List.toFinset_card_of_nodup ((contenders_nodup f).filter _)]
    congr 1
    ext i
    simp only [List.mem_toFinset, List.mem_filter, decide_eq_true_eq]
    exact ⟨And.right, fun hi => ⟨h i hi, hi⟩⟩
  have hsplit := List.length_eq_length_filter_add (l := contenders f) fun i => decide (i ∈ X)
  rw [hX] at hsplit
  simpa using hsplit.symm

/-- **Furthest-end eviction spills as few intervals as possible**: the number of contenders in
spill slots is the least size of a set of contenders without which no position is covered by more
of them than there are machine registers.  Where that is so from the start, none is spilled. -/
theorem spilled_minimal (count : Nat) (f : Function) :
    IsLeast {n | ∃ X : Finset Interval, (∀ i ∈ X, i ∈ contenders f) ∧
      Fits count ((contenders f).filter (· ∉ X)) ∧ X.card = n} (spilled count f).length ∧
      (Fits count (contenders f) → spilled count f = []) := by
  have hleast : ∀ X : Finset Interval, (∀ i ∈ X, i ∈ contenders f) →
      Fits count ((contenders f).filter (· ∉ X)) → (spilled count f).length ≤ X.card := by
    intro X hX hfits
    have hle := length_le_keptContenders List.filter_sublist hfits
    have hcard := card_add_length_filter hX
    have hlength := length_spilled_add count f
    omega
  refine ⟨⟨⟨(spilled count f).toFinset, ?_, ?_, ?_⟩, ?_⟩, ?_⟩
  · intro i hi
    exact (List.mem_filter.mp (List.mem_toFinset.mp hi)).1
  · rw [← keptContenders_eq]
    exact fits_keptContenders count f
  · exact List.toFinset_card_of_nodup ((contenders_nodup f).filter _)
  · rintro n ⟨X, hX, hfits, rfl⟩
    exact hleast X hX hfits
  · intro hfits
    have hnone := hleast ∅ (by simp) (by simpa using hfits)
    exact List.length_eq_zero_iff.mp (Nat.le_zero.mp hnone)

end Functions

end Allocation
end StackNative
