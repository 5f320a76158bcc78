import Mathlib.Data.List.Pairwise
import Mathlib.Data.List.Perm.Subperm
import StackNative.Proofs.Allocation.Flow
import StackNative.Proofs.Allocation.Scan

/-!
# Values that are needed at the same time are kept apart

**Input.**  A function with any layout of blocks and any jumps, and any number of
machine registers.

**Results.**
* `overlaps_of_flow`: where a register is written on the way from a write to a
  read of another one, the intervals of the two overlap.
* `interferes_of_live`: an instruction that writes a register while another one
  holds a value that can still be read never shares a machine register with it.
-/

namespace StackNative
namespace Allocation

open Ir (Register Block Function)
open Relation (ReflTransGen)

section LiveIntervals

variable (f : Function)

/-- The live intervals are the intervals of the numbering, grown over the spans. -/
theorem mem_liveIntervals (i : Interval) :
    i ∈ liveIntervals f ↔
      ∃ (r : Register) (j : Interval), (Numbering.function f).intervals[r]? = some j ∧
        i = j.grow ((Numbering.function f).backwardSpans f) := by
  simp only [liveIntervals, List.mem_mergeSort, List.mem_map, Prod.exists]
  constructor
  · rintro ⟨r, j, hj, rfl⟩
    exact ⟨r, j, Std.HashMap.mem_toList_iff_getElem?_eq_some.mp hj, rfl⟩
  · rintro ⟨r, j, hj, rfl⟩
    exact ⟨r, j, Std.HashMap.mem_toList_iff_getElem?_eq_some.mpr hj, rfl⟩

theorem before_trans
    (i j k : Interval)
    (hij : i.before j = true)
    (hjk : j.before k = true) :
    i.before k = true := by
  simp only [Interval.before, Bool.or_eq_true, Bool.and_eq_true, decide_eq_true_eq,
    beq_iff_eq] at *
  rcases hij with hij | ⟨hij, hv⟩
  · rcases hjk with hjk | ⟨hjk, _⟩
    · exact Or.inl (by omega)
    · exact Or.inl (by omega)
  · rcases hjk with hjk | ⟨hjk, hv'⟩
    · exact Or.inl (by omega)
    · exact Or.inr ⟨by omega, UInt32.le_trans hv hv'⟩

theorem before_total (i j : Interval) : (i.before j || j.before i) = true := by
  simp only [Interval.before, Bool.or_eq_true, Bool.and_eq_true, decide_eq_true_eq, beq_iff_eq]
  rcases Int.lt_trichotomy i.start j.start with h | h | h
  · exact Or.inl (Or.inl h)
  · rcases UInt32.le_total i.value j.value with hv | hv
    · exact Or.inl (Or.inr ⟨h, hv⟩)
    · exact Or.inr (Or.inr ⟨h.symm, hv⟩)
  · exact Or.inr (Or.inl h)

theorem liveIntervals_byStart :
    (liveIntervals f).Pairwise fun i j => i.start ≤ j.start := by
  refine (List.pairwise_mergeSort before_trans before_total _).imp ?_
  intro i j hij
  simp only [Interval.before, Bool.or_eq_true, Bool.and_eq_true, decide_eq_true_eq,
    beq_iff_eq] at hij
  omega

theorem liveIntervals_distinct :
    (liveIntervals f).Pairwise fun i j => i.value ≠ j.value := by
  unfold liveIntervals
  refine (List.mergeSort_perm _ _).symm.pairwise ?_ fun h => h.symm
  rw [List.pairwise_map]
  refine List.Pairwise.imp_of_mem ?_ Std.HashMap.distinct_keys_toList
  rintro ⟨r, i⟩ ⟨s, j⟩ hi hj hne
  have hri := (Numbering.function_begun f r i
    (Std.HashMap.mem_toList_iff_getElem?_eq_some.mp hi)).1
  have hsj := (Numbering.function_begun f s j
    (Std.HashMap.mem_toList_iff_getElem?_eq_some.mp hj)).1
  show (i.grow _).value ≠ (j.grow _).value
  rw [Interval.grow_value, Interval.grow_value, hri, hsj]
  simpa using hne

/-- The live intervals are the only list in the order of the scan that has one for each register. -/
theorem liveIntervals_eq
    {is : List Interval}
    (hsize : (Numbering.function f).intervals.size ≤ is.length)
    (hsorted : is.Pairwise fun i j => i.before j = true ∧ i.value ≠ j.value)
    (hmem : ∀ i ∈ is, i ∈ liveIntervals f) :
    liveIntervals f = is := by
  have hnodup : is.Nodup := by
    refine hsorted.imp ?_
    rintro i j ⟨-, hne⟩ rfl
    exact hne rfl
  have hlength : (liveIntervals f).length ≤ is.length := by
    simpa [liveIntervals] using hsize
  have hperm : is.Perm (liveIntervals f) :=
    (List.subperm_of_subset hnodup hmem).perm_of_length_le hlength
  have hscan : (liveIntervals f).Pairwise fun i j => i.before j = true :=
    List.pairwise_mergeSort before_trans before_total _
  refine hperm.symm.eq_of_pairwise ?_ hscan (hsorted.imp And.left)
  intro i j hi hj hij hji
  have hvalue : i.value = j.value := by
    simp only [Interval.before, Bool.or_eq_true, Bool.and_eq_true, decide_eq_true_eq,
      beq_iff_eq] at hij hji
    rcases hij with hij | ⟨hij, hle⟩
    · omega
    · rcases hji with hji | ⟨hji, hge⟩
      · omega
      · exact UInt32.le_antisymm hle hge
  have : Std.Symm fun i j : Interval => i.value ≠ j.value := ⟨fun _ _ h => h.symm⟩
  by_contra hne
  exact (liveIntervals_distinct f).forall hi (hmem j hj) hne hvalue

/-- An interval of the numbering is live when it is grown over the spans. -/
theorem grow_mem_liveIntervals
    {f : Function} {r : Register} {i : Interval} {spans : List Interval}
    (hspans : (Numbering.function f).backwardSpans f = spans)
    (hi : (Numbering.function f).intervals[r]? = some i) :
    i.grow spans ∈ liveIntervals f :=
  (mem_liveIntervals f _).mpr ⟨r, i, hi, by rw [hspans]⟩

/-- A register that the numbering meets has a live interval. -/
theorem exists_liveInterval_of_numbered
    {f : Function} {r : Register} {i : Interval}
    (hi : (Numbering.function f).intervals[r]? = some i) :
    ∃ j ∈ liveIntervals f, j.value = r := by
  refine ⟨i.grow _, grow_mem_liveIntervals rfl hi, ?_⟩
  rw [Interval.grow_value]
  exact (Numbering.function_begun f r i hi).1

/-- A register that is covered has an interval. -/
theorem exists_liveInterval
    {f : Function} {r : Register} {p : Int}
    (h : Covers (Numbering.function f).intervals r p) :
    ∃ i ∈ liveIntervals f, i.value = r := by
  obtain ⟨i, hi, _⟩ := h
  exact exists_liveInterval_of_numbered hi

/-- The interval of a register that is covered is the one that covers it, grown. -/
theorem grow_of_mem_liveIntervals
    {f : Function} {r : Register} {i : Interval}
    (hi : i ∈ liveIntervals f)
    (hr : i.value = r) :
    ∃ j : Interval, (Numbering.function f).intervals[r]? = some j ∧
      i = j.grow ((Numbering.function f).backwardSpans f) := by
  obtain ⟨s, j, hj, rfl⟩ := (mem_liveIntervals f i).mp hi
  rw [Interval.grow_value, (Numbering.function_begun f s j hj).1] at hr
  subst hr
  exact ⟨j, hj, rfl⟩

end LiveIntervals

section Allocation

/-- What the scan of a function keeps holds of its result. -/
theorem allocate_valid (count : Nat) (f : Function) :
    (∃ now, Scan.Valid (liveIntervals f).reverse now
      ((liveIntervals f).foldl (Scan.step count) {})) ∧
      Scan.Bounded count ((liveIntervals f).foldl (Scan.step count) {}) := by
  have hb : Scan.Bounded count {} := ⟨by simp, by simp, by simp⟩
  cases hf : liveIntervals f with
  | nil =>
      exact ⟨⟨0, Scan.valid_empty 0⟩, hb⟩
  | cons i is =>
      have hsort := liveIntervals_byStart f
      have hdistinct := liveIntervals_distinct f
      rw [hf] at hsort hdistinct
      have hnow : ∀ j ∈ i :: is, i.start ≤ j.start := by
        intro j hj
        rcases List.mem_cons.mp hj with rfl | hj
        · exact Int.le_refl _
        · exact (List.pairwise_cons.mp hsort).1 j hj
      obtain ⟨now, hv, hb'⟩ := Scan.foldl_step_valid (i :: is) (Scan.valid_empty i.start) hb
        hnow hsort (by simp) hdistinct
      rw [List.append_nil] at hv
      exact ⟨⟨now, hv⟩, hb'⟩

/-- Registers with overlapping intervals are not given the same machine register. -/
theorem place?_ne_of_overlaps
    {f : Function} {i j : Interval}
    (hi : i ∈ liveIntervals f)
    (hj : j ∈ liveIntervals f)
    (hne : i.value ≠ j.value)
    (hover : i.overlaps j = true)
    (count k : Nat)
    (hk : (allocate count f).place? i.value = some (.machine k)) :
    (allocate count f).place? j.value ≠ some (.machine k) := by
  intro hk'
  obtain ⟨⟨now, hv⟩, _⟩ := allocate_valid count f
  have hapart := hv.apart i (by simpa using hi) j (by simpa using hj) hne k hk hk'
  rw [hover] at hapart
  exact absurd hapart (by decide)

end Allocation

section Interference

variable {f : Function} {x v : Register} {p q u : Point}

/-- Where a register is written on the way from a write to a read of another one, the intervals
of the two overlap. -/
theorem overlaps_of_flow
    (hids : DistinctBlocks f)
    (hx : Writes f p x)
    (hq : Writes f q v)
    (hu : Reads f u v)
    (hqp : ReflTransGen (Flow f) q p)
    (hpu : ReflTransGen (Flow f) p u)
    {i j : Interval}
    (hi : i ∈ liveIntervals f)
    (hj : j ∈ liveIntervals f)
    (hix : i.value = x)
    (hjv : j.value = v) :
    i.overlaps j = true := by
  obtain ⟨i', hi', rfl⟩ := grow_of_mem_liveIntervals hi hix
  obtain ⟨j', hj', rfl⟩ := grow_of_mem_liveIntervals hj hjv
  obtain ⟨a, ha, hap⟩ := covers_of_writes hx
  obtain ⟨b, hb, hbq⟩ := covers_of_writes hq
  obtain ⟨c, hc, hcu⟩ := covers_of_reads hu
  obtain rfl : a = i' := Option.some.inj (ha.symm.trans hi')
  obtain rfl : b = j' := Option.some.inj (hb.symm.trans hj')
  obtain rfl : c = b := Option.some.inj (hc.symm.trans hj')
  exact overlaps_of_detour (flow_backwardAlong hids) (Numbering.backwardSpans_byStop hids)
    hap hbq hcu (step_of_flow hqp) (step_of_flow hpu)

/-- Such registers are not given the same machine register. -/
theorem place?_ne_of_flow
    (hids : DistinctBlocks f)
    (hne : v ≠ x)
    (hx : Writes f p x)
    (hq : Writes f q v)
    (hu : Reads f u v)
    (hqp : ReflTransGen (Flow f) q p)
    (hpu : ReflTransGen (Flow f) p u)
    (count k : Nat)
    (hk : (allocate count f).place? x = some (.machine k)) :
    (allocate count f).place? v ≠ some (.machine k) := by
  obtain ⟨i, hi, rfl⟩ := exists_liveInterval (covers_of_writes hx)
  obtain ⟨j, hj, rfl⟩ := exists_liveInterval (covers_of_writes hq)
  have hover := overlaps_of_flow hids hx hq hu hqp hpu hi hj rfl rfl
  exact place?_ne_of_overlaps hi hj (fun h => hne h.symm) hover count k hk

/-- **Interference is sound for every control-flow graph.**  An instruction writes a register while
another one holds a value, written earlier on some way here, that can still be read on some way
from here.  Then the intervals of the two overlap, and whatever the number of machine registers,
the two do not share one. -/
theorem interferes_of_live
    (hids : DistinctBlocks f)
    (hne : v ≠ x)
    (hx : Writes f p x)
    (hholds : Holds f v p)
    (hlive : LiveAfter f v p) :
    (∃ i ∈ liveIntervals f, i.value = x) ∧
      (∃ j ∈ liveIntervals f, j.value = v) ∧
      (∀ i ∈ liveIntervals f, ∀ j ∈ liveIntervals f,
        i.value = x → j.value = v → i.overlaps j = true) ∧
      ∀ count k : Nat, (allocate count f).place? x = some (.machine k) →
        (allocate count f).place? v ≠ some (.machine k) := by
  obtain ⟨q, q', hq, hqq', hq'p⟩ := hholds
  obtain ⟨p', u, hpp', hp'u, hu⟩ := hlive
  have hqp : ReflTransGen (Flow f) q p := ReflTransGen.head hqq' (flow_of_keeps hq'p)
  have hpu : ReflTransGen (Flow f) p u := ReflTransGen.head hpp' (flow_of_keeps hp'u)
  refine ⟨exists_liveInterval (covers_of_writes hx), exists_liveInterval (covers_of_writes hq),
    ?_, ?_⟩
  · intro i hi j hj hix hjv
    exact overlaps_of_flow hids hx hq hu hqp hpu hi hj hix hjv
  · intro count k hk
    exact place?_ne_of_flow hids hne hx hq hu hqp hpu count k hk

/-- Two loops that overlap without one lying in the other.  The interval of register 1 ends up
behind the block that writes register 0. -/
def overlappingLoops : Function :=
  { name := "loops"
    blocks := #[
      ⟨0, #[.loadConst 0 (.int 1)], .jump 1, true⟩,
      ⟨1, #[], .branch 3 0 2, true⟩,
      ⟨2, #[.binary .add 2 1 1, .loadConst 1 (.int 2)], .branch 3 1 3, true⟩,
      ⟨3, #[], .ret (some 2), true⟩] }

theorem overlappingLoops_interferes :
    Writes overlappingLoops ⟨0, 0⟩ 0 ∧ Holds overlappingLoops 1 ⟨0, 0⟩ ∧
      LiveAfter overlappingLoops 1 ⟨0, 0⟩ ∧
      ∀ count k : Nat, (allocate count overlappingLoops).place? 0 = some (.machine k) →
        (allocate count overlappingLoops).place? 1 ≠ some (.machine k) := by
  have hwrites : Writes overlappingLoops ⟨0, 0⟩ 0 := by decide
  have hin : Flow overlappingLoops ⟨0, 0⟩ ⟨0, 1⟩ := .next rfl (by decide)
  have hdown : Flow overlappingLoops ⟨0, 1⟩ ⟨1, 0⟩ := .jump rfl rfl rfl (by decide)
  have hback : Flow overlappingLoops ⟨1, 0⟩ ⟨0, 0⟩ := .jump rfl rfl rfl (by decide)
  have hon : Flow overlappingLoops ⟨1, 0⟩ ⟨2, 0⟩ := .jump rfl rfl rfl (by decide)
  have hout : Flow overlappingLoops ⟨2, 1⟩ ⟨2, 2⟩ := .next rfl (by decide)
  have hagain : Flow overlappingLoops ⟨2, 2⟩ ⟨1, 0⟩ := .jump rfl rfl rfl (by decide)
  have hholds : Holds overlappingLoops 1 ⟨0, 0⟩ := by
    refine ⟨⟨2, 1⟩, ⟨2, 2⟩, by decide, hout, ?_⟩
    exact .head ⟨hagain, by decide⟩ (.head ⟨hback, by decide⟩ .refl)
  have hlive : LiveAfter overlappingLoops 1 ⟨0, 0⟩ := by
    refine ⟨⟨0, 1⟩, ⟨2, 0⟩, hin, ?_, _, rfl, Or.inl ⟨_, rfl, by decide⟩⟩
    exact .head ⟨hdown, by decide⟩ (.head ⟨hon, by decide⟩ .refl)
  exact ⟨hwrites, hholds, hlive,
    (interferes_of_live (by decide) (by decide) hwrites hholds hlive).2.2.2⟩

end Interference

end Allocation
end StackNative
