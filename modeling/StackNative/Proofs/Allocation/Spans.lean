import Mathlib.Logic.Relation
import Mathlib.Tactic.ByContra
import Mathlib.Tactic.SplitIfs
import StackNative.Allocation.Interval

/-!
# Growing over the spans of backward jumps

**Input.**  The spans of the backward jumps of a function, in the order of their
ends, and a step relation on positions that goes backward only along a span.

**Algorithm.**  Each interval is grown over the spans once, in that order; no
fixed point is sought.

**Results.**
* `reach_le_stop`: an interval that holds the end of a chain of steps reaches up
  to the beginning of the chain, once all spans that the chain can use are done.
* `overlaps_of_detour`: a chain of steps that leaves an interval, meets another
  one and comes back makes the two grown intervals overlap.
-/

namespace StackNative
namespace Allocation

open Relation (ReflTransGen)

section Crossing

variable {α : Type} {R : α → α → Prop}

/-- A chain that ends inside a set lies inside it, or enters it a last time. -/
theorem stays_or_enters
    {P : α → Prop} {x y : α}
    (hxy : ReflTransGen R x y)
    (hy : P y) :
    ReflTransGen (fun a b => R a b ∧ P a ∧ P b) x y ∧ P x ∨
      ∃ a b, ReflTransGen R x a ∧ R a b ∧ ¬ P a ∧ P b ∧
        ReflTransGen (fun a b => R a b ∧ P a ∧ P b) b y := by
  induction hxy using ReflTransGen.head_induction_on with
  | refl =>
      exact Or.inl ⟨ReflTransGen.refl, hy⟩
  | @head a c hac _ ih =>
      rcases ih with ⟨hin, hc⟩ | ⟨u, w, hcu, huw, hu, hw, hwy⟩
      · by_cases ha : P a
        · exact Or.inl ⟨ReflTransGen.head ⟨hac, ha, hc⟩ hin, ha⟩
        · exact Or.inr ⟨a, c, ReflTransGen.refl, hac, ha, hc, hin⟩
      · exact Or.inr ⟨u, w, ReflTransGen.head hac hcu, huw, hu, hw, hwy⟩

/-- A chain from outside a set to its inside enters it a last time. -/
theorem exists_last_entry
    {P : α → Prop} {x y : α}
    (hxy : ReflTransGen R x y)
    (hx : ¬ P x)
    (hy : P y) :
    ∃ a b, R a b ∧ ¬ P a ∧ P b ∧
      ReflTransGen (fun a b => R a b ∧ P a ∧ P b) b y := by
  rcases stays_or_enters hxy hy with ⟨_, hin⟩ | ⟨a, b, _, hab, ha, hb, hby⟩
  · exact absurd hin hx
  · exact ⟨a, b, hab, ha, hb, hby⟩

end Crossing

namespace Interval

/-- The interval has a position. -/
def Has (i : Interval) (p : Int) : Prop := i.start ≤ p ∧ p ≤ i.stop

/-- An interval lies within another one. -/
def Within (i j : Interval) : Prop := j.start ≤ i.start ∧ i.stop ≤ j.stop

theorem Within.refl (i : Interval) : i.Within i := ⟨Int.le_refl _, Int.le_refl _⟩

theorem Within.trans
    {i j k : Interval}
    (hij : i.Within j)
    (hjk : j.Within k) :
    i.Within k :=
  ⟨Int.le_trans hjk.1 hij.1, Int.le_trans hij.2 hjk.2⟩

theorem Has.mono
    {i j : Interval} {p : Int}
    (hp : i.Has p)
    (hij : i.Within j) :
    j.Has p :=
  ⟨Int.le_trans hij.1 hp.1, Int.le_trans hp.2 hij.2⟩

theorem overlaps_iff (i j : Interval) :
    i.overlaps j = true ↔ i.start ≤ j.stop ∧ j.start ≤ i.stop := by
  simp [overlaps]

theorem overlaps_of_has
    {i j : Interval} {p : Int}
    (hi : i.Has p)
    (hj : j.Has p) :
    i.overlaps j = true := by
  rw [overlaps_iff]
  exact ⟨Int.le_trans hi.1 hj.2, Int.le_trans hj.1 hi.2⟩

theorem within_cover (i span : Interval) : i.Within (i.cover span) := by
  unfold cover
  split_ifs
  · exact ⟨Int.min_le_left _ _, Int.le_max_left _ _⟩
  · exact Within.refl i

theorem span_within_cover
    {i span : Interval}
    (h : i.overlaps span = true) :
    span.Within (i.cover span) := by
  unfold cover
  rw [if_pos h]
  exact ⟨Int.min_le_right _ _, Int.le_max_right _ _⟩

@[simp] theorem cover_value (i span : Interval) : (i.cover span).value = i.value := by
  unfold cover
  split_ifs <;> rfl

theorem cover_stop_cases (i span : Interval) :
    (i.cover span).stop = i.stop ∨ (i.cover span).stop = span.stop := by
  unfold cover
  split_ifs
  · exact Int.max_def i.stop span.stop ▸ by split_ifs <;> simp
  · exact Or.inl rfl

/-- The interval grown over spans, one after the other. -/
def grow (i : Interval) (spans : List Interval) : Interval := spans.foldl cover i

@[simp] theorem grow_cons (i span : Interval) (spans : List Interval) :
    i.grow (span :: spans) = (i.cover span).grow spans := rfl

theorem grow_append (i : Interval) (xs ys : List Interval) :
    i.grow (xs ++ ys) = (i.grow xs).grow ys :=
  List.foldl_append

@[simp] theorem grow_value (i : Interval) (spans : List Interval) :
    (i.grow spans).value = i.value := by
  induction spans generalizing i with
  | nil =>
      rfl
  | cons span spans ih =>
      rw [grow_cons, ih, cover_value]

theorem within_grow (i : Interval) (spans : List Interval) : i.Within (i.grow spans) := by
  induction spans generalizing i with
  | nil =>
      exact Within.refl i
  | cons span spans ih =>
      exact (within_cover i span).trans (ih (i.cover span))

/-- A span that meets the interval at its turn is covered in the end. -/
theorem span_within_grow
    {i span : Interval} {earlier later : List Interval}
    (h : (i.grow earlier).overlaps span = true) :
    span.Within (i.grow (earlier ++ span :: later)) := by
  rw [grow_append, grow_cons]
  exact (span_within_cover h).trans (within_grow _ later)

/-- The end of a grown interval is its own end or that of a span. -/
theorem grow_stop_cases (i : Interval) (spans : List Interval) :
    (i.grow spans).stop = i.stop ∨ ∃ s ∈ spans, (i.grow spans).stop = s.stop := by
  induction spans generalizing i with
  | nil =>
      exact Or.inl rfl
  | cons span spans ih =>
      rw [grow_cons]
      rcases ih (i.cover span) with h | ⟨s, hs, h⟩
      · rcases cover_stop_cases i span with hc | hc
        · exact Or.inl (h.trans hc)
        · exact Or.inr ⟨span, List.mem_cons_self, h.trans hc⟩
      · exact Or.inr ⟨s, List.mem_cons_of_mem _ hs, h⟩

end Interval

section Chains

variable {E : Int → Int → Prop} {spans : List Interval}

/-- Steps that do not go forward go from the end of a span to its start. -/
def BackwardAlong (E : Int → Int → Prop) (spans : List Interval) : Prop :=
  ∀ a b, E a b → b ≤ a → ∃ s ∈ spans, s.start = b ∧ s.stop = a

/-- Spans stand in the order of their ends. -/
def ByStop (spans : List Interval) : Prop := spans.Pairwise fun s t => s.stop ≤ t.stop

theorem ByStop.le_of_split
    {earlier later : List Interval} {span : Interval}
    (h : ByStop (earlier ++ span :: later)) :
    ∀ s ∈ span :: later, span.stop ≤ s.stop := by
  intro s hs
  rcases List.mem_cons.mp hs with rfl | hs
  · exact Int.le_refl _
  · exact (List.pairwise_cons.mp (List.pairwise_append.mp h).2.1).1 s hs

/-- The chain lies below `bound` and every span that ends below `bound` is among the `earlier`
ones.  Then the interval, which has the end of the chain, reaches up to its beginning.  The
induction is on the earlier spans: the last step that enters what the interval has reached goes
along one of them, and at its turn the interval had reached the start of that span. -/
theorem reach_le_stop
    (hback : BackwardAlong E spans)
    (hsort : ByStop spans)
    {i : Interval} {p : Int}
    (hp : i.Has p) :
    ∀ (n : Nat) (earlier later : List Interval) (bound z : Int),
      earlier.length = n →
      spans = earlier ++ later →
      (∀ s ∈ later, bound ≤ s.stop) →
      ReflTransGen (fun a b => E a b ∧ a < bound ∧ b < bound) z p →
      z ≤ (i.grow earlier).stop := by
  intro n
  induction n using Nat.strongRecOn with
  | ind n ih =>
      intro earlier later bound z hn hsplit hlater hpath
      by_contra hz
      have hpstop : p ≤ (i.grow earlier).stop :=
        Int.le_trans hp.2 (Interval.within_grow i earlier).2
      obtain ⟨a, b, ⟨hab, halt, _⟩, ha, hb, hrest⟩ :=
        exists_last_entry (P := fun u => u ≤ (i.grow earlier).stop) hpath hz hpstop
      have ha' : (i.grow earlier).stop < a := by omega
      obtain ⟨s, hs, hstart, hstop⟩ := hback a b hab (by omega)
      have hsearlier : s ∈ earlier := by
        rcases List.mem_append.mp (hsplit ▸ hs) with h | h
        · exact h
        · have := hlater s h
          omega
      obtain ⟨before, after, rfl⟩ := List.append_of_mem hsearlier
      have hsplit' : spans = before ++ s :: (after ++ later) := by
        rw [hsplit]
        simp
      have hreach : b ≤ (i.grow before).stop := by
        refine ih before.length ?_ before (s :: (after ++ later)) a b rfl hsplit' ?_ ?_
        · rw [← hn]
          simp
        · intro t ht
          rw [← hstop]
          exact ByStop.le_of_split (hsplit' ▸ hsort) t ht
        · refine ReflTransGen.mono ?_ _ _ hrest
          rintro u w ⟨⟨huw, _⟩, hu, hw⟩
          exact ⟨huw, by omega, by omega⟩
      have hmeet : (i.grow before).overlaps s = true := by
        rw [Interval.overlaps_iff]
        have hlow : (i.grow before).start ≤ p :=
          Int.le_trans (Interval.within_grow i before).1 hp.1
        omega
      have hcover : s.Within (i.grow (before ++ s :: after)) :=
        Interval.span_within_grow hmeet
      have := hcover.2
      omega

variable {i j : Interval} {p q u : Int}

/-- A chain that comes back into a grown interval never was behind its end. -/
theorem le_grow_stop_of_return
    (hback : BackwardAlong E spans)
    (hsort : ByStop spans)
    (hu : j.Has u)
    (hpu : ReflTransGen E p u) :
    p ≤ (j.grow spans).stop := by
  by_contra hp
  have hustop : u ≤ (j.grow spans).stop :=
    Int.le_trans hu.2 (Interval.within_grow j spans).2
  obtain ⟨a, b, hab, ha, hb, _⟩ :=
    exists_last_entry (P := fun w => w ≤ (j.grow spans).stop) hpu hp hustop
  obtain ⟨s, hs, hstart, hstop⟩ := hback a b hab (by omega)
  obtain ⟨before, after, hsplit⟩ := List.append_of_mem hs
  have hgrown : (j.grow spans).stop = ((j.grow before).grow (s :: after)).stop := by
    rw [hsplit, Interval.grow_append]
  rcases Interval.grow_stop_cases (j.grow before) (s :: after) with h | ⟨t, ht, h⟩
  · have hmeet : (j.grow before).overlaps s = true := by
      rw [Interval.overlaps_iff]
      have hlow : (j.grow before).start ≤ u :=
        Int.le_trans (Interval.within_grow j before).1 hu.1
      omega
    have hcover : s.Within (j.grow spans) := by
      rw [hsplit]
      exact Interval.span_within_grow hmeet
    have := hcover.2
    omega
  · have := ByStop.le_of_split (hsplit ▸ hsort) t ht
    omega

/-- A chain that leaves an interval downward makes what it meets there reach back into the
interval. -/
theorem overlaps_of_descent
    (hback : BackwardAlong E spans)
    (hsort : ByStop spans)
    (hp : i.Has p)
    (hq : j.Has q)
    (hqp : ReflTransGen E q p)
    (hlow : p < (j.grow spans).start) :
    (i.grow spans).overlaps (j.grow spans) = true := by
  have hj := Interval.within_grow j spans
  have hqlow : ¬ q < (j.grow spans).start := by
    have := hj.1
    have := hq.1
    omega
  obtain ⟨a, b, hab, ha, hb, hrest⟩ :=
    exists_last_entry (P := fun w => w < (j.grow spans).start) hqp hqlow hlow
  obtain ⟨s, hs, hstart, hstop⟩ := hback a b hab (by omega)
  obtain ⟨before, after, hsplit⟩ := List.append_of_mem hs
  have hlater : ∀ t ∈ s :: after, (j.grow spans).start ≤ t.stop := by
    intro t ht
    have := ByStop.le_of_split (hsplit ▸ hsort) t ht
    omega
  have hreach : b ≤ (i.grow before).stop :=
    reach_le_stop hback hsort hp _ before (s :: after) _ b rfl hsplit hlater hrest
  have hmeet : (i.grow before).overlaps s = true := by
    rw [Interval.overlaps_iff]
    have hstart' : (i.grow before).start ≤ p :=
      Int.le_trans (Interval.within_grow i before).1 hp.1
    omega
  have hcover : s.Within (i.grow spans) := by
    rw [hsplit]
    exact Interval.span_within_grow hmeet
  rw [Interval.overlaps_iff]
  have h1 := hcover.1
  have h2 := hcover.2
  have h3 := hj.1
  have h4 := hj.2
  have h5 := hq.1
  have h6 := hq.2
  omega

/-- A chain that leaves an interval, meets another one and comes back makes the two overlap. -/
theorem overlaps_of_detour
    (hback : BackwardAlong E spans)
    (hsort : ByStop spans)
    (hp : i.Has p)
    (hq : j.Has q)
    (hu : j.Has u)
    (hqp : ReflTransGen E q p)
    (hpu : ReflTransGen E p u) :
    (i.grow spans).overlaps (j.grow spans) = true := by
  by_cases hlow : p < (j.grow spans).start
  · exact overlaps_of_descent hback hsort hp hq hqp hlow
  · have hhigh := le_grow_stop_of_return hback hsort hu hpu
    have hjp : (j.grow spans).Has p := ⟨by omega, hhigh⟩
    exact Interval.overlaps_of_has (hp.mono (Interval.within_grow i spans)) hjp

end Chains

end Allocation
end StackNative
