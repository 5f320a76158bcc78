import StackNative.Proofs.X64.Frame

/-!
# Every register of a function has a place

**Input.**  A function and the number of machine registers.

**Results.**
* `exists_liveInterval_iff`: the registers with a live interval are those that
  occur in the function.
* `exists_place`: each of them is given a place.
* `spillCount_le_of_occurs`: where only so many registers can occur, there are no
  more spill slots.
-/

namespace StackNative
namespace Allocation

open Ir (Register Function Block)

/-- A register is a parameter, is read or is written. -/
def Occurs (f : Function) (r : Register) : Prop :=
  (∃ p ∈ f.params, p.register = r) ∨
    ∃ b ∈ f.blocks, (∃ i ∈ b.instructions, r ∈ i.uses ++ i.dest?.toList) ∨ r ∈ b.terminator.uses

section Numbering

variable {r : Register}

theorem mem_touch (p : Int) (is : Intervals) (s : Register) :
    r ∈ touch p is s ↔ r ∈ is ∨ r = s := by
  rw [Std.HashMap.mem_iff_isSome_getElem?, Std.HashMap.mem_iff_isSome_getElem?, getElem?_touch]
  by_cases h : s = r
  · simp [h]
  · simp [h, Ne.symm h]

theorem mem_foldl_touch (p : Int) (rs : List Register) (is : Intervals) :
    r ∈ rs.foldl (touch p) is ↔ r ∈ is ∨ r ∈ rs := by
  induction rs generalizing is with
  | nil =>
      simp
  | cons s rs ih =>
      rw [List.foldl_cons, ih, mem_touch, List.mem_cons, or_assoc]

theorem mem_foldl_instruction (is : List Ir.Instruction) (n : Numbering) :
    r ∈ (is.foldl Numbering.instruction n).intervals ↔
      r ∈ n.intervals ∨ ∃ i ∈ is, r ∈ i.uses ++ i.dest?.toList := by
  induction is generalizing n with
  | nil =>
      simp
  | cons i is ih =>
      rw [List.foldl_cons, ih, Numbering.instruction, mem_foldl_touch, or_assoc,
        List.exists_mem_cons_iff]

theorem mem_block (n : Numbering) (b : Block) :
    r ∈ (n.block b).intervals ↔
      r ∈ n.intervals ∨ (∃ i ∈ b.instructions, r ∈ i.uses ++ i.dest?.toList) ∨
        r ∈ b.terminator.uses := by
  rw [Numbering.block_intervals, mem_foldl_touch, mem_foldl_instruction, or_assoc]
  simp

theorem mem_foldl_block (bs : List Block) (n : Numbering) :
    r ∈ (bs.foldl Numbering.block n).intervals ↔
      r ∈ n.intervals ∨ ∃ b ∈ bs,
        (∃ i ∈ b.instructions, r ∈ i.uses ++ i.dest?.toList) ∨ r ∈ b.terminator.uses := by
  induction bs generalizing n with
  | nil =>
      simp
  | cons b bs ih =>
      rw [List.foldl_cons, ih, mem_block, or_assoc, List.exists_mem_cons_iff]

theorem mem_params (f : Function) :
    r ∈ Numbering.params f ↔ ∃ p ∈ f.params, p.register = r := by
  unfold Numbering.params
  suffices h : ∀ (ps : List Ir.Param) (is : Intervals),
      r ∈ ps.foldl (fun is p => is.insert p.register ⟨p.register, 0, 0, true⟩) is ↔
        r ∈ is ∨ ∃ p ∈ ps, p.register = r by
    simpa using h f.params ∅
  intro ps
  induction ps with
  | nil =>
      simp
  | cons p ps ih =>
      intro is
      rw [List.foldl_cons, ih, Std.HashMap.mem_insert, beq_iff_eq, List.exists_mem_cons_iff,
        or_comm (a := p.register = r), or_assoc]

/-- The registers with a live interval are those that occur. -/
theorem exists_liveInterval_iff (f : Function) (r : Register) :
    (∃ i ∈ liveIntervals f, i.value = r) ↔ Occurs f r := by
  have hmem : r ∈ (Numbering.function f).intervals ↔ Occurs f r := by
    rw [Numbering.function_eq, mem_foldl_block, mem_params, Occurs]
    simp
  rw [← hmem, Std.HashMap.mem_iff_isSome_getElem?, Option.isSome_iff_exists]
  constructor
  · rintro ⟨i, hi, hr⟩
    obtain ⟨j, hj, _⟩ := grow_of_mem_liveIntervals hi hr
    exact ⟨j, hj⟩
  · rintro ⟨j, hj⟩
    exact exists_liveInterval_of_numbered hj

end Numbering

section Places

variable {r : Register} {i : Interval}

theorem mem_places_step
    {s : Scan}
    (count : Nat)
    (h : r ∈ s.places ∨ i.value = r) :
    r ∈ (s.step count i).places := by
  have hspill : ∀ {s : Scan} {j : Interval}, r ∈ s.places ∨ j.value = r →
      r ∈ (s.spill j).places := by
    intro s j h
    rw [Scan.spill, Std.HashMap.mem_insert, beq_iff_eq]
    exact h.symm
  have hhold : ∀ {s : Scan} {index : Nat}, r ∈ s.places ∨ i.value = r →
      r ∈ (s.hold i index).places := by
    intro s index h
    rw [Scan.hold, Std.HashMap.mem_insert, beq_iff_eq]
    exact h.symm
  have hexpire : r ∈ (s.expire i.start).places ∨ i.value = r := h
  unfold Scan.step
  dsimp only
  split
  · exact hspill hexpire
  · split
    · exact hhold hexpire
    · unfold Scan.contend
      split
      · exact hspill hexpire
      · split
        · -- the interval that gives way keeps a place: its spill slot
          refine hhold (h.imp ?_ id)
          intro hr
          exact hspill (Or.inl hr)
        · exact hspill hexpire

theorem mem_places_foldl
    (count : Nat)
    (is : List Interval)
    {s : Scan}
    (h : r ∈ s.places ∨ ∃ i ∈ is, i.value = r) :
    r ∈ (is.foldl (Scan.step count) s).places := by
  induction is generalizing s with
  | nil =>
      simpa using h
  | cons i is ih =>
      rw [List.foldl_cons]
      refine ih ?_
      rw [List.exists_mem_cons_iff, ← or_assoc] at h
      exact h.imp_left (mem_places_step count)

/-- A register that occurs is given a place. -/
theorem exists_place
    {f : Function}
    (count : Nat)
    (h : Occurs f r) :
    ∃ place, (allocate count f).place? r = some place := by
  have hmem : r ∈ ((liveIntervals f).foldl (Scan.step count) {}).places :=
    mem_places_foldl count _ (Or.inr ((exists_liveInterval_iff f r).mpr h))
  rw [Std.HashMap.mem_iff_isSome_getElem?, Option.isSome_iff_exists] at hmem
  exact hmem

/-- Where only the first registers occur, there are no more spill slots than those. -/
theorem spillCount_le_of_occurs
    {f : Function} {n : Nat}
    (count : Nat)
    (h : ∀ r, Occurs f r → r.toNat < n) :
    (allocate count f).spillCount ≤ n := by
  have hnodup : ((liveIntervals f).map fun i => i.value.toNat).Nodup := by
    rw [List.Nodup, List.pairwise_map]
    refine (liveIntervals_distinct f).imp ?_
    intro i j hne heq
    exact hne (UInt32.toNat_inj.mp heq)
  have hsubset : (liveIntervals f).map (fun i => i.value.toNat) ⊆ List.range n := by
    intro k hk
    obtain ⟨i, hi, rfl⟩ := List.mem_map.mp hk
    exact List.mem_range.mpr (h i.value ((exists_liveInterval_iff f i.value).mp ⟨i, hi, rfl⟩))
  have hlength := (hnodup.subperm hsubset).length_le
  rw [List.length_map, List.length_range] at hlength
  have hslots : (allocate count f).spillCount ≤ 0 + (liveIntervals f).length :=
    slots_foldl_step count (liveIntervals f) {}
  omega

end Places

end Allocation
end StackNative
