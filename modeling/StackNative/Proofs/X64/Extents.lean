import Mathlib.Algebra.Order.BigOperators.Group.List
import Mathlib.Data.Int.ConditionallyCompleteOrder
import Mathlib.Data.Int.Interval
import Mathlib.Tactic.IntervalCases
import StackNative.Proofs.Allocation.Places
import StackNative.Proofs.Ir.Interpreter
import StackNative.X64.Codegen

/-!
# The bytes of a frame

**Input.**  A function whose frame is laid out, with its local variables, the areas
it reserves and its spill slots.

**Algorithm.**  Each part takes whole words below the parts before it.  Sizes are
added in 64-bit integers, which go round, and only the last sum is compared with the
largest frame.

**Results.**
* `wellLaid_iff_frameBytes_lt`: the parts of a frame that is laid out lie inside it
  and apart exactly when the bytes they need, counted without bound, are fewer
  than `2 ^ 31`.
* `immense_not_wellLaid`: one area can be so large that the sum goes round, and then
  it does not lie inside the frame that is laid out.
-/

namespace StackNative
namespace X64

open Ir (Register)

/-- Consecutive bytes, the first by its offset from the frame base. -/
structure Extent where
  start : Int
  size : Nat
  deriving DecidableEq, Repr

namespace Extent

/-- Two extents share no byte. -/
def Apart (e e' : Extent) : Prop :=
  e.start + e.size ≤ e'.start ∨ e'.start + e'.size ≤ e.start

/-- An extent lies between two offsets. -/
def Within (low high : Int) (e : Extent) : Prop :=
  low ≤ e.start ∧ e.start + e.size ≤ high

/-- Extents that lie between two offsets and share no byte. -/
structure Packed (low high : Int) (es : List Extent) : Prop where
  apart : es.Pairwise Apart
  within : ∀ e ∈ es, e.Within low high

section Packing

variable {low middle high : Int} {es es' : List Extent}

theorem Packed.nil : Packed low high [] :=
  ⟨List.Pairwise.nil, nofun⟩

theorem Packed.singleton
    {e : Extent}
    (h : e.Within low high) :
    Packed low high [e] :=
  ⟨List.pairwise_singleton _ _, by simpa using h⟩

/-- What lies below an offset goes behind what lies above it. -/
theorem Packed.append
    (habove : Packed middle high es)
    (hbelow : Packed low middle es')
    (hlow : low ≤ middle)
    (hhigh : middle ≤ high) :
    Packed low high (es ++ es') where
  apart := by
    rw [List.pairwise_append]
    refine ⟨habove.apart, hbelow.apart, ?_⟩
    intro e he e' he'
    obtain ⟨hstart, -⟩ := habove.within e he
    obtain ⟨-, hend⟩ := hbelow.within e' he'
    exact Or.inr (Int.le_trans hend hstart)
  within := by
    intro e he
    rcases List.mem_append.mp he with he | he
    · obtain ⟨hstart, hend⟩ := habove.within e he
      exact ⟨Int.le_trans hlow hstart, hend⟩
    · obtain ⟨hstart, hend⟩ := hbelow.within e he
      exact ⟨hstart, Int.le_trans hend hhigh⟩

theorem Packed.mono
    {low' : Int}
    (h : Packed low high es)
    (hlow : low' ≤ low) :
    Packed low' high es :=
  ⟨h.apart, fun e he => ⟨Int.le_trans hlow (h.within e he).1, (h.within e he).2⟩⟩

/-- Words one below the other. -/
theorem packed_words
    (base : Int)
    (n : Nat) :
    Packed (base - 8 * n) base ((List.range n).map fun k : Nat => ⟨base - 8 * (k + 1), 8⟩) := by
  induction n with
  | zero =>
      exact Packed.nil
  | succ n ih =>
      rw [List.range_succ, List.map_append, List.map_singleton]
      refine ih.append (Packed.singleton ?_) (by omega) (by omega)
      constructor <;> simp only <;> omega

/-- The bytes of an extent. -/
noncomputable def bytes (e : Extent) : Finset Int := Finset.Ico e.start (e.start + e.size)

/-- The bytes of all extents of a list. -/
noncomputable def cover (es : List Extent) : Finset Int := es.foldr (fun e rest => e.bytes ∪ rest) ∅

theorem mem_cover
    {x : Int} :
    x ∈ cover es ↔ ∃ e ∈ es, x ∈ e.bytes := by
  induction es with
  | nil =>
      simp [cover]
  | cons e es ih =>
      rw [cover, List.foldr_cons, Finset.mem_union, ← cover, ih]
      simp

theorem card_cover
    (h : es.Pairwise Apart) :
    (cover es).card = (es.map size).sum := by
  induction es with
  | nil =>
      rfl
  | cons e es ih =>
      obtain ⟨hapart, hrest⟩ := List.pairwise_cons.mp h
      have hdisjoint : Disjoint e.bytes (cover es) := by
        rw [Finset.disjoint_left]
        intro x hx hcover
        obtain ⟨e', he', hx'⟩ := mem_cover.mp hcover
        rw [bytes, Finset.mem_Ico] at hx hx'
        rcases hapart e' he' with hle | hle <;> omega
      rw [cover, List.foldr_cons, ← cover, Finset.card_union_of_disjoint hdisjoint, ih hrest,
        bytes, Int.card_Ico, List.map_cons, List.sum_cons]
      omega

/-- Extents that share no byte are together no larger than the space they lie in. -/
theorem Packed.sum_size_le
    (h : Packed low high es) :
    (es.map size).sum ≤ (high - low).toNat := by
  rw [← card_cover h.apart, ← Int.card_Ico]
  apply Finset.card_le_card
  intro x hx
  obtain ⟨e, he, hx⟩ := mem_cover.mp hx
  obtain ⟨hstart, hend⟩ := h.within e he
  rw [bytes, Finset.mem_Ico] at hx
  rw [Finset.mem_Ico]
  omega

end Packing

end Extent

namespace Context

/-- The words of the local variables. -/
def localExtents (g : Context) : List Extent :=
  (List.range g.function.locals.size).filterMap fun slot : Nat =>
    match g.localOffset slot with
    | .ok offset => some ⟨offset.toInt, 8⟩
    | .error _ => none

/-- The areas that the function reserves. -/
def areaExtents (g : Context) : List Extent :=
  (reservations g.function).map fun i =>
    ⟨(g.frame.areaOffset (areaPointer i)).toInt, i.size.toNatClampNeg⟩

/-- The words of the spill slots. -/
def spillExtents (g : Context) : List Extent :=
  (List.range g.allocation.spillCount).map fun slot => ⟨(g.frame.slotOffset slot).toInt, 8⟩

/-- All that lies in the frame. -/
def extents (g : Context) : List Extent := g.localExtents ++ g.areaExtents ++ g.spillExtents

/-- The frame is a whole number of sixteen bytes, and its parts lie inside it and share no byte. -/
structure WellLaid (g : Context) : Prop where
  nonneg : 0 ≤ g.frame.size.toInt
  aligned : 16 ∣ g.frame.size.toInt
  packed : Extent.Packed (-g.frame.size.toInt) 0 g.extents

end Context

section Placement

theorem offset_reserve_self
    (a : Frame.Areas)
    (i : Ir.Instruction) :
    (a.reserve i).offsets.getD (areaPointer i) 0 = (-(a.reserve i).taken).toInt32 :=
  Std.HashMap.getD_insert_self

theorem offset_foldl_reserve
    {is : List Ir.Instruction}
    {r : Register}
    (h : r ∉ is.map areaPointer)
    (a : Frame.Areas) :
    (is.foldl Frame.Areas.reserve a).offsets.getD r 0 = a.offsets.getD r 0 := by
  induction is generalizing a with
  | nil =>
      rfl
  | cons i is ih =>
      rw [List.map_cons, List.mem_cons, not_or] at h
      obtain ⟨hne, hrest⟩ := h
      rw [List.foldl_cons, ih hrest, Frame.Areas.reserve, Std.HashMap.getD_insert,
        if_neg (by simpa using Ne.symm hne)]

theorem neg_toInt32_toInt
    {n : Int64}
    {m : Nat}
    (h : n.toInt = m)
    (hm : m < 2 ^ 31) :
    (-n).toInt32.toInt = -(m : Int) := by
  rw [Int64.toInt_toInt32, Int64.toInt_neg, h, Int.bmod_def, Int.bmod_def]
  omega

/-- Areas with pointers of their own lie one below the other. -/
theorem packed_areas
    {is : List Ir.Instruction}
    {a : Frame.Areas}
    {words : Nat}
    (htaken : a.taken.toInt = 8 * words)
    (hsizes : ∀ i ∈ is, 0 < i.size)
    (hpointers : (is.map areaPointer).Nodup)
    (hroom : 8 * (words + (is.map areaWords).sum) < 2 ^ 31) :
    Extent.Packed (-(8 * (words + (is.map areaWords).sum : Nat))) (-(8 * words))
      (is.map fun i =>
        ⟨((is.foldl Frame.Areas.reserve a).offsets.getD (areaPointer i) 0).toInt,
          i.size.toNatClampNeg⟩) := by
  induction is generalizing a words with
  | nil =>
      exact Extent.Packed.nil
  | cons i is ih =>
      obtain ⟨hsize, hsizes⟩ := List.forall_mem_cons.mp hsizes
      obtain ⟨hfresh, hpointers⟩ := List.nodup_cons.mp hpointers
      rw [List.map_cons, List.sum_cons] at hroom ⊢
      have hreserve := taken_reserve htaken hsize (by omega)
      have hrest := ih hreserve hsizes hpointers (by omega)
      have hoffset : (((i :: is).foldl Frame.Areas.reserve a).offsets.getD (areaPointer i) 0).toInt
          = -(8 * (words + areaWords i : Nat)) := by
        rw [List.foldl_cons, offset_foldl_reserve hfresh, offset_reserve_self]
        exact neg_toInt32_toInt (m := 8 * (words + areaWords i)) (by omega) (by omega)
      have hfirst : Extent.Packed (-(8 * (words + areaWords i : Nat))) (-(8 * words))
          [⟨-(8 * (words + areaWords i : Nat)), i.size.toNatClampNeg⟩] := by
        refine Extent.Packed.singleton ⟨Int.le_refl _, ?_⟩
        simp only [areaWords]
        omega
      rw [List.map_cons, hoffset, ← Nat.add_assoc]
      exact hfirst.append hrest (by omega) (by omega)

end Placement

namespace Context

variable {g : Context}

section Sizes

theorem localOffset_of_lt
    (g : Context)
    {slot : Nat}
    (h : slot < g.function.locals.size) :
    ∃ l, g.function.locals[slot]? = some l ∧ g.localOffset slot = .ok (-l.offset).toInt32 := by
  refine ⟨g.function.locals[slot], Array.getElem?_eq_getElem h, ?_⟩
  rw [localOffset, if_neg (by omega), Int.toNat_natCast, Array.getElem?_eq_getElem h]

theorem size_localExtents
    (g : Context) :
    (g.localExtents.map Extent.size).sum = 8 * g.function.locals.size := by
  have hsizes : g.localExtents.map Extent.size =
      (List.range g.function.locals.size).map fun _ => 8 := by
    rw [localExtents, List.map_filterMap, ← List.filterMap_eq_map]
    apply List.filterMap_congr
    intro slot hslot
    obtain ⟨l, -, hoffset⟩ := g.localOffset_of_lt (List.mem_range.mp hslot)
    rw [hoffset]
    rfl
  rw [hsizes]
  simp [Nat.mul_comm]

theorem areaWords_le_size
    (hsizes : ∀ i ∈ reservations g.function, 0 < i.size) :
    ((reservations g.function).map areaWords).sum ≤ (g.areaExtents.map Extent.size).sum := by
  rw [areaExtents, List.map_map]
  apply List.sum_le_sum
  intro i hi
  obtain ⟨-, hpos⟩ := toInt_of_pos (hsizes i hi)
  simp only [Function.comp_apply, areaWords]
  omega

theorem size_spillExtents
    (g : Context) :
    (g.spillExtents.map Extent.size).sum = 8 * g.allocation.spillCount := by
  rw [spillExtents, List.map_map]
  simp [Function.comp_def, Nat.mul_comm]

/-- Parts that lie inside a frame and apart need fewer than `2 ^ 31` words. -/
theorem WellLaid.reservedWords_lt
    (h : g.WellLaid)
    (hsizes : ∀ i ∈ reservations g.function, 0 < i.size) :
    reservedWords g.function + g.allocation.spillCount < 2 ^ 31 := by
  have hsum := h.packed.sum_size_le
  rw [extents, List.map_append, List.map_append, List.sum_append, List.sum_append,
    size_localExtents, size_spillExtents] at hsum
  have hareas := areaWords_le_size hsizes
  have hlimit := Int32.toInt_lt g.frame.size
  rw [reservedWords]
  omega

end Sizes

section Parts

theorem packed_localExtents
    (hlocals : g.function.LocalsInOrder)
    (hroom : 8 * g.function.locals.size < 2 ^ 31) :
    Extent.Packed (-(8 * g.function.locals.size)) 0 g.localExtents := by
  have hextents : g.localExtents =
      (List.range g.function.locals.size).map fun k : Nat => ⟨0 - 8 * (k + 1), 8⟩ := by
    rw [localExtents, ← List.filterMap_eq_map]
    apply List.filterMap_congr
    intro slot hslot
    rw [List.mem_range] at hslot
    obtain ⟨l, hl, hoffset⟩ := g.localOffset_of_lt hslot
    rw [hoffset]
    simp only [Function.comp_apply, Option.some.injEq, Extent.mk.injEq, and_true]
    rw [localOffset_toInt (hlocals slot l hl) (by omega)]
    omega
  rw [hextents]
  simpa using Extent.packed_words 0 g.function.locals.size

theorem packed_areaExtents
    (hsizes : ∀ i ∈ reservations g.function, 0 < i.size)
    (hpointers : ((reservations g.function).map areaPointer).Nodup)
    (hoffsets : g.frame.areas = (areas g.function).offsets)
    (hroom : 8 * reservedWords g.function < 2 ^ 31) :
    Extent.Packed (-(8 * reservedWords g.function)) (-(8 * g.function.locals.size))
      g.areaExtents := by
  rw [reservedWords] at hroom ⊢
  have hlocals : (Int64.ofNat g.function.frameSize).toInt = 8 * g.function.locals.size :=
    frameSize_toInt (by omega)
  simp only [areaExtents, Frame.areaOffset, hoffsets]
  exact packed_areas hlocals hsizes hpointers hroom

theorem packed_spillExtents
    {words : Nat}
    (hbase : g.frame.spillBase.toInt = 8 * words)
    (hroom : 8 * (words + g.allocation.spillCount) < 2 ^ 31) :
    Extent.Packed (-(8 * (words + g.allocation.spillCount : Nat))) (-(8 * words))
      g.spillExtents := by
  have hextents : g.spillExtents =
      (List.range g.allocation.spillCount).map fun k : Nat => ⟨-(8 * words) - 8 * (k + 1), 8⟩ := by
    apply List.map_congr_left
    intro slot hslot
    rw [slotOffset_toInt hbase hroom (List.mem_range.mp hslot)]
    congr 1
    omega
  rw [hextents]
  refine (Extent.packed_words (-(8 * words)) g.allocation.spillCount).mono ?_
  omega

end Parts

/-- A frame that is laid out holds its parts, inside it and apart, exactly when the bytes that they
need are fewer than `2 ^ 31`. -/
theorem wellLaid_iff_frameBytes_lt
    (hlocals : g.function.LocalsInOrder)
    (hpointers : ((reservations g.function).map areaPointer).Nodup)
    (hlayout : Frame.layout g.function g.allocation.spillCount = .ok g.frame) :
    g.WellLaid ↔ frameBytes g.function g.allocation.spillCount < 2 ^ 31 := by
  obtain ⟨hsizes, hlimit, hframe⟩ := layout_eq_ok_iff.mp hlayout
  constructor
  · intro h
    have hwords := h.reservedWords_lt hsizes
    rw [wrappedSize_toInt hsizes (by omega)] at hlimit
    omega
  · intro hbytes
    have hroom := le_frameBytes g.function g.allocation.spillCount
    have hsize : g.frame.size.toInt = frameBytes g.function g.allocation.spillCount := by
      rw [hframe, Int64.toInt_toInt32, wrappedSize_toInt hsizes (by omega), Int.bmod_def]
      omega
    have hbase : g.frame.spillBase.toInt = 8 * reservedWords g.function := by
      rw [hframe, Int64.toInt_toInt32, taken_areas hsizes (by omega), Int.bmod_def]
      omega
    refine ⟨by omega, ?_, ?_⟩
    · rw [hsize, frameBytes]
      omega
    · have hwords : g.function.locals.size ≤ reservedWords g.function := Nat.le_add_right _ _
      have hlocal := packed_localExtents hlocals (by omega)
      have harea := packed_areaExtents hsizes hpointers (by rw [hframe]) (by omega)
      have hspill := packed_spillExtents hbase (by omega)
      have hupper := hlocal.append harea (by omega) (by omega)
      exact (hupper.append hspill (by omega) (by omega)).mono (by omega)

end Context

section Examples

open Allocation (allocate)

/-- A parameter, two local variables, and two areas of sizes that are not whole words. -/
def patchwork : Ir.Function :=
  ({ name := "patchwork"
     params := [⟨0, .i64⟩]
     blocks := #[⟨0, #[.alloca 1 5, .storeLocal 1 0, .alloca 2 13], .ret (some 0), true⟩] :
    Ir.Function }.addLocal "a" .i64).addLocal "b" .i64

theorem patchwork_pointers : ((reservations patchwork).map areaPointer).Nodup := by
  decide

theorem patchwork_wellLaid :
    ∃ frame, Frame.layout patchwork (allocate valueRegs.length patchwork).spillCount = .ok frame ∧
      Context.WellLaid ⟨0, patchwork, allocate valueRegs.length patchwork, frame⟩ := by
  have hspills : (allocate valueRegs.length patchwork).spillCount ≤ 3 := by
    refine Allocation.spillCount_le_of_occurs valueRegs.length fun r hr => ?_
    simp [Allocation.Occurs, patchwork, Ir.Function.addLocal, Ir.Instruction.uses,
      Ir.Instruction.alloca, Ir.Instruction.storeLocal, Ir.Terminator.uses] at hr
    rcases hr with rfl | (rfl | rfl | rfl) | rfl <;> decide
  have hbytes : frameBytes patchwork (allocate valueRegs.length patchwork).spillCount < 2 ^ 31 := by
    have hwords : reservedWords patchwork = 5 := by decide
    rw [frameBytes, hwords]
    omega
  obtain ⟨frame, hframe⟩ := exists_layout_of_frameBytes_lt (f := patchwork) (by decide) hbytes
  refine ⟨frame, hframe, (Context.wellLaid_iff_frameBytes_lt ?_ ?_ hframe).mpr hbytes⟩
  · refine Ir.Function.LocalsInOrder.addLocal (Ir.Function.LocalsInOrder.addLocal ?_ _ _) _ _
    intro slot l hl
    simp at hl
  · exact patchwork_pointers

/-- One area of the largest size there is. -/
def immense : Ir.Function :=
  { name := "main"
    returnType := .i64
    blocks := #[⟨0, #[.alloca 0 9223372036854775807], .ret (some 0), true⟩] }

/-- The sum goes round, the function has a frame, and its area does not lie inside it. -/
theorem immense_not_wellLaid :
    immense.LocalsInOrder ∧ ((reservations immense).map areaPointer).Nodup ∧
    ∃ frame, Frame.layout immense (allocate valueRegs.length immense).spillCount = .ok frame ∧
      ¬ Context.WellLaid ⟨0, immense, allocate valueRegs.length immense, frame⟩ := by
  have hspills : (allocate valueRegs.length immense).spillCount ≤ 1 := by
    refine Allocation.spillCount_le_of_occurs valueRegs.length fun r hr => ?_
    simp [Allocation.Occurs, immense, Ir.Instruction.uses, Ir.Instruction.alloca,
      Ir.Terminator.uses] at hr
    rcases hr with rfl | rfl <;> decide
  have hsizes : ∀ i ∈ reservations immense, 0 < i.size := by decide
  have hsum : (wrappedSize immense (allocate valueRegs.length immense).spillCount).toInt <
      2 ^ 31 := by
    interval_cases (allocate valueRegs.length immense).spillCount <;> decide
  refine ⟨fun slot l hl => by simp [immense] at hl, by decide, _,
    layout_eq_ok_iff.mpr ⟨hsizes, hsum, rfl⟩, ?_⟩
  intro h
  have hwords := h.reservedWords_lt hsizes
  rw [show reservedWords immense = 2 ^ 60 by decide] at hwords
  omega

end Examples

end X64
end StackNative
