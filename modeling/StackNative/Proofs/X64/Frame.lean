import Mathlib.Data.Fintype.Card
import StackNative.Proofs.Allocation.Interference
import StackNative.Proofs.Results
import StackNative.Proofs.X64.Machine
import StackNative.X64.Frame

/-!
# Frames and their words

**Input.**  A function with its local variables and the areas it reserves, and the
number of its spill slots.

**Results.**
* `spillCount_le`: there are not more spill slots than registers.
* `layout_eq_ok_iff`: which functions have a frame, and which one.
* `wrappedSize_toInt`: the size of a frame is what its parts need, as long as the
  sum does not go round.
* `layout_spec`: a frame that is laid out without areas has room for the local
  variables and the spill slots.
* `read_cell_of_ne`: the words of a frame do not disturb each other.
-/

namespace StackNative

namespace Allocation

open Ir (Register Function)

section SpillCount

theorem slots_step
    (count : Nat)
    (s : Scan)
    (i : Interval) :
    (s.step count i).slots ≤ s.slots + 1 := by
  unfold Scan.step
  simp only
  split
  · exact Nat.le_refl _
  · split
    · exact Nat.le_succ _
    · unfold Scan.contend
      split
      · exact Nat.le_refl _
      · split <;> exact Nat.le_refl _

theorem slots_foldl_step
    (count : Nat)
    (is : List Interval)
    (s : Scan) :
    (is.foldl (Scan.step count) s).slots ≤ s.slots + is.length := by
  induction is generalizing s with
  | nil =>
      simp
  | cons i is ih =>
      have hstep := slots_step count s i
      have hrest := ih (s.step count i)
      rw [List.foldl_cons, List.length_cons]
      omega

theorem length_liveIntervals_le
    (f : Function) :
    (liveIntervals f).length ≤ 2 ^ 32 := by
  have hnodup : ((liveIntervals f).map fun i => i.value.toFin).Nodup := by
    rw [List.Nodup, List.pairwise_map]
    refine (liveIntervals_distinct f).imp ?_
    intro i j hne h
    exact hne (UInt32.toFin_inj.mp h)
  have hcard := hnodup.length_le_card
  rwa [List.length_map, Fintype.card_fin] at hcard

/-- There are not more spill slots than registers. -/
theorem spillCount_le
    (count : Nat)
    (f : Function) :
    (allocate count f).spillCount ≤ 2 ^ 32 := by
  have hslots : (allocate count f).spillCount ≤ 0 + (liveIntervals f).length :=
    slots_foldl_step count (liveIntervals f) {}
  have hlength := length_liveIntervals_le f
  omega

end SpillCount

end Allocation

namespace X64

open Ir (Register)

section Rounding

theorem and_not_add_and
    (x mask : Word) :
    (x &&& ~~~mask) + (x &&& mask) = x := by
  rw [BitVec.add_eq_or_of_and_eq_zero]
  · ext k
    cases hx : x[k] <;> cases hm : mask[k] <;> simp [hx, hm]
  · ext k
    cases hx : x[k] <;> cases hm : mask[k] <;> simp [hx, hm]

/-- Rounding up does not go round below `2 ^ 62`. -/
theorem roundUp_toInt
    {mask n : Int64}
    {k : Nat}
    (hk : k ≤ 32)
    (hmask : mask.toBitVec = BitVec.ofNat 64 (2 ^ k - 1))
    (hlow : 0 ≤ n.toInt)
    (hhigh : n.toInt < 2 ^ 62) :
    (Frame.roundUp mask n).toInt = ((n.toNatClampNeg + (2 ^ k - 1)) / 2 ^ k * 2 ^ k : Nat) := by
  have hpow : 2 ^ k ≤ 2 ^ 32 := Nat.pow_le_pow_right (by decide) hk
  have hpos : 0 < 2 ^ k := Nat.two_pow_pos k
  have hmaskNat : mask.toBitVec.toNat = 2 ^ k - 1 := by
    rw [hmask, BitVec.toNat_ofNat]
    omega
  have hn : n.toBitVec.toNat = n.toNatClampNeg := by
    have htoNat := BitVec.toInt_eq_toNat_cond n.toBitVec
    have hclamp : n.toNatClampNeg = n.toBitVec.toInt.toNat := rfl
    have htoInt : n.toInt = n.toBitVec.toInt := rfl
    omega
  have hclamp : (n.toNatClampNeg : Int) = n.toInt := Int.toNat_of_nonneg hlow
  have hsum : (n + mask).toBitVec.toNat = n.toNatClampNeg + (2 ^ k - 1) := by
    rw [Int64.toBitVec_add, BitVec.toNat_add, hn, hmaskNat]
    omega
  have hlow : ((n + mask).toBitVec &&& mask.toBitVec).toNat =
      (n.toNatClampNeg + (2 ^ k - 1)) % 2 ^ k := by
    rw [BitVec.toNat_and, hsum, hmaskNat, Nat.and_two_pow_sub_one_eq_mod]
  have hparts := congrArg BitVec.toNat (and_not_add_and (n + mask).toBitVec mask.toBitVec)
  have hdivMod := Nat.div_add_mod' (n.toNatClampNeg + (2 ^ k - 1)) (2 ^ k)
  have hresult : (Frame.roundUp mask n).toInt =
      ((n + mask).toBitVec &&& ~~~mask.toBitVec).toInt := rfl
  have hmod := Nat.mod_lt (n.toNatClampNeg + (2 ^ k - 1)) hpos
  rw [BitVec.toNat_add, hlow, hsum] at hparts
  rw [hresult, BitVec.toInt_eq_toNat_cond]
  omega

end Rounding

section Parts

/-- The instructions of a function that reserve an area, in the order of the code. -/
def reservations (f : Ir.Function) : List Ir.Instruction :=
  f.blocks.toList.flatMap fun b => b.instructions.toList.filter fun i => i.op = .alloca

/-- The register that points to the area of an instruction. -/
def areaPointer (i : Ir.Instruction) : Register := i.dest

/-- The words that the area of an instruction takes. -/
def areaWords (i : Ir.Instruction) : Nat := (i.size.toNatClampNeg + 7) / 8

/-- The words of the local variables and the areas of a function. -/
def reservedWords (f : Ir.Function) : Nat :=
  f.locals.size + ((reservations f).map areaWords).sum

/-- The bytes that a function needs with so many spill slots: a multiple of sixteen. -/
def frameBytes (f : Ir.Function) (spillCount : Nat) : Nat :=
  (8 * (reservedWords f + spillCount) + 15) / 16 * 16

/-- A function without areas reserves nothing. -/
theorem reservations_eq_nil
    {f : Ir.Function}
    (h : ∀ b ∈ f.blocks, ∀ i ∈ b.instructions, i.op ≠ .alloca) :
    reservations f = [] := by
  simp only [reservations, List.flatMap_eq_nil_iff, List.filter_eq_nil_iff, decide_eq_true_eq]
  intro b hb i hi
  exact h b (Array.mem_toList_iff.mp hb) i (Array.mem_toList_iff.mp hi)

end Parts

section Reserving

/-- What an instruction that reserves an area does to the areas. -/
def Frame.Areas.reserve (a : Frame.Areas) (i : Ir.Instruction) : Frame.Areas :=
  ⟨a.taken + roundUp 7 i.size,
    a.offsets.insert (areaPointer i) (-(a.taken + roundUp 7 i.size)).toInt32⟩

/-- An instruction that reserves no area leaves the frame as it is. -/
theorem instruction_of_ne_alloca
    {i : Ir.Instruction}
    (h : i.op ≠ .alloca)
    (id : Ir.BlockId)
    (a : Frame.Areas) :
    Frame.Areas.instruction id a i = .ok a := by
  rw [Frame.Areas.instruction, if_pos h]

/-- An area is reserved if its size is positive. -/
theorem instruction_of_alloca
    {i : Ir.Instruction}
    (h : i.op = .alloca)
    (id : Ir.BlockId)
    (a : Frame.Areas) :
    Frame.Areas.instruction id a i =
      if 0 < i.size then .ok (a.reserve i) else .error (.areaSize id i.size) := by
  rw [Frame.Areas.instruction, if_neg (by simpa using h)]
  by_cases hsize : 0 < i.size
  · rw [if_neg (Int64.not_le.mpr hsize), if_pos hsize]
    rfl
  · rw [if_pos (Int64.not_lt.mp hsize), if_neg hsize]

/-- The instructions of a block can be laid out exactly if all their areas have positive sizes, and
then each one is reserved in turn. -/
theorem instructions_eq_ok_iff
    {id : Ir.BlockId}
    {is : List Ir.Instruction}
    {a a' : Frame.Areas} :
    is.foldlM (Frame.Areas.instruction id) a = .ok a' ↔
      (∀ i ∈ is.filter fun i => i.op = .alloca, 0 < i.size) ∧
      a' = (is.filter fun i => i.op = .alloca).foldl Frame.Areas.reserve a := by
  induction is generalizing a with
  | nil =>
      simp [pure, Except.pure, eq_comm]
  | cons i is ih =>
      rw [List.foldlM_cons]
      by_cases hop : i.op = .alloca
      · rw [List.filter_cons_of_pos (by simpa using hop), List.forall_mem_cons, List.foldl_cons,
          instruction_of_alloca hop]
        by_cases hsize : 0 < i.size
        · rw [if_pos hsize]
          exact ih.trans (by simp [hsize])
        · rw [if_neg hsize]
          simp [hsize, bind, Except.bind]
      · rw [List.filter_cons_of_neg (by simpa using hop), instruction_of_ne_alloca hop]
        exact ih

/-- The blocks of a function can be laid out exactly if all their areas have positive sizes, and
then each one is reserved in turn. -/
theorem blocks_eq_ok_iff
    {bs : List Ir.Block}
    {a a' : Frame.Areas} :
    bs.foldlM Frame.Areas.block a = .ok a' ↔
      (∀ i ∈ bs.flatMap fun b => b.instructions.toList.filter fun i => i.op = .alloca,
        0 < i.size) ∧
      a' = (bs.flatMap fun b => b.instructions.toList.filter fun i => i.op = .alloca).foldl
        Frame.Areas.reserve a := by
  induction bs generalizing a with
  | nil =>
      simp [pure, Except.pure, eq_comm]
  | cons b bs ih =>
      rw [List.foldlM_cons, List.flatMap_cons, List.foldl_append, List.forall_mem_append]
      constructor
      · intro h
        obtain ⟨c, hc, h⟩ := bind_eq_ok h
        obtain ⟨hsizes, rfl⟩ := instructions_eq_ok_iff.mp hc
        obtain ⟨hrest, rfl⟩ := ih.mp h
        exact ⟨⟨hsizes, hrest⟩, rfl⟩
      · rintro ⟨⟨hsizes, hrest⟩, rfl⟩
        have hb : a.block b = .ok _ := instructions_eq_ok_iff.mpr ⟨hsizes, rfl⟩
        rw [hb]
        exact ih.mpr ⟨hrest, rfl⟩

/-- The areas of a function after its last reservation. -/
def areas (f : Ir.Function) : Frame.Areas :=
  (reservations f).foldl Frame.Areas.reserve ⟨Int64.ofNat f.frameSize, ∅⟩

/-- The size of a frame as it is added up. -/
def wrappedSize (f : Ir.Function) (spillCount : Nat) : Int64 :=
  Frame.roundUp 15 ((areas f).taken + Int64.ofNat spillCount * 8)

/-- With positive sizes only the size of the whole frame decides, as the machine counts it. -/
theorem layout_of_sizes
    {f : Ir.Function}
    (hsizes : ∀ i ∈ reservations f, 0 < i.size)
    (n : Nat) :
    Frame.layout f n =
      if 2147483647 < wrappedSize f n then .error (.tooLarge (wrappedSize f n))
      else .ok ⟨(areas f).offsets, (areas f).taken.toInt32, (wrappedSize f n).toInt32⟩ := by
  have hareas : f.blocks.toList.foldlM Frame.Areas.block ⟨Int64.ofNat f.frameSize, ∅⟩ =
      .ok (areas f) := blocks_eq_ok_iff.mpr ⟨hsizes, rfl⟩
  rw [Frame.layout, hareas]
  rfl

/-- A function has a frame when its areas have sizes and the sum is not too large. -/
theorem layout_eq_ok_iff
    {f : Ir.Function}
    {n : Nat}
    {frame : Frame} :
    Frame.layout f n = .ok frame ↔
      (∀ i ∈ reservations f, 0 < i.size) ∧ (wrappedSize f n).toInt < 2 ^ 31 ∧
      frame = ⟨(areas f).offsets, (areas f).taken.toInt32, (wrappedSize f n).toInt32⟩ := by
  have hlimit : 2147483647 < wrappedSize f n ↔ ¬ (wrappedSize f n).toInt < 2 ^ 31 := by
    rw [Int64.lt_iff_toInt_lt, show (2147483647 : Int64).toInt = 2147483647 by decide]
    omega
  constructor
  · intro h
    have hsizes : ∀ i ∈ reservations f, 0 < i.size := by
      rw [Frame.layout] at h
      split at h
      · cases h
      · rename_i a ha
        exact (blocks_eq_ok_iff.mp ha).1
    rw [layout_of_sizes hsizes] at h
    split at h
    · cases h
    · rename_i hsize
      cases h
      exact ⟨hsizes, Decidable.not_not.mp fun hlarge => hsize (hlimit.mpr hlarge), rfl⟩
  · rintro ⟨hsizes, hsize, rfl⟩
    rw [layout_of_sizes hsizes, if_neg fun hlarge => hlimit.mp hlarge hsize]

end Reserving

section Exactness

/-- A positive number is its natural number. -/
theorem toInt_of_pos
    {n : Int64}
    (h : 0 < n) :
    n.toInt = n.toNatClampNeg ∧ 0 < n.toNatClampNeg := by
  rw [Int64.lt_iff_toInt_lt, Int64.toInt_zero] at h
  have hclamp : n.toNatClampNeg = n.toInt.toNat := rfl
  omega

/-- An area takes whole words, as long as there is room for the count. -/
theorem taken_reserve
    {a : Frame.Areas}
    {i : Ir.Instruction}
    {words : Nat}
    (htaken : a.taken.toInt = 8 * words)
    (hsize : 0 < i.size)
    (hroom : 8 * (words + areaWords i) < 2 ^ 62) :
    (a.reserve i).taken.toInt = 8 * (words + areaWords i : Nat) := by
  obtain ⟨hclamp, -⟩ := toInt_of_pos hsize
  rw [areaWords] at hroom ⊢
  have hround := roundUp_toInt (k := 3) (by decide) (show (7 : Int64).toBitVec = _ from rfl)
    (n := i.size) (by omega) (by omega)
  rw [Frame.Areas.reserve, Int64.toInt_add, htaken, hround, Int.bmod_def]
  omega

/-- Areas one after the other take their words, as long as there is room for the count. -/
theorem taken_foldl_reserve
    {is : List Ir.Instruction}
    {a : Frame.Areas}
    {words : Nat}
    (htaken : a.taken.toInt = 8 * words)
    (hsizes : ∀ i ∈ is, 0 < i.size)
    (hroom : 8 * (words + (is.map areaWords).sum) < 2 ^ 62) :
    (is.foldl Frame.Areas.reserve a).taken.toInt = 8 * (words + (is.map areaWords).sum : Nat) := by
  induction is generalizing a words with
  | nil =>
      simpa using htaken
  | cons i is ih =>
      obtain ⟨hsize, hsizes⟩ := List.forall_mem_cons.mp hsizes
      rw [List.map_cons, List.sum_cons] at hroom ⊢
      have hreserve := taken_reserve htaken hsize (by omega)
      rw [List.foldl_cons, ih hreserve hsizes (by omega), Nat.add_assoc]

/-- The local variables take a word each. -/
theorem frameSize_toInt
    {f : Ir.Function}
    (h : 8 * f.locals.size < 2 ^ 62) :
    (Int64.ofNat f.frameSize).toInt = 8 * f.locals.size := by
  rw [Ir.Function.frameSize, Ir.Function.slotSize, Int64.toInt_ofNat_of_lt (by omega)]
  omega

/-- The local variables and the areas take the words that are reserved. -/
theorem taken_areas
    {f : Ir.Function}
    (hsizes : ∀ i ∈ reservations f, 0 < i.size)
    (hroom : 8 * reservedWords f < 2 ^ 62) :
    (areas f).taken.toInt = 8 * reservedWords f := by
  rw [reservedWords] at hroom
  exact taken_foldl_reserve (a := ⟨Int64.ofNat f.frameSize, ∅⟩) (frameSize_toInt (by omega)) hsizes
    hroom

/-- The frame has room for all reserved words and all slots. -/
theorem le_frameBytes
    (f : Ir.Function)
    (n : Nat) :
    8 * (reservedWords f + n) ≤ frameBytes f n := by
  rw [frameBytes]
  omega

/-- The size of a frame is what its parts need, as long as that is below `2 ^ 62`. -/
theorem wrappedSize_toInt
    {f : Ir.Function}
    {n : Nat}
    (hsizes : ∀ i ∈ reservations f, 0 < i.size)
    (hroom : 8 * (reservedWords f + n) < 2 ^ 62) :
    (wrappedSize f n).toInt = frameBytes f n := by
  have htaken := taken_areas hsizes (by omega)
  have hspill : (Int64.ofNat n).toInt = n := Int64.toInt_ofNat_of_lt (by omega)
  have hsum : ((areas f).taken + Int64.ofNat n * 8).toInt = (8 * (reservedWords f + n) : Nat) := by
    rw [Int64.toInt_add, Int64.toInt_mul, htaken, hspill, show (8 : Int64).toInt = 8 by decide,
      Int.bmod_def, Int.bmod_def]
    omega
  have hclamp : ((areas f).taken + Int64.ofNat n * 8).toNatClampNeg =
      8 * (reservedWords f + n) := by
    rw [Int64.toNatClampNeg, hsum, Int.toNat_natCast]
  rw [wrappedSize, roundUp_toInt (k := 4) (by decide) (show (15 : Int64).toBitVec = _ from rfl)
    (by omega) (by omega), hclamp]
  rfl

/-- A function whose areas have sizes and that needs fewer than `2 ^ 31` bytes has a frame. -/
theorem exists_layout_of_frameBytes_lt
    {f : Ir.Function}
    {n : Nat}
    (hsizes : ∀ i ∈ reservations f, 0 < i.size)
    (hbytes : frameBytes f n < 2 ^ 31) :
    ∃ frame, Frame.layout f n = .ok frame := by
  refine ⟨_, layout_eq_ok_iff.mpr ⟨hsizes, ?_, rfl⟩⟩
  have hroom : 8 * (reservedWords f + n) ≤ frameBytes f n := le_frameBytes f n
  rw [wrappedSize_toInt hsizes (by omega)]
  omega

end Exactness

section Layout

/-- A frame that is laid out has room for the local variables and the spill slots below it. -/
theorem layout_spec
    {f : Ir.Function}
    {n : Nat}
    {frame : Frame}
    (hareas : ∀ b ∈ f.blocks, ∀ i ∈ b.instructions, i.op ≠ .alloca)
    (hlocals : f.locals.size < 2 ^ 58)
    (hn : n ≤ 2 ^ 32)
    (h : Frame.layout f n = .ok frame) :
    8 * (f.locals.size + n) < 2 ^ 31 ∧ frame.spillBase.toInt = 8 * f.locals.size := by
  obtain ⟨hsizes, hlimit, rfl⟩ := layout_eq_ok_iff.mp h
  have hwords : reservedWords f = f.locals.size := by
    rw [reservedWords, reservations_eq_nil hareas]
    rfl
  have hroom := le_frameBytes f n
  rw [wrappedSize_toInt hsizes (by omega)] at hlimit
  refine ⟨by omega, ?_⟩
  rw [Int64.toInt_toInt32, taken_areas hsizes (by omega), hwords, Int.bmod_def]
  omega

end Layout

section Cells

/-- The word of a frame with a number, counted from the frame base upwards. -/
def cell (frameBase : Word) (k : Int) : Word := frameBase + .ofInt 64 (8 * k)

/-- Two cells of a frame are as far apart as their numbers say. -/
theorem sub_cell
    (frameBase : Word)
    (j k : Int) :
    cell frameBase j - cell frameBase k = .ofInt 64 (8 * (j - k)) := by
  rw [cell, cell, show 8 * j = 8 * (j - k) + 8 * k by omega, BitVec.ofInt_add]
  bv_omega

/-- Different cells of a frame do not overlap. -/
theorem apart_cells
    (frameBase : Word)
    {j k : Int}
    (hj : -2 ^ 32 ≤ j ∧ j ≤ 2 ^ 32)
    (hk : -2 ^ 32 ≤ k ∧ k ≤ 2 ^ 32)
    (hne : j ≠ k) :
    8 ≤ (cell frameBase j - cell frameBase k).toNat := by
  rw [sub_cell, BitVec.toNat_ofInt]
  omega

/-- Writing a cell of the frame leaves the others. -/
theorem read_cell_of_ne
    (mem : Memory)
    (frameBase w : Word)
    {j k : Int}
    (hj : -2 ^ 32 ≤ j ∧ j ≤ 2 ^ 32)
    (hk : -2 ^ 32 ≤ k ∧ k ≤ 2 ^ 32)
    (hne : j ≠ k) :
    (mem.write (cell frameBase k) w).read (cell frameBase j) = mem.read (cell frameBase j) :=
  mem.read_write_of_apart w (apart_cells frameBase hj hk hne) (apart_cells frameBase hk hj hne.symm)

/-- The address of an offset of the frame is that of a word. -/
theorem add_offset
    {offset : Int32}
    {k : Int}
    (h : offset.toInt = 8 * k)
    (frameBase : Word) :
    frameBase + offset.toInt64.toBitVec = cell frameBase k := by
  have hbits : offset.toInt64.toBitVec = .ofInt 64 offset.toInt64.toInt :=
    BitVec.ofInt_toInt.symm
  rw [cell, hbits, Int32.toInt_toInt64, h]

/-- A spill slot is the cell behind the local variables and the slots before it. -/
theorem slotOffset_toInt
    {frame : Frame}
    {locals spills n : Nat}
    (hbase : frame.spillBase.toInt = 8 * locals)
    (hroom : 8 * (locals + spills) < 2 ^ 31)
    (hn : n < spills) :
    (frame.slotOffset n).toInt = 8 * (-(locals + n + 1 : Int)) := by
  have hnumber : (Int32.ofNat (n + 1)).toInt = n + 1 := Int32.toInt_ofNat_of_lt (by omega)
  rw [Frame.slotOffset, Int32.toInt_neg, Int32.toInt_add, Int32.toInt_mul, hbase, hnumber,
    show (8 : Int32).toInt = 8 by decide, Int.bmod_def, Int.bmod_def, Int.bmod_def]
  omega

/-- A local variable is the cell of its number. -/
theorem localOffset_toInt
    {offset : Int64}
    {slot : Nat}
    (hoffset : offset = Int64.ofNat ((slot + 1) * Ir.Function.slotSize))
    (hslot : 8 * (slot + 1) < 2 ^ 31) :
    (-offset).toInt32.toInt = 8 * (-(slot + 1 : Int)) := by
  have hnumber : offset.toInt = 8 * (slot + 1) := by
    rw [hoffset, Ir.Function.slotSize, Int64.toInt_ofNat_of_lt (by omega)]
    omega
  rw [Int64.toInt_toInt32, Int64.toInt_neg, hnumber, Int.bmod_def, Int.bmod_def]
  omega

end Cells

end X64
end StackNative
