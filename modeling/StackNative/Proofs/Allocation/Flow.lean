import StackNative.Proofs.Allocation.Spans

/-!
# Control flow and the numbering of positions

**Input.**  A function whose blocks stand in any order and jump anywhere.

**Algorithm.**  A point is a place in a block; its position is what the numbering
of the function counts there.

**Results.**
* `covers_of_reads`, `covers_of_writes`: the interval of a register that a point
  mentions has the position of the point.
* `flow_backwardAlong`, `backwardSpans_byStop`: control that does not go forward
  goes along the span of a backward jump, and the spans stand in the order of
  their ends.
-/

namespace StackNative
namespace Allocation

open Ir (Register BlockId Block Function)
open Relation (ReflTransGen)

/-- A place in a function: a block, by its number in the order of the blocks, and an instruction
in it.  The terminator stands behind the last instruction. -/
structure Point where
  block : Nat
  index : Nat
  deriving DecidableEq, Repr

section Graph

variable (f : Function)

/-- Control goes from a point to the next one. -/
inductive Flow : Point → Point → Prop
  | next {p : Point} {b : Block} :
      f.blocks[p.block]? = some b →
      p.index < b.instructions.size →
      Flow p ⟨p.block, p.index + 1⟩
  | jump {p : Point} {k : Nat} {b c : Block} :
      f.blocks[p.block]? = some b →
      p.index = b.instructions.size →
      f.blocks[k]? = some c →
      c.id ∈ b.terminator.successors →
      Flow p ⟨k, 0⟩

/-- The instruction or terminator at a point reads a register. -/
def Reads (p : Point) (v : Register) : Prop :=
  ∃ b, f.blocks[p.block]? = some b ∧
    ((∃ i, b.instructions[p.index]? = some i ∧ v ∈ i.uses) ∨
      p.index = b.instructions.size ∧ v ∈ b.terminator.uses)

/-- The instruction at a point writes a register. -/
def Writes (p : Point) (x : Register) : Prop :=
  ∃ b i, f.blocks[p.block]? = some b ∧ b.instructions[p.index]? = some i ∧ i.dest? = some x

instance (p : Point) (x : Register) : Decidable (Writes f p x) :=
  decidable_of_iff
    (((f.blocks[p.block]?).bind fun b => b.instructions[p.index]?).bind Ir.Instruction.dest? =
      some x)
    (by simp only [Writes, Option.bind_eq_some_iff]; grind)

/-- Control goes from a point to the next one, and the register keeps its value there. -/
def Keeps (v : Register) (p q : Point) : Prop := Flow f p q ∧ ¬ Writes f p v

/-- A value that was written to the register earlier, on some way here, is still in it. -/
def Holds (v : Register) (p : Point) : Prop :=
  ∃ q q', Writes f q v ∧ Flow f q q' ∧ ReflTransGen (Keeps f v) q' p

/-- The register can still be read behind the point, on some way, before it is overwritten. -/
def LiveAfter (v : Register) (p : Point) : Prop :=
  ∃ p' u, Flow f p p' ∧ ReflTransGen (Keeps f v) p' u ∧ Reads f u v

/-- No two blocks have the same number. -/
def DistinctBlocks : Prop := (f.blocks.toList.map Block.id).Nodup

instance : Decidable (DistinctBlocks f) :=
  inferInstanceAs (Decidable (f.blocks.toList.map Block.id).Nodup)

end Graph

section Positions

/-- The positions of a block: one for each instruction and one for the terminator. -/
def weight (b : Block) : Nat := b.instructions.size + 1

/-- The positions of the first blocks of a list. -/
def startAt : List Block → Nat → Nat
  | _, 0 => 0
  | [], _ + 1 => 0
  | b :: bs, k + 1 => weight b + startAt bs k

@[simp] theorem startAt_zero (bs : List Block) : startAt bs 0 = 0 := by
  cases bs <;> rfl

/-- A block lies in front of every later one. -/
theorem startAt_add_weight_le
    {bs : List Block} {j k : Nat} {b : Block}
    (hb : bs[j]? = some b)
    (hjk : j < k) :
    startAt bs j + weight b ≤ startAt bs k := by
  induction bs generalizing j k with
  | nil =>
      simp at hb
  | cons c bs ih =>
      cases k with
      | zero =>
          omega
      | succ k =>
          cases j with
          | zero =>
              simp only [List.getElem?_cons_zero, Option.some.injEq] at hb
              subst hb
              simp [startAt]
          | succ j =>
              have := ih (j := j) (k := k) (by simpa using hb) (by omega)
              simp only [startAt]
              omega

/-- Later blocks begin no earlier. -/
theorem startAt_mono
    {bs : List Block} {j k : Nat} {b : Block}
    (hb : bs[j]? = some b)
    (hjk : j ≤ k) :
    startAt bs j ≤ startAt bs k := by
  rcases Nat.lt_or_eq_of_le hjk with h | rfl
  · have := startAt_add_weight_le hb h
    omega
  · exact Nat.le_refl _

/-- The position of a point. -/
def position (f : Function) (p : Point) : Int := startAt f.blocks.toList p.block + p.index

end Positions

section Touching

/-- Each interval is that of its register and begins no later than a position. -/
def Begun (is : Intervals) (p : Int) : Prop :=
  ∀ (r : Register) (i : Interval), is[r]? = some i → i.value = r ∧ i.start ≤ p

/-- The interval of a register has a position. -/
def Covers (is : Intervals) (r : Register) (p : Int) : Prop :=
  ∃ i, is[r]? = some i ∧ i.Has p

/-- What has begun by a position has begun by every later one. -/
theorem Begun.mono
    {is : Intervals} {p q : Int}
    (h : Begun is p)
    (hpq : p ≤ q) :
    Begun is q :=
  fun r i hi => ⟨(h r i hi).1, Int.le_trans (h r i hi).2 hpq⟩

/-- The interval of a register after it is mentioned: the old one, made longer, or a new one. -/
theorem getElem?_touch (p : Int) (is : Intervals) (r s : Register) :
    (touch p is r)[s]? =
      if r = s then some ((is[r]?.getD (.point r p)).extend p) else is[s]? := by
  unfold touch
  split
  · next i hi =>
      rw [Std.HashMap.getElem?_insert]
      simp [hi]
  · next hi =>
      rw [Std.HashMap.getElem?_insert]
      simp [hi, Interval.point, Interval.extend]

/-- An interval that is touched has begun. -/
theorem Begun.touch
    {is : Intervals} {p : Int}
    (h : Begun is p)
    (r : Register) :
    Begun (touch p is r) p := by
  intro s i hi
  rw [getElem?_touch] at hi
  by_cases hrs : r = s
  · subst hrs
    simp only [if_true, Option.some.injEq] at hi
    subst hi
    cases hr : is[r]? with
    | none =>
        exact ⟨rfl, Int.le_refl p⟩
    | some j =>
        exact h r j hr
  · rw [if_neg hrs] at hi
    exact h s i hi

/-- Touching a register takes no position from any interval. -/
theorem Covers.touch
    {is : Intervals} {s : Register} {q : Int}
    (h : Covers is s q)
    (p : Int)
    (r : Register) :
    Covers (touch p is r) s q := by
  obtain ⟨i, hi, hlow, hhigh⟩ := h
  by_cases hrs : r = s
  · subst hrs
    refine ⟨i.extend p, ?_, hlow, Int.le_trans hhigh (Int.le_max_left _ _)⟩
    rw [getElem?_touch, if_pos rfl, hi]
    rfl
  · refine ⟨i, ?_, hlow, hhigh⟩
    rw [getElem?_touch, if_neg hrs, hi]

/-- A register that is touched at a position is covered there. -/
theorem covers_touch_self
    {is : Intervals} {p : Int}
    (h : Begun is p)
    (r : Register) :
    Covers (Allocation.touch p is r) r p := by
  refine ⟨(is[r]?.getD (.point r p)).extend p, ?_, ?_, Int.le_max_right _ _⟩
  · rw [getElem?_touch, if_pos rfl]
  · cases hr : is[r]? with
    | none =>
        exact Int.le_refl p
    | some i =>
        exact (h r i hr).2

/-- All intervals have begun when registers are touched one after the other. -/
theorem Begun.foldl_touch
    {p : Int}
    (rs : List Register)
    {is : Intervals}
    (h : Begun is p) :
    Begun (rs.foldl (Allocation.touch p) is) p := by
  induction rs generalizing is with
  | nil =>
      exact h
  | cons r rs ih =>
      exact ih (h.touch r)

/-- Touching registers one after the other takes no position from any interval. -/
theorem Covers.foldl_touch
    {s : Register} {q : Int}
    (p : Int)
    (rs : List Register)
    {is : Intervals}
    (h : Covers is s q) :
    Covers (rs.foldl (Allocation.touch p) is) s q := by
  induction rs generalizing is with
  | nil =>
      exact h
  | cons r rs ih =>
      exact ih (h.touch p r)

/-- Each register of a list is covered once the list is touched. -/
theorem covers_foldl_touch
    {p : Int}
    (rs : List Register)
    {is : Intervals}
    (h : Begun is p)
    {s : Register}
    (hs : s ∈ rs) :
    Covers (rs.foldl (Allocation.touch p) is) s p := by
  induction rs generalizing is with
  | nil =>
      simp at hs
  | cons r rs ih =>
      rcases List.mem_cons.mp hs with rfl | hs
      · exact (covers_touch_self h s).foldl_touch p rs
      · exact ih (h.touch r) hs

end Touching

/-- The instruction or terminator at a place of a block mentions a register. -/
def Mentions (b : Block) (k : Nat) (r : Register) : Prop :=
  (∃ i, b.instructions[k]? = some i ∧ r ∈ i.uses ++ i.dest?.toList) ∨
    k = b.instructions.size ∧ r ∈ b.terminator.uses

namespace Numbering

section Instructions

/-- An instruction keeps all intervals begun. -/
theorem instruction_begun
    {n : Numbering}
    (h : Begun n.intervals n.position)
    (i : Ir.Instruction) :
    Begun (n.instruction i).intervals (n.instruction i).position := by
  have hbegun : Begun (n.instruction i).intervals n.position :=
    h.foldl_touch (i.uses ++ i.dest?.toList)
  exact hbegun.mono (by simp only [instruction]; omega)

/-- Every instruction takes one position. -/
theorem foldl_instruction_position (is : List Ir.Instruction) (n : Numbering) :
    (is.foldl instruction n).position = n.position + is.length := by
  induction is generalizing n with
  | nil =>
      simp
  | cons i is ih =>
      rw [List.foldl_cons, ih]
      simp only [instruction, List.length_cons]
      omega

/-- Instructions do not change where blocks begin. -/
theorem foldl_instruction_starts (is : List Ir.Instruction) (n : Numbering) :
    (is.foldl instruction n).starts = n.starts := by
  induction is generalizing n with
  | nil =>
      rfl
  | cons i is ih =>
      exact ih (n.instruction i)

/-- Instructions do not change where blocks end. -/
theorem foldl_instruction_stops (is : List Ir.Instruction) (n : Numbering) :
    (is.foldl instruction n).stops = n.stops := by
  induction is generalizing n with
  | nil =>
      rfl
  | cons i is ih =>
      exact ih (n.instruction i)

/-- Instructions keep all intervals begun, one after the other. -/
theorem foldl_instruction_begun
    (is : List Ir.Instruction)
    {n : Numbering}
    (h : Begun n.intervals n.position) :
    Begun (is.foldl instruction n).intervals (is.foldl instruction n).position := by
  induction is generalizing n with
  | nil =>
      exact h
  | cons i is ih =>
      exact ih (instruction_begun h i)

/-- Instructions take no position from any interval. -/
theorem covers_foldl_instruction
    (is : List Ir.Instruction)
    {n : Numbering} {r : Register} {p : Int}
    (h : Covers n.intervals r p) :
    Covers (is.foldl instruction n).intervals r p := by
  induction is generalizing n with
  | nil =>
      exact h
  | cons i is ih =>
      exact ih (n := n.instruction i) (h.foldl_touch n.position (i.uses ++ i.dest?.toList))

/-- What an instruction mentions is covered at its position. -/
theorem covers_instruction_at
    {is : List Ir.Instruction} {n : Numbering}
    (h : Begun n.intervals n.position)
    {k : Nat} {i : Ir.Instruction} {r : Register}
    (hi : is[k]? = some i)
    (hr : r ∈ i.uses ++ i.dest?.toList) :
    Covers (is.foldl instruction n).intervals r (n.position + k) := by
  induction is generalizing n k with
  | nil =>
      simp at hi
  | cons j is ih =>
      cases k with
      | zero =>
          simp only [List.getElem?_cons_zero, Option.some.injEq] at hi
          subst hi
          have hself : Covers (n.instruction j).intervals r n.position :=
            covers_foldl_touch (j.uses ++ j.dest?.toList) h hr
          simpa using covers_foldl_instruction is hself
      | succ k =>
          have hrest := ih (instruction_begun h j) (k := k) (by simpa using hi)
          have hpos : (n.instruction j).position + k = n.position + (k + 1 : Nat) := by
            simp only [instruction]
            omega
          rw [hpos] at hrest
          exact hrest

end Instructions

section Blocks

/-- A block takes a position for each instruction and one for its terminator. -/
theorem block_position (n : Numbering) (b : Block) :
    (n.block b).position = n.position + weight b := by
  simp only [block, ← Array.foldl_toList, foldl_instruction_position, weight]
  simp
  omega

/-- A block begins at the position it finds. -/
theorem block_starts (n : Numbering) (b : Block) :
    (n.block b).starts = n.starts.insert b.id n.position := by
  simp only [block, ← Array.foldl_toList, foldl_instruction_starts]

/-- A block ends at the position of its terminator. -/
theorem block_stops (n : Numbering) (b : Block) :
    (n.block b).stops = n.stops.insert b.id (n.position + b.instructions.size) := by
  simp only [block, ← Array.foldl_toList, foldl_instruction_stops, foldl_instruction_position]
  simp

/-- The intervals behind a block are those of its instructions, with what the terminator reads. -/
theorem block_intervals (n : Numbering) (b : Block) :
    (n.block b).intervals =
      b.terminator.uses.foldl (touch (n.position + b.instructions.size))
        (b.instructions.toList.foldl instruction
          { n with starts := n.starts.insert b.id n.position }).intervals := by
  simp only [block, ← Array.foldl_toList, foldl_instruction_position]
  simp

/-- A block takes no position from any interval. -/
theorem covers_block
    {n : Numbering} {r : Register} {p : Int}
    (h : Covers n.intervals r p)
    (b : Block) :
    Covers (n.block b).intervals r p := by
  rw [block_intervals]
  apply Covers.foldl_touch
  exact covers_foldl_instruction _
    (n := { n with starts := n.starts.insert b.id n.position }) h

/-- Behind the instructions of a block every interval has begun at its last position. -/
theorem exit_begun
    {n : Numbering}
    (h : Begun n.intervals n.position)
    (b : Block) :
    Begun (b.instructions.toList.foldl instruction
        { n with starts := n.starts.insert b.id n.position }).intervals
      (n.position + b.instructions.size) := by
  have hbegun := foldl_instruction_begun b.instructions.toList
    (n := { n with starts := n.starts.insert b.id n.position }) h
  rw [foldl_instruction_position] at hbegun
  simpa using hbegun

/-- A block keeps all intervals begun. -/
theorem block_begun
    {n : Numbering}
    (h : Begun n.intervals n.position)
    (b : Block) :
    Begun (n.block b).intervals (n.block b).position := by
  rw [block_intervals, block_position]
  exact ((exit_begun h b).foldl_touch b.terminator.uses).mono (by simp only [weight]; omega)

/-- What a block mentions is covered at the position of the mention. -/
theorem covers_block_at
    {n : Numbering}
    (h : Begun n.intervals n.position)
    {b : Block} {k : Nat} {r : Register}
    (hr : Mentions b k r) :
    Covers (n.block b).intervals r (n.position + k) := by
  rw [block_intervals]
  rcases hr with ⟨i, hi, hr⟩ | ⟨rfl, hr⟩
  · apply Covers.foldl_touch
    refine covers_instruction_at (n := { n with starts := n.starts.insert b.id n.position })
      h ?_ hr
    simpa using hi
  · exact covers_foldl_touch b.terminator.uses (exit_begun h b) hr

/-- Blocks keep all intervals begun, one after the other. -/
theorem foldl_block_begun
    (bs : List Block)
    {n : Numbering}
    (h : Begun n.intervals n.position) :
    Begun (bs.foldl block n).intervals (bs.foldl block n).position := by
  induction bs generalizing n with
  | nil =>
      exact h
  | cons b bs ih =>
      exact ih (block_begun h b)

/-- Blocks take no position from any interval. -/
theorem covers_foldl_block
    (bs : List Block)
    {n : Numbering} {r : Register} {p : Int}
    (h : Covers n.intervals r p) :
    Covers (bs.foldl block n).intervals r p := by
  induction bs generalizing n with
  | nil =>
      exact h
  | cons b bs ih =>
      exact ih (covers_block h b)

/-- Behind all blocks a register is covered wherever one of them mentions it. -/
theorem covers_foldl_block_at
    {bs : List Block} {n : Numbering}
    (h : Begun n.intervals n.position)
    {j k : Nat} {b : Block} {r : Register}
    (hb : bs[j]? = some b)
    (hr : Mentions b k r) :
    Covers (bs.foldl block n).intervals r (n.position + startAt bs j + k) := by
  induction bs generalizing n j with
  | nil =>
      simp at hb
  | cons c bs ih =>
      cases j with
      | zero =>
          simp only [List.getElem?_cons_zero, Option.some.injEq] at hb
          subst hb
          have hself := covers_foldl_block bs (covers_block_at h hr)
          simpa using hself
      | succ j =>
          have hrest := ih (block_begun h c) (j := j) (by simpa using hb)
          have hpos : (n.block c).position + startAt bs j + k =
              n.position + startAt (c :: bs) (j + 1) + k := by
            rw [block_position]
            simp only [startAt]
            omega
          rw [hpos] at hrest
          exact hrest

/-- Blocks with other numbers leave the limits of a block as they are. -/
theorem foldl_block_limits_of_not_mem
    {bs : List Block} {id : BlockId}
    (n : Numbering)
    (h : id ∉ bs.map Block.id) :
    (bs.foldl block n).starts[id]? = n.starts[id]? ∧
      (bs.foldl block n).stops[id]? = n.stops[id]? := by
  induction bs generalizing n with
  | nil =>
      exact ⟨rfl, rfl⟩
  | cons b bs ih =>
      simp only [List.map_cons, List.mem_cons, not_or] at h
      have hne : (b.id == id) = false := by
        simpa using fun heq => h.1 heq.symm
      obtain ⟨hstart, hstop⟩ := ih (n.block b) h.2
      rw [List.foldl_cons, hstart, hstop, block_starts, block_stops]
      simp [Std.HashMap.getElem?_insert, hne]

/-- Where the blocks of a list have different numbers, each one's limits are found by its
number. -/
theorem foldl_block_limits
    {bs : List Block}
    (n : Numbering)
    (hids : (bs.map Block.id).Nodup)
    {j : Nat} {b : Block}
    (hb : bs[j]? = some b) :
    (bs.foldl block n).starts[b.id]? = some (n.position + startAt bs j) ∧
      (bs.foldl block n).stops[b.id]? =
        some (n.position + startAt bs j + b.instructions.size) := by
  induction bs generalizing n j with
  | nil =>
      simp at hb
  | cons c bs ih =>
      rw [List.map_cons, List.nodup_cons] at hids
      cases j with
      | zero =>
          simp only [List.getElem?_cons_zero, Option.some.injEq] at hb
          subst hb
          obtain ⟨hstart, hstop⟩ := foldl_block_limits_of_not_mem (n.block c) hids.1
          rw [List.foldl_cons, hstart, hstop, block_starts, block_stops]
          simp
      | succ j =>
          obtain ⟨hstart, hstop⟩ := ih (n.block c) hids.2 (j := j) (by simpa using hb)
          rw [List.foldl_cons, hstart, hstop, block_position]
          simp only [startAt]
          constructor
          · congr 1
            omega
          · congr 1
            omega

end Blocks

section Functions

/-- Parameters begin at the first position. -/
theorem params_begun (f : Function) : Begun (params f) 0 := by
  unfold params
  suffices h : ∀ (ps : List Ir.Param) (is : Intervals), Begun is 0 →
      Begun (ps.foldl (fun is p => is.insert p.register ⟨p.register, 0, 0, true⟩) is) 0 by
    exact h f.params ∅ (by intro r i hi; simp at hi)
  intro ps
  induction ps with
  | nil =>
      intro is h
      exact h
  | cons p ps ih =>
      intro is h
      refine ih _ ?_
      intro r i hi
      rw [Std.HashMap.getElem?_insert] at hi
      by_cases hr : p.register = r
      · simp only [hr, beq_self_eq_true, if_true, Option.some.injEq] at hi
        subst hi
        exact ⟨rfl, Int.le_refl 0⟩
      · rw [if_neg (by simpa using hr)] at hi
        exact h r i hi

/-- A function is numbered block by block, from its parameters on. -/
theorem function_eq (f : Function) :
    function f = f.blocks.toList.foldl block { intervals := params f } := by
  rw [function, ← Array.foldl_toList]

/-- Behind a whole function all intervals have begun. -/
theorem function_begun (f : Function) :
    Begun (function f).intervals (function f).position := by
  rw [function_eq]
  exact foldl_block_begun _ (params_begun f)

/-- What a block mentions is covered at the position of the mention. -/
theorem covers_of_mentions
    {f : Function} {p : Point} {b : Block} {r : Register}
    (hb : f.blocks[p.block]? = some b)
    (hr : Mentions b p.index r) :
    Covers (function f).intervals r (Allocation.position f p) := by
  rw [function_eq]
  have hb' : f.blocks.toList[p.block]? = some b := by simpa using hb
  have hcover := covers_foldl_block_at (n := { intervals := params f }) (params_begun f) hb' hr
  simpa [Allocation.position] using hcover

/-- Where blocks have different numbers, the limits of each are found by its number. -/
theorem function_limits
    {f : Function}
    (hids : DistinctBlocks f)
    {j : Nat} {b : Block}
    (hb : f.blocks[j]? = some b) :
    (function f).starts[b.id]? = some (startAt f.blocks.toList j : Int) ∧
      (function f).stops[b.id]? =
        some ((startAt f.blocks.toList j : Int) + b.instructions.size) := by
  rw [function_eq]
  have hb' : f.blocks.toList[j]? = some b := by simpa using hb
  have hlimits := foldl_block_limits { intervals := params f } hids hb'
  simpa using hlimits

/-- The span of a backward jump ends where its block ends. -/
theorem stop_of_mem_backward
    {n : Numbering} {b : BlockId} {targets : List BlockId} {s : Interval}
    (hs : s ∈ targets.filterMap (n.backward? b)) :
    n.stops[b]? = some s.stop := by
  obtain ⟨target, _, hs⟩ := List.mem_filterMap.mp hs
  unfold backward? at hs
  split at hs
  · next hstop =>
      split at hs
      · simp only [Option.some.injEq] at hs
        subst hs
        exact hstop
      · cases hs
  · cases hs

/-- The spans of backward jumps stand in the order of their ends. -/
theorem backwardSpans_byStop
    {f : Function}
    (hids : DistinctBlocks f) :
    ByStop ((function f).backwardSpans f) := by
  unfold ByStop backwardSpans
  rw [List.pairwise_flatMap]
  constructor
  · intro b _
    refine List.Pairwise.imp_of_mem ?_
      (List.pairwise_of_forall (R := fun _ _ => True) fun _ _ => trivial)
    intro s t hs ht _
    have h := (stop_of_mem_backward hs).symm.trans (stop_of_mem_backward ht)
    simp only [Option.some.injEq] at h
    omega
  · rw [List.pairwise_iff_getElem]
    intro j k hj hk hjk s hs t ht
    have hbj : f.blocks[j]? = some f.blocks.toList[j] := by
      rw [← Array.getElem?_toList, List.getElem?_eq_getElem hj]
    have hbk : f.blocks[k]? = some f.blocks.toList[k] := by
      rw [← Array.getElem?_toList, List.getElem?_eq_getElem hk]
    have hsj := (function_limits hids hbj).2.symm.trans (stop_of_mem_backward hs)
    have htk := (function_limits hids hbk).2.symm.trans (stop_of_mem_backward ht)
    simp only [Option.some.injEq] at hsj htk
    have hle := startAt_add_weight_le (List.getElem?_eq_getElem hj) hjk
    simp only [weight] at hle
    omega

/-- The span of a jump to a block that does not stand later. -/
theorem backward?_of_le
    {f : Function}
    (hids : DistinctBlocks f)
    {j k : Nat} {b c : Block}
    (hb : f.blocks[j]? = some b)
    (hc : f.blocks[k]? = some c)
    (hkj : k ≤ j) :
    (function f).backward? b.id c.id =
      some ⟨0, startAt f.blocks.toList k,
        (startAt f.blocks.toList j : Int) + b.instructions.size, false⟩ := by
  obtain ⟨hstartb, hstopb⟩ := function_limits hids hb
  obtain ⟨hstartc, _⟩ := function_limits hids hc
  have hc' : f.blocks.toList[k]? = some c := by simpa using hc
  have hle := startAt_mono hc' hkj
  simp only [backward?, hstartb, hstopb, hstartc]
  rw [if_pos (by omega)]

end Functions

end Numbering

section Steps

variable {f : Function}

/-- A register that is read at a point is covered there. -/
theorem covers_of_reads
    {p : Point} {v : Register}
    (h : Reads f p v) :
    Covers (Numbering.function f).intervals v (position f p) := by
  obtain ⟨b, hb, ⟨i, hi, hv⟩ | ⟨hk, hv⟩⟩ := h
  · exact Numbering.covers_of_mentions hb (Or.inl ⟨i, hi, List.mem_append_left _ hv⟩)
  · exact Numbering.covers_of_mentions hb (Or.inr ⟨hk, hv⟩)

/-- A register that is written at a point is covered there. -/
theorem covers_of_writes
    {p : Point} {x : Register}
    (h : Writes f p x) :
    Covers (Numbering.function f).intervals x (position f p) := by
  obtain ⟨b, i, hb, hi, hx⟩ := h
  exact Numbering.covers_of_mentions hb
    (Or.inl ⟨i, hi, List.mem_append_right _ (by simp [hx])⟩)

/-- Control flow as a relation on positions. -/
def Step (f : Function) (a b : Int) : Prop :=
  ∃ p q, Flow f p q ∧ position f p = a ∧ position f q = b

/-- Control that does not go forward goes along the span of a backward jump. -/
theorem flow_backwardAlong
    (hids : DistinctBlocks f) :
    BackwardAlong (Step f) ((Numbering.function f).backwardSpans f) := by
  rintro _ _ ⟨p, q, hflow, rfl, rfl⟩ hle
  cases hflow with
  | next hb hk =>
      simp only [position] at hle
      omega
  | @jump k b c hb hp hc hsucc =>
      have hkj : k ≤ p.block := by
        by_contra hlt
        have hb' : f.blocks.toList[p.block]? = some b := by simpa using hb
        have hlater := startAt_add_weight_le hb' (show p.block < k by omega)
        simp only [position, weight] at hle hlater
        omega
      refine ⟨⟨0, startAt f.blocks.toList k,
        (startAt f.blocks.toList p.block : Int) + b.instructions.size, false⟩, ?_, ?_, ?_⟩
      · refine List.mem_flatMap.mpr ⟨b, ?_, ?_⟩
        · exact Array.mem_toList_iff.mpr (Array.mem_of_getElem? hb)
        · exact List.mem_filterMap.mpr
            ⟨c.id, hsucc, Numbering.backward?_of_le hids hb hc hkj⟩
      · simp [position]
      · simp [position, hp]

/-- A way through a function is a way through its positions. -/
theorem step_of_flow
    {p q : Point}
    (h : ReflTransGen (Flow f) p q) :
    ReflTransGen (Step f) (position f p) (position f q) :=
  ReflTransGen.lift (position f) (fun a b hab => ⟨a, b, hab, rfl, rfl⟩) p q h

/-- A way on which a register keeps its value is a way. -/
theorem flow_of_keeps
    {v : Register} {p q : Point}
    (h : ReflTransGen (Keeps f v) p q) :
    ReflTransGen (Flow f) p q :=
  ReflTransGen.mono (fun _ _ hab => hab.1) _ _ h

end Steps

end Allocation
end StackNative
