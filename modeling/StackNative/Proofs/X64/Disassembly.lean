import StackNative.Proofs.X64.Layout

/-!
# Assembled code is read back

**Input.**  A sequence of calls on an assembler: instructions, new labels, and
labels bound where the code stands.

**Results.**
* `sweep_after`: a sweep that has come to the end of some calls goes on with the
  others.
* `sweep_finish`: a sweep over assembled code finds the instructions of the calls,
  in their order and at the lengths the assembler had, with every label at the
  offset where it was bound last.
-/

namespace StackNative
namespace X64

section Calls

/-- A call on an assembler. -/
inductive Call where
  | emit (i : Instruction Int)
  /-- Puts an integer into a register, by the shorter instruction where it fits. -/
  | movImm (target : Reg) (n : Int64)
  | newLabel
  | bind (l : Int)
  deriving DecidableEq, Repr

namespace Call

/-- The assembler after a call. -/
def run (a : Assembler) : Call → Assembler
  | .emit i => a.emit i
  | .movImm target n => a.emit (.movImm target n)
  | .newLabel => a.newLabel.2
  | .bind l => a.add (.bind l)

/-- What a call adds to the program. -/
def item? : Call → Option (Item Int)
  | .emit i => some (.instruction i)
  | .movImm target n => some (.instruction (.movImm target n))
  | .newLabel => none
  | .bind l => some (.bind l)

/-- The operation that a call asks for, given the offsets of the labels. -/
def operation? (offset : Int → Nat) : Call → Option (Operation Int)
  | .emit i => some (i.operation fun l => (offset l : Int))
  | .movImm target n => some (.moveImm target n)
  | _ => none

/-- The label that a call names. -/
def label? : Call → Option Int
  | .emit i => i.label?
  | _ => none

/-- The machine has the registers and the conditions of the call. -/
def Valid : Call → Prop
  | .emit i => i.Valid
  | .movImm target _ => target.Valid
  | _ => True

instance : (c : Call) → Decidable c.Valid
  | .emit i => inferInstanceAs (Decidable i.Valid)
  | .movImm target _ => inferInstanceAs (Decidable target.Valid)
  | .newLabel => inferInstanceAs (Decidable True)
  | .bind _ => inferInstanceAs (Decidable True)

end Call

/-- The assembler after calls. -/
def assemble (calls : List Call) : Assembler := calls.foldl Call.run {}

/-- The operations that calls ask for, each with the length of the code at its call. -/
def listing (offset : Int → Nat) (a : Assembler) : List Call → List (Nat × Operation Int)
  | [] => []
  | c :: rest =>
    ((c.operation? offset).map (a.length, ·)).toList ++ listing offset (c.run a) rest

/-- The label was bound last when the code had a length. -/
def BoundAt (calls : List Call) (l : Int) (offset : Nat) : Prop :=
  ∃ before after, calls = before ++ .bind l :: after ∧ Call.bind l ∉ after ∧
    (assemble before).length = offset

end Calls

section Items

/-- The items that calls add. -/
def itemsOf (calls : List Call) : List (Item Int) := calls.filterMap Call.item?

theorem items_run
    (a : Assembler)
    (c : Call) :
    (c.run a).items.toList = a.items.toList ++ c.item?.toList := by
  cases c <;> simp [Call.run, Call.item?, Assembler.emit, Assembler.add, Assembler.newLabel]

theorem length_run
    (a : Assembler)
    (c : Call) :
    (c.run a).length = endOf a.length c.item?.toList := by
  cases c <;> rfl

theorem items_foldl_run
    (a : Assembler)
    (calls : List Call) :
    (calls.foldl Call.run a).items.toList = a.items.toList ++ itemsOf calls := by
  induction calls generalizing a with
  | nil =>
      simp [itemsOf]
  | cons c calls ih =>
      rw [List.foldl_cons, ih, items_run]
      cases h : c.item? <;> simp [itemsOf, h]

theorem length_foldl_run
    (a : Assembler)
    (calls : List Call) :
    (calls.foldl Call.run a).length = endOf a.length (itemsOf calls) := by
  induction calls generalizing a with
  | nil =>
      rfl
  | cons c calls ih =>
      rw [List.foldl_cons, ih, length_run, ← endOf_append]
      cases h : c.item? <;> simp [itemsOf, h]

theorem items_assemble
    (calls : List Call) :
    (assemble calls).items.toList = itemsOf calls := by
  rw [assemble, items_foldl_run]
  rfl

theorem length_assemble
    (calls : List Call) :
    (assemble calls).length = endOf 0 (itemsOf calls) :=
  length_foldl_run {} calls

theorem bind_mem_itemsOf
    {calls : List Call}
    {l : Int} :
    Item.bind l ∈ itemsOf calls ↔ Call.bind l ∈ calls := by
  rw [itemsOf, List.mem_filterMap]
  constructor
  · rintro ⟨c, hc, hitem⟩
    cases c <;> simp_all [Call.item?]
  · intro h
    exact ⟨.bind l, h, rfl⟩

/-- The instruction that a call adds does what the call asks for. -/
theorem instruction_of_item?
    {c : Call}
    {i : Instruction Int}
    (hitem : c.item? = some (.instruction i))
    (hvalid : c.Valid)
    (offset : Int → Nat) :
    i.Valid ∧ i.label? = c.label? ∧
      c.operation? offset = some (i.operation fun l => (offset l : Int)) := by
  cases c with
  | emit j =>
      simp only [Call.item?, Option.some.injEq, Item.instruction.injEq] at hitem
      subst hitem
      exact ⟨hvalid, rfl, rfl⟩
  | movImm target n =>
      simp only [Call.item?, Option.some.injEq, Item.instruction.injEq] at hitem
      subst hitem
      refine ⟨Instruction.valid_movImm hvalid n, Instruction.label?_movImm target n, ?_⟩
      rw [Instruction.operation_movImm, Call.operation?]
  | newLabel =>
      simp [Call.item?] at hitem
  | bind l =>
      simp [Call.item?] at hitem

theorem operation?_of_item?_ne
    {c : Call}
    (h : ∀ i, c.item? ≠ some (.instruction i))
    (offset : Int → Nat)
    (a : Assembler) :
    c.operation? offset = none ∧ (c.run a).length = a.length := by
  cases c with
  | emit i =>
      exact absurd rfl (h i)
  | movImm target n =>
      exact absurd rfl (h _)
  | newLabel =>
      exact ⟨rfl, rfl⟩
  | bind l =>
      exact ⟨rfl, rfl⟩

theorem exists_call_of_mem_references
    {calls : List Call}
    {l : Int}
    (hvalid : ∀ c ∈ calls, c.Valid)
    (h : l ∈ references (itemsOf calls)) :
    ∃ c ∈ calls, c.label? = some l := by
  obtain ⟨i, hi, hl⟩ := mem_references.mp h
  obtain ⟨c, hc, hitem⟩ := List.mem_filterMap.mp hi
  obtain ⟨-, hlabel, -⟩ := instruction_of_item? hitem (hvalid c hc) fun _ => 0
  exact ⟨c, hc, by rw [← hlabel, hl]⟩

end Items

section Sweeps

theorem Instruction.size_pos
    {label : Type}
    (i : Instruction label) :
    0 < i.size := by
  have hbytes : 0 < i.opcodeBytes.length := by
    cases i with
    | subImm target n =>
        simp only [Instruction.opcodeBytes]
        split <;> simp
    | _ =>
        simp [Instruction.opcodeBytes]
  exact Nat.lt_of_lt_of_le hbytes (Nat.le_add_right _ _)

theorem sweep_of_decodeAt
    {code : Text}
    {offset size : Nat}
    {op : Operation Int}
    (h : decodeAt code offset = some (op, size))
    (hsize : 0 < size)
    (hoffset : offset < code.length) :
    sweep code offset = (sweep code (offset + size)).map ((offset, op) :: ·) := by
  rw [sweep, if_pos hoffset, h]
  simp [hsize]

theorem sweep_end
    {code : Text}
    {offset : Nat}
    (hoffset : code.length ≤ offset) :
    sweep code offset = some [] := by
  rw [sweep, if_neg (by omega)]

/-- A sweep that has come to the end of some calls finds what the other calls ask for. -/
theorem sweep_after
    (offset : Int → Nat)
    (before rest : List Call)
    (hvalid : ∀ c ∈ rest, c.Valid)
    (hoffset : ∀ c ∈ rest, ∀ l, c.label? = some l → offset l < 2 ^ 31)
    (hlength : endOf 0 (itemsOf (before ++ rest)) < 2 ^ 31) :
    sweep (bytesFrom offset 0 (itemsOf (before ++ rest))) (assemble before).length =
      some (listing offset (assemble before) rest) := by
  induction rest generalizing before with
  | nil =>
      have hend : (bytesFrom offset 0 (itemsOf (before ++ []))).length =
          (assemble before).length := by
        rw [length_bytesFrom_zero, length_assemble, List.append_nil]
      exact sweep_end (Nat.le_of_eq hend)
  | cons c rest ih =>
      have hsplit : before ++ c :: rest = before ++ [c] ++ rest := by simp
      have hrun : assemble (before ++ [c]) = c.run (assemble before) := by
        simp [assemble]
      have hnext : sweep (bytesFrom offset 0 (itemsOf (before ++ c :: rest)))
          (c.run (assemble before)).length =
            some (listing offset (c.run (assemble before)) rest) := by
        rw [hsplit, ← hrun]
        exact ih (before ++ [c]) (fun d hd => hvalid d (List.mem_cons_of_mem c hd))
          (fun d hd => hoffset d (List.mem_cons_of_mem c hd)) (by rwa [← hsplit])
      by_cases hitem : ∃ i, c.item? = some (.instruction i)
      · obtain ⟨i, hi⟩ := hitem
        obtain ⟨hivalid, hlabel, hop⟩ :=
          instruction_of_item? hi (hvalid c List.mem_cons_self) offset
        have hitems : itemsOf (before ++ c :: rest) =
            itemsOf before ++ .instruction i :: itemsOf rest := by
          simp [itemsOf, hi]
        have hlen : (c.run (assemble before)).length = (assemble before).length + i.size := by
          rw [length_run, hi]
          rfl
        have hdecode := decodeAt_instruction (itemsOf before) (itemsOf rest) hivalid
          (fun l hl => hoffset c List.mem_cons_self l (hlabel ▸ hl)) (hitems ▸ hlength)
        rw [← length_assemble, ← hitems] at hdecode
        have hinside : (assemble before).length <
            (bytesFrom offset 0 (itemsOf (before ++ c :: rest))).length := by
          have hpos := i.size_pos
          have hle := le_endOf ((assemble before).length + i.size) (itemsOf rest)
          rw [length_bytesFrom_zero, hitems, endOf_append, ← length_assemble]
          exact Nat.lt_of_lt_of_le (by omega) hle
        rw [sweep_of_decodeAt hdecode i.size_pos hinside, ← hlen, hnext, listing, hop]
        rfl
      · obtain ⟨hop, hlen⟩ :=
          operation?_of_item?_ne (fun i hi => hitem ⟨i, hi⟩) offset (assemble before)
        rw [← hlen, hnext, listing, hop]
        rfl

/-- Assembled code reads back as the instructions of the calls, with every label at the offset
where it was bound last. -/
theorem sweep_finish
    (calls : List Call)
    (hvalid : ∀ c ∈ calls, c.Valid)
    (hbound : ∀ c ∈ calls, ∀ l ∈ c.label?, Call.bind l ∈ calls)
    (hlength : (assemble calls).length < 2 ^ 31) :
    ∃ bytes offset, (assemble calls).finish = .ok bytes ∧
      bytes.length = (assemble calls).length ∧
      (∀ l, Call.bind l ∈ calls → BoundAt calls l (offset l)) ∧
      sweep bytes 0 = some (listing offset {} calls) := by
  have hitems : ∀ l ∈ references (itemsOf calls), Item.bind l ∈ itemsOf calls := by
    intro l hl
    obtain ⟨c, hc, hcl⟩ := exists_call_of_mem_references hvalid hl
    exact bind_mem_itemsOf.mpr (hbound c hc l hcl)
  rw [length_assemble] at hlength
  refine ⟨bytesFrom (offsetOf (itemsOf calls)) 0 (itemsOf calls), offsetOf (itemsOf calls),
    ?_, ?_, ?_, ?_⟩
  · rw [Assembler.finish, items_assemble, finish_eq hitems]
  · rw [length_bytesFrom_zero, length_assemble]
  · intro l hl
    obtain ⟨before, after, rfl, hafter⟩ := exists_last_of_mem hl
    have hlast : Item.bind l ∉ itemsOf after := fun h => hafter (bind_mem_itemsOf.mp h)
    have hsplit : itemsOf (before ++ .bind l :: after) =
        itemsOf before ++ .bind l :: itemsOf after := by
      simp [itemsOf, Call.item?]
    refine ⟨before, after, rfl, hafter, ?_⟩
    rw [hsplit, offsetOf_of_last _ hlast, length_assemble]
  · refine sweep_after _ [] calls hvalid ?_ hlength
    intro c hc l hl
    have hle := offsetOf_le (bind_mem_itemsOf.mpr (hbound c hc l hl))
    exact Nat.lt_of_le_of_lt hle hlength

/-- A jump forward over another label, a jump back, and operands in their longer forms. -/
def jumpsBothWays : List Call :=
  [.newLabel, .newLabel, .emit (.jumpIf Cond.notEqual 1), .bind 0, .movImm .r9 0x123456789a,
    .emit (.storeMem .r12 (-129) .rbp), .emit (.jump 0), .bind 1, .emit (.loadMem .rax .r13 0),
    .emit (.setCond Cond.less .rsi), .emit .ret]

theorem jumpsBothWays_sweep :
    ∃ bytes offset, (assemble jumpsBothWays).finish = .ok bytes ∧ bytes.length = 38 ∧
      BoundAt jumpsBothWays 0 (offset 0) ∧ BoundAt jumpsBothWays 1 (offset 1) ∧
      sweep bytes 0 = some (listing offset {} jumpsBothWays) := by
  obtain ⟨bytes, offset, hbytes, hlength, hbound, hsweep⟩ :=
    sweep_finish jumpsBothWays (by decide +kernel) (by decide +kernel) (by decide +kernel)
  exact ⟨bytes, offset, hbytes, hlength.trans (by decide +kernel), hbound 0 (by decide +kernel),
    hbound 1 (by decide +kernel), hsweep⟩

end Sweeps

end X64
end StackNative
