import StackNative.Proofs.X64.Layout

/-!
# Other labels, the same bytes

**Input.**  Items whose labels are bound, and other labels for them.

**Results.**
* `Instruction.rename`, `Item.rename`: the same pieces with other labels.
* `finish_rename`: labels that are told apart as before give the same bytes.
-/

namespace StackNative
namespace X64

section Renaming

variable {α β : Type} (name : α → β)

/-- The instruction with another label. -/
def Instruction.rename : Instruction α → Instruction β
  | .pair op target source => .pair op target source
  | .wide op target source => .wide op target source
  | .single op r => .single op r
  | .movImm64 target n => .movImm64 target n
  | .movImm32 target n => .movImm32 target n
  | .subImm target n => .subImm target n
  | .loadMem target base offset => .loadMem target base offset
  | .storeMem base offset source => .storeMem base offset source
  | .lea target base offset => .lea target base offset
  | .leaLabel target l => .leaLabel target (name l)
  | .setCond c r => .setCond c r
  | .push r => .push r
  | .pop r => .pop r
  | .jump l => .jump (name l)
  | .jumpIf c l => .jumpIf c (name l)
  | .call l => .call (name l)
  | .callReg r => .callReg r
  | .cqo => .cqo
  | .ret => .ret
  | .syscall => .syscall
  | .ud2 => .ud2
  | .int3 => .int3

/-- The item with another label. -/
def Item.rename : Item α → Item β
  | .instruction i => .instruction (i.rename name)
  | .bind l => .bind (name l)
  | .data bytes => .data bytes
  | .align modulus fill => .align modulus fill

/-- The label that an item names or binds. -/
def Item.label? : Item α → Option α
  | .instruction i => i.label?
  | .bind l => some l
  | .data _ => none
  | .align _ _ => none

namespace Instruction

@[simp] theorem opcodeBytes_rename (i : Instruction α) :
    (i.rename name).opcodeBytes = i.opcodeBytes := by
  cases i <;> rfl

@[simp] theorem label?_rename (i : Instruction α) :
    (i.rename name).label? = i.label?.map name := by
  cases i <;> rfl

@[simp] theorem size_rename (i : Instruction α) : (i.rename name).size = i.size := by
  simp [size]

/-- Only what happens to the label of an instruction matters. -/
theorem rename_congr
    {name' : α → β}
    {i : Instruction α}
    (h : ∀ l, i.label? = some l → name l = name' l) :
    i.rename name = i.rename name' := by
  cases i with
  | leaLabel target l =>
      exact congrArg (leaLabel target) (h l rfl)
  | jump l =>
      exact congrArg jump (h l rfl)
  | jumpIf c l =>
      exact congrArg (jumpIf c) (h l rfl)
  | call l =>
      exact congrArg call (h l rfl)
  | _ =>
      rfl

end Instruction

namespace Item

@[simp] theorem size_rename (item : Item α) (offset : Nat) :
    (item.rename name).size offset = item.size offset := by
  cases item with
  | instruction i =>
      exact i.size_rename name
  | _ =>
      rfl

theorem rename_congr
    {name' : α → β}
    {item : Item α}
    (h : ∀ l, item.label? = some l → name l = name' l) :
    item.rename name = item.rename name' := by
  cases item with
  | instruction i =>
      exact congrArg instruction (i.rename_congr name h)
  | bind l =>
      exact congrArg bind (h l rfl)
  | _ =>
      rfl

end Item

theorem endOf_rename (offset : Nat) (items : List (Item α)) :
    endOf offset (items.map (Item.rename name)) = endOf offset items := by
  induction items generalizing offset with
  | nil =>
      rfl
  | cons item items ih =>
      rw [List.map_cons, endOf_cons, endOf_cons, Item.size_rename, ih]

theorem references_rename (items : List (Item α)) :
    references (items.map (Item.rename name)) = (references items).map name := by
  simp only [references, List.filterMap_map, List.map_filterMap]
  congr
  funext item
  cases item with
  | instruction i =>
      exact i.label?_rename name
  | _ =>
      rfl

theorem Instruction.distanceAt_rename
    {target : α → Nat} {target' : β → Nat}
    {i : Instruction α}
    (h : ∀ l, i.label? = some l → target' (name l) = target l)
    (offset : Nat) :
    (i.rename name).distanceAt target' offset = i.distanceAt target offset := by
  simp only [distanceAt, label?_rename, size_rename]
  cases hl : i.label? with
  | none =>
      rfl
  | some l =>
      simp only [Option.map_some, h l hl]

theorem bytesFrom_rename
    {target : α → Nat} {target' : β → Nat}
    {items : List (Item α)}
    (h : ∀ l ∈ references items, target' (name l) = target l)
    (offset : Nat) :
    bytesFrom target' offset (items.map (Item.rename name)) = bytesFrom target offset items := by
  induction items generalizing offset with
  | nil =>
      rfl
  | cons item items ih =>
      have hrest : ∀ l ∈ references items, target' (name l) = target l := by
        intro l hl
        obtain ⟨i, hi, hil⟩ := mem_references.mp hl
        exact h l (mem_references.mpr ⟨i, List.mem_cons_of_mem _ hi, hil⟩)
      have hitem : (item.rename name).bytesAt target' offset = item.bytesAt target offset := by
        cases item with
        | instruction i =>
            have hnames : ∀ l, i.label? = some l → target' (name l) = target l :=
              fun l hl => h l (mem_references.mpr ⟨i, List.mem_cons_self, hl⟩)
            rw [Item.rename, Item.bytesAt, Item.bytesAt, i.distanceAt_rename name hnames,
              Instruction.bytes, Instruction.bytes, i.opcodeBytes_rename name, i.label?_rename name,
              Option.isSome_map]
        | _ =>
            rfl
      rw [List.map_cons, bytesFrom, bytesFrom, hitem, Item.size_rename, ih hrest]

variable [BEq α] [Hashable α] [LawfulBEq α] [BEq β] [Hashable β] [LawfulBEq β]

/-- A label has its offset under its other name. -/
theorem offsetOf_rename
    {items : List (Item α)}
    {l : α}
    (hl : Item.bind l ∈ items)
    (hinjective : ∀ k, Item.bind k ∈ items → name k = name l → k = l) :
    offsetOf (items.map (Item.rename name)) (name l) = offsetOf items l := by
  obtain ⟨front, back, hitems, hback⟩ := exists_last_of_mem hl
  have hback' : Item.bind (name l) ∉ back.map (Item.rename name) := by
    intro hmem
    obtain ⟨item, hitem, heq⟩ := List.mem_map.mp hmem
    cases item with
    | bind k =>
        have hk : Item.bind k ∈ items := by simp [hitems, hitem]
        obtain rfl := hinjective k hk (by simpa [Item.rename] using heq)
        exact hback hitem
    | _ =>
        simp [Item.rename] at heq
  rw [hitems, List.map_append, List.map_cons, offsetOf_of_last front hback, Item.rename,
    offsetOf_of_last _ hback', endOf_rename]

/-- Labels that are told apart as before give the same bytes. -/
theorem finish_rename
    {items : List (Item α)}
    (hbound : ∀ l ∈ references items, Item.bind l ∈ items)
    (hinjective : ∀ l l', Item.bind l ∈ items → Item.bind l' ∈ items →
      name l = name l' → l = l') :
    finish (items.map (Item.rename name)) = .ok (bytesFrom (offsetOf items) 0 items) := by
  have hbound' : ∀ l ∈ references (items.map (Item.rename name)),
      Item.bind l ∈ items.map (Item.rename name) := by
    rw [references_rename]
    intro l hl
    obtain ⟨k, hk, rfl⟩ := List.mem_map.mp hl
    exact List.mem_map.mpr ⟨.bind k, hbound k hk, rfl⟩
  have htarget : ∀ l ∈ references items,
      offsetOf (items.map (Item.rename name)) (name l) = offsetOf items l := by
    intro l hl
    exact offsetOf_rename name (hbound l hl) fun k hk => hinjective k l hk (hbound l hl)
  rw [finish_eq hbound', bytesFrom_rename name htarget]

end Renaming

end X64
end StackNative
