import Mathlib.Tactic.ByContra
import Mathlib.Tactic.Set
import StackNative.Proofs.X64.Encoding
import StackNative.X64.Assembler

/-!
# The bytes of a program

**Input.**  Items in order, from an offset on.

**Algorithm.**  A label has the offset where it was bound last.  With the offsets of
all labels given, the bytes of an item depend on its own offset only.

**Results.**
* `bindings_of_last`: the offset of a label.
* `finish_eq`: a program whose labels are bound has the bytes of its items, one
  behind the other; `bound_of_finish`: only such a program has bytes.
* `decodeAt_instruction`: at the offset of an instruction its operation is read
  back, with the offsets of its labels.
-/

namespace StackNative
namespace X64

variable {label : Type}

section Offsets

/-- The offset behind items that begin at an offset. -/
def endOf (offset : Nat) (items : List (Item label)) : Nat :=
  items.foldl (fun o item => o + item.size o) offset

@[simp] theorem endOf_nil
    (offset : Nat) :
    endOf offset ([] : List (Item label)) = offset :=
  rfl

@[simp] theorem endOf_cons
    (offset : Nat)
    (item : Item label)
    (items : List (Item label)) :
    endOf offset (item :: items) = endOf (offset + item.size offset) items :=
  rfl

/-- Items behind others end where they end from there. -/
theorem endOf_append
    (offset : Nat)
    (front back : List (Item label)) :
    endOf offset (front ++ back) = endOf (endOf offset front) back := by
  simp [endOf]

/-- Items do not end before they begin. -/
theorem le_endOf
    (offset : Nat)
    (items : List (Item label)) :
    offset ≤ endOf offset items := by
  induction items generalizing offset with
  | nil =>
      simp
  | cons item items ih =>
      have := ih (offset + item.size offset)
      rw [endOf_cons]
      omega

end Offsets

section Bytes

/-- The distance that an instruction at an offset ends with. -/
def Instruction.distanceAt (target : label → Nat) (offset : Nat) (i : Instruction label) : Int32 :=
  match i.label? with
  | some l => .ofInt ((target l : Int) - (offset + i.size : Nat))
  | none => 0

/-- The bytes of an item at an offset. -/
def Item.bytesAt (target : label → Nat) (offset : Nat) : Item label → Text
  | .instruction i => i.bytes (i.distanceAt target offset)
  | .bind _ => []
  | .data bytes => bytes
  | .align modulus fill => .replicate (padding modulus offset) fill

/-- The bytes of items that begin at an offset. -/
def bytesFrom (target : label → Nat) (offset : Nat) : List (Item label) → Text
  | [] => []
  | item :: rest => item.bytesAt target offset ++ bytesFrom target (offset + item.size offset) rest

/-- An item has as many bytes as it is said to take. -/
theorem Item.length_bytesAt
    (target : label → Nat)
    (offset : Nat)
    (item : Item label) :
    (item.bytesAt target offset).length = item.size offset := by
  cases item with
  | instruction i =>
      exact i.length_bytes _
  | bind l =>
      rfl
  | data bytes =>
      rfl
  | align modulus fill =>
      exact List.length_replicate

/-- Items end behind their bytes. -/
theorem offset_add_length_bytesFrom
    (target : label → Nat)
    (offset : Nat)
    (items : List (Item label)) :
    offset + (bytesFrom target offset items).length = endOf offset items := by
  induction items generalizing offset with
  | nil =>
      rfl
  | cons item items ih =>
      rw [endOf_cons, ← ih, bytesFrom, List.length_append, Item.length_bytesAt]
      omega

theorem length_bytesFrom_zero
    (target : label → Nat)
    (items : List (Item label)) :
    (bytesFrom target 0 items).length = endOf 0 items := by
  rw [← offset_add_length_bytesFrom target 0 items, Nat.zero_add]

/-- The bytes of items in front and behind are those of both. -/
theorem bytesFrom_append
    (target : label → Nat)
    (offset : Nat)
    (front back : List (Item label)) :
    bytesFrom target offset (front ++ back) =
      bytesFrom target offset front ++ bytesFrom target (endOf offset front) back := by
  induction front generalizing offset with
  | nil =>
      rfl
  | cons item front ih =>
      rw [List.cons_append, bytesFrom, ih, bytesFrom, endOf_cons, List.append_assoc]

end Bytes

section Labels

/-- An element of a list has a last place in it. -/
theorem exists_last_of_mem
    {α : Type}
    {a : α}
    {xs : List α}
    (h : a ∈ xs) :
    ∃ front back, xs = front ++ a :: back ∧ a ∉ back := by
  obtain ⟨front, back, hxs, hfront⟩ := List.eq_append_cons_of_mem (List.mem_reverse.mpr h)
  refine ⟨back.reverse, front.reverse, ?_, by simpa using hfront⟩
  rw [← List.reverse_reverse xs, hxs]
  simp

/-- The labels that items name. -/
def references (items : List (Item label)) : List label :=
  items.filterMap fun
    | .instruction i => i.label?
    | _ => none

/-- A label is referred to exactly if an instruction has it. -/
theorem mem_references
    {items : List (Item label)}
    {l : label} :
    l ∈ references items ↔ ∃ i, Item.instruction i ∈ items ∧ i.label? = some l := by
  simp only [references, List.mem_filterMap]
  constructor
  · rintro ⟨item, hitem, hl⟩
    cases item with
    | instruction i =>
        exact ⟨i, hitem, hl⟩
    | _ =>
        simp at hl
  · rintro ⟨i, hi, hl⟩
    exact ⟨.instruction i, hi, hl⟩

theorem references_append
    (front back : List (Item label)) :
    references (front ++ back) = references front ++ references back :=
  List.filterMap_append

variable [BEq label] [Hashable label]

/-- Items leave the labels that they do not bind. -/
theorem bindings_of_not_mem
    [LawfulBEq label]
    (bound : Std.HashMap label Nat)
    (offset : Nat)
    {items : List (Item label)}
    {l : label}
    (h : Item.bind l ∉ items) :
    (bindings bound offset items)[l]? = bound[l]? := by
  induction items generalizing bound offset with
  | nil =>
      rfl
  | cons item items ih =>
      rw [List.mem_cons, not_or] at h
      obtain ⟨hitem, hrest⟩ := h
      cases item with
      | bind k =>
          have hne : k ≠ l := by
            rintro rfl
            exact hitem rfl
          rw [bindings, ih _ _ hrest, Std.HashMap.getElem?_insert]
          simp [hne]
      | _ =>
          exact ih _ _ hrest

/-- A label has the offset where it was bound last. -/
theorem bindings_of_last
    [LawfulBEq label]
    (bound : Std.HashMap label Nat)
    (offset : Nat)
    (front : List (Item label))
    {back : List (Item label)}
    {l : label}
    (h : Item.bind l ∉ back) :
    (bindings bound offset (front ++ .bind l :: back))[l]? = some (endOf offset front) := by
  induction front generalizing bound offset with
  | nil =>
      rw [List.nil_append, bindings, bindings_of_not_mem _ _ h]
      simp
  | cons item front ih =>
      cases item with
      | _ =>
          exact ih _ _

/-- The offset of a label of a program. -/
def offsetOf (items : List (Item label)) (l : label) : Nat :=
  (bindings ∅ 0 items)[l]?.getD 0

/-- A label stands for where it is bound last. -/
theorem offsetOf_of_last
    [LawfulBEq label]
    (front : List (Item label))
    {back : List (Item label)}
    {l : label}
    (h : Item.bind l ∉ back) :
    offsetOf (front ++ .bind l :: back) l = endOf 0 front := by
  rw [offsetOf, bindings_of_last _ _ _ h, Option.getD_some]

/-- A label stands for an offset in the program. -/
theorem offsetOf_le
    [LawfulBEq label]
    {items : List (Item label)}
    {l : label}
    (h : Item.bind l ∈ items) :
    offsetOf items l ≤ endOf 0 items := by
  obtain ⟨front, back, rfl, hback⟩ := exists_last_of_mem h
  rw [offsetOf_of_last front hback, endOf_append]
  exact le_endOf _ _

/-- The first pass finds where each label is bound last. -/
theorem bindings_eq_offsetOf
    [LawfulBEq label]
    {items : List (Item label)}
    {l : label}
    (h : Item.bind l ∈ items) :
    (bindings ∅ 0 items)[l]? = some (offsetOf items l) := by
  obtain ⟨front, back, rfl, hback⟩ := exists_last_of_mem h
  rw [offsetOf_of_last front hback, bindings_of_last _ _ _ hback]

/-- Only labels that are bound are found. -/
theorem mem_of_bindings
    [LawfulBEq label]
    {items : List (Item label)}
    {l : label}
    (h : (bindings ∅ 0 items)[l]?.isSome = true) :
    Item.bind l ∈ items := by
  by_contra hnot
  rw [bindings_of_not_mem _ _ hnot] at h
  simp at h

end Labels

section Written

variable [BEq label] [Hashable label]

/-- The second pass writes the bytes of the items if all labels are found. -/
theorem write_eq
    {bound : Std.HashMap label Nat}
    {target : label → Nat}
    {items : List (Item label)}
    (h : ∀ l ∈ references items, bound[l]? = some (target l))
    (out : Array UInt8) :
    write bound out items = .ok (out ++ (bytesFrom target out.size items).toArray) := by
  induction items generalizing out with
  | nil =>
      simp [write, bytesFrom]
  | cons item items ih =>
      have hrest : ∀ l ∈ references items, bound[l]? = some (target l) := by
        intro l hl
        obtain ⟨i, hi, hil⟩ := mem_references.mp hl
        exact h l (mem_references.mpr ⟨i, List.mem_cons_of_mem _ hi, hil⟩)
      cases item with
      | instruction i =>
          cases hl : i.label? with
          | none =>
              simp [write, hl, ih hrest, bytesFrom, Item.bytesAt, Instruction.bytes, Item.size,
                Instruction.size]
          | some l =>
              have hbound : bound[l]? = some (target l) :=
                h l (mem_references.mpr ⟨i, List.mem_cons_self, hl⟩)
              simp [write, hl, hbound, ih hrest, bytesFrom, Item.bytesAt, Instruction.bytes,
                Item.size, Instruction.size, Instruction.distanceAt, distance, Int32.add_assoc]
      | bind l =>
          simp [write, ih hrest, bytesFrom, Item.bytesAt, Item.size]
      | data bytes =>
          simp [write, ih hrest, bytesFrom, Item.bytesAt, Item.size]
      | align modulus fill =>
          simp [write, ih hrest, bytesFrom, Item.bytesAt, Item.size, ← Array.toList_inj]

/-- The second pass ends only if all labels are found. -/
theorem bound_of_write
    {bound : Std.HashMap label Nat}
    {items : List (Item label)}
    {out result : Array UInt8}
    (h : write bound out items = .ok result) :
    ∀ l ∈ references items, bound[l]?.isSome = true := by
  induction items generalizing out with
  | nil =>
      simp [references]
  | cons item items ih =>
      cases item with
      | instruction i =>
          cases hl : i.label? with
          | none =>
              simp only [write, hl] at h
              simpa [references, hl] using ih h
          | some l =>
              simp only [write, hl] at h
              cases hbound : bound[l]? with
              | none =>
                  simp [hbound] at h
              | some target =>
                  simp only [hbound] at h
                  simpa [references, hl, hbound] using ih h
      | bind l =>
          simpa [references] using ih h
      | data bytes =>
          simpa [references] using ih h
      | align modulus fill =>
          simpa [references] using ih h

/-- A program whose labels are bound has the bytes of its items. -/
theorem finish_eq
    [LawfulBEq label]
    {items : List (Item label)}
    (h : ∀ l ∈ references items, Item.bind l ∈ items) :
    finish items = .ok (bytesFrom (offsetOf items) 0 items) := by
  have hwrite := write_eq (fun l hl => bindings_eq_offsetOf (h l hl)) #[]
  rw [finish, hwrite]
  simp [Except.map]

/-- Only a program whose labels are bound has bytes. -/
theorem bound_of_finish
    [LawfulBEq label]
    {items : List (Item label)}
    {bytes : Text}
    (h : finish items = .ok bytes) :
    ∀ l ∈ references items, Item.bind l ∈ items := by
  intro l hl
  cases hwrite : write (bindings ∅ 0 items) #[] items with
  | error e =>
      rw [finish, hwrite] at h
      simp [Except.map] at h
  | ok result =>
      exact mem_of_bindings (bound_of_write hwrite l hl)

end Written

section Decoding

/-- What an instruction does depends on the place of its own label. -/
theorem Instruction.operation_congr
    {p : Type}
    {f g : label → p}
    {i : Instruction label}
    (h : ∀ l, i.label? = some l → f l = g l) :
    i.operation f = i.operation g := by
  cases i <;> simp_all [Instruction.operation, Instruction.label?]

/-- The distance leads from the end of the instruction to the label. -/
theorem Instruction.distanceAt_toInt
    {target : label → Nat}
    {offset : Nat}
    {i : Instruction label}
    {l : label}
    (hl : i.label? = some l)
    (htarget : target l < 2 ^ 31)
    (hend : offset + i.size < 2 ^ 31) :
    ((offset + i.size : Nat) : Int) + (i.distanceAt target offset).toInt = target l := by
  rw [Instruction.distanceAt, hl]
  simp only
  rw [Int32.toInt_ofInt_of_le (by omega) (by omega)]
  omega

/-- At the offset of an instruction its operation is read back, with the offsets of its labels. -/
theorem decodeAt_instruction
    {target : label → Nat}
    (front : List (Item label))
    {i : Instruction label}
    (back : List (Item label))
    (hi : i.Valid)
    (htarget : ∀ l, i.label? = some l → target l < 2 ^ 31)
    (hlength : endOf 0 (front ++ .instruction i :: back) < 2 ^ 31) :
    decodeAt (bytesFrom target 0 (front ++ .instruction i :: back)) (endOf 0 front) =
      some (i.operation fun l => (target l : Int), i.size) := by
  set rest := bytesFrom target (endOf 0 front + i.size) back with hrest
  have hbytes : bytesFrom target 0 (front ++ .instruction i :: back) =
      bytesFrom target 0 front ++ (i.bytes (i.distanceAt target (endOf 0 front)) ++ rest) := by
    rw [bytesFrom_append, bytesFrom]
    rfl
  have hfront := length_bytesFrom_zero target front
  have hend : endOf 0 front + i.size < 2 ^ 31 := by
    have := le_endOf (endOf 0 front + i.size) back
    rw [endOf_append, endOf_cons] at hlength
    exact Nat.lt_of_le_of_lt this hlength
  have hsize := i.length_bytes (i.distanceAt target (endOf 0 front))
  rw [hbytes, decodeAt, List.drop_left' hfront, i.decode_bytes hi, Option.map_some]
  simp only [List.length_append, hfront, hsize, i.map_operation]
  congr 2
  · apply Instruction.operation_congr
    intro l hl
    rw [← Instruction.distanceAt_toInt hl (htarget l hl) hend]
    congr 2
    omega
  · omega

end Decoding

end X64
end StackNative
