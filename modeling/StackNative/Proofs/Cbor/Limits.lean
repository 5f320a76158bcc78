import StackNative.Proofs.Cbor.RoundTrip

/-!
# What of an item that was written is read back

**Input.**  An item as a canonical writer makes them, of any depth and with
collections of any length.

**Algorithm.**  A read that succeeds is followed back to the reads of the elements:
none of them can have failed, and each took exactly the bytes that were written for it.

**Results.**
* `Item.Plain`: the texts are in one piece, there are no tags, and every number fits
  into a head.
* `fits_of_readItem`: if a plain item is read at some depth, it fits into the levels
  that are left there.
* `decode?_encode_iff`: a plain item is read back exactly when it fits into the levels
  of a reader.
-/

namespace StackNative
namespace Cbor

/-- An item as a canonical writer makes them, as deep and as long as one likes. -/
inductive Item.Plain : Item → Prop
  | natural {n : Nat} : n < 2 ^ 64 → Plain (.natural n)
  | negative {n : Nat} : n < 2 ^ 64 → Plain (.negative n)
  | bytes (content : Text) : Plain (.bytes content)
  | text (content : Text) : Plain (.text [content])
  | array {items : List Item} : (∀ item ∈ items, Plain item) → Plain (.array items)
  | map {entries : List (Item × Item)} :
      (∀ e ∈ entries, Plain e.1) → (∀ e ∈ entries, Plain e.2) → Plain (.map entries)
  | simple {n : Nat} : n < 24 ∨ 32 ≤ n → n < 256 → Plain (.simple n)
  | float (x : Binary64) : Plain (.float x)

section Lengths

theorem head_ne_nil (major n : Nat) : head major n ≠ [] := by
  simp only [head]
  grind

theorem floatBytes_ne_nil (x : Binary64) : floatBytes x ≠ [] := by
  obtain ⟨info, n, hread, -⟩ := readHead_floatBytes x []
  rintro hnil
  rw [hnil] at hread
  cases hread

theorem Item.Plain.encode_ne_nil
    {item : Item}
    (h : item.Plain) :
    item.encode ≠ [] := by
  cases h with
  | float x =>
      rw [Item.encode_float]
      exact floatBytes_ne_nil x
  | _ =>
      simp [head_ne_nil]

/-- Neither the number of items nor any one of them is longer than all of them. -/
theorem length_flatMap_encode
    {items : List Item}
    (h : ∀ item ∈ items, item.Plain) :
    items.length ≤ (items.flatMap Item.encode).length ∧
      ∀ item ∈ items, item.encode.length ≤ (items.flatMap Item.encode).length := by
  induction items with
  | nil =>
      simp
  | cons item items ih =>
      obtain ⟨hitem, hitems⟩ := List.forall_mem_cons.mp h
      obtain ⟨hcount, hall⟩ := ih hitems
      have hpos := List.length_pos_of_ne_nil hitem.encode_ne_nil
      rw [List.flatMap_cons, List.length_append, List.length_cons, List.forall_mem_cons]
      exact ⟨by omega, by omega, fun i hi => (hall i hi).trans (Nat.le_add_left _ _)⟩

end Lengths

section Collections

variable {read : Text → Option (Item × Text)} {P : Item → Prop}

/-- Whatever is read where an item was written is that item, of which something then holds. -/
def ReadsOnly (read : Text → Option (Item × Text)) (P : Item → Prop) (item : Item) : Prop :=
  ∀ rest r, read (item.encode ++ rest) = some r → P item ∧ r = (item.settled, rest)

theorem readsOnly_count
    {items : List Item} {done : Array Item} {rest : Text} {r : Array Item × Text}
    (hitems : ∀ item ∈ items, ReadsOnly read P item)
    (h : readCount read items.length done (items.flatMap Item.encode ++ rest) = some r) :
    (∀ item ∈ items, P item) ∧ r = (done ++ (items.map Item.settled).toArray, rest) := by
  induction items generalizing done with
  | nil =>
      cases h
      simp
  | cons item items ih =>
      obtain ⟨hitem, hitems⟩ := List.forall_mem_cons.mp hitems
      rw [List.flatMap_cons, List.append_assoc, List.length_cons, readCount] at h
      split at h
      · rename_i item' rest' hread
        obtain ⟨hP, heq⟩ := hitem _ _ hread
        cases heq
        obtain ⟨hall, rfl⟩ := ih hitems h
        exact ⟨List.forall_mem_cons.mpr ⟨hP, hall⟩, by simp⟩
      · cases h

/-- An array that is read is not too long, and each of its elements was read. -/
theorem readsOnly_array
    {items : List Item} {info : Nat} {rest : Text} {r : Item × Text}
    (hinfo : info ≠ 31)
    (hitems : ∀ item ∈ items, ReadsOnly read P item)
    (h : readCollection read ⟨4, info, items.length⟩ (items.flatMap Item.encode ++ rest) = some r) :
    items.length ≤ maxCount ∧ (∀ item ∈ items, P item) ∧ r = ((Item.array items).settled, rest) := by
  simp only [readCollection, beq_eq_false_iff_ne.mpr hinfo] at h
  split at h
  · cases h
  · rename_i done rest' helements
    simp only [Bool.false_eq_true, if_false, Nat.reduceBEq, Nat.one_mul] at helements h
    split at helements
    · cases helements
    · rename_i hcount
      obtain ⟨hall, heq⟩ := readsOnly_count hitems helements
      cases heq
      cases h
      exact ⟨Nat.not_lt.mp hcount, hall, by simp [Item.settled]⟩

/-- The same of a map, with the keys and the values of its entries. -/
theorem readsOnly_map
    {entries : List (Item × Item)} {info : Nat} {rest : Text} {r : Item × Text}
    (hinfo : info ≠ 31)
    (hkeys : ∀ e ∈ entries, ReadsOnly read P e.1)
    (hvalues : ∀ e ∈ entries, ReadsOnly read P e.2)
    (h : readCollection read ⟨5, info, entries.length⟩
      ((entries.flatMap fun e => e.1.encode ++ e.2.encode) ++ rest) = some r) :
    entries.length ≤ maxCount ∧ ((∀ e ∈ entries, P e.1) ∧ ∀ e ∈ entries, P e.2) ∧
      r = ((Item.map entries).settled, rest) := by
  simp only [readCollection, beq_eq_false_iff_ne.mpr hinfo] at h
  split at h
  · cases h
  · rename_i done rest' helements
    simp only [Bool.false_eq_true, if_false, beq_self_eq_true, if_true, ← length_row,
      ← flatMap_encode_row] at helements h
    split at helements
    · cases helements
    · rename_i hcount
      obtain ⟨hall, heq⟩ := readsOnly_count (forall_mem_row.mpr ⟨hkeys, hvalues⟩) helements
      cases heq
      rw [map_settled_row] at h
      simp only [Array.empty_append, pairUp_row, List.nil_append, Option.map_some,
        Option.some.injEq] at h
      exact ⟨Nat.not_lt.mp hcount, forall_mem_row.mp hall, by rw [← h, Item.settled]⟩

end Collections

section Items

/-- An item without elements takes up no level, so it is read back wherever anything is. -/
theorem readsOnly_of_fits
    {item : Item} {fuel depth : Nat} {inside : Bool}
    (h : item.Fits 0)
    (hdepth : depth ≤ maxNesting) :
    ReadsOnly (readItem fuel depth inside) (Item.Fits (maxNesting - depth)) item := by
  intro rest r hread
  refine ⟨h.mono (Nat.zero_le _), ?_⟩
  cases fuel with
  | zero =>
      cases hread
  | succ fuel =>
      rw [readItem_encode h fuel depth inside (Nat.zero_le fuel) hdepth rest] at hread
      cases hread
      rfl

/-- An array or a map is only read where a level is left, and then one level deeper. -/
theorem readCollection_of_readItem
    {major count fuel depth : Nat} {inside : Bool} {content : Text} {r : Item × Text}
    (hmajor : major = 4 ∨ major = 5)
    (hcount : count < 2 ^ 64)
    (h : readItem fuel depth inside (head major count ++ content) = some r) :
    ∃ fuel' info, info ≠ 31 ∧ depth + 1 ≤ maxNesting ∧
      readCollection (readItem fuel' (depth + 1) false) ⟨major, info, count⟩ content = some r := by
  cases fuel with
  | zero =>
      cases h
  | succ fuel =>
      obtain ⟨info, hhead, hinfo, -⟩ :=
        readHead_head (by omega : major < 8) hcount (by omega) content
      rw [readItem, hhead] at h
      rcases hmajor with rfl | rfl
      all_goals
        simp only at h
        split at h
        · cases h
        · next hroom =>
            exact ⟨fuel, info, hinfo, Nat.not_lt.mp hroom, h⟩

/-- Whatever is read where a plain item was written is that item, and it fits into the levels that
are left. -/
theorem fits_of_readItem
    {item : Item}
    (h : item.Plain)
    (hlength : item.encode.length < 2 ^ 64)
    {depth : Nat}
    (hdepth : depth ≤ maxNesting)
    (fuel : Nat)
    (inside : Bool) :
    ReadsOnly (readItem fuel depth inside) (Item.Fits (maxNesting - depth)) item := by
  induction h generalizing depth fuel inside with
  | natural hn =>
      exact readsOnly_of_fits (.natural hn) hdepth
  | negative hn =>
      exact readsOnly_of_fits (.negative hn) hdepth
  | bytes content =>
      rw [Item.encode_bytes, List.length_append] at hlength
      exact readsOnly_of_fits (.bytes (by omega)) hdepth
  | text content =>
      rw [Item.encode_text, List.length_append] at hlength
      exact readsOnly_of_fits (.text (by omega)) hdepth
  | simple hn hlt =>
      exact readsOnly_of_fits (.simple hn hlt) hdepth
  | float x =>
      exact readsOnly_of_fits .float hdepth
  | @array items hitems ih =>
      rw [Item.encode_array, List.length_append] at hlength
      obtain ⟨hcount, hsizes⟩ := length_flatMap_encode hitems
      intro rest r hread
      rw [Item.encode_array, List.append_assoc] at hread
      obtain ⟨fuel, info, hinfo, hroom, hread⟩ :=
        readCollection_of_readItem (.inl rfl) (by omega) hread
      have hreads : ∀ item ∈ items, ReadsOnly (readItem fuel (depth + 1) false)
          (Item.Fits (maxNesting - (depth + 1))) item := by
        intro item hitem
        have hsize := hsizes item hitem
        exact ih item hitem (by omega) hroom fuel false
      obtain ⟨hshort, hall, rfl⟩ := readsOnly_array hinfo hreads hread
      refine ⟨?_, rfl⟩
      rw [show maxNesting - depth = maxNesting - (depth + 1) + 1 by omega]
      exact .array hshort hall
  | @map entries hkeys hvalues ihkeys ihvalues =>
      rw [Item.encode_map, List.length_append, ← flatMap_encode_row] at hlength
      obtain ⟨hcount, hsizes⟩ := length_flatMap_encode (forall_mem_row.mpr ⟨hkeys, hvalues⟩)
      rw [length_row] at hcount
      obtain ⟨hkeySizes, hvalueSizes⟩ := forall_mem_row.mp hsizes
      intro rest r hread
      rw [Item.encode_map, List.append_assoc] at hread
      obtain ⟨fuel, info, hinfo, hroom, hread⟩ :=
        readCollection_of_readItem (.inr rfl) (by omega) hread
      obtain ⟨hshort, ⟨hallKeys, hallValues⟩, rfl⟩ := readsOnly_map hinfo
        (fun e he => ihkeys e he ((hkeySizes e he).trans_lt (by omega)) hroom fuel false)
        (fun e he => ihvalues e he ((hvalueSizes e he).trans_lt (by omega)) hroom fuel false) hread
      refine ⟨?_, rfl⟩
      rw [show maxNesting - depth = maxNesting - (depth + 1) + 1 by omega]
      exact .map hshort hallKeys hallValues

/-- A plain item on its own is read back exactly when it fits. -/
theorem decode?_encode_iff
    {item item' : Item}
    (h : item.Plain)
    (hlength : item.encode.length < 2 ^ 64) :
    Item.decode? item.encode = some item' ↔ item.Fits maxNesting ∧ item' = item.settled := by
  constructor
  · intro hdecode
    rw [Item.decode?] at hdecode
    split at hdecode
    · rename_i item'' hread
      cases hdecode
      rw [← List.append_nil item.encode] at hread
      obtain ⟨hfits, heq⟩ := fits_of_readItem h hlength (Nat.zero_le _) _ false [] _ hread
      cases heq
      exact ⟨hfits, rfl⟩
    · cases hdecode
  · rintro ⟨hfits, rfl⟩
    exact decode?_encode hfits

end Items

end Cbor
end StackNative
