import StackNative.Proofs.Bytecode.Constants
import StackNative.Proofs.Bytecode.RoundTrip
import StackNative.Proofs.Cbor.Limits

/-!
# Which containers that were written can be read

**Input.**  Any chunk that can be written, with texts of any bytes, tables of any
length and constants of any depth.

**Algorithm.**  A writer refuses none of these, a reader does: it wants valid texts,
short tables and few levels.  What it wants is followed from the item of a chunk to
those of its constants, and back.

**Results.**
* `Value.plain_toItem`, `Chunk.plain_toItem`: what is written of any chunk is plain.
* `Value.needs`, `Chunk.storable_of_reads`: what was read could be stored, and is no deeper
  than the levels it was read in.
* `Chunk.unmarshal_marshal_iff`: what is written is read again exactly when it could be
  stored and is not too deep.
-/

namespace StackNative
namespace Bytecode

open Cbor (Item maxCount maxNesting)

section Shapes

/-- An integer is plain. -/
theorem plain_ofInt (n : Int64) : (Item.ofInt n.toInt).Plain := by
  have hlow := n.le_toInt
  have hhigh := n.toInt_lt
  cases hn : n.toInt with
  | ofNat m =>
      rw [Int.ofNat_eq_natCast] at hn
      exact .natural (by omega)
  | negSucc m =>
      exact .negative (by omega)

theorem plain_null : Item.null.Plain := .simple (by decide) (by decide)

/-- Both parts of an entry are plain. -/
def EntryPlain (e : Item × Item) : Prop := e.1.Plain ∧ e.2.Plain

/-- A map is plain if its entries are. -/
theorem plain_map
    {entries : List (Item × Item)}
    (h : ∀ e ∈ entries, EntryPlain e) :
    (Item.map entries).Plain :=
  .map (fun e he => (h e he).1) fun e he => (h e he).2

/-- An entry with a short key is plain if its item is. -/
theorem entryPlain_natural
    {key : Nat} {item : Item}
    (hkey : key ≤ 255)
    (hitem : item.Plain) :
    EntryPlain (.natural key, item) :=
  ⟨.natural (by omega), hitem⟩

/-- A constant is plain if its fields are. -/
theorem plain_constantItem
    {kind : Nat} {fields : List (Item × Item)}
    (hkind : kind ≤ 255)
    (h : ∀ e ∈ fields, EntryPlain e) :
    (constantItem kind fields).Plain :=
  plain_map (List.forall_mem_cons.mpr ⟨entryPlain_natural (by decide) (.natural (by omega)), h⟩)

/-- A field that may be left out is plain if its item is. -/
theorem entryPlain_optionalField
    {key : Nat} {present : Bool} {item : Item}
    (hkey : key ≤ 255)
    (hitem : item.Plain) :
    ∀ e ∈ optionalField key present item, EntryPlain e := by
  cases present with
  | false =>
      exact nofun
  | true =>
      exact List.forall_mem_singleton.mpr (entryPlain_natural hkey hitem)

/-- A constant with one field is plain if its item is. -/
theorem plain_single
    {kind key : Nat} {present : Bool} {item : Item}
    (hkind : kind ≤ 255)
    (hkey : key ≤ 255)
    (hitem : item.Plain) :
    (constantItem kind (optionalField key present item)).Plain :=
  plain_constantItem hkind (entryPlain_optionalField hkey hitem)

/-- The fields of a function in front of its body are plain. -/
theorem plain_front (f : Prototype) : ∀ e ∈ f.front, EntryPlain e :=
  List.forall_mem_append.mpr ⟨entryPlain_optionalField (by decide) (.text f.name),
    entryPlain_optionalField (by decide) (plain_ofInt f.arity)⟩

/-- A list is plain if its items are. -/
theorem plain_listItem
    {items : List Item}
    (h : ∀ i ∈ items, i.Plain) :
    (listItem items).Plain := by
  cases items with
  | nil =>
      exact plain_null
  | cons i items =>
      exact .array h

/-- A chunk is plain if its constants are. -/
theorem Chunk.plain_toItem
    {c : Chunk} {item : Item}
    (h : ∀ v ∈ c.constants, ∀ i, v.toItem = .ok i → i.Plain)
    (hitem : c.toItem = .ok item) :
    item.Plain := by
  obtain ⟨-, items, hforall, rfl⟩ := (c.toItem_eq_ok item).mp hitem
  have hcode : c.codeItem.Plain := by
    unfold Chunk.codeItem
    split
    · exact plain_null
    · exact .bytes _
  have hlines : c.linesItem.Plain := by
    unfold Chunk.linesItem
    split
    · exact plain_null
    · refine .array fun i hi => ?_
      obtain ⟨n, -, rfl⟩ := List.mem_map.mp hi
      exact plain_ofInt n
  have hpool : (listItem items).Plain := by
    refine plain_listItem fun i hi => ?_
    obtain ⟨v, hv, hvi⟩ := exists_of_mem_items hforall hi
    exact h v (Array.mem_toList_iff.mp hv) i hvi
  refine plain_map ?_
  simp only [List.forall_mem_cons, List.not_mem_nil, false_imp_iff, implies_true, and_true]
  exact ⟨entryPlain_natural (by decide) (.text _),
    entryPlain_natural (by decide) (.natural (by decide)),
    entryPlain_natural (by decide) (.natural (by decide)),
    entryPlain_natural (by decide) hcode, entryPlain_natural (by decide) hlines,
    entryPlain_natural (by decide) hpool⟩

/-- What is written of a constant is plain, whatever the constant. -/
theorem Value.plain_toItem (v : Value) : ∀ item, v.toItem = .ok item → item.Plain := by
  induction v using Value.induction with
  | scalar v harray hfunc =>
      intro item hitem
      cases v with
      | null =>
          cases hitem
          exact plain_constantItem (by decide) nofun
      | bool b =>
          cases hitem
          exact plain_single (by decide) (by decide)
            (.simple (by cases b <;> decide) (by cases b <;> decide))
      | int n =>
          cases hitem
          exact plain_single (by decide) (by decide) (plain_ofInt n)
      | float x =>
          cases hitem
          exact plain_single (by decide) (by decide) (.float x)
      | string s =>
          cases hitem
          exact plain_single (by decide) (by decide) (.text s)
      | array items => exact absurd rfl (harray items)
      | func f => exact absurd rfl (hfunc f)
      | missingInt | missingFloat | missingFunc | unknown =>
          cases hitem
  | array vs ih =>
      intro item hitem
      obtain ⟨items, hforall, rfl⟩ := (Value.toItem_array_eq_ok vs item).mp hitem
      refine plain_single (by decide) (by decide) (.array fun i hi => ?_)
      obtain ⟨v, hv, hvi⟩ := exists_of_mem_items hforall hi
      exact ih v hv i hvi
  | func f ih =>
      intro item hitem
      rw [Value.toItem] at hitem
      rcases (f.toItem_eq_ok item).mp hitem with ⟨-, rfl⟩ | ⟨c, i, hsome, hi, rfl⟩
      · exact plain_constantItem (by decide) (plain_front f)
      · refine plain_constantItem (by decide) (List.forall_mem_append.mpr ⟨plain_front f, ?_⟩)
        exact List.forall_mem_singleton.mpr
          (entryPlain_natural (by decide) (Chunk.plain_toItem (ih c hsome) hi))

end Shapes

section Fields

/-- The values of a map that fits have a level less. -/
theorem exists_of_fits_map
    {level : Nat} {entries : List (Item × Item)}
    (h : (Item.map entries).Fits level) :
    ∃ l, level = l + 1 ∧ ∀ e ∈ entries, e.2.Fits l := by
  cases h with
  | map _ _ hvalues => exact ⟨_, rfl, hvalues⟩

/-- The items of an array that fits have a level less, and are not too many. -/
theorem exists_of_fits_array
    {level : Nat} {items : List Item}
    (h : (Item.array items).Fits level) :
    ∃ l, level = l + 1 ∧ items.length ≤ maxCount ∧ ∀ i ∈ items, i.Fits l := by
  cases h with
  | array hcount hitems => exact ⟨_, rfl, hcount, hitems⟩

/-- A key is that of one field only. -/
theorem eq_of_fieldKey_natural
    {count m n : Nat}
    (h : FieldKey.of count (.natural m) = .field n) :
    m = n := by
  rw [FieldKey.of] at h
  split at h
  · cases h
    rfl
  · cases h

/-- Where the fields of a record are read, the first entry for a field is. -/
theorem exists_update_of_readFields
    {α : Type} {count n : Nat} {update : Nat → Item → α → Option α}
    {value : Item} {seen : List Nat} {a a' : α}
    (front back : List (Item × Item))
    (hn : 1 ≤ n ∧ n ≤ count)
    (hseen : n ∉ seen)
    (hfront : ∀ e ∈ front, ∃ m, e.1 = .natural m ∧ m ≠ n)
    (h : readFields count update (front ++ (.natural n, value) :: back) seen a = some a') :
    ∃ b b', update n value b = some b' := by
  induction front generalizing seen a with
  | nil =>
      rw [List.nil_append, readFields, fieldKey_natural hn] at h
      simp only [List.contains_iff_mem, hseen, if_false] at h
      split at h
      · rename_i b hb
        exact ⟨a, b, hb⟩
      · cases h
  | cons e front ih =>
      obtain ⟨⟨m, hm, hne⟩, hfront⟩ := List.forall_mem_cons.mp hfront
      rw [List.cons_append, readFields, hm] at h
      split at h
      · cases h
      · exact ih hseen hfront h
      · rename_i l hkey
        cases eq_of_fieldKey_natural hkey
        split at h
        · exact ih hseen hfront h
        · split at h
          · refine ih ?_ hfront h
            rw [List.mem_cons, not_or]
            exact ⟨hne.symm, hseen⟩
          · cases h

/-- Settled entries have the keys that they had before. -/
theorem map_settled_entries
    {front : List (Item × Item)} {n : Nat}
    (h : ∀ e ∈ front, ∃ m, e.1 = .natural m ∧ m ≠ n) :
    ∀ e ∈ front.map fun e => (e.1.settled, e.2.settled), ∃ m, e.1 = .natural m ∧ m ≠ n := by
  intro e he
  obtain ⟨e', he', rfl⟩ := List.mem_map.mp he
  obtain ⟨m, hm, hne⟩ := h e' he'
  exact ⟨m, by rw [hm, settled_natural], hne⟩

/-- Each field that is written of a constant is read. -/
theorem exists_update_of_readConstant
    {kind n : Nat} {value : Item} {k : Constant}
    (front back : List (Item × Item))
    (hkind : kind ≤ 255)
    (hn : 2 ≤ n ∧ n ≤ 8)
    (hfront : ∀ e ∈ front, ∃ m, e.1 = .natural m ∧ m ≠ n)
    (h : readConstant (constantItem kind (front ++ (.natural n, value) :: back)).settled = some k) :
    ∃ b b' : Constant, b.update n value.settled = some b' := by
  rw [settled_constantItem, readConstant_constantItem hkind, readConstantFields_eq,
    List.map_append, List.map_cons, settled_natural] at h
  refine exists_update_of_readFields _ _ (by omega) ?_ (map_settled_entries hfront) h
  rw [List.mem_singleton]
  omega

/-- The fields in front of a body are not the one of the body. -/
theorem Prototype.key_front (f : Prototype) : ∀ e ∈ f.front, ∃ m, e.1 = .natural m ∧ m ≠ 8 := by
  intro e he
  rw [Prototype.front, optionalField, optionalField] at he
  rcases List.mem_append.mp he with he | he
  · split at he
    · cases List.mem_singleton.mp he
      exact ⟨5, rfl, by decide⟩
    · cases he
  · split at he
    · cases List.mem_singleton.mp he
      exact ⟨7, rfl, by decide⟩
    · cases he

/-- A text that is read is well formed. -/
theorem isValid_of_textField
    {old t t' : Text}
    (h : (Item.text [t]).settled.textField old = some t') :
    t.isValid = true := by
  rw [settled_text, Item.textField, Item.payload] at h
  by_contra hvalid
  simp [hvalid] at h

/-- Where a list of constants is read, each of them is. -/
theorem exists_of_readConstantsOnto
    {items : List Item} {done : Array Constant} {ks : List Constant}
    (h : readConstantsOnto done items = some ks) :
    ∀ i ∈ items, ∃ k, readConstant i = some k := by
  induction items generalizing done with
  | nil =>
      exact nofun
  | cons i items ih =>
      rw [readConstantsOnto] at h
      split at h
      · rename_i k hk
        exact List.forall_mem_cons.mpr ⟨⟨k, hk⟩, ih h⟩
      · cases h

/-- Where the constants of a list are read, each of its items is. -/
theorem exists_of_readConstants
    {items : List Item} {ks : List Constant}
    (h : readConstants (Item.array items).settled = some ks) :
    ∀ i ∈ items, ∃ k, readConstant i.settled = some k := by
  rw [Item.settled, readConstants] at h
  intro i hi
  exact exists_of_readConstantsOnto h i.settled (List.mem_map.mpr ⟨i, hi, rfl⟩)

/-- Where a container is read, its constants are. -/
theorem exists_of_readContainer
    {c : Chunk} {items : List Item} {b : Container}
    (h : readContainer (c.containerItem items).settled = some b) :
    ∃ ks, readConstants (listItem items).settled = some ks := by
  simp only [Chunk.containerItem, Item.settled, List.map_cons, List.map_nil, readContainer,
    readContainerFields_eq] at h
  -- the constants are the last of the six fields
  obtain ⟨b₀, b₁, hupdate⟩ := exists_update_of_readFields [_, _, _, _, _] [] (by decide)
    List.not_mem_nil (by simp) h
  obtain ⟨ks, hks, -⟩ := Option.map_eq_some_iff.mp hupdate
  exact ⟨ks, hks⟩

end Fields

section Needs

variable {c : Chunk} {item : Item} {level : Nat}

/-- A constant that was written and fits so many levels is no deeper, and if it is read, it could be
stored. -/
def Value.Needs (v : Value) : Prop :=
  ∀ item level k, v.toItem = .ok item → item.Fits level → readConstant item.settled = some k →
    v.levels ≤ level ∧ v.Storable

/-- Values are storable if their items fit and are read. -/
theorem storable_of_items
    {vs : List Value} {items : List Item}
    (hforall : List.Forall₂ (fun v i => v.toItem = .ok i) vs items)
    (h : ∀ v ∈ vs, v.Needs)
    (hfits : ∀ i ∈ items, i.Fits level)
    (hread : ∀ i ∈ items, ∃ k, readConstant i.settled = some k) :
    ∀ v ∈ vs, v.levels ≤ level ∧ v.Storable := by
  induction hforall with
  | nil =>
      simp
  | @cons v i vs items hi _ ih =>
      obtain ⟨hv, hvs⟩ := List.forall_mem_cons.mp h
      obtain ⟨hfit, hfits⟩ := List.forall_mem_cons.mp hfits
      obtain ⟨⟨k, hk⟩, hread⟩ := List.forall_mem_cons.mp hread
      exact List.forall_mem_cons.mpr ⟨hv i level k hi hfit hk, ih hvs hfits hread⟩

/-- A list of constants that is not empty has a level of its own. -/
theorem storable_of_list
    {vs : List Value} {items : List Item} {ks : List Constant}
    (hforall : List.Forall₂ (fun v i => v.toItem = .ok i) vs items)
    (h : ∀ v ∈ vs, v.Needs)
    (hfits : (Item.array items).Fits level)
    (hread : readConstants (Item.array items).settled = some ks) :
    vs.length ≤ maxCount ∧ poolLevels vs ≤ level ∧ ∀ v ∈ vs, v.Storable := by
  obtain ⟨l, rfl, hcount, hall⟩ := exists_of_fits_array hfits
  have hvs := storable_of_items hforall h hall (exists_of_readConstants hread)
  rw [hforall.length_eq]
  exact ⟨hcount, poolLevels_le_succ.mpr fun v hv => (hvs v hv).1, fun v hv => (hvs v hv).2⟩

/-- A chunk whose container was read could be stored, if that is so of its constants. -/
theorem Chunk.storable_of_reads
    {b : Container}
    (h : ∀ v ∈ c.constants, v.Needs)
    (hitem : c.toItem = .ok item)
    (hfits : item.Fits level)
    (hread : readContainer item.settled = some b) :
    c.levels ≤ level ∧ c.Storable := by
  obtain ⟨hsize, items, hforall, rfl⟩ := (c.toItem_eq_ok item).mp hitem
  obtain ⟨l, rfl, hall⟩ := exists_of_fits_map hfits
  obtain ⟨ks, hks⟩ := exists_of_readContainer hread
  have hlines : c.lines.size ≤ maxCount ∧ (if c.lineTable.isSome then 1 else 0) ≤ l := by
    have hfit := hall (.natural 5, c.linesItem) (by simp)
    unfold Chunk.lines
    cases htable : c.lineTable with
    | none =>
        simp
    | some ns =>
        simp only [Chunk.linesItem, htable] at hfit
        obtain ⟨l', rfl, hcount, -⟩ := exists_of_fits_array hfit
        rw [List.length_map, Array.length_toList] at hcount
        exact ⟨hcount, by simp⟩
  have hpool : c.constants.size ≤ maxCount ∧ poolLevels c.constants.toList ≤ l ∧
      ∀ v ∈ c.constants, v.Storable := by
    have hfit := hall (.natural 6, listItem items) (by simp)
    have hneeds : ∀ v ∈ c.constants.toList, v.Needs := fun v hv => h v (Array.mem_toList_iff.mp hv)
    cases items with
    | nil =>
        have hempty := List.forall₂_nil_right_iff.mp hforall
        rw [hempty]
        rw [Array.toList_eq_nil_iff] at hempty
        simp [hempty, poolLevels]
    | cons i items =>
        obtain ⟨hcount, hlevels, hstorable⟩ := storable_of_list hforall hneeds hfit hks
        exact ⟨hcount, hlevels, fun v hv => hstorable v (Array.mem_toList_iff.mpr hv)⟩
  refine ⟨?_, ⟨⟨hsize ▸ hlines.1, hlines.1, hpool.1⟩, hpool.2.2⟩⟩
  rw [Chunk.levels_eq, Nat.add_comm]
  exact Nat.succ_le_succ (max_le hlines.2 hpool.2.1)

/-- The fields of a constant that fits have a level less. -/
theorem fits_of_mem_fields
    {kind : Nat} {fields : List (Item × Item)}
    (h : (constantItem kind fields).Fits level) :
    ∃ l, level = l + 1 ∧ ∀ e ∈ fields, e.2.Fits l := by
  obtain ⟨l, rfl, hall⟩ := exists_of_fits_map h
  exact ⟨l, rfl, (List.forall_mem_cons.mp hall).2⟩

theorem storable_nil : Text.Storable [] := ⟨rfl, by decide⟩

/-- A text that was read is valid, and so is one that was left out because it is empty. -/
theorem storable_of_text
    {kind : Nat} {t : Text} {fields : List (Item × Item)} {k : Constant}
    (hkind : kind ≤ 255)
    (hfits : ∀ e ∈ optionalField 5 (!t.isEmpty) (.text [t]) ++ fields, e.2.Fits level)
    (hread : readConstant
      (constantItem kind (optionalField 5 (!t.isEmpty) (.text [t]) ++ fields)).settled = some k) :
    t.Storable := by
  cases t with
  | nil =>
      exact storable_nil
  | cons b t =>
      rw [show optionalField 5 (!(b :: t).isEmpty) (.text [b :: t]) =
        [(.natural 5, .text [b :: t])] from rfl] at hfits hread
      have hfit := hfits (.natural 5, .text [b :: t]) (by simp)
      obtain ⟨k₀, k₁, hupdate⟩ :=
        exists_update_of_readConstant [] fields hkind (by decide) (by simp) hread
      obtain ⟨x, hx, -⟩ := Option.map_eq_some_iff.mp hupdate
      cases hfit with
      | text hlength => exact ⟨isValid_of_textField hx, hlength⟩

/-- A value without values in it could be stored if it is read. -/
theorem needs_scalar
    {v : Value}
    (harray : ∀ items, v ≠ .array items)
    (hfunc : ∀ f, v ≠ .func f) :
    v.Needs := by
  intro item level k hitem hfits hread
  have hlevels : v.levels ≤ level := by
    obtain ⟨kind, fields, rfl⟩ : ∃ kind fields, item = constantItem kind fields := by
      cases v with
      | array items => exact absurd rfl (harray items)
      | func f => exact absurd rfl (hfunc f)
      | missingInt | missingFloat | missingFunc | unknown =>
          cases hitem
      | _ =>
          cases hitem
          exact ⟨_, _, rfl⟩
    obtain ⟨l, rfl, -⟩ := exists_of_fits_map hfits
    rw [levels_of_scalar harray hfunc]
    exact Nat.le_add_left 1 l
  refine ⟨hlevels, ?_⟩
  cases v with
  | string s =>
      cases hitem
      rw [← List.append_nil (optionalField _ _ _)] at hfits hread
      obtain ⟨l, rfl, hfields⟩ := fits_of_mem_fields hfits
      exact .string (storable_of_text (by decide) hfields hread)
  | array items => exact absurd rfl (harray items)
  | func f => exact absurd rfl (hfunc f)
  | _ => exact .scalar (by simp) harray hfunc

/-- An array could be stored if it is read, given that its values could. -/
theorem needs_array
    {vs : List Value}
    (h : ∀ v ∈ vs, v.Needs) :
    (Value.array vs).Needs := by
  intro item level k hitem hfits hread
  obtain ⟨items, hforall, rfl⟩ := (Value.toItem_array_eq_ok vs item).mp hitem
  obtain ⟨l, rfl, hfields⟩ := fits_of_mem_fields hfits
  cases items with
  | nil =>
      cases hforall
      exact ⟨by simp [Value.levels, poolLevels], .array (Nat.zero_le _) (by simp)⟩
  | cons i items =>
      have hfit := hfields (.natural 6, .array (i :: items)) (by simp [optionalField])
      obtain ⟨k₀, k₁, hupdate⟩ :=
        exists_update_of_readConstant [] [] (by decide) (by decide) (by simp) hread
      obtain ⟨ks, hks, -⟩ := Option.map_eq_some_iff.mp hupdate
      obtain ⟨hcount, hlevels, hstorable⟩ := storable_of_list hforall h hfit hks
      refine ⟨?_, .array hcount hstorable⟩
      rw [Value.levels, Nat.add_comm]
      exact Nat.succ_le_succ hlevels

/-- A function could be stored if it is read, given that the values of its body could. -/
theorem needs_func
    {f : Prototype}
    (h : ∀ c, f.body = some c → ∀ v ∈ c.constants, v.Needs) :
    (Value.func f).Needs := by
  intro item level k hitem hfits hread
  rw [Value.toItem] at hitem
  rw [Value.levels_func]
  rcases (f.toItem_eq_ok item).mp hitem with ⟨hnone, rfl⟩ | ⟨c, i, hsome, hi, rfl⟩
  · obtain ⟨l, rfl, hfields⟩ := fits_of_mem_fields hfits
    have hname := storable_of_text (by decide) hfields hread
    rw [hnone]
    refine ⟨Nat.le_add_left 1 l, .func hname ?_ ?_⟩
    · simp [hnone]
    · simp [hnone]
  · obtain ⟨l, rfl, hfields⟩ := fits_of_mem_fields hfits
    obtain ⟨k₀, k₁, hupdate⟩ :=
      exists_update_of_readConstant f.front [] (by decide) (by decide) f.key_front hread
    obtain ⟨b, hb, -⟩ := Option.map_eq_some_iff.mp hupdate
    have hbody : ∃ b, readContainer i.settled = some b := by
      obtain ⟨-, items, -, rfl⟩ := (c.toItem_eq_ok i).mp hi
      rw [readBody_containerItem] at hb
      obtain ⟨b', hb', -⟩ := Option.map_eq_some_iff.mp hb
      exact ⟨b', hb'⟩
    obtain ⟨b', hb'⟩ := hbody
    have hfit := hfields (.natural 8, i) (by simp)
    obtain ⟨hlevels, hstorable⟩ := Chunk.storable_of_reads (h c hsome) hi hfit hb'
    rw [Prototype.front, List.append_assoc] at hfields hread
    have hname := storable_of_text (by decide) hfields hread
    rw [hsome]
    refine ⟨?_, .func hname ?_ ?_⟩
    · rw [Nat.add_comm]
      exact Nat.succ_le_succ hlevels
    · rintro d hd
      cases hsome.symm.trans hd
      exact hstorable.short
    · rintro d hd
      cases hsome.symm.trans hd
      exact hstorable.constants

/-- What was read could be stored, and is no deeper than its item may be. -/
theorem Value.needs (v : Value) : v.Needs := by
  induction v using Value.induction with
  | scalar v harray hfunc =>
      exact needs_scalar harray hfunc
  | array vs ih =>
      exact needs_array ih
  | func f ih =>
      exact needs_func ih

end Needs

section Chunks

variable {c : Chunk}

/-- A chunk whose container is decoded and read could be stored and is not too deep. -/
theorem Chunk.storable_of_decode
    {item item' : Item} {b : Container}
    (hlength : item.encode.length < 2 ^ 64)
    (hitem : c.toItem = .ok item)
    (hdecode : Item.decode? item.encode = some item')
    (hread : readContainer item' = some b) :
    c.levels ≤ maxNesting ∧ c.Storable := by
  have hplain := Chunk.plain_toItem (fun v _ => v.plain_toItem) hitem
  obtain ⟨hfits, rfl⟩ := (Cbor.decode?_encode_iff hplain hlength).mp hdecode
  exact Chunk.storable_of_reads (fun v _ => v.needs) hitem hfits hread

/-- What is written of a chunk, and is no longer than anything in memory, is read again exactly if
its texts are valid, its tables short and its levels no more than a reader allows.  Then the chunk
comes back the same; otherwise the bytes are refused before any field of them is looked at. -/
theorem Chunk.unmarshal_marshal_iff
    {bytes : Text}
    (hlength : bytes.length < 2 ^ 64)
    (h : c.marshal = .ok bytes) :
    ((∃ c', Chunk.unmarshal bytes = .ok c') ↔ c.Storable ∧ c.levels ≤ maxNesting) ∧
      (∀ c', Chunk.unmarshal bytes = .ok c' → c.Same c') ∧
      ∀ e, Chunk.unmarshal bytes = .error e → e = .malformed := by
  obtain ⟨item, hitem, rfl⟩ := (c.marshal_eq_ok bytes).mp h
  have hread : c.Storable → c.levels ≤ maxNesting →
      ∃ c', Chunk.unmarshal item.encode = .ok c' ∧ c.Same c' := by
    intro hstorable hlevels
    exact hstorable.unmarshal_encode (hstorable.fits hitem hlevels) hitem
  -- unless the bytes are malformed, the chunk is one that comes back
  have hcases : Chunk.unmarshal item.encode = .error .malformed ∨
      c.Storable ∧ c.levels ≤ maxNesting := by
    rw [Chunk.unmarshal]
    cases hdecode : Item.decode? item.encode with
    | none =>
        exact Or.inl rfl
    | some item' =>
        cases hcontainer : readContainer item' with
        | none =>
            exact Or.inl (by simp only [hcontainer])
        | some b =>
            exact Or.inr (Chunk.storable_of_decode hlength hitem hdecode hcontainer).symm
  rcases hcases with hmalformed | ⟨hstorable, hlevels⟩
  · refine ⟨⟨?_, ?_⟩, ?_, ?_⟩
    · rintro ⟨c', hc'⟩
      rw [hmalformed] at hc'
      cases hc'
    · rintro ⟨hstorable, hlevels⟩
      obtain ⟨c', hc', -⟩ := hread hstorable hlevels
      exact ⟨c', hc'⟩
    · intro c' hc'
      rw [hmalformed] at hc'
      cases hc'
    · intro e he
      rw [hmalformed] at he
      cases he
      rfl
  · obtain ⟨c', hc', hsame⟩ := hread hstorable hlevels
    refine ⟨iff_of_true ⟨c', hc'⟩ ⟨hstorable, hlevels⟩, ?_, ?_⟩
    · intro d hd
      rw [hc'] at hd
      cases hd
      exact hsame
    · intro e he
      rw [hc'] at he
      cases he

/-- So many arrays around nothing. -/
def nested : Nat → Value
  | 0 => .null
  | n + 1 => .array [nested n]

/-- Arrays in arrays are storable at any depth. -/
theorem nested_storable (n : Nat) : (nested n).Storable := by
  induction n with
  | zero =>
      exact .scalar nofun nofun nofun
  | succ n ih =>
      exact .array (by simp [maxCount]) (List.forall_mem_singleton.mpr ih)

/-- A chunk with nothing but so many arrays. -/
def nestedChunk (n : Nat) : Chunk := ⟨none, none, #[nested n]⟩

/-- Fourteen arrays around nothing are read back, and fifteen are not. -/
theorem fourteen_readable_fifteen_not :
    (∃ bytes c', (nestedChunk 14).marshal = .ok bytes ∧ bytes.length < 2 ^ 64 ∧
        Chunk.unmarshal bytes = .ok c' ∧ (nestedChunk 14).Same c') ∧
      ∃ bytes, (nestedChunk 15).marshal = .ok bytes ∧ bytes.length < 2 ^ 64 ∧
        Chunk.unmarshal bytes = .error .malformed := by
  have hfourteen : ∃ bytes, (nestedChunk 14).marshal = .ok bytes ∧ bytes.length < 2 ^ 64 :=
    ⟨_, rfl, by decide⟩
  have hfifteen : ∃ bytes, (nestedChunk 15).marshal = .ok bytes ∧ bytes.length < 2 ^ 64 :=
    ⟨_, rfl, by decide⟩
  obtain ⟨bytes, hbytes, hlength⟩ := hfourteen
  obtain ⟨bytes', hbytes', hlength'⟩ := hfifteen
  have hstorable : (nestedChunk 14).Storable := by
    refine ⟨⟨by decide, by decide, by decide⟩, fun v hv => ?_⟩
    cases Array.mem_singleton.mp hv
    exact nested_storable 14
  obtain ⟨hiff, hsame, -⟩ := Chunk.unmarshal_marshal_iff hlength hbytes
  obtain ⟨c', hc'⟩ := hiff.mpr ⟨hstorable, by decide⟩
  obtain ⟨hiff', -, herror⟩ := Chunk.unmarshal_marshal_iff hlength' hbytes'
  refine ⟨⟨bytes, c', hbytes, hlength, hc', hsame c' hc'⟩, bytes', hbytes', hlength', ?_⟩
  cases hread : Chunk.unmarshal bytes' with
  | ok d =>
      obtain ⟨-, hlevels⟩ := hiff'.mp ⟨d, hread⟩
      exact absurd hlevels (by decide)
  | error e =>
      rw [herror e hread]

/-- A text that is one byte, which begins no character. -/
def garbled : Chunk := ⟨some #[], some #[], #[.string [0xff]]⟩

/-- A string that is not well formed is written, and is not read. -/
theorem garbled_written_not_read :
    ∃ bytes, garbled.marshal = .ok bytes ∧ Chunk.unmarshal bytes = .error .malformed :=
  ⟨_, rfl, rfl⟩

end Chunks

end Bytecode
end StackNative
