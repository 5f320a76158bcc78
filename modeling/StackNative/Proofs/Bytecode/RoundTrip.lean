import StackNative.Proofs.Bytecode.Reading

/-!
# Chunks are read back from their containers

**Input.**  A chunk whose texts are valid, whose tables are short and whose
constants are nested no deeper than eight levels.

**Algorithm.**  The levels of the item are counted along those of the constants.

**Results.**
* `Value.levels`, `Chunk.levels`: how deep the item of a constant or of a chunk is.
* `Value.Storable.fits`, `Chunk.Storable.fits`: the item fits wherever there are so many
  levels.
* `Value.Nested.levels_le`, `Chunk.levels_le`: there are up to three for each level of a
  constant, and two more for the container.
* `Chunk.unmarshal_marshal`: the chunk comes back the same.
-/

namespace StackNative
namespace Bytecode

open Cbor (Item maxCount)

section Depth

/-- Arrays and functions in a constant are nested at most so deep. -/
inductive Value.Nested : Nat → Value → Prop
  | scalar {depth : Nat} {v : Value} :
      (∀ items, v ≠ .array items) → (∀ f, v ≠ .func f) → Nested depth v
  | array {depth : Nat} {items : List Value} :
      (∀ v ∈ items, Nested depth v) → Nested (depth + 1) (.array items)
  | func {depth : Nat} {f : Prototype} :
      (∀ c, f.body = some c → ∀ v ∈ c.constants, Nested depth v) → Nested (depth + 1) (.func f)

/-- The same of the constants of a chunk. -/
def Chunk.Nested (depth : Nat) (c : Chunk) : Prop := ∀ v ∈ c.constants, v.Nested depth

end Depth

section Levels

mutual

/-- The levels of the item of a constant: one for its map, and those of what is in it. -/
def Value.levels : Value → Nat
  | .array items => 1 + poolLevels items
  | .func f => f.levels
  | _ => 1

/-- The levels of the item of a function. -/
def Prototype.levels : Prototype → Nat
  | ⟨_, _, _, none⟩ => 1
  | ⟨_, _, _, some c⟩ => 1 + c.levels

/-- The levels of the item of a chunk; a table of lines that is present is a level of its own. -/
def Chunk.levels : Chunk → Nat
  | ⟨_, lines, ⟨constants⟩⟩ => 1 + max (if lines.isSome then 1 else 0) (poolLevels constants)

/-- The levels of a list of constants, which is not written where it is empty. -/
def poolLevels : List Value → Nat
  | [] => 0
  | v :: rest => max (1 + v.levels) (poolLevels rest)

end

/-- Only an empty pool has no levels. -/
theorem poolLevels_le_zero {vs : List Value} : poolLevels vs ≤ 0 ↔ vs = [] := by
  cases vs with
  | nil =>
      simp [poolLevels]
  | cons v vs =>
      simp [poolLevels]

/-- A pool has a level more than its values. -/
theorem poolLevels_le_succ
    {vs : List Value} {n : Nat} :
    poolLevels vs ≤ n + 1 ↔ ∀ v ∈ vs, v.levels ≤ n := by
  induction vs with
  | nil =>
      simp [poolLevels]
  | cons v vs ih =>
      rw [poolLevels, max_le_iff, ih, List.forall_mem_cons, Nat.add_comm, Nat.add_le_add_iff_right]

/-- A function has a level more than its body. -/
theorem Value.levels_func (f : Prototype) :
    (Value.func f).levels = 1 + f.body.elim 0 Chunk.levels := by
  obtain ⟨place, name, arity, body⟩ := f
  cases body <;> rfl

/-- A chunk has a level more than its lines and its pool. -/
theorem Chunk.levels_eq (c : Chunk) :
    c.levels = 1 + max (if c.lineTable.isSome then 1 else 0) (poolLevels c.constants.toList) := by
  obtain ⟨code, lines, ⟨constants⟩⟩ := c
  rw [Chunk.levels]

/-- A value without values in it has one level. -/
theorem levels_of_scalar
    {v : Value}
    (harray : ∀ items, v ≠ .array items)
    (hfunc : ∀ f, v ≠ .func f) :
    v.levels = 1 := by
  cases v with
  | array items => exact absurd rfl (harray items)
  | func f => exact absurd rfl (hfunc f)
  | _ => rfl

end Levels

section Room

variable {level : Nat} {item : Item}

/-- A small number fits every level. -/
theorem fits_natural
    {n : Nat}
    (hn : n ≤ 255) :
    (Item.natural n).Fits level :=
  .natural (by omega)

theorem fits_null : Item.null.Fits level := .simple (by decide) (by decide)

/-- An integer fits every level. -/
theorem fits_ofInt (n : Int64) : (Item.ofInt n.toInt).Fits level := by
  have hlow := n.le_toInt
  have hhigh := n.toInt_lt
  cases hn : n.toInt with
  | ofNat m =>
      rw [Int.ofNat_eq_natCast] at hn
      exact .natural (by omega)
  | negSucc m =>
      exact .negative (by omega)

/-- Both parts of an entry fit. -/
def EntryFits (level : Nat) (e : Item × Item) : Prop := e.1.Fits level ∧ e.2.Fits level

/-- A map fits a level more than its entries. -/
theorem fits_map
    {entries : List (Item × Item)}
    (hcount : entries.length ≤ maxCount)
    (h : ∀ e ∈ entries, EntryFits level e) :
    (Item.map entries).Fits (level + 1) :=
  .map hcount (fun e he => (h e he).1) fun e he => (h e he).2

/-- A constant fits a level more than its fields. -/
theorem fits_constantItem
    {kind : Nat} {fields : List (Item × Item)}
    (hkind : kind ≤ 255)
    (hcount : fields.length ≤ 3)
    (h : ∀ e ∈ fields, EntryFits level e) :
    (constantItem kind fields).Fits (level + 1) := by
  refine fits_map ?_ ?_
  · rw [List.length_cons, maxCount]
    omega
  · intro e he
    rcases List.mem_cons.mp he with rfl | he
    · exact ⟨fits_natural (by decide), fits_natural hkind⟩
    · exact h e he

/-- A field that may be left out is one entry at most. -/
theorem length_optionalField (key : Nat) (present : Bool) (item : Item) :
    (optionalField key present item).length ≤ 1 := by
  cases present <;> simp [optionalField]

/-- A field that may be left out fits if its item does. -/
theorem fits_optionalField
    {key : Nat} {present : Bool} {e : Item × Item}
    (hkey : key ≤ 255)
    (hitem : item.Fits level)
    (he : e ∈ optionalField key present item) :
    EntryFits level e := by
  cases present with
  | false =>
      cases he
  | true =>
      cases List.mem_singleton.mp he
      exact ⟨fits_natural hkey, hitem⟩

/-- A constant with one field fits a level more than its item. -/
theorem fits_single
    {kind key : Nat} {present : Bool}
    (hkind : kind ≤ 255)
    (hkey : key ≤ 255)
    (hitem : item.Fits level) :
    (constantItem kind (optionalField key present item)).Fits (level + 1) :=
  fits_constantItem hkind ((length_optionalField key present item).trans (by decide))
    fun _ he => fits_optionalField hkey hitem he

/-- Every item is that of a value. -/
theorem exists_of_mem_items
    {vs : List Value} {items : List Item}
    (h : List.Forall₂ (fun v i => v.toItem = .ok i) vs items)
    (hitem : item ∈ items) :
    ∃ v ∈ vs, v.toItem = .ok item := by
  induction h with
  | nil =>
      cases hitem
  | @cons v i vs items hi _ ih =>
      rcases List.mem_cons.mp hitem with rfl | hitem
      · exact ⟨v, List.mem_cons_self, hi⟩
      · obtain ⟨w, hw, hwi⟩ := ih hitem
        exact ⟨w, List.mem_cons_of_mem v hw, hwi⟩

/-- The lines of a chunk fit if there are not too many. -/
theorem Chunk.fits_linesItem
    {c : Chunk}
    (h : c.lines.size ≤ maxCount) :
    c.linesItem.Fits (level + 1) := by
  unfold Chunk.linesItem
  split
  · exact fits_null
  · rename_i ns hns
    refine .array ?_ ?_
    · simpa [Chunk.lines, hns] using h
    · intro i hi
      obtain ⟨n, -, rfl⟩ := List.mem_map.mp hi
      exact fits_ofInt n

/-- Only the lines and the constants of a container can have levels of their own. -/
theorem Chunk.fits_containerItem
    {c : Chunk} {items : List Item}
    (hcode : c.code.size ≤ maxCount)
    (hlines : c.linesItem.Fits level)
    (hpool : (listItem items).Fits level) :
    (c.containerItem items).Fits (level + 1) := by
  have hcode : c.codeItem.Fits level := by
    unfold Chunk.codeItem
    split
    · exact fits_null
    · rename_i bytes hbytes
      refine .bytes ?_
      simp only [Chunk.code, hbytes, Option.getD_some, maxCount] at hcode
      rw [Array.length_toList]
      omega
  refine fits_map (by simp [maxCount]) ?_
  simp only [List.forall_mem_cons, List.not_mem_nil, false_imp_iff, implies_true, and_true]
  exact ⟨⟨fits_natural (by decide), .text (by decide)⟩,
    ⟨fits_natural (by decide), fits_natural (by decide)⟩,
    ⟨fits_natural (by decide), fits_natural (by decide)⟩, ⟨fits_natural (by decide), hcode⟩,
    ⟨fits_natural (by decide), hlines⟩, ⟨fits_natural (by decide), hpool⟩⟩

/-- There are two fields in front of a body at most. -/
theorem Prototype.length_front_le (f : Prototype) : f.front.length ≤ 2 := by
  have hname := length_optionalField 5 (!f.name.isEmpty) (.text [f.name])
  have harity := length_optionalField 7 (f.arity != 0) (.ofInt f.arity.toInt)
  rw [Prototype.front, List.length_append]
  omega

/-- The fields in front of a body fit if the name does. -/
theorem fits_front
    {f : Prototype} {e : Item × Item}
    (h : f.name.Storable)
    (he : e ∈ f.front) :
    EntryFits level e := by
  rcases List.mem_append.mp he with he | he
  · exact fits_optionalField (by decide) (.text h.length_lt) he
  · exact fits_optionalField (by decide) (fits_ofInt f.arity) he

/-- The constants of a list that is written have one level less than it. -/
theorem fits_poolLevels
    {vs : List Value} {items : List Item}
    (hcount : vs.length ≤ maxCount)
    (h : ∀ v ∈ vs, ∀ level i, v.toItem = .ok i → v.levels ≤ level → i.Fits level)
    (hforall : List.Forall₂ (fun v i => v.toItem = .ok i) vs items)
    (hlevels : poolLevels vs ≤ level) :
    (items = [] ∨ (Item.array items).Fits level) := by
  cases items with
  | nil =>
      exact Or.inl rfl
  | cons i items =>
      refine Or.inr ?_
      cases level with
      | zero =>
          rw [poolLevels_le_zero.mp hlevels] at hforall
          cases hforall
      | succ level =>
          refine .array (hforall.length_eq ▸ hcount) fun j hj => ?_
          obtain ⟨v, hv, hvj⟩ := exists_of_mem_items hforall hj
          exact h v hv level j hvj (poolLevels_le_succ.mp hlevels v hv)

/-- A chunk fits as many levels as it has, if its values do. -/
theorem Chunk.fits_of_levels
    {c : Chunk}
    (hshort : c.Short)
    (h : ∀ v ∈ c.constants, ∀ level i, v.toItem = .ok i → v.levels ≤ level → i.Fits level)
    (hitem : c.toItem = .ok item)
    (hlevels : c.levels ≤ level) :
    item.Fits level := by
  obtain ⟨-, items, hforall, rfl⟩ := (c.toItem_eq_ok item).mp hitem
  rw [Chunk.levels_eq] at hlevels
  obtain ⟨l, rfl⟩ : ∃ l, level = l + 1 := ⟨level - 1, by omega⟩
  rw [Nat.add_comm, Nat.add_le_add_iff_right, max_le_iff] at hlevels
  obtain ⟨hlines, hpool⟩ := hlevels
  refine Chunk.fits_containerItem hshort.code ?_ ?_
  · cases htable : c.lineTable with
    | none =>
        rw [Chunk.linesItem, htable]
        exact fits_null
    | some ns =>
        obtain ⟨l, rfl⟩ : ∃ k, l = k + 1 := by
          rw [htable] at hlines
          exact ⟨l - 1, (Nat.sub_add_cancel hlines).symm⟩
        exact Chunk.fits_linesItem hshort.lines
  · rcases fits_poolLevels (by simpa using hshort.constants)
      (fun v hv => h v (Array.mem_toList_iff.mp hv)) hforall hpool with rfl | hfits
    · exact fits_null
    · cases items with
      | nil =>
          exact fits_null
      | cons i items =>
          exact hfits

/-- The item of a constant that can be stored fits wherever there are enough levels for it. -/
theorem Value.Storable.fits
    {v : Value}
    (h : v.Storable) :
    ∀ level i, v.toItem = .ok i → v.levels ≤ level → i.Fits level := by
  induction h with
  | @scalar v hstring harray hfunc =>
      intro level i hi hlevels
      rw [levels_of_scalar harray hfunc] at hlevels
      refine Cbor.Item.Fits.mono ?_ hlevels
      cases v with
      | null =>
          cases hi
          exact fits_constantItem (by decide) (by decide) (by simp)
      | bool b =>
          cases hi
          exact fits_single (by decide) (by decide) (.simple (by cases b <;> decide)
            (by cases b <;> decide))
      | int n =>
          cases hi
          exact fits_single (by decide) (by decide) (fits_ofInt n)
      | float x =>
          cases hi
          exact fits_single (by decide) (by decide) .float
      | string s => exact absurd rfl (hstring s)
      | array items => exact absurd rfl (harray items)
      | func f => exact absurd rfl (hfunc f)
      | missingInt | missingFloat | missingFunc | unknown =>
          cases hi
  | @string s hs =>
      intro level i hi hlevels
      cases hi
      have hone : (constantItem 4 (optionalField 5 (!s.isEmpty) (.text [s]))).Fits 1 :=
        fits_single (by decide) (by decide) (.text hs.length_lt)
      exact hone.mono hlevels
  | @array vs hcount _ ih =>
      intro level i hi hlevels
      obtain ⟨items, hforall, rfl⟩ := (Value.toItem_array_eq_ok vs i).mp hi
      rw [Value.levels] at hlevels
      obtain ⟨l, rfl⟩ : ∃ l, level = l + 1 := ⟨level - 1, by omega⟩
      rcases fits_poolLevels hcount ih hforall (show poolLevels vs ≤ l by omega) with rfl | hfits
      · exact fits_constantItem (by decide) (by decide) (by simp [optionalField])
      · exact fits_single (by decide) (by decide) hfits
  | @func f hname hshort _ ih =>
      intro level i hi hlevels
      rw [Value.toItem] at hi
      rw [Value.levels_func] at hlevels
      obtain ⟨l, rfl⟩ : ∃ l, level = l + 1 := ⟨level - 1, by omega⟩
      have hfront : ∀ e ∈ f.front, EntryFits l e := fun e he => fits_front hname he
      have hlength := f.length_front_le
      rcases (f.toItem_eq_ok i).mp hi with ⟨-, rfl⟩ | ⟨c, j, hsome, hj, rfl⟩
      · exact fits_constantItem (by decide) (by omega) hfront
      · rw [hsome, Option.elim_some] at hlevels
        have hbody : j.Fits l := Chunk.fits_of_levels (hshort c hsome) (ih c hsome) hj (by omega)
        refine fits_constantItem (by decide) ?_ ?_
        · rw [List.length_append, List.length_singleton]
          omega
        · refine List.forall_mem_append.mpr ⟨hfront, ?_⟩
          exact List.forall_mem_singleton.mpr ⟨fits_natural (by decide), hbody⟩

/-- A storable chunk fits as many levels as it has. -/
theorem Chunk.Storable.fits
    {c : Chunk}
    (h : c.Storable)
    (hitem : c.toItem = .ok item)
    (hlevels : c.levels ≤ level) :
    item.Fits level :=
  Chunk.fits_of_levels h.short (fun v hv => (h.constants v hv).fits) hitem hlevels

/-- A container adds two levels to those of its constants. -/
theorem Chunk.levels_le
    {c : Chunk} {n : Nat}
    (h : ∀ v ∈ c.constants, v.levels ≤ n) :
    c.levels ≤ n + 2 := by
  have hpool : poolLevels c.constants.toList ≤ n + 1 :=
    poolLevels_le_succ.mpr fun v hv => h v (Array.mem_toList_iff.mp hv)
  have hlines : (if c.lineTable.isSome then 1 else 0) ≤ n + 1 := by
    split <;> omega
  have hmax := max_le hlines hpool
  rw [Chunk.levels_eq]
  omega

/-- Each level of a constant takes up to three levels of its item. -/
theorem Value.Nested.levels_le
    {depth : Nat} {v : Value}
    (h : v.Nested depth) :
    v.levels ≤ 3 * depth + 1 := by
  induction h with
  | scalar harray hfunc =>
      rw [levels_of_scalar harray hfunc]
      omega
  | @array depth vs _ ih =>
      -- an array takes only two of the three levels, one for its map and one for its items
      have hpool := poolLevels_le_succ.mpr ih
      rw [Value.levels]
      omega
  | @func depth f _ ih =>
      -- a function takes all three: its map, the container of its body and the pool in it
      rw [Value.levels_func]
      cases hbody : f.body with
      | none =>
          rw [Option.elim_none]
          omega
      | some c =>
          have hc := Chunk.levels_le (ih c hbody)
          rw [Option.elim_some]
          omega

end Room

section Chunks

variable {c : Chunk} {item : Item}

/-- Constants of eight levels leave room for the container. -/
theorem Chunk.Nested.fits
    (hnested : c.Nested 8)
    (hstorable : c.Storable)
    (hitem : c.toItem = .ok item) :
    item.Fits Cbor.maxNesting := by
  have hlevels := Chunk.levels_le fun v hv => (hnested v hv).levels_le
  exact hstorable.fits hitem (hlevels.trans (by decide))

/-- The bytes of an item that fits are read as the chunk it was made of. -/
theorem Chunk.Storable.unmarshal_encode
    (hstorable : c.Storable)
    (hfits : item.Fits Cbor.maxNesting)
    (hitem : c.toItem = .ok item) :
    ∃ c', Chunk.unmarshal item.encode = .ok c' ∧ c.Same c' := by
  obtain ⟨k, hk, hchunk⟩ := Chunk.returns (fun v hv => (hstorable.constants v hv).returns) hitem
  obtain ⟨c', hc', hsame⟩ := hchunk []
  refine ⟨c', ?_, hsame⟩
  rw [Chunk.unmarshal, Cbor.decode?_encode hfits]
  simp only [hk]
  exact hc'

/-- A chunk is written exactly if it has an item, and as the encoding of this item. -/
theorem Chunk.marshal_eq_ok (c : Chunk) (bytes : Text) :
    c.marshal = .ok bytes ↔ ∃ item, c.toItem = .ok item ∧ bytes = item.encode := by
  unfold Chunk.marshal
  cases c.toItem with
  | error e =>
      simp [Except.map]
  | ok item =>
      simp [Except.map, eq_comm]

/-- A chunk that is written comes back the same, if its texts are valid, its tables short and its
constants nested at most eight levels deep. -/
theorem Chunk.unmarshal_marshal
    {bytes : Text}
    (hstorable : c.Storable)
    (hnested : c.Nested 8)
    (h : c.marshal = .ok bytes) :
    ∃ c', Chunk.unmarshal bytes = .ok c' ∧ c.Same c' := by
  obtain ⟨item, hitem, rfl⟩ := (c.marshal_eq_ok bytes).mp h
  exact hstorable.unmarshal_encode (hnested.fits hstorable hitem) hitem

/-- A function whose body has neither code nor lines, but an array of what is not a number and of a
text. -/
def layered : Chunk :=
  ⟨some #[0, 0, 41], some #[1, 1, -2],
    #[.func ⟨[0], [0x66], 0,
      some ⟨none, none, #[.array [.float ⟨0x7ff8000000000001⟩, .string [0xc3, 0xa9]]]⟩⟩]⟩

theorem layered_storable : layered.Storable where
  short := ⟨by decide, by decide, by decide⟩
  constants := by
    intro v hv
    cases Array.mem_singleton.mp hv
    refine .func ⟨by decide, by decide⟩ ?_ ?_
    · rintro c ⟨⟩
      exact ⟨by decide, by decide, by decide⟩
    · rintro c ⟨⟩ v hv
      cases Array.mem_singleton.mp hv
      refine .array (by decide) ?_
      intro v hv
      rcases List.mem_pair.mp hv with rfl | rfl
      · exact .scalar nofun nofun nofun
      · exact .string ⟨by decide, by decide⟩

/-- The array in the body is not too deep. -/
theorem layered_nested : layered.Nested 8 := by
  intro v hv
  cases Array.mem_singleton.mp hv
  refine .func ?_
  rintro c ⟨⟩ v hv
  cases Array.mem_singleton.mp hv
  refine .array ?_
  intro v hv
  rcases List.mem_pair.mp hv with rfl | rfl
  · exact .scalar nofun nofun
  · exact .scalar nofun nofun

/-- The function is written and read back with its body. -/
theorem layered_unmarshal_marshal :
    ∃ bytes c', layered.marshal = .ok bytes ∧ Chunk.unmarshal bytes = .ok c' ∧ layered.Same c' := by
  have hmarshal : ∃ bytes, layered.marshal = .ok bytes := ⟨_, rfl⟩
  obtain ⟨bytes, hbytes⟩ := hmarshal
  obtain ⟨c', hc', hsame⟩ := Chunk.unmarshal_marshal layered_storable layered_nested hbytes
  exact ⟨bytes, c', hbytes, hc', hsame⟩

end Chunks

end Bytecode
end StackNative
