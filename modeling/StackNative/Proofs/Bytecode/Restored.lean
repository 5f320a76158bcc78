import StackNative.Proofs.Bytecode.Reading
import StackNative.Proofs.Cbor.Bounds
import StackNative.Proofs.Text.Utf8

/-!
# What every chunk that was read has in common

**Input.**  The bytes of a container in any form that is accepted.

**Algorithm.**  The readers are followed from the items, whose texts are no longer
than the bytes and whose collections are no longer than the limit, to the fields and
from the fields to the chunk.

**Results.**
* `reads_of_bounded`: the fields that are read from a bounded item are bounded.
* `Value.Restored`, `Chunk.Restored`: valid texts, short tables of one length, and no
  table that is present but empty.
* `Chunk.restored_of_unmarshal`: a chunk that was read is restored.
* `Chunk.Restored.storable`, `Chunk.Restored.exists_item`: a restored chunk can be
  written and read again.
-/

namespace StackNative

/-- A text that is valid and no longer than a size. -/
structure Text.Within (size : Nat) (t : Text) : Prop where
  valid : t.isValid = true
  length_le : t.length ≤ size

theorem Text.Within.storable
    {size : Nat} {t : Text}
    (h : t.Within size)
    (hsize : size < 2 ^ 64) :
    t.Storable :=
  ⟨h.valid, h.length_le.trans_lt hsize⟩

namespace Bytecode

open Cbor (Item maxCount)

section Texts

variable {size : Nat} {item : Item}

/-- The text is within a size, the list no longer than the limit. -/
def PayloadBounded (size : Nat) : Cbor.Payload → Prop
  | .text t => t.Within size
  | .items xs => xs.length ≤ maxCount
  | _ => True

theorem payload_bounded
    {p : Cbor.Payload}
    (h : item.Bounded size)
    (hp : item.payload = some p) :
    PayloadBounded size p := by
  induction h with
  | text hlength =>
      simp only [Item.payload] at hp
      split at hp
      · rename_i hvalid
        cases hp
        exact ⟨Text.isValid_flatten (List.all_eq_true.mp hvalid), hlength⟩
      · cases hp
  | array hcount =>
      cases hp
      exact hcount
  | tagged _ ih =>
      unfold Item.payload at hp
      split at hp
      · cases hp
      · split at hp
        · cases hp
          trivial
        · cases hp
          trivial
        · exact ih hp
  | simple =>
      simp only [Item.payload] at hp
      split at hp
      · cases hp
        trivial
      · split at hp
        · cases hp
          trivial
        · split at hp
          · cases hp
            trivial
          · cases hp
            trivial
  | map =>
      cases hp
  | natural | negative | bytes | float =>
      cases hp
      trivial

theorem textField_bounded
    {old t : Text}
    (h : item.Bounded size)
    (hold : old.Within size)
    (ht : item.textField old = some t) :
    t.Within size := by
  unfold Item.textField at ht
  split at ht
  · cases ht
    exact hold
  · rename_i t' hpayload
    cases ht
    exact payload_bounded h hpayload
  · cases ht

theorem size_elements
    {α : Type} {read : Item → Option α} {done as : Array α} {items : List Item}
    (h : Item.elements read done items = some as) :
    as.size = done.size + items.length := by
  induction items generalizing done with
  | nil =>
      cases h
      rfl
  | cons item items ih =>
      rw [Item.elements] at h
      split at h
      · have hsize := ih h
        rw [Array.size_push] at hsize
        rw [List.length_cons]
        omega
      · cases h

theorem int64sField_bounded
    {old ns : Array Int64}
    (h : item.Bounded size)
    (hold : old.size ≤ maxCount)
    (hns : item.int64sField old = some ns) :
    ns.size ≤ maxCount := by
  unfold Item.int64sField at hns
  split at hns
  · cases hns
    exact hold
  · rename_i xs hpayload
    rw [size_elements hns, List.size_toArray, List.length_nil, Nat.zero_add]
    exact payload_bounded h hpayload
  · cases hns

end Texts

section Fields

/-- The text of a constant and of all below it is bounded, and so are its lists. -/
inductive Constant.Bounded (size : Nat) : Constant → Prop
  | intro {k : Constant} :
      k.string.Within size → k.items.length ≤ maxCount → (∀ i ∈ k.items, Bounded size i) →
        (∀ b, k.body = some b → b.lines.size ≤ maxCount ∧ b.constants.length ≤ maxCount) →
        (∀ b, k.body = some b → ∀ i ∈ b.constants, Bounded size i) → Bounded size k

/-- A list of such constants. -/
structure ListBounded (size : Nat) (ks : List Constant) : Prop where
  count : ks.length ≤ maxCount
  all : ∀ k ∈ ks, k.Bounded size

/-- A container of such constants. -/
structure Container.Bounded (size : Nat) (b : Container) : Prop where
  lines : b.lines.size ≤ maxCount
  constants : ListBounded size b.constants

variable {size : Nat}

theorem Constant.bounded_iff (k : Constant) :
    k.Bounded size ↔
      k.string.Within size ∧ ListBounded size k.items ∧ ∀ b, k.body = some b → b.Bounded size := by
  constructor
  · rintro ⟨hstring, hcount, hall, hbody, hbelow⟩
    exact ⟨hstring, ⟨hcount, hall⟩, fun b hb => ⟨(hbody b hb).1, (hbody b hb).2, hbelow b hb⟩⟩
  · rintro ⟨hstring, hitems, hbody⟩
    exact .intro hstring hitems.count hitems.all
      (fun b hb => ⟨(hbody b hb).lines, (hbody b hb).constants.count⟩)
      fun b hb => (hbody b hb).constants.all

theorem listBounded_nil : ListBounded size [] := ⟨Nat.zero_le _, by simp⟩

theorem Constant.zero_bounded : Constant.zero.Bounded size := by
  rw [Constant.bounded_iff]
  exact ⟨⟨rfl, Nat.zero_le _⟩, listBounded_nil, nofun⟩

theorem Container.zero_bounded : Container.zero.Bounded size := ⟨Nat.zero_le _, listBounded_nil⟩

/-- What the readers make of an item is bounded. -/
structure Reads (size : Nat) (item : Item) : Prop where
  constant : ∀ k, readConstant item = some k → k.Bounded size
  constants : ∀ ks, readConstants item = some ks → ListBounded size ks
  container : ∀ b, readContainer item = some b → b.Bounded size
  body : ∀ b, readBody item = some (some b) → b.Bounded size

theorem Constant.update_bounded
    {n : Nat} {value : Item} {k k' : Constant}
    (hk : k.Bounded size)
    (hvalue : value.Bounded size)
    (hreads : Reads size value)
    (h : k.update n value = some k') :
    k'.Bounded size := by
  rw [Constant.bounded_iff] at hk ⊢
  obtain ⟨hstring, hitems, hbody⟩ := hk
  unfold Constant.update at h
  split at h <;> obtain ⟨x, hx, rfl⟩ := Option.map_eq_some_iff.mp h
  -- of the eight fields only the text, the items and the body are bounded
  case h_5 => exact ⟨textField_bounded hvalue hstring hx, hitems, hbody⟩
  case h_6 => exact ⟨hstring, hreads.constants x hx, hbody⟩
  case h_8 =>
    refine ⟨hstring, hitems, ?_⟩
    rintro b rfl
    exact hreads.body b hx
  all_goals exact ⟨hstring, hitems, hbody⟩

theorem Container.update_bounded
    {n : Nat} {value : Item} {b b' : Container}
    (hb : b.Bounded size)
    (hvalue : value.Bounded size)
    (hreads : Reads size value)
    (h : b.update n value = some b') :
    b'.Bounded size := by
  unfold Container.update at h
  split at h <;> obtain ⟨x, hx, rfl⟩ := Option.map_eq_some_iff.mp h
  case h_5 => exact ⟨int64sField_bounded hvalue hb.lines hx, hb.constants⟩
  case h_6 => exact ⟨hb.lines, hreads.constants x hx⟩
  all_goals exact ⟨hb.lines, hb.constants⟩

/-- What every field keeps holds of the record that is read. -/
theorem readFields_keeps
    {α : Type} {P : α → Prop} {count : Nat} {update : Nat → Item → α → Option α}
    {entries : List (Item × Item)} {seen : List Nat} {a a' : α}
    (hstep : ∀ e ∈ entries, ∀ n a a', P a → update n e.2 a = some a' → P a')
    (ha : P a)
    (h : readFields count update entries seen a = some a') :
    P a' := by
  induction entries generalizing seen a with
  | nil =>
      cases h
      exact ha
  | cons e entries ih =>
      have hrest : ∀ e' ∈ entries, ∀ n a a', P a → update n e'.2 a = some a' → P a' :=
        fun e' he' => hstep e' (List.mem_cons_of_mem e he')
      unfold readFields at h
      split at h
      · cases h
      · exact ih hrest ha h
      · split at h
        · exact ih hrest ha h
        · split at h
          · rename_i n _ _ _ a'' hupdate
            exact ih hrest (hstep _ List.mem_cons_self n a a'' ha hupdate) h
          · cases h

theorem readConstantsOnto_bounded
    {items : List Item} {done : Array Constant} {ks : List Constant}
    (hitems : ∀ item ∈ items, Reads size item)
    (hdone : ∀ k ∈ done, k.Bounded size)
    (h : readConstantsOnto done items = some ks) :
    ks.length = done.size + items.length ∧ ∀ k ∈ ks, k.Bounded size := by
  induction items generalizing done with
  | nil =>
      cases h
      exact ⟨rfl, fun k hk => hdone k (Array.mem_toList_iff.mp hk)⟩
  | cons item items ih =>
      rw [readConstantsOnto] at h
      split at h
      · rename_i k hk
        have hpush : ∀ k' ∈ done.push k, k'.Bounded size :=
          Array.forall_mem_push.mpr ⟨(hitems item List.mem_cons_self).constant k hk, hdone⟩
        obtain ⟨hcount, hall⟩ := ih (fun i hi => hitems i (List.mem_cons_of_mem item hi)) hpush h
        rw [Array.size_push] at hcount
        rw [List.length_cons]
        exact ⟨by omega, hall⟩
      · cases h

/-- Whatever readers make of a bounded item is bounded. -/
theorem reads_of_bounded
    {item : Item}
    (h : item.Bounded size) :
    Reads size item := by
  induction h with
  | array hcount _ ih =>
      refine ⟨by rintro k ⟨⟩, ?_, by rintro b ⟨⟩, by rintro b ⟨⟩⟩
      intro ks hks
      rw [readConstants] at hks
      obtain ⟨hlength, hall⟩ := readConstantsOnto_bounded ih (by simp) hks
      simp only [List.size_toArray, List.length_nil] at hlength
      exact ⟨by omega, hall⟩
  | @map entries _ hvalues _ ihvalues =>
      have hconstant : ∀ k, readConstantFields entries [] .zero = some k → k.Bounded size := by
        intro k hk
        rw [readConstantFields_eq] at hk
        refine readFields_keeps ?_ Constant.zero_bounded hk
        intro e he n k k' hk h
        exact Constant.update_bounded hk (hvalues e he) (ihvalues e he) h
      have hcontainer : ∀ b, readContainerFields entries [] .zero = some b → b.Bounded size := by
        intro b hb
        rw [readContainerFields_eq] at hb
        refine readFields_keeps ?_ Container.zero_bounded hb
        intro e he n b b' hb h
        exact Container.update_bounded hb (hvalues e he) (ihvalues e he) h
      refine ⟨hconstant, by rintro ks ⟨⟩, hcontainer, ?_⟩
      intro b hb
      rw [readBody] at hb
      obtain ⟨b', hb', heq⟩ := Option.map_eq_some_iff.mp hb
      cases heq
      exact hcontainer b hb'
  | tagged _ ih =>
      refine ⟨?_, ?_, ?_, ?_⟩
      · intro k hk
        rw [readConstant, Option.ite_none_right_eq_some] at hk
        exact ih.constant k hk.2
      · intro ks hks
        rw [readConstants, Option.ite_none_right_eq_some] at hks
        exact ih.constants ks hks.2
      · intro b hb
        rw [readContainer, Option.ite_none_right_eq_some] at hb
        exact ih.container b hb.2
      · intro b hb
        rw [readBody, Option.ite_none_right_eq_some] at hb
        obtain ⟨b', hb', heq⟩ := Option.map_eq_some_iff.mp hb.2
        cases heq
        exact ih.container b hb'
  | simple =>
      refine ⟨?_, ?_, ?_, ?_⟩
      · intro k hk
        rw [readConstant, Option.ite_none_right_eq_some] at hk
        cases hk.2
        exact Constant.zero_bounded
      · intro ks hks
        rw [readConstants, Option.ite_none_right_eq_some] at hks
        cases hks.2
        exact listBounded_nil
      · intro b hb
        rw [readContainer, Option.ite_none_right_eq_some] at hb
        cases hb.2
        exact Container.zero_bounded
      · intro b hb
        rw [readBody, Option.ite_none_right_eq_some] at hb
        cases hb.2
  | natural | negative | bytes | text | float =>
      exact ⟨by rintro k ⟨⟩, by rintro ks ⟨⟩, by rintro b ⟨⟩, by rintro b ⟨⟩⟩

end Fields

section Chunks

/-- The tables of a chunk are short, of one length, and absent where they are empty. -/
structure Chunk.Tidy (c : Chunk) : Prop where
  short : c.Short
  size_lines : c.lines.size = c.code.size
  codeTable : c.codeTable = tableOf c.code
  lineTable : c.lineTable = tableOf c.lines

/-- A constant as it is read from so many bytes. -/
inductive Value.Restored (size : Nat) : Value → Prop
  | null : Restored size .null
  | bool (b : Bool) : Restored size (.bool b)
  | int (n : Int64) : Restored size (.int n)
  | float (x : Binary64) : Restored size (.float x)
  | string {s : Text} : s.Within size → Restored size (.string s)
  | array {items : List Value} :
      items.length ≤ maxCount → (∀ v ∈ items, Restored size v) → Restored size (.array items)
  | func {f : Prototype} :
      f.name.Within size → (∀ c, f.body = some c → c.Tidy) →
        (∀ c, f.body = some c → ∀ v ∈ c.constants, Restored size v) → Restored size (.func f)

/-- A chunk as it is read from so many bytes. -/
structure Chunk.Restored (size : Nat) (c : Chunk) : Prop where
  tidy : c.Tidy
  constants : ∀ v ∈ c.constants, v.Restored size

variable {size : Nat}

/-- What every constant in a list becomes holds of what the list becomes. -/
theorem arrayValues_keeps
    {P : Value → Prop} {place : List Nat} {index : Nat} {done : Array Value} {ks : List Constant}
    {vs : List Value}
    (hks : ∀ k ∈ ks, ∀ place v, k.toValue place = .ok v → P v)
    (hdone : ∀ v ∈ done, P v)
    (h : arrayValues place index done ks = .ok vs) :
    vs.length = done.size + ks.length ∧ ∀ v ∈ vs, P v := by
  induction ks generalizing index done with
  | nil =>
      cases h
      exact ⟨rfl, fun v hv => hdone v (Array.mem_toList_iff.mp hv)⟩
  | cons k ks ih =>
      rw [arrayValues] at h
      split at h
      · cases h
      · rename_i v hv
        have hpush : ∀ w ∈ done.push v, P w :=
          Array.forall_mem_push.mpr ⟨hks k List.mem_cons_self _ v hv, hdone⟩
        obtain ⟨hcount, hall⟩ := ih (fun k' hk' => hks k' (List.mem_cons_of_mem k hk')) hpush h
        rw [Array.size_push] at hcount
        rw [List.length_cons]
        exact ⟨by omega, hall⟩

theorem Container.restored_toChunk
    {b : Container} {place : List Nat} {c : Chunk}
    (hlines : b.lines.size ≤ maxCount)
    (hcount : b.constants.length ≤ maxCount)
    (hks : ∀ k ∈ b.constants, ∀ place v, k.toValue place = .ok v → v.Restored size)
    (h : b.toChunk place = .ok c) :
    c.Restored size := by
  obtain ⟨magic, major, minor, code, lines, constants⟩ := b
  unfold Container.toChunk at h
  split at h
  · cases h
  split at h
  · cases h
  split at h
  · cases h
  rename_i hsize
  rw [not_not] at hsize
  split at h
  · cases h
  · rename_i pool hpool
    cases h
    obtain ⟨hlength, hall⟩ :=
      arrayValues_keeps hks (by simp) ((poolValues_eq_ok place 0 #[] constants).mp hpool)
    have hcode : Chunk.code ⟨tableOf code, tableOf lines, pool⟩ = code := getD_tableOf code
    have hline : Chunk.lines ⟨tableOf code, tableOf lines, pool⟩ = lines := getD_tableOf lines
    refine ⟨⟨⟨?_, ?_, ?_⟩, ?_, ?_, ?_⟩, fun v hv => hall v (Array.mem_toList_iff.mpr hv)⟩
    · -- nothing limits the code itself, but it is as long as the lines
      rw [hcode, ← hsize]
      exact hlines
    · rw [hline]
      exact hlines
    · rw [Array.length_toList, Array.size_empty, Nat.zero_add] at hlength
      exact hlength.trans_le hcount
    · rw [hcode, hline]
      exact hsize
    · rw [hcode]
    · rw [hline]

theorem Constant.Bounded.restored
    {k : Constant} {place : List Nat} {v : Value}
    (h : k.Bounded size)
    (hv : k.toValue place = .ok v) :
    v.Restored size := by
  induction h generalizing place v with
  | @intro k hstring hcount _ hbody _ ihitems ihbody =>
      obtain ⟨kind, bool, int, float, string, items, arity, body⟩ := k
      unfold Constant.toValue at hv
      split at hv
      · cases hv
        exact .null
      · cases hv
        exact .bool bool
      · cases hv
        exact .int int
      · cases hv
        exact .float float
      · cases hv
        exact .string hstring
      · cases hvs : arrayValues place 0 #[] items with
        | error e =>
            rw [hvs] at hv
            cases hv
        | ok vs =>
            rw [hvs] at hv
            cases hv
            obtain ⟨hlength, hall⟩ :=
              arrayValues_keeps (fun k hk _ _ hv => ihitems k hk hv) (by simp) hvs
            rw [Array.size_empty, Nat.zero_add] at hlength
            exact .array (hlength.trans_le hcount) hall
      · cases body with
        | none =>
            cases hv
            exact .func hstring (by simp) (by simp)
        | some b =>
            simp only at hv
            split at hv
            · cases hv
            · rename_i c hc
              cases hv
              have hchunk : c.Restored size :=
                Container.restored_toChunk (hbody b rfl).1 (hbody b rfl).2
                  (fun k hk _ _ hv => ihbody b rfl k hk hv) hc
              refine .func hstring ?_ ?_
              · rintro c ⟨⟩
                exact hchunk.tidy
              · rintro c ⟨⟩
                exact hchunk.constants
      · cases hv

/-- Whatever the form of the bytes, the chunk that is read from them is restored. -/
theorem Chunk.restored_of_unmarshal
    {bytes : Text} {c : Chunk}
    (h : Chunk.unmarshal bytes = .ok c) :
    c.Restored bytes.length := by
  unfold Chunk.unmarshal at h
  split at h
  · cases h
  · rename_i item hitem
    split at h
    · cases h
    · rename_i b hb
      have hbounded : b.Bounded bytes.length :=
        (reads_of_bounded (Cbor.decode?_bounded hitem)).container b hb
      exact Container.restored_toChunk hbounded.lines hbounded.constants.count
        (fun k hk _ _ hv => (hbounded.constants.all k hk).restored hv) h

theorem Value.Restored.storable
    {v : Value}
    (h : v.Restored size)
    (hsize : size < 2 ^ 64) :
    v.Storable := by
  induction h with
  | null | bool | int | float => exact .scalar (by simp) (by simp) (by simp)
  | string hs => exact .string (hs.storable hsize)
  | array hcount _ ih => exact .array hcount ih
  | func hname htidy _ ih => exact .func (hname.storable hsize) (fun c hc => (htidy c hc).short) ih

theorem Chunk.Restored.storable
    {c : Chunk}
    (h : c.Restored size)
    (hsize : size < 2 ^ 64) :
    c.Storable :=
  ⟨h.tidy.short, fun v hv => (h.constants v hv).storable hsize⟩

theorem exists_items
    {vs : List Value}
    (h : ∀ v ∈ vs, ∃ i, v.toItem = .ok i) :
    ∃ items, List.Forall₂ (fun v i => v.toItem = .ok i) vs items := by
  induction vs with
  | nil =>
      exact ⟨[], .nil⟩
  | cons v vs ih =>
      obtain ⟨i, hi⟩ := h v List.mem_cons_self
      obtain ⟨items, hitems⟩ := ih fun w hw => h w (List.mem_cons_of_mem v hw)
      exact ⟨i :: items, .cons hi hitems⟩

theorem Chunk.Tidy.exists_item
    {c : Chunk}
    (h : c.Tidy)
    (hconstants : ∀ v ∈ c.constants, ∃ i, v.toItem = .ok i) :
    ∃ item, c.toItem = .ok item := by
  obtain ⟨items, hitems⟩ := exists_items fun v hv => hconstants v (Array.mem_toList_iff.mp hv)
  exact ⟨_, (c.toItem_eq_ok _).mpr ⟨h.size_lines, items, hitems, rfl⟩⟩

theorem Value.Restored.exists_item
    {v : Value}
    (h : v.Restored size) :
    ∃ item, v.toItem = .ok item := by
  induction h with
  | null | bool | int | float | string =>
      exact ⟨_, rfl⟩
  | @array vs _ _ ih =>
      obtain ⟨items, hitems⟩ := exists_items ih
      exact ⟨_, (Value.toItem_array_eq_ok vs _).mpr ⟨items, hitems, rfl⟩⟩
  | @func f _ htidy _ ih =>
      rw [Value.toItem]
      cases hbody : f.body with
      | none =>
          exact ⟨_, (f.toItem_eq_ok _).mpr (.inl ⟨hbody, rfl⟩)⟩
      | some c =>
          obtain ⟨item, hitem⟩ := (htidy c hbody).exists_item (ih c hbody)
          exact ⟨_, (f.toItem_eq_ok _).mpr (.inr ⟨c, item, hbody, hitem, rfl⟩)⟩

theorem Chunk.Restored.exists_item
    {c : Chunk}
    (h : c.Restored size) :
    ∃ item, c.toItem = .ok item :=
  h.tidy.exists_item fun v hv => (h.constants v hv).exists_item

end Chunks

end Bytecode
end StackNative
