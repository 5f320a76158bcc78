import Mathlib.Data.List.Forall2
import StackNative.Bytecode.Chunk
import StackNative.Bytecode.Container
import StackNative.Proofs.Cbor.RoundTrip

/-!
# Constants and containers are read back

**Input.**  The item of a chunk, or of one of its constants.

**Algorithm.**  The item is followed through the readers of its fields; what is
left out comes back as the zero it stood for.

**Results.**
* `Value.Same`, `Chunk.Same`: what comes back is the same.
* `Value.Storable`, `Chunk.Storable`: what can come back at all.
* `Value.toItem_array_eq_ok`, `Chunk.toItem_eq_ok`, `Prototype.toItem_eq_ok`: which
  arrays, chunks and functions have an item, and which one.
* `Value.Storable.returns`, `Chunk.returns`: the item of a constant or of a chunk is
  read as fields that stand for it.
-/

namespace StackNative

/-- A text that a container can hold: it is valid, and its length is a machine word, as the length
of anything in memory is. -/
structure Text.Storable (t : Text) : Prop where
  valid : t.isValid = true
  length_lt : t.length < 2 ^ 64

namespace Bytecode

open Cbor (Item maxCount)

section Predicates

/-- The tables of a chunk are so short that they can be read. -/
structure Chunk.Short (c : Chunk) : Prop where
  code : c.code.size ≤ maxCount
  lines : c.lines.size ≤ maxCount
  constants : c.constants.size ≤ maxCount

/-- The texts in a constant are valid, its arrays and the tables in its functions are short. -/
inductive Value.Storable : Value → Prop
  | scalar {v : Value} :
      (∀ s, v ≠ .string s) → (∀ items, v ≠ .array items) → (∀ f, v ≠ .func f) → Storable v
  | string {s : Text} : s.Storable → Storable (.string s)
  | array {items : List Value} :
      items.length ≤ maxCount → (∀ v ∈ items, Storable v) → Storable (.array items)
  | func {f : Prototype} :
      f.name.Storable → (∀ c, f.body = some c → c.Short) →
        (∀ c, f.body = some c → ∀ v ∈ c.constants, Storable v) → Storable (.func f)

/-- The same of a chunk. -/
structure Chunk.Storable (c : Chunk) : Prop where
  short : c.Short
  constants : ∀ v ∈ c.constants, v.Storable

mutual

/-- The same constant: floats agree as numbers, or neither is one; functions agree in all but their
place. -/
inductive Value.Same : Value → Value → Prop
  | null : Value.Same .null .null
  | bool (b : Bool) : Value.Same (.bool b) (.bool b)
  | int (n : Int64) : Value.Same (.int n) (.int n)
  | float {x y : Binary64} :
      x.equal y = true ∨ x.isNaN = true ∧ y.isNaN = true → Value.Same (.float x) (.float y)
  | string (s : Text) : Value.Same (.string s) (.string s)
  | array {xs ys : List Value} :
      List.Forall₂ Value.Same xs ys → Value.Same (.array xs) (.array ys)
  | func {f g : Prototype} :
      f.name = g.name → f.arity = g.arity → Option.Rel Chunk.Same f.body g.body →
        Value.Same (.func f) (.func g)

/-- The same chunk: an absent table is an empty one. -/
inductive Chunk.Same : Chunk → Chunk → Prop
  | intro {c d : Chunk} :
      c.code = d.code → c.lines = d.lines →
        List.Forall₂ Value.Same c.constants.toList d.constants.toList → Chunk.Same c d

end

end Predicates

section Fields

/-- An integer is in its settled form already. -/
theorem settled_ofInt (n : Int) : (Item.ofInt n).settled = .ofInt n := by
  cases n <;> simp [Item.ofInt, Item.settled]

theorem settled_natural (n : Nat) : (Item.natural n).settled = .natural n := by
  simp [Item.settled]

theorem settled_ofBool (b : Bool) : (Item.ofBool b).settled = .ofBool b := by
  simp [Item.ofBool, Item.settled]

/-- A text is in its settled form already. -/
theorem settled_text (pieces : List Text) : (Item.text pieces).settled = .text pieces := by
  simp [Item.settled]

/-- An integer that was written is the integer that is read. -/
theorem payload_ofInt (n : Int) : (Item.ofInt n).payload = some (.integer n) := by
  cases n with
  | ofNat n =>
      rfl
  | negSucc n =>
      rw [Item.ofInt, Item.payload, Int.negSucc_eq]
      congr 2
      omega

/-- An integer field reads the integer that was written. -/
theorem int64Field_ofInt (old n : Int64) : (Item.ofInt n.toInt).int64Field old = some n := by
  have hlow := n.le_toInt
  have hhigh := n.toInt_lt
  simp only [Item.int64Field, Item.integerField, payload_ofInt]
  rw [if_pos (by simp; omega)]
  simp

/-- A text field reads the text that was written, if it is well formed. -/
theorem textField_text
    {t : Text}
    (old : Text)
    (h : t.isValid = true) :
    (Item.text [t]).textField old = some t := by
  simp [Item.textField, Item.payload, h]

/-- A field for a truth value reads the one that was written. -/
theorem boolField_ofBool (old b : Bool) : (Item.ofBool b).boolField old = some b := by
  cases b <;> rfl

/-- A field for a number reads the number that was written. -/
theorem realField_float (old x : Binary64) : (Item.float x).realField old = some x := by
  rfl

/-- A list is read if each of its items is. -/
theorem elements_eq_some
    {α : Type} {read : Item → Option α} {items : List Item} {as : List α}
    (h : List.Forall₂ (fun i a => read i = some a) items as)
    (done : Array α) :
    Item.elements read done items = some (done ++ as.toArray) := by
  induction h generalizing done with
  | nil =>
      simp [Item.elements]
  | cons ha _ ih =>
      rw [Item.elements, ha]
      simp [ih]

/-- A field for integers reads the list that was written. -/
theorem int64sField_ofInts (old : Array Int64) (ns : Array Int64) :
    (Item.array (ns.toList.map fun n => .ofInt n.toInt)).int64sField old = some ns := by
  have hread : List.Forall₂ (fun i n => Item.int64Field 0 i = some n)
      (ns.toList.map fun n => .ofInt n.toInt) ns.toList := by
    rw [List.forall₂_map_left_iff, List.forall₂_same]
    intro n _
    exact int64Field_ofInt 0 n
  simp [Item.int64sField, Item.payload, elements_eq_some hread]

end Fields

section Lists

variable {vs : List Value} {items out : List Item} {ks : List Constant}

/-- Values are written one by one, behind those before them. -/
theorem itemsOnto_eq_ok (done : Array Item) (vs : List Value) :
    itemsOnto done vs = .ok out ↔
      ∃ items, out = done.toList ++ items ∧
        List.Forall₂ (fun v i => v.toItem = .ok i) vs items := by
  induction vs generalizing done with
  | nil =>
      simp [itemsOnto, eq_comm]
  | cons v vs ih =>
      rw [itemsOnto]
      cases hv : v.toItem with
      | error e =>
          simp [List.forall₂_cons_left_iff, hv]
      | ok item =>
          simp only [ih, List.forall₂_cons_left_iff, hv]
          constructor
          · rintro ⟨items, rfl, hitems⟩
            exact ⟨item :: items, by simp, item, items, rfl, hitems, rfl⟩
          · rintro ⟨_, rfl, item', items, hitem, hitems, rfl⟩
            cases hitem
            exact ⟨items, by simp, hitems⟩

/-- An array has an item exactly if each of its constants has one. -/
theorem Value.toItem_array_eq_ok (vs : List Value) (item : Item) :
    (Value.array vs).toItem = .ok item ↔
      ∃ items, List.Forall₂ (fun v i => v.toItem = .ok i) vs items ∧
        item = constantItem 5 (optionalField 6 (!items.isEmpty) (.array items)) := by
  have honto : ∀ items, itemsOnto #[] vs = .ok items ↔
      List.Forall₂ (fun v i => v.toItem = .ok i) vs items := by
    intro items
    simp [itemsOnto_eq_ok]
  simp only [Value.toItem, ← honto]
  cases itemsOnto #[] vs with
  | error e =>
      simp
  | ok items =>
      simp [eq_comm]

/-- The pool of a chunk is made like an array; only an error tells the two apart. -/
theorem poolItems_eq_ok (index : Nat) (done : Array Item) (vs : List Value) :
    poolItems index done vs = .ok out ↔ itemsOnto done vs = .ok out := by
  induction vs generalizing index done with
  | nil =>
      rw [poolItems, itemsOnto]
  | cons v vs ih =>
      rw [poolItems, itemsOnto]
      cases v.toItem with
      | error e =>
          simp
      | ok item =>
          exact ih (index + 1) (done.push item)

/-- Constants are read one by one, behind those before them. -/
theorem readConstantsOnto_eq_some
    (h : List.Forall₂ (fun i k => readConstant i = some k) items ks)
    (done : Array Constant) :
    readConstantsOnto done items = some (done.toList ++ ks) := by
  induction h generalizing done with
  | nil =>
      simp [readConstantsOnto]
  | cons hk _ ih =>
      rw [readConstantsOnto, hk]
      simp [ih]

/-- A constant stands for a value, whatever its place. -/
def Constant.Means (k : Constant) (v : Value) : Prop :=
  ∀ place, ∃ v', k.toValue place = .ok v' ∧ v.Same v'

/-- Values come back one by one from the constants that mean them. -/
theorem arrayValues_of_means
    (h : List.Forall₂ (fun v k => Constant.Means k v) vs ks)
    (place : List Nat)
    (index : Nat)
    (done : Array Value) :
    ∃ vs', arrayValues place index done ks = .ok (done.toList ++ vs') ∧
      List.Forall₂ Value.Same vs vs' := by
  induction h generalizing index done with
  | nil =>
      exact ⟨[], by simp [arrayValues], .nil⟩
  | cons hk _ ih =>
      obtain ⟨v', hv', hsame⟩ := hk (index :: place)
      obtain ⟨vs', hvs', hsames⟩ := ih (index + 1) (done.push v')
      refine ⟨v' :: vs', ?_, .cons hsame hsames⟩
      rw [arrayValues, hv']
      simp [hvs']

/-- The constants of a pool give the values that those of a list give. -/
theorem poolValues_eq_ok {out : Array Value} (place : List Nat) (index : Nat) (done : Array Value)
    (ks : List Constant) :
    poolValues place index done ks = .ok out ↔ arrayValues place index done ks = .ok out.toList := by
  induction ks generalizing index done with
  | nil =>
      simp [poolValues, arrayValues, ← Array.toList_inj]
  | cons k ks ih =>
      rw [poolValues, arrayValues]
      cases k.toValue (index :: place) with
      | error e =>
          simp
      | ok v =>
          exact ih (index + 1) (done.push v)

/-- The item of a constant is read as a constant that stands for it. -/
def Value.Returns (v : Value) : Prop :=
  ∀ item, v.toItem = .ok item → ∃ k, readConstant item.settled = some k ∧ k.Means v

/-- Items of values that come back are read as constants that mean these values. -/
theorem exists_constants
    (h : List.Forall₂ (fun v i => v.toItem = .ok i) vs items)
    (hreturns : ∀ v ∈ vs, v.Returns) :
    ∃ ks, List.Forall₂ (fun i k => readConstant i = some k) (items.map Item.settled) ks ∧
      List.Forall₂ (fun v k => Constant.Means k v) vs ks := by
  induction h with
  | nil =>
      exact ⟨[], .nil, .nil⟩
  | @cons v item vs items hitem _ ih =>
      obtain ⟨k, hk, hmeans⟩ := hreturns v List.mem_cons_self item hitem
      obtain ⟨ks, hks, hmeanss⟩ := ih fun w hw => hreturns w (List.mem_cons_of_mem v hw)
      exact ⟨k :: ks, .cons hk hks, .cons hmeans hmeanss⟩

end Lists

section Constants

/-- The form of a constant is the form of its fields. -/
theorem settled_constantItem (kind : Nat) (fields : List (Item × Item)) :
    (constantItem kind fields).settled =
      constantItem kind (fields.map fun e => (e.1.settled, e.2.settled)) := by
  simp [constantItem, Item.settled]

/-- The form of a field that may be left out is the form of its item. -/
theorem settled_optionalField (key : Nat) (present : Bool) (item : Item) :
    (optionalField key present item).map (fun e => (e.1.settled, e.2.settled)) =
      optionalField key present item.settled := by
  cases present <;> simp [optionalField, Item.settled]

/-- Reads the fields of a record one after the other, given how each of them changes it. -/
def readFields {α : Type} (count : Nat) (update : Nat → Item → α → Option α) :
    List (Item × Item) → List Nat → α → Option α
  | [], _, a => some a
  | (key, value) :: rest, seen, a =>
    match FieldKey.of count key with
    | .invalid => none
    | .skipped => readFields count update rest seen a
    | .field n =>
      if seen.contains n then readFields count update rest seen a
      else match update n value a with
        | some a => readFields count update rest (n :: seen) a
        | none => none

/-- A constant with a field read from an item. -/
def Constant.update (n : Nat) (value : Item) (k : Constant) : Option Constant :=
  match n with
  | 1 => (value.byteField k.kind).map fun x => { k with kind := x }
  | 2 => (value.boolField k.bool).map fun x => { k with bool := x }
  | 3 => (value.int64Field k.int).map fun x => { k with int := x }
  | 4 => (value.realField k.float).map fun x => { k with float := x }
  | 5 => (value.textField k.string).map fun x => { k with string := x }
  | 6 => (readConstants value).map fun x => { k with items := x }
  | 7 => (value.int64Field k.arity).map fun x => { k with arity := x }
  | _ => (readBody value).map fun x => { k with body := x }

/-- A container with a field read from an item. -/
def Container.update (n : Nat) (value : Item) (b : Container) : Option Container :=
  match n with
  | 1 => (value.textField b.magic).map fun x => { b with magic := x }
  | 2 => (value.byteField b.major).map fun x => { b with major := x }
  | 3 => (value.byteField b.minor).map fun x => { b with minor := x }
  | 4 => (value.bytesField b.code).map fun x => { b with code := x }
  | 5 => (value.int64sField b.lines).map fun x => { b with lines := x }
  | _ => (readConstants value).map fun x => { b with constants := x }

/-- A field of a constant counts where it is met first. -/
theorem readConstantFields_field
    {n : Nat} {key : Item}
    (hkey : FieldKey.of 8 key = .field n)
    (value : Item)
    (entries : List (Item × Item))
    (seen : List Nat)
    (k : Constant) :
    readConstantFields ((key, value) :: entries) seen k =
      if seen.contains n then readConstantFields entries seen k
      else match k.update n value with
        | some k => readConstantFields entries (n :: seen) k
        | none => none := by
  rw [readConstantFields, hkey]
  rfl

/-- The fields of a constant are read as those of any record. -/
theorem readConstantFields_eq (entries : List (Item × Item)) (seen : List Nat) (k : Constant) :
    readConstantFields entries seen k = readFields 8 Constant.update entries seen k := by
  induction entries generalizing seen k with
  | nil =>
      rfl
  | cons e entries ih =>
      obtain ⟨key, value⟩ := e
      cases hkey : FieldKey.of 8 key with
      | invalid =>
          rw [readConstantFields, readFields, hkey]
      | skipped =>
          rw [readConstantFields, readFields, hkey]
          exact ih seen k
      | field n =>
          rw [readConstantFields_field hkey, readFields, hkey]
          simp only [ih]
          cases k.update n value <;> rfl

/-- A field of a container counts where it is met first. -/
theorem readContainerFields_field
    {n : Nat} {key : Item}
    (hkey : FieldKey.of 6 key = .field n)
    (value : Item)
    (entries : List (Item × Item))
    (seen : List Nat)
    (b : Container) :
    readContainerFields ((key, value) :: entries) seen b =
      if seen.contains n then readContainerFields entries seen b
      else match b.update n value with
        | some b => readContainerFields entries (n :: seen) b
        | none => none := by
  rw [readContainerFields, hkey]
  rfl

/-- The fields of a container are read as those of any record. -/
theorem readContainerFields_eq (entries : List (Item × Item)) (seen : List Nat) (b : Container) :
    readContainerFields entries seen b = readFields 6 Container.update entries seen b := by
  induction entries generalizing seen b with
  | nil =>
      rfl
  | cons e entries ih =>
      obtain ⟨key, value⟩ := e
      cases hkey : FieldKey.of 6 key with
      | invalid =>
          rw [readContainerFields, readFields, hkey]
      | skipped =>
          rw [readContainerFields, readFields, hkey]
          exact ih seen b
      | field n =>
          rw [readContainerFields_field hkey, readFields, hkey]
          simp only [ih]
          cases b.update n value <;> rfl

/-- A constant with nothing but a kind. -/
def Constant.ofKind (kind : UInt8) : Constant := { Constant.zero with kind := kind }

/-- The number of a field is its key. -/
theorem fieldKey_natural
    {n count : Nat}
    (hn : 1 ≤ n ∧ n ≤ count) :
    FieldKey.of count (.natural n) = .field n := by
  simp [FieldKey.of, hn]

/-- A field of a constant that is met first is taken up. -/
theorem readConstantFields_natural
    {n : Nat} {seen : List Nat} {value : Item} {k k' : Constant}
    (hn : 1 ≤ n ∧ n ≤ 8)
    (hseen : n ∉ seen)
    (h : k.update n value = some k')
    (rest : List (Item × Item)) :
    readConstantFields ((.natural n, value) :: rest) seen k =
      readConstantFields rest (n :: seen) k' := by
  simp [readConstantFields_eq, readFields, fieldKey_natural hn, hseen, h]

/-- A field that may be left out is read back, if it is zero where it is left out. -/
theorem readConstantFields_optional
    {n : Nat} {seen : List Nat} {present : Bool} {value : Item} {k k' : Constant}
    (hn : 1 ≤ n ∧ n ≤ 8)
    (hseen : n ∉ seen)
    (hpresent : present = true → k.update n value = some k')
    (habsent : present = false → k = k')
    (rest : List (Item × Item)) :
    ∃ seen', readConstantFields (optionalField n present value ++ rest) seen k =
      readConstantFields rest seen' k' ∧ seen' ⊆ n :: seen := by
  cases present with
  | true =>
      exact ⟨n :: seen, readConstantFields_natural hn hseen (hpresent rfl) rest, List.Subset.refl _⟩
  | false =>
      rw [habsent rfl]
      exact ⟨seen, rfl, List.subset_cons_self n seen⟩

/-- The fields of a constant follow its kind. -/
theorem readConstant_constantItem
    {kind : Nat}
    (hkind : kind ≤ 255)
    (fields : List (Item × Item)) :
    readConstant (constantItem kind fields) =
      readConstantFields fields [1] (.ofKind kind.toUInt8) := by
  have hfield : (Item.natural kind).byteField 0 = some kind.toUInt8 := by
    simp [Item.byteField, Item.integerField, Item.payload]
    omega
  rw [constantItem, readConstant]
  refine readConstantFields_natural (by decide) (by simp) ?_ fields
  simp [Constant.update, Constant.ofKind, Constant.zero, hfield]

/-- A constant with one field besides its kind is read back. -/
theorem readConstant_single
    {kind n : Nat} {present : Bool} {value : Item} {k : Constant}
    (hkind : kind ≤ 255)
    (hn : 2 ≤ n ∧ n ≤ 8)
    (hpresent : present = true →
      (Constant.ofKind kind.toUInt8).update n value.settled = some k)
    (habsent : present = false → Constant.ofKind kind.toUInt8 = k) :
    readConstant (constantItem kind (optionalField n present value)).settled = some k := by
  rw [settled_constantItem, readConstant_constantItem hkind, settled_optionalField]
  have hseen : n ∉ [1] := by
    rw [List.mem_singleton]
    omega
  obtain ⟨seen, hread, -⟩ := readConstantFields_optional (by omega) hseen hpresent habsent []
  rw [List.append_nil] at hread
  rw [hread, readConstantFields]

namespace Value

/-- The null value comes back. -/
theorem returns_null : Value.null.Returns := by
  rintro _ ⟨⟩
  rw [settled_constantItem, readConstant_constantItem (by decide)]
  exact ⟨_, rfl, fun place => ⟨_, rfl, .null⟩⟩

theorem returns_bool (b : Bool) : (Value.bool b).Returns := by
  rintro _ ⟨⟩
  refine ⟨{ Constant.ofKind 1 with bool := b }, ?_, fun place => ⟨_, rfl, .bool b⟩⟩
  refine readConstant_single (by decide) (by decide) ?_ ?_
  · intro _
    rw [settled_ofBool, Constant.update, boolField_ofBool]
    rfl
  · rintro rfl
    rfl

theorem returns_int (n : Int64) : (Value.int n).Returns := by
  rintro _ ⟨⟩
  refine ⟨{ Constant.ofKind 2 with int := n }, ?_, fun place => ⟨_, rfl, .int n⟩⟩
  refine readConstant_single (by decide) (by decide) ?_ ?_
  · intro _
    rw [settled_ofInt, Constant.update, int64Field_ofInt]
    rfl
  · intro hzero
    rw [bne_eq_false_iff_eq] at hzero
    rw [hzero]
    rfl

/-- A float that is left out is a zero, and one that is written keeps its value. -/
theorem same_settledFloat (x : Binary64) :
    (Value.float x).Same (.float (if x.isZero then .zero else Cbor.settledFloat x)) := by
  refine .float ?_
  split
  · rename_i hzero
    refine Or.inl ?_
    rcases Binary64.eq_of_isZero hzero with rfl | rfl <;> decide
  · unfold Cbor.settledFloat
    split
    · rename_i hnan
      exact Or.inr ⟨hnan, by decide⟩
    · rename_i hnan
      exact Or.inl (by simp [Binary64.equal, hnan])

theorem returns_float (x : Binary64) : (Value.float x).Returns := by
  rintro _ ⟨⟩
  refine ⟨{ Constant.ofKind 3 with float := if x.isZero then .zero else Cbor.settledFloat x }, ?_,
    fun place => ⟨_, rfl, same_settledFloat x⟩⟩
  refine readConstant_single (by decide) (by decide) ?_ ?_
  · intro hpresent
    rw [Bool.not_eq_true'] at hpresent
    rw [Item.settled, Constant.update, realField_float, hpresent]
    rfl
  · intro hzero
    rw [Bool.not_eq_false'] at hzero
    rw [hzero]
    rfl

/-- A string comes back if it is well formed. -/
theorem returns_string
    {s : Text}
    (h : s.isValid = true) :
    (Value.string s).Returns := by
  rintro _ ⟨⟩
  refine ⟨{ Constant.ofKind 4 with string := s }, ?_, fun place => ⟨_, rfl, .string s⟩⟩
  refine readConstant_single (by decide) (by decide) ?_ ?_
  · intro _
    rw [settled_text, Constant.update, textField_text _ h]
    rfl
  · intro hempty
    rw [Bool.not_eq_false', List.isEmpty_iff] at hempty
    rw [hempty]
    rfl

/-- An array comes back if its values do. -/
theorem returns_array
    {vs : List Value}
    (h : ∀ v ∈ vs, v.Returns) :
    (Value.array vs).Returns := by
  intro item hitem
  obtain ⟨items, hforall, rfl⟩ := (toItem_array_eq_ok vs item).mp hitem
  obtain ⟨ks, hread, hmeans⟩ := exists_constants hforall h
  refine ⟨{ Constant.ofKind 5 with items := ks }, ?_, ?_⟩
  · refine readConstant_single (by decide) (by decide) ?_ ?_
    · intro _
      rw [Item.settled, Constant.update, readConstants, readConstantsOnto_eq_some hread]
      rfl
    · intro hempty
      rw [Bool.not_eq_false', List.isEmpty_iff] at hempty
      subst hempty
      cases hread
      rfl
  · intro place
    obtain ⟨vs', hvs', hsame⟩ := arrayValues_of_means hmeans place 0 #[]
    refine ⟨.array vs', ?_, .array hsame⟩
    exact congrArg (Except.map Value.array) hvs'

end Value

end Constants

section Containers

/-- The item of the code of a chunk. -/
def Chunk.codeItem (c : Chunk) : Item :=
  match c.codeTable with
  | none => .null
  | some bytes => .bytes bytes.toList

/-- The item of the lines of a chunk. -/
def Chunk.linesItem (c : Chunk) : Item :=
  match c.lineTable with
  | none => .null
  | some ns => .array (ns.toList.map fun n => .ofInt n.toInt)

/-- The item of a chunk whose constants have the given items. -/
def Chunk.containerItem (c : Chunk) (items : List Item) : Item :=
  .map [
    (.natural 1, .text [containerMagic]),
    (.natural 2, .natural containerVersion.1.toNat),
    (.natural 3, .natural containerVersion.2.toNat),
    (.natural 4, c.codeItem),
    (.natural 5, c.linesItem),
    (.natural 6, listItem items)]

/-- A chunk has an item exactly if every code byte has a line and every constant an item. -/
theorem Chunk.toItem_eq_ok (c : Chunk) (item : Item) :
    c.toItem = .ok item ↔ c.lines.size = c.code.size ∧
      ∃ items, List.Forall₂ (fun v i => v.toItem = .ok i) c.constants.toList items ∧
        item = c.containerItem items := by
  obtain ⟨code, lines, ⟨constants⟩⟩ := c
  have hpool : ∀ items, poolItems 0 #[] constants = .ok items ↔
      List.Forall₂ (fun v i => v.toItem = .ok i) constants items := by
    intro items
    simp [poolItems_eq_ok, itemsOnto_eq_ok]
  simp only [Chunk.toItem, Chunk.lines, Chunk.code]
  split
  · rename_i hsize
    simp [hsize]
  · rename_i hsize
    rw [not_not] at hsize
    cases hitems : poolItems 0 #[] constants with
    | error e =>
        simp only [reduceCtorEq, false_iff, not_and, not_exists]
        intro _ items hforall
        rw [(hpool items).mpr hforall] at hitems
        cases hitems
    | ok items =>
        have hforall := (hpool items).mp hitems
        constructor
        · rintro ⟨⟩
          exact ⟨hsize, items, hforall, rfl⟩
        · rintro ⟨-, items', hforall', rfl⟩
          rw [(hpool items').mpr hforall'] at hitems
          cases hitems
          rfl

/-- The code of a chunk comes back. -/
theorem bytesField_codeItem (c : Chunk) : c.codeItem.settled.bytesField #[] = some c.code := by
  unfold Chunk.codeItem Chunk.code
  split <;> simp_all [Item.null, Item.settled, Item.bytesField, Item.payload]

/-- The lines of a chunk come back. -/
theorem int64sField_linesItem (c : Chunk) :
    c.linesItem.settled.int64sField #[] = some c.lines := by
  unfold Chunk.linesItem Chunk.lines
  split
  · rename_i hnone
    simp [hnone, Item.null, Item.settled, Item.int64sField, Item.payload]
  · rename_i ns hsome
    simp only [hsome, Item.settled, List.map_map, Function.comp_def, settled_ofInt,
      int64sField_ofInts, Option.getD_some]

/-- A list of constants comes back. -/
theorem readConstants_listItem
    {items : List Item} {ks : List Constant}
    (h : List.Forall₂ (fun i k => readConstant i = some k) (items.map Item.settled) ks) :
    readConstants (listItem items).settled = some ks := by
  cases items with
  | nil =>
      cases h
      simp [listItem, Item.null, Item.settled, readConstants]
  | cons item items =>
      have hread := readConstantsOnto_eq_some h #[]
      simp only [listItem, Item.settled, readConstants]
      exact hread

theorem getD_tableOf {α : Type} (xs : Array α) : (tableOf xs).getD #[] = xs := by
  unfold tableOf
  split
  · rename_i hempty
    rw [Array.isEmpty_iff] at hempty
    rw [hempty]
    rfl
  · rfl

/-- The fields of a chunk whose constants have the given ones. -/
def Chunk.container (c : Chunk) (ks : List Constant) : Container where
  magic := containerMagic
  major := containerVersion.1
  minor := containerVersion.2
  code := c.code
  lines := c.lines
  constants := ks

/-- A container comes back with its code, its lines and its constants. -/
theorem readContainer_containerItem
    {c : Chunk} {items : List Item} {ks : List Constant}
    (h : List.Forall₂ (fun i k => readConstant i = some k) (items.map Item.settled) ks) :
    readContainer (c.containerItem items).settled = some (c.container ks) := by
  have hmagic : (Item.text [containerMagic]).textField [] = some containerMagic :=
    textField_text [] (by decide)
  have hmajor : (Item.natural containerVersion.1.toNat).byteField 0 = some containerVersion.1 := rfl
  have hminor : (Item.natural containerVersion.2.toNat).byteField 0 = some containerVersion.2 := rfl
  simp only [Chunk.containerItem, Item.settled, List.map_cons, List.map_nil, readContainer]
  simp [readContainerFields, FieldKey.of, Container.zero, Chunk.container, hmagic, hmajor, hminor,
    bytesField_codeItem, int64sField_linesItem, readConstants_listItem h]

/-- The item of a chunk is read as a container that stands for it. -/
theorem Chunk.returns
    {c : Chunk} {item : Item}
    (h : ∀ v ∈ c.constants, v.Returns)
    (hitem : c.toItem = .ok item) :
    ∃ k, readContainer item.settled = some k ∧
      ∀ place, ∃ c', k.toChunk place = .ok c' ∧ c.Same c' := by
  obtain ⟨hsize, items, hforall, rfl⟩ := (c.toItem_eq_ok item).mp hitem
  obtain ⟨ks, hread, hmeans⟩ :=
    exists_constants hforall fun v hv => h v (Array.mem_toList_iff.mp hv)
  refine ⟨c.container ks, readContainer_containerItem hread, ?_⟩
  intro place
  obtain ⟨vs', hvs', hsame⟩ := arrayValues_of_means hmeans place 0 #[]
  have hpool : poolValues place 0 #[] ks = .ok vs'.toArray :=
    (poolValues_eq_ok place 0 #[] ks).mpr hvs'
  refine ⟨⟨tableOf c.code, tableOf c.lines, vs'.toArray⟩, ?_, .intro ?_ ?_ hsame⟩
  · simp [Chunk.container, Container.toChunk, hsize, hpool]
  · exact (getD_tableOf c.code).symm
  · exact (getD_tableOf c.lines).symm

end Containers

section Functions

/-- The fields of a function before its body. -/
def Prototype.front (f : Prototype) : List (Item × Item) :=
  optionalField 5 (!f.name.isEmpty) (.text [f.name]) ++
    optionalField 7 (f.arity != 0) (.ofInt f.arity.toInt)

/-- A function has an item exactly if its body, where it has one, has an item. -/
theorem Prototype.toItem_eq_ok (f : Prototype) (item : Item) :
    f.toItem = .ok item ↔
      (f.body = none ∧ item = constantItem 6 f.front) ∨
        ∃ c i, f.body = some c ∧ c.toItem = .ok i ∧
          item = constantItem 6 (f.front ++ [(.natural 8, i)]) := by
  obtain ⟨place, name, arity, body⟩ := f
  cases body with
  | none =>
      simp [Prototype.toItem, Prototype.front, eq_comm]
  | some c =>
      cases hc : c.toItem with
      | error e =>
          simp [Prototype.toItem, hc]
      | ok i =>
          simp [Prototype.toItem, Prototype.front, hc, eq_comm]

/-- The constant that the fields before the body make. -/
def Prototype.constant (f : Prototype) : Constant :=
  { Constant.ofKind 6 with string := f.name, arity := f.arity }

/-- The fields of a function in front of its body come back. -/
theorem readConstantFields_front
    {f : Prototype}
    (h : f.name.isValid = true)
    (rest : List (Item × Item)) :
    ∃ seen, readConstantFields (f.front.map (fun e => (e.1.settled, e.2.settled)) ++ rest) [1]
        (.ofKind 6) = readConstantFields rest seen f.constant ∧ 8 ∉ seen := by
  rw [Prototype.front, List.map_append, settled_optionalField, settled_optionalField, settled_text,
    settled_ofInt, List.append_assoc]
  have hname : (!f.name.isEmpty) = true → (Constant.ofKind 6).update 5 (.text [f.name]) =
      some { Constant.ofKind 6 with string := f.name } := by
    intro _
    rw [Constant.update, textField_text _ h]
    rfl
  have hnoName : (!f.name.isEmpty) = false →
      Constant.ofKind 6 = { Constant.ofKind 6 with string := f.name } := by
    intro hempty
    rw [Bool.not_eq_false', List.isEmpty_iff] at hempty
    rw [hempty]
    rfl
  have harity : (f.arity != 0) = true →
      Constant.update 7 (.ofInt f.arity.toInt) { Constant.ofKind 6 with string := f.name } =
        some f.constant := by
    intro _
    rw [Constant.update, int64Field_ofInt]
    rfl
  have hnoArity : (f.arity != 0) = false →
      { Constant.ofKind 6 with string := f.name } = f.constant := by
    intro hzero
    rw [bne_eq_false_iff_eq] at hzero
    rw [Prototype.constant, hzero]
    rfl
  obtain ⟨seen, hread, hseen⟩ := readConstantFields_optional (by decide)
    (show 5 ∉ [1] by decide) hname hnoName
    (optionalField 7 (f.arity != 0) (.ofInt f.arity.toInt) ++ rest)
  have hseven : 7 ∉ seen := fun hmem => absurd (hseen hmem) (by decide)
  obtain ⟨seen', hread', hseen'⟩ := readConstantFields_optional (by decide) hseven harity hnoArity
    rest
  refine ⟨seen', hread.trans hread', ?_⟩
  intro hmem
  rcases List.mem_cons.mp (hseen' hmem) with heq | hmem
  · cases heq
  · exact absurd (hseen hmem) (by decide)

/-- The body of a function is read as a container. -/
theorem readBody_containerItem (c : Chunk) (items : List Item) :
    readBody (c.containerItem items).settled =
      (readContainer (c.containerItem items).settled).map some := by
  simp only [Chunk.containerItem, Item.settled, readBody, readContainer]

/-- A function comes back if its name is well formed and the values of its body do. -/
theorem Value.returns_func
    {f : Prototype}
    (h : f.name.isValid = true)
    (hbody : ∀ c, f.body = some c → ∀ v ∈ c.constants, v.Returns) :
    (Value.func f).Returns := by
  intro item hitem
  rw [Value.toItem] at hitem
  rcases (f.toItem_eq_ok item).mp hitem with ⟨hnone, rfl⟩ | ⟨c, i, hsome, hi, rfl⟩
  · obtain ⟨seen, hread, -⟩ := readConstantFields_front h []
    rw [List.append_nil] at hread
    refine ⟨f.constant, ?_, ?_⟩
    · rw [settled_constantItem, readConstant_constantItem (by decide)]
      exact hread
    · intro place
      refine ⟨_, rfl, .func rfl rfl ?_⟩
      rw [hnone]
      exact .none
  · obtain ⟨k, hk, hchunk⟩ := Chunk.returns (hbody c hsome) hi
    obtain ⟨seen, hread, hseen⟩ := readConstantFields_front h [(.natural 8, i.settled)]
    have hfield : f.constant.update 8 i.settled = some { f.constant with body := some k } := by
      obtain ⟨-, items, -, rfl⟩ := (c.toItem_eq_ok i).mp hi
      simp [Constant.update, readBody_containerItem, hk]
    refine ⟨{ f.constant with body := some k }, ?_, ?_⟩
    · rw [settled_constantItem, readConstant_constantItem (by decide), List.map_append,
        List.map_singleton, settled_natural]
      rw [readConstantFields_natural (by decide) hseen hfield, readConstantFields] at hread
      exact hread
    · intro place
      obtain ⟨c', hc', hsame⟩ := hchunk place
      refine ⟨.func ⟨place, f.name, f.arity, some c'⟩, ?_, .func rfl rfl ?_⟩
      · simp [Prototype.constant, Constant.ofKind, Constant.zero, Constant.toValue, hc']
      · rw [hsome]
        exact .some hsame

/-- What is written of a constant is read as a constant that stands for it. -/
theorem Value.Storable.returns
    {v : Value}
    (h : v.Storable) :
    v.Returns := by
  induction h with
  | @scalar v hstring harray hfunc =>
      cases v with
      | null => exact returns_null
      | bool b => exact returns_bool b
      | int n => exact returns_int n
      | float x => exact returns_float x
      | string s => exact absurd rfl (hstring s)
      | array items => exact absurd rfl (harray items)
      | func f => exact absurd rfl (hfunc f)
      | missingInt | missingFloat | missingFunc | unknown =>
          rintro _ ⟨⟩
  | string hs =>
      exact returns_string hs.valid
  | array _ _ ih =>
      exact returns_array ih
  | func hname _ _ ih =>
      exact returns_func hname.valid ih

end Functions

end Bytecode
end StackNative
