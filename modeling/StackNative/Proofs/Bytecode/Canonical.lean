import StackNative.Proofs.Bytecode.Restored
import StackNative.Proofs.Bytecode.RoundTrip

/-!
# Writing what was read settles a container

**Input.**  The bytes of a container in any form that is accepted.

**Algorithm.**  Chunks that were read and are the same have the same bytes, although
their items may differ: zeros of either sign are left out, and what is not a number
is written in one way.  So what comes back from writing is written as before.

**Results.**
* `Value.Restored.oneForm`, `Chunk.encode_eq`: restored constants and chunks that are
  the same have the same bytes.
* `Chunk.marshal_settles`: one pass of reading and writing settles a container.
-/

namespace StackNative
namespace Bytecode

open Cbor (Item)

section Forms

theorem encode_array_congr
    {is js : List Item}
    (h : is.map Item.encode = js.map Item.encode) :
    (Item.array is).encode = (Item.array js).encode := by
  have hlength : is.length = js.length := by
    simpa using congrArg List.length h
  rw [Item.encode_array, Item.encode_array, List.flatMap_def, List.flatMap_def, h, hlength]

theorem encode_listItem_congr
    {is js : List Item}
    (h : is.map Item.encode = js.map Item.encode) :
    (listItem is).encode = (listItem js).encode := by
  cases is with
  | nil =>
      rw [List.map_nil, eq_comm, List.map_eq_nil_iff] at h
      rw [h]
  | cons i is =>
      cases js with
      | nil =>
          cases h
      | cons j js =>
          exact encode_array_congr h

theorem encode_single_congr
    {i j : Item}
    (kind key : Nat)
    (present : Bool)
    (h : i.encode = j.encode) :
    (constantItem kind (optionalField key present i)).encode =
      (constantItem kind (optionalField key present j)).encode := by
  cases present with
  | false =>
      rfl
  | true =>
      simp [constantItem, optionalField, h]

theorem encode_body_congr
    {i j : Item}
    (kind key : Nat)
    (fields : List (Item × Item))
    (h : i.encode = j.encode) :
    (constantItem kind (fields ++ [(.natural key, i)])).encode =
      (constantItem kind (fields ++ [(.natural key, j)])).encode := by
  simp [constantItem, h]

end Forms

section Alike

variable {size : Nat}

/-- Whatever constant was read and is the same has the same bytes. -/
def Value.OneForm (v : Value) : Prop :=
  ∀ size w i j, w.Restored size → v.Same w → v.toItem = .ok i → w.toItem = .ok j →
    i.encode = j.encode

theorem encode_items_eq
    {vs ws : List Value} {is js : List Item}
    (hone : ∀ v ∈ vs, v.OneForm)
    (hrestored : ∀ w ∈ ws, w.Restored size)
    (hsame : List.Forall₂ Value.Same vs ws)
    (his : List.Forall₂ (fun v i => v.toItem = .ok i) vs is)
    (hjs : List.Forall₂ (fun w j => w.toItem = .ok j) ws js) :
    is.map Item.encode = js.map Item.encode := by
  induction hsame generalizing is js with
  | nil =>
      cases his
      cases hjs
      rfl
  | @cons v w vs ws hvw _ ih =>
      obtain ⟨i, is, hi, hisRest, rfl⟩ := List.forall₂_cons_left_iff.mp his
      obtain ⟨j, js, hj, hjsRest, rfl⟩ := List.forall₂_cons_left_iff.mp hjs
      rw [List.map_cons, List.map_cons,
        hone v List.mem_cons_self size w i j (hrestored w List.mem_cons_self) hvw hi hj,
        ih (fun v' hv' => hone v' (List.mem_cons_of_mem v hv'))
          (fun w' hw' => hrestored w' (List.mem_cons_of_mem w hw')) hisRest hjsRest]

/-- Tables that are absent where they are empty leave no choice to a chunk. -/
theorem Chunk.encode_eq
    {c d : Chunk} {i j : Item}
    (hc : c.Tidy)
    (hd : d.Restored size)
    (hone : ∀ v ∈ c.constants, v.OneForm)
    (hsame : c.Same d)
    (hi : c.toItem = .ok i)
    (hj : d.toItem = .ok j) :
    i.encode = j.encode := by
  obtain ⟨-, is, his, rfl⟩ := (c.toItem_eq_ok i).mp hi
  obtain ⟨-, js, hjs, rfl⟩ := (d.toItem_eq_ok j).mp hj
  cases hsame with
  | intro hcode hlines hconstants =>
      have hitems : is.map Item.encode = js.map Item.encode :=
        encode_items_eq (fun v hv => hone v (Array.mem_toList_iff.mp hv))
          (fun w hw => hd.constants w (Array.mem_toList_iff.mp hw)) hconstants his hjs
      have hcodeItem : c.codeItem = d.codeItem := by
        rw [Chunk.codeItem, Chunk.codeItem, hc.codeTable, hd.tidy.codeTable, hcode]
      have hlinesItem : c.linesItem = d.linesItem := by
        rw [Chunk.linesItem, Chunk.linesItem, hc.lineTable, hd.tidy.lineTable, hlines]
      simp [Chunk.containerItem, hcodeItem, hlinesItem, encode_listItem_congr hitems]

theorem Value.oneForm_float (x : Binary64) : (Value.float x).OneForm := by
  intro size w i j _ hsame hi hj
  cases hi
  cases hsame with
  | @float _ y heq =>
      cases hj
      rcases heq with heq | ⟨hx, hy⟩
      · simp only [Binary64.equal, Bool.and_eq_true, Bool.or_eq_true, beq_iff_eq] at heq
        obtain ⟨-, rfl | ⟨hx, hy⟩⟩ := heq
        · rfl
        · rw [hx, hy]
          rfl
      · rw [Binary64.isZero_of_isNaN hx, Binary64.isZero_of_isNaN hy]
        refine encode_single_congr 3 4 _ ?_
        rw [Item.encode_float, Item.encode_float, Cbor.floatBytes_of_isNaN hx,
          Cbor.floatBytes_of_isNaN hy]

theorem Value.oneForm_array
    {vs : List Value}
    (h : ∀ v ∈ vs, v.OneForm) :
    (Value.array vs).OneForm := by
  intro size w i j hw hsame hi hj
  cases hsame with
  | @array _ ws hsame =>
      cases hw with
      | array _ hrestored =>
          obtain ⟨is, his, rfl⟩ := (Value.toItem_array_eq_ok vs i).mp hi
          obtain ⟨js, hjs, rfl⟩ := (Value.toItem_array_eq_ok ws j).mp hj
          have hitems := encode_items_eq h hrestored hsame his hjs
          have hempty : is.isEmpty = js.isEmpty := by
            simpa using congrArg List.isEmpty hitems
          rw [hempty]
          exact encode_single_congr 5 6 _ (encode_array_congr hitems)

theorem Value.oneForm_func
    {f : Prototype}
    (htidy : ∀ c, f.body = some c → c.Tidy)
    (h : ∀ c, f.body = some c → ∀ v ∈ c.constants, v.OneForm) :
    (Value.func f).OneForm := by
  intro size w i j hw hsame hi hj
  cases hsame with
  | @func _ g hname harity hbody =>
      cases hw with
      | func _ hgtidy hgrestored =>
          rw [Value.toItem] at hi hj
          have hfront : f.front = g.front := by
            rw [Prototype.front, Prototype.front, hname, harity]
          rcases (f.toItem_eq_ok i).mp hi with ⟨hf, rfl⟩ | ⟨c, i, hf, hic, rfl⟩
          · rcases (g.toItem_eq_ok j).mp hj with ⟨hg, rfl⟩ | ⟨d, j, hg, hjd, rfl⟩
            · rw [hfront]
            · rw [hf, hg] at hbody
              cases hbody
          · rcases (g.toItem_eq_ok j).mp hj with ⟨hg, rfl⟩ | ⟨d, j, hg, hjd, rfl⟩
            · rw [hf, hg] at hbody
              cases hbody
            · rw [hf, hg] at hbody
              cases hbody with
              | some hsame =>
                  rw [hfront]
                  refine encode_body_congr 6 8 g.front ?_
                  exact Chunk.encode_eq (htidy c hf) ⟨hgtidy d hg, hgrestored d hg⟩ (h c hf) hsame
                    hic hjd

/-- Restored constants that are the same have the same bytes. -/
theorem Value.Restored.oneForm
    {v : Value}
    (h : v.Restored size) :
    v.OneForm := by
  induction h with
  | float x =>
      exact oneForm_float x
  | array _ _ ih =>
      exact oneForm_array ih
  | func _ htidy _ ih =>
      exact oneForm_func htidy ih
  | null | bool | int | string =>
      intro size w i j _ hsame hi hj
      cases hsame
      rw [hi] at hj
      cases hj
      rfl

end Alike

section Containers

/-- One pass of reading and writing settles a container, whose length is a machine word: what is
written can be read, as the same chunk, and is written again byte for byte. -/
theorem Chunk.marshal_settles
    {bytes : Text} {c : Chunk}
    (hlength : bytes.length < 2 ^ 64)
    (h : Chunk.unmarshal bytes = .ok c)
    (hnested : c.Nested 8) :
    ∃ bytes' c', c.marshal = .ok bytes' ∧ Chunk.unmarshal bytes' = .ok c' ∧ c.Same c' ∧
      c'.marshal = .ok bytes' := by
  have hc := Chunk.restored_of_unmarshal h
  obtain ⟨i, hi⟩ := hc.exists_item
  have hstorable := hc.storable hlength
  obtain ⟨c', hc', hsame⟩ := hstorable.unmarshal_encode (hnested.fits hstorable hi) hi
  -- the chunk that comes back is restored from what was written, however long that is
  have hrestored := Chunk.restored_of_unmarshal hc'
  obtain ⟨j, hj⟩ := hrestored.exists_item
  have hencode : i.encode = j.encode :=
    Chunk.encode_eq hc.tidy hrestored (fun v hv => (hc.constants v hv).oneForm) hsame hi hj
  exact ⟨i.encode, c', (c.marshal_eq_ok _).mpr ⟨i, hi, rfl⟩, hc', hsame,
    (c'.marshal_eq_ok _).mpr ⟨j, hj, hencode⟩⟩

/-- A container of every form but the shortest: collections and texts without a count, numbers that
are too long, keys that are texts, out of order, unknown or missing, a payload of what is not a
number, a negative zero, and a table that is present but empty. -/
def loose : Text := [
  0xbf,
    0x61, 0x31, 0x7f, 0x62, 0x53, 0x4f, 0x62, 0x4c, 0x41, 0xff,
    0x18, 0x63, 0xf6,
    0x05, 0x83, 0x1a, 0x00, 0x00, 0x00, 0x01, 0x01, 0x21,
    0x04, 0x43, 0x00, 0x00, 0x29,
    0x02, 0x18, 0x01,
    0x03, 0x19, 0x00, 0x07,
    0x06, 0x9f,
      0xa2, 0x01, 0x03, 0x04, 0xfb, 0x7f, 0xf0, 0x00, 0x00, 0x00, 0x00, 0x00, 0x01,
      0xa3, 0x04, 0xfb, 0x80, 0x00, 0x00, 0x00, 0x00, 0x00, 0x00, 0x00, 0x01, 0x03, 0x03, 0x05,
      0xa3, 0x01, 0x06, 0x05, 0x61, 0x66, 0x08,
        0xa3, 0x01, 0x64, 0x53, 0x4f, 0x4c, 0x41, 0x02, 0x01, 0x05, 0x80,
      0xa2, 0x01, 0x05, 0x06, 0x81, 0xa2, 0x01, 0x04, 0x05, 0x62, 0xc3, 0xa9,
      0xff,
    0xff]

/-- The chunk in that container. -/
def looseChunk : Chunk :=
  ⟨some #[0, 0, 41], some #[1, 1, -2],
    #[.float ⟨0x7ff0000000000001⟩, .float ⟨0x8000000000000000⟩,
      .func ⟨[2], [0x66], 0, some ⟨none, none, #[]⟩⟩, .array [.string [0xc3, 0xa9]]]⟩

theorem looseChunk_nested : looseChunk.Nested 8 := by
  intro v hv
  simp only [looseChunk, List.mem_toArray, List.mem_cons, List.not_mem_nil, or_false] at hv
  rcases hv with rfl | rfl | rfl | rfl
  · exact .scalar nofun nofun
  · exact .scalar nofun nofun
  · refine .func ?_
    rintro c ⟨⟩ v hv
    cases Array.not_mem_empty v hv
  · refine .array ?_
    intro v hv
    cases List.mem_singleton.mp hv
    exact .scalar nofun nofun

theorem loose_settles :
    Chunk.unmarshal loose = .ok looseChunk ∧
      ∃ bytes c', looseChunk.marshal = .ok bytes ∧ Chunk.unmarshal bytes = .ok c' ∧
        looseChunk.Same c' ∧ c'.marshal = .ok bytes := by
  have hread : Chunk.unmarshal loose = .ok looseChunk := rfl
  exact ⟨hread, Chunk.marshal_settles (by decide) hread looseChunk_nested⟩

end Containers

end Bytecode
end StackNative
