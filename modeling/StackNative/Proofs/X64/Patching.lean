import Mathlib.Data.List.Basic
import Mathlib.Data.List.Induction
import StackNative.Proofs.X64.Layout
import StackNative.X64.Buffer

/-!
# Asking for the bytes at any time

**Input.**  Calls on a buffer that patches its code in place.

**Algorithm.**  The places for distances do not meet, so what is written over one of them
leaves the others and all emitted bytes as they are.  Whatever stands in these places is
written over before bytes are given.

**Results.**
* `Tracks`: what a buffer says about the pieces that were added, kept by every call.
* `Tracks.finish_fst`: the answer depends on the pieces only, and is the one of the layout in
  two passes.
* `finish_after_finishes`: earlier calls for the bytes do not disturb the last one, which
  changes nothing outside the places for distances.
-/

namespace StackNative
namespace X64

section Sites

/-- Outside the four bytes of each site. -/
def Outside (sites : List Site) (k : Nat) : Prop :=
  ∀ s ∈ sites, k < s.offset ∨ s.offset + 4 ≤ k

/-- Sites of four bytes between two offsets, each one behind those before it. -/
structure Spaced (sites : List Site) (start stop : Nat) : Prop where
  apart : sites.Pairwise fun s t => s.offset + 4 ≤ t.offset
  inside : ∀ s ∈ sites, start ≤ s.offset ∧ s.offset + 4 ≤ stop

/-- The bytes of a site hold the distance to an offset. -/
def Site.Holds (s : Site) (target : Nat) (bytes : Text) : Prop :=
  ∀ j < 4, bytes[s.offset + j]? = (distance (s.offset + 4) target)[j]?

theorem length_distance
    (siteEnd target : Nat) :
    (distance siteEnd target).length = 4 :=
  length_bytes32 _

/-- Where a site holds its distance, its four bytes are that distance. -/
theorem Site.Holds.take_drop
    {s : Site}
    {target : Nat}
    {bytes : Text}
    (h : s.Holds target bytes) :
    (bytes.drop s.offset).take 4 = distance (s.offset + 4) target := by
  apply List.ext_getElem?
  intro j
  rcases Nat.lt_or_ge j 4 with hj | hj
  · rw [List.getElem?_take_of_lt hj, List.getElem?_drop, h j hj]
  · rw [List.getElem?_eq_none (Nat.le_trans (List.length_take_le _ _) hj),
      List.getElem?_eq_none (Nat.le_trans (Nat.le_of_eq (length_distance _ _)) hj)]

/-- The first site whose label is not bound. -/
def firstUnbound (labels : Std.HashMap Int Nat) (sites : List Site) : Option (Unbound Int) :=
  (sites.find? fun s => labels[s.target]?.isNone).map fun s => ⟨s.target, s.offset⟩

/-- The four bytes that an item at an offset leaves for a distance. -/
def Item.site? (offset : Nat) : Item Int → Option Site
  | .instruction i => i.label?.map fun l => ⟨offset + i.opcodeBytes.length, l⟩
  | _ => none

/-- The sites of items that begin at an offset. -/
def sitesFrom (offset : Nat) : List (Item Int) → List Site
  | [] => []
  | item :: rest => (item.site? offset).toList ++ sitesFrom (offset + item.size offset) rest

end Sites

section Layout

/-- A site is the last part of its item. -/
theorem Item.site_inside
    {offset : Nat}
    {item : Item Int}
    {s : Site}
    (h : item.site? offset = some s) :
    offset ≤ s.offset ∧ s.offset + 4 = offset + item.size offset := by
  cases item with
  | instruction i =>
      obtain ⟨l, hl, rfl⟩ := Option.map_eq_some_iff.mp h
      simp only [Item.size, Instruction.size, hl, Option.isSome_some, if_true]
      omega
  | _ =>
      cases h

/-- The sites of items in front and behind are those of both. -/
theorem sitesFrom_append
    (offset : Nat)
    (front back : List (Item Int)) :
    sitesFrom offset (front ++ back) =
      sitesFrom offset front ++ sitesFrom (endOf offset front) back := by
  induction front generalizing offset with
  | nil =>
      rfl
  | cons item front ih =>
      rw [List.cons_append, sitesFrom, ih, sitesFrom, endOf_cons, List.append_assoc]

/-- The sites of items follow each other inside the bytes of the items. -/
theorem spaced_sitesFrom
    (offset : Nat)
    (items : List (Item Int)) :
    Spaced (sitesFrom offset items) offset (endOf offset items) := by
  induction items generalizing offset with
  | nil =>
      exact ⟨.nil, by simp [sitesFrom]⟩
  | cons item items ih =>
      have hrest := ih (offset + item.size offset)
      have hend := le_endOf (offset + item.size offset) items
      rw [sitesFrom, endOf_cons]
      cases hsite : item.site? offset with
      | none =>
          refine ⟨hrest.apart, fun t ht => ?_⟩
          have := hrest.inside t ht
          omega
      | some s =>
          have hs := Item.site_inside hsite
          constructor
          · refine List.pairwise_cons.mpr ⟨fun t ht => ?_, hrest.apart⟩
            have := hrest.inside t ht
            omega
          · intro t ht
            rcases List.mem_cons.mp ht with rfl | ht
            · omega
            · have := hrest.inside t ht
              omega

/-- An instruction that names a label ends with the distance to it. -/
theorem Item.holds_bytesAt
    (target : Int → Nat)
    {front : Text}
    {item : Item Int}
    (back : Text)
    {s : Site}
    (h : item.site? front.length = some s) :
    s.Holds (target s.target) (front ++ (item.bytesAt target front.length ++ back)) := by
  intro j hj
  have hplace := Item.site_inside h
  cases item with
  | instruction i =>
      obtain ⟨l, hl, rfl⟩ := Option.map_eq_some_iff.mp h
      have hdistance : i.distanceAt target front.length =
          .ofInt ((target l : Int) - (front.length + i.opcodeBytes.length + 4 : Nat)) := by
        simp only [Instruction.distanceAt, hl]
        congr 3
        exact hplace.2.symm
      rw [Item.bytesAt, Instruction.bytes, hl, Option.isSome_some, if_pos rfl, hdistance,
        List.getElem?_append_right (by simp only; omega), List.append_assoc,
        List.getElem?_append_right (by simp only; omega),
        List.getElem?_append_left (by simp only [length_bytes32]; omega), distance]
      congr 1
      simp only
      omega
  | _ =>
      cases h

/-- Every site holds its distance in the bytes of the items. -/
theorem holds_append_bytesFrom
    (target : Int → Nat)
    (front : Text)
    {items : List (Item Int)}
    {s : Site}
    (h : s ∈ sitesFrom front.length items) :
    s.Holds (target s.target) (front ++ bytesFrom target front.length items) := by
  induction items generalizing front with
  | nil =>
      cases h
  | cons item items ih =>
      rcases List.mem_append.mp h with hsite | hrest
      · exact Item.holds_bytesAt target _ (Option.mem_toList.mp hsite)
      · have hlength : front.length + item.size front.length =
            (front ++ item.bytesAt target front.length).length := by
          rw [List.length_append, Item.length_bytesAt]
        rw [hlength] at hrest
        rw [bytesFrom, hlength, ← List.append_assoc]
        exact ih _ hrest

/-- The bytes of items have the distance to its label at each site. -/
theorem holds_bytesFrom
    (target : Int → Nat)
    {items : List (Item Int)}
    {s : Site}
    (h : s ∈ sitesFrom 0 items) :
    s.Holds (target s.target) (bytesFrom target 0 items) :=
  holds_append_bytesFrom target [] h

/-- Outside its site an item has the same bytes whatever the offsets of the labels. -/
theorem Item.bytesAt_of_outside
    (target target' : Int → Nat)
    {offset j : Nat}
    {item : Item Int}
    (h : Outside (item.site? offset).toList (offset + j)) :
    (item.bytesAt target offset)[j]? = (item.bytesAt target' offset)[j]? := by
  cases item with
  | instruction i =>
      cases hl : i.label? with
      | none =>
          simp only [Item.bytesAt, Instruction.bytes, hl]
          rfl
      | some l =>
          have hplace := h ⟨offset + i.opcodeBytes.length, l⟩ (by simp [Item.site?, hl])
          simp only [Item.bytesAt, Instruction.bytes, hl, Option.isSome_some, if_true]
          rcases hplace with hfront | hbehind
          · have hj : j < i.opcodeBytes.length := by
              simp only at hfront
              omega
            rw [List.getElem?_append_left hj, List.getElem?_append_left hj]
          · have hj : i.opcodeBytes.length + 4 ≤ j := by
              simp only at hbehind
              omega
            rw [List.getElem?_eq_none (by simpa using hj),
              List.getElem?_eq_none (by simpa using hj)]
  | _ =>
      rfl

/-- The labels of the sites are those that the items refer to. -/
theorem references_eq_map
    (offset : Nat)
    (items : List (Item Int)) :
    references items = (sitesFrom offset items).map Site.target := by
  induction items generalizing offset with
  | nil =>
      rfl
  | cons item items ih =>
      have hitem : references [item] = (item.site? offset).toList.map Site.target := by
        cases item with
        | instruction i =>
            cases hl : i.label? <;> simp [references, Item.site?, hl]
        | _ =>
            rfl
      rw [sitesFrom, List.map_append, ← ih, ← hitem, ← references_append, List.singleton_append]

/-- The last item counts for its label. -/
theorem bindings_concat
    (bound : Std.HashMap Int Nat)
    (offset : Nat)
    (items : List (Item Int))
    (item : Item Int) :
    bindings bound offset (items ++ [item]) =
      match item with
      | .bind l => (bindings bound offset items).insert l (endOf offset items)
      | _ => bindings bound offset items := by
  induction items generalizing bound offset with
  | nil =>
      cases item <;> rfl
  | cons first items ih =>
      cases first <;> exact ih _ _

/-- No site is unbound exactly if the labels of all are bound. -/
theorem firstUnbound_eq_none_iff
    {labels : Std.HashMap Int Nat}
    {sites : List Site} :
    firstUnbound labels sites = none ↔ ∀ s ∈ sites, labels[s.target]?.isSome = true := by
  simp [firstUnbound, Option.isNone_iff_eq_none]

/-- Writing stops at the first site whose label is not bound. -/
theorem write_eq_error
    {bound : Std.HashMap Int Nat}
    {items : List (Item Int)}
    {out : Array UInt8}
    {e : Unbound Int}
    (h : firstUnbound bound (sitesFrom out.size items) = some e) :
    write bound out items = .error e := by
  induction items generalizing out with
  | nil =>
      cases h
  | cons item items ih =>
      cases item with
      | instruction i =>
          cases hl : i.label? with
          | none =>
              simp only [sitesFrom, Item.site?, hl, Option.map_none, Option.toList_none,
                List.nil_append] at h
              simp only [write, hl]
              apply ih
              simpa [Item.size, Instruction.size, hl] using h
          | some l =>
              cases hbound : bound[l]? with
              | none =>
                  simp [sitesFrom, Item.site?, hl, firstUnbound, hbound] at h
                  simp [write, hl, hbound, ← h]
              | some target =>
                  simp only [write, hl, hbound]
                  apply ih
                  simpa [sitesFrom, Item.site?, hl, firstUnbound, hbound, Item.size,
                    Instruction.size, length_distance, Nat.add_assoc] using h
      | bind l =>
          exact ih h
      | data bytes =>
          simp only [write]
          apply ih
          simpa [sitesFrom, Item.site?, Item.size] using h
      | align modulus fill =>
          simp only [write]
          apply ih
          simpa [sitesFrom, Item.site?, Item.size] using h

end Layout

namespace Buffer

section Overwriting

@[simp] theorem size_overwrite
    (code : Array UInt8)
    (offset : Nat)
    (bytes : Text) :
    (overwrite code offset bytes).size = code.size := by
  induction bytes generalizing code offset with
  | nil =>
      rfl
  | cons byte rest ih =>
      rw [overwrite, ih, Array.size_setIfInBounds]

/-- Bytes are replaced from an offset on, and no others. -/
theorem getElem?_overwrite
    (code : Array UInt8)
    (offset : Nat)
    (bytes : Text)
    (k : Nat) :
    (overwrite code offset bytes)[k]? =
      if offset ≤ k ∧ k < offset + bytes.length ∧ k < code.size then bytes[k - offset]?
      else code[k]? := by
  induction bytes generalizing code offset with
  | nil =>
      have hempty : ¬(offset ≤ k ∧ k < offset + ([] : Text).length ∧ k < code.size) := by
        rw [List.length_nil]
        omega
      rw [if_neg hempty, overwrite]
  | cons byte rest ih =>
      rw [overwrite, ih, Array.size_setIfInBounds, Array.getElem?_setIfInBounds, List.length_cons]
      rcases Nat.lt_trichotomy k offset with hlt | rfl | hlt
      · rw [if_neg (by omega), if_neg (by omega), if_neg (by omega)]
      · rw [if_neg (by omega), if_pos rfl]
        by_cases hin : k < code.size
        · rw [if_pos hin, if_pos (by omega), Nat.sub_self, List.getElem?_cons_zero]
        · rw [if_neg hin, if_neg (by omega), Array.getElem?_eq_none (by omega)]
      · rw [if_neg (c := offset = k) (by omega),
          show k - offset = (k - (offset + 1)) + 1 by omega, List.getElem?_cons_succ]
        exact if_congr (by omega) rfl rfl

end Overwriting

section Patches

variable (labels : Std.HashMap Int Nat)

/-- Patching reports the first site that is unbound. -/
theorem patch_fst
    (code : Array UInt8)
    (sites : List Site) :
    (patch labels code sites).1 = firstUnbound labels sites := by
  induction sites generalizing code with
  | nil =>
      rfl
  | cons s sites ih =>
      cases htarget : labels[s.target]? with
      | none =>
          simp [patch, firstUnbound, htarget]
      | some target =>
          simp only [patch, htarget, ih]
          simp [firstUnbound, htarget]

/-- Patching takes no byte away. -/
theorem size_patch
    (code : Array UInt8)
    (sites : List Site) :
    (patch labels code sites).2.size = code.size := by
  induction sites generalizing code with
  | nil =>
      rfl
  | cons s sites ih =>
      cases htarget : labels[s.target]? with
      | none =>
          simp [patch, htarget]
      | some target =>
          simp only [patch, htarget, ih, size_overwrite]

/-- Patching keeps what stands outside the sites, also when it stops at one of them. -/
theorem patch_of_outside
    (code : Array UInt8)
    {sites : List Site}
    {k : Nat}
    (h : Outside sites k) :
    (patch labels code sites).2[k]? = code[k]? := by
  induction sites generalizing code with
  | nil =>
      rfl
  | cons s sites ih =>
      cases htarget : labels[s.target]? with
      | none =>
          simp [patch, htarget]
      | some target =>
          have hhead := h s List.mem_cons_self
          have hrest : Outside sites k := fun t ht => h t (List.mem_cons_of_mem _ ht)
          simp only [patch, htarget, ih _ hrest, getElem?_overwrite, length_distance]
          exact if_neg (by omega)

/-- Where all labels are bound, every site has its distance after patching. -/
theorem patch_holds
    (code : Array UInt8)
    {sites : List Site}
    {start : Nat}
    (hspaced : Spaced sites start code.size)
    (hbound : firstUnbound labels sites = none)
    {s : Site}
    (hs : s ∈ sites) :
    ∃ target, labels[s.target]? = some target ∧
      s.Holds target (patch labels code sites).2.toList := by
  induction sites generalizing code with
  | nil =>
      cases hs
  | cons t sites ih =>
      obtain ⟨hahead, hapart⟩ := List.pairwise_cons.mp hspaced.apart
      have hinside := hspaced.inside t List.mem_cons_self
      cases htarget : labels[t.target]? with
      | none =>
          simp [firstUnbound, htarget] at hbound
      | some target =>
          have hrest : firstUnbound labels sites = none := by
            simpa [firstUnbound, htarget] using hbound
          simp only [patch, htarget]
          rcases List.mem_cons.mp hs with rfl | hs
          · -- The sites behind this one lie apart from it and leave its distance alone.
            refine ⟨target, htarget, fun j hj => ?_⟩
            have houtside : Outside sites (s.offset + j) := by
              intro u hu
              have := hahead u hu
              omega
            rw [Array.getElem?_toList, patch_of_outside labels _ houtside, getElem?_overwrite,
              length_distance, if_pos (by omega), Nat.add_sub_cancel_left]
          · have hspaced' : Spaced sites start
                (overwrite code t.offset (distance (t.offset + 4) target)).size := by
              rw [size_overwrite]
              exact ⟨hapart, fun u hu => hspaced.inside u (List.mem_cons_of_mem _ hu)⟩
            exact ih _ hspaced' hrest hs

end Patches

section Calls

/-- A piece adds its bytes, with the distance zero to the place behind it. -/
theorem toList_add
    (b : Buffer)
    (item : Item Int) :
    (b.add item).code.toList =
      b.code.toList ++
        item.bytesAt (fun _ => b.code.size + item.size b.code.size) b.code.size := by
  cases item with
  | instruction i =>
      cases hl : i.label? with
      | none =>
          simp [add, emit, append, Item.bytesAt, Instruction.bytes, hl]
      | some l =>
          have hzero : i.distanceAt (fun _ => b.code.size + i.size) b.code.size = 0 := by
            simp [Instruction.distanceAt, hl]
          simp only [add, emit, hl, Item.bytesAt, Item.size, Instruction.bytes, hzero]
          simp [append, reserve]
          rfl
  | _ =>
      simp [add, append, Item.bytesAt]

/-- What a buffer says about the pieces that were added to it. -/
structure Tracks (b : Buffer) (items : List (Item Int)) : Prop where
  labels : b.labels = bindings ∅ 0 items
  sites : b.sites.toList = sitesFrom 0 items
  size : b.code.size = endOf 0 items
  -- The offsets of the labels are not settled yet, and outside the sites they do not matter.
  code : ∀ target k, Outside (sitesFrom 0 items) k →
    b.code[k]? = (bytesFrom target 0 items)[k]?

theorem tracks_empty :
    Tracks {} [] :=
  ⟨rfl, rfl, rfl, fun _ _ _ => rfl⟩

/-- The step: a buffer that tracks items tracks one more when it is added. -/
theorem Tracks.add
    {b : Buffer}
    {items : List (Item Int)}
    (h : Tracks b items)
    (item : Item Int) :
    Tracks (b.add item) (items ++ [item]) := by
  have hsites : sitesFrom 0 (items ++ [item]) =
      sitesFrom 0 items ++ (item.site? b.code.size).toList := by
    rw [sitesFrom_append, h.size, sitesFrom, sitesFrom, List.append_nil]
  constructor
  · rw [bindings_concat, ← h.labels, ← h.size]
    cases item with
    | instruction i =>
        cases hl : i.label? <;> simp [Buffer.add, emit, hl, append, reserve]
    | _ =>
        rfl
  · rw [hsites, ← h.sites]
    cases item with
    | instruction i =>
        cases hl : i.label? <;> simp [Buffer.add, emit, hl, append, reserve, Item.site?]
    | _ =>
        simp [Buffer.add, append, Item.site?]
  · rw [← Array.length_toList, toList_add, List.length_append, Item.length_bytesAt,
      Array.length_toList, endOf_append, ← h.size, endOf_cons, endOf_nil]
  · intro target k houtside
    rw [hsites] at houtside
    have hitems : Outside (sitesFrom 0 items) k :=
      fun s hs => houtside s (List.mem_append_left _ hs)
    have hitem : Outside (item.site? b.code.size).toList k :=
      fun s hs => houtside s (List.mem_append_right _ hs)
    have hlength := length_bytesFrom_zero target items
    rw [← h.size] at hlength
    rw [← Array.getElem?_toList, toList_add, bytesFrom_append, ← h.size, bytesFrom, bytesFrom,
      List.append_nil]
    rcases Nat.lt_or_ge k b.code.size with hk | hk
    · rw [List.getElem?_append_left (by simpa using hk),
        List.getElem?_append_left (by omega), Array.getElem?_toList, h.code target k hitems]
    · rw [List.getElem?_append_right (by simpa using hk),
        List.getElem?_append_right (by omega), Array.length_toList, hlength]
      apply Item.bytesAt_of_outside
      rwa [Nat.add_sub_cancel' hk]

/-- Asking for the bytes leaves the items as they are. -/
theorem Tracks.finish
    {b : Buffer}
    {items : List (Item Int)}
    (h : Tracks b items) :
    Tracks b.finish.2 items := by
  have hfinish : b.finish.2 =
      { b with code := (patch b.labels b.code b.sites.toList).2 } := by
    rw [Buffer.finish]
    split <;> simp [*]
  rw [hfinish]
  refine ⟨h.labels, h.sites, ?_, fun target k houtside => ?_⟩
  · rw [size_patch, h.size]
  · rw [h.sites, patch_of_outside _ _ houtside, h.code target k houtside]

/-- Every call keeps what a buffer says about its pieces. -/
theorem Tracks.run
    {b : Buffer}
    {items : List (Item Int)}
    (h : Tracks b items)
    (call : Call) :
    Tracks (call.run b) (items ++ call.item?.toList) := by
  cases call with
  | add item =>
      exact h.add item
  | newLabel =>
      rw [Call.item?, Option.toList_none, List.append_nil]
      exact ⟨h.labels, h.sites, h.size, h.code⟩
  | finish =>
      rw [Call.item?, Option.toList_none, List.append_nil]
      exact h.finish

/-- The run: after any calls a buffer tracks the items of these calls. -/
theorem tracks_after
    (calls : List Call) :
    Tracks (after calls) (calls.filterMap Call.item?) := by
  induction calls using List.reverseRecOn with
  | nil =>
      exact tracks_empty
  | append_singleton calls call ih =>
      have hitems : [call].filterMap Call.item? = call.item?.toList := by
        cases call <;> rfl
      rw [after, List.foldl_append, List.filterMap_append, hitems]
      exact ih.run call

end Calls

section Answers

/-- The answer is the patched code, or the first site that is unbound. -/
theorem finish_fst
    (b : Buffer) :
    b.finish.1 =
      match firstUnbound b.labels b.sites.toList with
      | some e => .error e
      | none => .ok (patch b.labels b.code b.sites.toList).2.toList := by
  rw [← patch_fst b.labels b.code, Buffer.finish]
  split <;> simp [*]

/-- A byte is one of a site or lies outside of all. -/
theorem eq_or_outside
    (sites : List Site)
    (k : Nat) :
    (∃ s ∈ sites, ∃ j < 4, k = s.offset + j) ∨ Outside sites k := by
  by_cases h : ∃ s ∈ sites, s.offset ≤ k ∧ k < s.offset + 4
  · obtain ⟨s, hs, hle, hlt⟩ := h
    exact .inl ⟨s, hs, k - s.offset, by omega, by omega⟩
  · refine .inr fun s hs => ?_
    have hs := not_and.mp (not_exists.mp h s) hs
    omega

/-- The answer depends on the pieces that were added only. -/
theorem Tracks.finish_fst
    {b : Buffer}
    {items : List (Item Int)}
    (h : Tracks b items) :
    b.finish.1 = X64.finish items := by
  rw [Buffer.finish_fst, h.sites]
  cases hbound : firstUnbound b.labels (sitesFrom 0 items) with
  | some e =>
      have hwrite : write (bindings ∅ 0 items) #[] items = .error e := by
        apply write_eq_error
        rwa [← h.labels]
      rw [X64.finish, hwrite]
      rfl
  | none =>
      have hbind : ∀ s ∈ sitesFrom 0 items, Item.bind s.target ∈ items := by
        intro s hs
        apply mem_of_bindings
        rw [← h.labels]
        exact firstUnbound_eq_none_iff.mp hbound s hs
      have hwrite : X64.finish items = .ok (bytesFrom (offsetOf items) 0 items) := by
        apply finish_eq
        rw [references_eq_map 0]
        exact List.forall_mem_map.mpr hbind
      rw [hwrite]
      -- Byte for byte: a distance in a site, and what was emitted outside the sites.
      refine congrArg Except.ok (List.ext_getElem? fun k => ?_)
      rcases eq_or_outside (sitesFrom 0 items) k with ⟨s, hs, j, hj, rfl⟩ | houtside
      · obtain ⟨target, htarget, hholds⟩ := patch_holds b.labels b.code
          (h.size ▸ spaced_sitesFrom 0 items) hbound hs
        rw [h.labels, bindings_eq_offsetOf (hbind s hs)] at htarget
        obtain rfl := Option.some.inj htarget
        rw [hholds j hj, holds_bytesFrom _ hs j hj]
      · rw [Array.getElem?_toList, patch_of_outside _ _ houtside, h.code _ k houtside]

/-- Bytes that are given are the patched code. -/
theorem eq_patch_of_finish
    {b : Buffer}
    {bytes : Text}
    (h : b.finish.1 = .ok bytes) :
    firstUnbound b.labels b.sites.toList = none ∧
      bytes = (patch b.labels b.code b.sites.toList).2.toList := by
  rw [Buffer.finish_fst] at h
  cases hbound : firstUnbound b.labels b.sites.toList with
  | some e =>
      simp [hbound] at h
  | none =>
      simp only [hbound, Except.ok.injEq] at h
      exact ⟨rfl, h.symm⟩

/-- A call counts the labels up exactly if it asks for a new one. -/
theorem nextLabel_run
    (b : Buffer)
    (call : Call) :
    (call.run b).nextLabel = b.nextLabel + if call = .newLabel then 1 else 0 := by
  cases call with
  | add item =>
      cases item with
      | instruction i =>
          cases hl : i.label? <;> simp [Call.run, add, emit, hl, reserve, append]
      | _ =>
          simp [Call.run, add, append]
  | newLabel =>
      rfl
  | finish =>
      simp only [Call.run, Buffer.finish]
      split <;> simp

/-- New labels are counted up. -/
theorem nextLabel_after
    (calls : List Call) :
    (after calls).nextLabel = calls.count .newLabel := by
  induction calls using List.reverseRecOn with
  | nil =>
      rfl
  | append_singleton calls call ih =>
      rw [after, List.foldl_append, List.foldl_cons, List.foldl_nil, nextLabel_run, ← after, ih,
        List.count_append, List.count_singleton, Int.natCast_add]
      split <;> simp_all

/-- Earlier calls for the bytes do not disturb the last one: its answer is the one without
them and that of the layout in two passes.  Bytes that are given are the emitted ones outside
the places for distances, which do not meet and lie inside the code. -/
theorem finish_after_finishes
    (calls : List Call) :
    let b := after calls
    let plain := after (calls.filter (· ≠ .finish))
    b.finish.1 = plain.finish.1 ∧
      b.finish.1 = X64.finish (calls.filterMap Call.item?) ∧
      b.nextLabel = plain.nextLabel ∧
      b.sites = plain.sites ∧
      b.sites.toList.Pairwise (fun s t => s.offset + 4 ≤ t.offset) ∧
      (∀ s ∈ b.sites, s.offset + 4 ≤ b.code.size) ∧
      ∀ bytes, b.finish.1 = .ok bytes →
        bytes.length = b.code.size ∧
        bytes.length = plain.code.size ∧
        (∀ k, Outside b.sites.toList k → bytes[k]? = b.code[k]? ∧ bytes[k]? = plain.code[k]?) ∧
        ∀ s ∈ b.sites, ∃ target, b.labels[s.target]? = some target ∧
          (bytes.drop s.offset).take 4 = distance (s.offset + 4) target := by
  intro b plain
  have hitems : (calls.filter (· ≠ .finish)).filterMap Call.item? =
      calls.filterMap Call.item? := by
    rw [List.filterMap_filter]
    refine List.filterMap_congr fun call _ => ?_
    cases call <;> rfl
  have hb : Tracks b (calls.filterMap Call.item?) := tracks_after calls
  have hplain : Tracks plain (calls.filterMap Call.item?) := hitems ▸ tracks_after _
  have hspaced := spaced_sitesFrom 0 (calls.filterMap Call.item?)
  rw [← hb.sites, ← hb.size] at hspaced
  refine ⟨?_, hb.finish_fst, ?_, ?_, hspaced.apart, ?_, ?_⟩
  · rw [hb.finish_fst, hplain.finish_fst]
  · rw [nextLabel_after, nextLabel_after, List.count_filter (by decide)]
  · rw [← Array.toList_inj, hb.sites, hplain.sites]
  · intro s hs
    exact (hspaced.inside s (Array.mem_toList_iff.mpr hs)).2
  · intro bytes hbytes
    obtain ⟨hbound, rfl⟩ := eq_patch_of_finish hbytes
    have hlength : (patch b.labels b.code b.sites.toList).2.toList.length = b.code.size := by
      rw [Array.length_toList, size_patch]
    refine ⟨hlength, ?_, ?_, ?_⟩
    · rw [hlength, hb.size, hplain.size]
    · intro k houtside
      have hkeep : (patch b.labels b.code b.sites.toList).2.toList[k]? = b.code[k]? := by
        rw [Array.getElem?_toList, patch_of_outside _ _ houtside]
      rw [hb.sites] at houtside
      refine ⟨hkeep, ?_⟩
      rw [hkeep, hb.code (fun _ => 0) k houtside, hplain.code (fun _ => 0) k houtside]
    · intro s hs
      obtain ⟨target, htarget, hholds⟩ :=
        patch_holds b.labels b.code hspaced hbound (Array.mem_toList_iff.mpr hs)
      exact ⟨target, htarget, hholds.take_drop⟩

/-- A jump whose label is bound after a first call for the bytes and moved after a second. -/
def movedTarget : List Call :=
  [.newLabel, .add (.instruction (.jump 0)), .finish, .add (.bind 0), .finish,
    .add (.instruction .ret), .add (.bind 0)]

/-- The jump goes to where its label was bound last. -/
theorem movedTarget_finish :
    (after movedTarget).finish.1 = .ok [0xe9, 1, 0, 0, 0, 0xc3] ∧
      (after movedTarget).finish.1 =
        (after (movedTarget.filter (· ≠ .finish))).finish.1 ∧
      (after movedTarget).code.size = 6 := by
  have hfinish : (after movedTarget).finish.1 = .ok [0xe9, 1, 0, 0, 0, 0xc3] := by
    decide +kernel
  obtain ⟨hsame, -, -, -, -, -, hbytes⟩ := finish_after_finishes movedTarget
  exact ⟨hfinish, hsame, (hbytes _ hfinish).1.symm⟩

end Answers

end Buffer
end X64
end StackNative
