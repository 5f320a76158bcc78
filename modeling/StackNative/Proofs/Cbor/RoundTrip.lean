import StackNative.Cbor.Reader
import StackNative.Proofs.Number.Exact

/-!
# Items are read back

**Input.**  An item whose numbers fit into a head and that is nested no deeper
than a reader allows.

**Algorithm.**  Bytes are read with any bytes behind them, so that what is read
of a collection follows from what is read of its elements.

**Results.**
* `readHead_head`, `readHead_float`: heads are read back, whatever their width.
* `readItem_encode`: the item is read back, at any depth that leaves it room.
* `decode?_encode`: an item on its own is read back; only what is not a number
  comes back as one pattern.
* `floatBytes_of_isNaN`: that pattern is written like all of them.
-/

namespace StackNative

section Numbers

open Text (bigEndian)

theorem Text.bigEndian_succ (count n : Nat) :
    bigEndian (count + 1) n = (n / 256 ^ count).toUInt8 :: bigEndian count n := by
  simp [bigEndian, List.range_succ_eq_map, Nat.sub_sub, Nat.add_comm]

theorem Text.length_bigEndian (count n : Nat) : (bigEndian count n).length = count := by
  simp [bigEndian]

theorem Cbor.ofBigEndian_cons (b : UInt8) (bytes : Text) :
    ofBigEndian (b :: bytes) = b.toNat * 256 ^ bytes.length + ofBigEndian bytes := by
  have hfold : ∀ (bytes : Text) (n : Nat),
      bytes.foldl (fun n b => n * 256 + b.toNat) n = n * 256 ^ bytes.length + ofBigEndian bytes := by
    intro bytes
    induction bytes with
    | nil =>
        simp [ofBigEndian]
    | cons a bytes ih =>
        intro n
        rw [ofBigEndian, List.foldl_cons, List.foldl_cons, ih, ih, List.length_cons, Nat.pow_succ]
        ring
  rw [ofBigEndian, List.foldl_cons, hfold, Nat.zero_mul, Nat.zero_add]

/-- Bytes of a number, high one first, give the number as far as they reach. -/
theorem Cbor.ofBigEndian_bigEndian (count n : Nat) :
    ofBigEndian (bigEndian count n) = n % 256 ^ count := by
  induction count with
  | zero =>
      simp [bigEndian, ofBigEndian, Nat.mod_one]
  | succ count ih =>
      have hbyte : (n / 256 ^ count).toUInt8.toNat = n / 256 ^ count % 256 := rfl
      rw [Text.bigEndian_succ, ofBigEndian_cons, ih, Text.length_bigEndian, hbyte,
        Nat.mod_pow_succ]
      ring

end Numbers

namespace Cbor

open Text (bigEndian)

section Heads

variable {bytes rest : Text}

/-- As many bytes as are asked for are taken from the front. -/
theorem splitExactly_append (front : Array UInt8) (bytes rest : Text) :
    splitExactly bytes.length front (bytes ++ rest) = some (front.toList ++ bytes, rest) := by
  induction bytes generalizing front with
  | nil =>
      simp [splitExactly]
  | cons b bytes ih =>
      rw [List.length_cons, List.cons_append, splitExactly, ih]
      simp

/-- A first byte is split into its two parts. -/
theorem toNat_first
    {major info : Nat}
    (hmajor : major < 8)
    (hinfo : info < 32) :
    (major * 32 + info).toUInt8.toNat / 32 = major ∧
      (major * 32 + info).toUInt8.toNat % 32 = info := by
  have hbyte : (major * 32 + info).toUInt8.toNat = (major * 32 + info) % 256 := rfl
  omega

/-- The forms of a head with an argument behind its first byte. -/
def wideForms : List (Nat × Nat) := [(24, 1), (25, 2), (26, 4), (27, 8)]

/-- A head whose number stands in bytes behind it is read back. -/
theorem readHead_wide
    {major info count n : Nat}
    (hmajor : major < 8)
    (hform : (info, count) ∈ wideForms)
    (hn : n < 256 ^ count)
    (hsimple : info = 24 → major = 7 → 32 ≤ n)
    (rest : Text) :
    readHead ((major * 32 + info).toUInt8 :: (bigEndian count n ++ rest)) =
      some (⟨major, info, n⟩, rest) := by
  have hsplit : splitExactly count #[] (bigEndian count n ++ rest) =
      some (bigEndian count n, rest) := by
    have happend := splitExactly_append #[] (bigEndian count n) rest
    rwa [Text.length_bigEndian] at happend
  have hvalue : ofBigEndian (bigEndian count n) = n := by
    rw [ofBigEndian_bigEndian, Nat.mod_eq_of_lt hn]
  simp only [wideForms, List.mem_cons, Prod.mk.injEq, List.not_mem_nil, or_false] at hform
  rcases hform with ⟨rfl, rfl⟩ | ⟨rfl, rfl⟩ | ⟨rfl, rfl⟩ | ⟨rfl, rfl⟩
  · obtain ⟨hmajor', hinfo'⟩ := toNat_first hmajor (show 24 < 32 by omega)
    simp only [readHead, hmajor', hinfo', hsplit, Option.map_some, hvalue]
    simpa [imp_iff_not_or] using hsimple rfl
  · obtain ⟨hmajor', hinfo'⟩ := toNat_first hmajor (show 25 < 32 by omega)
    simp only [readHead, hmajor', hinfo', hsplit, Option.map_some, hvalue]
    rfl
  · obtain ⟨hmajor', hinfo'⟩ := toNat_first hmajor (show 26 < 32 by omega)
    simp only [readHead, hmajor', hinfo', hsplit, Option.map_some, hvalue]
    rfl
  · obtain ⟨hmajor', hinfo'⟩ := toNat_first hmajor (show 27 < 32 by omega)
    simp only [readHead, hmajor', hinfo', hsplit, Option.map_some, hvalue]
    rfl

/-- A head is read back, and never as one of indefinite length or of a float. -/
theorem readHead_head
    {major n : Nat}
    (hmajor : major < 8)
    (hn : n < 2 ^ 64)
    (hsimple : major = 7 → n < 24 ∨ 32 ≤ n)
    (rest : Text) :
    ∃ info, readHead (head major n ++ rest) = some (⟨major, info, n⟩, rest) ∧ info ≠ 31 ∧
      (n < 256 → info < 25) := by
  unfold head
  split
  · rename_i hsmall
    obtain ⟨hmajor', hinfo'⟩ := toNat_first hmajor (show n < 32 by omega)
    refine ⟨n, ?_, by omega, by omega⟩
    simp only [List.cons_append, List.nil_append, readHead, hmajor', hinfo', hsmall, if_true]
  · split
    · refine ⟨24, readHead_wide hmajor (by decide) (by omega) ?_ rest, by decide, by omega⟩
      intro _ h
      have hlarge := hsimple h
      omega
    · split
      · exact ⟨25, readHead_wide hmajor (by decide) (by omega) (by simp) rest, by decide, by omega⟩
      · split
        · exact ⟨26, readHead_wide hmajor (by decide) (by omega) (by simp) rest, by decide,
            by omega⟩
        · exact ⟨27, readHead_wide hmajor (by decide) (by omega) (by simp) rest, by decide,
            by omega⟩

end Heads

section Writing

theorem toList_append (out : Array UInt8) (bytes : Text) :
    (append out bytes).toList = out.toList ++ bytes := by
  unfold append
  induction bytes generalizing out with
  | nil =>
      simp
  | cons b bytes ih =>
      simp

namespace Item

mutual

/-- Writing an item adds its encoding. -/
theorem toList_write (out : Array UInt8) :
    ∀ item : Item, (item.write out).toList = out.toList ++ item.encode
  | .natural n => by simp [encode, write, toList_append]
  | .negative n => by simp [encode, write, toList_append]
  | .bytes content => by simp [encode, write, toList_append]
  | .text pieces => by simp [encode, write, toList_append]
  | .array items => by simp [encode, write, toList_append, toList_writeAll _ items]
  | .map entries => by simp [encode, write, toList_append, toList_writeEntries _ entries]
  | .tagged tag item => by
      rw [encode, write, write, toList_write _ item, toList_write _ item]
      simp [toList_append]
  | .simple n => by simp [encode, write, toList_append]
  | .float x => by simp [encode, write, toList_append]

theorem toList_writeAll (out : Array UInt8) :
    ∀ items : List Item, (writeAll out items).toList = out.toList ++ items.flatMap encode
  | [] => by simp [writeAll]
  | item :: rest => by
      simp [writeAll, toList_writeAll _ rest, toList_write out item]

theorem toList_writeEntries (out : Array UInt8) :
    ∀ entries : List (Item × Item),
      (writeEntries out entries).toList =
        out.toList ++ entries.flatMap fun e => e.1.encode ++ e.2.encode
  | [] => by simp [writeEntries]
  | (key, value) :: rest => by
      simp [writeEntries, toList_writeEntries _ rest, toList_write _ key, toList_write _ value]

end

@[simp] theorem encode_natural (n : Nat) : (natural n).encode = head 0 n := by
  simp [encode, write, toList_append]

@[simp] theorem encode_negative (n : Nat) : (negative n).encode = head 1 n := by
  simp [encode, write, toList_append]

@[simp] theorem encode_bytes (content : Text) :
    (bytes content).encode = head 2 content.length ++ content := by
  simp [encode, write, toList_append]

@[simp] theorem encode_text (content : Text) :
    (text [content]).encode = head 3 content.length ++ content := by
  simp [encode, write, toList_append]

@[simp] theorem encode_array (items : List Item) :
    (array items).encode = head 4 items.length ++ items.flatMap encode := by
  simp [encode, write, toList_append, toList_writeAll]

@[simp] theorem encode_map (entries : List (Item × Item)) :
    (map entries).encode =
      head 5 entries.length ++ entries.flatMap fun e => e.1.encode ++ e.2.encode := by
  simp [encode, write, toList_append, toList_writeEntries]

@[simp] theorem encode_tagged (tag : Nat) (item : Item) :
    (tagged tag item).encode = head 6 tag ++ item.encode := by
  rw [encode, write, toList_write, toList_append, List.nil_append]

@[simp] theorem encode_simple (n : Nat) : (simple n).encode = head 7 n := by
  simp [encode, write, toList_append]

@[simp] theorem encode_float (x : Binary64) : (float x).encode = floatBytes x := by
  simp [encode, write, toList_append]

end Item

end Writing

section Floats

/-- A float as it is read back: what is not a number becomes one pattern. -/
def settledFloat (x : Binary64) : Binary64 := if x.isNaN then ⟨0x7ff8000000000000⟩ else x

/-- The head of a number with a fraction is read back. -/
theorem readHead_float
    (info count : Nat)
    (hform : (info, count) ∈ wideForms)
    (hinfo : info ≠ 24)
    {n : Nat}
    (hn : n < 256 ^ count)
    (rest : Text) :
    readHead ((7 * 32 + info).toUInt8 :: (bigEndian count n ++ rest)) =
      some (⟨7, info, n⟩, rest) :=
  readHead_wide (by decide) hform hn (fun h => absurd h hinfo) rest

/-- The patterns without a number of their own. -/
theorem readHead_special
    {first second : UInt8} {n : Nat}
    (hn : bigEndian 2 n = [first, second])
    (hlt : n < 256 ^ 2)
    (rest : Text) :
    readHead ([0xf9, first, second] ++ rest) = some (⟨7, 25, n⟩, rest) := by
  have hread := readHead_float 25 2 (by decide) (by decide) hlt rest
  rwa [hn] at hread

/-- A finite number stays as it is when it is settled. -/
theorem settledFloat_of_finite
    {x : Binary64} {negative : Bool} {m : Nat} {q : Int}
    (h : x.number = .finite negative m q) :
    settledFloat x = x := by
  simp [settledFloat, Binary64.isNaN, h]

/-- A float is read back from whatever width it is written in. -/
theorem readHead_floatBytes (x : Binary64) (rest : Text) :
    ∃ info n, readHead (floatBytes x ++ rest) = some (⟨7, info, n⟩, rest) ∧
      readSimple ⟨7, info, n⟩ = .float (settledFloat x) := by
  cases hnumber : x.number with
  | notANumber negative payload =>
      have hsettled : settledFloat x = ⟨0x7ff8000000000000⟩ := by
        simp [settledFloat, Binary64.isNaN, hnumber]
      rw [floatBytes, hnumber, hsettled]
      exact ⟨25, 0x7e00, readHead_special (by decide) (by decide) rest, rfl⟩
  | infinite negative =>
      have hsettled : settledFloat x = x := by
        simp [settledFloat, Binary64.isNaN, hnumber]
      rw [floatBytes, hnumber, hsettled, ← Binary64.eq_of_infinite hnumber]
      cases negative with
      | false =>
          exact ⟨25, 0x7c00, readHead_special (by decide) (by decide) rest, rfl⟩
      | true =>
          exact ⟨25, 0xfc00, readHead_special (by decide) (by decide) rest, rfl⟩
  | finite negative m q =>
      rw [floatBytes, hnumber, settledFloat_of_finite hnumber]
      cases hhalf : x.narrow? .half with
      | some p =>
          obtain ⟨hwiden, hp⟩ := Binary64.widen_of_narrow? hhalf
          refine ⟨25, p, readHead_float 25 2 (by decide) (by decide) hp rest, ?_⟩
          simp [readSimple, hwiden]
      | none =>
          cases hsingle : x.narrow? .single with
          | some p =>
              obtain ⟨hwiden, hp⟩ := Binary64.widen_of_narrow? hsingle
              refine ⟨26, p, readHead_float 26 4 (by decide) (by decide) hp rest, ?_⟩
              simp [readSimple, hwiden]
          | none =>
              refine ⟨27, x.bits.toNat, ?_, ?_⟩
              · exact readHead_float 27 8 (by decide) (by decide) x.bits.toNat_lt rest
              · exact congrArg (fun bits => Item.float ⟨bits⟩) UInt64.ofNat_toNat

/-- What is not a number is written in one way. -/
theorem floatBytes_of_isNaN
    {x : Binary64}
    (h : x.isNaN = true) :
    floatBytes x = [0xf9, 0x7e, 0x00] := by
  unfold Binary64.isNaN at h
  split at h
  · rename_i hnumber
    rw [floatBytes, hnumber]
  · cases h

end Floats

section Items

/-- An item as it is read back. -/
def Item.settled : Item → Item
  | .array items => .array (items.map fun item => item.settled)
  | .map entries => .map (entries.map fun e => (e.1.settled, e.2.settled))
  | .tagged tag item => .tagged tag item.settled
  | .float x => .float (settledFloat x)
  | item => item
termination_by item => sizeOf item
decreasing_by
  · decreasing_tactic
  · obtain ⟨key, value⟩ := e
    have hlt := List.sizeOf_lt_of_mem ‹(key, value) ∈ entries›
    simp_wf
    simp only [Prod.mk.sizeOf_spec] at hlt
    omega
  · obtain ⟨key, value⟩ := e
    have hlt := List.sizeOf_lt_of_mem ‹(key, value) ∈ entries›
    simp_wf
    simp only [Prod.mk.sizeOf_spec] at hlt
    omega
  · decreasing_tactic

/-- An item that can be read back where so many levels are left: its numbers fit into a head, its
text is in one piece, and its collections are neither too long nor too deep. -/
inductive Item.Fits : Nat → Item → Prop
  | natural {level n : Nat} : n < 2 ^ 64 → Fits level (.natural n)
  | negative {level n : Nat} : n < 2 ^ 64 → Fits level (.negative n)
  | bytes {level : Nat} {content : Text} : content.length < 2 ^ 64 → Fits level (.bytes content)
  | text {level : Nat} {content : Text} : content.length < 2 ^ 64 → Fits level (.text [content])
  | array {level : Nat} {items : List Item} :
      items.length ≤ maxCount → (∀ item ∈ items, Fits level item) → Fits (level + 1) (.array items)
  | map {level : Nat} {entries : List (Item × Item)} :
      entries.length ≤ maxCount → (∀ e ∈ entries, Fits level e.1) →
        (∀ e ∈ entries, Fits level e.2) → Fits (level + 1) (.map entries)
  | tagged {level tag : Nat} {item : Item} :
      tag < 2 ^ 64 → Fits level item → Fits (level + 1) (.tagged tag item)
  | simple {level n : Nat} : n < 24 ∨ 32 ≤ n → n < 256 → Fits level (.simple n)
  | float {level : Nat} {x : Binary64} : Fits level (.float x)

/-- What fits fewer levels fits more of them. -/
theorem Item.Fits.mono
    {level level' : Nat} {item : Item}
    (h : item.Fits level)
    (hle : level ≤ level') :
    item.Fits level' := by
  induction h generalizing level' with
  | natural hn => exact .natural hn
  | negative hn => exact .negative hn
  | bytes hlength => exact .bytes hlength
  | text hlength => exact .text hlength
  | array hcount _ ih =>
      obtain ⟨k, rfl⟩ : ∃ k, level' = k + 1 := ⟨level' - 1, by omega⟩
      exact .array hcount fun item hitem => ih item hitem (by omega)
  | map hcount _ _ ihkeys ihvalues =>
      obtain ⟨k, rfl⟩ : ∃ k, level' = k + 1 := ⟨level' - 1, by omega⟩
      exact .map hcount (fun e he => ihkeys e he (by omega)) fun e he => ihvalues e he (by omega)
  | tagged htag _ ih =>
      obtain ⟨k, rfl⟩ : ∃ k, level' = k + 1 := ⟨level' - 1, by omega⟩
      exact .tagged htag (ih (by omega))
  | simple hn hlt => exact .simple hn hlt
  | float => exact .float

/-- A reader that reads items back, whatever follows them. -/
def ReadsBack (read : Text → Option (Item × Text)) (item : Item) : Prop :=
  ∀ rest, read (item.encode ++ rest) = some (item.settled, rest)

/-- Items that are read back each are read back one behind the other. -/
theorem readCount_encode
    {read : Text → Option (Item × Text)} {items : List Item}
    (h : ∀ item ∈ items, ReadsBack read item)
    (done : Array Item)
    (rest : Text) :
    readCount read items.length done (items.flatMap Item.encode ++ rest) =
      some (done ++ (items.map Item.settled).toArray, rest) := by
  induction items generalizing done with
  | nil =>
      simp [readCount]
  | cons item items ih =>
      rw [List.flatMap_cons, List.append_assoc, List.length_cons, readCount,
        h item List.mem_cons_self]
      simp only
      rw [ih fun i hi => h i (List.mem_cons_of_mem item hi)]
      simp

/-- An array is read back if its elements are. -/
theorem readCollection_array
    {read : Text → Option (Item × Text)} {items : List Item} {info : Nat}
    (hcount : items.length ≤ maxCount)
    (hinfo : info ≠ 31)
    (h : ∀ item ∈ items, ReadsBack read item)
    (rest : Text) :
    readCollection read ⟨4, info, items.length⟩ (items.flatMap Item.encode ++ rest) =
      some ((Item.array items).settled, rest) := by
  have hread := readCount_encode h #[] rest
  simp [readCollection, hinfo, Nat.not_lt.mpr hcount, hread, Item.settled]

/-- The keys and values of a map in one row, as they are written. -/
def row (entries : List (Item × Item)) : List Item := entries.flatMap fun e => [e.1, e.2]

/-- Entries are encoded as their keys and values in a row. -/
theorem flatMap_encode_row (entries : List (Item × Item)) :
    (row entries).flatMap Item.encode = entries.flatMap fun e => e.1.encode ++ e.2.encode := by
  simp [row, List.flatMap_assoc]

/-- A row has two items for each entry. -/
theorem length_row (entries : List (Item × Item)) : (row entries).length = 2 * entries.length := by
  simp [row, List.length_flatMap, Nat.mul_comm]

/-- The items of a row are settled as its entries are. -/
theorem map_settled_row (entries : List (Item × Item)) :
    (row entries).map Item.settled = row (entries.map fun e => (e.1.settled, e.2.settled)) := by
  simp [row, List.map_flatMap, List.flatMap_map]

theorem forall_mem_row
    {P : Item → Prop} {entries : List (Item × Item)} :
    (∀ item ∈ row entries, P item) ↔ (∀ e ∈ entries, P e.1) ∧ ∀ e ∈ entries, P e.2 := by
  simp only [row, List.forall_mem_flatMap, List.forall_mem_cons, List.not_mem_nil,
    false_imp_iff, implies_true, and_true, ← forall_and]

/-- A row is paired up to its entries. -/
theorem pairUp_row (done : Array (Item × Item)) (entries : List (Item × Item)) :
    pairUp done (row entries) = some (done.toList ++ entries) := by
  induction entries generalizing done with
  | nil =>
      simp [row, pairUp]
  | cons e entries ih =>
      rw [row] at ih ⊢
      simp [pairUp, ih]

/-- A map is read back if its keys and values are. -/
theorem readCollection_map
    {read : Text → Option (Item × Text)} {entries : List (Item × Item)} {info : Nat}
    (hcount : entries.length ≤ maxCount)
    (hinfo : info ≠ 31)
    (hkeys : ∀ e ∈ entries, ReadsBack read e.1)
    (hvalues : ∀ e ∈ entries, ReadsBack read e.2)
    (rest : Text) :
    readCollection read ⟨5, info, entries.length⟩
        ((entries.flatMap fun e => e.1.encode ++ e.2.encode) ++ rest) =
      some ((Item.map entries).settled, rest) := by
  have hread := readCount_encode (forall_mem_row.mpr ⟨hkeys, hvalues⟩) #[] rest
  rw [length_row, map_settled_row, flatMap_encode_row] at hread
  simp [readCollection, hinfo, Nat.not_lt.mpr hcount, hread, pairUp_row, Item.settled]

/-- An item is read back at any depth that leaves it room. -/
theorem readItem_encode
    {level : Nat} {item : Item}
    (h : item.Fits level)
    (fuel depth : Nat)
    (inside : Bool)
    (hfuel : level ≤ fuel)
    (hdepth : depth + level ≤ maxNesting) :
    ReadsBack (readItem (fuel + 1) depth inside) item := by
  -- each level of the item pays for one more of fuel and of depth
  induction h generalizing fuel depth inside with
  | natural hn =>
      intro rest
      obtain ⟨info, hread, -⟩ := readHead_head (by decide : 0 < 8) hn (by simp) rest
      simp [readItem, hread, Item.settled]
  | negative hn =>
      intro rest
      obtain ⟨info, hread, -⟩ := readHead_head (by decide : 1 < 8) hn (by simp) rest
      simp [readItem, hread, Item.settled]
  | @bytes level content hlength =>
      intro rest
      obtain ⟨info, hread, hinfo, -⟩ :=
        readHead_head (by decide : 2 < 8) hlength (by simp) (content ++ rest)
      simp [readItem, hread, hinfo, splitExactly_append, Item.settled]
  | @text level content hlength =>
      intro rest
      obtain ⟨info, hread, hinfo, -⟩ :=
        readHead_head (by decide : 3 < 8) hlength (by simp) (content ++ rest)
      simp [readItem, hread, hinfo, splitExactly_append, Item.settled]
  | @array level items hcount hitems ih =>
      obtain ⟨fuel, rfl⟩ : ∃ k, fuel = k + 1 := ⟨fuel - 1, by omega⟩
      intro rest
      have hbound : items.length < 2 ^ 64 := by
        unfold maxCount at hcount
        omega
      obtain ⟨info, hread, hinfo, -⟩ :=
        readHead_head (by decide : 4 < 8) hbound (by simp) (items.flatMap Item.encode ++ rest)
      have hback : ∀ item ∈ items, ReadsBack (readItem (fuel + 1) (depth + 1) false) item :=
        fun item hitem => ih item hitem fuel (depth + 1) false (by omega) (by omega)
      rw [Item.encode_array, List.append_assoc, readItem, hread]
      simp only
      rw [if_neg (by omega), readCollection_array hcount hinfo hback]
  | @map level entries hcount hkeys hvalues ihkeys ihvalues =>
      obtain ⟨fuel, rfl⟩ : ∃ k, fuel = k + 1 := ⟨fuel - 1, by omega⟩
      intro rest
      have hbound : entries.length < 2 ^ 64 := by
        unfold maxCount at hcount
        omega
      obtain ⟨info, hread, hinfo, -⟩ := readHead_head (by decide : 5 < 8) hbound (by simp)
        ((entries.flatMap fun e => e.1.encode ++ e.2.encode) ++ rest)
      have hkeysBack : ∀ e ∈ entries, ReadsBack (readItem (fuel + 1) (depth + 1) false) e.1 :=
        fun e he => ihkeys e he fuel (depth + 1) false (by omega) (by omega)
      have hvaluesBack : ∀ e ∈ entries, ReadsBack (readItem (fuel + 1) (depth + 1) false) e.2 :=
        fun e he => ihvalues e he fuel (depth + 1) false (by omega) (by omega)
      rw [Item.encode_map, List.append_assoc, readItem, hread]
      simp only
      rw [if_neg (by omega), readCollection_map hcount hinfo hkeysBack hvaluesBack]
  | @tagged level tag item htag hitem ih =>
      obtain ⟨fuel, rfl⟩ : ∃ k, fuel = k + 1 := ⟨fuel - 1, by omega⟩
      intro rest
      obtain ⟨info, hread, -⟩ :=
        readHead_head (by decide : 6 < 8) htag (by simp) (item.encode ++ rest)
      have hback := ih fuel (if inside then depth + 1 else depth) true (by omega)
        (by split <;> omega) rest
      rw [Item.encode_tagged, List.append_assoc, readItem, hread]
      simp only
      rw [if_neg (by split <;> omega), hback]
      simp [Item.settled]
  | @simple level n hn hlt =>
      intro rest
      obtain ⟨info, hread, -, hinfo⟩ :=
        readHead_head (by decide : 7 < 8) (by omega) (fun _ => hn) rest
      have hnarrow := hinfo hlt
      have hsimple : readSimple ⟨7, info, n⟩ = .simple n := by
        simp [readSimple, show info ≠ 25 by omega, show info ≠ 26 by omega, show info ≠ 27 by omega]
      simp [readItem, hread, hsimple, Item.settled]
  | @float level x =>
      intro rest
      obtain ⟨info, n, hread, hfloat⟩ := readHead_floatBytes x rest
      simp [readItem, hread, hfloat, Item.settled]

/-- An item on its own is read back. -/
theorem decode?_encode
    {item : Item}
    (h : item.Fits maxNesting) :
    Item.decode? item.encode = some item.settled := by
  have hread := readItem_encode h (2 * maxNesting + 1) 0 false (by omega) (by omega) []
  rw [List.append_nil] at hread
  simp [Item.decode?, hread]

end Items

end Cbor
end StackNative
