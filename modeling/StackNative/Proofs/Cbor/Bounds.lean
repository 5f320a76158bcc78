import StackNative.Cbor.Reader

/-!
# What is read is bounded by its bytes

**Input.**  Bytes in any form that a reader accepts.

**Algorithm.**  Every reader gives back a rest that is no longer than what it was
given, so the texts in an item are no longer than the bytes it was read from.

**Results.**
* `Item.Bounded`: texts no longer than a size, arrays no longer than the limit.
* `readItem_bounded`: what is read at any depth is bounded.
* `decode?_bounded`: so is the one item that bytes are.
-/

namespace StackNative
namespace Cbor

/-- The texts in an item are no longer than a size, and its arrays are no longer than the limit. -/
inductive Item.Bounded (size : Nat) : Item → Prop
  | natural {n : Nat} : Bounded size (.natural n)
  | negative {n : Nat} : Bounded size (.negative n)
  | bytes {content : Text} : Bounded size (.bytes content)
  | text {pieces : List Text} : pieces.flatten.length ≤ size → Bounded size (.text pieces)
  | array {items : List Item} :
      items.length ≤ maxCount → (∀ item ∈ items, Bounded size item) → Bounded size (.array items)
  | map {entries : List (Item × Item)} :
      (∀ e ∈ entries, Bounded size e.1) → (∀ e ∈ entries, Bounded size e.2) →
        Bounded size (.map entries)
  | tagged {tag : Nat} {item : Item} : Bounded size item → Bounded size (.tagged tag item)
  | simple {n : Nat} : Bounded size (.simple n)
  | float {x : Binary64} : Bounded size (.float x)

section Heads

theorem splitExactly_length
    {count : Nat} {front : Array UInt8} {bytes piece rest : Text}
    (h : splitExactly count front bytes = some (piece, rest)) :
    piece.length + rest.length = front.size + bytes.length := by
  induction count generalizing front bytes with
  | zero =>
      simp only [splitExactly, Option.some.injEq, Prod.mk.injEq] at h
      obtain ⟨rfl, rfl⟩ := h
      simp
  | succ count ih =>
      cases bytes with
      | nil =>
          simp [splitExactly] at h
      | cons b bytes =>
          have hlength := ih h
          simp only [Array.size_push, List.length_cons] at hlength ⊢
          omega

theorem readHead_length
    {bytes rest : Text} {head : Head}
    (h : readHead bytes = some (head, rest)) :
    rest.length ≤ bytes.length := by
  cases bytes with
  | nil =>
      cases h
  | cons b bytes =>
      have hargument : ∀ {count major info : Nat},
          ((splitExactly count #[] bytes).map fun p =>
            (⟨major, info, ofBigEndian p.1⟩, p.2)) = some (head, rest) →
            rest.length ≤ bytes.length := by
        intro count major info hsplit
        obtain ⟨⟨front, rest'⟩, hfront, hrest⟩ := Option.map_eq_some_iff.mp hsplit
        cases hrest
        have hlength := splitExactly_length hfront
        simp only [List.size_toArray, List.length_nil] at hlength
        simp only
        omega
      rw [List.length_cons]
      refine Nat.le_succ_of_le ?_
      simp only [readHead] at h
      split at h
      · cases h
        exact Nat.le_refl _
      · split at h
        · exact hargument (Option.filter_eq_some_iff.mp h).1
        · split at h
          · exact hargument h
          · split at h
            · exact hargument h
            · split at h
              · exact hargument h
              · split at h
                · cases h
                  exact Nat.le_refl _
                · cases h

end Heads

section Strings

theorem length_flatten_push (pieces : Array Text) (piece : Text) :
    (pieces.push piece).toList.flatten.length =
      pieces.toList.flatten.length + piece.length := by
  simp

theorem readPieces_length
    {major tries : Nat} {pieces : Array Text} {bytes rest : Text} {ps : List Text}
    (h : readPieces major tries pieces bytes = some (ps, rest)) :
    ps.flatten.length + rest.length ≤ pieces.toList.flatten.length + bytes.length := by
  induction tries generalizing pieces bytes with
  | zero =>
      cases h
  | succ tries ih =>
      unfold readPieces at h
      split at h
      · cases h
      · rename_i b more
        split at h
        · cases h
          simp only [List.length_cons]
          omega
        · split at h
          · rename_i head bytes' hhead
            have hle := readHead_length hhead
            split at h
            · split at h
              · rename_i piece rest' hsplit
                have hlength := splitExactly_length hsplit
                have hpieces := ih h
                rw [length_flatten_push] at hpieces
                simp only [List.size_toArray, List.length_nil] at hlength
                omega
              · cases h
            · cases h
          · cases h

end Strings

section Collections

/-- A reader whose items are bounded and whose rests are no longer than its bytes. -/
def Bounding (size : Nat) (read : Text → Option (Item × Text)) : Prop :=
  ∀ bytes item rest, bytes.length ≤ size → read bytes = some (item, rest) →
    rest.length ≤ bytes.length ∧ item.Bounded size

variable {size : Nat} {read : Text → Option (Item × Text)}

theorem readCount_bounded
    {count : Nat} {done items : Array Item} {bytes rest : Text}
    (hread : Bounding size read)
    (hsize : bytes.length ≤ size)
    (hdone : ∀ item ∈ done, item.Bounded size)
    (h : readCount read count done bytes = some (items, rest)) :
    rest.length ≤ bytes.length ∧ items.size = done.size + count ∧
      ∀ item ∈ items, item.Bounded size := by
  induction count generalizing done bytes with
  | zero =>
      cases h
      exact ⟨Nat.le_refl _, rfl, hdone⟩
  | succ count ih =>
      unfold readCount at h
      split at h
      · rename_i item bytes' hitem
        obtain ⟨hle, hbounded⟩ := hread bytes item bytes' hsize hitem
        have hpush : ∀ i ∈ done.push item, i.Bounded size :=
          Array.forall_mem_push.mpr ⟨hbounded, hdone⟩
        obtain ⟨hrest, hcount, hall⟩ := ih (by omega) hpush h
        rw [Array.size_push] at hcount
        exact ⟨by omega, by omega, hall⟩
      · cases h

theorem readToBreak_bounded
    {tries : Nat} {done items : Array Item} {bytes rest : Text}
    (hread : Bounding size read)
    (hsize : bytes.length ≤ size)
    (hdone : ∀ item ∈ done, item.Bounded size)
    (h : readToBreak read tries done bytes = some (items, rest)) :
    rest.length ≤ bytes.length ∧ items.size < done.size + tries ∧
      ∀ item ∈ items, item.Bounded size := by
  induction tries generalizing done bytes with
  | zero =>
      cases h
  | succ tries ih =>
      unfold readToBreak at h
      split at h
      · cases h
      · rename_i b more
        split at h
        · cases h
          exact ⟨by simp, by omega, hdone⟩
        · split at h
          · rename_i item bytes' hitem
            obtain ⟨hle, hbounded⟩ := hread _ item bytes' hsize hitem
            have hpush : ∀ i ∈ done.push item, i.Bounded size :=
              Array.forall_mem_push.mpr ⟨hbounded, hdone⟩
            obtain ⟨hrest, hcount, hall⟩ := ih (by omega) hpush h
            rw [Array.size_push] at hcount
            exact ⟨by omega, by omega, hall⟩
          · cases h

theorem mem_of_pairUp
    {done : Array (Item × Item)} {items : List Item} {entries : List (Item × Item)}
    (h : pairUp done items = some entries)
    {e : Item × Item}
    (he : e ∈ entries) :
    e ∈ done ∨ e.1 ∈ items ∧ e.2 ∈ items := by
  fun_induction pairUp done items with
  | case1 done =>
      cases h
      exact Or.inl (Array.mem_toList_iff.mp he)
  | case2 done item =>
      cases h
  | case3 done key value rest ih =>
      rcases ih h with hmem | ⟨hkey, hvalue⟩
      · rcases Array.mem_push.mp hmem with hmem | rfl
        · exact Or.inl hmem
        · simp
      · exact Or.inr ⟨by simp [hkey], by simp [hvalue]⟩

/-- The elements of a collection, of whatever form, are bounded and not too many. -/
theorem elements_bounded
    {width : Nat} {head : Head} {bytes rest : Text} {items : Array Item}
    (hread : Bounding size read)
    (hsize : bytes.length ≤ size)
    (h : (if head.info == 31 then readToBreak read (width * maxCount + 1) #[] bytes
      else if maxCount < head.argument then none
      else readCount read (width * head.argument) #[] bytes) = some (items, rest)) :
    rest.length ≤ bytes.length ∧ items.size ≤ width * maxCount ∧
      ∀ item ∈ items, item.Bounded size := by
  split at h
  · obtain ⟨hrest, hcount, hall⟩ := readToBreak_bounded hread hsize (by simp) h
    simp only [List.size_toArray, List.length_nil] at hcount
    exact ⟨hrest, by omega, hall⟩
  · split at h
    · cases h
    · rename_i hargument
      obtain ⟨hrest, hcount, hall⟩ := readCount_bounded hread hsize (by simp) h
      have hle := Nat.mul_le_mul_left width (Nat.not_lt.mp hargument)
      simp only [List.size_toArray, List.length_nil] at hcount
      exact ⟨hrest, by omega, hall⟩

theorem readCollection_bounded
    {head : Head} {bytes rest : Text} {item : Item}
    (hread : Bounding size read)
    (hsize : bytes.length ≤ size)
    (h : readCollection read head bytes = some (item, rest)) :
    rest.length ≤ bytes.length ∧ item.Bounded size := by
  simp only [readCollection] at h
  split at h
  · cases h
  · rename_i items rest' helements
    obtain ⟨hrest, hcount, hall⟩ := elements_bounded hread hsize helements
    split at h
    · obtain ⟨entries, hentries, heq⟩ := Option.map_eq_some_iff.mp h
      cases heq
      have hmem : ∀ e ∈ entries, e.1 ∈ items.toList ∧ e.2 ∈ items.toList := by
        intro e he
        rcases mem_of_pairUp hentries he with hnone | hmem
        · cases Array.not_mem_empty e hnone
        · exact hmem
      refine ⟨hrest, .map ?_ ?_⟩
      · intro e he
        exact hall e.1 (Array.mem_toList_iff.mp (hmem e he).1)
      · intro e he
        exact hall e.2 (Array.mem_toList_iff.mp (hmem e he).2)
    · rename_i hmap
      cases h
      rw [if_neg hmap, Nat.one_mul] at hcount
      exact ⟨hrest, .array (by simpa using hcount) fun item hitem =>
        hall item (Array.mem_toList_iff.mp hitem)⟩

end Collections

section Items

variable {size : Nat}

theorem readSimple_bounded (head : Head) : (readSimple head).Bounded size := by
  unfold readSimple
  split
  · exact .float
  · split
    · exact .float
    · split
      · exact .float
      · exact .simple

/-- What is read at any depth is bounded. -/
theorem readItem_bounded (fuel depth : Nat) (inside : Bool) :
    Bounding size (readItem fuel depth inside) := by
  induction fuel generalizing depth inside with
  | zero =>
      intro bytes item rest _ h
      cases h
  | succ fuel ih =>
      intro bytes item rest hsize h
      unfold readItem at h
      split at h
      · cases h
      · rename_i head rest' hhead
        have hle := readHead_length hhead
        split at h
        · cases h
          exact ⟨hle, .natural⟩
        · cases h
          exact ⟨hle, .negative⟩
        · split at h
          · obtain ⟨⟨ps, rest''⟩, hpieces, heq⟩ := Option.map_eq_some_iff.mp h
            cases heq
            have hlength := readPieces_length hpieces
            simp only [List.flatten_nil, List.length_nil] at hlength
            exact ⟨by omega, .bytes⟩
          · obtain ⟨⟨piece, rest''⟩, hsplit, heq⟩ := Option.map_eq_some_iff.mp h
            cases heq
            have hlength := splitExactly_length hsplit
            simp only [List.size_toArray, List.length_nil] at hlength
            exact ⟨by omega, .bytes⟩
        · split at h
          · obtain ⟨⟨ps, rest''⟩, hpieces, heq⟩ := Option.map_eq_some_iff.mp h
            cases heq
            have hlength := readPieces_length hpieces
            simp only [List.flatten_nil, List.length_nil] at hlength
            exact ⟨by omega, .text (by omega)⟩
          · obtain ⟨⟨piece, rest''⟩, hsplit, heq⟩ := Option.map_eq_some_iff.mp h
            cases heq
            have hlength := splitExactly_length hsplit
            simp only [List.size_toArray, List.length_nil] at hlength
            refine ⟨by omega, .text ?_⟩
            rw [List.flatten_singleton]
            omega
        · -- the depth at which the content of a tag is read plays no part in its bounds
          simp only at h
          generalize (if inside then depth + 1 else depth) = depth' at h
          split at h
          · cases h
          · obtain ⟨⟨item, rest''⟩, hitem, heq⟩ := Option.map_eq_some_iff.mp h
            cases heq
            obtain ⟨hrest, hbounded⟩ := ih depth' true rest' item rest'' (by omega) hitem
            exact ⟨Nat.le_trans hrest hle, .tagged hbounded⟩
        · cases h
          exact ⟨hle, readSimple_bounded head⟩
        · split at h
          · cases h
          · obtain ⟨hrest, hbounded⟩ :=
              readCollection_bounded (ih (depth + 1) false) (by omega) h
            exact ⟨by omega, hbounded⟩

theorem decode?_bounded
    {bytes : Text} {item : Item}
    (h : Item.decode? bytes = some item) :
    item.Bounded bytes.length := by
  unfold Item.decode? at h
  split at h
  · rename_i item' hread
    cases h
    exact (readItem_bounded _ _ _ bytes item [] (Nat.le_refl _) hread).2
  · cases h

end Items

end Cbor
end StackNative
