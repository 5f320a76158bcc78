import Mathlib.Order.Bounds.Basic
import StackNative.Image.Writer
import StackNative.Proofs.X64.Encoding

/-!
# Reading images

**Input.**  The bytes of an image.

**Algorithm.**  A header is a row of numbers of known widths, each right behind the one
before, the low byte first.  A part of the file is mapped to addresses, with zeros behind it
if it takes more room there.

**Results.**
* `numbers?`, `numbers?_written`: the numbers of a header, if they have room, are read back.
* `Mapping.byteAt?`, `Mapping.byteAt?_of_code`: the bytes at the addresses of a part.
* `Writer.toList_pad`, `isLeast_alignUp`: what filling up to a multiple comes to.
-/

namespace StackNative
namespace Image

open Text (littleEndian)
open X64 (readNumber readNumber_littleEndian)

section Headers

/-- Numbers of some widths, one right behind the other. -/
def numbers? : List Nat → Text → Option (List Nat)
  | [], _ => some []
  | width :: widths, bytes => do
    let (n, rest) ← readNumber width bytes
    let ns ← numbers? widths rest
    some (n :: ns)

/-- The bytes of numbers with their widths. -/
def written (fields : List (Nat × Nat)) : Text :=
  fields.flatMap fun field => littleEndian field.1 field.2

/-- Each number has room in its width. -/
def AllFit (fields : List (Nat × Nat)) : Prop := ∀ field ∈ fields, field.2 < 256 ^ field.1

theorem allFit_nil : AllFit [] := List.forall_mem_nil _

theorem allFit_cons {width n : Nat} {fields : List (Nat × Nat)} :
    AllFit ((width, n) :: fields) ↔ n < 256 ^ width ∧ AllFit fields := List.forall_mem_cons

theorem numbers?_written
    {fields : List (Nat × Nat)}
    (hfits : AllFit fields)
    (rest : Text) :
    numbers? (fields.map Prod.fst) (written fields ++ rest) = some (fields.map Prod.snd) := by
  induction fields with
  | nil =>
      rfl
  | cons field fields ih =>
      obtain ⟨hfield, hfields⟩ := allFit_cons.mp hfits
      have hbytes : written (field :: fields) ++ rest =
          littleEndian field.1 field.2 ++ (written fields ++ rest) := by
        rw [written, List.flatMap_cons, List.append_assoc]
        rfl
      rw [hbytes, List.map_cons, List.map_cons, numbers?, readNumber_littleEndian,
        Nat.mod_eq_of_lt hfield]
      simp [ih hfields]

/-- A part of a file stands behind the bytes in front of it. -/
theorem prefix_drop
    {file part : Text} {offset : Nat}
    (front : Text)
    (hfile : front ++ part <+: file)
    (hoffset : front.length = offset) :
    part <+: file.drop offset := by
  obtain ⟨rest, rfl⟩ := hfile
  rw [List.append_assoc, List.drop_left' hoffset]
  exact List.prefix_append part rest

/-- Numbers are read wherever they stand in a file. -/
theorem numbers?_drop
    {file : Text} {offset : Nat}
    (front : Text)
    (fields : List (Nat × Nat))
    (hfile : front ++ written fields <+: file)
    (hoffset : front.length = offset)
    (hfits : AllFit fields) :
    numbers? (fields.map Prod.fst) (file.drop offset) = some (fields.map Prod.snd) := by
  obtain ⟨rest, hrest⟩ := prefix_drop front hfile hoffset
  rw [← hrest, numbers?_written hfits]

theorem length_written (fields : List (Nat × Nat)) :
    (written fields).length = (fields.map Prod.fst).sum := by
  simp [written, List.length_flatMap]

end Headers

section Mappings

/-- A part of a file that is mapped to addresses. -/
structure Mapping where
  offset : Nat
  fileSize : Nat
  address : Nat
  memorySize : Nat
  deriving DecidableEq, Repr

/-- The byte at an address of a part: one of the file, or zero where the file has no more. -/
def Mapping.byteAt? (m : Mapping) (file : Text) (address : Nat) : Option UInt8 :=
  if m.address ≤ address ∧ address < m.address + m.memorySize then
    if address < m.address + m.fileSize then file[m.offset + (address - m.address)]? else some 0
  else none

/-- Code that is mapped in full, and nothing else, stands at the addresses from the first on. -/
theorem Mapping.byteAt?_of_code
    {m : Mapping} {file code : Text}
    (hmemory : m.memorySize = code.length)
    (hfile : code.length ≤ m.fileSize)
    (hcode : code <+: file.drop m.offset)
    (k : Nat) :
    m.byteAt? file (m.address + k) = code[k]? := by
  obtain ⟨rest, hrest⟩ := hcode
  unfold byteAt?
  by_cases hk : k < code.length
  · rw [if_pos (by omega), if_pos (by omega), Nat.add_sub_cancel_left, ← List.getElem?_drop,
      ← hrest, List.getElem?_append_left hk]
  · rw [if_neg (by omega), List.getElem?_eq_none (by omega)]

end Mappings

section Multiples

variable {multiple : Nat}

theorem isLeast_alignUp
    (h : 0 < multiple)
    (n : Nat) :
    IsLeast {k | multiple ∣ k ∧ n ≤ k} (alignUp n multiple) := by
  have hsplit := Nat.div_add_mod (n + multiple - 1) multiple
  have hrest := Nat.mod_lt (n + multiple - 1) h
  rw [Nat.mul_comm] at hsplit
  refine ⟨⟨Nat.dvd_mul_left _ _, ?_⟩, ?_⟩
  · rw [alignUp]
    omega
  · rintro k ⟨⟨q, rfl⟩, hle⟩
    have hlt : (n + multiple - 1) / multiple < q + 1 := by
      rw [Nat.div_lt_iff_lt_mul h, Nat.add_mul, Nat.one_mul, Nat.mul_comm q]
      omega
    rw [alignUp, Nat.mul_comm multiple]
    exact Nat.mul_le_mul_right _ (Nat.le_of_lt_succ hlt)

/-- Filling up ends at the next multiple. -/
theorem add_filling
    (h : 0 < multiple)
    (n : Nat) :
    n + (multiple - n % multiple) % multiple = alignUp n multiple := by
  obtain ⟨⟨hdvd, hle⟩, hleast⟩ := isLeast_alignUp h n
  have hfilled : multiple ∣ n + (multiple - n % multiple) % multiple := by
    have hsplit := Nat.div_add_mod n multiple
    have hrest := Nat.mod_lt n h
    rw [Nat.dvd_iff_mod_eq_zero, Nat.add_mod_mod,
      show n + (multiple - n % multiple) = multiple * (n / multiple) + multiple by omega]
    simp
  refine Nat.le_antisymm ?_ (hleast ⟨hfilled, Nat.le_add_right _ _⟩)
  -- no two multiples are less than one apart
  refine Nat.le_of_not_lt fun hlt => ?_
  have hapart := Nat.le_of_dvd (Nat.sub_pos_of_lt hlt) (Nat.dvd_sub hfilled hdvd)
  have hfilling := Nat.mod_lt (multiple - n % multiple) h
  omega

end Multiples

section Writing

namespace Writer

variable (w : Writer)

@[simp] theorem toList_bytes (b : Text) : (w.bytes b).toList = w.toList ++ b := by
  simp [bytes]

@[simp] theorem toList_u8 (n : UInt8) : (w.u8 n).toList = w.toList ++ littleEndian 1 n.toNat := by
  simp [u8, littleEndian]

@[simp] theorem toList_u16 (n : UInt16) :
    (w.u16 n).toList = w.toList ++ littleEndian 2 n.toNat := w.toList_bytes _

@[simp] theorem toList_u32 (n : UInt32) :
    (w.u32 n).toList = w.toList ++ littleEndian 4 n.toNat := w.toList_bytes _

@[simp] theorem toList_u64 (n : UInt64) :
    (w.u64 n).toList = w.toList ++ littleEndian 8 n.toNat := w.toList_bytes _

@[simp] theorem toList_zeros (n : Int) :
    (w.zeros n).toList = w.toList ++ List.replicate n.toNat 0 := by
  simp [zeros]

theorem toList_pad
    {multiple : Nat}
    (h : 0 < multiple) :
    (w.pad multiple).toList =
      w.toList ++ List.replicate (alignUp w.size multiple - w.size) 0 := by
  rw [pad, toList_zeros, Int.toNat_natCast, ← add_filling h, Nat.add_sub_cancel_left]

end Writer

end Writing

end Image
end StackNative
