import Mathlib.Control.Basic
import Mathlib.Data.Nat.ModEq
import StackNative.Image.Elf
import StackNative.Proofs.Image.Reading

/-!
# Loading images in the executable and linkable format

**Input.**  Code of any length that a header can hold.

**Algorithm.**  The headers are read where the format says that they stand: the file header
behind the bytes that identify the format, the program headers where the file header says.

**Results.**
* `Elf.read?`: the headers of a file.
* `Elf.image_eq`: an image is its headers, the code and zeros.
* `Elf.read?_image`: the headers of an image.
* `Elf.image_loads_code`: an image loads its code, and is entered at its first byte.
-/

namespace StackNative
namespace Image
namespace Elf

section Format

/-- The file header, behind the bytes that identify the format. -/
structure FileHeader where
  kind : Nat
  machine : Nat
  version : Nat
  /-- The address where the program is entered. -/
  entry : Nat
  /-- Where the program headers stand in the file. -/
  programs : Nat
  sections : Nat
  flags : Nat
  size : Nat
  programSize : Nat
  programCount : Nat
  sectionSize : Nat
  sectionCount : Nat
  names : Nat
  deriving DecidableEq, Repr

/-- What is done with a part of the file. -/
structure ProgramHeader where
  kind : Nat
  flags : Nat
  mapping : Mapping
  physicalAddress : Nat
  alignment : Nat
  deriving DecidableEq, Repr

def fileWidths : List Nat := [2, 2, 4, 8, 8, 8, 4, 2, 2, 2, 2, 2, 2]

def fileHeader? : List Nat → Option FileHeader
  | [kind, machine, version, entry, programs, sections, flags, size, programSize, programCount,
      sectionSize, sectionCount, names] =>
    some ⟨kind, machine, version, entry, programs, sections, flags, size, programSize,
      programCount, sectionSize, sectionCount, names⟩
  | _ => none

def programWidths : List Nat := [4, 4, 8, 8, 8, 8, 8, 8]

def programHeader? : List Nat → Option ProgramHeader
  | [kind, flags, offset, address, physicalAddress, fileSize, memorySize, alignment] =>
    some ⟨kind, flags, ⟨offset, fileSize, address, memorySize⟩, physicalAddress, alignment⟩
  | _ => none

/-- The mark of the format, 64-bit numbers, the low byte first, the first version. -/
def identification : Text := [0x7f, 0x45, 0x4c, 0x46, 2, 1, 1]

/-- The headers of a file. -/
def read? (file : Text) : Option (FileHeader × List ProgramHeader) := do
  guard (identification <+: file)
  let header ← (numbers? fileWidths (file.drop 16)).bind fileHeader?
  let programs ← (List.range header.programCount).mapM fun k =>
    (numbers? programWidths (file.drop (header.programs + k * header.programSize))).bind
      programHeader?
  some (header, programs)

end Format

section Writing

variable (elf : Elf) (code : Text)

/-- The numbers of the file header. -/
def fileFields : List (Nat × Nat) :=
  [(2, (if elf.kind == 0 then 2 else elf.kind).toNat),
    (2, (if elf.machine == 0 then 0x3e else elf.machine).toNat), (4, 1), (8, 0x400078), (8, 64),
    (8, 0), (4, 0), (2, 64), (2, 56), (2, 1), (2, 64), (2, 0), (2, 0)]

/-- The numbers of the program header. -/
def programFields (size : Nat) : List (Nat × Nat) :=
  [(4, 1), (4, 5), (8, 120), (8, 0x400078), (8, 0x400078), (8, size), (8, size), (8, 4096)]

theorem toList_writeHeader (w : Writer) :
    (elf.writeHeader w).toList =
      w.toList ++ (identification ++ List.replicate 9 0 ++ written elf.fileFields) := by
  simp only [writeHeader, Writer.toList_bytes, Writer.toList_u8, Writer.toList_u16,
    Writer.toList_u32, Writer.toList_u64, Writer.toList_zeros, List.append_assoc]
  rfl

theorem toList_writeProgramHeader
    {size : Nat}
    (h : size < 2 ^ 64)
    (w : Writer) :
    (writeProgramHeader size w).toList = w.toList ++ written (programFields size) := by
  have hsize : size.toUInt64.toNat = size := by
    rw [Nat.toUInt64_eq, UInt64.toNat_ofNat', Nat.mod_eq_of_lt h]
  simp only [writeProgramHeader, Writer.toList_u32, Writer.toList_u64, List.append_assoc, hsize]
  rfl

/-- The headers, the code, and zeros up to a whole page. -/
theorem image_eq
    (h : code.length < 2 ^ 64) :
    elf.image code =
      identification ++ List.replicate 9 0 ++ written elf.fileFields ++
        written (programFields code.length) ++ code ++
        List.replicate (alignUp (120 + code.length) 4096 - (120 + code.length)) 0 := by
  have hheaders : (writeProgramHeader code.length (elf.writeHeader #[])).toList =
      identification ++ List.replicate 9 0 ++ written elf.fileFields ++
        written (programFields code.length) := by
    rw [toList_writeProgramHeader h, toList_writeHeader]
    rfl
  have hsize : ((writeProgramHeader code.length (elf.writeHeader #[])).bytes code).size =
      120 + code.length := by
    rw [← Array.length_toList, Writer.toList_bytes, hheaders]
    simp only [List.length_append, length_written]
    rfl
  rw [image, Writer.toList_pad _ (by decide), hsize, Writer.toList_bytes, hheaders]
  rfl

theorem exists_headers
    (h : code.length < 2 ^ 64) :
    ∃ headers : Text, headers.length = 120 ∧
      elf.image code = headers ++ code ++
        List.replicate (alignUp (120 + code.length) 4096 - (120 + code.length)) 0 := by
  refine ⟨_, ?_, elf.image_eq code h⟩
  simp only [List.length_append, length_written]
  rfl

theorem allFit_fileFields : AllFit elf.fileFields := by
  have hkind := (if elf.kind == 0 then 2 else elf.kind).toNat_lt
  have hmachine := (if elf.machine == 0 then 0x3e else elf.machine).toNat_lt
  simp only [fileFields, allFit_cons, allFit_nil, and_true]
  omega

theorem allFit_programFields
    {size : Nat}
    (h : size < 2 ^ 64) :
    AllFit (programFields size) := by
  simp only [programFields, allFit_cons, allFit_nil, and_true]
  omega

end Writing

section Loading

variable (elf : Elf) (code : Text)

/-- The file header of an image. -/
def imageHeader : FileHeader where
  kind := (if elf.kind == 0 then 2 else elf.kind).toNat
  machine := (if elf.machine == 0 then 0x3e else elf.machine).toNat
  version := 1
  entry := 0x400078
  programs := 64
  sections := 0
  flags := 0
  size := 64
  programSize := 56
  programCount := 1
  sectionSize := 64
  sectionCount := 0
  names := 0

/-- The program header of an image of code of a size. -/
def imageProgram (size : Nat) : ProgramHeader where
  kind := 1
  flags := 5
  mapping := ⟨120, size, 0x400078, size⟩
  physicalAddress := 0x400078
  alignment := 4096

theorem read?_image
    (h : code.length < 2 ^ 64) :
    read? (elf.image code) = some (elf.imageHeader, [imageProgram code.length]) := by
  have himage := elf.image_eq code h
  have hmark : identification <+: elf.image code := by
    rw [himage]
    simp only [List.append_assoc, List.prefix_append]
  have hheader : numbers? fileWidths ((elf.image code).drop 16) =
      some (elf.fileFields.map Prod.snd) := by
    refine numbers?_drop (identification ++ List.replicate 9 0) elf.fileFields ?_ rfl
      elf.allFit_fileFields
    rw [himage]
    simp only [List.append_assoc, List.prefix_append_right_inj, List.prefix_append]
  have hprogram : numbers? programWidths ((elf.image code).drop 64) =
      some ((programFields code.length).map Prod.snd) := by
    refine numbers?_drop (identification ++ List.replicate 9 0 ++ written elf.fileFields)
      (programFields code.length) ?_ ?_ (allFit_programFields h)
    · rw [himage]
      simp only [List.append_assoc, List.prefix_append_right_inj, List.prefix_append]
    · simp only [List.length_append, length_written]
      rfl
  have hfile : fileHeader? (elf.fileFields.map Prod.snd) = some elf.imageHeader := rfl
  have hpart : programHeader? ((programFields code.length).map Prod.snd) =
      some (imageProgram code.length) := rfl
  have hcount : List.range elf.imageHeader.programCount = [0] := rfl
  have hplace : elf.imageHeader.programs = 64 := rfl
  simp [read?, hmark, hheader, hfile, hcount, hplace, hprogram, hpart]

/-- An image is read by the rules of the format: a header with the type and the architecture
that are asked for, or the defaults, and one part of the file, loaded to be read and executed.
That part is the code in the file and at its addresses, and the program is entered at the first
of them.  Addresses and places in the file agree up to whole pages.  Behind the code there are
zeros up to the next page. -/
theorem image_loads_code
    (h : code.length < 2 ^ 64) :
    ∃ header program,
      read? (elf.image code) = some (header, [program]) ∧
      header.kind = (if elf.kind = 0 then 2 else elf.kind).toNat ∧
      header.machine = (if elf.machine = 0 then 0x3e else elf.machine).toNat ∧
      program.kind = 1 ∧ program.flags = 5 ∧ program.alignment = 4096 ∧
      program.mapping.fileSize = code.length ∧ program.mapping.memorySize = code.length ∧
      ((elf.image code).drop program.mapping.offset).take code.length = code ∧
      header.entry = program.mapping.address ∧
      (∀ k, program.mapping.byteAt? (elf.image code) (header.entry + k) = code[k]?) ∧
      program.mapping.address ≡ program.mapping.offset [MOD program.alignment] ∧
      program.mapping.offset + code.length ≤ (elf.image code).length ∧
      (∀ b ∈ (elf.image code).drop (program.mapping.offset + code.length), b = 0) ∧
      IsLeast {n | 4096 ∣ n ∧ 120 + code.length ≤ n} (elf.image code).length := by
  obtain ⟨headers, hheaders, himage⟩ := elf.exists_headers code h
  have hleast : IsLeast {n | 4096 ∣ n ∧ 120 + code.length ≤ n}
      (alignUp (120 + code.length) 4096) := isLeast_alignUp (by decide) _
  have hlength : (elf.image code).length = alignUp (120 + code.length) 4096 := by
    have hle := hleast.1.2
    rw [himage, List.length_append, List.length_append, List.length_replicate, hheaders]
    omega
  have hcode : (elf.image code).drop 120 =
      code ++ List.replicate (alignUp (120 + code.length) 4096 - (120 + code.length)) 0 := by
    rw [himage, List.append_assoc, List.drop_left' hheaders]
  refine ⟨elf.imageHeader, imageProgram code.length, elf.read?_image code h, ?_, ?_, rfl, rfl, rfl,
    rfl, rfl, ?_, rfl, ?_, (by decide : 0x400078 ≡ 120 [MOD 4096]), ?_, ?_, ?_⟩
  · simp [imageHeader]
  · simp [imageHeader]
  · change ((elf.image code).drop 120).take code.length = code
    rw [hcode, List.take_left]
  · exact Mapping.byteAt?_of_code rfl (Nat.le_refl _) (hcode ▸ List.prefix_append _ _)
  · rw [hlength]
    exact hleast.1.2
  · change ∀ b ∈ (elf.image code).drop (120 + code.length), b = 0
    rw [← List.drop_drop, hcode, List.drop_left]
    exact fun b hb => List.eq_of_mem_replicate hb
  · rw [hlength]
    exact hleast

/-- Two instructions. -/
def trap : Text := [0xcc, 0xc3]

/-- They are loaded from a file of another type, for the default architecture. -/
theorem trap_loads :
    trap.length < 2 ^ 64 ∧
      ∃ header program,
        read? (image ⟨0, 1⟩ trap) = some (header, [program]) ∧
        header.kind = 1 ∧ header.machine = 0x3e ∧
        program.mapping.byteAt? (image ⟨0, 1⟩ trap) header.entry = some 0xcc ∧
        (image ⟨0, 1⟩ trap).length = 4096 := by
  have hsize : trap.length < 2 ^ 64 := by decide
  obtain ⟨header, program, hread, hkind, hmachine, -, -, -, -, -, -, -, hbyte, -, -, -,
    hleast⟩ := image_loads_code ⟨0, 1⟩ trap hsize
  refine ⟨hsize, header, program, hread, hkind, hmachine, hbyte 0, ?_⟩
  exact hleast.unique (isLeast_alignUp (by decide) 122)

end Loading

end Elf
end Image
end StackNative
