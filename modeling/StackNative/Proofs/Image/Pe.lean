import Mathlib.Control.Basic
import StackNative.Image.Pe
import StackNative.Proofs.Image.Reading

/-!
# Loading images in the portable executable format

**Input.**  Code that leaves room for the sizes of the image in 32 bits.

**Algorithm.**  The headers are read where the format says that they stand: the signature
where the first header says, the file header and the optional header right behind it, and the
section headers behind as many bytes as the file header gives to the optional one.

**Results.**
* `Pe.read?`: the headers of a file.
* `Pe.image_eq`: an image is its headers, zeros, the code and zeros.
* `Pe.read?_of_headers`: the headers of a file that begins with those of an image.
* `Pe.image_loads_section`: an image loads its code, and all its sizes are those of its parts.
-/

namespace StackNative
namespace Image
namespace Pe

section Format

/-- The file header. -/
structure FileHeader where
  machine : Nat
  sectionCount : Nat
  /-- The bytes of the optional header. -/
  optionalSize : Nat
  traits : Nat
  deriving DecidableEq, Repr

/-- The optional header, as far as it is about loading the image. -/
structure OptionalHeader where
  codeSize : Nat
  /-- Where the image is entered, relative to its base, as all addresses in headers. -/
  entry : Nat
  codeAddress : Nat
  imageBase : Nat
  sectionAlignment : Nat
  fileAlignment : Nat
  imageSize : Nat
  headersSize : Nat
  subsystem : Nat
  directoryCount : Nat
  deriving DecidableEq, Repr

/-- The header of a section. -/
structure SectionHeader where
  name : Text
  /-- The size in memory is the exact one, that in the file is filled up. -/
  mapping : Mapping
  traits : Nat
  deriving DecidableEq, Repr

/-- The headers of a file, and where they end. -/
structure Headers where
  file : FileHeader
  optional : OptionalHeader
  sections : List SectionHeader
  size : Nat

def fileWidths : List Nat := [2, 2, 4, 4, 4, 2, 2]

def fileHeader? : List Nat → Option FileHeader
  | [machine, sectionCount, _, _, _, optionalSize, traits] =>
    some ⟨machine, sectionCount, optionalSize, traits⟩
  | _ => none

/-- The widths in the optional header, up to the directories at its end. -/
def optionalWidths : List Nat :=
  [2, 1, 1, 4, 4, 4, 4, 4, 8, 4, 4, 2, 2, 2, 2, 2, 2, 4, 4, 4, 4, 2, 2, 8, 8, 8, 8, 4, 4]

/-- The optional header, with the mark of 64-bit addresses. -/
def optionalHeader? : List Nat → Option OptionalHeader
  | [0x20b, _, _, codeSize, _, _, entry, codeAddress, imageBase, sectionAlignment, fileAlignment,
      _, _, _, _, _, _, _, imageSize, headersSize, _, subsystem, _, _, _, _, _, _,
      directoryCount] =>
    some ⟨codeSize, entry, codeAddress, imageBase, sectionAlignment, fileAlignment, imageSize,
      headersSize, subsystem, directoryCount⟩
  | _ => none

def sectionWidths : List Nat := [4, 4, 4, 4, 4, 4, 2, 2, 4]

/-- The header of a section, behind its name. -/
def sectionHeader? (name : Text) : List Nat → Option SectionHeader
  | [memorySize, address, fileSize, offset, _, _, _, _, traits] =>
    some ⟨name, ⟨offset, fileSize, address, memorySize⟩, traits⟩
  | _ => none

/-- The headers of a file: the place of the signature stands 60 bytes from the beginning. -/
def read? (file : Text) : Option Headers := do
  guard ([0x4d, 0x5a] <+: file)
  let start ← (numbers? [4] (file.drop 0x3c)).bind List.head?
  guard ([0x50, 0x45, 0, 0] <+: file.drop start)
  let header ← (numbers? fileWidths (file.drop (start + 4))).bind fileHeader?
  let optional ← (numbers? optionalWidths (file.drop (start + 24))).bind optionalHeader?
  let first := start + 24 + header.optionalSize
  let sections ← (List.range header.sectionCount).mapM fun k =>
    let place := first + k * 40
    (numbers? sectionWidths (file.drop (place + 8))).bind
      (sectionHeader? ((file.drop place).take 8))
  some ⟨header, optional, sections, first + header.sectionCount * 40⟩

end Format

section Writing

variable (pe : Pe) (code : Text)

/-- The numbers of the file header. -/
def fileFields : List (Nat × Nat) :=
  [(2, (if pe.machine == 0 then 0x8664 else pe.machine).toNat), (2, 1), (4, 0), (4, 0), (4, 0),
    (2, 240), (2, 0x22)]

/-- The numbers of the optional header, up to the directories. -/
def optionalFields (size : Nat) : List (Nat × Nat) :=
  [(2, 0x20b), (1, 0), (1, 0), (4, rawSize size), (4, 0), (4, 0), (4, 0x1000), (4, 0x1000),
    (8, 0x140000000), (4, 0x1000), (4, 0x200), (2, 6), (2, 0), (2, 0), (2, 0), (2, 6), (2, 0),
    (4, 0), (4, imageSize size), (4, 0x200), (4, 0), (2, 3), (2, 0x8100), (8, 0x100000),
    (8, 0x1000), (8, 0x100000), (8, 0x1000), (4, 0), (4, 16)]

/-- The name of the section with the code. -/
def textName : Text := [0x2e, 0x74, 0x65, 0x78, 0x74, 0, 0, 0]

/-- The numbers of its header. -/
def sectionFields (size : Nat) : List (Nat × Nat) :=
  [(4, size), (4, 0x1000), (4, rawSize size), (4, 0x200), (4, 0), (4, 0), (2, 0), (2, 0),
    (4, 0x60000020)]

/-- The header in front of the signature, and the signature. -/
def stub : Text :=
  [0x4d, 0x5a] ++ List.replicate 58 0 ++ written [(4, 64)] ++ [0x50, 0x45, 0, 0]

theorem toList_writeFileHeader (w : Writer) :
    (pe.writeFileHeader w).toList = w.toList ++ (stub ++ written pe.fileFields) := by
  simp only [writeFileHeader, Writer.toList_bytes, Writer.toList_u16, Writer.toList_u32,
    Writer.toList_zeros, List.append_assoc]
  rfl

/-- All sizes have room in 32 bits. -/
structure Fits (size : Nat) : Prop where
  code : size < 2 ^ 32
  raw : rawSize size < 2 ^ 32
  image : imageSize size < 2 ^ 32

theorem fits_of_le
    {size : Nat}
    (h : size ≤ 2 ^ 32 - 0x2000) :
    Fits size := by
  have hraw : rawSize size = (size + 511) / 512 * 512 := rfl
  have himage : imageSize size = 4096 + (size + 4095) / 4096 * 4096 := rfl
  exact ⟨by omega, by omega, by omega⟩

theorem toList_writeOptionalHeader
    {size : Nat}
    (h : Fits size)
    (w : Writer) :
    (writeOptionalHeader size w).toList =
      w.toList ++ (written (optionalFields size) ++ List.replicate 128 0) := by
  have hraw : (rawSize size).toUInt32.toNat = rawSize size := UInt32.toNat_ofNat_of_lt' h.raw
  have himage : (imageSize size).toUInt32.toNat = imageSize size :=
    UInt32.toNat_ofNat_of_lt' h.image
  simp only [writeOptionalHeader, Writer.toList_u8, Writer.toList_u16, Writer.toList_u32,
    Writer.toList_u64, Writer.toList_zeros, List.append_assoc, hraw, himage]
  rfl

theorem toList_writeSectionHeader
    {size : Nat}
    (h : Fits size)
    (w : Writer) :
    (writeSectionHeader size w).toList =
      w.toList ++ (textName ++ written (sectionFields size)) := by
  have hsize : size.toUInt32.toNat = size := UInt32.toNat_ofNat_of_lt' h.code
  have hraw : (rawSize size).toUInt32.toNat = rawSize size := UInt32.toNat_ofNat_of_lt' h.raw
  simp only [writeSectionHeader, Writer.toList_bytes, Writer.toList_u32, Writer.toList_zeros,
    List.append_assoc, hsize, hraw]
  rfl

/-- The bytes of all headers. -/
def headers (size : Nat) : Text :=
  stub ++ written pe.fileFields ++ written (optionalFields size) ++ List.replicate 128 0 ++
    textName ++ written (sectionFields size)

theorem length_stub : stub.length = 68 := rfl

theorem length_fileFields : (written pe.fileFields).length = 20 := by
  simp [length_written, fileFields]

theorem length_optionalFields (size : Nat) : (written (optionalFields size)).length = 112 := by
  simp [length_written, optionalFields]

theorem length_sectionFields (size : Nat) : (written (sectionFields size)).length = 32 := by
  simp [length_written, sectionFields]

theorem length_headers (size : Nat) : (pe.headers size).length = 368 := by
  simp only [headers, List.length_append, List.length_replicate, length_stub, length_fileFields,
    length_optionalFields, length_sectionFields]
  rfl

/-- The headers, filled up with zeros, and the code, filled up likewise. -/
theorem image_eq
    (h : Fits code.length) :
    pe.image code =
      pe.headers code.length ++ List.replicate 144 0 ++ code ++
        List.replicate (rawSize code.length - code.length) 0 := by
  let w := writeSectionHeader code.length
    (writeOptionalHeader code.length (pe.writeFileHeader #[]))
  have hw : w.toList = pe.headers code.length := by
    simp only [w, toList_writeSectionHeader h, toList_writeOptionalHeader h,
      toList_writeFileHeader, headers, List.append_assoc]
    rfl
  have hsize : w.size = 368 := by
    rw [← Array.length_toList, hw, length_headers]
  have hheaders : (w.pad fileAlignment).toList =
      pe.headers code.length ++ List.replicate 144 0 := by
    rw [Writer.toList_pad _ (by decide), hsize, hw]
    rfl
  have hfilled : ((w.pad fileAlignment).bytes code).size = 512 + code.length := by
    rw [← Array.length_toList, Writer.toList_bytes, hheaders, List.length_append,
      List.length_append, length_headers, List.length_replicate]
  have hrest : alignUp (512 + code.length) fileAlignment - (512 + code.length) =
      rawSize code.length - code.length := by
    simp only [rawSize, alignUp, fileAlignment]
    omega
  change (((w.pad fileAlignment).bytes code).pad fileAlignment).toList = _
  rw [Writer.toList_pad _ (by decide), hfilled, hrest, Writer.toList_bytes, hheaders]

theorem allFit_fileFields : AllFit pe.fileFields := by
  have hmachine := (if pe.machine == 0 then 0x8664 else pe.machine).toNat_lt
  simp only [fileFields, allFit_cons, allFit_nil, and_true]
  omega

theorem Fits.optionalFields
    {size : Nat}
    (h : Fits size) :
    AllFit (optionalFields size) := by
  have hraw := h.raw
  have himage := h.image
  simp only [Pe.optionalFields, allFit_cons, allFit_nil, and_true]
  omega

theorem Fits.sectionFields
    {size : Nat}
    (h : Fits size) :
    AllFit (sectionFields size) := by
  have hcode := h.code
  have hraw := h.raw
  simp only [Pe.sectionFields, allFit_cons, allFit_nil, and_true]
  omega

end Writing

section Loading

variable (pe : Pe) (code : Text)

/-- The headers of an image of code of a size. -/
def imageHeaders (size : Nat) : Headers where
  file := ⟨(if pe.machine == 0 then 0x8664 else pe.machine).toNat, 1, 240, 0x22⟩
  optional := ⟨rawSize size, 0x1000, 0x1000, 0x140000000, 0x1000, 0x200, imageSize size, 0x200, 3,
    16⟩
  sections := [⟨textName, ⟨0x200, rawSize size, 0x1000, size⟩, 0x60000020⟩]
  size := 368

section Headers

variable {pe} {size : Nat} {file : Text}

theorem signature_of_headers
    (hfile : pe.headers size <+: file) :
    [0x4d, 0x5a] <+: file ∧ numbers? [4] (file.drop 0x3c) = some [64] ∧
      [0x50, 0x45, 0, 0] <+: file.drop 64 := by
  refine ⟨List.IsPrefix.trans ?_ hfile, ?_, ?_⟩
  · simp only [headers, stub, List.append_assoc, List.prefix_append]
  · refine numbers?_drop ([0x4d, 0x5a] ++ List.replicate 58 0) [(4, 64)]
      (List.IsPrefix.trans ?_ hfile) rfl (allFit_cons.mpr ⟨by decide, allFit_nil⟩)
    simp only [headers, stub, List.append_assoc, List.prefix_append_right_inj, List.prefix_append]
  · refine prefix_drop ([0x4d, 0x5a] ++ List.replicate 58 0 ++ written [(4, 64)])
      (List.IsPrefix.trans ?_ hfile) rfl
    simp only [headers, stub, List.append_assoc, List.prefix_append_right_inj, List.prefix_append]

theorem fileFields_of_headers
    (hfile : pe.headers size <+: file) :
    numbers? fileWidths (file.drop 68) = some (pe.fileFields.map Prod.snd) := by
  refine numbers?_drop stub pe.fileFields (List.IsPrefix.trans ?_ hfile) rfl pe.allFit_fileFields
  simp only [headers, List.append_assoc, List.prefix_append_right_inj, List.prefix_append]

theorem optionalFields_of_headers
    (h : Fits size)
    (hfile : pe.headers size <+: file) :
    numbers? optionalWidths (file.drop 88) = some ((optionalFields size).map Prod.snd) := by
  refine numbers?_drop (stub ++ written pe.fileFields) (optionalFields size)
    (List.IsPrefix.trans ?_ hfile) ?_ h.optionalFields
  · simp only [headers, List.append_assoc, List.prefix_append_right_inj, List.prefix_append]
  · rw [List.length_append, length_stub, length_fileFields]

/-- The section header stands where the optional header, as long as the file header says,
ends. -/
theorem section_of_headers
    (h : Fits size)
    (hfile : pe.headers size <+: file) :
    (file.drop 328).take 8 = textName ∧
      numbers? sectionWidths (file.drop 336) = some ((sectionFields size).map Prod.snd) := by
  have hfront : (stub ++ written pe.fileFields ++ written (optionalFields size) ++
      List.replicate 128 0).length = 328 := by
    simp only [List.length_append, length_stub, length_fileFields, length_optionalFields,
      List.length_replicate]
  constructor
  · have hname : textName <+: file.drop 328 := by
      refine prefix_drop _ (List.IsPrefix.trans ?_ hfile) hfront
      simp only [headers, List.append_assoc, List.prefix_append_right_inj, List.prefix_append]
    exact (List.prefix_iff_eq_take.mp hname).symm
  · refine numbers?_drop _ (sectionFields size) hfile ?_ h.sectionFields
    rw [List.length_append, hfront]
    rfl

/-- The headers are read from any file that begins with them. -/
theorem read?_of_headers
    (h : Fits size)
    (hfile : pe.headers size <+: file) :
    read? file = some (pe.imageHeaders size) := by
  obtain ⟨hmark, hstart, hsignature⟩ := signature_of_headers hfile
  obtain ⟨hname, hsection⟩ := section_of_headers h hfile
  have hfileFields := fileFields_of_headers hfile
  have hoptionalFields := optionalFields_of_headers h hfile
  have hfileHeader : fileHeader? (pe.fileFields.map Prod.snd) =
      some (pe.imageHeaders size).file := rfl
  have hoptionalHeader : optionalHeader? ((optionalFields size).map Prod.snd) =
      some (pe.imageHeaders size).optional := rfl
  have htext : sectionHeader? textName ((sectionFields size).map Prod.snd) =
      some ⟨textName, ⟨0x200, rawSize size, 0x1000, size⟩, 0x60000020⟩ := rfl
  have hcount : List.range (pe.imageHeaders size).file.sectionCount = [0] := rfl
  have hplace : 64 + 24 + (pe.imageHeaders size).file.optionalSize = 328 := rfl
  have hread : read? file = some ⟨(pe.imageHeaders size).file, (pe.imageHeaders size).optional,
      [⟨textName, ⟨0x200, rawSize size, 0x1000, size⟩, 0x60000020⟩],
      328 + (pe.imageHeaders size).file.sectionCount * 40⟩ := by
    simp [read?, hmark, hstart, hsignature, hfileFields, hoptionalFields, hfileHeader,
      hoptionalHeader, hcount, hplace, hname, hsection, htext]
  exact hread

end Headers

/-- An image is read by the rules of the format, and has one section.  Its size in memory is that of
the code, and its bytes in the file are the code and zeros behind it, up to the least multiple of
the file alignment.  They stand right behind the headers, which have room for all that is read of
them and fill a multiple of the file alignment, and end with the file.  The size of the image is
the address of the section and its size, up to a multiple of the section alignment.  The image is
entered at the address of the section, where the code stands.  All these sizes are exact. -/
theorem image_loads_section
    (h : code.length ≤ 2 ^ 32 - 0x2000) :
    ∃ headers text,
      read? (pe.image code) = some headers ∧ headers.sections = [text] ∧
      headers.file.machine = (if pe.machine = 0 then 0x8664 else pe.machine).toNat ∧
      headers.optional.fileAlignment = 0x200 ∧ headers.optional.sectionAlignment = 0x1000 ∧
      text.name = (".text" : Text) ++ [0, 0, 0] ∧
      text.mapping.memorySize = code.length ∧
      ((pe.image code).drop text.mapping.offset).take text.mapping.fileSize =
        code ++ List.replicate (text.mapping.fileSize - code.length) 0 ∧
      text.mapping.offset = headers.optional.headersSize ∧
      headers.size ≤ headers.optional.headersSize ∧
      headers.optional.fileAlignment ∣ headers.optional.headersSize ∧
      (pe.image code).length = headers.optional.headersSize + text.mapping.fileSize ∧
      headers.optional.codeSize = text.mapping.fileSize ∧
      IsLeast {n | headers.optional.fileAlignment ∣ n ∧ code.length ≤ n} text.mapping.fileSize ∧
      headers.optional.sectionAlignment ∣ headers.optional.imageSize ∧
      (∃ room, headers.optional.imageSize = text.mapping.address + room ∧
        IsLeast {n | headers.optional.sectionAlignment ∣ n ∧ code.length ≤ n} room) ∧
      headers.optional.entry = text.mapping.address ∧
      ∀ k, text.mapping.byteAt? (pe.image code) (headers.optional.entry + k) = code[k]? := by
  have hfits := fits_of_le h
  have himage := pe.image_eq code hfits
  have hraw : IsLeast {n | fileAlignment ∣ n ∧ code.length ≤ n} (rawSize code.length) :=
    isLeast_alignUp (by decide) _
  have hroom : IsLeast {n | sectionAlignment ∣ n ∧ code.length ≤ n}
      (alignUp code.length sectionAlignment) := isLeast_alignUp (by decide) _
  have hcode : (pe.image code).drop 0x200 =
      code ++ List.replicate (rawSize code.length - code.length) 0 := by
    rw [himage, List.append_assoc, List.drop_left']
    simp only [List.length_append, length_headers, List.length_replicate]
  have hsection : (code ++ List.replicate (rawSize code.length - code.length) 0 : Text).length =
      rawSize code.length := by
    have hle := hraw.1.2
    rw [List.length_append, List.length_replicate]
    omega
  refine ⟨pe.imageHeaders code.length, _, read?_of_headers hfits ?_, rfl, ?_, rfl, rfl,
    (by decide : textName = (".text" : Text) ++ [0, 0, 0]), rfl, ?_, rfl,
    (by decide : 368 ≤ 0x200), Nat.dvd_refl 0x200, ?_, rfl, hraw, ?_, ⟨_, rfl, hroom⟩, rfl, ?_⟩
  · rw [himage]
    simp only [List.append_assoc, List.prefix_append]
  · simp [imageHeaders]
  · change ((pe.image code).drop 0x200).take (rawSize code.length) = _
    rw [hcode]
    exact List.take_of_length_le (Nat.le_of_eq hsection)
  · change (pe.image code).length = 0x200 + rawSize code.length
    rw [himage, List.append_assoc, List.length_append, hsection, List.length_append,
      length_headers, List.length_replicate]
  · exact Nat.dvd_add (Nat.dvd_refl _) hroom.1.1
  · exact Mapping.byteAt?_of_code rfl hraw.1.2 (hcode ▸ List.prefix_append _ _)

/-- One byte more than the file alignment. -/
def slide : Text := List.replicate 0x201 0x90

/-- Its section takes two units of the file, and its last byte is loaded. -/
theorem slide_loads :
    slide.length ≤ 2 ^ 32 - 0x2000 ∧
      ∃ headers text,
        read? (image ⟨0⟩ slide) = some headers ∧ headers.sections = [text] ∧
        headers.file.machine = 0x8664 ∧ text.mapping.memorySize = 0x201 ∧
        text.mapping.fileSize = 0x400 ∧
        text.mapping.byteAt? (image ⟨0⟩ slide) (headers.optional.entry + 0x200) = some 0x90 := by
  have hsize : slide.length = 0x201 := List.length_replicate
  have hle : slide.length ≤ 2 ^ 32 - 0x2000 := by
    rw [hsize]
    decide
  obtain ⟨headers, text, hread, hsections, hmachine, hfile, -, -, hmemory, -, -, -, -, -, -, hraw,
    -, -, -, hbyte⟩ := image_loads_section ⟨0⟩ slide hle
  refine ⟨hle, headers, text, hread, hsections, hmachine, hmemory.trans hsize, ?_, ?_⟩
  · rw [hfile, hsize] at hraw
    exact hraw.unique (isLeast_alignUp (by decide) 0x201)
  · rw [hbyte, slide, List.getElem?_replicate, if_pos (by decide)]

end Loading

end Pe
end Image
end StackNative
