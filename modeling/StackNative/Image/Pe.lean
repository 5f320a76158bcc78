import StackNative.Image.Writer

/-!
# Images in the portable executable format

**Input.** Machine code.
**Algorithm.** The headers, filled up to the file alignment, and one section with
the code, filled up likewise.  The section is loaded at the first multiple of the
section alignment behind the headers and entered at its first byte.
**Results.** `Pe.image`.
-/

namespace StackNative
namespace Image

/-- What the file header says about the code; zero stands for the default. -/
structure Pe where
  /-- The architecture. -/
  machine : UInt16 := 0x8664

namespace Pe

/-- The bytes of the header in front of the signature. -/
def stubSize : Nat := 64

/-- The bytes of the optional header. -/
def optionalHeaderSize : Nat := 240

/-- Sections begin in the file at multiples of this. -/
def fileAlignment : Nat := 0x200

/-- Sections are loaded at multiples of this. -/
def sectionAlignment : Nat := 0x1000

/-- Where the section with the code is loaded. -/
def textAddress : Nat := sectionAlignment

/-- The bytes of all headers, filled up. -/
def headersSize : Nat := alignUp (stubSize + 4 + 20 + optionalHeaderSize + 40) fileAlignment

/-- The bytes of the section in the file. -/
def rawSize (size : Nat) : Nat := alignUp size fileAlignment

/-- The bytes of the loaded image. -/
def imageSize (size : Nat) : Nat := textAddress + alignUp size sectionAlignment

/-- The header in front of the signature, the signature and the file header. -/
def writeFileHeader (pe : Pe) (w : Writer) : Writer :=
  let w := w.bytes [0x4d, 0x5a]
  let w := w.zeros (0x3c - 2)
  let w := w.u32 stubSize.toUInt32
  let w := w.bytes [0x50, 0x45, 0, 0]
  let w := w.u16 (if pe.machine == 0 then 0x8664 else pe.machine)
  let w := w.u16 1
  let w := ((w.u32 0).u32 0).u32 0
  let w := w.u16 optionalHeaderSize.toUInt16
  w.u16 0x0022

/-- The optional header for code of a size. -/
def writeOptionalHeader (size : Nat) (w : Writer) : Writer :=
  let w := ((w.u16 0x20b).u8 0).u8 0
  let w := w.u32 (rawSize size).toUInt32
  let w := (w.u32 0).u32 0
  let w := (w.u32 textAddress.toUInt32).u32 textAddress.toUInt32
  let w := w.u64 0x140000000
  let w := (w.u32 sectionAlignment.toUInt32).u32 fileAlignment.toUInt32
  let w := ((((w.u16 6).u16 0).u16 0).u16 0).u16 6
  let w := (w.u16 0).u32 0
  let w := w.u32 (imageSize size).toUInt32
  let w := w.u32 headersSize.toUInt32
  let w := w.u32 0
  let w := (w.u16 3).u16 0x8100
  let w := (((w.u64 0x100000).u64 0x1000).u64 0x100000).u64 0x1000
  let w := (w.u32 0).u32 16
  w.zeros (16 * 8)

/-- The header of the section with the code. -/
def writeSectionHeader (size : Nat) (w : Writer) : Writer :=
  let w := w.bytes [0x2e, 0x74, 0x65, 0x78, 0x74, 0, 0, 0]
  let w := w.u32 size.toUInt32
  let w := w.u32 textAddress.toUInt32
  let w := w.u32 (rawSize size).toUInt32
  let w := w.u32 headersSize.toUInt32
  let w := w.zeros 12
  w.u32 0x60000020

/-- The image of machine code. -/
def image (pe : Pe) (code : Text) : Text :=
  let size := code.length
  let w := writeSectionHeader size (writeOptionalHeader size (pe.writeFileHeader #[]))
  let w := (w.pad fileAlignment).bytes code
  (w.pad fileAlignment).toList

end Pe
end Image
end StackNative
