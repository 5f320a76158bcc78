import StackNative.Image.Writer

/-!
# Images in the executable and linkable format

**Input.** Machine code.
**Algorithm.** A file header, one program header, the code, and zeros up to a
whole page.  The code is loaded as one readable and executable segment and
entered at its first byte.
**Results.** `Elf.image`.
-/

namespace StackNative
namespace Image

/-- What the file header says about the code; zero stands for the default. -/
structure Elf where
  /-- The architecture. -/
  machine : UInt16 := 0x3e
  /-- The type of the file. -/
  kind : UInt16 := 2

namespace Elf

/-- The bytes of the file header. -/
def headerSize : Nat := 64

/-- The bytes of a program header. -/
def programHeaderSize : Nat := 56

/-- Where the code stands in the file. -/
def codeOffset : Nat := headerSize + programHeaderSize

/-- Where the file is loaded. -/
def baseAddress : Nat := 0x400000

/-- The bytes of a page. -/
def pageSize : Nat := 0x1000

/-- The file header. -/
def writeHeader (elf : Elf) (w : Writer) : Writer :=
  let w := w.bytes [0x7f, 0x45, 0x4c, 0x46]
  let w := (((w.u8 2).u8 1).u8 1).u8 0
  let w := w.zeros 8
  let w := w.u16 (if elf.kind == 0 then 2 else elf.kind)
  let w := w.u16 (if elf.machine == 0 then 0x3e else elf.machine)
  let w := w.u32 1
  let w := w.u64 (baseAddress + codeOffset).toUInt64
  let w := w.u64 headerSize.toUInt64
  let w := w.u64 0
  let w := w.u32 0
  let w := w.u16 headerSize.toUInt16
  let w := w.u16 programHeaderSize.toUInt16
  let w := w.u16 1
  let w := w.u16 64
  (w.u16 0).u16 0

/-- The program header of code of a size. -/
def writeProgramHeader (size : Nat) (w : Writer) : Writer :=
  let address := (baseAddress + codeOffset).toUInt64
  let w := w.u32 1
  let w := w.u32 0x5
  let w := w.u64 codeOffset.toUInt64
  let w := (w.u64 address).u64 address
  let w := (w.u64 size.toUInt64).u64 size.toUInt64
  w.u64 pageSize.toUInt64

/-- The image of machine code. -/
def image (elf : Elf) (code : Text) : Text :=
  let w := writeProgramHeader code.length (elf.writeHeader #[])
  ((w.bytes code).pad pageSize).toList

end Elf
end Image
end StackNative
