import StackNative.Image.Elf
import StackNative.Image.Pe
import StackNative.Target

/-!
# Image formats

**Results.** The format of the images of a target, with its names.
-/

namespace StackNative
namespace Image

/-- A format and what it says about the code. -/
inductive Format where
  | elf (e : Elf)
  | pe (p : Pe)

namespace Format

/-- The format of a target; only one operating system has its own. -/
def ofTarget (t : Target) : Format :=
  if t.os = .windows then .pe ⟨t.peMachine⟩ else .elf ⟨t.elfMachine, 2⟩

/-- The name of a format. -/
def name : Format → Text
  | .elf _ => "elf64"
  | .pe _ => "pe32+"

/-- What the name of a file in the format ends with. -/
def extension : Format → Text
  | .elf _ => ".o"
  | .pe _ => ".obj"

/-- The image of machine code. -/
def image : Format → Text → Text
  | .elf e => e.image
  | .pe p => p.image

end Format
end Image
end StackNative
