import StackNative.Text.Basic

/-!
# Machine registers
-/

namespace StackNative
namespace X64

/-- A register operand, given by its number.  The machine has the registers 0 to 15; any other
number is encoded by its low bits. -/
structure Reg where
  number : Int
  deriving DecidableEq, Repr

namespace Reg

/-- The names of the registers, in the order of their numbers. -/
def names : List Text :=
  ["rax", "rcx", "rdx", "rbx", "rsp", "rbp", "rsi", "rdi",
    "r8", "r9", "r10", "r11", "r12", "r13", "r14", "r15"]

def rax : Reg := ⟨0⟩
def rcx : Reg := ⟨1⟩
def rdx : Reg := ⟨2⟩
def rbx : Reg := ⟨3⟩
def rsp : Reg := ⟨4⟩
def rbp : Reg := ⟨5⟩
def rsi : Reg := ⟨6⟩
def rdi : Reg := ⟨7⟩
def r8 : Reg := ⟨8⟩
def r9 : Reg := ⟨9⟩
def r10 : Reg := ⟨10⟩
def r11 : Reg := ⟨11⟩
def r12 : Reg := ⟨12⟩
def r13 : Reg := ⟨13⟩
def r14 : Reg := ⟨14⟩
def r15 : Reg := ⟨15⟩

/-- The name of a register. -/
def name (r : Reg) : Text :=
  if 0 ≤ r.number then names.getD r.number.toNat "???" else "???"

/-- The register with a name. -/
def ofName? (name : Text) : Option Reg := (names.findIdx? (· == name)).map fun n => ⟨n⟩

/-- The upper eight registers, whose number needs a fourth bit. -/
def isExtended (r : Reg) : Bool := 8 ≤ r.number && r.number ≤ 15

/-- The lowest three bits of the number. -/
def lowBits (r : Reg) : UInt8 := (r.number % 8).toNat.toUInt8

end Reg
end X64
end StackNative
