import StackNative.Text.Blank
import StackNative.Text.LetterCase
import StackNative.Text.Quoted

/-!
# Targets

**Input.** The name of a target.
**Results.** Architectures, operating systems and their pairs; reading and
writing a target's name; what a target's tools and file formats are called.
-/

namespace StackNative

/-- A processor architecture. -/
inductive Arch where
  | x86_64
  | arm64
  | unknown (code : UInt8)
  deriving DecidableEq, Repr

/-- An operating system. -/
inductive Os where
  | linux
  | windows
  | macos
  | unknown (code : UInt8)
  deriving DecidableEq, Repr

/-- The architecture with a code. -/
def Arch.ofCode (code : UInt8) : Arch :=
  match code with
  | 0 => .x86_64
  | 1 => .arm64
  | code => .unknown code

/-- The name of an architecture. -/
def Arch.name : Arch → Text
  | .x86_64 => "x86_64"
  | .arm64 => "arm64"
  | .unknown code => "arch(" ++ Text.ofNat code.toNat ++ ")"

/-- The operating system with a code. -/
def Os.ofCode (code : UInt8) : Os :=
  match code with
  | 0 => .linux
  | 1 => .windows
  | 2 => .macos
  | code => .unknown code

/-- The name of an operating system. -/
def Os.name : Os → Text
  | .linux => "linux"
  | .windows => "windows"
  | .macos => "macos"
  | .unknown code => "os(" ++ Text.ofNat code.toNat ++ ")"

/-- What a program is built for. -/
structure Target where
  arch : Arch
  os : Os
  deriving DecidableEq, Repr

namespace Target

/-- Every known target. -/
def all : List Target :=
  [⟨.x86_64, .linux⟩, ⟨.x86_64, .windows⟩, ⟨.x86_64, .macos⟩,
    ⟨.arm64, .linux⟩, ⟨.arm64, .windows⟩, ⟨.arm64, .macos⟩]

/-- The target of a machine, by its own names for its architecture and its operating system.
Names that are not known count as those of the first target. -/
def ofMachine (arch os : Text) : Target where
  arch := if arch = "arm64" then .arm64 else .x86_64
  os := if os = "windows" then .windows else if os = "darwin" then .macos else .linux

/-- One of the known targets. -/
def isValid (t : Target) : Bool := all.contains t

/-- The name of a target. -/
def name (t : Target) : Text := t.arch.name ++ "-" ++ t.os.name

/-- The linker of a target unless another one is named. -/
def defaultLinker (t : Target) : Text := if t.os = .macos then "clang" else "gcc"

/-- What the name of an executable ends with. -/
def executableSuffix (t : Target) : Text := if t.os = .windows then ".exe" else []

/-- The number of the architecture in images of the executable and linkable format. -/
def elfMachine (t : Target) : UInt16 :=
  match t.arch with
  | .x86_64 => 0x3e
  | .arm64 => 0xb7
  | .unknown _ => 0

/-- The number of the architecture in images of the portable executable format. -/
def peMachine (t : Target) : UInt16 :=
  match t.arch with
  | .x86_64 => 0x8664
  | .arm64 => 0xaa64
  | .unknown _ => 0

section Reading

/-- Why a text names no target; the text itself comes first. -/
inductive ReadError where
  | noDash (given : Text)
  | unknownArch (given part : Text)
  | unknownOs (given part : Text)
  deriving DecidableEq, Repr

/-- The text of an error. -/
def ReadError.message : ReadError → Text
  | .noDash given => "invalid target " ++ Text.quoted given ++ ": expected <arch>-<os>"
  | .unknownArch given part =>
    "invalid target " ++ Text.quoted given ++ ": unknown architecture " ++ Text.quoted part
  | .unknownOs given part =>
    "invalid target " ++ Text.quoted given ++ ": unknown operating system " ++ Text.quoted part

/-- The names of architectures, other names included. -/
def archNames : List (Text × Arch) :=
  [("x86_64", .x86_64), ("amd64", .x86_64), ("x64", .x86_64), ("arm64", .arm64),
    ("aarch64", .arm64)]

/-- The names of operating systems, other names included. -/
def osNames : List (Text × Os) :=
  [("linux", .linux), ("windows", .windows), ("win", .windows), ("macos", .macos),
    ("darwin", .macos), ("osx", .macos)]

/-- The target that a text names, without regard to case and to blanks around it. -/
def read (given : Text) : Except ReadError Target :=
  let t := given.trim.lower
  let archPart := t.takeWhile (· != 0x2d)
  match t.dropWhile (· != 0x2d) with
  | [] => .error (.noDash given)
  | _ :: osPart =>
    match archNames.lookup archPart with
    | none => .error (.unknownArch given archPart)
    | some arch =>
      match osNames.lookup osPart with
      | none => .error (.unknownOs given osPart)
      | some os => .ok ⟨arch, os⟩

end Reading

end Target
end StackNative
