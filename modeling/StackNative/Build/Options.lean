import StackNative.Build.OptLevel
import StackNative.Target

/-!
# Options of a build

**Results.** The options with their defaults, what is wrong with them, and the
targets that code can be generated for.
-/

namespace StackNative
namespace Build

/-- What a build is asked for. -/
structure Options where
  target : Target
  level : OptLevel
  /-- The linker; an empty text stands for the one of the target. -/
  linker : Text
  libraries : List Text
  libraryPaths : List Text
  linkerFlags : List Text
  static : Bool
  /-- The object file goes away once it is linked. -/
  cleanup : Bool
  debug : Bool
  strip : Bool
  deriving DecidableEq, Repr

namespace Options

/-- The options of a target unless others are asked for. -/
def default (t : Target) : Options where
  target := t
  level := .basic
  linker := t.defaultLinker
  libraries := []
  libraryPaths := []
  linkerFlags := []
  static := false
  cleanup := true
  debug := false
  strip := false

/-- Options with nothing filled in. -/
def blank (t : Target) : Options :=
  { default t with
    level := .none
    linker := []
    cleanup := false }

/-- The linker that is run. -/
def linkerPath (o : Options) : Text :=
  if o.linker.isEmpty then o.target.defaultLinker else o.linker

section Problems

/-- What is wrong with options. -/
inductive Problem where
  | target (t : Target)
  | level (l : OptLevel)
  | emptyLibrary
  | emptyLibraryPath
  deriving DecidableEq, Repr

/-- The text of a problem. -/
def Problem.message : Problem → Text
  | .target t => "invalid target " ++ Text.quoted t.name
  | .level l => l.invalidMessage
  | .emptyLibrary => "empty library name"
  | .emptyLibraryPath => "empty library path"

/-- The problem, where there is one. -/
def problemIf (p : Problem) (wrong : Bool) : List Problem := if wrong then [p] else []

/-- Some name is nothing but blanks. -/
def anyBlank (names : List Text) : Bool := names.any fun n => n.trim.isEmpty

/-- Everything that is wrong with options, each kind at most once. -/
def problems (o : Options) : List Problem :=
  problemIf (.target o.target) (!o.target.isValid) ++
    problemIf (.level o.level) (!o.level.isValid) ++
    problemIf .emptyLibrary (anyBlank o.libraries) ++
    problemIf .emptyLibraryPath (anyBlank o.libraryPaths)

/-- The texts of several problems in one line. -/
def problemsText (ps : List Problem) : Text := Text.join "; " (ps.map Problem.message)

end Problems

end Options

section Backends

/-- A target that no code can be generated for. -/
structure UnsupportedTarget where
  target : Target
  deriving DecidableEq, Repr

/-- Why no code can be generated. -/
def UnsupportedTarget.reason (e : UnsupportedTarget) : Text :=
  match e.target.arch with
  | .arm64 => "arm64 code generation is not implemented"
  | _ => "unknown architecture"

/-- The text of an error. -/
def UnsupportedTarget.message (e : UnsupportedTarget) : Text :=
  "unsupported target " ++ e.target.name ++ ": " ++ e.reason

/-- What generates code; there is one generator, and it knows the operating system. -/
structure Backend where
  os : Os
  deriving DecidableEq, Repr

/-- The name of the generator. -/
def Backend.name (_ : Backend) : Text := "x86_64"

/-- The generator of a target. -/
def Backend.ofTarget (t : Target) : Except UnsupportedTarget Backend :=
  match t.arch with
  | .x86_64 => .ok ⟨t.os⟩
  | _ => .error ⟨t⟩

end Backends

end Build
end StackNative
