import StackNative.Build.Options
import StackNative.FileSystem

/-!
# Linking

**Input.** An object file, the options of a build and the programs at hand.
**Results.** The arguments of the linker, and what became of running it.  A
linker may change any file; what it does is a parameter.
-/

namespace StackNative
namespace Build

/-- What the path of an object file adds to the path of the output. -/
def objectSuffix : Text := ".o"

/-- The object file that an output is linked from. -/
def objectPath (output : Text) : Text := output ++ objectSuffix

/-- The arguments of the linker: the object, the output, libraries, folders of libraries,
the kind of linking, the level, and the flags as they were given. -/
def linkArgs (o : Options) (object output : Text) : List Text :=
  [object, "-o", output] ++ o.libraries.map (("-l" : Text) ++ ·) ++
    o.libraryPaths.map (("-L" : Text) ++ ·) ++ (if o.static then [("-static" : Text)] else []) ++
    [o.level.flag] ++ o.linkerFlags

/-- A linker that ended with a status other than zero. -/
structure LinkError where
  linker : Text
  status : Int
  /-- What it wrote about its errors. -/
  report : Text
  deriving DecidableEq, Repr

/-- The text of an error. -/
def LinkError.message (e : LinkError) : Text :=
  let head := "linker " ++ e.linker ++ " exited with status " ++ Text.ofInt e.status
  let report := e.report.trim
  if report.isEmpty then head else head ++ ":\n" ++ report

/-- Why a program does not start. -/
inductive LaunchError where
  /-- A name that no folder of programs has. -/
  | unknownProgram (name : Text)
  /-- A name that stands for a folder. -/
  | folderName (name : Text)
  | badPath (path : Text) (fault : FileFault)
  | notProgram (path : Text)
  /-- A program that is given more bytes than it can take. -/
  | longArguments (path : Text)
  deriving DecidableEq, Repr

/-- The text of an error. -/
def LaunchError.message : LaunchError → Text
  | .unknownProgram name =>
    "exec: " ++ Text.quoted name ++ ": executable file not found in $PATH"
  | .folderName name => "exec: " ++ Text.quoted name ++ ": " ++ FileFault.isFolder.text
  | .badPath path fault => "fork/exec " ++ path ++ ": " ++ fault.text
  | .notProgram path => "fork/exec " ++ path ++ ": permission denied"
  | .longArguments path => "fork/exec " ++ path ++ ": argument list too long"

/-- What became of running a linker. -/
inductive LinkOutcome where
  | exited (status : Int) (report : Text)
  | notStarted (e : LaunchError)
  deriving DecidableEq, Repr

/-- What running a program with arguments does. -/
abbrev Linker := Text → List Text → FileSystem → FileSystem × LinkOutcome

section Launching

/-- Where programs stand, in the order in which they are found, and the status that each one
ends with. -/
abbrev Programs := List (FileSystem.Place × Int)

namespace Programs

/-- The files with the programs among them. -/
def among (ps : Programs) (fs : FileSystem) : FileSystem :=
  { fs with
    files := fs.files ++ ps.map fun p => (p.1, [])
    folders := fs.folders ++ ps.flatMap fun p => FileSystem.above p.1 }

/-- The path of the program that a text means.  A text that is its own last element is a name,
and stands for the first program of that name; the root is its own last element too. -/
def pathOf (ps : Programs) (name : Text) : Except LaunchError Text :=
  if name ≠ name.lastElement then .ok name
  else if name.isAbsolute then .error (.folderName name)
  else
    match ps.find? fun p => p.1.getLast? == some name with
    | some p => .ok (Text.pathTo p.1)
    | none => .error (.unknownProgram name)

/-- The bytes of one argument, with the one that ends it. -/
def argumentLimit : Nat := 131072

/-- The bytes of all arguments, with the one that ends each and eight to point at it. -/
def roomLimit : Nat := 2097152

/-- The arguments are more than a program can take. -/
def areTooLong (args : List Text) : Bool :=
  args.any (argumentLimit ≤ ·.length) || roomLimit < args.foldl (fun n a => n + a.length + 9) 0

/-- What becomes of running a program with arguments.  A zero byte ends an argument, so none
may hold one. -/
def outcome (ps : Programs) (name : Text) (args : List Text) (fs : FileSystem) : LinkOutcome :=
  match ps.pathOf name with
  | .error e => .notStarted e
  | .ok path =>
    if (path :: args).any (·.contains 0) then .notStarted (.badPath path .badName)
    else
      match (ps.among fs).find path with
      | .error fault => .notStarted (.badPath path fault)
      | .ok place =>
        match ps.lookup place with
        | none => .notStarted (.notProgram path)
        | some status =>
          if areTooLong (name :: args) then .notStarted (.longArguments path)
          else .exited status []

end Programs

/-- Programs that change no file and end with a fixed status; no other program starts. -/
def Linker.ofPrograms (ps : Programs) : Linker := fun name args fs => (fs, ps.outcome name args fs)

end Launching

end Build
end StackNative
