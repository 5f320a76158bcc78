import StackNative.Build.Link
import StackNative.Image.Format
import StackNative.Ir.Validate
import StackNative.Lowering
import StackNative.Source
import StackNative.X64.Codegen

/-!
# Builds

**Input.** Options, a source file or a chunk, an output path, a file system and
a linker.
**Algorithm.** The source becomes a chunk, the chunk a module, the module
machine code, the code an image; the image is written beside the output and
linked, and goes away if the options say so.
**Results.** The file system afterwards, what happened on the way, and whether
the build failed.
-/

namespace StackNative
namespace Build

open Bytecode (Chunk)

section Events

/-- How much an event matters. -/
inductive Severity where
  | debug
  | info
  | warn
  deriving DecidableEq, Repr

/-- Something a build tells on its way. -/
inductive Event where
  | debugAndStrip
  | reading (source : Text) (size : Nat)
  | converting (module : Text) (size : Nat)
  | pass (p : OptLevel.Pass)
  | generated (backend : Text) (size : Nat)
  | objectWritten (path format : Text) (size : Nat)
  | linking (linker : Text) (args : List Text)
  | objectKept (path : Text) (e : FileError)
  | finished (output : Text)
  deriving DecidableEq, Repr

/-- How much each event matters. -/
def Event.severity : Event → Severity
  | .debugAndStrip => .warn
  | .linking .. => .info
  | _ => .debug

/-- The text of an event. -/
def Event.message : Event → Text
  | .debugAndStrip => "both debug and strip requested; neither is applied yet"
  | .reading .. => "running front end"
  | .converting .. => "converting bytecode"
  | .pass _ => "running pass"
  | .generated .. => "machine code generated"
  | .objectWritten .. => "object written"
  | .linking .. => "linking"
  | .objectKept .. => "failed to remove object file"
  | .finished _ => "compilation finished"

/-- A detail of an event. -/
inductive Detail where
  | text (t : Text)
  | texts (ts : List Text)
  | number (n : Nat)
  deriving DecidableEq, Repr

/-- The details of an event, by name. -/
def Event.details : Event → List (Text × Detail)
  | .debugAndStrip => []
  | .reading source size => [("source", .text source), ("bytes", .number size)]
  | .converting module size => [("module", .text module), ("bytes", .number size)]
  | .pass p => [("pass", .text p.name)]
  | .generated backend size => [("backend", .text backend), ("bytes", .number size)]
  | .objectWritten path format size =>
    [("path", .text path), ("format", .text format), ("bytes", .number size)]
  | .linking linker args => [("linker", .text linker), ("args", .texts args)]
  | .objectKept path e => [("path", .text path), ("error", .text e.message)]
  | .finished output => [("output", .text output)]

end Events

section Errors

/-- Why no compiler can be made from options. -/
inductive SetupError where
  | problems (ps : List Options.Problem)
  | unsupported (e : UnsupportedTarget)
  deriving DecidableEq, Repr

/-- The text of an error. -/
def SetupError.message : SetupError → Text
  | .problems ps => "invalid compile options: " ++ Options.problemsText ps
  | .unsupported e => e.message

/-- Why a build fails. -/
inductive BuildError where
  | unreadable (path : Text) (e : FileError)
  | source (path : Text) (e : SourceError)
  | lowering (e : Lowering.LoweringError)
  | invalid (es : List Ir.ValidationError)
  | codegen (e : X64.CompileError)
  | unwritable (path : Text) (e : FileError)
  | link (e : LinkError)
  | launch (e : LaunchError)

/-- The text of an error. -/
def BuildError.message : BuildError → Text
  | .unreadable path e => "failed to read source " ++ path ++ ": " ++ e.message
  | .source path e => e.message path
  | .lowering e => "IR conversion failed: " ++ e.message
  | .invalid es => "invalid IR: " ++ Text.join "; " (es.map Ir.ValidationError.message)
  | .codegen e => "code generation failed: " ++ e.message
  | .unwritable path e => "failed to write object file " ++ path ++ ": " ++ e.message
  | .link e => e.message
  | .launch e => "failed to run linker: " ++ e.message

end Errors

/-- What a step of a build gives, with the events on its way. -/
structure Step (α : Type) where
  events : List Event
  result : Except BuildError α

/-- Goes on with the result of a step, if it has one. -/
def Step.andThen (s : Step α) (next : α → Step β) : Step β :=
  match s.result with
  | .error e => ⟨s.events, .error e⟩
  | .ok a => ⟨s.events ++ (next a).events, (next a).result⟩

/-- Options that code can be generated for. -/
structure Compiler where
  options : Options
  backend : Backend
  format : Image.Format

namespace Compiler

/-- The compiler of options, or why there is none. -/
def ofOptions (o : Options) : Except SetupError Compiler :=
  if o.problems.isEmpty then
    match Backend.ofTarget o.target with
    | .ok backend => .ok ⟨o, backend, Image.Format.ofTarget o.target⟩
    | .error e => .error (.unsupported e)
  else .error (.problems o.problems)

/-- What is told when a compiler is made. -/
def setupEvents (c : Compiler) : List Event :=
  if c.options.debug && c.options.strip then [.debugAndStrip] else []

/-- The module of a chunk, checked. -/
def lower (c : Compiler) (name : Text) (chunk : Chunk) : Step Ir.Module :=
  let begun := [Event.converting name chunk.length]
  match Lowering.convert name chunk with
  | .error e => ⟨begun, .error (.lowering e)⟩
  | .ok m =>
    let passed := begun ++ c.options.level.passes.map Event.pass
    if m.validate.isEmpty then ⟨passed, .ok m⟩ else ⟨passed, .error (.invalid m.validate)⟩

/-- The image of a module. -/
def emit (c : Compiler) (m : Ir.Module) : Step Text :=
  match X64.machineCode c.backend.os m with
  | .error e => ⟨[], .error (.codegen e)⟩
  | .ok code => ⟨[.generated c.backend.name code.length], .ok (c.format.image code)⟩

/-- The image of a chunk. -/
def image (c : Compiler) (name : Text) (chunk : Chunk) : Step Text :=
  (c.lower name chunk).andThen c.emit

/-- The image of the source in a file. -/
def imageOfSource (c : Compiler) (path bytes : Text) : Step Text :=
  Step.andThen
    ⟨[.reading path bytes.length],
      match (SourceForm.ofPath path).compile bytes with
      | .ok chunk => .ok chunk
      | .error e => .error (.source path e)⟩
    (c.image path.stem)

/-- How a build ended. -/
structure Report where
  files : FileSystem
  events : List Event
  error : Option BuildError

/-- Removes the object file after linking, if the options say so.  A file that stays is told
and is no error. -/
def tidy (c : Compiler) (object output : Text) (fs : FileSystem) : FileSystem × List Event :=
  if c.options.cleanup then
    match fs.remove object with
    | .ok fs => (fs, [.finished output])
    | .error e => (fs, [.objectKept object e, .finished output])
  else (fs, [.finished output])

/-- Writes an image and links it. -/
def link (c : Compiler) (run : Linker) (fs : FileSystem) (output image : Text) : Report :=
  let object := objectPath output
  match fs.write object image with
  | .error e => ⟨fs, [], some (.unwritable object e)⟩
  | .ok written =>
    let linker := c.options.linkerPath
    let args := linkArgs c.options object output
    let told := [.objectWritten object c.format.name image.length, .linking linker args]
    let (linked, outcome) := run linker args written
    match outcome with
    | .notStarted e => ⟨linked, told, some (.launch e)⟩
    | .exited status report =>
      if status = 0 then
        let (final, ending) := c.tidy object output linked
        ⟨final, told ++ ending, none⟩
      else ⟨linked, told, some (.link ⟨linker, status, report⟩)⟩

/-- Links the image of a step, if it has one. -/
def finish (c : Compiler) (run : Linker) (fs : FileSystem) (output : Text)
    (s : Step Text) : Report :=
  match s.result with
  | .error e => ⟨fs, s.events, some e⟩
  | .ok image =>
    let r := c.link run fs output image
    { r with events := s.events ++ r.events }

/-- Builds an output from a chunk. -/
def compileChunk (c : Compiler) (run : Linker) (fs : FileSystem) (chunk : Chunk)
    (output : Text) : Report :=
  c.finish run fs output (c.image output.stem chunk)

/-- Builds an output from a source file. -/
def compileFile (c : Compiler) (run : Linker) (fs : FileSystem) (path output : Text) : Report :=
  match fs.read path with
  | .error e => ⟨fs, [], some (.unreadable path e)⟩
  | .ok bytes => c.finish run fs output (c.imageOfSource path bytes)

end Compiler
end Build
end StackNative
