import StackNative.Bytecode.Listing
import StackNative.Build.Compiler
import StackNative.Command.Suggestion
import StackNative.Command.Verb
import StackNative.Ir.Printer
import StackNative.Ir.View

/-!
# Commands

**Input.** The arguments of the program, a file system, and what the program
finds around it.
**Results.** `run` gives what is written, the file system afterwards, and the
error that ends the command, if one does.
-/

namespace StackNative
namespace Command

open Build (Compiler Event Linker)
open Bytecode (Chunk)

/-- The version of the program. -/
def version : Text := "0.1.0"

/-- What the program finds around it. -/
structure Environment where
  linker : Linker
  /-- What the program runs on, as its version shows it. -/
  runtime : Text
  /-- The machine's own name for its architecture. -/
  arch : Text
  /-- The machine's own name for its operating system. -/
  os : Text

/-- The target that programs are built for unless another one is named. -/
def Environment.host (env : Environment) : Target := .ofMachine env.arch env.os

section Errors

/-- Why a command ends with an error. -/
inductive CommandError where
  | flags (e : FlagError)
  | unknownCommand (word path : Text) (suggestions : List Text)
  | argumentCount (received : Nat)
  | noArgument
  | options (e : OptionsError)
  | setup (e : Build.SetupError)
  | build (e : Build.BuildError)
  | container (e : Bytecode.ContainerError)
  | unwritable (path : Text) (e : FileError)

/-- The lines that follow an unknown command. -/
def suggestionText (names : List Text) : Text :=
  if names.isEmpty then []
  else "\n\nDid you mean this?\n" ++ names.flatMap fun n => ("\t" ++ n ++ "\n" : Text)

/-- The text of an error. -/
def CommandError.message : CommandError → Text
  | .flags e => e.message
  | .unknownCommand word path names =>
    "unknown command " ++ Text.quoted word ++ " for " ++ Text.quoted path ++ suggestionText names
  | .argumentCount received => "accepts 1 arg(s), received " ++ Text.ofNat received
  | .noArgument => "requires at least 1 arg(s), only received 0"
  | .options e => e.message
  | .setup e => e.message
  | .build e => e.message
  | .container e => e.message
  | .unwritable path e => "failed to write " ++ path ++ ": " ++ e.message

end Errors

/-- How a command ended. -/
structure Outcome where
  files : FileSystem
  output : Text := []
  /-- What is told beside the output. -/
  log : List Event := []
  error : Option CommandError := none

/-- A command that ends with an error and changes nothing. -/
def Outcome.failed (fs : FileSystem) (e : CommandError) : Outcome :=
  { files := fs, error := some e }

section Verbs

/-- The chunk in a source file. -/
def loadChunk (fs : FileSystem) (form : SourceForm) (path : Text) :
    Except Build.BuildError Chunk :=
  match fs.read path with
  | .error e => .error (.unreadable path e)
  | .ok bytes =>
    match form.compile bytes with
    | .error e => .error (.source path e)
    | .ok c => .ok c

/-- The events that are told: all of them where they are asked for, otherwise the warnings. -/
def told (a : Arguments) (events : List Event) : List Event :=
  if a.switch? .verbose = some true then events else events.filter (·.severity = .warn)

/-- Builds a source file. -/
def runBuild (env : Environment) (fs : FileSystem) (a : Arguments) (source : Text) : Outcome :=
  let f := BuildFlags.ofArguments a
  match resolve env.host fs f ((a.text? .config).getD []) source with
  | .error e => .failed fs (.options e)
  | .ok o =>
    let named := f.output.getD []
    let output := if named.isEmpty then defaultOutput source o.target else named
    match Compiler.ofOptions o with
    | .error e => .failed fs (.setup e)
    | .ok c =>
      let r := c.compileFile env.linker fs source output
      let log := told a (c.setupEvents ++ r.events)
      match r.error with
      | some e => { files := r.files, log := log, error := some (.build e) }
      | none =>
        { files := r.files
          log := log
          output := source ++ " -> " ++ output ++ " (" ++ o.target.name ++ ")\n" }

/-- Shows the module of a source file. -/
def runIr (fs : FileSystem) (a : Arguments) (path : Text) : Outcome :=
  match loadChunk fs (SourceForm.ofPath path) path with
  | .error e => .failed fs (.build e)
  | .ok c =>
    match Lowering.convert path.stem c with
    | .error e => .failed fs (.build (.lowering e))
    | .ok m =>
      { files := fs
        output := if a.switch? .json = some true then m.document.indented ++ "\n" else m.text }

/-- Makes a container of a source file. -/
def runAsm (fs : FileSystem) (a : Arguments) (path : Text) : Outcome :=
  match loadChunk fs .assembly path with
  | .error e => .failed fs (.build e)
  | .ok c =>
    match c.marshal with
    | .error e => .failed fs (.container e)
    | .ok bytes =>
      let named := (a.text? .output).getD []
      let output := if named.isEmpty then path.withoutExtension ++ ".sbc" else named
      match fs.write output bytes with
      | .error e => .failed fs (.unwritable output e)
      | .ok fs =>
        { files := fs
          output := path ++ " -> " ++ output ++ " (" ++ Text.ofNat bytes.length ++ " bytes)\n" }

/-- Lists the instructions of a source file. -/
def runDisasm (fs : FileSystem) (path : Text) : Outcome :=
  match loadChunk fs (SourceForm.ofPath path) path with
  | .error e => .failed fs (.build e)
  | .ok c => { files := fs, output := c.listing path.stem }

/-- What the list of targets shows of each, on a host. -/
def targetRow (host t : Target) : List Text :=
  [if t = host then t.name ++ " (host)" else t.name,
    match Build.Backend.ofTarget t with
    | .ok _ => "supported"
    | .error _ => "unsupported",
    (Image.Format.ofTarget t).name, t.defaultLinker]

/-- The width of the widest cell of a column. -/
def columnWidth (rows : List (List Text)) (column : Nat) : Nat :=
  (rows.map fun r => (r.getD column []).length).foldl max 0

/-- A table: every cell but the last of a row is filled up to two blanks after the widest one
of its column. -/
def table (rows : List (List Text)) : Text :=
  rows.flatMap fun row =>
    let cell (c : Text × Nat) : Text :=
      if c.2 + 1 = row.length then c.1 else Text.padRight (columnWidth rows c.2 + 2) 0x20 c.1
    (row.zipIdx.flatMap cell ++ "\n" : Text)

/-- Lists the targets. -/
def targetsText (host : Target) : Text :=
  table (["TARGET", "STATUS", "FORMAT", "LINKER"] :: Target.all.map (targetRow host))

/-- Shows the version. -/
def versionText (env : Environment) : Text :=
  programName ++ " " ++ version ++ " (" ++ env.runtime ++ ", host " ++ env.host.name ++ ")\n"

/-- Shows what commands there are. -/
def helpText : Text :=
  "Ahead-of-time compiler for Sola bytecode\n\nCommands:\n" ++
    Verb.shown.flatMap fun v => ("  " ++ v.name ++ "\n" : Text)

/-- The names of commands that a word begins, one on each line. -/
def namesText (word : Text) : Text :=
  (Verb.shown.filter fun v => word.isPrefixOf v.name).flatMap fun v => (v.name ++ "\n" : Text)

/-- Runs a command that takes one path. -/
def onePath (fs : FileSystem) (a : Arguments) (run : Text → Outcome) : Outcome :=
  match a.others with
  | [path] => run path
  | others => .failed fs (.argumentCount others.length)

/-- Writes the text of a command that takes no argument. -/
def noPath (fs : FileSystem) (v : Verb) (a : Arguments) (output : Text) : Outcome :=
  match a.others with
  | [] => { files := fs, output := output }
  | word :: _ => .failed fs (.unknownCommand word v.path [])

/-- Answers a shell with the names that the last argument begins. -/
def runCandidates (fs : FileSystem) (args : List Text) : Outcome :=
  match args.getLast? with
  | none => .failed fs .noArgument
  | some word => { files := fs, output := namesText word }

/-- Runs a command. -/
def perform (env : Environment) (fs : FileSystem) (v : Verb) (a : Arguments) : Outcome :=
  match v with
  | .build => onePath fs a (runBuild env fs a)
  | .ir => onePath fs a (runIr fs a)
  | .asm => onePath fs a (runAsm fs a)
  | .disasm => onePath fs a (runDisasm fs)
  | .targets => noPath fs v a (targetsText env.host)
  | .version => noPath fs v a (versionText env)
  | .script _ => noPath fs v a (namesText [])
  | .candidates => runCandidates fs a.others
  | .help | .completion => { files := fs, output := helpText }

/-- What arguments say to a command, or to the program alone.  What a shell asks is a command
line itself, so its flags are not read. -/
def readFor : Option Verb → List Text → Except FlagError Arguments
  | some .candidates, args => .ok { others := args }
  | v, args => Arguments.read ((v.map Verb.ownFlags).getD [] ++ commonFlags ++ [.help]) args

/-- Reads the flags of a command, or of the program alone, and runs it. -/
def execute (env : Environment) (fs : FileSystem) (v : Option Verb) (args : List Text) : Outcome :=
  match readFor v args with
  | .error e => .failed fs (.flags e)
  | .ok a =>
    match v with
    | some v =>
      if a.switch? .help = some true then { files := fs, output := helpText }
      else perform env fs v a
    | none => { files := fs, output := helpText }

end Verbs

/-- Runs the program with arguments. -/
def run (env : Environment) (fs : FileSystem) (args : List Text) : Outcome :=
  match firstWord args, Verb.ofArguments? args with
  | none, _ => execute env fs none args
  | some _, some (v, rest) => execute env fs (some v) rest
  | some word, none =>
    .failed fs (.unknownCommand word programName (suggestions Verb.suggested word))

end Command
end StackNative
