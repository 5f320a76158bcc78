import StackNative.Command.Run

/-!
# The program

The program takes a picture of the files that its arguments name and of the
configuration files above them, runs the command on that picture, and carries
the changes out.  No linker is at hand, so a build ends with its object file.
-/

namespace StackNative
namespace Program

/-- A text as a string; bytes that are not UTF-8 make it empty. -/
def shown (t : Text) : String := (String.fromUTF8? ⟨t.toArray⟩).getD ""

/-- The paths that an argument may name: all of it, and what follows an equals sign. -/
def paths (argument : Text) : List Text := [argument, (argument.dropWhile (· != 0x3d)).drop 1]

/-- The places that have to be known to run a command: those that arguments name, the folders
on the way to them, and the configuration files in those. -/
def wanted (here : FileSystem.Place) (args : List Text) :
    List FileSystem.Place :=
  let named := (args.flatMap paths).map (Text.placeFrom here)
  let folders := (here :: named).flatMap fun p => p :: FileSystem.above p
  (folders ++ folders.map (· ++ [Build.Config.fileName]) ++ [[Build.Config.fileName]]).eraseDups

/-- Adds what stands at a place to a picture. -/
def look (fs : FileSystem) (p : FileSystem.Place) : IO FileSystem := do
  match ← (IO.FS.readBinFile (shown (Text.pathTo p))).toBaseIO with
  | .ok bytes => return fs.put p bytes.toList
  | .error (.inappropriateType ..) => return { fs with folders := p :: fs.folders }
  | .error _ => return fs

/-- Carries out what a command did to a picture. -/
def carryOut (before after : FileSystem) : IO Unit := do
  for (p, bytes) in after.changedSince before do
    IO.FS.writeBinFile (shown (Text.pathTo p)) ⟨bytes.toArray⟩
  for (p, _) in before.files do
    if (after.entryAt p).isNone then
      IO.FS.removeFile (shown (Text.pathTo p))

end Program
end StackNative

open StackNative in
/-- Runs a command on the files around it. -/
def main (arguments : List String) : IO UInt32 := do
  let args := arguments.map Text.ofString
  let here := Text.placeFrom [] (Text.ofString (← IO.currentDir).toString)
  let before ← (Program.wanted here args).foldlM Program.look { here := here }
  let outcome := Command.run ⟨.ofPrograms [], "native", "amd64", "linux"⟩ before args
  Program.carryOut before outcome.files
  for event in outcome.log do
    IO.eprintln (Program.shown event.message)
  (← IO.getStdout).write ⟨outcome.output.toArray⟩
  match outcome.error with
  | none => return 0
  | some e =>
    IO.eprintln (Program.shown ("error: " ++ e.message))
    return 1
