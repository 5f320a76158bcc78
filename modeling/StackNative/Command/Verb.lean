import StackNative.Command.BuildFlags

/-!
# The words of commands

**Input.** The arguments of the program.
**Algorithm.** The first argument that is neither a flag nor the value of one
names a command; below some commands the next such argument names another one.
**Results.** The command that arguments name, and the arguments that are left for it.
-/

namespace StackNative
namespace Command

/-- The name of the program. -/
def programName : Text := "solac"

section Names

/-- The shells that complete command lines. -/
inductive Shell where
  | bash
  | zsh
  | fish
  | powershell
  deriving DecidableEq, Repr

/-- The name of a shell. -/
def Shell.name : Shell → Text
  | .bash => "bash"
  | .zsh => "zsh"
  | .fish => "fish"
  | .powershell => "powershell"

/-- All shells, in order. -/
def Shell.all : List Shell := [.bash, .zsh, .fish, .powershell]

/-- The commands. -/
inductive Verb where
  | build
  | ir
  | asm
  | disasm
  | targets
  | version
  | help
  | completion
  /-- What a shell has to know to complete command lines. -/
  | script (shell : Shell)
  /-- What a shell asks when it completes a command line. -/
  | candidates
  deriving DecidableEq, Repr

namespace Verb

/-- The name of a command. -/
def name : Verb → Text
  | .build => "build"
  | .ir => "ir"
  | .asm => "asm"
  | .disasm => "disasm"
  | .targets => "targets"
  | .version => "version"
  | .help => "help"
  | .completion => "completion"
  | .script shell => shell.name
  | .candidates => "__complete"

/-- The words that name a command. -/
def words : Verb → List Text
  | .candidates => [candidates.name, "__completeNoDesc"]
  | v => [v.name]

/-- The words that lead to a command, the name of the program first. -/
def path : Verb → Text
  | .script shell => programName ++ " " ++ completion.name ++ " " ++ shell.name
  | v => programName ++ " " ++ v.name

/-- The commands that are shown, in order. -/
def shown : List Verb :=
  [.build, .ir, .asm, .disasm, .targets, .version, .help, .completion]

/-- The commands right below the program; the one that shells ask is not shown. -/
def top : List Verb := shown ++ [.candidates]

/-- The commands right below a command. -/
def below : Verb → List Verb
  | .completion => Shell.all.map .script
  | _ => []

/-- The names that are suggested; nobody means to ask for help. -/
def suggested : List Text := (shown.filter (· ≠ .help)).map name

/-- The flags of a command alone. -/
def ownFlags : Verb → List Flag
  | .build => BuildFlags.known
  | .ir => [.json]
  | .asm => [.output]
  | .script _ => [.noDescriptions]
  | _ => []

end Verb

/-- The flags of every command. -/
def commonFlags : List Flag := [.verbose, .config]

end Names

section Finding

/-- An argument that is a flag of the program whose value is the argument after it; a flag
that the program does not know counts as one. -/
def takesNext (argument : Text) : Bool :=
  let switch (p : Flag → Bool) : Bool := commonFlags.any fun f => p f && f.isSwitch
  !argument.contains 0x3d &&
    match argument with
    | 0x2d :: 0x2d :: name => !switch fun f => f.name == name
    | [0x2d, c] => !switch fun f => f.letter? == some c
    | _ => false

/-- The first argument that is neither a flag nor the value of one. -/
def firstWord : List Text → Option Text
  | [] => none
  | argument :: rest =>
    if argument == [0x2d, 0x2d] then none
    else if takesNext argument then
      match rest with
      | _ :: next :: rest => firstWord (next :: rest)
      | _ => none
    else if argument.isEmpty || argument.head? == some 0x2d then firstWord rest
    else some argument

/-- The arguments without the first one that is a word and neither a flag nor the value of one. -/
def withoutWord (word : Text) : List Text → List Text
  | [] => []
  | argument :: rest =>
    if argument == [0x2d, 0x2d] then argument :: rest
    else if takesNext argument then
      match rest with
      | [] => [argument]
      | value :: rest => argument :: value :: withoutWord word rest
    else if argument == word then rest
    else argument :: withoutWord word rest

/-- The command among some that arguments name, and the other arguments. -/
def pick (verbs : List Verb) (args : List Text) : Option (Verb × List Text) :=
  match firstWord args with
  | none => none
  | some word =>
    (verbs.find? fun v => v.words.contains word).map fun v => (v, withoutWord word args)

/-- The command that arguments name, and the arguments that are left for it. -/
def Verb.ofArguments? (args : List Text) : Option (Verb × List Text) :=
  (pick Verb.top args).map fun (v, rest) => (pick v.below rest).getD (v, rest)

end Finding

end Command
end StackNative
