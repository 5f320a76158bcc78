import StackNative.Text.Quoted

/-!
# Flags

**Input.** The arguments of a command, and the flags it knows.
**Algorithm.** Arguments are read in order.  A long flag stands after two dashes; after one
dash stand short flags, one letter each.  A flag that takes a text finds it after an
equals sign, in the rest of its argument, or in the next argument.  Two dashes alone end the flags.
**Results.** The flags that were given, in order, and the other arguments.
-/

namespace StackNative
namespace Command

/-- The flags of all commands. -/
inductive Flag where
  | output
  | target
  | level
  | linker
  | library
  | libraryPath
  | linkerFlag
  | static
  | keepObject
  | debug
  | strip
  | json
  | verbose
  | config
  | noDescriptions
  | help
  deriving DecidableEq, Repr

namespace Flag

/-- The long name of a flag. -/
def name : Flag → Text
  | .output => "output"
  | .target => "target"
  | .level => "opt"
  | .linker => "linker"
  | .library => "lib"
  | .libraryPath => "lib-path"
  | .linkerFlag => "linker-flag"
  | .static => "static"
  | .keepObject => "keep-object"
  | .debug => "debug"
  | .strip => "strip"
  | .json => "json"
  | .verbose => "verbose"
  | .config => "config"
  | .noDescriptions => "no-descriptions"
  | .help => "help"

/-- The letter of a flag. -/
def letter? : Flag → Option UInt8
  | .output => some 0x6f
  | .level => some 0x4f
  | .library => some 0x6c
  | .libraryPath => some 0x4c
  | .linkerFlag => some 0x58
  | .verbose => some 0x76
  | .help => some 0x68
  | _ => none

/-- A flag that is on or off and needs no text. -/
def isSwitch : Flag → Bool
  | .static | .keepObject | .debug | .strip | .json | .verbose | .noDescriptions | .help => true
  | _ => false

/-- A flag as messages show it. -/
def label (f : Flag) : Text :=
  match f.letter? with
  | some c => [0x2d, c] ++ ", --" ++ f.name
  | none => "--" ++ f.name

end Flag

/-- Why arguments cannot be read. -/
inductive FlagError where
  | badForm (argument : Text)
  | unknown (name : Text)
  | unknownLetter (letter : UInt8) (letters : Text)
  | noValue (argument : Text)
  | noValueForLetter (letter : UInt8) (letters : Text)
  | notBoolean (flag : Flag) (value : Text)
  | helpWanted
  deriving DecidableEq, Repr

/-- The text of an error. -/
def FlagError.message : FlagError → Text
  | .badForm argument => "bad flag syntax: " ++ argument
  | .unknown name => "unknown flag: --" ++ name
  | .unknownLetter letter letters =>
    "unknown shorthand flag: " ++ Text.quotedByte letter ++ " in -" ++ letters
  | .noValue argument => "flag needs an argument: " ++ argument
  | .noValueForLetter letter letters =>
    "flag needs an argument: " ++ Text.quotedByte letter ++ " in -" ++ letters
  | .notBoolean flag value =>
    "invalid argument " ++ Text.quoted value ++ " for " ++ Text.quoted flag.label ++
      " flag: strconv.ParseBool: parsing " ++ Text.quoted value ++ ": invalid syntax"
  | .helpWanted => "pflag: help requested"

/-- A flag that was given, with its value. -/
inductive Given where
  | text (flag : Flag) (value : Text)
  | switch (flag : Flag) (on : Bool)
  deriving DecidableEq, Repr

/-- The words for on and off. -/
def booleans : List (Text × Bool) :=
  [("1", true), ("t", true), ("T", true), ("true", true), ("TRUE", true), ("True", true),
    ("0", false), ("f", false), ("F", false), ("false", false), ("FALSE", false),
    ("False", false)]

/-- Gives a flag a value. -/
def Flag.give (f : Flag) (value : Text) : Except FlagError Given :=
  if f.isSwitch then
    match booleans.lookup value with
    | some on => .ok (.switch f on)
    | none => .error (.notBoolean f value)
  else .ok (.text f value)

/-- What arguments say. -/
structure Arguments where
  given : List Given := []
  others : List Text := []
  deriving DecidableEq, Repr

namespace Arguments

/-- The arguments with flags that were given before. -/
def after (gs : List Given) (a : Arguments) : Arguments := { a with given := gs ++ a.given }

/-- The text that a flag was given last. -/
def text? (a : Arguments) (f : Flag) : Option Text :=
  (a.given.filterMap fun
    | .text g value => if g = f then some value else none
    | .switch .. => none).getLast?

/-- All texts that a flag was given. -/
def texts (a : Arguments) (f : Flag) : List Text :=
  a.given.filterMap fun
    | .text g value => if g = f then some value else none
    | .switch .. => none

/-- What a switch was set to last. -/
def switch? (a : Arguments) (f : Flag) : Option Bool :=
  (a.given.filterMap fun
    | .switch g on => if g = f then some on else none
    | .text .. => none).getLast?

section Reading

/-- What the letters after a dash say: the flags they give, and the flag at their end that
still needs a value. -/
structure Letters where
  given : List Given := []
  open? : Option (Flag × UInt8) := none

/-- Letters that start so are for test runs and say nothing. -/
def testStart : Text := "test."

/-- Reads the letters after a dash. -/
def readLetters (flags : List Flag) : Text → Except FlagError Letters
  | [] => .ok {}
  | c :: rest =>
    if testStart.isPrefixOf (c :: rest) then .ok {}
    else
      match flags.find? fun f => f.letter? == some c with
      | none => .error (if c == 0x68 then .helpWanted else .unknownLetter c (c :: rest))
      | some f =>
        if rest.head? == some 0x3d && 1 < rest.length then
          (f.give (rest.drop 1)).map fun g => ⟨[g], none⟩
        else if f.isSwitch then
          (readLetters flags rest).map fun l => { l with given := .switch f true :: l.given }
        else if rest.isEmpty then .ok ⟨[], some (f, c)⟩
        else (f.give rest).map fun g => ⟨[g], none⟩

/-- What a long flag says by itself. -/
inductive Long where
  | given (g : Given)
  /-- The value is in the next argument. -/
  | needsValue (f : Flag)

/-- Reads a long flag. -/
def readLong (flags : List Flag) (argument : Text) : Except FlagError Long :=
  let body := argument.drop 2
  if body.head? == some 0x2d || body.head? == some 0x3d then .error (.badForm argument)
  else
    let name := body.takeWhile (· != 0x3d)
    match flags.find? fun f => f.name == name with
    | none => .error (if name == Flag.help.name then .helpWanted else .unknown name)
    | some f =>
      if name.length < body.length then (f.give (body.drop (name.length + 1))).map .given
      else if f.isSwitch then .ok (.given (.switch f true))
      else .ok (.needsValue f)

/-- Reads arguments. -/
def read (flags : List Flag) : List Text → Except FlagError Arguments
  | [] => .ok {}
  | argument :: rest =>
    if argument.length < 2 || argument.head? != some 0x2d then
      (read flags rest).map fun a => { a with others := argument :: a.others }
    else if argument == [0x2d, 0x2d] then .ok { others := rest }
    else if argument[1]? == some 0x2d then
      match readLong flags argument with
      | .error e => .error e
      | .ok (.given g) => (read flags rest).map (after [g])
      | .ok (.needsValue f) =>
        match rest with
        | [] => .error (.noValue argument)
        | value :: rest =>
          match f.give value with
          | .error e => .error e
          | .ok g => (read flags rest).map (after [g])
    else
      match readLetters flags (argument.drop 1) with
      | .error e => .error e
      | .ok ⟨gs, none⟩ => (read flags rest).map (after gs)
      | .ok ⟨gs, some (f, c)⟩ =>
        match rest with
        | [] => .error (.noValueForLetter c [c])
        | value :: rest =>
          match f.give value with
          | .error e => .error e
          | .ok g => (read flags rest).map (after (gs ++ [g]))

end Reading

end Arguments
end Command
end StackNative
