import StackNative.Build.Options
import StackNative.FileSystem
import StackNative.Toml.Definitions

/-!
# Configuration files

**Input.** A configuration file, or the path of a source.
**Results.** The settings in the table `build`; the options they ask for; the
nearest configuration file above a source.
-/

namespace StackNative
namespace Build

section Settings

/-- Settings that are a text. -/
inductive TextSetting where
  | target
  | optimization
  | linker
  deriving DecidableEq, Repr

/-- Settings that are a list of texts. -/
inductive ListSetting where
  | libraries
  | libraryPaths
  | linkerFlags
  deriving DecidableEq, Repr

/-- Settings that are on or off. -/
inductive FlagSetting where
  | static
  | keepObject
  | debug
  | strip
  deriving DecidableEq, Repr

/-- A setting by what it takes. -/
inductive Setting where
  | text (s : TextSetting)
  | list (s : ListSetting)
  | flag (s : FlagSetting)
  deriving DecidableEq, Repr

/-- The names of settings. -/
def Setting.names : List (Text × Setting) :=
  [("target", .text .target), ("optimization", .text .optimization), ("linker", .text .linker),
    ("libraries", .list .libraries), ("library_paths", .list .libraryPaths),
    ("linker_flags", .list .linkerFlags), ("static", .flag .static),
    ("keep_object", .flag .keepObject), ("debug", .flag .debug), ("strip", .flag .strip)]

/-- The setting with a name, without regard to case. -/
def Setting.ofName? (name : Text) : Option Setting := names.lookup name.lower

/-- The table that holds the settings, without regard to case. -/
def isBuildTable (name : Text) : Bool := name.lower == ("build" : Text)

end Settings

/-- What a configuration file says; an empty text and an absent flag say nothing. -/
structure Config where
  target : Text := []
  optimization : Text := []
  linker : Text := []
  libraries : List Text := []
  libraryPaths : List Text := []
  linkerFlags : List Text := []
  static : Option Bool := none
  keepObject : Option Bool := none
  debug : Option Bool := none
  strip : Option Bool := none
  deriving DecidableEq, Repr

namespace Config

section Fields

/-- Sets a text. -/
def setText (c : Config) (s : TextSetting) (t : Text) : Config :=
  match s with
  | .target => { c with target := t }
  | .optimization => { c with optimization := t }
  | .linker => { c with linker := t }

/-- The texts of a list. -/
def list (c : Config) (s : ListSetting) : List Text :=
  match s with
  | .libraries => c.libraries
  | .libraryPaths => c.libraryPaths
  | .linkerFlags => c.linkerFlags

/-- Sets a list. -/
def setList (c : Config) (s : ListSetting) (ts : List Text) : Config :=
  match s with
  | .libraries => { c with libraries := ts }
  | .libraryPaths => { c with libraryPaths := ts }
  | .linkerFlags => { c with linkerFlags := ts }

/-- A flag, if something is said about it. -/
def flag (c : Config) (s : FlagSetting) : Option Bool :=
  match s with
  | .static => c.static
  | .keepObject => c.keepObject
  | .debug => c.debug
  | .strip => c.strip

/-- Sets a flag. -/
def setFlag (c : Config) (s : FlagSetting) (b : Bool) : Config :=
  match s with
  | .static => { c with static := some b }
  | .keepObject => { c with keepObject := some b }
  | .debug => { c with debug := some b }
  | .strip => { c with strip := some b }

end Fields

section Values

/-- Why a text is no configuration. -/
inductive Refusal where
  | malformed
  /-- A header goes on below a setting that holds no tables. -/
  | belowSetting
  /-- A setting is given a day or a time. -/
  | momentForSetting
  /-- A complaint points at names where they stand, and one of them is spelled with escapes. -/
  | unplaced
  deriving DecidableEq, Repr

/-- What is wrong with a value that is not of the kind that is asked for. -/
def mismatch : Toml.Value → Refusal
  | .moment form written =>
    if Toml.Moment.isValid form written then .momentForSetting else .malformed
  | _ => .malformed

/-- The text of a value that is one. -/
def text : Toml.Value → Except Refusal Text
  | .text t => .ok t
  | v => .error (mismatch v)

/-- Gives a setting a value, if the value is of its kind. -/
def set (c : Config) (s : Setting) (v : Toml.Value) : Except Refusal Config :=
  match s, v with
  | .text s, .text t => .ok (c.setText s t)
  | .list s, .array vs => (vs.mapM text).map (c.setList s)
  | .flag s, .boolean b => .ok (c.setFlag s b)
  | _, v => .error (mismatch v)

/-- What a header that names a setting does: a flag that nothing was said about is off. -/
def touch (c : Config) (s : Setting) : Config :=
  match s with
  | .flag f => c.setFlag f ((c.flag f).getD false)
  | _ => c

end Values

section Reading

/-- What the lines are about. -/
inductive Scope where
  | top
  | build
  /-- A setting that a header names; no key can follow. -/
  | setting
  /-- A table that has no meaning here. -/
  | foreign
  deriving DecidableEq, Repr

/-- A configuration as far as it is read. -/
structure State where
  config : Config := {}
  scope : Scope := .top
  defined : Toml.Definitions := {}
  /-- Some name had no meaning here. -/
  sawForeign : Bool := false
  /-- Such a name was spelled with escapes. -/
  sawUnplaced : Bool := false

/-- Notes a key without a meaning; it is refused at the end.  The complaint reaches from the
first name of the key to the last one. -/
def State.complain (s : State) (k : Toml.Key) : Except Refusal State :=
  match k with
  | [name] =>
    .ok { s with sawForeign := true, sawUnplaced := s.sawUnplaced || name.escaped }
  | k =>
    if k.head?.any (·.escaped) || k.getLast?.any (·.escaped) then .error .unplaced
    else .ok { s with sawForeign := true }

/-- Notes a table without a meaning; its lines are passed over. -/
def State.enterForeign (s : State) (k : Toml.Key) : Except Refusal State :=
  State.complain { s with scope := .foreign } k

/-- Takes up a key of the table of settings, which is the end of a whole key. -/
def State.setBuild (s : State) (whole k : Toml.Key) (v : Toml.Value) : Except Refusal State :=
  match k with
  | [] => .error .malformed
  | name :: rest =>
    match Setting.ofName? name.text with
    | none => s.complain whole
    | some setting =>
      if rest.isEmpty then (s.config.set setting v).map fun c => { s with config := c }
      else .error .malformed

/-- Takes up a key outside of tables. -/
def State.setTop (s : State) (k : Toml.Key) (v : Toml.Value) : Except Refusal State :=
  match k with
  | [] => .error .malformed
  | name :: rest =>
    if !isBuildTable name.text then s.complain k
    else if !rest.isEmpty then s.setBuild k rest v
    else
      match v with
      | .table entries => entries.foldlM (fun s e => s.setBuild e.1 e.1 e.2) s
      | v => .error (mismatch v)

/-- Takes up a header. -/
def State.enter (s : State) (k : Toml.Key) : Except Refusal State :=
  match k with
  | [] => .error .malformed
  | name :: rest =>
    if !isBuildTable name.text then s.enterForeign k
    else
      match rest with
      | [] => .ok { s with scope := .build }
      | name :: rest =>
        match Setting.ofName? name.text with
        | none => s.enterForeign k
        | some setting =>
          let noItem :=
            match setting with
            | .list l => (s.config.list l).isEmpty
            | _ => false
          if noItem then .error (if name.escaped then .unplaced else .malformed)
          else if rest.isEmpty then
            .ok { s with scope := .setting, config := s.config.touch setting }
          else .error .belowSetting

/-- Takes up a header of an array: it adds an empty item to a list. -/
def State.enterArray (s : State) (k : Toml.Key) (first : Bool) : Except Refusal State :=
  match k with
  | [] => .error .malformed
  | name :: rest =>
    if !isBuildTable name.text then s.enterForeign k
    else
      match rest with
      | [] => .error .malformed
      | name :: rest =>
        match Setting.ofName? name.text with
        | none => s.enterForeign k
        | some setting =>
          if rest.isEmpty then
            match setting with
            | .list l =>
              let before := if first then [] else s.config.list l
              .ok { s with scope := .setting, config := s.config.setList l (before ++ [[]]) }
            | _ => .error .malformed
          else .error .belowSetting

/-- Takes up a line. -/
def State.step (s : State) (l : Toml.Line) : Except Refusal State :=
  match l with
  | .setting k v =>
    match s.scope with
    | .foreign => .ok s
    | scope =>
      match s.defined.admitSetting k v with
      | none => .error .malformed
      | some d =>
        let s := { s with defined := d }
        match scope with
        | .top => s.setTop k v
        | .build => s.setBuild k k v
        | _ => .error .malformed
  | .header k =>
    match s.defined.admitHeader k with
    | none => .error .malformed
    | some d => State.enter { s with defined := d } k
  | .arrayHeader k =>
    match s.defined.admitArrayHeader k with
    | none => .error .malformed
    | some (d, first) => State.enterArray { s with defined := d } k first

/-- The configuration in a text; a name without a meaning is refused after all else. -/
def parse (t : Text) : Except Refusal Config :=
  let reading := Toml.Reading.of t
  match reading.lines.foldlM State.step {} with
  | .error e => .error e
  | .ok s =>
    if !reading.complete then .error .malformed
    else if s.sawUnplaced then .error .unplaced
    else if s.sawForeign then .error .malformed
    else .ok s.config

/-- Why there is no configuration in a file. -/
inductive LoadError where
  | unreadable (e : FileError)
  | refused (r : Refusal)
  deriving DecidableEq, Repr

/-- The text of an error. -/
def LoadError.message : LoadError → Text
  | .unreadable e => "failed to read config file: " ++ e.message
  | .refused _ => "failed to parse config file"

/-- The configuration in the file at a path. -/
def load (fs : FileSystem) (path : Text) : Except LoadError Config :=
  match fs.read path with
  | .error e => .error (.unreadable e)
  | .ok bytes =>
    match parse bytes with
    | .error r => .error (.refused r)
    | .ok c => .ok c

end Reading

section Meaning

/-- A setting that names nothing. -/
inductive Problem where
  | target (e : Target.ReadError)
  | level (e : OptLevel.ReadError)
  deriving DecidableEq, Repr

/-- The text of a problem. -/
def Problem.message : Problem → Text
  | .target e => e.message
  | .level e => e.message

/-- The text of all problems of a configuration. -/
def problemsText (ps : List Problem) : Text :=
  "invalid [build] configuration: " ++ Text.join "; " (ps.map Problem.message)

/-- The target that a configuration asks for, if it asks for one. -/
def target? (c : Config) : Except Target.ReadError (Option Target) :=
  if c.target.isEmpty then .ok none else (Target.read c.target).map some

/-- The level that a configuration asks for, if it asks for one. -/
def level? (c : Config) : Except OptLevel.ReadError (Option OptLevel) :=
  if c.optimization.isEmpty then .ok none else (OptLevel.read c.optimization).map some

/-- The settings that name nothing. -/
def problems (c : Config) : List Problem :=
  (match c.target? with
    | .error e => [.target e]
    | .ok _ => []) ++
  (match c.level? with
    | .error e => [.level e]
    | .ok _ => [])

/-- The default options of a target with what a configuration says about the rest. -/
def applyTo (c : Config) (t : Target) (level : Option OptLevel) : Options :=
  let o := Options.default t
  { o with
    level := level.getD o.level
    linker := if c.linker.isEmpty then o.linker else c.linker
    libraries := c.libraries
    libraryPaths := c.libraryPaths
    linkerFlags := c.linkerFlags
    static := c.static.getD o.static
    cleanup := (c.keepObject.map (!·)).getD o.cleanup
    debug := c.debug.getD o.debug
    strip := c.strip.getD o.strip }

/-- The options that a configuration asks for, on a host, or everything that is wrong with it. -/
def options (host : Target) (c : Config) : Except (List Problem) Options :=
  match c.target?, c.level? with
  | .ok t, .ok level => .ok (c.applyTo (t.getD host) level)
  | _, _ => .error c.problems

end Meaning

section Search

/-- The name of configuration files. -/
def fileName : Text := "solac.toml"

/-- The path of the configuration file in a folder. -/
def pathIn (folder : FileSystem.Place) : Text := Text.pathTo (folder ++ [fileName])

/-- The path of the nearest configuration file, from a folder to the root.  The folder is
given from the inside out. -/
def searchUp (fs : FileSystem) : List Text → Option Text
  | [] => if fs.stands (pathIn []) then some (pathIn []) else none
  | name :: above =>
    let path := pathIn (name :: above).reverse
    if fs.stands path then some path else searchUp fs above

/-- The path of the configuration file nearest to a file or folder that exists. -/
def find (fs : FileSystem) (start : Text) : Option Text :=
  match fs.find start with
  | .error _ => none
  | .ok place =>
    let folder := if fs.entryAt place = some .folder then place else place.dropLast
    if fs.locates start then searchUp fs folder.reverse else none

end Search

end Config
end Build
end StackNative
