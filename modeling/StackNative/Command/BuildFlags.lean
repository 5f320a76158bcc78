import StackNative.Build.Config
import StackNative.Command.Flag

/-!
# Options from flags

**Input.** The flags of a build, and the path of its source.
**Algorithm.** A flag goes before the configuration file, and that before the
defaults of the host.
**Results.** The options of the build, and the name of its output.
-/

namespace StackNative
namespace Command

open Build (Options OptLevel Config)

/-- The flags of a build; an absent one says nothing. -/
structure BuildFlags where
  output : Option Text := none
  target : Option Text := none
  level : Option Text := none
  linker : Option Text := none
  libraries : List Text := []
  libraryPaths : List Text := []
  linkerFlags : List Text := []
  static : Option Bool := none
  keepObject : Option Bool := none
  debug : Option Bool := none
  strip : Option Bool := none
  deriving DecidableEq, Repr

namespace BuildFlags

/-- The flags that a build knows. -/
def known : List Flag :=
  [.output, .target, .level, .linker, .library, .libraryPath, .linkerFlag, .static, .keepObject,
    .debug, .strip]

/-- The flags among arguments. -/
def ofArguments (a : Arguments) : BuildFlags where
  output := a.text? .output
  target := a.text? .target
  level := a.text? .level
  linker := a.text? .linker
  libraries := a.texts .library
  libraryPaths := a.texts .libraryPath
  linkerFlags := a.texts .linkerFlag
  static := a.switch? .static
  keepObject := a.switch? .keepObject
  debug := a.switch? .debug
  strip := a.switch? .strip

end BuildFlags

/-- Why flags and configuration give no options. -/
inductive OptionsError where
  | config (e : Config.LoadError)
  | settings (path : Text) (ps : List Config.Problem)
  | target (e : Target.ReadError)
  | level (e : OptLevel.ReadError)
  deriving DecidableEq, Repr

/-- The text of an error. -/
def OptionsError.message : OptionsError → Text
  | .config e => e.message
  | .settings path ps => path ++ ": " ++ Config.problemsText ps
  | .target e => e.message
  | .level e => e.message

/-- The configuration file of a source: the one that is named, or else the nearest one. -/
def configPath (fs : FileSystem) (named source : Text) : Option Text :=
  if named.isEmpty then Config.find fs source else some named

/-- The options before flags, and whether the configuration names a linker. -/
def baseOptions (host : Target) (fs : FileSystem) (named source : Text) :
    Except OptionsError (Options × Bool) :=
  match configPath fs named source with
  | none => .ok (Options.default host, false)
  | some path =>
    match Config.load fs path with
    | .error e => .error (.config e)
    | .ok c =>
      match c.options host with
      | .error ps => .error (.settings path ps)
      | .ok o => .ok (o, !c.linker.isEmpty)

/-- The options with another target; the linker goes with the target unless it was named. -/
def withTarget (o : Options) (linkerNamed : Bool) (t : Target) : Options :=
  { o with target := t, linker := if linkerNamed then o.linker else t.defaultLinker }

/-- The options with what flags say about all but target and level. -/
def withFlags (o : Options) (f : BuildFlags) : Options :=
  { o with
    linker := f.linker.getD o.linker
    libraries := o.libraries ++ f.libraries
    libraryPaths := o.libraryPaths ++ f.libraryPaths
    linkerFlags := o.linkerFlags ++ f.linkerFlags
    static := f.static.getD o.static
    cleanup := (f.keepObject.map (!·)).getD o.cleanup
    debug := f.debug.getD o.debug
    strip := f.strip.getD o.strip }

/-- The options of a build on a host. -/
def resolve (host : Target) (fs : FileSystem) (f : BuildFlags) (named source : Text) :
    Except OptionsError Options :=
  match baseOptions host fs named source with
  | .error e => .error e
  | .ok (o, linkerNamed) =>
    match f.target.mapM Target.read with
    | .error e => .error (.target e)
    | .ok target =>
      match f.level.mapM OptLevel.read with
      | .error e => .error (.level e)
      | .ok level =>
        let o :=
          match target with
          | none => o
          | some t => withTarget o (linkerNamed || f.linker.isSome) t
        .ok (withFlags { o with level := level.getD o.level } f)

/-- The output of a source unless another one is named. -/
def defaultOutput (source : Text) (t : Target) : Text := source.stem ++ t.executableSuffix

end Command
end StackNative
