import StackNative.Command.BuildFlags

/-!
# Layers of options

**Input.**  The flags of a build, and the configuration that is in force for its source, if
there is one.

**Algorithm.**  Flags go before the configuration, and that before the defaults of the host.

**Results.**
* `InForce`: the configuration of a source, or none.
* `Layered`: options of which each is said by the first layer that says anything.
* `Fault`: what keeps flags and configuration from giving options.
* `resolve_layered`: the options of a build are the layered ones, and there are none exactly if
  there is a fault.
-/

namespace StackNative
namespace Command

open Build (Options OptLevel Config)

section Layers

/-- What a text says: an empty one says nothing. -/
def said (t : Text) : Option Text := if t.isEmpty then none else some t

/-- A value is read from what is said, or is the default if nothing is. -/
def ReadOr {ε α : Type} (read : Text → Except ε α) (given : Option Text) (default a : α) : Prop :=
  match given with
  | some t => read t = .ok a
  | none => a = default

/-- The configuration in force for a source: there is none, or a file that is read. -/
inductive InForce (fs : FileSystem) (named source : Text) : Option Config → Prop
  | absent
      (hpath : configPath fs named source = none) :
      InForce fs named source none
  | loaded
      {path : Text}
      {c : Config}
      (hpath : configPath fs named source = some path)
      (hload : Config.load fs path = .ok c) :
      InForce fs named source (some c)

/-- A configuration names a target or a level that does not exist. -/
def Faulty (c : Config) : Prop :=
  (∃ t e, said c.target = some t ∧ Target.read t = .error e) ∨
    ∃ t e, said c.optimization = some t ∧ OptLevel.read t = .error e

/-- Options of which each is what the flags say, or else what the configuration says, or else
what the defaults of the host are.  Lists go one behind the other.  The linker that nobody names
is the one of the target that is built for in the end. -/
structure Layered (host : Target) (f : BuildFlags) (config : Option Config) (o : Options) :
    Prop where
  target : ReadOr Target.read (f.target <|> config.bind fun c => said c.target) host o.target
  level : ReadOr OptLevel.read (f.level <|> config.bind fun c => said c.optimization)
    (Options.default host).level o.level
  linker : o.linker =
    (f.linker <|> config.bind fun c => said c.linker).getD o.target.defaultLinker
  libraries : o.libraries = config.elim [] (·.libraries) ++ f.libraries
  libraryPaths : o.libraryPaths = config.elim [] (·.libraryPaths) ++ f.libraryPaths
  linkerFlags : o.linkerFlags = config.elim [] (·.linkerFlags) ++ f.linkerFlags
  static : o.static =
    (f.static <|> config.bind (·.static)).getD (Options.default host).static
  cleanup : o.cleanup =
    ((f.keepObject <|> config.bind (·.keepObject)).map (!·)).getD
      (Options.default host).cleanup
  debug : o.debug = (f.debug <|> config.bind (·.debug)).getD (Options.default host).debug
  strip : o.strip = (f.strip <|> config.bind (·.strip)).getD (Options.default host).strip

/-- What keeps flags and a configuration from giving options.  What is wrong with the
configuration goes before what is wrong with a flag, whatever the flags say. -/
inductive Fault (fs : FileSystem) (f : BuildFlags) (named source : Text) : OptionsError → Prop
  | unloaded
      {path : Text}
      {e : Config.LoadError}
      (hpath : configPath fs named source = some path)
      (hload : Config.load fs path = .error e) :
      Fault fs f named source (.config e)
  | settings
      {path : Text}
      {c : Config}
      (hpath : configPath fs named source = some path)
      (hload : Config.load fs path = .ok c)
      (hfaulty : Faulty c) :
      Fault fs f named source (.settings path c.problems)
  | target
      {config : Option Config}
      {t : Text}
      {e : Target.ReadError}
      (hforce : InForce fs named source config)
      (hsound : ∀ c ∈ config, ¬ Faulty c)
      (hflag : f.target = some t)
      (hread : Target.read t = .error e) :
      Fault fs f named source (.target e)
  | level
      {config : Option Config}
      {t : Text}
      {e : OptLevel.ReadError}
      (hforce : InForce fs named source config)
      (hsound : ∀ c ∈ config, ¬ Faulty c)
      (htarget : ∀ t' ∈ f.target, ∃ target, Target.read t' = .ok target)
      (hflag : f.level = some t)
      (hread : OptLevel.read t = .error e) :
      Fault fs f named source (.level e)

end Layers

variable {host : Target} {fs : FileSystem} {f : BuildFlags} {named source : Text}
variable {config config' : Option Config} {o o' : Options} {e e' : OptionsError}

section Readings

variable {ε α : Type} {read : Text → Except ε α} {given : Option Text} {t : Text}

theorem ReadOr.unique
    {default a a' : α}
    (h : ReadOr read given default a)
    (h' : ReadOr read given default a') :
    a = a' := by
  cases given with
  | none =>
      exact Eq.trans h (Eq.symm h')
  | some t =>
      exact Except.ok.inj (Eq.trans (Eq.symm h) h')

theorem not_readOr_of_error
    {default a : α}
    {e : ε}
    (h : read t = .error e) :
    ¬ ReadOr read (some t) default a := by
  intro hread
  cases h.symm.trans hread

/-- A setting that is asked for is read; an empty one is not asked for. -/
theorem readOr_of_asked
    {x : Option α}
    (h : (if t.isEmpty then .ok none else (read t).map some) = Except.ok x)
    (default : α) :
    ReadOr read (said t) default (x.getD default) := by
  by_cases hempty : t.isEmpty = true
  · rw [if_pos hempty] at h
    cases h
    rw [said, if_pos hempty]
    rfl
  · rw [if_neg hempty] at h
    rw [said, if_neg hempty]
    cases hread : read t with
    | error e =>
        rw [hread] at h
        cases h
    | ok a =>
        rw [hread] at h
        cases h
        exact hread

theorem exists_of_asked_error
    {e : ε}
    (h : (if t.isEmpty then .ok none else (read t).map some) = Except.error e) :
    ∃ t', said t = some t' ∧ read t' = .error e := by
  by_cases hempty : t.isEmpty = true
  · rw [if_pos hempty] at h
    cases h
  · rw [if_neg hempty] at h
    refine ⟨t, by rw [said, if_neg hempty], ?_⟩
    cases hread : read t with
    | error e =>
        rw [hread] at h
        cases h
        rfl
    | ok a =>
        rw [hread] at h
        cases h

/-- A flag that is read goes before anything else that is said. -/
theorem readOr_of_flag
    {flag : Option Text}
    {x : Option α}
    {default a : α}
    (h : flag.mapM read = .ok x)
    (hbase : ReadOr read given default a) :
    ReadOr read (flag <|> given) default (x.getD a) := by
  cases flag with
  | none =>
      cases h
      exact hbase
  | some t =>
      cases hread : read t with
      | error e =>
          rw [Option.mapM_some, hread] at h
          cases h
      | ok a =>
          rw [Option.mapM_some, hread] at h
          cases h
          exact hread

theorem exists_of_flag_error
    {flag : Option Text}
    {e : ε}
    (h : flag.mapM read = .error e) :
    ∃ t, flag = some t ∧ read t = .error e := by
  cases flag with
  | none =>
      cases h
  | some t =>
      refine ⟨t, rfl, ?_⟩
      cases hread : read t with
      | error e =>
          rw [Option.mapM_some, hread] at h
          cases h
          rfl
      | ok a =>
          rw [Option.mapM_some, hread] at h
          cases h

end Readings

section Base

theorem faulty_iff
    {c : Config} :
    Faulty c ↔ (∃ e, c.target? = .error e) ∨ ∃ e, c.level? = .error e := by
  have hasked {ε α : Type} (read : Text → Except ε α) (t : Text) :
      (∃ t' e, said t = some t' ∧ read t' = .error e) ↔
        ∃ e, (if t.isEmpty then .ok none else (read t).map some) = Except.error e := by
    constructor
    · rintro ⟨t', e, hsaid, hread⟩
      rw [said] at hsaid
      split at hsaid
      · cases hsaid
      · rename_i hempty
        cases hsaid
        exact ⟨e, by rw [if_neg hempty, hread]; rfl⟩
    · rintro ⟨e, h⟩
      obtain ⟨t', hsaid, hread⟩ := exists_of_asked_error h
      exact ⟨t', e, hsaid, hread⟩
  exact or_congr (hasked Target.read c.target) (hasked OptLevel.read c.optimization)

/-- A configuration without faults gives the options that it says, and no flag does. -/
theorem layered_of_options
    {c : Config}
    (h : c.options host = .ok o) :
    ¬ Faulty c ∧ Layered host {} (some c) o := by
  rw [Config.options] at h
  split at h
  · rename_i t level ht hl
    cases h
    refine ⟨?_, ?_⟩
    · rw [faulty_iff, ht, hl]
      simp
    · have htarget := readOr_of_asked ht host
      have hlevel := readOr_of_asked hl (Options.default host).level
      refine ⟨htarget, hlevel, ?_, ?_, ?_, ?_, ?_, ?_, ?_, ?_⟩
      · show (if c.linker.isEmpty then _ else c.linker) = (said c.linker).getD _
        rw [said]
        split <;> rfl
      all_goals simp [Config.applyTo, Options.default]
  · cases h

theorem faulty_of_options
    {c : Config}
    {ps : List Config.Problem}
    (h : c.options host = .error ps) :
    Faulty c ∧ ps = c.problems := by
  rw [Config.options] at h
  split at h
  · cases h
  · rename_i hnot
    cases h
    refine ⟨faulty_iff.mpr ?_, rfl⟩
    cases ht : c.target? with
    | error e =>
        exact Or.inl ⟨e, rfl⟩
    | ok t =>
        cases hl : c.level? with
        | error e =>
            exact Or.inr ⟨e, rfl⟩
        | ok level =>
            exact absurd hl (hnot t level ht)

theorem layered_default : Layered host {} none (Options.default host) := by
  constructor <;> rfl

/-- The options before flags are those of the configuration in force. -/
theorem layered_of_base
    {linkerNamed : Bool}
    (h : baseOptions host fs named source = .ok (o, linkerNamed)) :
    ∃ config, InForce fs named source config ∧ (∀ c ∈ config, ¬ Faulty c) ∧
      Layered host {} config o ∧ linkerNamed = (config.bind fun c => said c.linker).isSome := by
  rw [baseOptions] at h
  split at h
  · rename_i hpath
    cases h
    exact ⟨none, .absent hpath, by simp, layered_default, rfl⟩
  · rename_i path hpath
    split at h
    · cases h
    · rename_i c hload
      split at h
      · cases h
      · rename_i hoptions
        cases h
        obtain ⟨hsound, hlayered⟩ := layered_of_options hoptions
        refine ⟨some c, .loaded hpath hload, by simpa using hsound, hlayered, ?_⟩
        rw [Option.bind_some, said]
        cases c.linker <;> rfl

theorem fault_of_base
    (f : BuildFlags)
    (h : baseOptions host fs named source = .error e) :
    Fault fs f named source e := by
  rw [baseOptions] at h
  split at h
  · cases h
  · rename_i path hpath
    split at h
    · rename_i hload
      cases h
      exact .unloaded hpath hload
    · rename_i c hload
      split at h
      · rename_i hoptions
        cases h
        obtain ⟨hfaulty, rfl⟩ := faulty_of_options hoptions
        exact .settings hpath hload hfaulty
      · cases h

end Base

section Resolution

theorem getD_or_else
    {α : Type}
    (flag base : Option α)
    (default : α) :
    (flag <|> base).getD default = flag.getD (base.getD default) := by
  cases flag <;> rfl

/-- The options with what the flags say, behind those of a configuration.  The target comes
first, for it decides on the linker that nobody names. -/
def flagged (f : BuildFlags) (linkerNamed : Bool) (target : Option Target)
    (level : Option OptLevel) (o : Options) : Options :=
  let o :=
    match target with
    | none => o
    | some t => withTarget o (linkerNamed || f.linker.isSome) t
  withFlags { o with level := level.getD o.level } f

/-- Flags that are read go before the options of the configuration. -/
theorem Layered.flagged
    {target : Option Target}
    {level : Option OptLevel}
    (h : Layered host {} config o)
    (htarget : f.target.mapM Target.read = .ok target)
    (hlevel : f.level.mapM OptLevel.read = .ok level) :
    Layered host f config
      (flagged f (config.bind fun c => said c.linker).isSome target level o) := by
  constructor
  case target =>
    have hread := readOr_of_flag htarget h.target
    cases target <;> exact hread
  case level =>
    have hread := readOr_of_flag hlevel h.level
    cases target <;> exact hread
  case linker =>
    have hbase : o.linker = (config.bind fun c => said c.linker).getD o.target.defaultLinker :=
      h.linker
    rw [getD_or_else]
    cases hflag : f.linker with
    | some l =>
        cases target <;> simp [Command.flagged, withFlags, hflag]
    | none =>
        cases target with
        | none =>
            simpa [Command.flagged, withFlags, hflag] using hbase
        | some t =>
            cases hnamed : config.bind fun c => said c.linker with
            | none =>
                simp [Command.flagged, withFlags, withTarget, hflag]
            | some l =>
                rw [hnamed] at hbase
                simpa [Command.flagged, withFlags, withTarget, hflag] using hbase
  case libraries =>
    have hbase : o.libraries = config.elim [] (·.libraries) ++ [] := h.libraries
    cases target <;> simp [Command.flagged, withFlags, withTarget, hbase]
  case libraryPaths =>
    have hbase : o.libraryPaths = config.elim [] (·.libraryPaths) ++ [] := h.libraryPaths
    cases target <;> simp [Command.flagged, withFlags, withTarget, hbase]
  case linkerFlags =>
    have hbase : o.linkerFlags = config.elim [] (·.linkerFlags) ++ [] := h.linkerFlags
    cases target <;> simp [Command.flagged, withFlags, withTarget, hbase]
  case static =>
    have hbase : o.static =
        (config.bind (·.static)).getD (Options.default host).static := h.static
    rw [getD_or_else, ← hbase]
    cases target <;> rfl
  case cleanup =>
    have hbase : o.cleanup = ((config.bind (·.keepObject)).map (!·)).getD
        (Options.default host).cleanup := h.cleanup
    have hlayers : (f.keepObject <|> config.bind (·.keepObject)).map (!·) =
        (f.keepObject.map (!·) <|> (config.bind (·.keepObject)).map (!·)) := by
      cases f.keepObject <;> rfl
    rw [hlayers, getD_or_else, ← hbase]
    cases target <;> rfl
  case debug =>
    have hbase : o.debug =
        (config.bind (·.debug)).getD (Options.default host).debug := h.debug
    rw [getD_or_else, ← hbase]
    cases target <;> rfl
  case strip =>
    have hbase : o.strip =
        (config.bind (·.strip)).getD (Options.default host).strip := h.strip
    rw [getD_or_else, ← hbase]
    cases target <;> rfl

theorem layered_of_resolve
    (h : resolve host fs f named source = .ok o) :
    ∃ config, InForce fs named source config ∧ (∀ c ∈ config, ¬ Faulty c) ∧
      Layered host f config o := by
  rw [resolve] at h
  split at h
  · cases h
  · rename_i base linkerNamed hbase
    obtain ⟨config, hforce, hsound, hlayered, rfl⟩ := layered_of_base hbase
    split at h
    · cases h
    · rename_i target htarget
      split at h
      · cases h
      · rename_i level hlevel
        cases h
        exact ⟨config, hforce, hsound, hlayered.flagged htarget hlevel⟩

theorem fault_of_resolve
    (h : resolve host fs f named source = .error e) :
    Fault fs f named source e := by
  rw [resolve] at h
  split at h
  · rename_i hbase
    cases h
    exact fault_of_base f hbase
  · rename_i base linkerNamed hbase
    obtain ⟨config, hforce, hsound, -, -⟩ := layered_of_base hbase
    split at h
    · rename_i htarget
      cases h
      obtain ⟨t, hflag, hread⟩ := exists_of_flag_error htarget
      exact .target hforce hsound hflag hread
    · rename_i target htarget
      split at h
      · rename_i hlevel
        cases h
        obtain ⟨t, hflag, hread⟩ := exists_of_flag_error hlevel
        refine .level hforce hsound (fun t' ht' => ?_) hflag hread
        have hgiven := readOr_of_flag htarget (show ReadOr Target.read none host _ from rfl)
        rw [Option.mem_def.mp ht'] at hgiven
        exact ⟨_, hgiven⟩
      · cases h

end Resolution

section Uniqueness

theorem InForce.unique
    (h : InForce fs named source config)
    (h' : InForce fs named source config') :
    config = config' := by
  cases h with
  | absent hpath =>
      cases h' with
      | absent _ =>
          rfl
      | loaded hpath' _ =>
          cases hpath.symm.trans hpath'
  | loaded hpath hload =>
      cases h' with
      | absent hpath' =>
          cases hpath.symm.trans hpath'
      | loaded hpath' hload' =>
          cases hpath.symm.trans hpath'
          cases hload.symm.trans hload'
          rfl

/-- The layers say everything about the options. -/
theorem Layered.unique
    (h : Layered host f config o)
    (h' : Layered host f config o') :
    o = o' := by
  have htarget : o.target = o'.target := h.target.unique h'.target
  have hlevel : o.level = o'.level := h.level.unique h'.level
  have hlinker : o.linker = o'.linker := by rw [h.linker, h'.linker, htarget]
  obtain ⟨_, _, _, _, _, _, _, _, _, _⟩ := o
  obtain ⟨_, _, _, _, _, _, _, _, _, _⟩ := o'
  simp only [Options.mk.injEq]
  exact ⟨htarget, hlevel, hlinker, h.libraries.trans h'.libraries.symm,
    h.libraryPaths.trans h'.libraryPaths.symm, h.linkerFlags.trans h'.linkerFlags.symm,
    h.static.trans h'.static.symm, h.cleanup.trans h'.cleanup.symm,
    h.debug.trans h'.debug.symm, h.strip.trans h'.strip.symm⟩

/-- There are no layered options where there is a fault. -/
theorem Fault.not_layered
    (h : Fault fs f named source e)
    (hforce : InForce fs named source config)
    (hsound : ∀ c ∈ config, ¬ Faulty c) :
    ¬ Layered host f config o := by
  intro hlayered
  cases h with
  | unloaded hpath hload =>
      cases hforce with
      | absent hnone =>
          cases hpath.symm.trans hnone
      | loaded hpath' hload' =>
          cases hpath.symm.trans hpath'
          cases hload.symm.trans hload'
  | settings hpath hload hfaulty =>
      cases hforce.unique (.loaded hpath hload)
      exact hsound _ rfl hfaulty
  | target _ _ hflag hread =>
      have htarget := hlayered.target
      rw [hflag] at htarget
      exact not_readOr_of_error hread htarget
  | level _ _ _ hflag hread =>
      have hlevel := hlayered.level
      rw [hflag] at hlevel
      exact not_readOr_of_error hread hlevel

end Uniqueness

section Outcomes

theorem options_of_faulty
    {c : Config}
    (h : Faulty c) :
    c.options host = .error c.problems := by
  cases hoptions : c.options host with
  | ok o =>
      exact absurd h (layered_of_options hoptions).1
  | error ps =>
      rw [(faulty_of_options hoptions).2]

theorem exists_base
    (host : Target)
    (hforce : InForce fs named source config)
    (hsound : ∀ c ∈ config, ¬ Faulty c) :
    ∃ o linkerNamed, baseOptions host fs named source = .ok (o, linkerNamed) := by
  rw [baseOptions]
  cases hforce with
  | absent hpath =>
      rw [hpath]
      exact ⟨_, _, rfl⟩
  | @loaded path c hpath hload =>
      cases hoptions : c.options host with
      | ok o =>
          exact ⟨o, !c.linker.isEmpty, by simp [hpath, hload, hoptions]⟩
      | error ps =>
          exact absurd (faulty_of_options hoptions).1 (hsound c rfl)

theorem resolve_of_fault
    (h : Fault fs f named source e) :
    resolve host fs f named source = .error e := by
  rw [resolve]
  cases h with
  | unloaded hpath hload =>
      simp [baseOptions, hpath, hload]
  | settings hpath hload hfaulty =>
      simp [baseOptions, hpath, hload, options_of_faulty hfaulty]
  | @target _ t e hforce hsound hflag hread =>
      obtain ⟨o, linkerNamed, hbase⟩ := exists_base host hforce hsound
      have htarget : f.target.mapM Target.read = .error e := by
        rw [hflag, Option.mapM_some, hread]
        rfl
      simp [hbase, htarget]
  | @level _ t e hforce hsound htarget hflag hread =>
      obtain ⟨o, linkerNamed, hbase⟩ := exists_base host hforce hsound
      have hlevel : f.level.mapM OptLevel.read = .error e := by
        rw [hflag, Option.mapM_some, hread]
        rfl
      have hsome : ∃ target, f.target.mapM Target.read = .ok target := by
        cases hgiven : f.target with
        | none =>
            exact ⟨none, rfl⟩
        | some t' =>
            obtain ⟨target, hread'⟩ := htarget t' hgiven
            exact ⟨some target, by rw [Option.mapM_some, hread']; rfl⟩
      obtain ⟨target, htarget⟩ := hsome
      simp [hbase, htarget, hlevel]

theorem resolve_of_layered
    (hforce : InForce fs named source config)
    (hsound : ∀ c ∈ config, ¬ Faulty c)
    (hlayered : Layered host f config o) :
    resolve host fs f named source = .ok o := by
  cases hresolve : resolve host fs f named source with
  | ok o' =>
      obtain ⟨config', hforce', -, hlayered'⟩ := layered_of_resolve hresolve
      cases hforce.unique hforce'
      rw [hlayered.unique hlayered']
  | error e =>
      exact absurd hlayered ((fault_of_resolve hresolve).not_layered hforce hsound)

/-- Something is wrong with the configuration, whatever the flags say. -/
def ConfigFails (fs : FileSystem) (named source : Text) : Prop :=
  ∃ path, configPath fs named source = some path ∧
    ((∃ e, Config.load fs path = .error e) ∨ ∃ c, Config.load fs path = .ok c ∧ Faulty c)

theorem configFails_or
    (fs : FileSystem)
    (named source : Text) :
    ConfigFails fs named source ∨
      ∃ config, InForce fs named source config ∧ ∀ c ∈ config, ¬ Faulty c := by
  cases hpath : configPath fs named source with
  | none =>
      exact Or.inr ⟨none, .absent hpath, by simp⟩
  | some path =>
      cases hload : Config.load fs path with
      | error e =>
          exact Or.inl ⟨path, hpath, Or.inl ⟨e, hload⟩⟩
      | ok c =>
          by_cases hfaulty : Faulty c
          · exact Or.inl ⟨path, hpath, Or.inr ⟨c, hload, hfaulty⟩⟩
          · exact Or.inr ⟨some c, .loaded hpath hload, by simpa using hfaulty⟩

theorem exists_fault_of_configFails
    (f : BuildFlags)
    (h : ConfigFails fs named source) :
    ∃ e, Fault fs f named source e := by
  obtain ⟨path, hpath, ⟨e, hload⟩ | ⟨c, hload, hfaulty⟩⟩ := h
  · exact ⟨_, .unloaded hpath hload⟩
  · exact ⟨_, .settings hpath hload hfaulty⟩

/-- There is a fault exactly if something is wrong with the configuration or with a flag. -/
theorem exists_fault_iff :
    (∃ e, Fault fs f named source e) ↔
      ConfigFails fs named source ∨ (∃ t e, f.target = some t ∧ Target.read t = .error e) ∨
        ∃ t e, f.level = some t ∧ OptLevel.read t = .error e := by
  constructor
  · rintro ⟨_, h⟩
    cases h with
    | unloaded hpath hload =>
        exact Or.inl ⟨_, hpath, Or.inl ⟨_, hload⟩⟩
    | settings hpath hload hfaulty =>
        exact Or.inl ⟨_, hpath, Or.inr ⟨_, hload, hfaulty⟩⟩
    | target _ _ hflag hread =>
        exact Or.inr (Or.inl ⟨_, _, hflag, hread⟩)
    | level _ _ _ hflag hread =>
        exact Or.inr (Or.inr ⟨_, _, hflag, hread⟩)
  · rintro (hconfig | hflags)
    · exact exists_fault_of_configFails f hconfig
    · -- A flag that cannot be read is only looked at behind a sound configuration.
      rcases configFails_or fs named source with hconfig | ⟨config, hforce, hsound⟩
      · exact exists_fault_of_configFails f hconfig
      · by_cases htarget : ∃ t e, f.target = some t ∧ Target.read t = .error e
        · obtain ⟨t, e, hflag, hread⟩ := htarget
          exact ⟨_, .target hforce hsound hflag hread⟩
        · obtain ⟨t, e, hflag, hread⟩ := hflags.resolve_left htarget
          refine ⟨_, .level hforce hsound (fun t' ht' => ?_) hflag hread⟩
          cases hread' : Target.read t' with
          | ok target =>
              exact ⟨target, rfl⟩
          | error e' =>
              exact absurd ⟨t', e', ht', hread'⟩ htarget

/-- The options of a build, for every host, all flags and all configurations.

A build has options exactly if the configuration in force has no fault and every flag that is
given can be read, and then they are the layered ones.  Otherwise it has the error of the first
fault: that of the configuration, then that of the target, then that of the level. -/
theorem resolve_layered
    (host : Target)
    (fs : FileSystem)
    (f : BuildFlags)
    (named source : Text) :
    (∀ o, resolve host fs f named source = .ok o ↔
      ∃ config, InForce fs named source config ∧ (∀ c ∈ config, ¬ Faulty c) ∧
        Layered host f config o) ∧
    (∀ e, resolve host fs f named source = .error e ↔ Fault fs f named source e) ∧
    ((∃ e, resolve host fs f named source = .error e) ↔
      ConfigFails fs named source ∨ (∃ t e, f.target = some t ∧ Target.read t = .error e) ∨
        ∃ t e, f.level = some t ∧ OptLevel.read t = .error e) := by
  refine ⟨fun o => ⟨layered_of_resolve, ?_⟩, fun e => ⟨fault_of_resolve, resolve_of_fault⟩, ?_⟩
  · rintro ⟨config, hforce, hsound, hlayered⟩
    exact resolve_of_layered hforce hsound hlayered
  · rw [← exists_fault_iff]
    exact exists_congr fun e => ⟨fault_of_resolve, resolve_of_fault⟩

/-- A source with a configuration beside it. -/
def configured : FileSystem :=
  .ofFiles [] [("main.sasm", []),
    ("solac.toml", "[build]\ntarget = \"x86_64-windows\"\nlibraries = [\"c\"]\n")]

/-- Flags that name another target and one more library. -/
def override : BuildFlags := { target := some "x86_64-macos", libraries := ["m"] }

/-- The linker that nobody names goes with the target of the flags, not with that of the
configuration or of the host. -/
theorem override_resolved :
    resolve (.ofMachine "amd64" "linux") configured override [] "main.sasm" = .ok
      { Options.default (.ofMachine "amd64" "linux") with
        target := ⟨.x86_64, .macos⟩
        linker := "clang"
        libraries := ["c", "m"] } := by
  have hpath : configPath configured [] "main.sasm" = some "/solac.toml" := by decide
  have hload : Config.load configured "/solac.toml" =
      .ok { target := "x86_64-windows", libraries := ["c"] } := rfl
  refine ((resolve_layered _ configured override [] "main.sasm").1 _).mpr
    ⟨_, .loaded hpath hload, ?_, ⟨?_, ?_, ?_, ?_, ?_, ?_, ?_, ?_, ?_, ?_⟩⟩
  · rintro c ⟨⟩ (⟨t, e, hsaid, hread⟩ | ⟨t, e, hsaid, -⟩)
    · cases hsaid
      have hok : Target.read "x86_64-windows" = .ok ⟨.x86_64, .windows⟩ := rfl
      cases hok.symm.trans hread
    · cases hsaid
  all_goals rfl

end Outcomes

end Command
end StackNative
