import StackNative.Command.BuildFlags
import StackNative.Proofs.Build.Effects

/-!
# Outputs that hit their source

**Input.**  The name of a source in the working folder, and the target of a build.

**Algorithm.**  The output has the stem of the source and what executables of the target end
with.  The object file has the name of the output with an extension behind it.

**Results.**
* `defaultOutput_eq_self_iff`: the sources that the linker overwrites.
* `objectPath_defaultOutput_eq_iff`: the sources that the object file overwrites.
* `defaultOutput_hits_iff`: both, for every name and target.
* `source_unreadable_of_hit`: a source that the object file overwrites is lost.
-/

namespace StackNative
namespace Command

open Build (Compiler Linker objectPath)
open Text (period slash)

variable {source : Text}

/-- The sources that their own output replaces.  Where executables have an extension, they are
those that have it; elsewhere they are those without an extension, and a period in front of all
else starts none. -/
theorem defaultOutput_eq_self_iff
    (hne : source ≠ [])
    (hslash : slash ∉ source)
    (t : Target) :
    defaultOutput source t = source ↔
      if t.os = .windows then ∃ front, front ≠ [] ∧ source = front ++ (".exe" : Text)
      else period ∉ source.tail := by
  by_cases hos : t.os = .windows
  · have hsuffix : t.executableSuffix = period :: ("exe" : Text) := by
      rw [Target.executableSuffix, if_pos hos]
      decide
    have hperiod : period ∉ ("exe" : Text) := by decide
    rw [defaultOutput, hsuffix, Text.stem_append_eq_iff hne hslash, if_pos hos]
    exact and_iff_right hperiod
  · have hsuffix : t.executableSuffix = [] := if_neg hos
    rw [defaultOutput, hsuffix, List.append_nil, Text.stem_eq_self_iff hne hslash, if_neg hos]

/-- The sources that the object file replaces.  Where executables have an extension, the name of
the object file has two of them, and no source gives that. -/
theorem objectPath_defaultOutput_eq_iff
    (hne : source ≠ [])
    (hslash : slash ∉ source)
    (t : Target) :
    objectPath (defaultOutput source t) = source ↔
      t.os ≠ .windows ∧ ∃ front, front ≠ [] ∧ source = front ++ (".o" : Text) := by
  by_cases hos : t.os = .windows
  · have hpath : objectPath (defaultOutput source t) =
        source.stem ++ period :: ("exe.o" : Text) := by
      rw [objectPath, defaultOutput, Target.executableSuffix, if_pos hos, List.append_assoc]
      rfl
    have hperiod : period ∈ ("exe.o" : Text) := by decide
    rw [hpath, Text.stem_append_eq_iff hne hslash]
    simp [hperiod, hos]
  · have hpath : objectPath (defaultOutput source t) = source.stem ++ period :: ("o" : Text) := by
      rw [objectPath, defaultOutput, Target.executableSuffix, if_neg hos, List.append_nil]
      rfl
    have hperiod : period ∉ ("o" : Text) := by decide
    rw [hpath, Text.stem_append_eq_iff hne hslash]
    exact and_congr_left fun _ => iff_of_true hperiod hos

/-- A source that the object file replaces is lost in a build that tidies up. -/
theorem source_unreadable_of_hit
    {t : Target}
    {c : Compiler}
    {run : Linker}
    {fs : FileSystem}
    (hhit : objectPath (defaultOutput source t) = source)
    (hcleanup : c.options.cleanup = true)
    (hbuilt : (c.compileFile run fs source (defaultOutput source t)).error = none) :
    ∃ e, (c.compileFile run fs source (defaultOutput source t)).files.read source = .error e := by
  cases himage : c.imageAt fs source with
  | error e =>
      obtain ⟨events, hbuild⟩ := Compiler.exists_compileFile c fs source (defaultOutput source t)
      rw [hbuild run, himage] at hbuilt
      cases hbuilt
  | ok image =>
      obtain ⟨herror, hfiles⟩ := Compiler.compileFile_of_image run (defaultOutput source t) himage
      have hlost := Compiler.object_unreadable_of_linked hcleanup (herror.symm.trans hbuilt)
      rwa [hhit, ← hfiles] at hlost

/-- The sources that a build without a named output replaces, for every name and target: those
that the linker overwrites, and those that the object file overwrites.  The latter are lost: a
build that tidies up and succeeds leaves nothing to read in place of its source. -/
theorem defaultOutput_hits_iff
    (source : Text)
    (t : Target)
    (hne : source ≠ [])
    (hslash : slash ∉ source) :
    (defaultOutput source t = source ↔
      if t.os = .windows then ∃ front, front ≠ [] ∧ source = front ++ (".exe" : Text)
      else period ∉ source.tail) ∧
    (objectPath (defaultOutput source t) = source ↔
      t.os ≠ .windows ∧ ∃ front, front ≠ [] ∧ source = front ++ (".o" : Text)) ∧
    ∀ (c : Compiler) (run : Linker) (fs : FileSystem),
      objectPath (defaultOutput source t) = source →
      c.options.cleanup = true →
      (c.compileFile run fs source (defaultOutput source t)).error = none →
      ∃ e, (c.compileFile run fs source (defaultOutput source t)).files.read source = .error e :=
  ⟨defaultOutput_eq_self_iff hne hslash t, objectPath_defaultOutput_eq_iff hne hslash t,
    fun _ _ _ hhit hcleanup hbuilt => source_unreadable_of_hit hhit hcleanup hbuilt⟩

/-- A source with the extension of object files is hit, and one with another extension is not. -/
theorem object_hit_assembly_spared :
    objectPath (defaultOutput "prog.o" ⟨.x86_64, .linux⟩) = "prog.o" ∧
      defaultOutput "prog.sasm" ⟨.x86_64, .linux⟩ ≠ "prog.sasm" ∧
      objectPath (defaultOutput "prog.sasm" ⟨.x86_64, .linux⟩) ≠ "prog.sasm" := by
  have hobject := defaultOutput_hits_iff "prog.o" ⟨.x86_64, .linux⟩ (by decide) (by decide)
  have hassembly := defaultOutput_hits_iff "prog.sasm" ⟨.x86_64, .linux⟩ (by decide) (by decide)
  have hperiod : period ∈ ("prog.sasm" : Text).tail := by decide
  refine ⟨hobject.2.1.mpr ⟨by decide, "prog", by decide, by decide⟩, fun h => ?_, fun h => ?_⟩
  · exact hassembly.1.mp h hperiod
  · obtain ⟨-, front, -, hfront⟩ := hassembly.2.1.mp h
    have hlast : ("prog.sasm" : Text).getLast? = some 0x6f := by
      rw [hfront, List.getLast?_append]
      rfl
    exact absurd hlast (by decide)

/-- Sources are not safe from the outputs that they get by default. -/
theorem defaultOutput_hits_some :
    ¬ ∀ (source : Text) (t : Target), source ≠ [] → slash ∉ source → t.isValid = true →
      defaultOutput source t ≠ source ∧ objectPath (defaultOutput source t) ≠ source := by
  intro h
  obtain ⟨-, hobject⟩ := h "prog.o" ⟨.x86_64, .linux⟩ (by decide) (by decide) (by decide)
  exact hobject (by decide)

end Command
end StackNative
