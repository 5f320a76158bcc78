import StackNative.Build.Compiler
import StackNative.Proofs.FileSystem
import StackNative.Proofs.Results

/-!
# What a build does to files

**Input.**  A compiler, any linker, a file system, a source and an output.

**Algorithm.**  A build takes steps that give an image or an error and touch no file.  Only
then is the object file written, the linker run and the object file taken away.

**Results.**
* `Compiler.imageAt`: the image of a source as a value, without any file that is written.
* `Compiler.exists_compileFile`: a build is that value, then linking.
* `Compiler.link_of_fails`, `Compiler.link_of_succeeds`: what linking does by its outcome.
* `Compiler.object_unreadable_of_linked`: no object file is left by linking that tidies up.
* `Compiler.compileFile_effects`: every file that a build touches, for every way it can end.
-/

namespace StackNative
namespace Build

/-- An error that a build meets before it has an image. -/
def BuildError.isEarly : BuildError → Bool
  | .unreadable .. | .source .. | .lowering _ | .invalid _ | .codegen _ => true
  | .unwritable .. | .link _ | .launch _ => false

/-- The linker was started and ended with status zero. -/
def LinkOutcome.succeeds : LinkOutcome → Bool
  | .exited status _ => status == 0
  | .notStarted _ => false

theorem Step.result_andThen
    {α β : Type}
    (s : Step α)
    (next : α → Step β) :
    (s.andThen next).result = s.result >>= fun a => (next a).result := by
  rw [andThen]
  cases s.result <;> rfl

/-- No output has an object file with the path of a folder: it ends with a name. -/
theorem find_objectPath_ne_root
    (fs : FileSystem)
    (output : Text) :
    fs.find (objectPath output) ≠ .ok [] := by
  intro h
  have hplace := FileSystem.placeFrom_of_find h
  obtain ⟨front, last, -, hsplit⟩ :=
    Text.splitOn_append output (by decide : Text.slash ∉ objectSuffix)
  have hends : (last ++ objectSuffix).getLast? = some 0x6f := by
    have hsuffix : objectSuffix = [0x2e, 0x6f] := by decide
    simp [hsuffix]
  have hstays : (last ++ objectSuffix).isEmpty = false := by
    cases hname : last ++ objectSuffix with
    | nil =>
        simp [hname] at hends
    | cons b rest =>
        rfl
  have hdot : last ++ objectSuffix ≠ Text.dot := by
    intro hdot
    rw [hdot] at hends
    revert hends
    decide
  have hdotDot : last ++ objectSuffix ≠ Text.dotDot := by
    intro hdotDot
    rw [hdotDot] at hends
    revert hends
    decide
  rw [Text.placeFrom, objectPath, hsplit, List.foldl_append, List.foldl_cons, List.foldl_nil,
    Text.enter, if_neg (by simp [hstays, hdot]), if_neg (by simp [hdotDot])] at hplace
  simp at hplace

namespace Compiler

variable {c : Compiler} {run : Linker} {fs written linked : FileSystem}
variable {path output image : Text} {outcome : LinkOutcome}

/-- The image of the source at a path, or the first thing that is wrong: the file is read, its
form gives a chunk, the chunk is lowered to a module, and the module is emitted. -/
def imageAt (c : Compiler) (fs : FileSystem) (path : Text) : Except BuildError Text := do
  let bytes ← (fs.read path).mapError (.unreadable path)
  let chunk ← ((SourceForm.ofPath path).compile bytes).mapError (.source path)
  let m ← (c.lower path.stem chunk).result
  (c.emit m).result

/-- The linker of a compiler at work on the object file of an output. -/
def runLinker (c : Compiler) (run : Linker) (output : Text) (fs : FileSystem) :
    FileSystem × LinkOutcome :=
  run c.options.linkerPath (linkArgs c.options (objectPath output) output) fs

section Image

theorem isEarly_of_lower
    {name : Text}
    {chunk : Bytecode.Chunk}
    {e : BuildError}
    (h : (c.lower name chunk).result = .error e) :
    e.isEarly = true := by
  rw [lower] at h
  split at h
  · cases h
    rfl
  · dsimp only at h
    split at h
    · cases h
    · cases h
      rfl

theorem isEarly_of_emit
    {m : Ir.Module}
    {e : BuildError}
    (h : (c.emit m).result = .error e) :
    e.isEarly = true := by
  rw [emit] at h
  split at h
  · cases h
    rfl
  · cases h

theorem isEarly_of_imageAt
    {e : BuildError}
    (h : c.imageAt fs path = .error e) :
    e.isEarly = true := by
  rw [imageAt] at h
  rcases bind_eq_error h with hread | ⟨bytes, -, h⟩
  · cases hbytes : fs.read path with
    | error fault =>
        rw [hbytes] at hread
        cases hread
        rfl
    | ok bytes =>
        rw [hbytes] at hread
        cases hread
  · rcases bind_eq_error h with hcompile | ⟨chunk, -, h⟩
    · cases hchunk : (SourceForm.ofPath path).compile bytes with
      | error fault =>
          rw [hchunk] at hcompile
          cases hcompile
          rfl
      | ok chunk =>
          rw [hchunk] at hcompile
          cases hcompile
    · rcases bind_eq_error h with hlower | ⟨m, -, hemit⟩
      · exact isEarly_of_lower hlower
      · exact isEarly_of_emit hemit

/-- A build finds the image of its source without a look at the linker, and links it. -/
theorem exists_compileFile
    (c : Compiler)
    (fs : FileSystem)
    (path output : Text) :
    ∃ events, ∀ run, c.compileFile run fs path output =
      match c.imageAt fs path with
      | .error e => ⟨fs, events, some e⟩
      | .ok image =>
        { c.link run fs output image with
          events := events ++ (c.link run fs output image).events } := by
  cases hread : fs.read path with
  | error fault =>
      have himage : c.imageAt fs path = .error (.unreadable path fault) := by
        rw [imageAt, hread]
        rfl
      exact ⟨[], fun run => by simp only [compileFile, hread, himage]⟩
  | ok bytes =>
      have himage : c.imageAt fs path = (c.imageOfSource path bytes).result := by
        have hsource : c.imageAt fs path =
            ((SourceForm.ofPath path).compile bytes).mapError (.source path) >>= fun chunk =>
              (c.image path.stem chunk).result := by
          simp only [imageAt, hread, image, Step.result_andThen]
          rfl
        rw [hsource, imageOfSource, Step.result_andThen]
        cases (SourceForm.ofPath path).compile bytes <;> rfl
      refine ⟨(c.imageOfSource path bytes).events, fun run => ?_⟩
      cases hresult : (c.imageOfSource path bytes).result with
      | error e =>
          simp only [compileFile, hread, himage, finish, hresult]
      | ok image =>
          simp only [compileFile, hread, himage, finish, hresult]

/-- Behind an image, a build ends as linking it does. -/
theorem compileFile_of_image
    (run : Linker)
    (output : Text)
    (himage : c.imageAt fs path = .ok image) :
    (c.compileFile run fs path output).error = (c.link run fs output image).error ∧
      (c.compileFile run fs path output).files = (c.link run fs output image).files := by
  obtain ⟨events, hbuild⟩ := exists_compileFile c fs path output
  rw [hbuild run, himage]
  exact ⟨rfl, rfl⟩

end Image

section Linking

/-- An object file that cannot be written ends a build. -/
theorem link_of_unwritten
    {e : FileError}
    (run : Linker)
    (h : fs.write (objectPath output) image = .error e) :
    c.link run fs output image = ⟨fs, [], some (.unwritable (objectPath output) e)⟩ := by
  rw [link, h]

/-- A linker that fails ends a build, and the files stay as it left them. -/
theorem link_of_fails
    (hwrite : fs.write (objectPath output) image = .ok written)
    (hrun : c.runLinker run output written = (linked, outcome))
    (hfails : outcome.succeeds = false) :
    ∃ e, (c.link run fs output image).error = some e ∧ e.isEarly = false ∧
      (c.link run fs output image).files = linked := by
  rw [runLinker] at hrun
  simp only [link, hwrite, hrun]
  cases outcome with
  | notStarted e =>
      exact ⟨.launch e, rfl, rfl, rfl⟩
  | exited status report =>
      have hstatus : status ≠ 0 := by simpa [LinkOutcome.succeeds] using hfails
      dsimp only
      rw [if_neg hstatus]
      exact ⟨_, rfl, rfl, rfl⟩

/-- After a linker that succeeds nothing is left but to tidy up. -/
theorem link_of_succeeds
    (hwrite : fs.write (objectPath output) image = .ok written)
    (hrun : c.runLinker run output written = (linked, outcome))
    (hsucceeds : outcome.succeeds = true) :
    (c.link run fs output image).error = none ∧
      (c.link run fs output image).files = (c.tidy (objectPath output) output linked).1 := by
  rw [runLinker] at hrun
  simp only [link, hwrite, hrun]
  cases outcome with
  | notStarted e =>
      cases hsucceeds
  | exited status report =>
      have hstatus : status = 0 := by simpa [LinkOutcome.succeeds] using hsucceeds
      dsimp only
      rw [if_pos hstatus]
      exact ⟨rfl, rfl⟩

theorem tidy_of_keeps
    (object output : Text)
    (fs : FileSystem)
    (h : c.options.cleanup = false) :
    (c.tidy object output fs).1 = fs := by
  rw [tidy, if_neg (by simp [h])]

theorem tidy_of_cleanup
    (output : Text)
    (fs : FileSystem)
    (h : c.options.cleanup = true) :
    (fs.Removable (objectPath output) →
        fs.Gone (objectPath output) (c.tidy (objectPath output) output fs).1) ∧
      (¬ fs.Removable (objectPath output) → (c.tidy (objectPath output) output fs).1 = fs) := by
  rw [tidy, if_pos h, ← FileSystem.exists_remove_iff]
  cases hremove : fs.remove (objectPath output) with
  | error e =>
      simp
  | ok removed =>
      simpa using FileSystem.gone_of_remove (find_objectPath_ne_root fs output) hremove

/-- No error of linking is one that a build meets before it has an image. -/
theorem not_isEarly_of_link
    {e : BuildError}
    (h : (c.link run fs output image).error = some e) :
    e.isEarly = false := by
  cases hwrite : fs.write (objectPath output) image with
  | error fault =>
      rw [link_of_unwritten run hwrite] at h
      cases h
      rfl
  | ok written =>
      cases hrun : c.runLinker run output written with
      | mk linked outcome =>
          cases hends : outcome.succeeds with
          | true =>
              rw [(link_of_succeeds hwrite hrun hends).1] at h
              cases h
          | false =>
              obtain ⟨e', he', hlate, -⟩ := link_of_fails hwrite hrun hends
              cases h.symm.trans he'
              exact hlate

/-- After linking that succeeds and tidies up, there is no object file to read. -/
theorem object_unreadable_of_linked
    (hcleanup : c.options.cleanup = true)
    (hlinked : (c.link run fs output image).error = none) :
    ∃ e, (c.link run fs output image).files.read (objectPath output) = .error e := by
  cases hwrite : fs.write (objectPath output) image with
  | error e =>
      rw [link_of_unwritten run hwrite] at hlinked
      cases hlinked
  | ok written =>
      cases hrun : c.runLinker run output written with
      | mk linked outcome =>
          cases hends : outcome.succeeds with
          | false =>
              obtain ⟨e, he, -⟩ := link_of_fails hwrite hrun hends
              cases hlinked.symm.trans he
          | true =>
              rw [(link_of_succeeds hwrite hrun hends).2]
              obtain ⟨hgone, hstays⟩ := tidy_of_cleanup output linked hcleanup
              by_cases hremovable : linked.Removable (objectPath output)
              · exact (hgone hremovable).read_eq_error
              · rw [hstays hremovable]
                exact FileSystem.read_eq_error_of_not_removable hremovable

end Linking

/-- What a build does to files, for every source, output, options and linker.

If there is no image of the source, the build fails, has changed no file and has run no linker.
Otherwise the object file is written, or cannot be, and then nothing is changed; no other file
is written, and it holds the image.  If the linker does not succeed, the build fails and leaves
the files as the linker left them.  If it does, the build succeeds, and has taken away the
object file exactly if the options ask for it and it is there to be taken away. -/
theorem compileFile_effects
    (c : Compiler)
    (run : Linker)
    (fs : FileSystem)
    (path output : Text) :
    let r := c.compileFile run fs path output
    let object := objectPath output
    (∀ e, c.imageAt fs path = .error e →
      e.isEarly = true ∧ r.error = some e ∧ r.files = fs ∧
        ∀ other, c.compileFile other fs path output = r) ∧
    ∀ image, c.imageAt fs path = .ok image →
      (∀ e, r.error = some e → e.isEarly = false) ∧
      (∀ e, fs.write object image = .error e →
        r.error = some (.unwritable object e) ∧ r.files = fs) ∧
      ∀ written, fs.write object image = .ok written →
        fs.Written object image written ∧
        ∀ linked outcome, c.runLinker run output written = (linked, outcome) →
          (outcome.succeeds = false → (∃ e, r.error = some e) ∧ r.files = linked) ∧
          (outcome.succeeds = true → r.error = none ∧
            (c.options.cleanup = true →
              (linked.Removable object → linked.Gone object r.files) ∧
              (¬ linked.Removable object → r.files = linked)) ∧
            (c.options.cleanup = false → r.files = linked)) := by
  intro r object
  refine ⟨fun e himage => ?_, fun image himage => ?_⟩
  · obtain ⟨events, hbuild⟩ := exists_compileFile c fs path output
    have hr : r = ⟨fs, events, some e⟩ := by
      show c.compileFile run fs path output = _
      rw [hbuild run, himage]
    refine ⟨isEarly_of_imageAt himage, ?_, ?_, fun other => ?_⟩
    · rw [hr]
    · rw [hr]
    · rw [hr, hbuild other, himage]
  · obtain ⟨herror, hfiles⟩ := compileFile_of_image run output himage
    change r.error = _ at herror
    change r.files = _ at hfiles
    rw [herror, hfiles]
    refine ⟨fun e he => not_isEarly_of_link he, fun e hwrite => ?_, fun written hwrite => ?_⟩
    · rw [link_of_unwritten run hwrite]
      exact ⟨rfl, rfl⟩
    · refine ⟨FileSystem.written_of_write hwrite, fun linked outcome hrun =>
        ⟨fun hfails => ?_, fun hsucceeds => ?_⟩⟩
      · obtain ⟨e, he, -, hlinked⟩ := link_of_fails hwrite hrun hfails
        exact ⟨⟨e, he⟩, hlinked⟩
      · obtain ⟨hnone, htidied⟩ := link_of_succeeds hwrite hrun hsucceeds
        rw [htidied]
        exact ⟨hnone, fun hcleanup => tidy_of_cleanup output linked hcleanup,
          fun hkeeps => tidy_of_keeps _ output linked hkeeps⟩

end Compiler
end Build
end StackNative
