import StackNative.Text.Path

/-!
# Files

A file system is a plain value: the files and folders that exist, each under
the names on the way to it from the root, and the folder that paths start from.

**Input.** Paths, as a command is given them.
**Algorithm.** A path is walked element by element; every element but the last
one has to be a folder.
**Results.** Reading, writing and removing a file, each with the reason why it fails.
-/

namespace StackNative

/-- Why a path cannot be used. -/
inductive FileFault where
  | missing
  | notFolder
  | isFolder
  | notEmpty
  | nameTooLong
  | badName
  deriving DecidableEq, Repr

/-- The text of a fault. -/
def FileFault.text : FileFault → Text
  | .missing => "no such file or directory"
  | .notFolder => "not a directory"
  | .isFolder => "is a directory"
  | .notEmpty => "directory not empty"
  | .nameTooLong => "file name too long"
  | .badName => "invalid argument"

/-- A failed step on a file: what was tried, where, and what was wrong. -/
structure FileError where
  step : Text
  path : Text
  fault : FileFault
  deriving DecidableEq, Repr

/-- The text of an error. -/
def FileError.message (e : FileError) : Text := e.step ++ " " ++ e.path ++ ": " ++ e.fault.text

/-- The names from the root to a file or folder. -/
abbrev FileSystem.Place := List Text

/-- The files and folders that exist. -/
structure FileSystem where
  /-- The folder that paths start from. -/
  here : FileSystem.Place := []
  files : List (FileSystem.Place × Text) := []
  /-- The folders besides the root. -/
  folders : List FileSystem.Place := []
  deriving DecidableEq, Repr

namespace FileSystem

section Entries

/-- What stands at a place. -/
inductive Entry where
  | folder
  | file (bytes : Text)
  deriving DecidableEq, Repr

/-- The entry at a place, if there is one. -/
def entryAt (fs : FileSystem) (p : Place) : Option Entry :=
  match fs.files.lookup p with
  | some bytes => some (.file bytes)
  | none => if p.isEmpty || fs.folders.contains p then some .folder else none

/-- The file system with a file at a place. -/
def put (fs : FileSystem) (p : Place) (bytes : Text) : FileSystem :=
  { fs with files := (p, bytes) :: fs.files.filter fun f => f.1 != p }

/-- The file system without the entry at a place. -/
def drop (fs : FileSystem) (p : Place) : FileSystem :=
  { fs with
    files := fs.files.filter fun f => f.1 != p
    folders := fs.folders.filter (· != p) }

/-- Taking a file out of a list leaves what stands at other places. -/
theorem lookup_filter_ne {p q : Place} (h : q ≠ p) (files : List (Place × Text)) :
    (files.filter fun f => f.1 != p).lookup q = files.lookup q := by
  induction files with
  | nil => rfl
  | cons f rest ih =>
    obtain ⟨r, bytes⟩ := f
    by_cases hr : r = p
    · subst hr
      have hq : (q == r) = false := by simpa using h
      simp [List.lookup_cons, hq, ih]
    · have hp : (r != p) = true := by simpa using hr
      simp [List.lookup_cons, hp, ih]

/-- A file that is put at a place stands there. -/
@[simp] theorem entryAt_put_self (fs : FileSystem) (p : Place) (bytes : Text) :
    (fs.put p bytes).entryAt p = some (.file bytes) := by
  simp [entryAt, put]

/-- A file that is put at a place changes no other place. -/
theorem entryAt_put_of_ne (fs : FileSystem) {p q : Place} (h : q ≠ p) (bytes : Text) :
    (fs.put p bytes).entryAt q = fs.entryAt q := by
  have hq : (q == p) = false := by simpa using h
  simp [entryAt, put, List.lookup_cons, hq, lookup_filter_ne h]

/-- What is dropped from a place leaves the others as they were. -/
theorem entryAt_drop_of_ne (fs : FileSystem) {p q : Place} (h : q ≠ p) :
    (fs.drop p).entryAt q = fs.entryAt q := by
  have hq : (q != p) = true := by simpa using h
  simp [entryAt, drop, lookup_filter_ne h, hq]

/-- Nothing stands below a place. -/
def isEmptyAt (fs : FileSystem) (p : Place) : Bool :=
  !(fs.files.map (·.1) ++ fs.folders).any fun q => p.isPrefixOf q && p.length < q.length

/-- The folders on the way to a place, the root left out. -/
def above : Place → List Place
  | [] => []
  | [_] => []
  | name :: rest => [name] :: (above rest).map (name :: ·)

/-- A file system that holds files under paths read at a folder, and the folders they are in. -/
def ofFiles (here : Place) (files : List (Text × Text)) : FileSystem :=
  let files := files.map fun f => (Text.placeFrom here f.1, f.2)
  { here := here
    files := files
    folders := (here :: above here ++ files.flatMap fun f => above f.1).eraseDups }

end Entries

section Walking

/-- The longest name of an entry. -/
def nameLimit : Nat := 255

/-- Paths are shorter than this. -/
def pathLimit : Nat := 4096

/-- The place reached from a place by the elements of a path. -/
def walk (fs : FileSystem) (p : Place) : List Text → Except FileFault Place
  | [] => .ok p
  | element :: rest =>
    match fs.entryAt p with
    | some .folder =>
      let next := Text.enter p element
      if nameLimit < element.length then .error .nameTooLong
      else if (fs.entryAt next).isSome then walk fs next rest
      else .error .missing
    | some (.file _) => .error .notFolder
    | none => .error .missing

/-- The elements of a path and the place where they start; some paths are refused at once. -/
def elements (fs : FileSystem) (path : Text) : Except FileFault (Place × List Text) :=
  if path.isEmpty then .error .missing
  else if path.contains 0 then .error .badName
  else if pathLimit ≤ path.length then .error .nameTooLong
  else .ok (if path.isAbsolute then [] else fs.here, path.splitOn Text.slash)

/-- The place of the entry that a path leads to. -/
def find (fs : FileSystem) (path : Text) : Except FileFault Place :=
  match fs.elements path with
  | .error e => .error e
  | .ok (start, es) => fs.walk start es

/-- A path leads to an entry. -/
def stands (fs : FileSystem) (path : Text) : Bool := (fs.find path).isOk

/-- The folder where a path starts can be told by a path from the root.  That of the working
folder is not told if it is too long. -/
def locates (fs : FileSystem) (path : Text) : Bool :=
  path.isAbsolute || (Text.pathTo fs.here).length < pathLimit

/-- The place where a path would make a file: its last element is a name and may be new.  A path
that ends in a slash can only mean a folder, so it makes no file. -/
def findNew (fs : FileSystem) (path : Text) : Except FileFault Place :=
  match fs.elements path with
  | .error e => .error e
  | .ok (start, es) =>
    let closed := es.getLast? == some []
    let es := (es.reverse.dropWhile (·.isEmpty)).reverse
    match fs.walk start es.dropLast with
    | .error e => .error e
    | .ok p =>
      let name := es.getLastD []
      if fs.entryAt p ≠ some .folder then .error .notFolder
      else if closed || name == Text.dot || name == Text.dotDot then .error .isFolder
      else if nameLimit < name.length then .error .nameTooLong
      else .ok (p ++ [name])

end Walking

section Steps

/-- The bytes of the file at a path. -/
def read (fs : FileSystem) (path : Text) : Except FileError Text :=
  match fs.find path with
  | .error fault => .error ⟨"open", path, fault⟩
  | .ok p =>
    match fs.entryAt p with
    | some (.file bytes) => .ok bytes
    | _ => .error ⟨"read", path, .isFolder⟩

/-- The file system with the bytes of the file at a path replaced; the file may be new. -/
def write (fs : FileSystem) (path bytes : Text) : Except FileError FileSystem :=
  match fs.findNew path with
  | .error fault => .error ⟨"open", path, fault⟩
  | .ok p =>
    if fs.entryAt p = some .folder then .error ⟨"open", path, .isFolder⟩
    else .ok (fs.put p bytes)

/-- The file system without the file, or the empty folder, at a path. -/
def remove (fs : FileSystem) (path : Text) : Except FileError FileSystem :=
  match fs.find path with
  | .error fault => .error ⟨"remove", path, fault⟩
  | .ok p =>
    if fs.entryAt p = some .folder && !fs.isEmptyAt p then .error ⟨"remove", path, .notEmpty⟩
    else .ok (fs.drop p)

/-- The files that are new in a file system or differ from those of an earlier one. -/
def changedSince (fs before : FileSystem) : List (Place × Text) :=
  fs.files.filter fun f => before.files.lookup f.1 != some f.2

end Steps

end FileSystem
end StackNative
