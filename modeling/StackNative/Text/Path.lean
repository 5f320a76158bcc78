import StackNative.Text.Basic

/-!
# Names of files

**Input.** Paths whose elements are divided by slashes.
**Results.** The last element of a path, its extension and its stem; the place
that a path means, as the names on the way from the root.
-/

namespace StackNative
namespace Text

/-- The byte between the elements of a path. -/
def slash : UInt8 := 0x2f

/-- The element that stands for the place itself. -/
def dot : Text := "."

/-- The element that stands for the place above. -/
def dotDot : Text := ".."

/-- The part of the last element from its last dot on, empty where there is no dot. -/
def extension (path : Text) : Text :=
  let last := (path.reverse.takeWhile (· != 0x2f))
  match last.dropWhile (· != 0x2e) with
  | [] => []
  | dot :: _ => dot :: (last.takeWhile (· != 0x2e)).reverse

/-- The path without its extension. -/
def withoutExtension (path : Text) : Text := path.take (path.length - path.extension.length)

/-- The last element of a path, slashes at its end left out.  An empty path is the place
itself, and a path of slashes is the root. -/
def lastElement (path : Text) : Text :=
  if path.isEmpty then dot
  else
    match path.reverse.dropWhile (· == slash) with
    | [] => [slash]
    | rest => (rest.takeWhile (· != slash)).reverse

/-- The last element without its extension, unless nothing would be left. -/
def stem (path : Text) : Text :=
  let last := path.lastElement
  if last.withoutExtension.isEmpty then last else last.withoutExtension

/-- A path that starts at the root. -/
def isAbsolute (path : Text) : Bool := path.head? == some slash

/-- The place reached by one element; the root is above itself. -/
def enter (place : List Text) (element : Text) : List Text :=
  if element.isEmpty || element == dot then place
  else if element == dotDot then place.dropLast
  else place ++ [element]

/-- The place that a path means when it is read at a place. -/
def placeFrom (here : List Text) (path : Text) : List Text :=
  (path.splitOn slash).foldl enter (if path.isAbsolute then [] else here)

/-- The path from the root to a place. -/
def pathTo (place : List Text) : Text := [slash] ++ join [slash] place

end Text
end StackNative
