import StackNative.Text.LetterCase

/-!
# Suggestions

**Input.** A word that is no name, and the names.
**Results.** The names that the word may have meant: those it begins, and those
that differ from it in few bytes, without regard to case.
-/

namespace StackNative
namespace Command

section Distance

/-- The distances from a word with one more byte, given those from the word. -/
def distanceRow (c : UInt8) (left : Nat) : Text → List Nat → List Nat
  | d :: t, corner :: up :: row =>
    let here := if c = d then corner else min left (min up corner) + 1
    here :: distanceRow c here t (up :: row)
  | _, _ => []

/-- The distances from a text to all beginnings of another, the last one to all of it. -/
def distances (t : Text) (s : Text) : List Nat :=
  s.foldl (fun row c =>
    let first := row.headD 0 + 1
    first :: distanceRow c first t row) (List.range (t.length + 1))

/-- How many bytes have to be inserted, removed or replaced to make one text of another. -/
def distance (s t : Text) : Nat := (distances t s).getLastD 0

end Distance

/-- Names at most so far from a word are suggested. -/
def suggestionLimit : Nat := 2

/-- The names that a word may have meant, in order. -/
def suggestions (names : List Text) (word : Text) : List Text :=
  names.filter fun n =>
    distance word.lower n.lower ≤ suggestionLimit || word.lower.isPrefixOf n.lower

end Command
end StackNative
