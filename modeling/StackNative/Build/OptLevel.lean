import StackNative.Text.Blank
import StackNative.Text.LetterCase
import StackNative.Text.Quoted

/-!
# Levels of optimization

**Input.** The name of a level, or its number.
**Results.** The level, its flag for the linker, and the passes it stands for.
-/

namespace StackNative
namespace Build

/-- How much a build optimizes. -/
inductive OptLevel where
  | none
  | basic
  | aggressive
  | size
  /-- A number that stands for no level. -/
  | unknown (code : Int)
  deriving DecidableEq, Repr

namespace OptLevel

/-- The level with a number. -/
def ofCode (code : Int) : OptLevel :=
  match code with
  | 0 => .none
  | 1 => .basic
  | 2 => .aggressive
  | 3 => .size
  | code => .unknown code

/-- The number of a level. -/
def code : OptLevel → Int
  | .none => 0
  | .basic => 1
  | .aggressive => 2
  | .size => 3
  | .unknown code => code

/-- One of the four levels. -/
def isValid : OptLevel → Bool
  | .unknown _ => false
  | _ => true

/-- The name of a level. -/
def name : OptLevel → Text
  | .none => "none"
  | .basic => "basic"
  | .aggressive => "aggressive"
  | .size => "size"
  | .unknown code => "OptLevel(" ++ Text.ofInt code ++ ")"

/-- The flag of a level; a number without a level gets the one of no optimization. -/
def flag : OptLevel → Text
  | .none => "-O0"
  | .basic => "-O2"
  | .aggressive => "-O3"
  | .size => "-Os"
  | .unknown _ => "-O0"

/-- What is wrong with a number that stands for no level. -/
def invalidMessage (level : OptLevel) : Text :=
  "invalid optimization level " ++ Text.ofInt level.code

section Reading

/-- What a level may be called. -/
def names : List (Text × OptLevel) :=
  [("0", .none), ("none", .none), ("1", .basic), ("2", .basic), ("basic", .basic),
    ("3", .aggressive), ("aggressive", .aggressive), ("s", .size), ("size", .size)]

/-- A text that names no level. -/
structure ReadError where
  given : Text
  deriving DecidableEq, Repr

/-- The text of an error. -/
def ReadError.message (e : ReadError) : Text :=
  "unknown optimization level " ++ Text.quoted e.given

/-- The text after the start of a flag, if it starts as one. -/
def afterFlag : Text → Text
  | 0x2d :: 0x6f :: rest => rest
  | t => t

/-- The level that a text names, as a word or as a flag, without regard to case and to blanks
around it. -/
def read (given : Text) : Except ReadError OptLevel :=
  match names.lookup (afterFlag given.trim.lower) with
  | some level => .ok level
  | .none => .error ⟨given⟩

end Reading

section Passes

/-- A step over the intermediate representation that has a name and a place in the order,
and leaves the module as it is. -/
inductive Pass where
  | constantFolding
  | deadCodeElimination
  | inlining
  | sizeReduction
  deriving DecidableEq, Repr

/-- The name of a pass. -/
def Pass.name : Pass → Text
  | .constantFolding => "constant-folding"
  | .deadCodeElimination => "dead-code-elimination"
  | .inlining => "inlining"
  | .sizeReduction => "size-reduction"

/-- The passes of a level, in order. -/
def passes : OptLevel → List Pass
  | .basic => [.constantFolding, .deadCodeElimination]
  | .aggressive => [.constantFolding, .deadCodeElimination, .inlining]
  | .size => [.sizeReduction, .deadCodeElimination]
  | .none | .unknown _ => []

end Passes

end OptLevel
end Build
end StackNative
