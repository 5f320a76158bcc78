import StackNative.Toml.Reader

/-!
# What a configuration has defined

A key has one value, a table is opened once, and what a dotted key opened stays
closed to headers and to other tables.

**Input.** The lines of a configuration, in order.
**Algorithm.** The names that are defined form a tree; a key is followed down from
the current table, a header from the root.
**Results.** `Definitions.admitSetting`, `Definitions.admitHeader` and
`Definitions.admitArrayHeader` take a line up, or refuse it because it defines
something again.
-/

namespace StackNative
namespace Toml

/-- What a name stands for. -/
inductive Role where
  | value
  | table
  | tables
  deriving DecidableEq, Repr

/-- How a name was defined. -/
structure Mark where
  role : Role
  /-- A header opened the table, or the table is closed to further keys. -/
  closed : Bool
  /-- A dotted key of the current table made it. -/
  dotted : Bool
  deriving DecidableEq, Repr

/-- The names in a table, each with its mark and the names below it. -/
inductive Names where
  | empty
  | name (text : Text) (mark : Mark) (below : Names) (others : Names)
  deriving DecidableEq, Repr

namespace Names

/-- The mark of a name and the names below it. -/
def find? (text : Text) : Names → Option (Mark × Names)
  | .empty => none
  | .name t mark below others => if t == text then some (mark, below) else others.find? text

/-- Gives a name a mark and the names below it. -/
def put (names : Names) (text : Text) (mark : Mark) (below : Names) : Names :=
  match names with
  | .empty => .name text mark below .empty
  | .name t m b others =>
    if t == text then .name t mark below others else .name t m b (others.put text mark below)

/-- Closes the tables that dotted keys made. -/
def settle : Names → Names
  | .empty => .empty
  | .name t m below others =>
    .name t (if m.dotted then { m with closed := true, dotted := false } else m) below.settle
      others.settle

/-- Closes the tables that dotted keys of the table at a key made. -/
def settleAt : List Text → Names → Names
  | [], names => names.settle
  | t :: rest, names =>
    match names.find? t with
    | none => names
    | some (m, below) => names.put t m (settleAt rest below)

/-- Takes up a key with a value. -/
def admitKey : List Text → Names → Option Names
  | [], _ => none
  | [t], names =>
    match names.find? t with
    | none => some (names.put t ⟨.value, false, true⟩ .empty)
    | some _ => none
  | t :: rest, names =>
    match names.find? t with
    | none => (admitKey rest .empty).map (names.put t ⟨.table, false, true⟩)
    | some (m, below) =>
      if m.role ≠ .table || m.closed then none else (admitKey rest below).map (names.put t m)

/-- Takes up a key with a value in the table at a key. -/
def admitKeyAt (key : List Text) : List Text → Names → Option Names
  | [], names => names.admitKey key
  | t :: rest, names =>
    match names.find? t with
    | none => none
    | some (m, below) => (admitKeyAt key rest below).map (names.put t m)

/-- Takes up a header. -/
def admitHeader : List Text → Names → Option Names
  | [], _ => none
  | [t], names =>
    match names.find? t with
    | none => some (names.put t ⟨.table, true, false⟩ .empty)
    | some (m, below) =>
      if m.role ≠ .table || m.closed then none
      else some (names.put t { m with closed := true } below)
  | t :: rest, names =>
    match names.find? t with
    | none => (admitHeader rest .empty).map (names.put t ⟨.table, false, false⟩)
    | some (m, below) =>
      if m.role = .value then none else (admitHeader rest below).map (names.put t m)

/-- Takes up a header of an array, and says whether it is the first one; a later one forgets
what lies below. -/
def admitArrayHeader : List Text → Names → Option (Names × Bool)
  | [], _ => none
  | [t], names =>
    match names.find? t with
    | none => some (names.put t ⟨.tables, true, false⟩ .empty, true)
    | some (m, _) =>
      if m.role ≠ .tables then none else some (names.put t m .empty, false)
  | t :: rest, names =>
    match names.find? t with
    | none =>
      (admitArrayHeader rest .empty).map fun (below, first) =>
        (names.put t ⟨.table, false, false⟩ below, first)
    | some (m, below) =>
      if m.role = .value then none
      else
        (admitArrayHeader rest below).map fun (below, first) => (names.put t m below, first)

mutual

/-- No inline table in a value defines a key twice. -/
def isConsistent : Value → Bool
  | .text _ | .boolean _ | .number | .moment _ _ => true
  | .array vs => areConsistent vs
  | .table es => (admitEntries .empty es).isSome

/-- No inline table in values defines a key twice. -/
def areConsistent : List Value → Bool
  | [] => true
  | v :: vs => isConsistent v && areConsistent vs

/-- Takes up the entries of an inline table. -/
def admitEntries (names : Names) : List (Key × Value) → Option Names
  | [] => some names
  | (k, v) :: es =>
    match names.admitKey (k.map (·.text)) with
    | none => none
    | some names => if isConsistent v then admitEntries names es else none

end

end Names

/-- The names that are defined, and the table that lines are about. -/
structure Definitions where
  current : List Text := []
  names : Names := .empty
  deriving DecidableEq, Repr

namespace Definitions

/-- Takes up a line that gives a key a value. -/
def admitSetting (d : Definitions) (k : Key) (v : Value) : Option Definitions :=
  match d.names.admitKeyAt (k.map (·.text)) d.current with
  | none => none
  | some names => if Names.isConsistent v then some { d with names := names } else none

/-- Takes up a header. -/
def admitHeader (d : Definitions) (k : Key) : Option Definitions :=
  let texts := k.map (·.text)
  ((d.names.settleAt d.current).admitHeader texts).map fun names => ⟨texts, names⟩

/-- Takes up a header of an array, and says whether it is the first one. -/
def admitArrayHeader (d : Definitions) (k : Key) : Option (Definitions × Bool) :=
  let texts := k.map (·.text)
  ((d.names.settleAt d.current).admitArrayHeader texts).map fun (names, first) =>
    (⟨texts, names⟩, first)

end Definitions
end Toml
end StackNative
