import StackNative.Text.Utf8
import StackNative.Toml.Moment

/-!
# Reading configuration text

The text is written in TOML.  A number is only passed over and not read, because
no setting takes one.

**Input.** The bytes of a configuration.
**Algorithm.** The text is read line by line; a value is read by what it starts
with.  Every reader takes the bytes that are left and gives back those it leaves.
**Results.** `Reading.of` gives the lines in order up to the first one that is not well
formed, and whether there was none.
-/

namespace StackNative
namespace Toml

/-- A name in a key. -/
structure Name where
  text : Text
  /-- It is spelled with escapes, so the text itself does not stand in the configuration. -/
  escaped : Bool := false
  deriving DecidableEq, Repr

/-- The names on the way to a value, from the outside in. -/
abbrev Key := List Name

/-- A value. -/
inductive Value where
  | text (t : Text)
  | boolean (b : Bool)
  | number
  | moment (form : Moment.Form) (written : Text)
  | array (items : List Value)
  | table (entries : List (Key × Value))

instance : Inhabited Value := ⟨.boolean false⟩

/-- What a line says. -/
inductive Line where
  /-- A key has a value. -/
  | setting (key : Key) (value : Value)
  /-- The lines that follow are about a table. -/
  | header (key : Key)
  /-- The lines that follow are about one more table of an array. -/
  | arrayHeader (key : Key)

section Characters

/-- Space and tab. -/
def isSpace (b : UInt8) : Bool := b == 0x20 || b == 0x09

/-- The bytes of keys without quotes. -/
def isBare (b : UInt8) : Bool :=
  (0x41 ≤ b && b ≤ 0x5a) || (0x61 ≤ b && b ≤ 0x7a) || (0x30 ≤ b && b ≤ 0x39) ||
    b == 0x2d || b == 0x5f

/-- Control characters other than tab, line feed and carriage return. -/
def isForbidden (b : UInt8) : Bool :=
  (b < 0x20 && b != 0x09 && b != 0x0a && b != 0x0d) || b == 0x7f

/-- Bytes that may stand in a text or a comment. -/
def isClean (t : Text) : Bool := t.isValid && !t.any isForbidden

/-- Leaves out spaces. -/
def skipSpaces (t : Text) : Text := t.dropWhile isSpace

/-- Reads the end of a line. -/
def newline : Text → Option Text
  | 0x0a :: rest => some rest
  | 0x0d :: 0x0a :: rest => some rest
  | _ => none

/-- Leaves out a comment, up to the end of its line. -/
def comment (t : Text) : Option Text :=
  let line := t.takeWhile (· != 0x0a)
  let rest := t.dropWhile (· != 0x0a)
  let body := if rest.isEmpty || line.getLast? != some 0x0d then line else line.dropLast
  if isClean body && !body.contains 0x0d then some rest else none

/-- Leaves out a comment if there is one. -/
def skipComment : Text → Option Text
  | 0x23 :: rest => comment rest
  | t => some t

end Characters

section Quoted

/-- The bytes that a short escape stands for. -/
def shortEscape (c : UInt8) : Option Text :=
  match c with
  | 0x22 => some [0x22]
  | 0x5c => some [0x5c]
  | 0x62 => some [0x08]
  | 0x66 => some [0x0c]
  | 0x6e => some [0x0a]
  | 0x72 => some [0x0d]
  | 0x74 => some [0x09]
  | 0x65 => some [0x1b]
  | _ => none

/-- The value of a hexadecimal digit. -/
def hexDigit (c : UInt8) : Option Nat :=
  if 0x30 ≤ c && c ≤ 0x39 then some (c.toNat - 0x30)
  else if 0x61 ≤ c && c ≤ 0x66 then some (c.toNat - 0x61 + 10)
  else if 0x41 ≤ c && c ≤ 0x46 then some (c.toNat - 0x41 + 10)
  else none

/-- The bytes of the character with a number in hexadecimal digits. -/
def codePoint (digits : Text) : Option Text :=
  match digits.mapM hexDigit with
  | none => none
  | some ds =>
    let n := ds.foldl (fun n d => n * 16 + d) 0
    if n.isValidChar then some (String.utf8EncodeChar (Char.ofNat n)) else none

/-- The number of digits after the letter of a long escape. -/
def longEscape (c : UInt8) : Option Nat :=
  match c with
  | 0x75 => some 4
  | 0x55 => some 8
  | _ => none

/-- The rest after a line break that a backslash takes back: spaces, the end of the line, and
all blanks from there on. -/
def afterBreak (t : Text) : Option Text :=
  match newline (skipSpaces t) with
  | none => none
  | some rest => some (rest.dropWhile fun b => isSpace b || b == 0x0a || b == 0x0d)

/-- The bytes that the body of a text stands for; the budget is at least its length. -/
def unescape (breaks : Bool) : Nat → Text → Option Text
  | 0, _ => some []
  | _ + 1, [] => some []
  | budget + 1, 0x5c :: t =>
    match (if breaks then afterBreak t else none) with
    | some rest => unescape breaks budget rest
    | none =>
      match t with
      | [] => none
      | c :: rest =>
        match longEscape c with
        | some count =>
          if rest.length < count then none
          else
            match codePoint (rest.take count), unescape breaks budget (rest.drop count) with
            | some bytes, some more => some (bytes ++ more)
            | _, _ => none
        | none =>
          match shortEscape c, unescape breaks budget rest with
          | some bytes, some more => some (bytes ++ more)
          | _, _ => none
  | budget + 1, c :: rest => (unescape breaks budget rest).map (c :: ·)

/-- Cuts a text on one line at its closing quote. -/
def lineBody (quote : UInt8) (escapes : Bool) : Text → Option (Text × Text)
  | [] => none
  | c :: rest =>
    if c == quote then some ([], rest)
    else if c == 0x0a || c == 0x0d then none
    else if escapes && c == 0x5c then
      match rest with
      | [] => none
      | d :: rest => (lineBody quote escapes rest).map fun (body, rest) => (c :: d :: body, rest)
    else (lineBody quote escapes rest).map fun (body, rest) => (c :: body, rest)

/-- Cuts a text on several lines at its three closing quotes; up to two more quotes before
them belong to the text. -/
def blockBody (quote : UInt8) (escapes : Bool) : Text → Option (Text × Text)
  | [] => none
  | c :: rest =>
    if c == quote && rest.take 2 == [quote, quote] then
      let more := (rest.drop 2).takeWhile (· == quote)
      if more.length < 3 then some (more, (rest.drop 2).drop more.length) else none
    else if escapes && c == 0x5c then
      match rest with
      | [] => none
      | d :: rest => (blockBody quote escapes rest).map fun (body, rest) => (c :: d :: body, rest)
    else if c == 0x0d && rest.head? != some 0x0a then none
    else (blockBody quote escapes rest).map fun (body, rest) => (c :: body, rest)

/-- The bytes that the body of a text stands for, if all of them may stand in it. -/
def content (breaks escapes : Bool) (body : Text) : Option Text :=
  if isClean body then
    if escapes then unescape breaks body.length body else some body
  else none

/-- Reads a text on one line, its opening quote left out. -/
def lineText (quote : UInt8) (t : Text) : Option (Text × Text) :=
  match lineBody quote (quote == 0x22) t with
  | none => none
  | some (body, rest) => (content false (quote == 0x22) body).map (·, rest)

/-- Reads a text on several lines, its opening quotes left out; a line that ends there is not
part of it. -/
def blockText (quote : UInt8) (t : Text) : Option (Text × Text) :=
  match blockBody quote (quote == 0x22) ((newline t).getD t) with
  | none => none
  | some (body, rest) => (content true (quote == 0x22) body).map (·, rest)

end Quoted

section Keys

/-- Reads a name in quotes, its opening quote left out. -/
def quotedName (quote : UInt8) (t : Text) : Option (Name × Text) :=
  match lineBody quote (quote == 0x22) t with
  | none => none
  | some (body, rest) =>
    (content false (quote == 0x22) body).map fun text =>
      (⟨text, quote == 0x22 && body.contains 0x5c⟩, rest)

/-- Reads one name of a key. -/
def name : Text → Option (Name × Text)
  | [] => none
  | c :: rest =>
    if c == 0x22 || c == 0x27 then quotedName c rest
    else if isBare c then some (⟨(c :: rest).takeWhile isBare, false⟩, (c :: rest).dropWhile isBare)
    else none

/-- Reads the names of a key after its first one; the budget is at least the length. -/
def moreNames : Nat → Text → Option (Key × Text)
  | 0, t => some ([], t)
  | budget + 1, t =>
    match skipSpaces t with
    | 0x2e :: rest =>
      match name (skipSpaces rest) with
      | none => none
      | some (n, rest) => (moreNames budget rest).map fun (ns, rest) => (n :: ns, rest)
    | rest => some ([], rest)

/-- Reads a key; the budget is at least the length. -/
def key (budget : Nat) (t : Text) : Option (Key × Text) :=
  match name t with
  | none => none
  | some (n, rest) => (moreNames budget rest).map fun (ns, rest) => (n :: ns, rest)

/-- Reads a byte. -/
def expect (b : UInt8) : Text → Option Text
  | [] => none
  | c :: rest => if c == b then some rest else none

/-- Reads a key, the sign after it and the spaces around that. -/
def keyPart (budget : Nat) (t : Text) : Option (Key × Text) :=
  match key budget t with
  | none => none
  | some (k, rest) => (expect 0x3d (skipSpaces rest)).map fun rest => (k, skipSpaces rest)

end Keys

section Numbers

/-- The digits of a base, and the underscore between them. -/
def isBaseDigit (base : UInt8) (b : UInt8) : Bool :=
  b == 0x5f ||
    match base with
    | 0x62 => b == 0x30 || b == 0x31
    | 0x6f => 0x30 ≤ b && b ≤ 0x37
    | _ => (hexDigit b).isSome

/-- The bytes of decimal numbers. -/
def isDecimal (b : UInt8) : Bool :=
  (0x30 ≤ b && b ≤ 0x39) || b == 0x2b || b == 0x2d || b == 0x5f || b == 0x2e || b == 0x65 ||
    b == 0x45

/-- Passes over the words for infinity and for what is no number. -/
def specialNumber : Text → Option Text
  | 0x69 :: 0x6e :: 0x66 :: rest => some rest
  | 0x6e :: 0x61 :: 0x6e :: rest => some rest
  | _ => none

/-- Passes over a decimal number, which may end in a word. -/
def decimalNumber (t : Text) : Option Text :=
  let rest := t.dropWhile isDecimal
  match rest with
  | 0x69 :: _ | 0x6e :: _ => specialNumber rest
  | _ => if (t.head?.any isDecimal) then some rest else none

/-- Passes over a number.  A zero in front is a number of its own, unless a base, a point or an
exponent follows, or nothing but one byte. -/
def number : Text → Option Text
  | 0x30 :: c :: d :: rest =>
    if c == 0x78 || c == 0x6f || c == 0x62 then some ((d :: rest).dropWhile (isBaseDigit c))
    else if c == 0x2e || c == 0x65 || c == 0x45 then decimalNumber (0x30 :: c :: d :: rest)
    else some (c :: d :: rest)
  | t => decimalNumber t

end Numbers

section Values

/-- Reads a value that starts with none of the signs of the others: a date, a time or a number. -/
def plainValue (t : Text) : Option (Value × Text) :=
  if Moment.starts t then
    let (written, form, rest) := Moment.cut t
    some (.moment form written, rest)
  else (number t).map (.number, ·)

/-- Leaves out spaces, comments and ends of lines; the budget is at least the length. -/
def skipLines : Nat → Text → Option Text
  | 0, t => some t
  | budget + 1, t =>
    match skipComment (skipSpaces t) with
    | none => none
    | some rest =>
      match rest with
      | 0x0a :: _ | 0x0d :: _ => (newline rest).bind (skipLines budget)
      | _ => some rest

mutual

/-- Reads a value; the budget is at least twice the length. -/
def value : Nat → Text → Option (Value × Text)
  | 0, _ => none
  | budget + 1, t =>
    match t with
    | 0x22 :: 0x22 :: 0x22 :: rest => (blockText 0x22 rest).map fun (b, rest) => (.text b, rest)
    | 0x27 :: 0x27 :: 0x27 :: rest => (blockText 0x27 rest).map fun (b, rest) => (.text b, rest)
    | 0x22 :: rest => (lineText 0x22 rest).map fun (b, rest) => (.text b, rest)
    | 0x27 :: rest => (lineText 0x27 rest).map fun (b, rest) => (.text b, rest)
    | 0x74 :: 0x72 :: 0x75 :: 0x65 :: rest => some (.boolean true, rest)
    | 0x66 :: 0x61 :: 0x6c :: 0x73 :: 0x65 :: rest => some (.boolean false, rest)
    | 0x5b :: rest => (items budget true rest).map fun (vs, rest) => (.array vs, rest)
    | 0x7b :: rest => (entries budget true rest).map fun (es, rest) => (.table es, rest)
    | 0x74 :: _ | 0x66 :: _ => none
    | t => plainValue t

/-- Reads the items of an array up to its end. -/
def items : Nat → Bool → Text → Option (List Value × Text)
  | 0, _, _ => none
  | budget + 1, first, t =>
    match skipLines budget t with
    | none | some [] => none
    | some (0x5d :: rest) => some ([], rest)
    | some (c :: rest) =>
      let start :=
        if c == 0x2c then (if first then none else skipLines budget rest)
        else if first then some (c :: rest) else none
      match start with
      | none => none
      | some (0x5d :: rest) => some ([], rest)
      | some t =>
        match value budget t with
        | none => none
        | some (v, rest) => (items budget false rest).map fun (vs, rest) => (v :: vs, rest)

/-- Reads the entries of an inline table up to its end. -/
def entries : Nat → Bool → Text → Option (List (Key × Value) × Text)
  | 0, _, _ => none
  | budget + 1, first, t =>
    match skipSpaces t with
    | [] => none
    | 0x7d :: rest => some ([], rest)
    | t =>
      match (if first then some t else (expect 0x2c t).map skipSpaces) with
      | none => none
      | some t =>
        match keyPart budget t with
        | none => none
        | some (k, rest) =>
          match value budget rest with
          | none => none
          | some (v, rest) =>
            (entries budget false rest).map fun (es, rest) => ((k, v) :: es, rest)

end

end Values

section Lines

/-- Reads the key of a header and what closes it. -/
def headerKey (budget closing : Nat) (t : Text) : Option (Key × Text) :=
  match key budget (skipSpaces t) with
  | none => none
  | some (k, rest) =>
    let rest := skipSpaces rest
    if rest.take closing == List.replicate closing 0x5d then some (k, rest.drop closing) else none

/-- Reads what a line says, if it says anything, and leaves its end; the budget is at least the
length. -/
def statement (budget : Nat) (t : Text) : Option (Option Line × Text) :=
  match t with
  | [] | 0x0a :: _ | 0x0d :: _ | 0x23 :: _ => some (none, t)
  | 0x5b :: 0x5b :: rest =>
    (headerKey budget 2 rest).map fun (k, rest) => (some (.arrayHeader k), rest)
  | 0x5b :: rest => (headerKey budget 1 rest).map fun (k, rest) => (some (.header k), rest)
  | _ =>
    match keyPart budget t with
    | none => none
    | some (k, rest) =>
      (value (2 * budget + 2) rest).map fun (v, rest) => (some (.setting k v), rest)

/-- Reads a line with the spaces and the comment on it, and leaves its end. -/
def line (budget : Nat) (t : Text) : Option (Option Line × Text) :=
  match statement budget (skipSpaces t) with
  | none => none
  | some (l, rest) => (skipComment (skipSpaces rest)).map (l, ·)

/-- The lines of a text. -/
structure Reading where
  lines : List Line
  /-- Every line was well formed. -/
  complete : Bool

namespace Reading

/-- Reads the lines that follow the end of a line; the budget is at least the length. -/
def after : Nat → Text → Reading
  | 0, t => ⟨[], t.isEmpty⟩
  | budget + 1, t =>
    if t.isEmpty then ⟨[], true⟩
    else
      match (newline t).bind (line budget) with
      | none => ⟨[], false⟩
      | some (l, rest) =>
        let r := after budget rest
        ⟨l.toList ++ r.lines, r.complete⟩

/-- Reads the lines of a text. -/
def of (t : Text) : Reading :=
  let budget := t.length
  match line budget t with
  | none => ⟨[], false⟩
  | some (l, rest) =>
    let r := after budget rest
    ⟨l.toList ++ r.lines, r.complete⟩

end Reading

end Lines

end Toml
end StackNative
