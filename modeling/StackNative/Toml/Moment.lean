import StackNative.Text.Basic

/-!
# Dates and times of day

A date has a year, a month and a day; a time of day has hours, minutes, seconds
and perhaps a fraction; a date with a time may have an offset from universal
time.

**Input.** Bytes where a value starts.
**Algorithm.** The bytes that can stand in a date or a time are cut off first, and
what they contain says which form they have to have.
**Results.** `Moment.cut` with the bytes, their form and the rest; `Moment.isValid`
for bytes that have their form and name a day and a time that exist.
-/

namespace StackNative
namespace Toml
namespace Moment

/-- What the bytes have to be. -/
inductive Form where
  | date
  | time
  | dateTime
  | offsetDateTime
  deriving DecidableEq, Repr

/-- A decimal digit. -/
def isDigit (b : UInt8) : Bool := 0x30 ≤ b && b ≤ 0x39

section Cutting

/-- What has been seen in the bytes that are cut off. -/
structure Seen where
  count : Nat := 0
  date : Bool := false
  time : Bool := false
  offset : Bool := false
  /-- A space between a date and a time. -/
  space : Bool := false
  deriving DecidableEq, Repr

/-- A hyphen from here on belongs to an offset. -/
def offsetStart : Nat := 8

/-- What is seen after one more byte, if it can stand in a date or a time. -/
def Seen.next? (s : Seen) (b : UInt8) : Option Seen :=
  let s' := { s with count := s.count + 1 }
  if isDigit b then some s'
  else if b == 0x2d then
    some { s' with date := true, offset := s.offset || offsetStart ≤ s.count }
  else if b == 0x54 || b == 0x74 || b == 0x3a || b == 0x2e then some { s' with time := true }
  else if b == 0x2b || b == 0x5a || b == 0x7a then some { s' with offset := true }
  else none

/-- Goes on over bytes that can stand in a date or a time.  One space can, if a digit follows;
the byte after that digit is taken with it. -/
def scan (s : Seen) : Text → Seen
  | [] => s
  | [b] => (s.next? b).getD s
  | b :: d :: rest =>
    if b == 0x20 then
      if s.space || !isDigit d then s
      else
        let s := { s with time := true, space := true }
        match rest with
        | [] => { s with count := s.count + 2 }
        | _ :: rest => scan { s with count := s.count + 3 } rest
    else
      match s.next? b with
      | none => s
      | some s => scan s (d :: rest)

/-- The form of bytes by what was seen in them. -/
def Seen.form (s : Seen) : Form :=
  if s.time then
    if s.date then (if s.offset then .offsetDateTime else .dateTime) else .time
  else .date

/-- A value that starts like this is a date or a time. -/
def starts : Text → Bool
  | a :: b :: c :: rest =>
    isDigit a && isDigit b &&
      (c == 0x3a || (isDigit c &&
        match rest with
        | d :: e :: _ => isDigit d && e == 0x2d
        | _ => false))
  | _ => false

/-- The bytes of a date or a time, their form, and the rest. -/
def cut (t : Text) : Text × Form × Text :=
  let s := scan {} t
  (t.take s.count, s.form, t.drop s.count)

end Cutting

section Reading

/-- Reads a number of so many digits. -/
def number? (digits : Nat) (t : Text) : Option (Nat × Text) :=
  let ds := t.take digits
  if ds.length == digits && ds.all isDigit then
    some (ds.foldl (fun n b => n * 10 + (b.toNat - 0x30)) 0, t.drop digits)
  else none

/-- Reads one of some bytes. -/
def mark? (marks : List UInt8) : Text → Option Text
  | [] => none
  | b :: rest => if marks.contains b then some rest else none

/-- Leap years are those that four divides, except full centuries that 400 does not divide. -/
def isLeapYear (year : Nat) : Bool := year % 4 == 0 && (year % 100 != 0 || year % 400 == 0)

/-- The number of days of a month, zero for what is no month. -/
def daysIn (year month : Nat) : Nat :=
  if month == 2 then (if isLeapYear year then 29 else 28)
  else if month == 4 || month == 6 || month == 9 || month == 11 then 30
  else if 1 ≤ month && month ≤ 12 then 31
  else 0

/-- The rest after a day that exists. -/
def afterDate? (t : Text) : Option Text := do
  let (year, t) ← number? 4 t
  let t ← mark? [0x2d] t
  let (month, t) ← number? 2 t
  let t ← mark? [0x2d] t
  let (day, t) ← number? 2 t
  if 1 ≤ day && day ≤ daysIn year month then some t else none

/-- The rest after a fraction, which has at least one digit. -/
def afterFraction? : Text → Option Text
  | 0x2e :: rest => if rest.head?.any isDigit then some (rest.dropWhile isDigit) else none
  | t => some t

/-- The rest after a time of day; a minute may end in a leap second. -/
def afterTime? (t : Text) : Option Text := do
  let (hours, t) ← number? 2 t
  let t ← mark? [0x3a] t
  let (minutes, t) ← number? 2 t
  let t ← mark? [0x3a] t
  let (seconds, t) ← number? 2 t
  if hours ≤ 23 && minutes ≤ 59 && seconds ≤ 60 then afterFraction? t else none

/-- The rest after a day and a time of day. -/
def afterDateTime? (t : Text) : Option Text :=
  ((afterDate? t).bind (mark? [0x54, 0x74, 0x20])).bind afterTime?

/-- The rest after an offset from universal time. -/
def afterOffset? (t : Text) : Option Text :=
  match mark? [0x5a, 0x7a] t with
  | some rest => some rest
  | none => do
    let t ← mark? [0x2b, 0x2d] t
    let (hours, t) ← number? 2 t
    let t ← mark? [0x3a] t
    let (minutes, t) ← number? 2 t
    if hours ≤ 23 && minutes ≤ 59 then some t else none

/-- The bytes have a form and nothing follows. -/
def isValid (form : Form) (t : Text) : Bool :=
  match form with
  | .date => afterDate? t == some []
  | .time => afterTime? t == some []
  | .dateTime => afterDateTime? t == some []
  | .offsetDateTime => (afterDateTime? t).bind afterOffset? == some []

end Reading

end Moment
end Toml
end StackNative
