import StackNative.Number.Numeral
import StackNative.Text.Quoted

/-!
# Tokens of assembly text

**Input.** The bytes of a source.
**Algorithm.** A machine takes one byte at a time.  A byte that ends a lexeme
without belonging to it is taken again between lexemes.
**Results.** `tokens` gives every token with its position, the last one being the
end of the file, or all faults in the order of the text.
-/

namespace StackNative
namespace Assembly

/-- A place in a source, both numbers counted from one. -/
structure Position where
  line : Nat
  column : Nat
  deriving DecidableEq, Repr

/-- A position as `line:column`. -/
def Position.text (p : Position) : Text := Text.ofNat p.line ++ ":" ++ Text.ofNat p.column

/-- What a token is. -/
inductive Lexeme where
  | endOfFile
  | endOfLine
  | word (t : Text)
  | integer (t : Text)
  | float (t : Text)
  /-- A string with its escapes resolved. -/
  | string (content : Text)
  deriving DecidableEq, Repr

/-- The name of a kind of token. -/
def Lexeme.kindName : Lexeme → Text
  | .endOfFile => "end of file"
  | .endOfLine => "end of line"
  | .word _ => "identifier"
  | .integer _ => "integer"
  | .float _ => "float"
  | .string _ => "string"

/-- A token and where it begins. -/
structure Token where
  lexeme : Lexeme
  start : Position
  deriving DecidableEq, Repr

/-- What can be wrong with the bytes of a source. -/
inductive LexFault where
  | unexpectedCharacter (b : UInt8)
  | unterminatedString
  | invalidEscape (b : UInt8)
  deriving DecidableEq, Repr

/-- The text of a fault. -/
def LexFault.message : LexFault → Text
  | .unexpectedCharacter b => "unexpected character " ++ Text.quotedByte b
  | .unterminatedString => "unterminated string"
  | .invalidEscape b => "invalid escape sequence \\" ++ Text.charOfByte b

section Classes

open Numeral (isDigit)

/-- A byte that begins a word. -/
def isWordStart (b : UInt8) : Bool :=
  b == 0x5f || (0x61 ≤ b && b ≤ 0x7a) || (0x41 ≤ b && b ≤ 0x5a)

/-- A byte inside a word. -/
def isWordPart (b : UInt8) : Bool := isWordStart b || isDigit b

/-- A space, a tab or a carriage return. -/
def isGap (b : UInt8) : Bool := b == 0x20 || b == 0x09 || b == 0x0d

/-- A plus or a minus sign. -/
def isSign (b : UInt8) : Bool := b == 0x2b || b == 0x2d

/-- The letter before an exponent. -/
def isExponentMark (b : UInt8) : Bool := b == 0x65 || b == 0x45

/-- The byte that an escape stands for. -/
def unescape? (b : UInt8) : Option UInt8 :=
  match b with
  | 0x6e => some 0x0a
  | 0x74 => some 0x09
  | 0x72 => some 0x0d
  | 0x30 => some 0x00
  | 0x5c => some 0x5c
  | 0x22 => some 0x22
  | _ => none

end Classes

/-- What the machine is inside of.  The bytes of an open lexeme are kept last byte first. -/
inductive Mode where
  | between
  | comment
  /-- A sign, which begins a number only if a digit follows. -/
  | sign (b : UInt8) (start : Position)
  | word (start : Position) (last : Text)
  | number (start : Position) (hex : Bool) (last : Text)
  | string (start : Position) (last : Text)
  | escape (start : Position) (last : Text)

/-- The state of the machine: the place of the next byte, what is open, what is done. -/
structure Scan where
  next : Position
  mode : Mode
  tokens : Array Token
  faults : Array (Position × LexFault)

namespace Scan

/-- At the beginning of a source. -/
def init : Scan := ⟨⟨1, 1⟩, .between, #[], #[]⟩

/-- Adds a token. -/
def add (s : Scan) (lexeme : Lexeme) (start : Position) : Scan :=
  { s with tokens := s.tokens.push ⟨lexeme, start⟩ }

/-- Adds a fault. -/
def fault (s : Scan) (start : Position) (f : LexFault) : Scan :=
  { s with faults := s.faults.push (start, f) }

/-- One byte further on the same line, in a mode. -/
def advance (s : Scan) (mode : Mode) : Scan :=
  { s with next := ⟨s.next.line, s.next.column + 1⟩, mode := mode }

/-- Takes a byte between lexemes. -/
def begin (s : Scan) (b : UInt8) : Scan :=
  if isGap b then s.advance .between
  else if b == 0x0a then
    { s.add .endOfLine s.next with next := ⟨s.next.line + 1, 1⟩, mode := .between }
  else if b == 0x3b then s.advance .comment
  else if b == 0x22 then s.advance (.string s.next [])
  else if Numeral.isDigit b then s.advance (.number s.next false [b])
  else if isSign b then s.advance (.sign b s.next)
  else if isWordStart b then s.advance (.word s.next [b])
  else (s.fault s.next (.unexpectedCharacter b)).advance .between

/-- The token of a number.  Outside hexadecimal a point or an exponent makes it a float. -/
def numberLexeme (hex : Bool) (last : Text) : Lexeme :=
  let t := last.reverse
  if !hex && t.any fun b => b == 0x2e || isExponentMark b then .float t else .integer t

/-- The digits so far are a lone zero, after a sign or not. -/
def isLoneZero (last : Text) : Bool :=
  match last with
  | [0x30] => true
  | [0x30, sign] => isSign sign
  | _ => false

/-- The byte belongs to the number that is open. -/
def continuesNumber (hex : Bool) (last : Text) (b : UInt8) : Bool :=
  isWordPart b || (!hex && (b == 0x2e ||
    (isSign b && match last with
      | previous :: _ => isExponentMark previous
      | [] => false)))

/-- Closes what is open before a byte that does not belong to it. -/
def close (s : Scan) : Scan :=
  match s.mode with
  | .between | .comment => { s with mode := .between }
  | .sign b start => { s.fault start (.unexpectedCharacter b) with mode := .between }
  | .word start last => { s.add (.word last.reverse) start with mode := .between }
  | .number start hex last => { s.add (numberLexeme hex last) start with mode := .between }
  | .string start _ | .escape start _ =>
    { s.fault start .unterminatedString with mode := .between }

/-- Takes a byte. -/
def step (s : Scan) (b : UInt8) : Scan :=
  match s.mode with
  | .between => s.begin b
  | .comment => if b == 0x0a then s.close.begin b else s.advance .comment
  | .sign c start =>
    if Numeral.isDigit b then s.advance (.number start false [b, c]) else s.close.begin b
  | .word start last =>
    if isWordPart b then s.advance (.word start (b :: last)) else s.close.begin b
  | .number start hex last =>
    if continuesNumber hex last b then
      let hex := hex || ((b == 0x78 || b == 0x58) && isLoneZero last)
      s.advance (.number start hex (b :: last))
    else s.close.begin b
  | .string start last =>
    if b == 0x0a then s.close.begin b
    else if b == 0x22 then (s.add (.string last.reverse) start).advance .between
    else if b == 0x5c then s.advance (.escape start last)
    else s.advance (.string start (b :: last))
  | .escape start last =>
    match unescape? b with
    | some c => s.advance (.string start (c :: last))
    | none => (s.fault start (.invalidEscape b)).advance (.string start last)

/-- Ends the text: an open line is closed, and the end of the file follows. -/
def finish (s : Scan) : Scan :=
  let s := s.close
  let s := match s.tokens.back? with
    | none => s
    | some t => if t.lexeme = Lexeme.endOfLine then s else s.add .endOfLine s.next
  s.add .endOfFile s.next

end Scan

/-- The machine after a whole source. -/
def scan (source : Text) : Scan := (source.foldl Scan.step .init).finish

/-- The tokens of a source, or what is wrong with it. -/
def tokens (source : Text) : Except (List (Position × LexFault)) (List Token) :=
  let s := scan source
  if s.faults.isEmpty then .ok s.tokens.toList else .error s.faults.toList

end Assembly
end StackNative
