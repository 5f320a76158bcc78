import StackNative.Assembly.Token
import StackNative.Bytecode.Chunk

/-!
# Statements of assembly text

**Input.** Tokens.
**Algorithm.** Each line is read on its own: a mnemonic, the operand that its
opcode asks for, and nothing more.
**Results.** `statements`, all of them or all faults, in the order of the lines.
-/

namespace StackNative
namespace Assembly

open Bytecode (Opcode Value)

/-- What a line tells the machine to do. -/
inductive Operation where
  | plain (op : Opcode)
  | withInteger (op : Opcode) (n : Int64) (place : Position)
  /-- Loads a constant, by the long instruction only if asked for. -/
  | loadConstant (long : Bool) (literal : Value)

/-- A line with an instruction. -/
structure Statement where
  operation : Operation
  start : Position

/-- What can be wrong with a line. -/
inductive ParseFault where
  | expectedMnemonic (got : Text)
  | unknownMnemonic (name : Text)
  | trailing (got : Text) (op : Opcode)
  | invalidInteger (numeral : Text)
  | invalidFloat (numeral : Text)
  | expectedLiteralNotWord (op : Opcode) (word : Text)
  | expectedLiteral (op : Opcode) (got : Text)
  | expectedInteger (op : Opcode) (got : Text)
  deriving DecidableEq, Repr

/-- The text of a fault. -/
def ParseFault.message : ParseFault → Text
  | .expectedMnemonic got => "expected mnemonic, got " ++ got
  | .unknownMnemonic name => "unknown mnemonic " ++ Text.quoted name
  | .trailing got op => "unexpected " ++ got ++ " after " ++ op.mnemonic
  | .invalidInteger numeral => "invalid integer " ++ Text.quoted numeral
  | .invalidFloat numeral => "invalid float " ++ Text.quoted numeral
  | .expectedLiteralNotWord op word =>
    op.mnemonic ++ " expects a literal, got " ++ Text.quoted word
  | .expectedLiteral op got => op.mnemonic ++ " expects a literal, got " ++ got
  | .expectedInteger op got => op.mnemonic ++ " expects an integer operand, got " ++ got

/-- A fault at a position. -/
abbrev Fault := Position × ParseFault

section Operands

/-- The constant that a token is written for. -/
def readLiteral (op : Opcode) (t : Token) : Except Fault Value :=
  match t.lexeme with
  | .integer numeral =>
    match Numeral.readInt64? numeral with
    | some n => .ok (.int n)
    | none => .error (t.start, .invalidInteger numeral)
  | .float numeral =>
    match Numeral.readBinary64? numeral with
    | some x => .ok (.float x)
    | none => .error (t.start, .invalidFloat numeral)
  | .string content => .ok (.string content)
  | .word w =>
    if w = Text.ofString "true" then .ok (.bool true)
    else if w = Text.ofString "false" then .ok (.bool false)
    else if w = Text.ofString "null" then .ok .null
    else .error (t.start, .expectedLiteralNotWord op w)
  | other => .error (t.start, .expectedLiteral op other.kindName)

/-- The integer that a token is written for. -/
def readInteger (op : Opcode) (t : Token) : Except Fault Int64 :=
  match t.lexeme with
  | .integer numeral =>
    match Numeral.readInt64? numeral with
    | some n => .ok n
    | none => .error (t.start, .invalidInteger numeral)
  | other => .error (t.start, .expectedInteger op other.kindName)

end Operands

section Lines

/-- The first of the tokens, or the end of the line where there is none. -/
def firstOr (lineEnd : Token) : List Token → Token
  | [] => lineEnd
  | t :: _ => t

/-- Reads the operand of an opcode and what stands after it. -/
def readOperation (op : Opcode) (lineEnd : Token) (rest : List Token) :
    Except Fault (Operation × List Token) :=
  let t := firstOr lineEnd rest
  if op.takesConstant then
    match readLiteral op t with
    | .ok v => .ok (.loadConstant (op = .constLong) v, rest.tail)
    | .error f => .error f
  else if 0 < op.operandWidth then
    match readInteger op t with
    | .ok n => .ok (.withInteger op n t.start, rest.tail)
    | .error f => .error f
  else .ok (.plain op, rest)

/-- Reads a line that has at least one token. -/
def readLine (first : Token) (rest : List Token) (lineEnd : Token) : Except Fault Statement :=
  match first.lexeme with
  | .word name =>
    match Opcode.ofMnemonic? name with
    | none => .error (first.start, .unknownMnemonic name)
    | some op =>
      match readOperation op lineEnd rest with
      | .error f => .error f
      | .ok (operation, []) => .ok ⟨operation, first.start⟩
      | .ok (_, next :: _) => .error (next.start, .trailing next.lexeme.kindName op)
  | other => .error (first.start, .expectedMnemonic other.kindName)

/-- The statements and the faults of the lines read so far. -/
structure Parsed where
  statements : Array Statement := #[]
  faults : Array Fault := #[]

/-- Adds what a line gives; a line without tokens gives nothing. -/
def Parsed.addLine (p : Parsed) (line : List Token) (lineEnd : Token) : Parsed :=
  match line with
  | [] => p
  | first :: rest =>
    match readLine first rest lineEnd with
    | .ok s => { p with statements := p.statements.push s }
    | .error f => { p with faults := p.faults.push f }

/-- Reads lines; the tokens of the open line are kept last token first. -/
def readLines (p : Parsed) (line : List Token) : List Token → Parsed
  | [] => p
  | t :: rest =>
    if t.lexeme = Lexeme.endOfLine then readLines (p.addLine line.reverse t) [] rest
    else readLines p (t :: line) rest

end Lines

/-- The statements that tokens make up, or what is wrong with them. -/
def statements (ts : List Token) : Except (List Fault) (List Statement) :=
  let p := readLines {} [] ts
  if p.faults.isEmpty then .ok p.statements.toList else .error p.faults.toList

end Assembly
end StackNative
