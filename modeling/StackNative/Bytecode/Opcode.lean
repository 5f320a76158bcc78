import StackNative.Text.LetterCase

/-!
# Opcodes

**Input.** Bytes and mnemonics.
**Results.** The opcodes of the stack machine in the order of their bytes, their
mnemonics, and the operand that follows each one in the code.
-/

namespace StackNative
namespace Bytecode

/-- An instruction of the stack machine. -/
inductive Opcode where
  | const
  | constLong
  | pushNull
  | pushTrue
  | pushFalse
  | pushZero
  | pushOne
  | pop
  | dup
  | swap
  | loadLocal
  | storeLocal
  | loadGlobal
  | storeGlobal
  | add
  | sub
  | mul
  | div
  | mod
  | neg
  | eq
  | ne
  | lt
  | le
  | gt
  | ge
  | not
  | and
  | or
  | bitAnd
  | bitOr
  | bitXor
  | bitNot
  | shl
  | shr
  | concat
  | jump
  | jumpIfFalse
  | jumpIfTrue
  | loop
  | call
  | ret
  | retNull
  | throw
  | print
  | printLn
  | debugPrint
  | halt
  deriving DecidableEq, Repr, Inhabited

/-- How the bytes after an opcode are read. -/
inductive OperandForm where
  | none
  | byte
  | word
  | signedWord
  deriving DecidableEq, Repr

/-- The number of bytes of an operand. -/
def OperandForm.width : OperandForm → Nat
  | .none => 0
  | .byte => 1
  | .word => 2
  | .signedWord => 2

namespace Opcode

/-- Every opcode, in the order of the bytes. -/
def all : Array Opcode :=
  #[.const, .constLong, .pushNull, .pushTrue, .pushFalse, .pushZero, .pushOne, .pop, .dup, .swap,
    .loadLocal, .storeLocal, .loadGlobal, .storeGlobal, .add, .sub, .mul, .div, .mod, .neg, .eq,
    .ne, .lt, .le, .gt, .ge, .not, .and, .or, .bitAnd, .bitOr, .bitXor, .bitNot, .shl, .shr,
    .concat, .jump, .jumpIfFalse, .jumpIfTrue, .loop, .call, .ret, .retNull, .throw, .print,
    .printLn, .debugPrint, .halt]

/-- The byte of an opcode. -/
def toByte (op : Opcode) : UInt8 := op.ctorIdx.toUInt8

/-- The opcode of a byte, if it has one. -/
def ofByte? (b : UInt8) : Option Opcode := all[b.toNat]?

/-- The mnemonic of an opcode. -/
def mnemonic : Opcode → Text
  | .const => "CONST"
  | .constLong => "CONST_LONG"
  | .pushNull => "NULL"
  | .pushTrue => "TRUE"
  | .pushFalse => "FALSE"
  | .pushZero => "ZERO"
  | .pushOne => "ONE"
  | .pop => "POP"
  | .dup => "DUP"
  | .swap => "SWAP"
  | .loadLocal => "LOAD_LOCAL"
  | .storeLocal => "STORE_LOCAL"
  | .loadGlobal => "LOAD_GLOBAL"
  | .storeGlobal => "STORE_GLOBAL"
  | .add => "ADD"
  | .sub => "SUB"
  | .mul => "MUL"
  | .div => "DIV"
  | .mod => "MOD"
  | .neg => "NEG"
  | .eq => "EQ"
  | .ne => "NE"
  | .lt => "LT"
  | .le => "LE"
  | .gt => "GT"
  | .ge => "GE"
  | .not => "NOT"
  | .and => "AND"
  | .or => "OR"
  | .bitAnd => "BIT_AND"
  | .bitOr => "BIT_OR"
  | .bitXor => "BIT_XOR"
  | .bitNot => "BIT_NOT"
  | .shl => "SHL"
  | .shr => "SHR"
  | .concat => "CONCAT"
  | .jump => "JUMP"
  | .jumpIfFalse => "JUMP_IF_FALSE"
  | .jumpIfTrue => "JUMP_IF_TRUE"
  | .loop => "LOOP"
  | .call => "CALL"
  | .ret => "RETURN"
  | .retNull => "RETURN_NULL"
  | .throw => "THROW"
  | .print => "PRINT"
  | .printLn => "PRINTLN"
  | .debugPrint => "DEBUG_PRINT"
  | .halt => "HALT"

/-- The name of a byte as an opcode, also where it is none. -/
def nameOfByte (b : UInt8) : Text :=
  match ofByte? b with
  | some op => op.mnemonic
  | none => "UNKNOWN(" ++ Text.ofNat b.toNat ++ ")"

/-- The opcode with a mnemonic, without regard to case. -/
def ofMnemonic? (name : Text) : Option Opcode :=
  let upper := Text.upperAscii name
  all.find? fun op => op.mnemonic == upper

/-- The operand that follows an opcode. -/
def operandForm : Opcode → OperandForm
  | .const | .call => .byte
  | .constLong | .loadLocal | .storeLocal | .loadGlobal | .storeGlobal | .loop => .word
  | .jump | .jumpIfFalse | .jumpIfTrue => .signedWord
  | _ => .none

/-- The number of operand bytes after an opcode. -/
def operandWidth (op : Opcode) : Nat := op.operandForm.width

/-- The opcodes whose operand names a constant. -/
def takesConstant (op : Opcode) : Bool := op == .const || op == .constLong

/-- The opcodes whose operand is a distance to jump. -/
def isJump : Opcode → Bool
  | .jump | .jumpIfFalse | .jumpIfTrue | .loop => true
  | _ => false

end Opcode
end Bytecode
end StackNative
