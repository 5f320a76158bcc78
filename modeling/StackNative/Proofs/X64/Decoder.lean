import StackNative.X64.Instruction

/-!
# Reading machine code

**Input.**  Bytes of 64-bit code.

**Algorithm.**  An instruction is an optional REX byte, an opcode of one or two
bytes, and what the opcode asks for: a ModR/M byte with its SIB byte and
displacement, or an immediate.  Displacements and immediates are extended by
their sign.  Code is swept from its beginning, each instruction right behind the
one before.

**Results.**  `decode` reads one instruction and `sweep` all of them.  Both know
the instructions of the assembler only, in every form of operand they are written
with; anything else is refused.
-/

namespace StackNative
namespace X64

/-- What an instruction tells the processor to do.  Places in the code are those of a type. -/
inductive Operation (place : Type) where
  | pair (op : PairOp) (target source : Reg)
  | wide (op : WideOp) (target source : Reg)
  | single (op : SingleOp) (r : Reg)
  | moveImm (target : Reg) (n : Int64)
  | subImm (target : Reg) (n : Int64)
  | load (target base : Reg) (offset : Int64)
  | store (base : Reg) (offset : Int64) (source : Reg)
  | lea (target base : Reg) (offset : Int64)
  /-- Loads the address of a place in the code. -/
  | leaPlace (target : Reg) (p : place)
  /-- Writes the lowest byte of a register. -/
  | setCond (c : Cond) (r : Reg)
  | push (r : Reg)
  | pop (r : Reg)
  | jump (p : place)
  | jumpIf (c : Cond) (p : place)
  | call (p : place)
  | callReg (r : Reg)
  | cqo
  | ret
  | syscall
  | ud2
  | int3
  deriving DecidableEq, Repr

/-- The operation with other places. -/
def Operation.map {p q : Type} (f : p → q) : Operation p → Operation q
  | .pair op target source => .pair op target source
  | .wide op target source => .wide op target source
  | .single op r => .single op r
  | .moveImm target n => .moveImm target n
  | .subImm target n => .subImm target n
  | .load target base offset => .load target base offset
  | .store base offset source => .store base offset source
  | .lea target base offset => .lea target base offset
  | .leaPlace target p => .leaPlace target (f p)
  | .setCond c r => .setCond c r
  | .push r => .push r
  | .pop r => .pop r
  | .jump p => .jump (f p)
  | .jumpIf c p => .jumpIf c (f p)
  | .call p => .call (f p)
  | .callReg r => .callReg r
  | .cqo => .cqo
  | .ret => .ret
  | .syscall => .syscall
  | .ud2 => .ud2
  | .int3 => .int3

section Numbers

/-- A signed byte. -/
def readInt8 : Text → Option (Int64 × Text)
  | b :: rest => some (b.toInt8.toInt64, rest)
  | [] => none

/-- The number of some bytes, the lowest first. -/
def numberOf : Text → Nat
  | [] => 0
  | b :: rest => b.toNat + 256 * numberOf rest

/-- The number of the first bytes. -/
def readNumber (count : Nat) (bytes : Text) : Option (Nat × Text) :=
  if count ≤ bytes.length then some (numberOf (bytes.take count), bytes.drop count) else none

def readInt32 (bytes : Text) : Option (Int32 × Text) :=
  (readNumber 4 bytes).map fun (n, rest) => (Int32.ofNat n, rest)

def readInt64 (bytes : Text) : Option (Int64 × Text) :=
  (readNumber 8 bytes).map fun (n, rest) => (Int64.ofNat n, rest)

end Numbers

section Operands

/-- The bits of a REX byte. -/
structure Rex where
  w : Bool := false
  r : Bool := false
  x : Bool := false
  b : Bool := false

/-- The REX byte, if there is one. -/
def readRex : Text → Option Rex × Text
  | byte :: rest =>
    if byte >>> 4 = 4 then
      (some ⟨byte &&& 8 != 0, byte &&& 4 != 0, byte &&& 2 != 0, byte &&& 1 != 0⟩, rest)
    else (none, byte :: rest)
  | [] => (none, [])

/-- The register of three bits and the bit that extends them. -/
def registerOf (extended : Bool) (bits : UInt8) : Reg :=
  ⟨if extended then 8 + bits.toNat else bits.toNat⟩

/-- The operand that a ModR/M byte names beside the register field. -/
inductive Operand where
  | register (r : Reg)
  | memory (base : Reg) (offset : Int64)
  /-- Counted from the end of the instruction. -/
  | relative (distance : Int32)

/-- The displacement of a mode. -/
def readDisplacement (mode : UInt8) (bytes : Text) : Option (Int64 × Text) :=
  if mode = 0 then some (0, bytes)
  else if mode = 1 then readInt8 bytes
  else (readInt32 bytes).map fun (n, rest) => (n.toInt64, rest)

/-- The ModR/M byte and what follows it: the bits of the register field and the operand.  A SIB
byte stands where the low bits of the base are those of `rsp`; one with an index, or without a
base, is refused. -/
def readOperand (rex : Rex) : Text → Option (UInt8 × Operand × Text)
  | [] => none
  | byte :: rest =>
    let mode := byte >>> 6
    let field := (byte >>> 3) &&& 7
    let low := byte &&& 7
    if mode = 3 then some (field, .register (registerOf rex.b low), rest)
    else if mode = 0 && low = 5 then
      (readInt32 rest).map fun (n, rest) => (field, .relative n, rest)
    else if low = 4 then
      match rest with
      | [] => none
      | sib :: rest =>
        if (sib >>> 3) &&& 7 = 4 && !rex.x && !(mode = 0 && sib &&& 7 = 5) then
          (readDisplacement mode rest).map fun (n, rest) =>
            (field, .memory (registerOf rex.b (sib &&& 7)) n, rest)
        else none
    else
      (readDisplacement mode rest).map fun (n, rest) =>
        (field, .memory (registerOf rex.b low) n, rest)

end Operands

section Opcodes

/-- Operations on an operand and the register of the register field. -/
def pairOp? : UInt8 → Option PairOp
  | 0x01 => some .add
  | 0x09 => some .or
  | 0x21 => some .and
  | 0x29 => some .sub
  | 0x31 => some .xor
  | 0x39 => some .cmp
  | 0x85 => some .test
  | 0x89 => some .mov
  | _ => none

/-- Operations on an operand that the register field tells apart. -/
def singleOp? : UInt8 → UInt8 → Option SingleOp
  | 0xf7, 2 => some .not
  | 0xf7, 3 => some .neg
  | 0xf7, 7 => some .idiv
  | 0xd3, 4 => some .shl
  | 0xd3, 7 => some .sar
  | _, _ => none

/-- The operation of an opcode with a ModR/M byte, on 64 bits. -/
def operandOperation (rex : Rex) (opcode field : UInt8) :
    Operand → Option (Operation Int)
  | .register r =>
    match opcode with
    | 0x8b => some (.pair .mov (registerOf rex.r field) r)
    | 0x8d => none
    | _ =>
      match singleOp? opcode field, pairOp? opcode with
      | some op, _ => some (.single op r)
      | none, some op => some (.pair op r (registerOf rex.r field))
      | none, none => none
  | .memory base offset =>
    match opcode with
    | 0x89 => some (.store base offset (registerOf rex.r field))
    | 0x8b => some (.load (registerOf rex.r field) base offset)
    | 0x8d => some (.lea (registerOf rex.r field) base offset)
    | _ => none
  | .relative distance =>
    if opcode = 0x8d then some (.leaPlace (registerOf rex.r field) distance.toInt) else none

/-- The operation of an opcode with a ModR/M byte and an immediate, on 64 bits. -/
def immediateOperation (opcode field : UInt8) (r : Reg) (rest : Text) :
    Option (Operation Int × Text) :=
  match opcode, field with
  | 0xc7, 0 => (readInt32 rest).map fun (n, rest) => (.moveImm r n.toInt64, rest)
  | 0x81, 5 => (readInt32 rest).map fun (n, rest) => (.subImm r n.toInt64, rest)
  | 0x83, 5 => (readInt8 rest).map fun (n, rest) => (.subImm r n, rest)
  | _, _ => none

/-- Reads what follows an opcode of one byte. -/
def decodeShort (rex : Rex) (opcode : UInt8) (rest : Text) : Option (Operation Int × Text) :=
  if opcode >>> 3 = 0x0a then some (.push (registerOf rex.b (opcode &&& 7)), rest)
  else if opcode >>> 3 = 0x0b then some (.pop (registerOf rex.b (opcode &&& 7)), rest)
  else if opcode >>> 3 = 0x17 then
    if rex.w then
      (readInt64 rest).map fun (n, rest) => (.moveImm (registerOf rex.b (opcode &&& 7)) n, rest)
    else none
  else if opcode = 0xc3 then some (.ret, rest)
  else if opcode = 0xcc then some (.int3, rest)
  else if opcode = 0xe8 then
    (readInt32 rest).map fun (n, rest) => (.call n.toInt, rest)
  else if opcode = 0xe9 then
    (readInt32 rest).map fun (n, rest) => (.jump n.toInt, rest)
  else if opcode = 0xff then
    match readOperand rex rest with
    | some (2, .register r, rest) => some (.callReg r, rest)
    | _ => none
  else if !rex.w then none
  else if opcode = 0x99 then some (.cqo, rest)
  else if opcode = 0xc7 || opcode = 0x81 || opcode = 0x83 then
    match readOperand rex rest with
    | some (field, .register r, rest) => immediateOperation opcode field r rest
    | _ => none
  else
    match readOperand rex rest with
    | some (field, operand, rest) => (operandOperation rex opcode field operand).map (·, rest)
    | none => none

/-- Reads what follows the first byte of an opcode of two bytes. -/
def decodeLong (rex : Option Rex) : Text → Option (Operation Int × Text)
  | [] => none
  | opcode :: rest =>
    if opcode >>> 4 = 0x8 then
      (readInt32 rest).map fun (n, rest) => (.jumpIf (opcode &&& 0xf) n.toInt, rest)
    else if opcode >>> 4 = 0x9 then
      match readOperand (rex.getD {}) rest with
      | some (_, .register r, rest) =>
        -- Without a REX byte the numbers 4 to 7 name the second bytes of the first registers.
        if rex.isNone && 4 ≤ r.number then none else some (.setCond (opcode &&& 0xf) r, rest)
      | _ => none
    else if opcode = 0x05 then some (.syscall, rest)
    else if opcode = 0x0b then some (.ud2, rest)
    else if !(rex.getD {}).w then none
    else
      match readOperand (rex.getD {}) rest with
      | some (field, .register r, rest) =>
        if opcode = 0xaf then some (.wide .imul (registerOf (rex.getD {}).r field) r, rest)
        else if opcode = 0xb6 then some (.wide .movzx8 (registerOf (rex.getD {}).r field) r, rest)
        else none
      | _ => none

/-- Reads an instruction.  Places are distances from its end. -/
def decode (bytes : Text) : Option (Operation Int × Text) :=
  let (rex, rest) := readRex bytes
  match rest with
  | [] => none
  | opcode :: rest =>
    if opcode = 0x0f then decodeLong rex rest else decodeShort (rex.getD {}) opcode rest

end Opcodes

/-- Reads the instruction at an offset of the code, and the number of its bytes.  Places are
offsets. -/
def decodeAt (code : Text) (offset : Nat) : Option (Operation Int × Nat) :=
  (decode (code.drop offset)).map fun (op, rest) =>
    (op.map fun distance => ((code.length - rest.length : Nat) : Int) + distance,
      code.length - offset - rest.length)

/-- Reads all instructions from an offset of the code on, each with its offset. -/
def sweep (code : Text) (offset : Nat) : Option (List (Nat × Operation Int)) :=
  if offset < code.length then
    match decodeAt code offset with
    | none => none
    | some (op, size) =>
      if 0 < size then (sweep code (offset + size)).map ((offset, op) :: ·) else none
  else some []
termination_by code.length - offset

end X64
end StackNative
