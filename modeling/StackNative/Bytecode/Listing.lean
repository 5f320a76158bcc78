import StackNative.Bytecode.Instruction

/-!
# Listings

**Input.** A chunk and its name.
**Algorithm.** One line for each instruction: its offset, its source line unless
the byte before it has the same one, its mnemonic and its operand.
**Results.** `Chunk.listing`, which ends at the first instruction that cannot be
read; `Chunk.isListable`, for chunks whose listing needs no missing number.
-/

namespace StackNative
namespace Bytecode
namespace Chunk

/-- The columns before the instruction. -/
def listingMargin (c : Chunk) (offset : Nat) : Text :=
  let line := c.lineAt offset
  Text.padLeft 4 0x30 (Text.ofNat offset) ++ " " ++
    (if 0 < offset && line == c.lineAt (offset - 1) then ("   | " : Text)
      else Text.padLeft 4 0x20 (Text.ofInt line.toInt) ++ " ")

/-- A mnemonic and an operand in their columns. -/
def listingColumns (i : Instruction) : Text :=
  Text.padRight 16 0x20 i.op.mnemonic ++ " " ++ Text.padLeft 4 0x20 (Text.ofInt i.operand)

/-- The constant that the line of an instruction shows. -/
def shownConstant? (c : Chunk) (i : Instruction) : Option Value :=
  match i.op with
  | .const | .constLong => c.constants[i.operand.toNat]?
  | _ => none

/-- The text of an instruction. -/
def listingBody (c : Chunk) (i : Instruction) : Text :=
  match i.op with
  | .const | .constLong =>
    let shown := match c.shownConstant? i with
      | some v => v.text
      | none => []
    listingColumns i ++ " '" ++ shown ++ "'"
  | .jump | .jumpIfFalse | .jumpIfTrue =>
    listingColumns i ++ " -> " ++ Text.ofInt (i.offset + 3 + i.operand)
  | .loop => listingColumns i ++ " -> " ++ Text.ofInt (i.offset + 3 - i.operand)
  | op => if 0 < op.operandWidth then listingColumns i else op.mnemonic

/-- The lines of a listing from an offset on, after those already written. -/
def listingFrom (c : Chunk) (offset : Nat) (done : Array Text) : Array Text :=
  if offset < c.length then
    match c.decode offset with
    | .error e => done.push (c.listingMargin offset ++ "<" ++ e.message ++ ">\n")
    | .ok i =>
      c.listingFrom (offset + i.width)
        (done.push (c.listingMargin offset ++ c.listingBody i ++ "\n"))
  else done
termination_by c.length - offset
decreasing_by
  have : 0 < i.width := by unfold Instruction.width; omega
  omega

/-- The listing of a chunk. -/
def listing (c : Chunk) (name : Text) : Text :=
  "=== " ++ name ++ " ===\n" ++ (c.listingFrom 0 #[]).toList.flatten

/-- The lines of a listing from an offset on need no missing number. -/
def isListableFrom (c : Chunk) (offset : Nat) : Bool :=
  if offset < c.length then
    match c.decode offset with
    | .error _ => true
    | .ok i =>
      (c.shownConstant? i).all Value.isComplete && c.isListableFrom (offset + i.width)
  else true
termination_by c.length - offset
decreasing_by
  have : 0 < i.width := by unfold Instruction.width; omega
  omega

/-- The listing of a chunk needs no missing number. -/
def isListable (c : Chunk) : Bool := c.isListableFrom 0

end Chunk
end Bytecode
end StackNative
