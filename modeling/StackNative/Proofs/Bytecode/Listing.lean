import StackNative.Bytecode.Listing
import StackNative.Proofs.Bytecode.Verified

/-!
# Listings show the code

**Input.**  A chunk with any code, any line table and any constants.

**Algorithm.**  Instructions are decoded one behind the other until there is a place where
none is.  Reading all instructions, writing the listing and looking for missing numbers are
three walks over the code; each of them takes the same steps.

**Results.**
* `Chunk.Decodes`, `Chunk.Stuck`: the instructions that are decoded up to an offset, and the
  offsets where none is.
* `Chunk.Decodes.prefix_of_stuck`: of the instructions up to there, no more are decoded.
* `Row`, `Row.text`: a line of a listing as data, and its text.
* `Chunk.Decodes.listingFrom`, `Chunk.Decodes.instructionsFrom`,
  `Chunk.Decodes.isListableFrom`: what each walk makes of decoded instructions.
* `Chunk.listing_of_instructions`: the listing of any chunk.
-/

namespace StackNative
namespace Bytecode

section Rows

/-- What a line of a listing says of the code. -/
inductive Entry where
  | plain (op : Opcode)
  | number (op : Opcode) (n : Int)
  /-- An index of the pool, and the constant if the pool has it. -/
  | constant (op : Opcode) (index : Int) (v : Option Value)
  | jump (op : Opcode) (distance target : Int)
  | fault (e : DecodeError)

/-- A line of a listing.  Its source line is left out where it is that of the byte before. -/
structure Row where
  offset : Nat
  line : Option Int64
  entry : Entry

/-- A mnemonic in sixteen columns and a number in four. -/
def Entry.columns (op : Opcode) (n : Int) : Text :=
  Text.padRight 16 0x20 op.mnemonic ++ " " ++ Text.padLeft 4 0x20 (Text.ofInt n)

def Entry.text : Entry → Text
  | .plain op => op.mnemonic
  | .number op n => columns op n
  | .constant op index v => columns op index ++ " '" ++ v.elim [] Value.text ++ "'"
  | .jump op distance target => columns op distance ++ " -> " ++ Text.ofInt target
  | .fault e => "<" ++ e.message ++ ">"

def Row.text (r : Row) : Text :=
  Text.padLeft 4 0x30 (Text.ofNat r.offset) ++ " " ++
    (match r.line with
      | some line => Text.padLeft 4 0x20 (Text.ofInt line.toInt) ++ " "
      | none => "   | ") ++
    r.entry.text ++ "\n"

/-- The first line of a listing. -/
def heading (name : Text) : Text := "=== " ++ name ++ " ===\n"

namespace Chunk

variable (c : Chunk)

/-- The source line of a byte, if the byte before has another one. -/
def changedLine (offset : Nat) : Option Int64 :=
  if 0 < offset ∧ c.lineAt offset = c.lineAt (offset - 1) then none else some (c.lineAt offset)

/-- What is said of an instruction: of a jump, where it goes. -/
def entry (i : Instruction) : Entry :=
  if i.op.takesConstant then .constant i.op i.operand c.constants[i.operand.toNat]?
  else if i.op.isJump then .jump i.op i.operand i.target
  else if 0 < i.op.operandWidth then .number i.op i.operand
  else .plain i.op

/-- The line of an instruction. -/
def row (i : Instruction) : Row := ⟨i.offset, c.changedLine i.offset, c.entry i⟩

/-- The line of a place where no instruction is decoded. -/
def faultRow (offset : Nat) (e : DecodeError) : Row := ⟨offset, c.changedLine offset, .fault e⟩

theorem text_row_eq (offset : Nat) (entry : Entry) :
    (Row.mk offset (c.changedLine offset) entry).text =
      c.listingMargin offset ++ entry.text ++ "\n" := by
  by_cases hsame : 0 < offset ∧ c.lineAt offset = c.lineAt (offset - 1)
  · simp [Row.text, changedLine, listingMargin, hsame]
  · simp [Row.text, changedLine, listingMargin, hsame]

theorem entry_of_isJump
    {i : Instruction}
    (h : i.op.isJump = true) :
    c.entry i = .jump i.op i.operand i.target := by
  obtain ⟨offset, op, operand, line⟩ := i
  cases op
  case jump | jumpIfFalse | jumpIfTrue | loop => rfl
  all_goals cases h

/-- The three bytes behind which a listing begins to count are the width of a jump. -/
theorem listingBody_of_isJump
    {i : Instruction}
    (h : i.op.isJump = true) :
    c.listingBody i = listingColumns i ++ " -> " ++ Text.ofInt i.target := by
  obtain ⟨offset, op, operand, line⟩ := i
  cases op
  case jump | jumpIfFalse | jumpIfTrue | loop => rfl
  all_goals cases h

theorem text_entry (i : Instruction) : (c.entry i).text = c.listingBody i := by
  by_cases hjump : i.op.isJump = true
  · rw [entry_of_isJump c hjump, listingBody_of_isJump c hjump]
    rfl
  · obtain ⟨offset, op, operand, line⟩ := i
    cases op
    case jump | jumpIfFalse | jumpIfTrue | loop =>
      exact absurd rfl hjump
    case const | constLong =>
      change Entry.text (.constant _ operand c.constants[operand.toNat]?) = _
      simp only [listingBody, shownConstant?]
      cases c.constants[operand.toNat]? <;> rfl
    all_goals rfl

/-- The line of an instruction is written as that line of the table. -/
theorem text_row (i : Instruction) :
    (c.row i).text = c.listingMargin i.offset ++ c.listingBody i ++ "\n" := by
  rw [row, text_row_eq, text_entry]

theorem text_faultRow (offset : Nat) (e : DecodeError) :
    (c.faultRow offset e).text = c.listingMargin offset ++ "<" ++ e.message ++ ">\n" := by
  have hclose : (">" : Text) ++ "\n" = ">\n" := by decide
  rw [faultRow, text_row_eq, Entry.text]
  simp only [List.append_assoc, hclose]

end Chunk

end Rows

section Walks

namespace Chunk

variable {c : Chunk} {offset stop : Nat} {is : List Instruction}

/-- Instructions are decoded one behind the other from an offset up to another. -/
inductive Decodes (c : Chunk) : Nat → List Instruction → Nat → Prop
  | done {offset : Nat} : Decodes c offset [] offset
  | step {offset stop : Nat} {i : Instruction} {is : List Instruction} :
      c.decode offset = .ok i → Decodes c (offset + i.width) is stop →
        Decodes c offset (i :: is) stop

/-- No instruction is decoded there. -/
def Stuck (c : Chunk) (offset : Nat) : Prop := ∀ i, c.decode offset ≠ .ok i

theorem end_le_of_decode
    {i : Instruction}
    (h : c.decode offset = .ok i) :
    offset + i.width ≤ c.length := by
  obtain ⟨-, -, -, hbytes⟩ := (c.decode_eq_ok_iff offset i).mp h
  have hle := hbytes.length_le
  have hpos := i.width_pos
  rw [i.length_bytes, List.length_drop, Array.length_toList] at hle
  rw [length]
  omega

theorem Decodes.stop_le
    (h : c.Decodes offset is stop)
    (hle : offset ≤ c.length) :
    stop ≤ c.length := by
  induction h with
  | done =>
      exact hle
  | step hdecode _ ih =>
      exact ih (end_le_of_decode hdecode)

/-- Each instruction takes a byte at least. -/
theorem Decodes.length_le
    (h : c.Decodes offset is stop) :
    offset + is.length ≤ stop := by
  induction h with
  | done =>
      exact Nat.le_refl _
  | @step offset stop i is hdecode _ ih =>
      have hpos := i.width_pos
      rw [List.length_cons]
      omega

/-- From every offset, instructions are decoded up to where none is. -/
theorem exists_decodes (c : Chunk) (offset : Nat) :
    ∃ is stop, c.Decodes offset is stop ∧ c.Stuck stop := by
  cases hdecode : c.decode offset with
  | error e =>
      refine ⟨[], offset, .done, ?_⟩
      simp [Stuck, hdecode]
  | ok i =>
      have hle := end_le_of_decode hdecode
      have hpos := i.width_pos
      obtain ⟨is, stop, his, hstop⟩ := exists_decodes c (offset + i.width)
      exact ⟨i :: is, stop, .step hdecode his, hstop⟩
termination_by c.length - offset

/-- No more instructions are decoded than those up to where none is. -/
theorem Decodes.prefix_of_stuck
    {js : List Instruction} {place : Nat}
    (hjs : c.Decodes offset js place)
    (his : c.Decodes offset is stop)
    (hstuck : c.Stuck stop) :
    js <+: is := by
  induction hjs generalizing is with
  | done =>
      exact List.nil_prefix
  | step hdecode _ ih =>
      cases his with
      | done =>
          exact absurd hdecode (hstuck _)
      | step hdecode' hrest =>
          rw [hdecode] at hdecode'
          cases hdecode'
          exact List.cons_prefix_cons.mpr ⟨rfl, ih hrest⟩

/-- The listing goes on behind decoded instructions, with a line for each. -/
theorem Decodes.listingFrom
    (h : c.Decodes offset is stop)
    (done : Array Text) :
    c.listingFrom offset done =
      c.listingFrom stop (done ++ (is.map fun i => (c.row i).text).toArray) := by
  induction h generalizing done with
  | done =>
      simp
  | @step offset stop i is hdecode _ ih =>
      have hle := end_le_of_decode hdecode
      have hpos := i.width_pos
      have hoffset := ((c.decode_eq_ok_iff offset i).mp hdecode).1
      rw [Chunk.listingFrom, if_pos (by omega), hdecode]
      simp only [ih, text_row, hoffset, List.map_cons]
      simp

/-- Reading goes on behind decoded instructions. -/
theorem Decodes.instructionsFrom
    (h : c.Decodes offset is stop)
    (done : Array Instruction) :
    c.instructionsFrom offset done = c.instructionsFrom stop (done ++ is.toArray) := by
  induction h generalizing done with
  | done =>
      simp
  | @step offset stop i is hdecode _ ih =>
      have hle := end_le_of_decode hdecode
      have hpos := i.width_pos
      rw [Chunk.instructionsFrom, if_pos (by omega), hdecode]
      simp [ih]

/-- The search for missing numbers goes on behind decoded instructions that show none. -/
theorem Decodes.isListableFrom
    (h : c.Decodes offset is stop) :
    c.isListableFrom offset =
      (is.all (fun i => (c.shownConstant? i).all Value.isComplete) && c.isListableFrom stop) := by
  induction h with
  | done =>
      simp
  | @step offset stop i is hdecode _ ih =>
      have hle := end_le_of_decode hdecode
      have hpos := i.width_pos
      rw [Chunk.isListableFrom, if_pos (by omega), hdecode]
      simp [ih, Bool.and_assoc]

end Chunk

end Walks

section Listings

namespace Chunk

variable {c : Chunk} {offset stop : Nat} {e : DecodeError}

/-- Where no instruction is decoded, the code ends or there is an error. -/
theorem Stuck.cases
    (h : c.Stuck stop) :
    c.length ≤ stop ∨ stop < c.length ∧ ∃ e, c.decode stop = .error e := by
  by_cases hend : c.length ≤ stop
  · exact Or.inl hend
  · refine Or.inr ⟨Nat.lt_of_not_le hend, ?_⟩
    cases hdecode : c.decode stop with
    | error e =>
        exact ⟨e, rfl⟩
    | ok i =>
        exact absurd hdecode (h i)

theorem offset_of_decode
    (h : c.decode offset = .error e) :
    e.offset = offset := by
  unfold decode at h
  grind

theorem isListableFrom_of_stuck
    (h : c.Stuck stop) :
    c.isListableFrom stop = true := by
  rw [isListableFrom]
  rcases h.cases with hend | ⟨hlt, e, he⟩
  · rw [if_neg (by omega)]
  · rw [if_pos hlt, he]

/-- How a listing goes on behind the instructions that are decoded, and what reading them all
comes to. -/
inductive Ends (c : Chunk) (is : List Instruction) (stop : Nat) : List Row → Prop
  /-- Nothing follows them in the code or in the listing. -/
  | code : stop = c.length → c.instructions = .ok is → Ends c is stop []
  /-- They are followed by the error that is the result of reading them all. -/
  | fault {e : DecodeError} : stop < c.length → e.offset = stop → c.instructions = .error e →
      Ends c is stop [c.faultRow stop e]

theorem Decodes.exists_ends
    {is : List Instruction}
    (h : c.Decodes 0 is stop)
    (hstuck : c.Stuck stop) :
    ∃ rows, c.Ends is stop rows ∧
      (c.listingFrom 0 #[]).toList = (is.map c.row ++ rows).map Row.text := by
  have hle := h.stop_le (Nat.zero_le _)
  rcases hstuck.cases with hend | ⟨hlt, e, he⟩
  · have hover : ¬ stop < c.length := by omega
    refine ⟨[], .code (by omega) ?_, ?_⟩
    · rw [instructions, h.instructionsFrom, Chunk.instructionsFrom, if_neg hover]
      simp [Except.map]
    · rw [h.listingFrom, Chunk.listingFrom, if_neg hover]
      simp
  · refine ⟨[c.faultRow stop e], .fault hlt (offset_of_decode he) ?_, ?_⟩
    · rw [instructions, h.instructionsFrom, Chunk.instructionsFrom, if_pos hlt, he]
      rfl
    · rw [h.listingFrom, Chunk.listingFrom, if_pos hlt, he]
      simp [text_faultRow]

theorem Ends.length_rows
    {is : List Instruction} {rows : List Row}
    (h : c.Ends is stop rows)
    (hdecodes : c.Decodes 0 is stop) :
    (is.map c.row ++ rows).length ≤ c.length := by
  have hlen := hdecodes.length_le
  cases h with
  | code hstop _ =>
      simp only [List.append_nil, List.length_map]
      omega
  | fault hlt _ _ =>
      simp only [List.length_append, List.length_map, List.length_singleton]
      omega

/-- The listing of a chunk is its heading and a table of no more lines than the code has bytes.
There is a line for each instruction of the longest part of the code that is decoded, at the
place where it is read.  They are all if that is all of the code; if not, one more line shows the
error that reading the instructions ends with, at its place.  A jump is shown with its target.
The listing asks for a missing number exactly if a line shows a constant that misses one. -/
theorem listing_of_instructions (c : Chunk) (name : Text) :
    ∃ is stop rows, c.Decodes 0 is stop ∧
      (∀ js offset, c.Decodes 0 js offset → js <+: is) ∧
      c.Ends is stop rows ∧
      c.listing name = heading name ++ (is.map c.row ++ rows).flatMap Row.text ∧
      (is.map c.row ++ rows).length ≤ c.length ∧
      (∀ i ∈ is, i.op ∈ [.jump, .jumpIfFalse, .jumpIfTrue, .loop] →
        (c.row i).entry = .jump i.op i.operand i.target) ∧
      (c.isListable = true ↔
        ∀ i ∈ is, ∀ v, c.shownConstant? i = some v → v.isComplete = true) := by
  obtain ⟨is, stop, hdecodes, hstuck⟩ := exists_decodes c 0
  obtain ⟨rows, hends, htable⟩ := hdecodes.exists_ends hstuck
  refine ⟨is, stop, rows, hdecodes, ?_, hends, ?_, hends.length_rows hdecodes, ?_, ?_⟩
  · intro js offset hjs
    exact hjs.prefix_of_stuck hdecodes hstuck
  · rw [listing, htable, ← List.flatMap_def]
    rfl
  · intro i _ hop
    exact entry_of_isJump c ((isJump_iff i.op).mpr hop)
  · rw [isListable, hdecodes.isListableFrom, isListableFrom_of_stuck hstuck]
    simp [Option.all_eq_true]

/-- A jump, a constant that the pool does not have, and a word that is cut off. -/
example :
    Chunk.listing ⟨some #[36, 255, 253, 0, 7, 10, 1], some #[1, 1, 1, 2], #[]⟩ "m" =
      "=== m ===\n" ++
      "0000    1 JUMP               -3 -> 0\n" ++
      "0003    2 CONST               7 \x27\x27\n" ++
      "0005    | <malformed bytecode at offset 5: truncated operand for LOAD_LOCAL>\n" := by
  cbv

end Chunk

end Listings

end Bytecode
end StackNative
