import StackNative.Bytecode.Instruction

/-!
# Code as the bytes of its instructions

**Input.**  A chunk with any code and any line table.

**Algorithm.**  Each form of operand has a type of operands, their bytes and the
integers they are read as.  An instruction is decoded exactly where its bytes stand.

**Results.**
* `Chunk.decode_eq_ok_iff`: what is decoded at an offset.
* `Chunk.Consists`: the code is the bytes of instructions, one after the other.
* `Chunk.instructions_eq_ok_iff`: these are the instructions that are read.
* `Chunk.Written`, `Chunk.Written.extend`: writing the bytes of an instruction adds it
  to those that are read.
-/

namespace StackNative
namespace Bytecode

section Words

/-- A word is made of its two bytes. -/
theorem word_of_bytes (w : UInt16) :
    ((w >>> 8).toUInt8.toUInt16 <<< 8) ||| w.toUInt8.toUInt16 = w := by
  rw [← UInt16.toBitVec_inj]
  ext k hk
  simp only [UInt16.toBitVec_or, UInt16.toBitVec_shiftLeft, UInt8.toBitVec_toUInt16,
    UInt16.toBitVec_toUInt8, UInt16.toBitVec_shiftRight]
  simp
  grind

theorem high_of_word (high low : UInt8) :
    (((high.toUInt16 <<< 8) ||| low.toUInt16) >>> 8).toUInt8 = high := by
  rw [← UInt8.toBitVec_inj]
  ext k hk
  simp
  grind

theorem low_of_word (high low : UInt8) :
    ((high.toUInt16 <<< 8) ||| low.toUInt16).toUInt8 = low := by
  rw [← UInt8.toBitVec_inj]
  ext k hk
  simp

end Words

section Operands

/-- The operands of a form. -/
abbrev OperandForm.Operand : OperandForm → Type
  | .none => Unit
  | .byte => UInt8
  | .word => UInt16
  | .signedWord => Int16

namespace OperandForm

/-- The integer that an operand is read as. -/
def value : (form : OperandForm) → form.Operand → Int
  | .none, _ => 0
  | .byte, b => UInt8.toNat b
  | .word, w => UInt16.toNat w
  | .signedWord, w => Int16.toInt w

/-- The operand that an integer is cut to. -/
def ofInt : (form : OperandForm) → Int → form.Operand
  | .none, _ => ()
  | .byte, n => UInt8.ofInt n
  | .word, n => UInt16.ofInt n
  | .signedWord, n => Int16.ofInt n

/-- The bytes of a word, the high one first. -/
def wordBytes (w : UInt16) : List UInt8 := [(w >>> 8).toUInt8, w.toUInt8]

/-- The bytes of an operand. -/
def bytes : (form : OperandForm) → form.Operand → List UInt8
  | .none, _ => []
  | .byte, b => [b]
  | .word, w => wordBytes w
  | .signedWord, w => wordBytes (Int16.toUInt16 w)

/-- An operand is the one of its value. -/
theorem ofInt_value (form : OperandForm) (x : form.Operand) : form.ofInt (form.value x) = x := by
  cases form with
  | none =>
      rfl
  | byte =>
      refine UInt8.toNat_inj.mp ?_
      have hlt := UInt8.toNat_lt x
      simp only [ofInt, value, UInt8.ofInt, UInt8.toNat_ofNat']
      omega
  | word =>
      refine UInt16.toNat_inj.mp ?_
      have hlt := UInt16.toNat_lt x
      simp only [ofInt, value, UInt16.ofInt, UInt16.toNat_ofNat']
      omega
  | signedWord =>
      exact Int16.ofInt_toInt x

/-- An operand has as many bytes as its form says. -/
theorem length_bytes (form : OperandForm) (x : form.Operand) :
    (form.bytes x).length = form.width := by
  cases form <;> rfl

end OperandForm

/-- An opcode is read from its byte. -/
theorem Opcode.ofByte?_toByte (op : Opcode) : Opcode.ofByte? op.toByte = some op := by
  cases op <;> rfl

/-- An opcode has the byte that it is read from. -/
theorem Opcode.toByte_of_ofByte?
    {b : UInt8} {op : Opcode}
    (h : Opcode.ofByte? b = some op) :
    op.toByte = b := by
  have hall : ∀ (k : Nat) (_ : k < Opcode.all.size), Opcode.all[k].toByte = k.toUInt8 := by
    decide
  obtain ⟨hlt, rfl⟩ := Array.getElem?_eq_some_iff.mp h
  rw [hall b.toNat hlt]
  simp

end Operands

section Instructions

namespace Instruction

/-- The operand, cut to what the opcode has bytes for. -/
def cut (i : Instruction) : i.op.operandForm.Operand := i.op.operandForm.ofInt i.operand

/-- The operand is one that the opcode has bytes for. -/
def Fits (i : Instruction) : Prop := i.op.operandForm.value i.cut = i.operand

instance (i : Instruction) : Decidable i.Fits :=
  inferInstanceAs (Decidable (i.op.operandForm.value i.cut = i.operand))

/-- The bytes of an instruction. -/
def bytes (i : Instruction) : List UInt8 := i.op.toByte :: i.op.operandForm.bytes i.cut

theorem length_bytes (i : Instruction) : i.bytes.length = i.width := by
  rw [bytes, List.length_cons, OperandForm.length_bytes, width, Opcode.operandWidth, Nat.add_comm]

/-- An instruction has a byte at least. -/
theorem width_pos (i : Instruction) : 0 < i.width := by
  rw [width]
  omega

/-- The instruction of an opcode and an operand of its form. -/
def coded (offset : Nat) (op : Opcode) (x : op.operandForm.Operand) (line : Int64) : Instruction :=
  ⟨offset, op, op.operandForm.value x, line⟩

/-- An instruction that is made of an opcode and its operand fits the form of the operand. -/
theorem fits_coded (offset : Nat) (op : Opcode) (x : op.operandForm.Operand) (line : Int64) :
    (coded offset op x line).Fits := by
  simp only [Fits, cut, coded, OperandForm.ofInt_value]

/-- Its bytes are the one of the opcode and those of the operand. -/
theorem bytes_coded (offset : Nat) (op : Opcode) (x : op.operandForm.Operand) (line : Int64) :
    (coded offset op x line).bytes = op.toByte :: op.operandForm.bytes x := by
  simp only [bytes, cut, coded, OperandForm.ofInt_value]

end Instruction

/-- Bytes stand at an offset if the first one does, and the others behind it. -/
theorem cons_prefix_drop_iff (b : UInt8) (bs code : List UInt8) (offset : Nat) :
    b :: bs <+: code.drop offset ↔ code[offset]? = some b ∧ bs <+: code.drop (offset + 1) := by
  by_cases hlt : offset < code.length
  · rw [List.drop_eq_getElem_cons hlt, List.cons_prefix_cons, List.getElem?_eq_getElem hlt,
      Option.some_inj, eq_comm]
  · have hdrop : code.drop offset = [] := List.drop_eq_nil_of_le (by omega)
    have hnone : code[offset]? = none := List.getElem?_eq_none (by omega)
    simp [hdrop, hnone]

namespace Chunk

variable {c : Chunk}

/-- A word is read exactly where its bytes stand. -/
theorem readWord?_eq_some (c : Chunk) (offset : Nat) (w : UInt16) :
    c.readWord? offset = some w ↔ OperandForm.wordBytes w <+: c.code.toList.drop offset := by
  rw [OperandForm.wordBytes, cons_prefix_drop_iff, cons_prefix_drop_iff, readWord?,
    ← Array.getElem?_toList, ← Array.getElem?_toList]
  cases c.code.toList[offset]? with
  | none =>
      simp
  | some high =>
      cases c.code.toList[offset + 1]? with
      | none =>
          simp
      | some low =>
          simp only [Option.some_inj, List.nil_prefix, and_true]
          constructor
          · rintro rfl
            exact ⟨(high_of_word high low).symm, (low_of_word high low).symm⟩
          · rintro ⟨rfl, rfl⟩
            exact word_of_bytes w

/-- An operand is read exactly where its bytes stand. -/
theorem readOperand?_eq_some (c : Chunk) (offset : Nat) (form : OperandForm) (n : Int) :
    c.readOperand? offset form = some n ↔
      ∃ x, form.value x = n ∧ form.bytes x <+: c.code.toList.drop offset := by
  cases form with
  | none =>
      rw [readOperand?, Option.some_inj]
      exact ⟨fun h => ⟨(), h, List.nil_prefix⟩, fun ⟨_, h, _⟩ => h⟩
  | byte =>
      simp only [readOperand?, Option.map_eq_some_iff, OperandForm.value, OperandForm.bytes,
        cons_prefix_drop_iff, List.nil_prefix, and_true, Array.getElem?_toList]
      exact exists_congr fun b => and_comm
  | word =>
      simp only [readOperand?, Option.map_eq_some_iff, OperandForm.value, OperandForm.bytes,
        readWord?_eq_some]
      exact exists_congr fun w => and_comm
  | signedWord =>
      simp only [readOperand?, readSignedWord?, Option.map_eq_some_iff, OperandForm.value,
        OperandForm.bytes, readWord?_eq_some]
      constructor
      · rintro ⟨_, ⟨w, hw, rfl⟩, hn⟩
        exact ⟨w.toInt16, hn, by simpa using hw⟩
      · rintro ⟨x, hn, hx⟩
        exact ⟨x, ⟨x.toUInt16, hx, by simp⟩, hn⟩

/-- An instruction is decoded exactly where its bytes stand, with the line of its first byte. -/
theorem decode_eq_ok_iff (c : Chunk) (offset : Nat) (i : Instruction) :
    c.decode offset = .ok i ↔
      i.offset = offset ∧ i.line = c.lineAt offset ∧ i.Fits ∧
        i.bytes <+: c.code.toList.drop offset := by
  rw [Instruction.bytes, cons_prefix_drop_iff, Array.getElem?_toList]
  constructor
  · intro h
    unfold decode at h
    split at h
    · cases h
    · next b hb =>
        split at h
        · cases h
        · next op hop =>
            split at h
            · cases h
            · next n hn =>
                cases h
                obtain ⟨x, rfl, hx⟩ := (c.readOperand?_eq_some (offset + 1) _ n).mp hn
                have hcut := op.operandForm.ofInt_value x
                refine ⟨rfl, rfl, ?_, ?_, ?_⟩
                · simp only [Instruction.Fits, Instruction.cut, hcut]
                · rw [hb, Opcode.toByte_of_ofByte? hop]
                · simpa only [Instruction.cut, hcut] using hx
  · rintro ⟨rfl, hline, hfits, hb, hx⟩
    have hread := (c.readOperand?_eq_some (i.offset + 1) i.op.operandForm i.operand).mpr
      ⟨i.cut, hfits, hx⟩
    simp only [decode, hb, Opcode.ofByte?_toByte, hread, ← hline]

end Chunk

end Instructions

section Sequences

/-- Instructions that stand one behind the other from an offset on. -/
def Consecutive : Nat → List Instruction → Prop
  | _, [] => True
  | offset, i :: is => i.offset = offset ∧ Consecutive (offset + i.width) is

/-- The end of instructions that begin at an offset. -/
def endOf (offset : Nat) (is : List Instruction) : Nat :=
  offset + (is.flatMap Instruction.bytes).length

theorem endOf_cons (offset : Nat) (i : Instruction) (is : List Instruction) :
    endOf offset (i :: is) = endOf (offset + i.width) is := by
  rw [endOf, endOf, List.flatMap_cons, List.length_append, Instruction.length_bytes, Nat.add_assoc]

/-- Instructions follow each other if those behind begin where those in front end. -/
theorem consecutive_append (offset : Nat) (is js : List Instruction) :
    Consecutive offset (is ++ js) ↔ Consecutive offset is ∧ Consecutive (endOf offset is) js := by
  induction is generalizing offset with
  | nil =>
      simp [Consecutive, endOf]
  | cons i is ih =>
      rw [List.cons_append, Consecutive, Consecutive, ih, endOf_cons, and_assoc]

/-- An instruction begins before the end of those that follow each other. -/
theorem Consecutive.lt_endOf
    {offset : Nat} {is : List Instruction}
    (h : Consecutive offset is)
    {i : Instruction}
    (hi : i ∈ is) :
    i.offset < endOf offset is := by
  induction is generalizing offset with
  | nil =>
      cases hi
  | cons j is ih =>
      rw [endOf_cons]
      rcases List.mem_cons.mp hi with rfl | hi
      · have hpos := i.width_pos
        have hoffset := h.1
        rw [endOf]
        omega
      · exact ih h.2 hi

namespace Chunk

variable {c : Chunk} {is : List Instruction}

/-- The code from an offset on is the bytes of instructions, each with the line of its first
byte. -/
structure ConsistsFrom (c : Chunk) (offset : Nat) (is : List Instruction) : Prop where
  bytes : c.code.toList.drop offset = is.flatMap Instruction.bytes
  consecutive : Consecutive offset is
  fits : ∀ i ∈ is, i.Fits
  lines : ∀ i ∈ is, i.line = c.lineAt i.offset

/-- The whole code is the bytes of instructions. -/
abbrev Consists (c : Chunk) (is : List Instruction) : Prop := c.ConsistsFrom 0 is

/-- No instruction is left exactly behind the code. -/
theorem consistsFrom_nil_iff (c : Chunk) (offset : Nat) :
    c.ConsistsFrom offset [] ↔ c.length ≤ offset := by
  constructor
  · intro h
    exact List.drop_eq_nil_iff.mp h.bytes
  · intro h
    exact ⟨List.drop_eq_nil_of_le h, trivial, by simp, by simp⟩

/-- The first of the instructions that are left is decoded, and the others stand behind it. -/
theorem consistsFrom_cons_iff (c : Chunk) (offset : Nat) (i : Instruction)
    (is : List Instruction) :
    c.ConsistsFrom offset (i :: is) ↔
      c.decode offset = .ok i ∧ c.ConsistsFrom (offset + i.width) is := by
  rw [decode_eq_ok_iff]
  constructor
  · rintro ⟨hbytes, ⟨rfl, hrest⟩, hfits, hlines⟩
    rw [List.flatMap_cons] at hbytes
    refine ⟨⟨rfl, hlines i List.mem_cons_self, hfits i List.mem_cons_self, ?_⟩, ?_, hrest, ?_, ?_⟩
    · rw [hbytes]
      exact List.prefix_append _ _
    · rw [← List.drop_drop, hbytes, ← i.length_bytes, List.drop_left]
    · exact fun j hj => hfits j (List.mem_cons_of_mem i hj)
    · exact fun j hj => hlines j (List.mem_cons_of_mem i hj)
  · rintro ⟨⟨rfl, hline, hfits, hbytes⟩, hrest⟩
    refine ⟨?_, ⟨rfl, hrest.consecutive⟩, ?_, ?_⟩
    · obtain ⟨back, hback⟩ := hbytes
      have hdrop := hrest.bytes
      rw [← List.drop_drop, ← hback, ← i.length_bytes, List.drop_left] at hdrop
      rw [← hback, hdrop, List.flatMap_cons]
    · exact List.forall_mem_cons.mpr ⟨hfits, hrest.fits⟩
    · exact List.forall_mem_cons.mpr ⟨hline, hrest.lines⟩

/-- The loop over the code finds exactly the instructions that it consists of. -/
theorem instructionsFrom_eq_ok_iff (c : Chunk) (offset : Nat) (done out : Array Instruction) :
    c.instructionsFrom offset done = .ok out ↔
      ∃ is, out = done ++ is.toArray ∧ c.ConsistsFrom offset is := by
  fun_induction instructionsFrom c offset done with
  | case1 offset done hlt e hdecode =>
      refine ⟨nofun, ?_⟩
      rintro ⟨is, -, his⟩
      cases is with
      | nil =>
          have hle := (c.consistsFrom_nil_iff offset).mp his
          omega
      | cons i is =>
          rw [consistsFrom_cons_iff, hdecode] at his
          cases his.1
  | case2 offset done hlt i hdecode ih =>
      rw [ih]
      constructor
      · rintro ⟨is, rfl, his⟩
        exact ⟨i :: is, by simp, (c.consistsFrom_cons_iff offset i is).mpr ⟨hdecode, his⟩⟩
      · rintro ⟨is, rfl, his⟩
        cases is with
        | nil =>
            have hle := (c.consistsFrom_nil_iff offset).mp his
            omega
        | cons j is =>
            rw [consistsFrom_cons_iff, hdecode] at his
            obtain ⟨hj, his⟩ := his
            cases hj
            exact ⟨is, by simp, his⟩
  | case3 offset done hge =>
      constructor
      · intro h
        cases h
        exact ⟨[], by simp, (c.consistsFrom_nil_iff offset).mpr (by omega)⟩
      · rintro ⟨is, rfl, his⟩
        cases is with
        | nil =>
            simp
        | cons i is =>
            rw [consistsFrom_cons_iff, decode_eq_ok_iff] at his
            obtain ⟨⟨-, -, -, hbytes⟩, -⟩ := his
            rw [Instruction.bytes, cons_prefix_drop_iff] at hbytes
            obtain ⟨hlt, -⟩ := List.getElem?_eq_some_iff.mp hbytes.1
            exact absurd hlt hge

/-- The instructions that are read are those whose bytes the code consists of. -/
theorem instructions_eq_ok_iff (c : Chunk) (is : List Instruction) :
    c.instructions = .ok is ↔ c.Consists is := by
  rw [instructions]
  cases hfrom : c.instructionsFrom 0 #[] with
  | error e =>
      refine ⟨nofun, ?_⟩
      intro h
      have hok := (c.instructionsFrom_eq_ok_iff 0 #[] is.toArray).mpr ⟨is, by simp, h⟩
      rw [hfrom] at hok
      cases hok
  | ok out =>
      obtain ⟨js, rfl, hjs⟩ := (c.instructionsFrom_eq_ok_iff 0 #[] out).mp hfrom
      constructor
      · intro h
        simp only [Except.map, Except.ok.injEq] at h
        rw [← h]
        simpa using hjs
      · intro h
        have hok := (c.instructionsFrom_eq_ok_iff 0 #[] is.toArray).mpr ⟨is, by simp, h⟩
        rw [hfrom, Except.ok.injEq] at hok
        simp [Except.map, hok]

/-- Each instruction that code consists of is decoded at its offset. -/
theorem ConsistsFrom.decode
    {offset : Nat}
    (h : c.ConsistsFrom offset is)
    {i : Instruction}
    (hi : i ∈ is) :
    c.decode i.offset = .ok i := by
  induction is generalizing offset with
  | nil =>
      cases hi
  | cons j is ih =>
      obtain ⟨hj, hrest⟩ := (c.consistsFrom_cons_iff offset j is).mp h
      rcases List.mem_cons.mp hi with rfl | hi
      · rw [((c.decode_eq_ok_iff offset i).mp hj).1]
        exact hj
      · exact ih hrest hi

/-- The instructions of a chunk end where its code ends. -/
theorem Consists.endOf_eq
    (h : c.Consists is) :
    endOf 0 is = c.length := by
  rw [endOf, ← h.bytes]
  simp [length]

theorem consists_empty : empty.Consists [] := (consistsFrom_nil_iff empty 0).mpr (Nat.le_refl 0)

end Chunk

end Sequences

section Writing

namespace Chunk

variable {c c₁ c₂ : Chunk} {is : List Instruction} {bs : List UInt8} {line : Int64}

/-- A chunk has more bytes at the end of its code, all of one line, and is otherwise the same. -/
structure Extends (c c' : Chunk) (bs : List UInt8) (line : Int64) : Prop where
  code : c'.code.toList = c.code.toList ++ bs
  lines : c'.lines.toList = c.lines.toList ++ List.replicate bs.length line
  constants : c'.constants = c.constants

theorem extends_nil (c : Chunk) (line : Int64) : c.Extends c [] line := ⟨by simp, by simp, rfl⟩

/-- A byte that is written stands behind the code, with its line. -/
theorem extends_write (c : Chunk) (b : UInt8) (line : Int64) :
    c.Extends (c.write b line) [b] line := by
  cases c
  exact ⟨Array.toList_push, Array.toList_push, rfl⟩

/-- What is written later stands behind what is written earlier. -/
theorem Extends.trans
    {bs' : List UInt8}
    (h₁ : c.Extends c₁ bs line)
    (h₂ : c₁.Extends c₂ bs' line) :
    c.Extends c₂ (bs ++ bs') line where
  code := by rw [h₂.code, h₁.code, List.append_assoc]
  lines := by
    rw [h₂.lines, h₁.lines, List.append_assoc, List.length_append, List.replicate_append_replicate]
  constants := by rw [h₂.constants, h₁.constants]

/-- A word that is written stands behind the code, high byte first. -/
theorem extends_writeWord (c : Chunk) (w : UInt16) (line : Int64) :
    c.Extends (c.writeWord w line) (OperandForm.wordBytes w) line :=
  (c.extends_write _ line).trans (extends_write _ _ line)

/-- A constant changes no code. -/
theorem code_addConstant (c : Chunk) (v : Value) : (c.addConstant v).code = c.code := by
  cases c
  rfl

/-- A constant changes no line. -/
theorem lines_addConstant (c : Chunk) (v : Value) : (c.addConstant v).lines = c.lines := by
  cases c
  rfl

/-- A constant stands behind the pool. -/
theorem constants_addConstant (c : Chunk) (v : Value) :
    (c.addConstant v).constants = c.constants.push v := by
  cases c
  rfl

/-- What a chunk consists of depends on its code and its lines alone. -/
theorem Consists.congr
    {d : Chunk}
    (h : c.Consists is)
    (hcode : c.code = d.code)
    (hlines : c.lines = d.lines) :
    d.Consists is where
  bytes := hcode ▸ h.bytes
  consecutive := h.consecutive
  fits := h.fits
  lines := by
    intro i hi
    rw [h.lines i hi, lineAt, lineAt, hlines]

/-- Code grows by as many bytes as are written. -/
theorem Extends.length_eq
    (h : c.Extends c₁ bs line) :
    c₁.length = c.length + bs.length := by
  have hcode := congrArg List.length h.code
  simpa [length] using hcode

/-- The code consists of instructions, and each of its bytes has a line. -/
structure Written (c : Chunk) (is : List Instruction) : Prop where
  consists : c.Consists is
  size_lines : c.lines.size = c.length

theorem written_empty : empty.Written [] := ⟨consists_empty, rfl⟩

/-- A constant changes nothing of what is written. -/
theorem Written.addConstant
    (h : c.Written is)
    (v : Value) :
    (c.addConstant v).Written is where
  consists := h.consists.congr (c.code_addConstant v).symm (c.lines_addConstant v).symm
  size_lines := by
    rw [length, code_addConstant, lines_addConstant]
    exact h.size_lines

/-- Writing the bytes of an instruction adds it to those that the code consists of. -/
theorem Written.extend
    (h : c.Written is)
    {i : Instruction}
    (hoffset : i.offset = c.length)
    (hfits : i.Fits)
    (hextends : c.Extends c₁ i.bytes i.line) :
    c₁.Written (is ++ [i]) := by
  have hlineAt : ∀ k, c₁.lineAt k =
      (c.lines.toList ++ List.replicate i.bytes.length i.line)[k]?.getD 0 := by
    intro k
    rw [lineAt, ← hextends.lines, Array.getElem?_toList, Array.getD_eq_getD_getElem?]
  refine ⟨⟨?_, ?_, ?_, ?_⟩, ?_⟩
  · have hbytes := h.consists.bytes
    rw [List.drop_zero] at hbytes
    rw [List.drop_zero, hextends.code, hbytes, List.flatMap_append, List.flatMap_singleton]
  · rw [consecutive_append, h.consists.endOf_eq]
    exact ⟨h.consists.consecutive, hoffset, trivial⟩
  · exact List.forall_mem_append.mpr ⟨h.consists.fits, List.forall_mem_singleton.mpr hfits⟩
  · refine List.forall_mem_append.mpr ⟨?_, List.forall_mem_singleton.mpr ?_⟩
    · -- the lines of the old instructions stand where they stood
      intro j hj
      have hlt : j.offset < c.lines.toList.length := by
        rw [Array.length_toList, h.size_lines, ← h.consists.endOf_eq]
        exact h.consists.consecutive.lt_endOf hj
      rw [hlineAt, List.getElem?_append_left hlt, h.consists.lines j hj, lineAt,
        Array.getElem?_toList, Array.getD_eq_getD_getElem?]
    · have hpos := i.width_pos
      rw [hlineAt, hoffset, ← h.size_lines]
      simp [i.length_bytes, hpos]
  · have hlines := congrArg List.length hextends.lines
    rw [hextends.length_eq, ← h.size_lines]
    simpa using hlines

end Chunk

end Writing

end Bytecode
end StackNative
