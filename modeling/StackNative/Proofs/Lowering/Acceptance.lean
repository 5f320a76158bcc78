import StackNative.Proofs.Lowering.Conversion

/-!
# Which chunks are lowered

**Input.**  A chunk with any code, any line table and any constants that have the
numbers they should have.

**Algorithm.**  A walk over the code from its beginning keeps the offset and the
depth of the operand stack.  It knows the opcodes by what they need and leave on
the stack, and neither registers nor emitted instructions.

**Results.**
* `Walks`: the places that the walk comes to over instructions without a fault.
* `Offends`: what is wrong at a place, if anything is.
* `convert_decides`: a chunk is lowered exactly if the walk comes to the end of
  the code, and otherwise the error is what is wrong where the walk stops.
-/

namespace StackNative
namespace Lowering

open Bytecode (Chunk Opcode Value)
open Ir (Register Module)

section Walk

/-- How deep the stack has to be before an opcode; nothing for an opcode that is not lowered. -/
def needed? : Opcode → Option Nat
  | .const | .constLong | .pushNull | .pushTrue | .pushFalse | .pushZero | .pushOne => some 0
  | .add | .sub | .mul | .div | .mod => some 2
  | .eq | .ne | .lt | .le | .gt | .ge => some 2
  | .and | .or | .bitAnd | .bitOr | .bitXor | .shl | .shr => some 2
  | .neg | .not | .bitNot => some 1
  | .pop | .print | .printLn => some 1
  | .ret | .retNull => some 0
  | _ => none

/-- How deep the stack is after an opcode.  A return lowers it too, unless it is empty. -/
def depthAfter (depth : Nat) : Opcode → Nat
  | .const | .constLong | .pushNull | .pushTrue | .pushFalse | .pushZero | .pushOne => depth + 1
  | .neg | .not | .bitNot | .retNull => depth
  | _ => depth - 1

/-- The opcode at an offset, with all bytes of its operand behind it. -/
structure Whole (c : Chunk) (offset : Nat) (op : Opcode) : Prop where
  byte : (c.code[offset]?).bind Opcode.ofByte? = some op
  operand : offset + op.operandWidth < c.length

/-- The constant that the instruction at an offset names, by its place in the pool: one byte, or
two with the high one first. -/
def poolIndex? (c : Chunk) (offset : Nat) : Opcode → Option Nat
  | .const => some (c.code.getD (offset + 1) 0).toNat
  | .constLong =>
    some ((c.code.getD (offset + 1) 0).toNat * 256 + (c.code.getD (offset + 2) 0).toNat)
  | _ => none

/-- What is wrong with a whole instruction at a depth of the stack. -/
inductive Fault (c : Chunk) (offset depth : Nat) (op : Opcode) : LoweringError → Prop
  | opcode : needed? op = none → Fault c offset depth op (.unsupportedOpcode op.toByte offset)
  | index {n : Nat} : poolIndex? c offset op = some n → c.constants.size ≤ n →
      Fault c offset depth op (.constantIndex n offset)
  | constant {n : Nat} {v : Value} : poolIndex? c offset op = some n →
      c.constants[n]? = some v → literal? v = none →
      Fault c offset depth op (.unsupportedConstant n v.tag)
  | depth {n : Nat} : needed? op = some n → depth < n →
      Fault c offset depth op (.stackUnderflow offset op)

/-- What is wrong at an offset: the byte is no opcode, its operand is cut off, or the instruction
has a fault. -/
inductive Offends (c : Chunk) (offset depth : Nat) : LoweringError → Prop
  | byte {b : UInt8} : c.code[offset]? = some b → Opcode.ofByte? b = none →
      Offends c offset depth (.unsupportedOpcode b offset)
  | operand {op : Opcode} : (c.code[offset]?).bind Opcode.ofByte? = some op →
      c.length ≤ offset + op.operandWidth →
      Offends c offset depth (.undecodable ⟨offset, .truncatedOperand op⟩)
  | instruction {op : Opcode} {e : LoweringError} : Whole c offset op →
      Fault c offset depth op e → Offends c offset depth e

/-- A whole instruction without a fault. -/
structure Passes (c : Chunk) (offset depth : Nat) (op : Opcode) : Prop where
  whole : Whole c offset op
  depth : ∃ n, needed? op = some n ∧ n ≤ depth
  constant : ∀ n, poolIndex? c offset op = some n →
    ∃ v k, c.constants[n]? = some v ∧ literal? v = some k

/-- The walk from the beginning of the code comes to an offset at a depth of the stack. -/
inductive Walks (c : Chunk) : Nat → Nat → Prop
  | start : Walks c 0 0
  | next {offset depth : Nat} {op : Opcode} : Walks c offset depth →
      Passes c offset depth op →
      Walks c (offset + (1 + op.operandWidth)) (depthAfter depth op)

end Walk

section Reading

variable {c : Chunk} {offset : Nat} {op : Opcode}

theorem toNat_word (high low : UInt8) :
    ((high.toUInt16 <<< 8) ||| low.toUInt16).toNat = high.toNat * 256 + low.toNat := by
  have hhigh := high.toNat_lt
  have hlow := low.toNat_lt
  have hshift : (high.toUInt16 <<< 8).toNat = high.toNat <<< 8 := by
    simp only [UInt16.toNat_shiftLeft, UInt8.toNat_toUInt16, Nat.shiftLeft_eq]
    simp
    omega
  rw [UInt16.toNat_or, hshift, UInt8.toNat_toUInt16, ← Nat.shiftLeft_add_eq_or_of_lt (by omega),
    Nat.shiftLeft_eq]

theorem readWord?_of_lt
    (h : offset + 1 < c.length) :
    ∃ w, c.readWord? offset = some w ∧
      w.toNat = (c.code.getD offset 0).toNat * 256 + (c.code.getD (offset + 1) 0).toNat := by
  have hsize : c.code.size = c.length := rfl
  have hhigh : c.code[offset]? = some (c.code.getD offset 0) := by
    simp [hsize, show offset < c.length by omega]
  have hlow : c.code[offset + 1]? = some (c.code.getD (offset + 1) 0) := by
    simp [hsize, h]
  refine ⟨_, ?_, toNat_word _ _⟩
  simp only [Chunk.readWord?, hhigh, hlow]

theorem poolIndex?_cases
    {n : Nat}
    (h : poolIndex? c offset op = some n) :
    (op = .const ∧ n = (c.code.getD (offset + 1) 0).toNat) ∨
      (op = .constLong ∧ n = (c.code.getD (offset + 1) 0).toNat * 256 +
        (c.code.getD (offset + 2) 0).toNat) := by
  cases op <;> cases h
  · exact Or.inl ⟨rfl, rfl⟩
  · exact Or.inr ⟨rfl, rfl⟩

/-- An operand with all its bytes is read, and names the constant it should. -/
theorem readOperand?_of_whole
    (h : Whole c offset op) :
    ∃ operand, c.readOperand? (offset + 1) op.operandForm = some operand ∧
      ∀ n, poolIndex? c offset op = some n → operand = (n : Int) := by
  have hsize : c.code.size = c.length := rfl
  have hlen := h.operand
  unfold Opcode.operandWidth at hlen
  cases hform : op.operandForm with
  | none =>
      refine ⟨0, rfl, ?_⟩
      intro n hn
      rcases poolIndex?_cases hn with ⟨rfl, _⟩ | ⟨rfl, _⟩ <;> cases hform
  | byte =>
      rw [hform, Bytecode.OperandForm.width] at hlen
      refine ⟨(c.code.getD (offset + 1) 0).toNat, ?_, ?_⟩
      · simp [Chunk.readOperand?, hsize, hlen]
      · intro n hn
        rcases poolIndex?_cases hn with ⟨rfl, rfl⟩ | ⟨rfl, _⟩
        · rfl
        · cases hform
  | word =>
      rw [hform, Bytecode.OperandForm.width] at hlen
      obtain ⟨w, hw, hvalue⟩ := @readWord?_of_lt c (offset + 1) (by omega)
      refine ⟨w.toNat, ?_, ?_⟩
      · simp [Chunk.readOperand?, hw]
      · intro n hn
        rcases poolIndex?_cases hn with ⟨rfl, _⟩ | ⟨rfl, rfl⟩
        · cases hform
        · rw [hvalue]
  | signedWord =>
      rw [hform, Bytecode.OperandForm.width] at hlen
      obtain ⟨w, hw, _⟩ := @readWord?_of_lt c (offset + 1) (by omega)
      refine ⟨w.toInt16.toInt, ?_, ?_⟩
      · simp [Chunk.readOperand?, Chunk.readSignedWord?, hw]
      · intro n hn
        rcases poolIndex?_cases hn with ⟨rfl, _⟩ | ⟨rfl, _⟩ <;> cases hform

theorem readOperand?_of_truncated
    (hlt : offset < c.length)
    (hlen : c.length ≤ offset + op.operandWidth) :
    c.readOperand? (offset + 1) op.operandForm = none := by
  have hsize : c.code.size = c.length := rfl
  unfold Opcode.operandWidth at hlen
  cases hform : op.operandForm with
  | none =>
      rw [hform, Bytecode.OperandForm.width] at hlen
      omega
  | byte =>
      rw [hform, Bytecode.OperandForm.width] at hlen
      simp [Chunk.readOperand?, hsize, hlen]
  | word =>
      rw [hform, Bytecode.OperandForm.width] at hlen
      have hlow : c.code[offset + 1 + 1]? = none := Array.getElem?_eq_none (by omega)
      simp [Chunk.readOperand?, Chunk.readWord?, hlow]
  | signedWord =>
      rw [hform, Bytecode.OperandForm.width] at hlen
      have hlow : c.code[offset + 1 + 1]? = none := Array.getElem?_eq_none (by omega)
      simp [Chunk.readOperand?, Chunk.readSignedWord?, Chunk.readWord?, hlow]

/-- A whole instruction is read as what it is. -/
theorem read_of_whole
    (h : Whole c offset op) :
    ∃ i, read c offset = .ok i ∧ i.op = op ∧ i.offset = offset ∧
      ∀ n, poolIndex? c offset op = some n → i.operand = n := by
  obtain ⟨operand, hoperand, hindex⟩ := readOperand?_of_whole h
  obtain ⟨b, hb, hop⟩ := Option.bind_eq_some_iff.mp h.byte
  have hdecode : c.decode offset = .ok ⟨offset, op, operand, c.lineAt offset⟩ := by
    simp only [Chunk.decode, hb, hop, hoperand]
  refine ⟨⟨offset, op, operand, c.lineAt offset⟩, ?_, rfl, rfl, hindex⟩
  simp only [read, hdecode]

theorem read_of_byte
    {b : UInt8}
    (hb : c.code[offset]? = some b)
    (hop : Opcode.ofByte? b = none) :
    read c offset = .error (.unsupportedOpcode b offset) := by
  simp only [read, Chunk.decode, hb, hop]

theorem read_of_truncated
    (hop : (c.code[offset]?).bind Opcode.ofByte? = some op)
    (hlen : c.length ≤ offset + op.operandWidth) :
    read c offset = .error (.undecodable ⟨offset, .truncatedOperand op⟩) := by
  obtain ⟨b, hb, hop⟩ := Option.bind_eq_some_iff.mp hop
  have hlt : offset < c.length := (Array.getElem?_eq_some_iff.mp hb).1
  simp only [read, Chunk.decode, hb, hop, readOperand?_of_truncated hlt hlen]

end Reading

section Steps

variable {c : Chunk} {s : State} {i : Bytecode.Instruction}

theorem needed?_eq (op : Opcode) :
    needed? op = match effect op with
      | .unsupported => none
      | .binary _ => some 2
      | .unary _ | .drop => some 1
      | .loadPool | .push _ | .returnTop | .returnNothing => some 0 := by
  cases op <;> rfl

theorem depthAfter_eq
    {op : Opcode}
    (depth : Nat) :
    depthAfter depth op = match effect op with
      | .loadPool | .push _ => depth + 1
      | .unary _ | .returnNothing => depth
      | .binary _ | .drop | .returnTop | .unsupported => depth - 1 := by
  cases op <;> rfl

theorem exists_poolIndex?
    {op : Opcode}
    (c : Chunk)
    (offset : Nat)
    (h : effect op = .loadPool) :
    ∃ n, poolIndex? c offset op = some n := by
  cases op <;> cases h
  · exact ⟨_, rfl⟩
  · exact ⟨_, rfl⟩

theorem effect_of_poolIndex?
    {offset n : Nat} {op : Opcode}
    (h : poolIndex? c offset op = some n) :
    effect op = .loadPool := by
  rcases poolIndex?_cases h with ⟨rfl, _⟩ | ⟨rfl, _⟩ <;> rfl

/-- A register can be taken from a recorded stack that is not empty. -/
theorem Operands.Recorded.exists_pop
    {o : Operands}
    (h : o.Recorded)
    (hdepth : 1 ≤ o.depth) :
    ∃ r o', o.pop i = .ok (r, o') ∧ o'.depth + 1 = o.depth ∧ o'.Recorded := by
  cases hpop : o.pop i with
  | error e =>
      have he := h.pop_error hpop
      subst he
      unfold Operands.pop at hpop
      split at hpop
      · omega
      · split at hpop <;> cases hpop
  | ok top =>
      obtain ⟨depth, hd, _, ho'⟩ := Operands.pop_ok hpop
      refine ⟨top.1, top.2, rfl, ?_, h.pop hpop⟩
      rw [ho', hd]

theorem Operands.pop_of_empty
    {o : Operands}
    (h : o.depth = 0) :
    o.pop i = .error (.stackUnderflow i.offset i.op) := by
  unfold Operands.pop
  rw [h]

theorem constant_of_literal?
    {v : Value} {k : Ir.Constant}
    (index : Int)
    (h : literal? v = some k) :
    constant index v = .ok k := by
  cases v <;> cases h <;> rfl

theorem constant_of_not_literal?
    {v : Value}
    (index : Int)
    (hint : v ≠ .missingInt)
    (hfloat : v ≠ .missingFloat)
    (h : literal? v = none) :
    constant index v = .error (.unsupportedConstant index v.tag) := by
  cases v with
  | missingInt => exact absurd rfl hint
  | missingFloat => exact absurd rfl hfloat
  | null => cases h
  | bool b => cases h
  | int n => cases h
  | float x => cases h
  | string t => cases h
  | array items => rfl
  | func f => rfl
  | missingFunc => rfl
  | unknown tag => rfl

/-- An instruction without a fault is taken, and leaves the stack as deep as the walk says. -/
theorem advance_of_passes
    {offset : Nat}
    (hrec : s.stack.Recorded)
    (hpass : Passes c offset s.stack.depth i.op)
    (hindex : ∀ n, poolIndex? c offset i.op = some n → i.operand = n) :
    ∃ s', s.advance c i = .ok s' ∧ s'.stack.Recorded ∧
      s'.stack.depth = depthAfter s.stack.depth i.op := by
  obtain ⟨_, ⟨m, hm, hle⟩, hconstant⟩ := hpass
  rw [needed?_eq] at hm
  rw [depthAfter_eq]
  unfold State.advance
  cases heffect : effect i.op <;> simp only [heffect] at hm ⊢
  case loadPool =>
      obtain ⟨n, hn⟩ := exists_poolIndex? c offset heffect
      obtain ⟨v, k, hv, hk⟩ := hconstant n hn
      simp only [hindex n hn, Int.toNat_natCast, hv, constant_of_literal? _ hk]
      exact ⟨_, rfl, hrec.push s.next, rfl⟩
  case push k =>
      exact ⟨_, rfl, hrec.push s.next, rfl⟩
  case binary op =>
      cases hm
      obtain ⟨right, o, hright, hdepth, ho⟩ := hrec.exists_pop (i := i) (by omega)
      obtain ⟨left, o', hleft, hdepth', ho'⟩ := ho.exists_pop (i := i) (by omega)
      refine ⟨s.define o' i.line fun r => .binary op r left right, ?_, ho'.push s.next, ?_⟩
      · simp only [hright, bind, Except.bind, hleft]
        rfl
      · simp only [State.define, Operands.push]
        omega
  case unary op =>
      cases hm
      obtain ⟨operand, o, hoperand, hdepth, ho⟩ := hrec.exists_pop (i := i) (by omega)
      exact ⟨_, by rw [hoperand]; rfl, ho.push s.next, hdepth⟩
  case drop =>
      cases hm
      obtain ⟨top, o, htop, hdepth, ho⟩ := hrec.exists_pop (i := i) (by omega)
      refine ⟨_, by rw [htop]; rfl, ho, ?_⟩
      simp only
      omega
  case returnTop =>
      by_cases hempty : s.stack.depth = 0
      · rw [if_pos hempty]
        refine ⟨_, rfl, hrec, ?_⟩
        simp only
        omega
      · rw [if_neg hempty]
        obtain ⟨top, o, htop, hdepth, ho⟩ := hrec.exists_pop (i := i) (by omega)
        refine ⟨_, by rw [htop]; rfl, ho, ?_⟩
        simp only
        omega
  case returnNothing =>
      exact ⟨_, rfl, hrec, rfl⟩
  case unsupported =>
      cases hm

/-- An instruction with a fault stops the lowering with that error. -/
theorem advance_of_fault
    {e : LoweringError}
    (hrec : s.stack.Recorded)
    (hnumbers : ∀ v ∈ c.constants, v ≠ .missingInt ∧ v ≠ .missingFloat)
    (hindex : ∀ n, poolIndex? c i.offset i.op = some n → i.operand = n)
    (hfault : Fault c i.offset s.stack.depth i.op e) :
    s.advance c i = .error e := by
  unfold State.advance
  cases hfault with
  | opcode hop =>
      rw [needed?_eq] at hop
      cases heffect : effect i.op <;> rw [heffect] at hop <;> cases hop
  | index hn hsize =>
      simp only [effect_of_poolIndex? hn, hindex _ hn, Int.toNat_natCast,
        Array.getElem?_eq_none hsize]
  | constant hn hv hnone =>
      obtain ⟨hint, hfloat⟩ := hnumbers _ (Array.mem_of_getElem? hv)
      simp only [effect_of_poolIndex? hn, hindex _ hn, Int.toNat_natCast, hv]
      rw [constant_of_not_literal? _ hint hfloat hnone]
      rfl
  | depth hm hlt =>
      rw [needed?_eq] at hm
      cases heffect : effect i.op <;> simp only [heffect, Option.some.injEq] at hm ⊢
      case binary op =>
          by_cases hempty : s.stack.depth = 0
          · rw [Operands.pop_of_empty hempty]
            rfl
          · obtain ⟨right, o, hright, hdepth, _⟩ := hrec.exists_pop (i := i) (by omega)
            have hleft : o.pop i = .error (.stackUnderflow i.offset i.op) :=
              Operands.pop_of_empty (by omega)
            simp only [hright, bind, Except.bind, hleft]
      case unary op =>
          rw [Operands.pop_of_empty (by omega)]
          rfl
      case drop =>
          rw [Operands.pop_of_empty (by omega)]
          rfl
      case unsupported =>
          cases hm
      all_goals omega

end Steps

section Chunks

variable {c : Chunk}

/-- Every place before the end of the code is passed or has something wrong. -/
theorem passes_or_offends
    {offset : Nat}
    (depth : Nat)
    (hlt : offset < c.length) :
    (∃ op, Passes c offset depth op) ∨ ∃ e, Offends c offset depth e := by
  obtain ⟨b, hb⟩ : ∃ b, c.code[offset]? = some b :=
    ⟨_, Array.getElem?_eq_getElem hlt⟩
  cases hop : Opcode.ofByte? b with
  | none =>
      exact Or.inr ⟨_, .byte hb hop⟩
  | some op =>
      have hbyte : (c.code[offset]?).bind Opcode.ofByte? = some op := by
        rw [hb, Option.bind_some, hop]
      by_cases hlen : offset + op.operandWidth < c.length
      · have hwhole : Whole c offset op := ⟨hbyte, hlen⟩
        cases hm : needed? op with
        | none =>
            exact Or.inr ⟨_, .instruction hwhole (.opcode hm)⟩
        | some m =>
            by_cases hle : m ≤ depth
            · cases hn : poolIndex? c offset op with
              | none =>
                  refine Or.inl ⟨op, hwhole, ⟨m, hm, hle⟩, ?_⟩
                  intro n hn'
                  rw [hn] at hn'
                  cases hn'
              | some n =>
                  cases hv : c.constants[n]? with
                  | none =>
                      have hsize := Array.getElem?_eq_none_iff.mp hv
                      exact Or.inr ⟨_, .instruction hwhole (.index hn hsize)⟩
                  | some v =>
                      cases hk : literal? v with
                      | none =>
                          exact Or.inr ⟨_, .instruction hwhole (.constant hn hv hk)⟩
                      | some k =>
                          refine Or.inl ⟨op, hwhole, ⟨m, hm, hle⟩, ?_⟩
                          intro n' hn'
                          cases hn.symm.trans hn'
                          exact ⟨v, k, hv, hk⟩
            · exact Or.inr ⟨_, .instruction hwhole (.depth hm (by omega))⟩
      · exact Or.inr ⟨_, .operand hbyte (by omega)⟩

/-- The walk comes to the end of the code, or to a place where something is wrong. -/
theorem Walks.ends
    {offset depth : Nat}
    (h : Walks c offset depth)
    (hle : offset ≤ c.length) :
    (∃ d, Walks c c.length d) ∨
      ∃ o d e, Walks c o d ∧ Offends c o d e := by
  -- on what is left of the code, since instructions differ in their length
  induction hrest : c.length - offset using Nat.strongRecOn generalizing offset depth with
  | ind rest ih =>
      by_cases hlt : offset < c.length
      · rcases passes_or_offends depth hlt with ⟨op, hpass⟩ | ⟨e, he⟩
        · have hlen := hpass.whole.operand
          exact ih (c.length - (offset + (1 + op.operandWidth))) (by omega) (h.next hpass)
            (by omega) rfl
        · exact Or.inr ⟨offset, depth, e, h, he⟩
      · have hend : offset = c.length := by omega
        subst hend
        exact Or.inl ⟨depth, h⟩

/-- Lowering gets to wherever the walk gets, with the stack as deep. -/
theorem run_of_walks
    {offset depth : Nat}
    (h : Walks c offset depth) :
    ∃ s, s.stack.Recorded ∧ s.stack.depth = depth ∧ run c 0 begin = run c offset s := by
  induction h with
  | start =>
      exact ⟨begin, Operands.recorded_empty, rfl, rfl⟩
  | next hwalk hpass ih =>
      obtain ⟨s, hrec, rfl, hrun⟩ := ih
      obtain ⟨i, hread, rfl, _, hindex⟩ := read_of_whole hpass.whole
      obtain ⟨s', hs', hrec', hdepth⟩ := advance_of_passes hrec hpass hindex
      refine ⟨s', hrec', hdepth, ?_⟩
      have hlen := hpass.whole.operand
      have hstep : s.step c i = (s', none) := by
        simp only [State.step, hs']
      rw [hrun, run, if_pos (by omega), hread]
      simp only [hstep]
      rfl

theorem run_of_read_error
    {offset : Nat} {e : LoweringError}
    (s : State)
    (hlt : offset < c.length)
    (h : read c offset = .error e) :
    run c offset s = (s, some e) := by
  rw [run, if_pos hlt, h]

theorem run_of_offends
    {offset : Nat} {s : State} {e : LoweringError}
    (hrec : s.stack.Recorded)
    (hnumbers : ∀ v ∈ c.constants, v ≠ .missingInt ∧ v ≠ .missingFloat)
    (h : Offends c offset s.stack.depth e) :
    run c offset s = (s, some e) := by
  cases h with
  | byte hb hop =>
      exact run_of_read_error s (Array.getElem?_eq_some_iff.mp hb).1 (read_of_byte hb hop)
  | operand hop hlen =>
      obtain ⟨b, hb, _⟩ := Option.bind_eq_some_iff.mp hop
      exact run_of_read_error s (Array.getElem?_eq_some_iff.mp hb).1 (read_of_truncated hop hlen)
  | instruction hwhole hfault =>
      obtain ⟨i, hread, rfl, rfl, hindex⟩ := read_of_whole hwhole
      have hlen := hwhole.operand
      have hstep : s.step c i = (s, some e) := by
        simp only [State.step, advance_of_fault hrec hnumbers hindex hfault]
      rw [run, if_pos (by omega), hread]
      simp only [hstep]

theorem convert_of_run_error
    {s : State} {e : LoweringError}
    (name : Text)
    (h : run c 0 begin = (s, some e)) :
    convert name c = .error e := by
  unfold convert lower lowerOnto
  simp only [Ir.Module.freshFunction, Ir.Module.newBlockId]
  rw [show run c 0 ⟨0, {}, #[], none⟩ = (s, some e) from h]

/-- **Lowering accepts exactly the chunks that the walk gets through.**  Otherwise its error is
what is wrong at the first place that the walk does not pass. -/
theorem convert_decides
    (name : Text)
    (c : Chunk)
    (hnumbers : ∀ v ∈ c.constants, v ≠ .missingInt ∧ v ≠ .missingFloat) :
    ((∃ m, convert name c = .ok m) ↔ ∃ depth, Walks c c.length depth) ∧
      ∀ e, convert name c = .error e ↔
        ∃ offset depth, Walks c offset depth ∧ Offends c offset depth e := by
  have hok : (∃ depth, Walks c c.length depth) → ∃ m, convert name c = .ok m := by
    rintro ⟨depth, hwalk⟩
    obtain ⟨s, _, _, hrun⟩ := run_of_walks hwalk
    have hend : run c c.length s = (s.finish, none) := by
      rw [run, if_neg (Nat.lt_irrefl _)]
    exact convert_of_run_ok name (by rw [hrun, hend])
  have herror : ∀ e, (∃ offset depth, Walks c offset depth ∧ Offends c offset depth e) →
      convert name c = .error e := by
    rintro e ⟨offset, depth, hwalk, hoffends⟩
    obtain ⟨s, hrec, rfl, hrun⟩ := run_of_walks hwalk
    exact convert_of_run_error name (hrun.trans (run_of_offends hrec hnumbers hoffends))
  rcases Walks.start.ends (Nat.zero_le c.length) with ⟨depth, hwalk⟩ | ⟨o, d, e, hwalk, he⟩
  · obtain ⟨m, hm⟩ := hok ⟨depth, hwalk⟩
    refine ⟨⟨fun _ => ⟨depth, hwalk⟩, hok⟩, ?_⟩
    intro e
    refine ⟨?_, herror e⟩
    intro hconvert
    rw [hm] at hconvert
    cases hconvert
  · have hconvert := herror e ⟨o, d, hwalk, he⟩
    refine ⟨⟨?_, hok⟩, ?_⟩
    · rintro ⟨m, hm⟩
      rw [hconvert] at hm
      cases hm
    · intro e'
      refine ⟨?_, herror e'⟩
      intro hconvert'
      rw [hconvert] at hconvert'
      cases hconvert'
      exact ⟨o, d, hwalk, he⟩

/-- One and a constant are pushed, one of them is returned, and the addition lacks an operand. -/
def shortSum : Chunk := ⟨some #[6, 0, 0, 41, 14], none, #[.string [0x61]]⟩

theorem shortSum_decides :
    (∀ v ∈ shortSum.constants, v ≠ .missingInt ∧ v ≠ .missingFloat) ∧
      convert [] shortSum = .error (.stackUnderflow 4 .add) := by
  have hnumbers : ∀ v ∈ shortSum.constants, v ≠ .missingInt ∧ v ≠ .missingFloat := by
    simp [shortSum]
  have hone : Passes shortSum 0 0 .pushOne :=
    ⟨⟨rfl, by decide⟩, ⟨0, rfl, by decide⟩, fun n hn => nomatch hn⟩
  have hconst : Passes shortSum 1 1 .const := by
    refine ⟨⟨rfl, by decide⟩, ⟨0, rfl, by decide⟩, ?_⟩
    intro n hn
    cases hn
    exact ⟨_, _, rfl, rfl⟩
  have hret : Passes shortSum 3 2 .ret :=
    ⟨⟨rfl, by decide⟩, ⟨0, rfl, by decide⟩, fun n hn => nomatch hn⟩
  refine ⟨hnumbers, ((convert_decides [] shortSum hnumbers).2 _).mpr ⟨4, 1, ?_, ?_⟩⟩
  · exact ((Walks.start.next hone).next hconst).next hret
  · exact .instruction ⟨rfl, by decide⟩ (.depth (n := 2) rfl (by decide))

end Chunks

end Lowering
end StackNative
