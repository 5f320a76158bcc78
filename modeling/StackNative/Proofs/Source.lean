import StackNative.Source
import StackNative.Proofs.Assembly.Accepted
import StackNative.Proofs.Bytecode.Restored
import StackNative.Proofs.Bytecode.RoundTrip
import StackNative.Proofs.Bytecode.Verified

/-!
# Assembled chunks and their containers

**Input.**  A source that is assembled to a chunk with valid texts and code that is not too
long.

**Algorithm.**  What every assembled source has in common makes its chunk one that can be
written and is read back, and leaves the jumps alone for verification to refuse.

**Results.**
* `IsLiteral.storable`, `IsLiteral.equals_of_same`: literals are read back as they were.
* `operand_lt_of_mem_code`: the operands of assembled code name constants of the pool.
* `container_agrees_with_assembly`: the container of an assembled chunk is accepted exactly
  if its jumps land, with the same content.
-/

namespace StackNative

open Bytecode (Opcode Value Chunk Instruction)

namespace Assembly

section Literals

variable {size : Nat} {v w : Value}

theorem IsLiteral.storable
    (h : IsLiteral size v)
    (hsize : size < 2 ^ 64)
    (hvalid : ∀ s, v = .string s → s.isValid = true) :
    v.Storable := by
  cases v with
  | string s =>
      exact .string ⟨hvalid s rfl, Nat.lt_of_le_of_lt h hsize⟩
  | null | bool | int | float =>
      exact .scalar (by simp) (by simp) (by simp)
  | _ =>
      cases h

theorem IsLiteral.nested
    (h : IsLiteral size v)
    (depth : Nat) :
    v.Nested depth := by
  cases v with
  | array | func =>
      cases h
  | _ =>
      exact .scalar (by simp) (by simp)

theorem IsLiteral.exists_item
    (h : IsLiteral size v) :
    ∃ item, v.toItem = .ok item := by
  cases v with
  | null | bool | int | float | string =>
      exact ⟨_, rfl⟩
  | _ =>
      cases h

/-- A literal that is read back equals the one that was written, a float as a number. -/
theorem IsLiteral.equals_of_same
    (h : IsLiteral size v)
    (hsame : v.Same w) :
    v.equals w = true := by
  cases hsame with
  | null =>
      rfl
  | bool b =>
      simp [Value.equals]
  | int n =>
      simp [Value.equals]
  | float hequal =>
      rcases hequal with hequal | ⟨hnan, -⟩
      · exact hequal
      · rw [show _ = false from h] at hnan
        cases hnan
  | string s =>
      simp [Value.equals]
  | array =>
      cases h
  | func =>
      cases h

end Literals

section Constants

/-- A statement whose instruction takes a constant adds one, and names it. -/
theorem Statement.operand_of_takesConstant
    {offset pool : Nat} {s : Statement}
    (hproper : s.operation.Proper)
    (h : (s.instruction offset pool).op.takesConstant = true) :
    (s.instruction offset pool).operand = pool ∧ poolAfter pool s = pool + 1 := by
  obtain ⟨operation, start⟩ := s
  cases operation with
  | plain op =>
      have hform : op.operandForm = .none := hproper
      rcases (Chunk.takesConstant_iff op).mp h with rfl | rfl <;> cases hform
  | withInteger op n place =>
      have hother : op.takesConstant = false := hproper.2
      exact absurd h (by simp [instruction, hother])
  | loadConstant long v =>
      exact ⟨rfl, rfl⟩

theorem length_constants_cons (pool : Nat) (s : Statement) (ss : List Statement) :
    pool + (constants (s :: ss)).length = poolAfter pool s + (constants ss).length := by
  rw [constants_cons, List.length_append, poolAfter, Nat.add_assoc]

/-- The operands of assembled code name constants of the pool. -/
theorem operand_lt_of_mem_code
    {offset pool : Nat} {ss : List Statement} {i : Instruction}
    (hproper : ∀ s ∈ ss, s.operation.Proper)
    (hi : i ∈ code offset pool ss)
    (h : i.op.takesConstant = true) :
    i.operand < ((pool + (constants ss).length : Nat) : Int) := by
  induction ss generalizing offset pool with
  | nil =>
      cases hi
  | cons s ss ih =>
      obtain ⟨hs, hss⟩ := List.forall_mem_cons.mp hproper
      rw [length_constants_cons]
      rcases List.mem_cons.mp hi with rfl | hi
      · obtain ⟨hoperand, hpool⟩ := s.operand_of_takesConstant hs h
        rw [hoperand, hpool]
        omega
      · exact ih hss hi

end Constants

section Chunks

variable {c : Chunk} {is : List Instruction}

/-- A chunk as a source of some size is assembled to: all its constants are literals, and the
operands of its code name them. -/
structure Assembled (size : Nat) (c : Chunk) (is : List Instruction) : Prop where
  written : c.Written is
  literals : ∀ v ∈ c.constants.toList, IsLiteral size v
  count : c.constants.size ≤ 65536
  named : ∀ i ∈ is, i.op.takesConstant = true → i.operand < c.constants.size

theorem Assembled.short
    {size : Nat}
    (h : Assembled size c is)
    (hlength : c.length ≤ 131072) :
    c.Short where
  code := hlength
  lines := h.written.size_lines.trans_le hlength
  constants := h.count.trans (by decide)

theorem exists_assembled
    {source : Text}
    (h : assemble source = .ok c) :
    ∃ is, Assembled source.length c is := by
  obtain ⟨ss, haccepted, hfaults, hwritten, hconstants⟩ := exists_statements h
  have hproper : ∀ s ∈ ss, s.operation.Proper := fun s hs => (haccepted s hs).proper
  have hpool : c.constants.size = (constants ss).length := by
    rw [← hconstants, Array.length_toList]
  refine ⟨code 0 0 ss, hwritten, ?_, ?_, ?_⟩
  · intro v hv
    rw [hconstants] at hv
    obtain ⟨s, hs, hsv⟩ := List.mem_filterMap.mp hv
    exact (haccepted s hs).constant v hsv
  · rcases ((faults_eq_nil_iff 0 ss).mp hfaults).2 with hnone | hcount
    · simp [hpool, hnone]
    · rwa [hpool, ← Nat.zero_add (constants ss).length]
  · intro i hi hop
    have hlt := operand_lt_of_mem_code hproper hi hop
    rwa [Nat.zero_add, ← hpool] at hlt

end Chunks

end Assembly

section Containers

namespace Bytecode

variable {c d : Chunk} {is : List Instruction}

/-- The same code and lines, and equal constants, floats as numbers. -/
structure Chunk.Agrees (c d : Chunk) : Prop where
  code : d.code = c.code
  lines : d.lines = c.lines
  constants : List.Forall₂ (fun v w => v.equals w = true) c.constants.toList d.constants.toList

theorem Chunk.lands_congr
    (h : d.code = c.code)
    (is : List Instruction)
    (target : Int) :
    d.Lands is target ↔ c.Lands is target := by
  rw [Chunk.Lands, Chunk.Lands, Chunk.length, Chunk.length, h]

/-- A chunk of literals can be written, and what is read back agrees with it. -/
theorem Chunk.exists_agrees
    {size : Nat}
    (hliterals : ∀ v ∈ c.constants.toList, Assembly.IsLiteral size v)
    (hsize : size < 2 ^ 64)
    (hvalid : ∀ s, .string s ∈ c.constants.toList → s.isValid = true)
    (hshort : c.Short)
    (hlines : c.lines.size = c.length) :
    ∃ bytes d, c.marshal = .ok bytes ∧ Chunk.unmarshal bytes = .ok d ∧ c.Agrees d := by
  have hstorable : c.Storable := by
    refine ⟨hshort, fun v hv => ?_⟩
    have hmem := Array.mem_toList_iff.mpr hv
    refine (hliterals v hmem).storable hsize ?_
    rintro s rfl
    exact hvalid s hmem
  have hnested : c.Nested 8 := fun v hv => (hliterals v (Array.mem_toList_iff.mpr hv)).nested 8
  obtain ⟨items, hitems⟩ := exists_items fun v hv => (hliterals v hv).exists_item
  obtain ⟨item, hitem⟩ : ∃ item, c.toItem = .ok item :=
    ⟨_, (c.toItem_eq_ok _).mpr ⟨hlines, items, hitems, rfl⟩⟩
  obtain ⟨d, hd, hcode, hline, hconstants⟩ :=
    hstorable.unmarshal_encode (hnested.fits hstorable hitem) hitem
  have hmarshal := (c.marshal_eq_ok item.encode).mpr ⟨item, hitem, rfl⟩
  refine ⟨item.encode, d, hmarshal, hd, hcode.symm, hline.symm, ?_⟩
  refine ((List.forall₂_and_left _ _).mpr ⟨hliterals, hconstants⟩).imp ?_
  rintro v w ⟨hv, hsame⟩
  exact hv.equals_of_same hsame

/-- Verification of a chunk that agrees with another looks for the first jump of the other that does
not land, if the constants of the other are all in its pool. -/
theorem Chunk.Agrees.verify
    (h : c.Agrees d)
    (hwritten : c.Written is)
    (hconstants : ∀ i ∈ is, i.op.takesConstant = true → i.operand < c.constants.size) :
    (d.verify = none ↔ ∀ i ∈ is, i.op.isJump = true → c.Lands is i.target) ∧
      ∀ e, d.verify = some e →
        ∃ i, c.StraysFirst is i ∧ e = .invalid i.offset (.jumpTarget i.op i.target) := by
  -- verification reads the code, the lines and the number of the constants, and all three agree
  have hsize : d.constants.size = c.constants.size := by
    simpa using h.constants.length_eq.symm
  have hlines : d.lines.size = d.length := by
    rw [h.lines, hwritten.size_lines, length, length, h.code]
  have hverify := verify_of_constants hlines
    (hwritten.consists.congr h.code.symm h.lines.symm) (by rwa [hsize])
  simp only [lands_congr h.code] at hverify
  refine ⟨hverify.1, ?_⟩
  intro e he
  obtain ⟨i, ⟨⟨front, back, heq, hfront⟩, hjump, hlands⟩, rfl⟩ := hverify.2 e he
  simp only [lands_congr h.code] at hfront hlands
  exact ⟨i, ⟨⟨front, back, heq, hfront⟩, hjump, hlands⟩, rfl⟩

end Bytecode

theorem assemble_of_compile
    {source : Text} {c : Chunk}
    (h : SourceForm.assembly.compile source = .ok c) :
    Assembly.assemble source = .ok c := by
  simp only [SourceForm.compile] at h
  split at h
  · next c' hc' =>
      cases h
      exact hc'
  · cases h

/-- The container of an assembled chunk with valid texts and code that is not too long is accepted
exactly if all jumps of the chunk land.  If it is, what is read agrees with the chunk; if not, the
first jump that does not land is named. -/
theorem container_agrees_with_assembly
    {source : Text} {c : Chunk}
    (h : SourceForm.assembly.compile source = .ok c)
    (hsource : source.length < 2 ^ 64)
    (hvalid : ∀ s, .string s ∈ c.constants.toList → s.isValid = true)
    (hlength : c.length ≤ 131072) :
    ∃ is bytes, c.instructions = .ok is ∧ c.marshal = .ok bytes ∧
      ((∃ d, SourceForm.container.compile bytes = .ok d) ↔
        ∀ i ∈ is, i.op.isJump = true → c.Lands is i.target) ∧
      (∀ d, SourceForm.container.compile bytes = .ok d → c.Agrees d) ∧
      ∀ e, SourceForm.container.compile bytes = .error e →
        ∃ i, c.StraysFirst is i ∧
          e = .unverified (.invalid i.offset (.jumpTarget i.op i.target)) := by
  obtain ⟨is, hassembled⟩ := Assembly.exists_assembled (assemble_of_compile h)
  obtain ⟨bytes, d, hmarshal, hd, hagrees⟩ :=
    Chunk.exists_agrees hassembled.literals hsource hvalid (hassembled.short hlength)
      hassembled.written.size_lines
  obtain ⟨hnone, hsome⟩ := hagrees.verify hassembled.written hassembled.named
  have his := (c.instructions_eq_ok_iff is).mpr hassembled.written.consists
  refine ⟨is, bytes, his, hmarshal, ?_⟩
  simp only [SourceForm.compile, hd]
  cases hverify : d.verify with
  | none =>
      refine ⟨⟨fun _ => hnone.mp hverify, fun _ => ⟨d, rfl⟩⟩, ?_, nofun⟩
      rintro _ ⟨⟩
      exact hagrees
  | some e =>
      refine ⟨⟨nofun, ?_⟩, nofun, ?_⟩
      · intro hall
        rw [hnone.mpr hall] at hverify
        cases hverify
      · rintro _ ⟨⟩
        obtain ⟨i, hi, rfl⟩ := hsome e hverify
        exact ⟨i, hi, rfl⟩

/-- A text, a negative zero, and a loop back to the beginning. -/
def backAndForth : Text := "CONST \"é\"\nconst -0.0\nLOOP 7"

/-- The chunk of that source. -/
def backAndForthChunk : Chunk :=
  ⟨some #[0, 0, 0, 1, 39, 0, 7], some #[1, 1, 2, 2, 3, 3, 3],
    #[.string [0xc3, 0xa9], .float ⟨0x8000000000000000⟩]⟩

theorem compile_backAndForth :
    SourceForm.assembly.compile backAndForth = .ok backAndForthChunk := rfl

/-- A jump past the end. -/
def strayJump : Chunk := ⟨some #[36, 0, 1], some #[1, 1, 1], #[]⟩

theorem backAndForth_and_strayJump :
    (∃ bytes d, backAndForthChunk.marshal = .ok bytes ∧
      SourceForm.container.compile bytes = .ok d ∧ backAndForthChunk.Agrees d) ∧
    SourceForm.assembly.compile "JUMP 1" = .ok strayJump ∧
      ∃ bytes, strayJump.marshal = .ok bytes ∧ SourceForm.container.compile bytes =
        .error (.unverified (.invalid 0 (.jumpTarget .jump 4))) := by
  refine ⟨?_, rfl, ?_⟩
  · have hvalid : ∀ s, .string s ∈ backAndForthChunk.constants.toList → s.isValid = true := by
      intro s hs
      rcases List.mem_pair.mp hs with heq | heq
      · cases heq
        decide
      · cases heq
    obtain ⟨is, bytes, his, hmarshal, haccepted, hagrees, -⟩ :=
      container_agrees_with_assembly compile_backAndForth (by decide) hvalid (by decide)
    have hcode : backAndForthChunk.instructions =
        .ok [⟨0, .const, 0, 1⟩, ⟨2, .const, 1, 2⟩, ⟨4, .loop, 7, 3⟩] := by cbv
    rw [his] at hcode
    cases hcode
    obtain ⟨d, hd⟩ := haccepted.mpr (by
      intro i hi hjump
      simp only [List.mem_cons, List.not_mem_nil, or_false] at hi
      rcases hi with rfl | rfl | rfl
      · cases hjump
      · cases hjump
      · exact Or.inl ⟨_, List.mem_cons_self, rfl⟩)
    exact ⟨bytes, d, hmarshal, hd, hagrees d hd⟩
  · have hcompile : SourceForm.assembly.compile "JUMP 1" = .ok strayJump := rfl
    have hvalid : ∀ s, .string s ∈ strayJump.constants.toList → s.isValid = true := by
      intro s hs
      cases hs
    obtain ⟨is, bytes, his, hmarshal, haccepted, -, herror⟩ :=
      container_agrees_with_assembly hcompile (by decide) hvalid (by decide)
    have hcode : strayJump.instructions = .ok [⟨0, .jump, 1, 1⟩] := by cbv
    rw [his] at hcode
    cases hcode
    refine ⟨bytes, hmarshal, ?_⟩
    cases hresult : SourceForm.container.compile bytes with
    | ok d =>
        rcases haccepted.mp ⟨d, hresult⟩ _ List.mem_cons_self rfl with ⟨i, hi, htarget⟩ | htarget
        · cases List.mem_singleton.mp hi
          cases htarget
        · cases htarget
    | error e =>
        obtain ⟨i, ⟨⟨front, back, heq, -⟩, -, -⟩, rfl⟩ := herror e hresult
        have hi : i ∈ front ++ i :: back := by simp
        rw [← heq] at hi
        cases List.mem_singleton.mp hi
        rfl

end Containers

end StackNative
