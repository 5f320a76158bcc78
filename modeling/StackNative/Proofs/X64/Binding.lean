import StackNative.Proofs.X64.Program

/-!
# Every label of a program is bound

**Input.**  A module that has a program.

**Results.**
* `Refers`: an instruction of a function names a string literal, a block of the
  function, or nothing.
* `mem_literals`: the literals of a program are the strings that it points to;
  `literals_concat_of_mem`, `literals_concat_of_not_mem`: what one item more adds to them.
* `machineCode_of_moduleCode`: the program is laid out, so that only the first
  step of code generation can fail.
-/

namespace StackNative
namespace X64

open Ir (Register BlockId Module)

section References

/-- None of the instructions names a label. -/
def Unlabelled (is : List (Instruction Label)) : Prop := ∀ j ∈ is, j.label? = none

instance (is : List (Instruction Label)) : Decidable (Unlabelled is) :=
  inferInstanceAs (Decidable (∀ j ∈ is, j.label? = none))

/-- What an instruction names is a string literal, or a block that the function has. -/
def Refers (g : Context) (j : Instruction Label) : Prop :=
  ∀ l, j.label? = some l → (∃ s, l = .literal s ∧ Item.literal? (.instruction j) = some s) ∨
    ∃ id, l = g.label id ∧ (g.function.block? id).isSome = true

variable {g : Context} {i : Ir.Instruction} {is js : List (Instruction Label)}

theorem unlabelled_nil : Unlabelled [] := nofun

theorem unlabelled_single
    {j : Instruction Label}
    (h : j.label? = none) :
    Unlabelled [j] := by
  intro k hk
  cases List.mem_singleton.mp hk
  exact h

theorem Unlabelled.append
    (hi : Unlabelled is)
    (hj : Unlabelled js) :
    Unlabelled (is ++ js) := by
  intro j hj'
  rcases List.mem_append.mp hj' with h | h
  · exact hi j h
  · exact hj j h

/-- Code without labels refers to nothing that is missing. -/
theorem Unlabelled.refers
    (h : Unlabelled is) :
    ∀ j ∈ is, Refers g j := by
  intro j hj l hl
  rw [h j hj] at hl
  cases hl

/-- A copy has no label. -/
theorem unlabelled_copy (target source : Reg) : Unlabelled (Context.copy target source) := by
  unfold Context.copy
  split <;> simp [Unlabelled, Instruction.label?]

/-- Bringing a value into a machine register takes no label. -/
theorem unlabelled_load
    {target : Reg} {r : Register}
    (h : g.load target r = .ok is) :
    Unlabelled is := by
  unfold Context.load at h
  split at h
  · cases h
    exact unlabelled_copy _ _
  · cases h
    exact unlabelled_single rfl
  · cases h

/-- Putting a value in its place takes no label. -/
theorem unlabelled_store (g : Context) (r : Register) (source : Reg) :
    Unlabelled (g.store r source) := by
  unfold Context.store
  split
  · exact unlabelled_copy _ _
  · exact unlabelled_single rfl
  · exact unlabelled_nil

/-- Bringing two operands into machine registers takes no label. -/
theorem unlabelled_loadPair
    (h : g.loadPair i = .ok is) :
    Unlabelled is := by
  unfold Context.loadPair at h
  split at h
  · obtain ⟨left, hleft, h⟩ := bind_eq_ok h
    obtain ⟨right, hright, h⟩ := bind_eq_ok h
    cases h
    exact (unlabelled_load hleft).append (unlabelled_load hright)
  · cases h

/-- Bringing the first operand into a machine register takes no label. -/
theorem unlabelled_loadFirst
    {target : Reg}
    (h : g.loadFirst target i = .ok is) :
    Unlabelled is := by
  unfold Context.loadFirst at h
  split at h
  · cases h
  · exact unlabelled_load h

/-- The work on two operands has no label. -/
theorem unlabelled_pairWork
    {op : Ir.Op}
    (h : Context.pairWork? op = some is) :
    Unlabelled is := by
  cases op <;> cases h <;> decide +kernel

/-- The work on one operand has no label. -/
theorem unlabelled_singleWork
    {op : Ir.Op}
    (h : Context.singleWork? op = some is) :
    Unlabelled is := by
  cases op <;> cases h <;> decide +kernel

/-- A constant refers to its own string at most. -/
theorem refers_loadConstant (g : Context) (c : Ir.Constant) :
    Refers g (Context.loadConstant c) := by
  intro l hl
  cases c with
  | string s =>
      cases hl
      exact Or.inl ⟨s, rfl, rfl⟩
  | int n =>
      rw [Context.loadConstant, Instruction.label?_movImm] at hl
      cases hl
  | float x =>
      rw [Context.loadConstant, Instruction.label?_movImm] at hl
      cases hl
  | null => cases hl
  | bool b => cases hl
  | unknown code => cases hl

/-- A result refers to strings at most. -/
theorem refers_result
    (h : g.result i = .ok is) :
    ∀ j ∈ is, Refers g j := by
  unfold Context.result at h
  split at h
  · cases h
    intro j hj
    cases List.mem_singleton.mp hj
    exact refers_loadConstant g _
  · obtain ⟨offset, -, h⟩ := bind_eq_ok h
    cases h
    exact (unlabelled_single rfl).refers
  · cases h
    exact (unlabelled_single rfl).refers
  · obtain ⟨front, hfront, h⟩ := bind_eq_ok h
    cases h
    exact ((unlabelled_loadFirst hfront).append (unlabelled_single rfl)).refers
  · split at h
    · next hwork =>
        obtain ⟨front, hfront, h⟩ := bind_eq_ok h
        cases h
        exact ((unlabelled_loadPair hfront).append (unlabelled_pairWork hwork)).refers
    · next hwork =>
        obtain ⟨front, hfront, h⟩ := bind_eq_ok h
        cases h
        exact ((unlabelled_loadFirst hfront).append (unlabelled_singleWork hwork)).refers
    · cases h

/-- An instruction refers to strings at most. -/
theorem refers_instruction
    (h : g.instruction i = .ok is) :
    ∀ j ∈ is, Refers g j := by
  unfold Context.instruction at h
  split at h
  · cases h
    simp
  · cases h
    simp
  · obtain ⟨offset, -, h⟩ := bind_eq_ok h
    obtain ⟨front, hfront, h⟩ := bind_eq_ok h
    cases h
    exact ((unlabelled_loadFirst hfront).append (unlabelled_single rfl)).refers
  · split at h
    · obtain ⟨left, hleft, h⟩ := bind_eq_ok h
      obtain ⟨right, hright, h⟩ := bind_eq_ok h
      cases h
      exact (((unlabelled_load hleft).append (unlabelled_load hright)).append
        (unlabelled_single rfl)).refers
    · cases h
  · obtain ⟨work, hwork, h⟩ := bind_eq_ok h
    split at h
    · cases h
      intro j hj
      rcases List.mem_append.mp hj with hj | hj
      · exact refers_result hwork j hj
      · exact (unlabelled_store g _ _).refers j hj
    · cases h
      exact refers_result hwork

/-- A terminator names blocks that the function has. -/
theorem refers_terminator
    {t : Ir.Terminator}
    (h : g.terminator t = .ok is) :
    ∀ j ∈ is, Refers g j := by
  have hepilogue : Unlabelled Context.epilogue := by decide +kernel
  cases t with
  | ret value =>
      cases value with
      | none =>
          cases h
          exact (show Unlabelled (.movImm32 .rax 0 :: Context.epilogue) by decide +kernel).refers
      | some r =>
          obtain ⟨front, hfront, h⟩ := bind_eq_ok h
          cases h
          exact ((unlabelled_load hfront).append hepilogue).refers
  | jump target =>
      rw [Context.terminator_jump] at h
      split at h
      · cases h
      · next hsome =>
          cases h
          intro j hj l hl
          cases List.mem_singleton.mp hj
          cases hl
          exact Or.inr ⟨target, rfl, by simpa [Option.isSome_iff_ne_none] using hsome⟩
  | branch condition onTrue onFalse =>
      rw [Context.terminator_branch] at h
      split at h
      · cases h
      · next htrue =>
          split at h
          · cases h
          · next hfalse =>
              obtain ⟨front, hfront, h⟩ := bind_eq_ok h
              cases h
              intro j hj l hl
              rcases List.mem_append.mp hj with hj | hj
              · exact (unlabelled_load hfront).refers j hj l hl
              · simp only [List.mem_cons, List.not_mem_nil, or_false] at hj
                rcases hj with rfl | rfl | rfl
                · cases hl
                · cases hl
                  exact Or.inr ⟨onTrue, rfl, by simpa [Option.isSome_iff_ne_none] using htrue⟩
                · cases hl
                  exact Or.inr ⟨onFalse, rfl, by simpa [Option.isSome_iff_ne_none] using hfalse⟩
  | unreachable =>
      cases h
      exact (show Unlabelled [.ud2] by decide +kernel).refers
  | throw value =>
      cases h
  | unknown code =>
      cases h

/-- Setting up the frame takes no label. -/
theorem unlabelled_prologue (g : Context) (os : Os) : Unlabelled (g.prologue os) := by
  have hroom : Unlabelled (if 0 < g.frame.size then [.subImm .rsp g.frame.size] else []) := by
    split <;> simp [Unlabelled, Instruction.label?]
  have henter : Unlabelled [.push .rbp, .pair .mov .rbp .rsp] := by decide +kernel
  refine (henter.append hroom).append ?_
  intro j hj
  obtain ⟨⟨p, source⟩, -, hj⟩ := List.mem_flatMap.mp hj
  exact unlabelled_store g p.register source j hj

end References

section Literals

/-- Takes in an item, beside the strings seen and the strings found so far. -/
def notice (noticed : Std.HashSet Text × Array Text) (item : Item Label) :
    Std.HashSet Text × Array Text :=
  match Item.literal? item with
  | some s =>
    if noticed.1.contains s then noticed else (noticed.1.insert s, noticed.2.push s)
  | none => noticed

theorem literals_eq (c : Code) : literals c = (c.foldl notice (∅, #[])).2.toList := rfl

/-- The strings that were met are those that are listed. -/
theorem mem_noticed (c : Code) (s : Text) :
    s ∈ (c.foldl notice (∅, #[])).1 ↔ s ∈ (c.foldl notice (∅, #[])).2 := by
  induction c using List.reverseRecOn with
  | nil =>
      simp
  | append_singleton c item ih =>
      rw [List.foldl_append, List.foldl_cons, List.foldl_nil]
      generalize c.foldl notice (∅, #[]) = noticed at ih ⊢
      unfold notice
      split
      · split
        · exact ih
        · rw [Std.HashSet.mem_insert, beq_iff_eq, Array.mem_push, ih, or_comm,
            eq_comm (a := s)]
      · exact ih

/-- A string that is pointed to again is not listed again. -/
theorem literals_concat_of_mem
    {c : Code} {item : Item Label}
    (h : ∀ s, Item.literal? item = some s → s ∈ literals c) :
    literals (c ++ [item]) = literals c := by
  rw [literals_eq, List.foldl_append, List.foldl_cons, List.foldl_nil, notice]
  split
  · next s hs =>
      have hseen : s ∈ (c.foldl notice (∅, #[])).1 := by
        rw [mem_noticed, ← Array.mem_toList_iff]
        exact h s hs
      rw [if_pos (Std.HashSet.mem_iff_contains.mp hseen)]
      rfl
  · rfl

/-- A string that is met first is the last of the literals. -/
theorem literals_concat_of_not_mem
    {c : Code} {item : Item Label} {s : Text}
    (hs : Item.literal? item = some s)
    (h : s ∉ literals c) :
    literals (c ++ [item]) = literals c ++ [s] := by
  have hseen : s ∉ (c.foldl notice (∅, #[])).1 := by
    rw [mem_noticed, ← Array.mem_toList_iff]
    exact h
  rw [literals_eq, List.foldl_append, List.foldl_cons, List.foldl_nil, notice, hs]
  simp only [if_neg (mt Std.HashSet.mem_iff_contains.mpr hseen), Array.toList_push]
  rfl

/-- Code without strings adds no literal. -/
theorem literals_append_of_none
    {front back : Code}
    (h : ∀ item ∈ front, Item.literal? item = none) :
    literals (front ++ back) = literals back := by
  rw [literals_eq, literals_eq, List.foldl_append]
  congr 3
  induction front with
  | nil =>
      rfl
  | cons item front ih =>
      obtain ⟨hitem, hfront⟩ := List.forall_mem_cons.mp h
      rw [List.foldl_cons, notice, hitem]
      exact ih hfront

/-- The literals of a program are the strings that its instructions point to. -/
theorem mem_literals
    {c : Code} {s : Text} :
    s ∈ literals c ↔ ∃ item ∈ c, Item.literal? item = some s := by
  induction c using List.reverseRecOn with
  | nil =>
      simp [literals]
  | append_singleton c item ih =>
      have hlast : (∃ i ∈ c ++ [item], Item.literal? i = some s) ↔
          s ∈ literals c ∨ Item.literal? item = some s := by
        rw [ih]
        simp [or_and_right, exists_or]
      rw [hlast]
      cases hitem : Item.literal? item with
      | none =>
          rw [literals_concat_of_mem (by simp [hitem])]
          simp
      | some t =>
          by_cases ht : t ∈ literals c
          · rw [literals_concat_of_mem (by simpa [hitem] using ht)]
            constructor
            · exact Or.inl
            · rintro (h | h)
              · exact h
              · cases h
                exact ht
          · rw [literals_concat_of_not_mem hitem ht]
            simp [eq_comm]

end Literals

section Programs

/-- A function binds the label of every block that it finds. -/
theorem bind_of_block?
    {os : Os} {index : Nat} {f : Ir.Function} {c : Code} {id : BlockId}
    (h : functionCode os index f = .ok c)
    (hid : (f.block? id).isSome = true) :
    Item.bind (.block index id) ∈ c := by
  obtain ⟨b, hb⟩ := Option.isSome_iff_exists.mp hid
  have hmem : b ∈ f.blocks := Array.mem_of_find?_eq_some hb
  have hbid : b.id = id := by
    simpa using Array.find?_some hb
  rw [← mem_binds, binds_functionCode h]
  exact List.mem_map.mpr ⟨b, Array.mem_toList_iff.mpr hmem, by rw [hbid]⟩

/-- What the code of a function names is a string literal, or bound in it. -/
theorem functionCode_refers
    {os : Os} {index : Nat} {f : Ir.Function} {c : Code} {i : Instruction Label} {l : Label}
    (h : functionCode os index f = .ok c)
    (hi : Item.instruction i ∈ c)
    (hl : i.label? = some l) :
    (∃ s, l = .literal s ∧ Item.literal? (.instruction i) = some s) ∨ Item.bind l ∈ c := by
  have hbound := @bind_of_block? os index f c
  obtain ⟨g, blocks, hentry, rfl, rfl, -, -, hblocks, rfl⟩ := functionCode_ok h
  have hrefers : Refers g i := by
    rcases List.mem_append.mp hi with hi | hi
    · rcases List.mem_append.mp hi with hi | hi
      · exact (unlabelled_prologue g os).refers i (instruction_mem_code.mp hi)
      · unfold Context.skip at hi
        split at hi
        · split at hi
          · simp at hi
          · intro l hl
            cases List.mem_singleton.mp (instruction_mem_code.mp hi)
            cases hl
            exact Or.inr ⟨_, rfl, hentry⟩
        · simp at hi
    · obtain ⟨c, hc, hi⟩ := List.mem_flatten.mp hi
      obtain ⟨b, -, hb⟩ := exists_of_mem_mapM hblocks hc
      obtain ⟨body, exit, hbody, hexit, rfl⟩ := block_ok hb
      have hi' : i ∈ body.flatten ++ exit := by
        rcases List.mem_cons.mp hi with hi | hi
        · cases hi
        · exact instruction_mem_code.mp hi
      rcases List.mem_append.mp hi' with hi' | hi'
      · obtain ⟨is, his, hi'⟩ := List.mem_flatten.mp hi'
        obtain ⟨j, -, hj⟩ := exists_of_mem_mapM hbody his
        exact refers_instruction hj i hi'
      · exact refers_terminator hexit i hi'
  rcases hrefers l hl with hliteral | ⟨id, rfl, hid⟩
  · exact Or.inl hliteral
  · exact Or.inr (hbound h hid)

/-- A pool binds the label of every string in it. -/
theorem bind_literal_mem_pool
    {strings : List Text} {s : Text}
    (h : s ∈ strings) :
    Item.bind (.literal s) ∈ pool strings := by
  unfold pool
  rw [if_neg (by cases strings <;> simp_all)]
  refine List.mem_cons_of_mem _ (List.mem_flatMap.mpr ⟨s, h, ?_⟩)
  simp

/-- Every label that a program names is bound in it. -/
theorem bound_of_moduleCode
    {os : Os} {m : Module} {program : Code}
    (h : moduleCode os m = .ok program) :
    ∀ l ∈ references program, Item.bind l ∈ program := by
  obtain ⟨main, bodies, hmain, hexternal, hbodies, rfl⟩ := moduleCode_ok h
  intro l hl
  obtain ⟨i, hi, hlabel⟩ := mem_references.mp hl
  rcases List.mem_append.mp hi with hi | hi
  · rcases List.mem_append.mp hi with hi | hi
    · have hl : l = .function mainName := by
        unfold stub at hi
        split at hi
        all_goals
          have hi' := instruction_mem_code.mp hi
          simp only [List.mem_cons, List.not_mem_nil, or_false] at hi'
        · rcases hi' with rfl | rfl
          · cases hlabel
            rfl
          · cases hlabel
        · rcases hi' with rfl | rfl | rfl | rfl | rfl
          · cases hlabel
            rfl
          all_goals cases hlabel
      subst hl
      refine List.mem_append_left _ (List.mem_append_right _ (mem_binds.mp ?_))
      have hmem : main ∈ m.functions.toList.filter fun f => !f.external := by
        rw [List.mem_filter, Array.mem_toList_iff, hexternal]
        exact ⟨Array.mem_of_find?_eq_some hmain, rfl⟩
      have hname : main.name = mainName := by
        simpa using Array.find?_some hmain
      obtain ⟨k, hk, hget⟩ := List.getElem_of_mem hmem
      rw [binds_flatten_functions hbodies, List.mem_flatMap]
      refine ⟨(main, k), List.mem_zipIdx_iff_getElem?.mpr ?_, ?_⟩
      · rw [List.getElem?_eq_getElem hk, hget]
      · rw [functionLabels, hname]
        exact List.mem_cons_self
    · obtain ⟨c, hc, hic⟩ := List.mem_flatten.mp hi
      obtain ⟨⟨f, index⟩, -, hf⟩ := exists_of_mem_mapM hbodies hc
      obtain ⟨body, hbody, hf⟩ := bind_eq_ok hf
      cases hf
      rcases List.mem_cons.mp hic with hic | hic
      · cases hic
      · rcases functionCode_refers hbody hic hlabel with ⟨s, rfl, hs⟩ | hbind
        · exact List.mem_append_right _
            (bind_literal_mem_pool (mem_literals.mpr ⟨_, hi, hs⟩))
        · exact List.mem_append_left _ (List.mem_append_right _
            (List.mem_flatten.mpr ⟨_, hc, List.mem_cons_of_mem _ hbind⟩))
  · unfold pool at hi
    split at hi
    · simp at hi
    · simp at hi

/-- A module that has a program has machine code. -/
theorem machineCode_of_moduleCode
    {os : Os} {m : Module} {program : Code}
    (h : moduleCode os m = .ok program) :
    ∃ bytes, machineCode os m = .ok bytes := by
  refine ⟨bytesFrom (offsetOf program) 0 program, ?_⟩
  rw [machineCode, h]
  simp only [finish_eq (bound_of_moduleCode h)]

end Programs

end X64
end StackNative
