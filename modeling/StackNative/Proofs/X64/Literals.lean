import StackNative.Proofs.X64.Binding
import StackNative.Proofs.X64.Disassembly
import StackNative.Proofs.X64.Simulation

/-!
# String literals are found where the code points

**Input.**  A module that has machine code.

**Algorithm.**  The code of a function points to the strings that the function loads, in their
order, and to nothing else.  Behind the code each of these strings stands once, in the order of
first use.

**Results.**
* `leas_functions`: the places that code points to are the strings that a module loads.
* `sweep_items`: a sweep over instructions finds their operations.
* `offsetOf_literal`: where a string stands.
* `machineCode_literals`: what the machine code of a module points to, and what stands there.
-/

namespace StackNative
namespace X64

open Ir (Module)
open Allocation (Interval Numbering allocate liveIntervals)

section Loads

/-- The string that an instruction loads. -/
def loadedString? (i : Ir.Instruction) : Option Text :=
  match i.op, i.const with
  | .loadConst, .string s => some s
  | _, _ => none

/-- The strings that a function loads, in order. -/
def stringsOf (f : Ir.Function) : List Text :=
  f.blocks.toList.flatMap fun b => b.instructions.toList.filterMap loadedString?

/-- The strings that the functions of a module load, in order. -/
def loadedStrings (m : Module) : List Text :=
  (m.functions.toList.filter fun f => !f.external).flatMap stringsOf

/-- The label whose address an item loads. -/
def Item.lea? {label : Type} : Item label → Option label
  | .instruction (.leaLabel _ l) => some l
  | _ => none

/-- The labels whose addresses code loads, in order. -/
def leas (c : Code) : List Label := c.filterMap Item.lea?

@[simp] theorem leas_append
    (front back : Code) :
    leas (front ++ back) = leas front ++ leas back :=
  List.filterMap_append

@[simp] theorem leas_code_append
    (is js : List (Instruction Label)) :
    leas (code (is ++ js)) = leas (code is) ++ leas (code js) := by
  rw [code, List.map_append, leas_append]
  rfl

variable {g : Context} {i : Ir.Instruction} {is : List (Instruction Label)}

/-- Code without labels loads the address of none. -/
theorem Unlabelled.leas_eq_nil
    (h : Unlabelled is) :
    leas (code is) = [] := by
  refine List.filterMap_eq_nil_iff.mpr fun item hitem => ?_
  obtain ⟨j, hj, rfl⟩ := List.mem_map.mp hitem
  have hlabel := h j hj
  cases j with
  | leaLabel target l =>
      cases hlabel
  | _ =>
      rfl

/-- A constant loads an address exactly if it is a string. -/
theorem leas_loadConstant
    (h : i.op = .loadConst) :
    leas (code [Context.loadConstant i.const]) = (loadedString? i).toList.map .literal := by
  rw [loadedString?, h]
  cases i.const with
  | string s =>
      rfl
  | int n =>
      exact (unlabelled_single (Instruction.label?_movImm .rax n)).leas_eq_nil
  | float x =>
      exact (unlabelled_single (Instruction.label?_movImm .rax x.toInt64)).leas_eq_nil
  | _ =>
      rfl

theorem leas_code
    (is : List (Instruction Label)) :
    leas (code is) = is.filterMap (Item.lea? ∘ Item.instruction) :=
  List.filterMap_map

/-- The result of an instruction takes the address of the string that it loads, and no other. -/
theorem leas_result
    (h : g.result i = .ok is) :
    leas (code is) = (loadedString? i).toList.map .literal := by
  by_cases hop : i.op = .loadConst
  · rw [Context.result, hop] at h
    cases h
    exact leas_loadConstant hop
  · -- All other operations are carried out by code that names no label at all.
    have hnone : loadedString? i = none := by
      unfold loadedString?
      split
      · contradiction
      · rfl
    rw [hnone]
    unfold Context.result at h
    split at h
    · contradiction
    · obtain ⟨offset, -, h⟩ := bind_eq_ok h
      cases h
      exact (unlabelled_single rfl).leas_eq_nil
    · cases h
      exact (unlabelled_single rfl).leas_eq_nil
    · obtain ⟨front, hfront, h⟩ := bind_eq_ok h
      cases h
      exact ((unlabelled_loadFirst hfront).append (unlabelled_single rfl)).leas_eq_nil
    · split at h
      · next hwork =>
          obtain ⟨front, hfront, h⟩ := bind_eq_ok h
          cases h
          exact ((unlabelled_loadPair hfront).append (unlabelled_pairWork hwork)).leas_eq_nil
      · next hwork =>
          obtain ⟨front, hfront, h⟩ := bind_eq_ok h
          cases h
          exact ((unlabelled_loadFirst hfront).append (unlabelled_singleWork hwork)).leas_eq_nil
      · cases h

/-- An instruction takes the address of the string that it loads, and no other. -/
theorem leas_instruction
    (h : g.instruction i = .ok is) :
    leas (code is) = (loadedString? i).toList.map .literal := by
  unfold Context.instruction at h
  split at h
  · next hop =>
      cases h
      simp [loadedString?, hop, leas, code]
  · next hop =>
      cases h
      simp [loadedString?, hop, leas, code]
  · next hop =>
      obtain ⟨offset, -, h⟩ := bind_eq_ok h
      obtain ⟨front, hfront, h⟩ := bind_eq_ok h
      cases h
      rw [((unlabelled_loadFirst hfront).append (unlabelled_single rfl)).leas_eq_nil]
      simp [loadedString?, hop]
  · next hop =>
      split at h
      · obtain ⟨left, hleft, h⟩ := bind_eq_ok h
        obtain ⟨right, hright, h⟩ := bind_eq_ok h
        cases h
        rw [(((unlabelled_load hleft).append (unlabelled_load hright)).append
          (unlabelled_single rfl)).leas_eq_nil]
        simp [loadedString?, hop]
      · cases h
  · obtain ⟨work, hwork, h⟩ := bind_eq_ok h
    split at h
    · cases h
      rw [leas_code_append, (unlabelled_store g _ _).leas_eq_nil, List.append_nil,
        leas_result hwork]
    · cases h
      exact leas_result hwork

/-- A terminator takes no address. -/
theorem leas_terminator
    {t : Ir.Terminator}
    (h : g.terminator t = .ok is) :
    leas (code is) = [] := by
  cases t with
  | ret value =>
      cases value with
      | none =>
          cases h
          rfl
      | some r =>
          obtain ⟨front, hfront, h⟩ := bind_eq_ok h
          cases h
          rw [leas_code_append, (unlabelled_load hfront).leas_eq_nil]
          rfl
  | jump target =>
      rw [eq_of_terminator_jump h]
      rfl
  | branch condition onTrue onFalse =>
      obtain ⟨front, hfront, rfl⟩ := eq_of_terminator_branch h
      rw [leas_code_append, (unlabelled_load hfront).leas_eq_nil]
      rfl
  | unreachable =>
      cases h
      rfl
  | throw value =>
      cases h
  | unknown code =>
      cases h

/-- A block takes the addresses of the strings that its instructions load, in their order. -/
theorem leas_block
    {b : Ir.Block}
    {c : Code}
    (h : g.block b = .ok c) :
    leas c = (b.instructions.toList.filterMap loadedString?).map .literal := by
  obtain ⟨body, exit, hbody, hexit, rfl⟩ := block_ok h
  have hbody' := filterMap_flatten_of_mapM (Item.lea? ∘ Item.instruction)
    (fun i is his => (leas_code is).symm.trans (leas_instruction his)) hbody
  rw [← leas_code, ← List.map_flatMap, ← List.filterMap_eq_flatMap_toList] at hbody'
  rw [leas, List.filterMap_cons_none rfl, ← leas, leas_code_append, hbody', leas_terminator hexit,
    List.append_nil]

theorem leas_stub
    (os : Os)
    (main : Label) :
    leas (stub os main) = [] := by
  unfold stub
  split <;> rfl

/-- The code of a function points to the strings that the function loads. -/
theorem leas_functionCode
    {os : Os}
    {index : Nat}
    {f : Ir.Function}
    {c : Code}
    (h : functionCode os index f = .ok c) :
    leas c = (stringsOf f).map .literal := by
  obtain ⟨g, blocks, -, -, -, -, -, hblocks, rfl⟩ := functionCode_ok h
  have hskip : leas g.skip = [] := by
    unfold Context.skip
    split
    · split <;> rfl
    · rfl
  have hblocks' := filterMap_flatten_of_mapM Item.lea? (fun b c hc => leas_block hc) hblocks
  rw [leas_append, leas_append, (unlabelled_prologue g os).leas_eq_nil, hskip, leas, hblocks',
    stringsOf, List.map_flatMap]
  rfl

/-- The code of the functions of a module points to the strings that the module loads. -/
theorem leas_functions
    {os : Os}
    {m : Module}
    {bodies : List Code}
    (h : (m.functions.toList.filter fun f => !f.external).zipIdx.mapM (labelled os) =
      .ok bodies) :
    leas bodies.flatten = (loadedStrings m).map .literal := by
  have hlabelled : ∀ f c, labelled os f = .ok c →
      c.filterMap Item.lea? = (stringsOf f.1).map .literal := by
    intro f c hc
    obtain ⟨body, hbody, hc⟩ := bind_eq_ok hc
    cases hc
    rw [List.filterMap_cons_none rfl]
    exact leas_functionCode hbody
  rw [leas, filterMap_flatten_of_mapM Item.lea? hlabelled h, loadedStrings, List.map_flatMap,
    ← List.flatMap_map Prod.fst fun f => (stringsOf f).map Label.literal, List.zipIdx_map_fst]

end Loads

section Listed

/-- Leaving out what was met before keeps a new element at the end. -/
theorem eraseDups_concat
    (as : List Text)
    (a : Text) :
    (as ++ [a]).eraseDups = if a ∈ as then as.eraseDups else as.eraseDups ++ [a] := by
  rw [List.eraseDups_append]
  split
  · next h =>
      simp [List.removeAll, h]
  · next h =>
      simp [List.removeAll, h, List.eraseDups_cons]

/-- Where what was met before is left out, nothing stands twice. -/
theorem nodup_eraseDups
    (as : List Text) :
    as.eraseDups.Nodup := by
  induction as using List.reverseRecOn with
  | nil =>
      simp
  | append_singleton as a ih =>
      rw [eraseDups_concat]
      split
      · exact ih
      · next h =>
          rw [← List.concat_eq_append]
          exact ih.concat (mt List.mem_eraseDups.mp h)

/-- The strings of a program are those that its instructions take the address of, each once. -/
theorem literals_eq_eraseDups
    (c : Code) :
    literals c = (c.filterMap Item.literal?).eraseDups := by
  induction c using List.reverseRecOn with
  | nil =>
      simp [literals]
  | append_singleton c item ih =>
      rw [List.filterMap_append, List.filterMap_cons, List.filterMap_nil]
      cases hitem : Item.literal? item with
      | none =>
          rw [literals_concat_of_mem (by simp [hitem]), ih, List.append_nil]
      | some s =>
          have hmem : s ∈ c.filterMap Item.literal? ↔ s ∈ literals c := by
            rw [ih, List.mem_eraseDups]
          rw [eraseDups_concat, ← ih]
          split
          · next h =>
              exact literals_concat_of_mem (by simpa [hitem] using hmem.mp h)
          · next h =>
              exact literals_concat_of_not_mem hitem (mt hmem.mpr h)

/-- An item has a string exactly if it takes the address of its label. -/
theorem Item.literal?_eq_some_iff
    {item : Item Label}
    {s : Text} :
    item.literal? = some s ↔ item.lea? = some (.literal s) := by
  cases item with
  | instruction i =>
      cases i with
      | leaLabel target l =>
          cases l <;> simp [Item.literal?, Item.lea?]
      | _ =>
          simp [Item.literal?, Item.lea?]
  | _ =>
      simp [Item.literal?, Item.lea?]

/-- Where all addresses are those of strings, the strings of the program are these. -/
theorem filterMap_literal?
    {c : Code}
    {strings : List Text}
    (h : leas c = strings.map .literal) :
    c.filterMap Item.literal? = strings := by
  induction c generalizing strings with
  | nil =>
      exact (List.map_eq_nil_iff.mp h.symm).symm
  | cons item c ih =>
      cases hlea : item.lea? with
      | none =>
          have hnone : item.literal? = none := by
            refine Option.eq_none_iff_forall_ne_some.mpr fun s hs => ?_
            rw [Item.literal?_eq_some_iff.mp hs] at hlea
            cases hlea
          rw [leas, List.filterMap_cons_none hlea] at h
          rw [List.filterMap_cons_none hnone, ih h]
      | some l =>
          rw [leas, List.filterMap_cons_some hlea] at h
          obtain ⟨s, rest, rfl, rfl, hrest⟩ := List.map_eq_cons_iff.mp h.symm
          rw [List.filterMap_cons_some (Item.literal?_eq_some_iff.mpr hlea), ih hrest.symm]

/-- Code that points to strings has each of them once among its literals. -/
theorem literals_of_leas
    {c : Code}
    {strings : List Text}
    (h : leas c = strings.map .literal) :
    literals c = strings.eraseDups := by
  rw [literals_eq_eraseDups, filterMap_literal? h]

end Listed

section Sweeps

variable {label : Type}

/-- The items are instructions and bound labels. -/
def Coded (items : List (Item label)) : Prop :=
  ∀ item ∈ items, (∃ i, item = .instruction i) ∨ ∃ l, item = .bind l

theorem Coded.append
    {front back : List (Item label)}
    (hfront : Coded front)
    (hback : Coded back) :
    Coded (front ++ back) := by
  intro item hitem
  rcases List.mem_append.mp hitem with hitem | hitem
  · exact hfront item hitem
  · exact hback item hitem

/-- Code alone has no data in it. -/
theorem coded_code
    (is : List (Instruction Label)) :
    Coded (code is) := by
  intro item hitem
  obtain ⟨i, -, rfl⟩ := List.mem_map.mp hitem
  exact .inl ⟨i, rfl⟩

/-- The code of a function has no data in it. -/
theorem coded_functionCode
    {os : Os}
    {index : Nat}
    {f : Ir.Function}
    {c : Code}
    (h : functionCode os index f = .ok c) :
    Coded c := by
  obtain ⟨g, blocks, -, -, -, -, -, hblocks, rfl⟩ := functionCode_ok h
  have hskip : Coded g.skip := by
    unfold Context.skip
    split
    · split
      · nofun
      · exact coded_code _
    · nofun
  refine ((coded_code _).append hskip).append fun item hitem => ?_
  obtain ⟨c, hc, hitem⟩ := List.mem_flatten.mp hitem
  obtain ⟨b, -, hb⟩ := exists_of_mem_mapM hblocks hc
  obtain ⟨body, exit, -, -, rfl⟩ := block_ok hb
  rcases List.mem_cons.mp hitem with rfl | hitem
  · exact .inr ⟨_, rfl⟩
  · exact coded_code _ item hitem

/-- The code of all functions has no data in it. -/
theorem coded_functions
    {os : Os}
    {fs : List (Ir.Function × Nat)}
    {bodies : List Code}
    (h : fs.mapM (labelled os) = .ok bodies) :
    Coded bodies.flatten := by
  intro item hitem
  obtain ⟨c, hc, hitem⟩ := List.mem_flatten.mp hitem
  obtain ⟨f, -, hf⟩ := exists_of_mem_mapM h hc
  obtain ⟨body, hbody, hf⟩ := bind_eq_ok hf
  cases hf
  rcases List.mem_cons.mp hitem with rfl | hitem
  · exact .inr ⟨_, rfl⟩
  · exact coded_functionCode hbody item hitem

/-- The entry of a program has no data in it. -/
theorem coded_stub
    (os : Os)
    (main : Label) :
    Coded (stub os main) := by
  unfold stub
  split <;> exact coded_code _

/-- The operations of items from an offset on, each with its offset. -/
def operationsFrom (target : label → Nat) (offset : Nat) :
    List (Item label) → List (Nat × Operation Int)
  | [] => []
  | .instruction i :: rest =>
    (offset, i.operation fun l => (target l : Int)) :: operationsFrom target (offset + i.size) rest
  | item :: rest => operationsFrom target (offset + item.size offset) rest

/-- A sweep that has come to the end of some items finds the operations of the others. -/
theorem sweep_items
    (target : label → Nat)
    (front : List (Item label))
    {rest : List (Item label)}
    (hcoded : Coded rest)
    (hvalid : ∀ i, Item.instruction i ∈ rest → i.Valid)
    (htarget : ∀ l ∈ references rest, target l < 2 ^ 31)
    (hlength : endOf 0 (front ++ rest) < 2 ^ 31) :
    sweep (bytesFrom target 0 (front ++ rest)) (endOf 0 front) =
      some (operationsFrom target (endOf 0 front) rest) := by
  induction rest generalizing front with
  | nil =>
      refine sweep_end (Nat.le_of_eq ?_)
      rw [length_bytesFrom_zero, List.append_nil]
  | cons item rest ih =>
      have hsplit : front ++ item :: rest = front ++ [item] ++ rest := by simp
      have hreferences : references (item :: rest) = references [item] ++ references rest :=
        references_append [item] rest
      have hnext := ih (front ++ [item]) (fun j hj => hcoded j (List.mem_cons_of_mem _ hj))
        (fun i hi => hvalid i (List.mem_cons_of_mem _ hi))
        (fun l hl => htarget l (hreferences ▸ List.mem_append_right _ hl)) (by rwa [← hsplit])
      rw [← hsplit, endOf_append, endOf_cons, endOf_nil] at hnext
      rcases hcoded item List.mem_cons_self with ⟨i, rfl⟩ | ⟨l, rfl⟩
      · have hdecode := decodeAt_instruction front rest (hvalid i List.mem_cons_self)
          (fun l hl => htarget l (mem_references.mpr ⟨i, List.mem_cons_self, hl⟩)) hlength
        have hinside : endOf 0 front <
            (bytesFrom target 0 (front ++ .instruction i :: rest)).length := by
          have hpos := i.size_pos
          have hle := le_endOf (endOf 0 front + i.size) rest
          rw [length_bytesFrom_zero, endOf_append]
          exact Nat.lt_of_lt_of_le (by omega) hle
        rw [sweep_of_decodeAt hdecode i.size_pos hinside]
        exact congrArg (Option.map _) hnext
      · exact hnext

/-- The place whose address an operation loads. -/
def Operation.leaPlace? {place : Type} : Operation place → Option place
  | .leaPlace _ p => some p
  | _ => none

/-- The operations of items load the addresses of the labels that the items name for it. -/
theorem leaPlaces_operationsFrom
    (target : label → Nat)
    (offset : Nat)
    (items : List (Item label)) :
    (operationsFrom target offset items).filterMap (fun o => o.2.leaPlace?) =
      (items.filterMap Item.lea?).map fun l => (target l : Int) := by
  induction items generalizing offset with
  | nil =>
      rfl
  | cons item items ih =>
      cases item with
      | instruction i =>
          have hlea : (i.operation fun l => (target l : Int)).leaPlace? =
              (Item.instruction i).lea?.map fun l => (target l : Int) := by
            cases i <;> rfl
          rw [operationsFrom, List.filterMap_cons, List.filterMap_cons, hlea, ih]
          cases (Item.instruction i).lea? <;> rfl
      | _ =>
          exact ih _

end Sweeps

section Pools

/-- The number of bytes that strings take, each with a zero byte behind it. -/
def room (strings : List Text) : Nat := (strings.map fun s => s.length + 1).sum

theorem room_cons
    (s : Text)
    (strings : List Text) :
    room (s :: strings) = s.length + 1 + room strings := by
  rw [room, List.map_cons, List.sum_cons, ← room]

/-- The strings in front and those behind take the room of both. -/
theorem room_append
    (front back : List Text) :
    room (front ++ back) = room front + room back := by
  rw [room, List.map_append, List.sum_append, ← room, ← room]

/-- The strings as data. -/
def entries (strings : List Text) : Code :=
  strings.flatMap fun s => [.bind (.literal s), .data s, .data [0]]

theorem entries_append
    (front back : List Text) :
    entries (front ++ back) = entries front ++ entries back :=
  List.flatMap_append

theorem entries_cons
    (s : Text)
    (strings : List Text) :
    entries (s :: strings) = .bind (.literal s) :: .data s :: .data [0] :: entries strings :=
  rfl

/-- Only the strings of a pool have a label in it. -/
theorem bind_mem_entries
    {strings : List Text}
    {s : Text}
    (h : Item.bind (.literal s) ∈ entries strings) :
    s ∈ strings := by
  obtain ⟨t, ht, hs⟩ := List.mem_flatMap.mp h
  simp only [List.mem_cons, Item.bind.injEq, Label.literal.injEq, reduceCtorEq, List.not_mem_nil,
    or_false] at hs
  rwa [hs]

/-- A pool ends behind the room of its strings. -/
theorem endOf_entries
    (offset : Nat)
    (strings : List Text) :
    endOf offset (entries strings) = offset + room strings := by
  induction strings generalizing offset with
  | nil =>
      rfl
  | cons s strings ih =>
      rw [entries_cons, endOf_cons, endOf_cons, endOf_cons, ih, room_cons]
      simp only [Item.size, List.length_singleton]
      omega

/-- The bytes of a pool are those of its strings, each with a zero byte behind it. -/
theorem bytesFrom_entries
    (target : Label → Nat)
    (offset : Nat)
    (strings : List Text) :
    bytesFrom target offset (entries strings) = strings.flatMap fun s => s ++ [0] := by
  induction strings generalizing offset with
  | nil =>
      rfl
  | cons s strings ih =>
      rw [entries_cons, bytesFrom, bytesFrom, bytesFrom, ih, List.flatMap_cons, List.append_assoc]
      rfl

/-- A pool begins at a multiple of eight if it has strings. -/
theorem pool_of_ne_nil
    {strings : List Text}
    (h : strings ≠ []) :
    pool strings = .align 8 0xcc :: entries strings := by
  rw [pool, if_neg (by simpa using h), entries]

/-- Where a string stands that is not listed again. -/
theorem offsetOf_literal
    (c : Code)
    (front : List Text)
    {back : List Text}
    {s : Text}
    (h : s ∉ back) :
    offsetOf (c ++ pool (front ++ s :: back)) (.literal s) =
      endOf 0 c + padding 8 (endOf 0 c) + room front := by
  have hback : Item.bind (.literal s) ∉ .data s :: .data [0] :: entries back := by
    simp only [List.mem_cons, reduceCtorEq, false_or]
    exact mt bind_mem_entries h
  have hprogram : c ++ pool (front ++ s :: back) =
      (c ++ .align 8 0xcc :: entries front) ++
        .bind (.literal s) :: .data s :: .data [0] :: entries back := by
    rw [pool_of_ne_nil (by simp), entries_append, entries_cons, List.append_assoc]
    rfl
  rw [hprogram, offsetOf_of_last _ hback, endOf_append, endOf_cons, endOf_entries]
  rfl

/-- Strings stand one behind the other, each with a zero byte, from the first multiple of eight
behind the code to the end. -/
structure PooledFrom (start codeEnd : Nat) (strings : List Text) (bytes : Text)
    (address : Text → Nat) : Prop where
  aligned : 8 ∣ start
  behind : codeEnd ≤ start
  first : start < codeEnd + 8
  ends : bytes.length = start + room strings
  bytes : bytes = bytes.take codeEnd ++ .replicate (start - codeEnd) 0xcc ++
    strings.flatMap fun s => s ++ [0]
  address : ∀ front s back, strings = front ++ s :: back → address s = start + room front

theorem length_flatMap_zero
    (strings : List Text) :
    (strings.flatMap fun s => s ++ [0]).length = room strings := by
  simp [List.length_flatMap, room]

variable {start codeEnd : Nat} {strings : List Text} {bytes : Text} {address : Text → Nat}

/-- At the address of a string the string stands with a zero byte behind it. -/
theorem PooledFrom.read
    (h : PooledFrom start codeEnd strings bytes address)
    {s : Text}
    (hs : s ∈ strings) :
    address s + s.length + 1 ≤ bytes.length ∧
      (bytes.drop (address s)).take (s.length + 1) = s ++ [0] := by
  obtain ⟨front, back, rfl⟩ := List.append_of_mem hs
  have haddress := h.address front s back rfl
  have hends := h.ends
  have hbytes := h.bytes
  rw [room_append, room_cons] at hends
  rw [List.flatMap_append, List.flatMap_cons, ← List.append_assoc] at hbytes
  generalize hbefore : bytes.take codeEnd ++ .replicate (start - codeEnd) 0xcc ++
    (front.flatMap fun s => s ++ [0]) = before at hbytes
  have hrest : (s ++ [0] ++ back.flatMap fun s => s ++ [0]).length =
      s.length + 1 + room back := by
    rw [List.length_append, List.length_append, length_flatMap_zero, List.length_singleton]
  have hlength : bytes.length = before.length + (s.length + 1 + room back) := by
    rw [← hrest, ← List.length_append, ← hbytes]
  refine ⟨by omega, ?_⟩
  rw [hbytes, List.drop_left' (by omega)]
  exact List.take_left' (by simp)

/-- The areas of different strings do not meet. -/
theorem PooledFrom.apart
    (h : PooledFrom start codeEnd strings bytes address)
    {s t : Text}
    (hs : s ∈ strings)
    (ht : t ∈ strings)
    (hne : s ≠ t) :
    address s + s.length + 1 ≤ address t ∨ address t + t.length + 1 ≤ address s := by
  obtain ⟨front, back, rfl⟩ := List.append_of_mem hs
  have haddress := h.address front s back rfl
  rcases List.mem_append.mp ht with ht | ht
  · obtain ⟨before, between, rfl⟩ := List.append_of_mem ht
    have haddress' := h.address before t (between ++ s :: back) (by simp)
    rw [room_append, room_cons] at haddress
    omega
  · obtain ⟨between, after, rfl⟩ :=
      List.append_of_mem ((List.mem_cons.mp ht).resolve_left hne.symm)
    have haddress' := h.address (front ++ s :: between) t after (by simp)
    rw [room_append, room_cons] at haddress'
    omega

/-- A program with strings behind its code has them where they belong. -/
theorem pooledFrom_program
    (c : Code)
    (hne : strings ≠ [])
    (hnodup : strings.Nodup) :
    PooledFrom (endOf 0 c + padding 8 (endOf 0 c)) (endOf 0 c) strings
      (bytesFrom (offsetOf (c ++ pool strings)) 0 (c ++ pool strings))
      fun s => offsetOf (c ++ pool strings) (.literal s) := by
  have hbytes : bytesFrom (offsetOf (c ++ pool strings)) 0 (c ++ pool strings) =
      bytesFrom (offsetOf (c ++ pool strings)) 0 c ++
        (.replicate (padding 8 (endOf 0 c)) 0xcc ++ strings.flatMap fun s => s ++ [0]) := by
    rw [bytesFrom_append, pool_of_ne_nil hne, bytesFrom, bytesFrom_entries]
    rfl
  constructor
  · unfold padding
    omega
  · exact Nat.le_add_right _ _
  · have : padding 8 (endOf 0 c) < 8 := Nat.mod_lt _ (by decide)
    omega
  · rw [hbytes, List.length_append, List.length_append, length_bytesFrom_zero,
      List.length_replicate, length_flatMap_zero, Nat.add_assoc]
  · rw [hbytes, List.take_left' (length_bytesFrom_zero _ _), Nat.add_sub_cancel_left,
      List.append_assoc]
  · rintro front s back rfl
    exact offsetOf_literal c front (List.nodup_cons.mp (List.nodup_append.mp hnodup).2.1).1

end Pools

section Programs

/-- Machine code is the bytes of the program with its labels in place. -/
theorem eq_bytesFrom_of_machineCode
    {os : Os}
    {m : Module}
    {bytes : Text}
    (h : machineCode os m = .ok bytes) :
    ∃ program, moduleCode os m = .ok program ∧
      bytes = bytesFrom (offsetOf program) 0 program := by
  obtain ⟨program, hprogram, hfinish⟩ := machineCode_ok h
  rw [finish_eq (bound_of_moduleCode hprogram)] at hfinish
  cases hfinish
  exact ⟨program, hprogram, rfl⟩

/-- A sweep over code before data finds in it the offsets of the labels that the code points to. -/
theorem exists_sweep
    {c data : Code}
    {strings : List Text}
    (hcoded : Coded c)
    (hleas : leas c = strings.map .literal)
    (hbound : ∀ l ∈ references (c ++ data), Item.bind l ∈ c ++ data)
    (hvalid : ∀ i, Item.instruction i ∈ c ++ data → i.Valid)
    (hlength : endOf 0 (c ++ data) < 2 ^ 31) :
    ∃ ops, sweep ((bytesFrom (offsetOf (c ++ data)) 0 (c ++ data)).take (endOf 0 c)) 0 =
        some ops ∧
      ops.filterMap (fun o => o.2.leaPlace?) =
        strings.map fun s => (offsetOf (c ++ data) (.literal s) : Int) := by
  have htarget : ∀ l ∈ references c, offsetOf (c ++ data) l < 2 ^ 31 := by
    intro l hl
    have hbind := hbound l (references_append c data ▸ List.mem_append_left _ hl)
    exact Nat.lt_of_le_of_lt (offsetOf_le hbind) hlength
  have hend : endOf 0 c ≤ endOf 0 (c ++ data) := by
    rw [endOf_append]
    exact le_endOf _ _
  have hsweep := sweep_items (offsetOf (c ++ data)) [] hcoded
    (fun i hi => hvalid i (List.mem_append_left _ hi)) htarget (Nat.lt_of_le_of_lt hend hlength)
  refine ⟨operationsFrom (offsetOf (c ++ data)) 0 c, ?_, ?_⟩
  · rw [bytesFrom_append, List.take_left' (length_bytesFrom_zero _ _)]
    exact hsweep
  · rw [leaPlaces_operationsFrom, ← leas, hleas, List.map_map]
    rfl

/-- The strings that a module loads stand behind its code, and the code points to them. -/
theorem machineCode_literals
    {os : Os}
    {m : Module}
    {bytes : Text}
    (hcode : machineCode os m = .ok bytes)
    (hlength : bytes.length < 2 ^ 31) :
    ∃ (bodies : List Code) (address : Text → Nat),
      (m.functions.toList.filter fun f => !f.external).zipIdx.mapM (labelled os) = .ok bodies ∧
      let codeEnd := endOf 0 (stub os (.function mainName) ++ bodies.flatten)
      (∃ ops, sweep (bytes.take codeEnd) 0 = some ops ∧
        ops.filterMap (fun o => o.2.leaPlace?) =
          (loadedStrings m).map fun s => (address s : Int)) ∧
      (∀ s ∈ loadedStrings m, address s + s.length + 1 ≤ bytes.length ∧
        (bytes.drop (address s)).take (s.length + 1) = s ++ [0]) ∧
      (∀ s ∈ loadedStrings m, ∀ t ∈ loadedStrings m, s ≠ t →
        address s + s.length + 1 ≤ address t ∨ address t + t.length + 1 ≤ address s) ∧
      (loadedStrings m = [] → bytes.length = codeEnd) ∧
      (loadedStrings m ≠ [] →
        ∃ start, PooledFrom start codeEnd (loadedStrings m).eraseDups bytes address) := by
  obtain ⟨program, hprogram, rfl⟩ := eq_bytesFrom_of_machineCode hcode
  have hbound := bound_of_moduleCode hprogram
  have hvalid := moduleCode_valid hprogram
  obtain ⟨main, bodies, -, -, hbodies, rfl⟩ := moduleCode_ok hprogram
  have hleas := leas_functions hbodies
  rw [literals_of_leas hleas] at hbound hvalid hlength ⊢
  rw [length_bytesFrom_zero] at hlength
  have hsweep := exists_sweep ((coded_stub os _).append (coded_functions hbodies))
    (by rw [leas_append, leas_stub, List.nil_append, hleas]) hbound hvalid hlength
  refine ⟨bodies, _, hbodies, hsweep, ?_⟩
  by_cases hne : loadedStrings m = []
  · rw [hne, List.eraseDups_nil, length_bytesFrom_zero]
    simp [pool]
  · have hdistinct : (loadedStrings m).eraseDups ≠ [] := by
      obtain ⟨s, hs⟩ := List.exists_mem_of_ne_nil _ hne
      exact List.ne_nil_of_mem (List.mem_eraseDups.mpr hs)
    have hpooled := pooledFrom_program (stub os (.function mainName) ++ bodies.flatten)
      hdistinct (nodup_eraseDups _)
    exact ⟨fun s hs => hpooled.read (List.mem_eraseDups.mpr hs),
      fun s hs t ht => hpooled.apart (List.mem_eraseDups.mpr hs) (List.mem_eraseDups.mpr ht),
      fun h => absurd h hne, fun _ => ⟨_, hpooled⟩⟩

/-- Loads a string, a beginning of it, and the string again. -/
def greeting : Ir.Function :=
  { name := mainName
    returnType := .i64
    blocks := #[⟨0, #[.loadConst 0 (.string "hi"), .loadConst 1 (.string "h"),
      .loadConst 2 (.string "hi")], .ret (some 0), true⟩] }

def greetingModule : Module := { name := "greeting", functions := #[greeting] }

theorem greeting_size : (Numbering.function greeting).intervals.size = 3 := by
  simp [Numbering.function, Numbering.block, Numbering.instruction, Numbering.params,
    Allocation.touch, greeting, Ir.Instruction.uses, Ir.Instruction.loadConst,
    Ir.Terminator.uses, Std.HashMap.size_insert]

/-- The first string is needed to the end, and the other two are not used. -/
theorem greeting_liveIntervals :
    liveIntervals greeting = [⟨0, 0, 3, false⟩, ⟨1, 1, 1, false⟩, ⟨2, 2, 2, false⟩] := by
  have hspans : (Numbering.function greeting).backwardSpans greeting = [] := by
    simp [Numbering.backwardSpans, greeting, Ir.Terminator.successors]
  have hmem : ∀ (j : Interval),
      (Numbering.function greeting).intervals[j.value]? = some j →
      j.grow [] ∈ liveIntervals greeting := fun _ => Allocation.grow_mem_liveIntervals hspans
  refine Allocation.liveIntervals_eq _ (Nat.le_of_eq greeting_size) (by decide) ?_
  simp only [List.forall_mem_cons, List.not_mem_nil, false_imp_iff, implies_true, and_true]
  refine ⟨hmem ⟨0, 0, 3, false⟩ ?_, hmem ⟨1, 1, 1, false⟩ ?_, hmem ⟨2, 2, 2, false⟩ ?_⟩
  all_goals
    simp [Numbering.function, Numbering.block, Numbering.instruction, Numbering.params,
      Allocation.touch, Interval.point, Interval.extend, greeting, Ir.Instruction.uses,
      Ir.Instruction.loadConst, Ir.Terminator.uses, Std.HashMap.getElem_insert]

/-- The second string and the third one share a machine register. -/
theorem greeting_allocate :
    allocate valueRegs.length greeting =
      { intervals := [⟨0, 0, 3, false⟩, ⟨1, 1, 1, false⟩, ⟨2, 2, 2, false⟩]
        places := (∅ : Std.HashMap Ir.Register Allocation.Place) |>.insert 0 (.machine 0)
          |>.insert 1 (.machine 1) |>.insert 2 (.machine 1)
        spillCount := 0 } := by
  rw [allocate, greeting_liveIntervals]
  rfl

/-- The three loads have machine code. -/
theorem greeting_machineCode :
    ∃ bytes, machineCode .linux greetingModule = .ok bytes ∧ bytes.length < 2 ^ 31 := by
  have hmain : mainName = [0x6d, 0x61, 0x69, 0x6e] := by decide
  have hwhole : ("hi" : Text) = [0x68, 0x69] := by decide
  have hfront : ("h" : Text) = [0x68] := by decide
  have hentry : greeting.entryBlock?.isNone = false := rfl
  have hframe : Frame.layout greeting 0 = .ok ⟨∅, 0, 0⟩ := by rfl
  have hcode := Eq.refl (functionCode .linux 0 greeting)
  conv at hcode =>
    rhs
    unfold functionCode
    rw [greeting_allocate, hentry]
    simp only [hframe]
    simp only [greeting, hmain, hwhole, hfront, List.mapM_cons, List.mapM_nil, Context.block,
      Option.getD_some, Context.terminator_ret]
    cbv
  have hprogram := moduleCode_single .linux "greeting" (f := greeting) rfl rfl
  simp only [literals_eq_eraseDups] at hprogram
  rw [hcode] at hprogram
  exact machineCode_of_bound hprogram (by decide +kernel) (by decide +kernel)

/-- The string and its beginning have areas of their own. -/
theorem greeting_literals :
    ∃ (bytes : Text) (address : Text → Nat),
      machineCode .linux greetingModule = .ok bytes ∧
      (bytes.drop (address "hi")).take 3 = ("hi" : Text) ++ [0] ∧
      (bytes.drop (address "h")).take 2 = ("h" : Text) ++ [0] ∧
      (address "hi" + 3 ≤ address "h" ∨ address "h" + 2 ≤ address "hi") := by
  obtain ⟨bytes, hbytes, hlength⟩ := greeting_machineCode
  obtain ⟨bodies, address, -, -, hread, hapart, -, -⟩ := machineCode_literals hbytes hlength
  have hwhole : ("hi" : Text) ∈ loadedStrings greetingModule := by decide +kernel
  have hfront : ("h" : Text) ∈ loadedStrings greetingModule := by decide +kernel
  exact ⟨bytes, address, hbytes, (hread _ hwhole).2, (hread _ hfront).2,
    hapart _ hwhole _ hfront (by decide)⟩

end Programs

end X64
end StackNative
