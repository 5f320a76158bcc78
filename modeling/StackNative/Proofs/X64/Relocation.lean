import StackNative.Proofs.X64.Literals

/-!
# The same code behind different stubs

**Input.**  A module whose functions take no parameters and that loads no strings.

**Algorithm.**  The functions of such a module have the same pieces on every operating system.
Behind another stub all their labels and all their instructions move by the same number of
bytes, and a distance is a difference of the two.

**Results.**
* `bytesFrom_move`: instructions that move together with their labels keep their bytes.
* `moduleCode_eq`: only the stub depends on the operating system.
* `machineCode_portable`: code for two operating systems differs in the stub only, or there is
  none for either.
-/

namespace StackNative
namespace X64

open Ir (Module)

section Moves

variable {label : Type} {items front back : List (Item label)}

theorem Coded.cons
    {item : Item label}
    (h : Coded (item :: items)) :
    ((∃ i, item = .instruction i) ∨ ∃ l, item = .bind l) ∧ Coded items :=
  List.forall_mem_cons.mp h

theorem Coded.left
    (h : Coded (front ++ back)) :
    Coded front :=
  fun item hitem => h item (List.mem_append_left _ hitem)

/-- Instructions take as many bytes at every offset. -/
theorem endOf_move
    (h : Coded items)
    (moved offset : Nat) :
    endOf (moved + offset) items = moved + endOf offset items := by
  induction items generalizing offset with
  | nil =>
      rfl
  | cons item items ih =>
      obtain ⟨hitem, hrest⟩ := h.cons
      have hsize : item.size (moved + offset) = item.size offset := by
        rcases hitem with ⟨i, rfl⟩ | ⟨l, rfl⟩ <;> rfl
      rw [endOf_cons, endOf_cons, hsize, Nat.add_assoc, ih hrest]

theorem Instruction.distanceAt_move
    {target target' : label → Nat}
    {i : Instruction label}
    {moved : Nat}
    (h : ∀ l, i.label? = some l → target' l = moved + target l)
    (offset : Nat) :
    i.distanceAt target' (moved + offset) = i.distanceAt target offset := by
  unfold Instruction.distanceAt
  split
  · next l hl =>
      rw [h l hl]
      congr 1
      omega
  · rfl

/-- Instructions that move together with the labels they name keep their bytes. -/
theorem bytesFrom_move
    {target target' : label → Nat}
    {moved : Nat}
    (hcoded : Coded items)
    (htarget : ∀ l ∈ references items, target' l = moved + target l)
    (offset : Nat) :
    bytesFrom target' (moved + offset) items = bytesFrom target offset items := by
  induction items generalizing offset with
  | nil =>
      rfl
  | cons item items ih =>
      obtain ⟨hitem, hrest⟩ := hcoded.cons
      have hreferences : ∀ l ∈ references items, target' l = moved + target l :=
        fun l hl => htarget l (references_append [item] items ▸ List.mem_append_right _ hl)
      rcases hitem with ⟨i, rfl⟩ | ⟨l, rfl⟩
      · have hdistance := Instruction.distanceAt_move
          (fun l hl => htarget l (mem_references.mpr ⟨i, List.mem_cons_self, hl⟩)) offset
        rw [bytesFrom, bytesFrom, Item.bytesAt, Item.bytesAt, hdistance, Nat.add_assoc]
        exact congrArg (i.bytes _ ++ ·) (ih hrest hreferences _)
      · exact ih hrest hreferences offset

variable [BEq label] [LawfulBEq label] [Hashable label]

/-- A label that is bound in the code behind other code moves by the size of that. -/
theorem offsetOf_append
    (hcoded : Coded back)
    {l : label}
    (hl : Item.bind l ∈ back) :
    offsetOf (front ++ back) l = endOf 0 front + offsetOf back l := by
  obtain ⟨before, after, rfl, hafter⟩ := exists_last_of_mem hl
  rw [← List.append_assoc, offsetOf_of_last _ hafter, offsetOf_of_last _ hafter, endOf_append]
  exact endOf_move hcoded.left (endOf 0 front) 0

/-- Code that names its own labels has the same bytes behind any other code. -/
theorem bytesFrom_append_of_coded
    (hcoded : Coded back)
    (hbound : ∀ l ∈ references back, Item.bind l ∈ back) :
    bytesFrom (offsetOf (front ++ back)) 0 (front ++ back) =
      bytesFrom (offsetOf (front ++ back)) 0 front ++ bytesFrom (offsetOf back) 0 back := by
  rw [bytesFrom_append]
  congr 1
  exact bytesFrom_move hcoded (fun l hl => offsetOf_append hcoded (hbound l hl)) 0

end Moves

section Systems

/-- A function without parameters has the same code on every operating system. -/
theorem functionCode_of_noParams
    (os os' : Os)
    (index : Nat)
    {f : Ir.Function}
    (h : f.params = []) :
    functionCode os index f = functionCode os' index f := by
  simp only [functionCode, Context.prologue, h, List.length_nil, List.zip_nil_left,
    List.flatMap_nil, Nat.not_lt_zero, if_false]

theorem labelled_of_noParams
    (os os' : Os)
    {f : Ir.Function × Nat}
    (h : f.1.params = []) :
    labelled os f = labelled os' f := by
  rw [labelled, labelled, functionCode_of_noParams os os' f.2 h]

/-- Only the stub in front of functions without parameters depends on the operating system. -/
theorem moduleCode_eq
    {m : Module}
    (hparams : ∀ f ∈ m.functions, f.external = false → f.params = []) :
    ∃ result : Except CodegenError Code, ∀ os,
      moduleCode os m = result.map fun body => stub os (.function mainName) ++ body := by
  have hbodies : ∀ os, (m.functions.toList.filter fun f => !f.external).zipIdx.mapM (labelled os) =
      (m.functions.toList.filter fun f => !f.external).zipIdx.mapM (labelled .linux) := by
    intro os
    refine mapM_congr fun f hf => labelled_of_noParams os .linux ?_
    obtain ⟨hmem, hexternal⟩ := List.mem_filter.mp (List.fst_mem_of_mem_zipIdx hf)
    exact hparams f.1 (Array.mem_toList_iff.mp hmem) (by simpa using hexternal)
  cases hmain : m.function? mainName with
  | none =>
      exact ⟨.error ⟨[], 0, .noMain m.name⟩, fun os => by simp only [moduleCode, hmain]; rfl⟩
  | some main =>
      by_cases hexternal : main.external = true
      · refine ⟨.error ⟨[], 0, .noMain m.name⟩, fun os => ?_⟩
        simp only [moduleCode, hmain, hexternal, if_true]
        rfl
      · cases hglobal : m.globals[0]? with
        | some g =>
            refine ⟨.error ⟨[], 0, .global g.name⟩, fun os => ?_⟩
            simp only [moduleCode, hmain, hexternal, hglobal]
            rfl
        | none =>
            refine ⟨((m.functions.toList.filter fun f => !f.external).zipIdx.mapM
              (labelled .linux)).map fun bodies =>
                bodies.flatten ++ pool (literals bodies.flatten), fun os => ?_⟩
            have hcode : moduleCode os m = (do
                let bodies ← (m.functions.toList.filter fun f => !f.external).zipIdx.mapM
                  (labelled os)
                return stub os (.function mainName) ++ bodies.flatten ++
                  pool (literals bodies.flatten)) := by
              simp only [moduleCode, hmain, hexternal, hglobal]
              rfl
            rw [hcode, hbodies os]
            cases (m.functions.toList.filter fun f => !f.external).zipIdx.mapM
              (labelled .linux) with
            | error e =>
                rfl
            | ok bodies =>
                exact congrArg Except.ok (List.append_assoc _ _ _)

end Systems

section Bodies

variable {os : Os} {m : Module} {body : Code}

/-- What a module without strings has behind the stub are instructions, and labels are bound
there. -/
theorem coded_of_moduleCode
    (hstrings : loadedStrings m = [])
    (h : moduleCode os m = .ok (stub os (.function mainName) ++ body)) :
    Coded body ∧
      ∀ l ∈ references (stub os (.function mainName) ++ body), Item.bind l ∈ body := by
  constructor
  · obtain ⟨main, bodies, -, -, hbodies, hprogram⟩ := moduleCode_ok h
    have hliterals := literals_of_leas (leas_functions hbodies)
    rw [hstrings, List.eraseDups_nil] at hliterals
    rw [hliterals, List.append_assoc, List.append_cancel_left_eq] at hprogram
    have hbody : body = bodies.flatten := by
      rw [hprogram]
      exact List.append_nil _
    rw [hbody]
    exact coded_functions hbodies
  · intro l hl
    rcases List.mem_append.mp (bound_of_moduleCode h l hl) with hstub | hbody
    · unfold stub at hstub
      split at hstub
      · simp [code] at hstub
      · simp [code] at hstub
    · exact hbody

theorem machineCode_of_body
    (hstrings : loadedStrings m = [])
    (h : moduleCode os m = .ok (stub os (.function mainName) ++ body)) :
    machineCode os m =
      .ok (bytesFrom (offsetOf (stub os (.function mainName) ++ body)) 0
        (stub os (.function mainName)) ++ bytesFrom (offsetOf body) 0 body) := by
  obtain ⟨hcoded, hlabels⟩ := coded_of_moduleCode hstrings h
  have hbound : ∀ l ∈ references body, Item.bind l ∈ body :=
    fun l hl => hlabels l (references_append _ body ▸ List.mem_append_right _ hl)
  rw [← bytesFrom_append_of_coded hcoded hbound, machineCode, h]
  simp only [finish_eq (bound_of_moduleCode h)]

/-- The main function moves by the size of the stub. -/
theorem offsetOf_main
    (hstrings : loadedStrings m = [])
    (h : moduleCode os m = .ok (stub os (.function mainName) ++ body)) :
    offsetOf (stub os (.function mainName) ++ body) (.function mainName) =
      endOf 0 (stub os (.function mainName)) + offsetOf body (.function mainName) := by
  obtain ⟨hcoded, hlabels⟩ := coded_of_moduleCode hstrings h
  have hcall : Item.instruction (.call (.function mainName)) ∈
      stub os (.function mainName) := by
    unfold stub
    split <;> exact List.mem_cons_self
  exact offsetOf_append hcoded (hlabels _ (mem_references.mpr
    ⟨_, List.mem_append_left _ hcall, rfl⟩))

end Bodies

section Stubs

/-- The bytes of the stub that ends a process by a system call, with the number of the call. -/
def exitStub (d n : Int32) : Text :=
  0xe8 :: bytes32 d ++ ([0x48, 0x89, 0xc7] ++ ([0x48, 0xc7, 0xc0] ++ (bytes32 n ++
    [0x0f, 0x05, 0x0f, 0x0b])))

theorem bytesFrom_stub
    {os : Os}
    (h : os ≠ .windows)
    (target : Label → Nat)
    (main : Label) :
    bytesFrom target 0 (stub os main) =
      exitStub (.ofInt ((target main : Int) - 5)) (exitCall os) := by
  rw [stub, if_neg h]
  rfl

theorem length_exitStub
    (d n : Int32) :
    (exitStub d n).length = 19 := by
  simp [exitStub]

/-- In the stub the number of the system call is the immediate of a move of seven bytes. -/
theorem decodeAt_exitStub
    (d n : Int32)
    (rest : Text) :
    decodeAt (exitStub d n ++ rest) 8 = some (.moveImm .rax n.toInt64, 7) := by
  have hmove : (exitStub d n ++ rest).drop 8 =
      (Instruction.movImm32 .rax n : Instruction Label).bytes 0 ++
        ([0x0f, 0x05, 0x0f, 0x0b] ++ rest) := by
    have hfront : exitStub d n ++ rest = (0xe8 :: bytes32 d ++ [0x48, 0x89, 0xc7]) ++
        ((Instruction.movImm32 .rax n : Instruction Label).bytes 0 ++
          ([0x0f, 0x05, 0x0f, 0x0b] ++ rest)) := by
      simp [exitStub, Instruction.bytes, Instruction.opcodeBytes, Instruction.label?]
      decide
    rw [hfront, List.drop_left' (by simp)]
  have hvalid : (Instruction.movImm32 .rax n : Instruction Label).Valid :=
    valid_of_registers (by simp [Instruction.registers]; decide) rfl
  rw [decodeAt, hmove, Instruction.decode_bytes _ hvalid, Option.map_some]
  simp only [Instruction.operation, Operation.map, List.length_append, length_exitStub,
    List.length_cons, List.length_nil]
  congr 2
  omega

theorem getElem?_of_replaced
    {front middle middle' back : Text}
    {k : Nat}
    (hlength : middle.length = middle'.length)
    (hk : k < front.length ∨ front.length + middle.length ≤ k) :
    (front ++ (middle ++ back))[k]? = (front ++ (middle' ++ back))[k]? := by
  rcases hk with hk | hk
  · rw [List.getElem?_append_left hk, List.getElem?_append_left hk]
  · rw [List.getElem?_append_right (by omega), List.getElem?_append_right (by omega),
      List.getElem?_append_right (by omega), List.getElem?_append_right (by omega), hlength]

/-- Two stubs with other numbers differ in the four bytes of the number only. -/
theorem getElem?_exitStub
    (d n n' : Int32)
    (rest : Text)
    {k : Nat}
    (hk : k < 11 ∨ 15 ≤ k) :
    (exitStub d n ++ rest)[k]? = (exitStub d n' ++ rest)[k]? := by
  have hsplit : ∀ n, exitStub d n ++ rest =
      (0xe8 :: bytes32 d ++ [0x48, 0x89, 0xc7, 0x48, 0xc7, 0xc0]) ++
        (bytes32 n ++ ([0x0f, 0x05, 0x0f, 0x0b] ++ rest)) := by
    intro n
    simp [exitStub]
  rw [hsplit, hsplit]
  apply getElem?_of_replaced
  · rw [length_bytes32, length_bytes32]
  · rw [length_bytes32]
    simpa using hk

/-- A module whose functions take no parameters and that loads no strings has no machine code for
any operating system, for the same reason, or has the same code behind the stubs of all.  The
stubs of two of them differ in the immediate of the move before the system call only. -/
theorem machineCode_portable
    {m : Module}
    (hparams : ∀ f ∈ m.functions, f.external = false → f.params = [])
    (hstrings : loadedStrings m = []) :
    (∃ e, ∀ os, machineCode os m = .error e) ∨
      ∃ linux macos windows,
        machineCode .linux m = .ok linux ∧
        machineCode .macos m = .ok macos ∧
        machineCode .windows m = .ok windows ∧
        19 ≤ linux.length ∧
        19 ≤ macos.length ∧
        6 ≤ windows.length ∧
        linux.drop 19 = windows.drop 6 ∧
        macos.drop 19 = windows.drop 6 ∧
        decodeAt linux 8 = some (.moveImm .rax 60, 7) ∧
        decodeAt macos 8 = some (.moveImm .rax 0x2000001, 7) ∧
        ∀ k, k < 11 ∨ 15 ≤ k → linux[k]? = macos[k]? := by
  obtain ⟨result, hcode⟩ := moduleCode_eq hparams
  cases result with
  | error e =>
      refine .inl ⟨.codegen e, fun os => ?_⟩
      rw [machineCode, hcode os]
      rfl
  | ok body =>
      -- The body and its labels lie 19 or 6 bytes behind the beginning, as far as the stub goes.
      right
      set rest := bytesFrom (offsetOf body) 0 body
      set d : Int32 := .ofInt ((19 + offsetOf body (.function mainName) : Nat) - 5)
      have hexit : ∀ os, os ≠ .windows →
          machineCode os m = .ok (exitStub d (exitCall os) ++ rest) := by
        intro os hos
        have hend : endOf 0 (stub os (.function mainName)) = 19 := by
          rw [stub, if_neg hos]
          rfl
        rw [machineCode_of_body hstrings (hcode os), bytesFrom_stub hos,
          offsetOf_main hstrings (hcode os), hend]
      obtain ⟨front, hfront, hwindows⟩ : ∃ front : Text, front.length = 6 ∧
          machineCode .windows m = .ok (front ++ rest) :=
        ⟨_, length_bytesFrom_zero _ _, machineCode_of_body hstrings (hcode .windows)⟩
      refine ⟨_, _, _, hexit .linux (by decide), hexit .macos (by decide), hwindows, ?_, ?_, ?_,
        ?_, ?_, decodeAt_exitStub _ _ _, decodeAt_exitStub _ _ _,
        fun k hk => getElem?_exitStub _ _ _ _ hk⟩
      · rw [List.length_append, length_exitStub]
        exact Nat.le_add_right _ _
      · rw [List.length_append, length_exitStub]
        exact Nat.le_add_right _ _
      · rw [List.length_append, hfront]
        exact Nat.le_add_right _ _
      · rw [List.drop_left' (length_exitStub _ _), List.drop_left' hfront]
      · rw [List.drop_left' (length_exitStub _ _), List.drop_left' hfront]

/-- The code of a loop is the same for all systems. -/
theorem factorial_portable :
    ∃ linux macos windows,
      machineCode .linux factorialModule = .ok linux ∧
      machineCode .macos factorialModule = .ok macos ∧
      machineCode .windows factorialModule = .ok windows ∧
      linux.drop 19 = windows.drop 6 ∧
      macos.drop 19 = windows.drop 6 := by
  have hparams : ∀ f ∈ factorialModule.functions, f.external = false → f.params = [] := by
    intro f hf _
    rw [factorialModule, List.mem_toArray, List.mem_singleton] at hf
    rw [hf]
    rfl
  have hstrings : loadedStrings factorialModule = [] := by decide +kernel
  obtain ⟨bytes, hbytes, -⟩ := factorial_machineCode
  rcases machineCode_portable hparams hstrings with
    ⟨e, he⟩ | ⟨linux, macos, windows, hlinux, hmacos, hwindows, -, -, -, hsame, hsame', -⟩
  · rw [he .linux] at hbytes
    cases hbytes
  · exact ⟨linux, macos, windows, hlinux, hmacos, hwindows, hsame, hsame'⟩

end Stubs

end X64
end StackNative
