import StackNative.Proofs.Allocation.Guarded
import StackNative.Proofs.X64.Renaming
import StackNative.X64.Codegen

/-!
# A generator that checks what it looks up

**Input.**  A module and an operating system.

**Algorithm.**  The pieces of the program are added one after the other.  Labels are numbers
that a counter gives; they are found again in tables by the name of a function, by the number
of a block and by a string, where a later entry takes the place of an earlier one.  An index
into a list is looked up, and the generator stops where nothing is found.  At the end the
program is laid out, which fails where a label is bound nowhere.

**Results.**
* `compile`: the machine code of a module, or why the generator stopped.
-/

namespace StackNative
namespace X64

open Ir (Register BlockId Module)
open Allocation (Allocator Tables)

/-- Why a generator stops. -/
inductive Stop where
  | codegen (e : CodegenError)
  | unbound (e : Unbound Int)
  /-- An index is out of range. -/
  | outOfRange
  deriving DecidableEq, Repr

/-- A program under construction, and the labels of the strings it points to, which are kept in
the order of their first use. -/
structure Emitter where
  assembler : Assembler := {}
  labels : Std.HashMap Text Int := ∅
  ordered : Array Text := #[]

/-- Adds a piece. -/
def Emitter.add (e : Emitter) (item : Item Int) : Emitter :=
  { e with assembler := e.assembler.add item }

/-- A part of the work of a generator. -/
abbrev Generation := StateT Emitter (Except Stop)

namespace Generation

section Pieces

/-- Adds a piece. -/
def add (item : Item Int) : Generation Unit := modify fun e => e.add item

/-- Adds an instruction. -/
def emit (i : Instruction Int) : Generation Unit := add (.instruction i)

/-- Adds instructions that name no label. -/
def emitAll (is : List (Instruction Label)) : Generation Unit :=
  is.forM fun i => emit (i.rename fun _ => 0)

/-- The element of a list with an index. -/
def look {α : Type} (xs : List α) (index : Nat) : Generation α :=
  match xs[index]? with
  | some x => pure x
  | none => throw .outOfRange

end Pieces

section Labels

/-- A label that no other call has given. -/
def newLabel : Generation Int := do
  let e ← get
  let (l, assembler) := e.assembler.newLabel
  set { e with assembler }
  return l

/-- Gives every key a label.  A key that comes again is given another one. -/
def newLabels {κ : Type} [BEq κ] [Hashable κ] (keys : List κ) :
    Generation (Std.HashMap κ Int) :=
  keys.foldlM (fun labels key => return labels.insert key (← newLabel)) ∅

/-- The label of a string, a new one at its first use. -/
def literalLabel (s : Text) : Generation Int := do
  match (← get).labels[s]? with
  | some l => return l
  | none =>
    let l ← newLabel
    modify fun e => { e with labels := e.labels.insert s l, ordered := e.ordered.push s }
    return l

/-- A string as data, with a zero byte behind it. -/
def string (labels : Std.HashMap Text Int) (s : Text) : Generation Unit := do
  add (.bind (labels.getD s 0))
  add (.data s)
  add (.data [0])

/-- The strings that the program points to. -/
def pool : Generation Unit := do
  let e ← get
  if e.ordered.isEmpty then pure ()
  else
    add (.align 8 0xcc)
    e.ordered.toList.forM (string e.labels)

end Labels

end Generation

/-- The function that is worked on, and what is known about it. -/
structure Generator where
  function : Ir.Function
  /-- The block that is worked on. -/
  block : BlockId
  tables : Tables
  frame : Frame
  labels : Std.HashMap BlockId Int

namespace Generator

open Generation

variable (g : Generator)

section Values

/-- Why the generator stops at a fault of the block that is worked on. -/
def stop (fault : CodegenFault) : Stop := .codegen ⟨g.function.name, g.block, fault⟩

/-- Stops with a fault. -/
def fail {α : Type} (fault : CodegenFault) : Generation α :=
  throw (g.stop fault)

/-- Brings the value of a register into a machine register. -/
def load (target : Reg) (r : Register) : Generation Unit :=
  match g.tables.registers[r]?, g.tables.slots[r]? with
  | some index, _ => do emitAll (Context.copy target (← look valueRegs index))
  | none, some number => emitAll [.loadMem target .rbp (g.frame.slotOffset number)]
  | none, none => g.fail (.undefinedRegister r)

/-- Stores a machine register as the value of a register. -/
def store (r : Register) (source : Reg) : Generation Unit :=
  match g.tables.registers[r]?, g.tables.slots[r]? with
  | some index, _ => do emitAll (Context.copy (← look valueRegs index) source)
  | none, some number => emitAll [.storeMem .rbp (g.frame.slotOffset number) source]
  | none, none => pure ()

/-- Brings the two operands of an instruction into `rax` and `rcx`. -/
def loadPair (i : Ir.Instruction) : Generation Unit :=
  if i.args.length ≠ 2 then g.fail (.pairExpected i.op i.args.length)
  else do
    g.load .rax (← look i.args 0)
    g.load .rcx (← look i.args 1)

/-- Brings the first operand of an instruction into a machine register. -/
def loadFirst (target : Reg) (i : Ir.Instruction) : Generation Unit :=
  if i.args.length < 1 then g.fail (.operandExpected i.op)
  else do g.load target (← look i.args 0)

/-- The offset of a local variable. -/
def localOffset (slot : Int) : Generation Int32 :=
  if slot < 0 ∨ g.function.locals.size ≤ slot then g.fail (.localSlot slot)
  else do return (-(← look g.function.locals.toList slot.toNat).offset).toInt32

end Values

section Instructions

/-- Brings a constant into `rax`. -/
def loadConstant : Ir.Constant → Generation Unit
  | .string s => do emit (.leaLabel .rax (← literalLabel s))
  | c => emitAll [Context.loadConstant c]

/-- Brings the result of an operation on one or two operands into `rax`. -/
def operation (i : Ir.Instruction) : Generation Unit :=
  match Context.pairWork? i.op, Context.singleWork? i.op with
  | some work, _ => do
    g.loadPair i
    emitAll work
  | none, some work => do
    g.loadFirst .rax i
    emitAll work
  | none, none => g.fail (.unsupportedInstruction i.text)

/-- Brings the result of an instruction into `rax`. -/
def result (i : Ir.Instruction) : Generation Unit :=
  match i.op with
  | .loadConst => loadConstant i.const
  | .loadLocal => do emitAll [.loadMem .rax .rbp (← g.localOffset i.slot)]
  | .alloca => emitAll [.lea .rax .rbp (g.frame.areaOffset i.dest)]
  | .load => do
    g.loadFirst .rcx i
    emitAll [.loadMem .rax .rcx 0]
  | _ => g.operation i

/-- Stores the second operand of an instruction where the first one points. -/
def storeThrough (i : Ir.Instruction) : Generation Unit :=
  if i.args.length ≠ 2 then g.fail .storeOperands
  else do
    g.load .rcx (← look i.args 0)
    g.load .rax (← look i.args 1)
    emitAll [.storeMem .rcx 0 .rax]

/-- The code of an instruction. -/
def instruction (i : Ir.Instruction) : Generation Unit :=
  match i.op with
  | .nop | .debugLine => pure ()
  | .storeLocal => do
    let offset ← g.localOffset i.slot
    g.loadFirst .rax i
    emitAll [.storeMem .rbp offset .rax]
  | .store => g.storeThrough i
  | _ => do
    g.result i
    i.dest?.forM fun r => g.store r .rax

end Instructions

section Control

/-- The code of a terminator. -/
def terminator : Ir.Terminator → Generation Unit
  | .ret (some r) => do
    g.load .rax r
    emitAll Context.epilogue
  | .ret none => emitAll (.movImm32 .rax 0 :: Context.epilogue)
  | .jump target =>
    match g.labels[target]? with
    | some l => emit (.jump l)
    | none => g.fail (.jumpTarget target)
  | .branch condition onTrue onFalse =>
    match g.labels[onTrue]?, g.labels[onFalse]? with
    | some l, some l' => do
      g.load .rax condition
      emitAll [.pair .test .rax .rax]
      emit (.jumpIf Cond.notEqual l)
      emit (.jump l')
    | none, _ => g.fail (.branchTarget onTrue)
    | some _, none => g.fail (.branchTarget onFalse)
  | .unreachable => emitAll [.ud2]
  | t => g.fail (.unsupportedTerminator t.text)

/-- The generator at a block. -/
def enter (id : BlockId) : Generator := { g with block := id }

/-- The code of a block. -/
def blockCode (b : Ir.Block) : Generation Unit := do
  add (.bind (g.labels.getD b.id 0))
  b.instructions.toList.forM (g.enter b.id).instruction
  (g.enter b.id).terminator b.terminator

/-- Stores an argument. -/
def storeArgument (p : Ir.Param) (source : Reg) : Generation Unit :=
  match g.tables.slots[p.register]? with
  | some number => emitAll [.storeMem .rbp (g.frame.slotOffset number) source]
  | none => g.store p.register source

/-- Enters the function: makes the frame and stores the arguments. -/
def prologue (os : Os) : Generation Unit := do
  emitAll [.push .rbp, .pair .mov .rbp .rsp]
  emitAll (if 0 < g.frame.size then [.subImm .rsp g.frame.size] else [])
  g.function.params.zipIdx.forM fun (p, index) => do
    g.storeArgument p (← look (argumentRegs os) index)

/-- Jumps to the entry block, unless it comes first. -/
def skip : Generation Unit := do
  let first ← look g.function.blocks.toList 0
  if first.id = g.function.entry then pure ()
  else emit (.jump (g.labels.getD g.function.entry 0))

end Control

end Generator

namespace Generation

/-- The tables of a function. -/
def allocation (f : Ir.Function) : Generation Tables :=
  match Allocator.guarded { count := valueRegs.length } f with
  | some a => pure a.tables
  | none => throw .outOfRange

/-- The code of a function. -/
def function (os : Os) (f : Ir.Function) : Generation Unit :=
  let fail (block : BlockId) (fault : CodegenFault) : Generation Unit :=
    throw (.codegen ⟨f.name, block, fault⟩)
  let room := (argumentRegs os).length
  if room < f.params.length then fail f.entry (.tooManyParams f.params.length room)
  else if f.entryBlock?.isNone then fail f.entry .entryMissing
  else do
    let tables ← allocation f
    match Frame.layout f tables.spillCount with
    | .error (.areaSize block size) => fail block (.areaSize size)
    | .error (.tooLarge size) => fail f.entry (.frameTooLarge size)
    | .ok frame =>
      let labels ← newLabels (f.blocks.toList.map Ir.Block.id)
      let g : Generator := ⟨f, f.entry, tables, frame, labels⟩
      g.prologue os
      g.skip
      f.blocks.toList.forM g.blockCode

/-- Calls the main function and ends the process with its result. -/
def stub (os : Os) (main : Int) : Generation Unit := do
  emit (.call main)
  if os = .windows then emitAll [.ret]
  else emitAll [.pair .mov .rdi .rax, .movImm32 .rax (exitCall os), .syscall, .ud2]

/-- The program of a list of functions. -/
def program (os : Os) (fs : List Ir.Function) : Generation Unit := do
  let labels ← newLabels (fs.map Ir.Function.name)
  stub os (labels.getD mainName 0)
  fs.forM fun f => do
    add (.bind (labels.getD f.name 0))
    function os f
  pool

/-- The program of a module. -/
def moduleProgram (os : Os) (m : Module) : Generation Unit :=
  let fail (fault : CodegenFault) : Generation Unit := throw (.codegen ⟨[], 0, fault⟩)
  match m.function? mainName with
  | none => fail (.noMain m.name)
  | some main =>
    if main.external then fail (.noMain m.name)
    else match m.globals[0]? with
      | some g => fail (.global g.name)
      | none => program os (m.functions.toList.filter fun f => !f.external)

end Generation

/-- The machine code of a module. -/
def compile (os : Os) (m : Module) : Except Stop Text :=
  match (Generation.moduleProgram os m).run {} with
  | .error stop => .error stop
  | .ok (_, e) =>
    match e.assembler.finish with
    | .error unbound => .error (.unbound unbound)
    | .ok bytes => .ok bytes

end X64
end StackNative
