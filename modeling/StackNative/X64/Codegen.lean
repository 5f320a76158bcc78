import Std.Data.HashSet
import StackNative.Target
import StackNative.X64.Assembler
import StackNative.X64.Frame

/-!
# Machine code of a module

**Input.** A module and an operating system.
**Algorithm.** A short stub calls the main function and ends the process with its
result; the functions follow in order, then the string literals in the order of
their first use.  Every value is a 64-bit integer.  An instruction brings its
operands into `rax` and `rcx`, works there, and stores `rax`.
**Results.** `Module.machineCode`, or the first thing that has no machine code.
-/

namespace StackNative
namespace X64

open Ir (Register BlockId Module)
open Allocation (Assignment Place allocate)

/-- A place in the program. -/
inductive Label where
  | function (name : Text)
  | block (function : Nat) (id : BlockId)
  | literal (s : Text)
  deriving DecidableEq, Repr, Hashable

section Errors

/-- What has no machine code. -/
inductive CodegenFault where
  | noMain (moduleName : Text)
  | global (name : Text)
  | tooManyParams (given room : Nat)
  | entryMissing
  | areaSize (size : Int64)
  | frameTooLarge (size : Int64)
  | undefinedRegister (r : Register)
  | pairExpected (op : Ir.Op) (given : Nat)
  | operandExpected (op : Ir.Op)
  | storeOperands
  | localSlot (slot : Int)
  | unsupportedInstruction (i : Text)
  | jumpTarget (target : BlockId)
  | branchTarget (target : BlockId)
  | unsupportedTerminator (t : Text)
  deriving DecidableEq, Repr

/-- The text of a fault. -/
def CodegenFault.message : CodegenFault → Text
  | .noMain name => "module " ++ Text.quoted name ++ " has no main function"
  | .global name => "global @" ++ name ++ ": globals are not supported"
  | .tooManyParams given room =>
    Text.ofNat given ++ " parameters exceed " ++ Text.ofNat room ++ " argument registers"
  | .entryMissing => "entry block not found"
  | .areaSize size => "alloca of " ++ Text.ofInt size.toInt ++ " bytes"
  | .frameTooLarge size => "stack frame of " ++ Text.ofInt size.toInt ++ " bytes is too large"
  | .undefinedRegister r => "register " ++ Ir.registerText r ++ " used but never defined"
  | .pairExpected op given => op.name ++ " expects 2 operands, got " ++ Text.ofNat given
  | .operandExpected op => op.name ++ " expects an operand"
  | .storeOperands => "store expects 2 operands"
  | .localSlot slot => "local slot " ++ Text.ofInt slot ++ " out of range"
  | .unsupportedInstruction i =>
    "instruction " ++ Text.quoted i ++ " is not supported by the x86_64 backend"
  | .jumpTarget target => "jump target " ++ Ir.blockText target ++ " not found"
  | .branchTarget target => "branch target " ++ Ir.blockText target ++ " not found"
  | .unsupportedTerminator t =>
    "terminator " ++ Text.quoted t ++ " is not supported by the x86_64 backend"

/-- A fault and the block it was met in; a fault of the module as a whole has neither function nor
block. -/
structure CodegenError where
  function : Text
  block : BlockId
  fault : CodegenFault
  deriving DecidableEq, Repr

/-- The text of an error; a function without a name is not named. -/
def CodegenError.message (e : CodegenError) : Text :=
  if e.function.isEmpty then "codegen: " ++ e.fault.message
  else "codegen: " ++ e.function ++ "/" ++ Ir.blockText e.block ++ ": " ++ e.fault.message

end Errors

section Conventions

/-- The machine registers that hold values of the program. -/
def valueRegs : List Reg := [.rsi, .rdi, .r8, .r9, .r10]

/-- The machine registers that arguments come in. -/
def argumentRegs (os : Os) : List Reg :=
  if os = .windows then [.rcx, .rdx, .r8, .r9] else [.rdi, .rsi, .rdx, .rcx, .r8, .r9]

/-- The number of the call that ends a process. -/
def exitCall (os : Os) : Int32 := if os = .macos then 0x2000001 else 60

end Conventions

/-- Pieces of the program of a module. -/
abbrev Code := List (Item Label)

/-- Instructions as pieces. -/
def code (is : List (Instruction Label)) : Code := is.map Item.instruction

/-- The function whose code is made, and what is known about it. -/
structure Context where
  index : Nat
  function : Ir.Function
  allocation : Assignment
  frame : Frame

namespace Context

section Values

/-- The machine register with an index. -/
def valueReg (index : Nat) : Reg := valueRegs.getD index .rax

/-- Copies a machine register to another one, unless they are the same. -/
def copy (target source : Reg) : List (Instruction Label) :=
  if source = target then [] else [.pair .mov target source]

/-- Brings the value of a register into a machine register. -/
def load (g : Context) (target : Reg) (r : Register) :
    Except CodegenFault (List (Instruction Label)) :=
  match g.allocation.place? r with
  | some (.machine index) => .ok (copy target (valueReg index))
  | some (.slot number) => .ok [.loadMem target .rbp (g.frame.slotOffset number)]
  | none => .error (.undefinedRegister r)

/-- Stores a machine register as the value of a register. -/
def store (g : Context) (r : Register) (source : Reg) : List (Instruction Label) :=
  match g.allocation.place? r with
  | some (.machine index) => copy (valueReg index) source
  | some (.slot number) => [.storeMem .rbp (g.frame.slotOffset number) source]
  | none => []

/-- Brings the two operands of an instruction into `rax` and `rcx`. -/
def loadPair (g : Context) (i : Ir.Instruction) :
    Except CodegenFault (List (Instruction Label)) :=
  match i.args with
  | [left, right] => do return (← g.load .rax left) ++ (← g.load .rcx right)
  | args => .error (.pairExpected i.op args.length)

/-- Brings the first operand of an instruction into a machine register. -/
def loadFirst (g : Context) (target : Reg) (i : Ir.Instruction) :
    Except CodegenFault (List (Instruction Label)) :=
  match i.args with
  | [] => .error (.operandExpected i.op)
  | r :: _ => g.load target r

/-- The offset of a local variable. -/
def localOffset (g : Context) (slot : Int) : Except CodegenFault Int32 :=
  if slot < 0 then .error (.localSlot slot)
  else match g.function.locals[slot.toNat]? with
    | some l => .ok (-l.offset).toInt32
    | none => .error (.localSlot slot)

end Values

section Instructions

/-- Brings a constant into `rax`. -/
def loadConstant : Ir.Constant → Instruction Label
  | .int n => .movImm .rax n
  | .float x => .movImm .rax x.toInt64
  | .bool b => .movImm32 .rax (if b then 1 else 0)
  | .string s => .leaLabel .rax (.literal s)
  | .null => .movImm32 .rax 0
  | .unknown _ => .movImm32 .rax 0

/-- Makes one of a machine register that is not zero. -/
def truth (r : Reg) : List (Instruction Label) :=
  [.pair .test r r, .setCond Cond.notEqual r, .wide .movzx8 r r]

/-- Makes a truth value of the last comparison. -/
def compared (c : Cond) : List (Instruction Label) :=
  [.pair .cmp .rax .rcx, .setCond c .rax, .wide .movzx8 .rax .rax]

/-- The work of an operation on `rax` and `rcx`, if it has two operands. -/
def pairWork? : Ir.Op → Option (List (Instruction Label))
  | .add => some [.pair .add .rax .rcx]
  | .sub => some [.pair .sub .rax .rcx]
  | .mul => some [.wide .imul .rax .rcx]
  | .bitAnd => some [.pair .and .rax .rcx]
  | .bitOr => some [.pair .or .rax .rcx]
  | .bitXor => some [.pair .xor .rax .rcx]
  | .div => some [.cqo, .single .idiv .rcx]
  | .mod => some [.cqo, .single .idiv .rcx, .pair .mov .rax .rdx]
  | .shl => some [.single .shl .rax]
  | .shr => some [.single .sar .rax]
  | .eq => some (compared Cond.equal)
  | .ne => some (compared Cond.notEqual)
  | .lt => some (compared Cond.less)
  | .le => some (compared Cond.lessOrEqual)
  | .gt => some (compared Cond.greater)
  | .ge => some (compared Cond.greaterOrEqual)
  | .and => some (truth .rax ++ truth .rcx ++ [.pair .and .rax .rcx])
  | .or => some (truth .rax ++ truth .rcx ++ [.pair .or .rax .rcx])
  | _ => none

/-- The work of an operation on `rax`, if it has one operand. -/
def singleWork? : Ir.Op → Option (List (Instruction Label))
  | .move => some []
  | .neg => some [.single .neg .rax]
  | .bitNot => some [.single .not .rax]
  | .not => some [.pair .test .rax .rax, .setCond Cond.equal .rax, .wide .movzx8 .rax .rax]
  | _ => none

/-- Brings the result of an instruction into `rax`. -/
def result (g : Context) (i : Ir.Instruction) :
    Except CodegenFault (List (Instruction Label)) :=
  match i.op with
  | .loadConst => .ok [loadConstant i.const]
  | .loadLocal => do return [.loadMem .rax .rbp (← g.localOffset i.slot)]
  | .alloca => .ok [.lea .rax .rbp (g.frame.areaOffset i.dest)]
  | .load => do return (← g.loadFirst .rcx i) ++ [.loadMem .rax .rcx 0]
  | op =>
    match pairWork? op, singleWork? op with
    | some work, _ => do return (← g.loadPair i) ++ work
    | none, some work => do return (← g.loadFirst .rax i) ++ work
    | none, none => .error (.unsupportedInstruction i.text)

/-- The code of an instruction. -/
def instruction (g : Context) (i : Ir.Instruction) :
    Except CodegenFault (List (Instruction Label)) :=
  match i.op with
  | .nop | .debugLine => .ok []
  | .storeLocal => do
    let offset ← g.localOffset i.slot
    return (← g.loadFirst .rax i) ++ [.storeMem .rbp offset .rax]
  | .store =>
    match i.args with
    | [pointer, value] => do
      return (← g.load .rcx pointer) ++ (← g.load .rax value) ++ [.storeMem .rcx 0 .rax]
    | _ => .error .storeOperands
  | _ => do
    let work ← g.result i
    return match i.dest? with
      | some r => work ++ g.store r .rax
      | none => work

end Instructions

section Control

/-- The label of a block of the function. -/
def label (g : Context) (id : BlockId) : Label := .block g.index id

/-- Leaves the function. -/
def epilogue : List (Instruction Label) := [.pair .mov .rsp .rbp, .pop .rbp, .ret]

/-- The code of a terminator. -/
def terminator (g : Context) : Ir.Terminator → Except CodegenFault (List (Instruction Label))
  | .ret (some r) => do return (← g.load .rax r) ++ epilogue
  | .ret none => .ok (.movImm32 .rax 0 :: epilogue)
  | .jump target =>
    if (g.function.block? target).isNone then .error (.jumpTarget target)
    else .ok [.jump (g.label target)]
  | .branch condition onTrue onFalse =>
    if (g.function.block? onTrue).isNone then .error (.branchTarget onTrue)
    else if (g.function.block? onFalse).isNone then .error (.branchTarget onFalse)
    else do
      return (← g.load .rax condition) ++
        [.pair .test .rax .rax, .jumpIf Cond.notEqual (g.label onTrue), .jump (g.label onFalse)]
  | .unreachable => .ok [.ud2]
  | t => .error (.unsupportedTerminator t.text)

/-- The code of a block. -/
def block (g : Context) (b : Ir.Block) : Except CodegenFault Code := do
  let body ← b.instructions.toList.mapM g.instruction
  let exit ← g.terminator b.terminator
  return .bind (g.label b.id) :: code (body.flatten ++ exit)

/-- Enters the function: makes the frame and stores the arguments. -/
def prologue (g : Context) (os : Os) : List (Instruction Label) :=
  let room := if 0 < g.frame.size then [.subImm .rsp g.frame.size] else []
  let arguments := (g.function.params.zip (argumentRegs os)).flatMap fun (p, source) =>
    g.store p.register source
  [.push .rbp, .pair .mov .rbp .rsp] ++ room ++ arguments

end Control

end Context

/-- The code of a function. -/
def functionCode (os : Os) (index : Nat) (f : Ir.Function) : Except CodegenError Code :=
  let failAt (block : BlockId) (fault : CodegenFault) : CodegenError := ⟨f.name, block, fault⟩
  let room := (argumentRegs os).length
  if room < f.params.length then .error (failAt f.entry (.tooManyParams f.params.length room))
  else if f.entryBlock?.isNone then .error (failAt f.entry .entryMissing)
  else
    let allocation := allocate valueRegs.length f
    match Frame.layout f allocation.spillCount with
    | .error (.areaSize block size) => .error (failAt block (.areaSize size))
    | .error (.tooLarge size) => .error (failAt f.entry (.frameTooLarge size))
    | .ok frame => do
      let g : Context := ⟨index, f, allocation, frame⟩
      let skip : Code := match f.blocks[0]? with
        | some b => if b.id = f.entry then [] else code [.jump (g.label f.entry)]
        | none => []
      let blocks ← f.blocks.toList.mapM fun b =>
        match g.block b with
        | .ok c => .ok c
        | .error fault => .error (failAt b.id fault)
      return code (g.prologue os) ++ skip ++ blocks.flatten

/-- Calls the main function and ends the process with its result. -/
def stub (os : Os) (main : Label) : Code :=
  if os = .windows then code [.call main, .ret]
  else code [.call main, .pair .mov .rdi .rax, .movImm32 .rax (exitCall os), .syscall, .ud2]

section Literals

/-- The string that an item points to. -/
def Item.literal? : Item Label → Option Text
  | .instruction (.leaLabel _ (.literal s)) => some s
  | _ => none

/-- The literals of a program, each once, in the order of their first use. -/
def literals (c : Code) : List Text :=
  (c.foldl (fun (seen, found) item =>
    match Item.literal? item with
    | some s => if seen.contains s then (seen, found) else (seen.insert s, found.push s)
    | none => (seen, found))
    ((∅, #[]) : Std.HashSet Text × Array Text)).2.toList

/-- The literals as data, each with a zero byte behind it, from a multiple of eight on. -/
def pool (strings : List Text) : Code :=
  if strings.isEmpty then []
  else .align 8 0xcc :: strings.flatMap fun s => [.bind (.literal s), .data s, .data [0]]

end Literals

/-- Why a module has no machine code. -/
inductive CompileError where
  | codegen (e : CodegenError)
  | unbound (e : Unbound Label)
  deriving DecidableEq, Repr

/-- The text of an error. -/
def CompileError.message : CompileError → Text
  | .codegen e => e.message
  | .unbound e => "unbound label referenced at offset " ++ Text.ofNat e.offset

/-- The name of the function where a program begins. -/
def mainName : Text := "main"

/-- The program of a module. -/
def moduleCode (os : Os) (m : Module) : Except CodegenError Code :=
  let fail (fault : CodegenFault) : CodegenError := ⟨[], 0, fault⟩
  match m.function? mainName with
  | none => .error (fail (.noMain m.name))
  | some main =>
    if main.external then .error (fail (.noMain m.name))
    else match m.globals[0]? with
      | some g => .error (fail (.global g.name))
      | none => do
        let functions := m.functions.toList.filter fun f => !f.external
        let bodies ← functions.zipIdx.mapM fun (f, index) => do
          return .bind (.function f.name) :: (← functionCode os index f)
        let body := bodies.flatten
        return stub os (.function mainName) ++ body ++ pool (literals body)

/-- The machine code of a module. -/
def machineCode (os : Os) (m : Module) : Except CompileError Text :=
  match moduleCode os m with
  | .error e => .error (.codegen e)
  | .ok program =>
    match finish program with
    | .error e => .error (.unbound e)
    | .ok bytes => .ok bytes

end X64
end StackNative
