import RegisterJit.Compile.Link
import RegisterJit.X86.Cpu
import RegisterJit.X86.Decode

/-!
# Machine state

The memory that compiled code runs in: the region for code, the context with the register stack
behind it, and the native stack. Frames are laid out on the register stack, which grows upward.

Memory is one map from addresses to words; that its regions do not meet is `Machine.Orderly` in
`Proofs.Delivery`. The registers of the processor belong to the state as well, and the host reads
the number and arguments of a stub from the context. `Proofs.State` has the rules for reading after
writing.
-/

namespace RegisterJit

open X86 (Cpu Reg Instr)

/-- Sizes of a machine's memory; zero and negative sizes stand for the usual ones. -/
structure MachineConfig where
  codeSize : Int
  stackSize : Int
  nativeStackSize : Int

/-- A code that a machine knows. -/
structure MachineCode where
  unit : CodeUnit
  /-- The address of its first instruction, zero until it is linked. -/
  entry : UInt64

namespace MachineCode

/-- The number of the nested code with an index: codes are numbered parents first. -/
def nested (c : MachineCode) (index : Nat) : Nat :=
  let before := (c.unit.code.codes.take index).map fun
    | some d => d.walk.length
    | none => 1
  c.unit.id.toNat + 1 + before.sum

end MachineCode

/-- The instruction that starts at an offset of some code, and its length. -/
def instructionAt? (code : Array UInt8) (offset : Nat) : Option (Instr × Nat) :=
  let bytes := (code.extract offset (offset + 15)).toList
  (X86.decode bytes).map fun (i, rest) => (i, bytes.length - rest.length)

/-- An image with the instructions that start at each of its bytes. -/
structure LoadedImage extends Image where
  decoded : Array (Option (Instr × Nat))
  decoded_eq : decoded = Array.ofFn fun i : Fin code.size => instructionAt? code i

namespace LoadedImage

/-- Decode an image. -/
def ofImage (img : Image) : LoadedImage := ⟨img, _, rfl⟩

/-- The instruction at an offset and its length. -/
def instruction? (img : LoadedImage) (offset : Nat) : Option (Instr × Nat) :=
  img.decoded.getD offset none

end LoadedImage

/-- A machine: its codes, its memory and its processor. -/
structure Machine where
  codeMemory : CodeMemory
  /-- The address of the context. -/
  context : UInt64
  /-- The lowest address of the native stack. -/
  nativeBase : UInt64
  /-- The address after the native stack. -/
  nativeEnd : UInt64
  codes : Array MachineCode
  images : Array LoadedImage
  /-- How many runs are under way. -/
  depth : Nat
  cpu : Cpu

/-- A function call to set up a frame for. -/
structure Call where
  code : MachineCode
  callee : Value
  this : Value
  args : List Value
  env : UInt64
  construct : Bool

namespace Machine

/-- The size of the memory in front of the register stack, which begins with the context. -/
def pageSize : Nat := 4096

/-- What a stub needs of the native stack. -/
def nativeReserve : UInt64 := 65536

/-- Where the regions are. Nothing depends on it but that they are apart, aligned, and below
`2 ^ 48`. -/
def codeBase : UInt64 := 0x100000000000
def dataBase : UInt64 := 0x200000000000
def nativeStackBase : UInt64 := 0x300000000000

/-! ## Memory -/

/-- The word at an address. -/
def readWord (m : Machine) (address : UInt64) : UInt64 := m.cpu.read address

/-- Write a word at an address. -/
def writeWord (m : Machine) (address word : UInt64) : Machine :=
  { m with cpu := m.cpu.write address word }

/-- A word of the context. -/
def contextWord (m : Machine) (offset : Int32) : UInt64 :=
  m.readWord (m.context + X86.displacementWord offset)

/-- Write a word of the context. -/
def setContextWord (m : Machine) (offset : Int32) (word : UInt64) : Machine :=
  m.writeWord (m.context + X86.displacementWord offset) word

/-- All words of the context. -/
def contextWords (m : Machine) : List UInt64 :=
  (List.range Context.wordCount).map fun i => m.readWord (m.context + (8 * i).toUInt64)

/-- Write all words of the context. -/
def restoreContext (m : Machine) (words : List UInt64) : Machine :=
  (words.zipIdx).foldl (fun m (w, i) => m.writeWord (m.context + (8 * i).toUInt64) w) m

/-- The frame of the code that left for a stub. -/
def frame (m : Machine) : UInt64 := m.contextWord Context.savedR12

/-- A stub call as compiled code left it. -/
structure PendingStub where
  number : UInt64
  a : UInt64
  b : UInt64
  c : UInt64
  d : UInt64
  e : UInt64

/-- The stub that compiled code left for. -/
def pendingStub (m : Machine) : PendingStub :=
  let word (i : Int32) : UInt64 := m.contextWord (Context.arguments + 8 * i)
  ⟨m.contextWord Context.stubId, word 0, word 1, word 2, word 3, word 4⟩

/-- Consecutive words. -/
def window (m : Machine) (address : UInt64) : (count : Nat) → List Value
  | 0 => []
  | count + 1 => ⟨m.readWord address⟩ :: m.window (address + 8) count

/-- A fresh machine. -/
def ofConfig (config : MachineConfig) : Machine :=
  let stackSize := if config.stackSize ≤ 0 then 8 * 1024 * 1024 else config.stackSize.toNat
  let nativeSize :=
    if config.nativeStackSize < 2 * 65536 then 4 * 1024 * 1024 else config.nativeStackSize.toNat
  let stackStart := dataBase + pageSize.toUInt64
  let m : Machine := {
    codeMemory := CodeMemory.ofSize codeBase config.codeSize
    context := dataBase
    nativeBase := nativeStackBase
    nativeEnd := nativeStackBase + nativeSize.toUInt64
    codes := #[]
    images := #[]
    depth := 0
    cpu := Cpu.blank }
  ((m.setContextWord Context.stackPointer stackStart).setContextWord Context.stackLimit
    (stackStart + stackSize.toUInt64)).setContextWord Context.nativeSP m.nativeEnd

/-- Whether a call made with that native stack pointer may go one level deeper. -/
def nativeStackAvailable (m : Machine) (sp : UInt64) : Bool := m.nativeBase + nativeReserve < sp

/-- The code with a number, if any. -/
def code? (m : Machine) (id : UInt32) : Option MachineCode := m.codes[id.toNat]?

/-- The first image that an address lies in. -/
def imageOf (m : Machine) (pc : UInt64) : Option LoadedImage :=
  m.images.find? fun img => img.contains pc

/-! ## Frames -/

/-- A word of a frame's header. -/
def frameWord (m : Machine) (frame : UInt64) (offset : Int32) : UInt64 :=
  m.readWord (frame + X86.displacementWord offset)

/-- Write a word of a frame's header. -/
def setFrameWord (m : Machine) (frame : UInt64) (offset : Int32) (word : UInt64) : Machine :=
  m.writeWord (frame + X86.displacementWord offset) word

/-- The function that a frame runs. -/
def frameCallee (m : Machine) (frame : UInt64) : Value := ⟨m.frameWord frame Frame.callee⟩

/-- Argument `i` of a frame, undefined if it was not passed. -/
def frameArgument (m : Machine) (frame : UInt64) (i : Nat) : Value :=
  if (m.frameWord frame Frame.argumentCount).toNat ≤ i then Value.undefined
  else ⟨m.readWord (frame - (16 + 8 * i).toUInt64)⟩

/-- The arguments of a call and undefined values up to the number of parameters. -/
def paddedArguments (args : List Value) (params : Nat) : List Value :=
  args ++ List.replicate (params - args.length) Value.undefined

/-- Write words upward from an address. -/
def writeUp (m : Machine) (address : UInt64) : List UInt64 → Machine
  | [] => m
  | w :: rest => (m.writeWord address w).writeUp (address + 8) rest

/-- The address of argument `i` of a frame. Its displacement is computed modulo `2 ^ 32`. -/
def argumentPlace (frame : UInt64) (i : Nat) : UInt64 :=
  frame + X86.displacementWord ((Register.arg i).index * 8)

/-- The address of register `r` of a frame. Its displacement is computed modulo `2 ^ 32`. -/
def registerPlace (frame : UInt64) (r : Nat) : UInt64 :=
  frame + X86.displacementWord (Frame.headerSize + Int32.ofNat r * 8)

/-- Write arguments from number `i` on. -/
def writeArguments (m : Machine) (frame : UInt64) : (i : Nat) → List Value → Machine
  | _, [] => m
  | i, v :: rest => (m.writeWord (argumentPlace frame i) v.word).writeArguments frame (i + 1) rest

/-- Make `count` registers undefined, from register `r` on. -/
def clearRegisters (m : Machine) (frame : UInt64) : (r count : Nat) → Machine
  | _, 0 => m
  | r, count + 1 =>
    (m.writeWord (registerPlace frame r) Value.undefined.word).clearRegisters frame (r + 1) count

/-- How many registers of a frame are cleared: the count read as a signed number. -/
def clearedRegisters (c : Code) : Nat := c.registerCount.toInt32.toInt.toNat

/-- The frame of a call and the end of its registers when it is laid out at `base`. -/
def framePlace (base : UInt64) (call : Call) : UInt64 × UInt64 :=
  let code := call.code.unit.code
  let slots := max call.args.length code.params.toNat
  let frame := base + ((slots + 1) * 8).toUInt64
  (frame, frame + X86.displacementWord (Frame.limit code.registerCount))

/-- The words of a frame's header. -/
def headerWords (prev base : UInt64) (call : Call) : List UInt64 :=
  [prev, call.code.unit.id.toUInt64, call.code.entry, call.callee.word,
    call.args.length.toUInt64, base, call.env, call.env, if call.construct then 1 else 0]

/-- Whether the frame of a call fits on the register stack. -/
def frameFits (m : Machine) (call : Call) : Bool :=
  (framePlace (m.contextWord Context.stackPointer) call).2 ≤ m.contextWord Context.stackLimit

/-- Lay out a frame at the stack pointer and move the stack pointer past its registers. The
arguments are below the header in reverse order, the receiver next to it. -/
def layFrame (m : Machine) (prev : UInt64) (call : Call) : UInt64 × Machine :=
  let code := call.code.unit.code
  let base := m.contextWord Context.stackPointer
  let (frame, limit) := framePlace base call
  let m := m.writeArguments frame 0 (paddedArguments call.args code.params.toNat)
  let m := m.writeWord (frame - 8) call.this.word
  let m := m.writeUp frame (headerWords prev base call)
  let m := m.clearRegisters frame 0 (clearedRegisters code)
  (frame, m.setContextWord Context.stackPointer limit)

/-- A frame for a call; there is none if the register stack is too small. -/
def pushFrame (m : Machine) (prev : UInt64) (call : Call) : Option (UInt64 × Machine) :=
  if m.frameFits call then some (m.layFrame prev call) else none

/-! ## Running instructions -/

/-- The instruction at an address and the address after it. -/
def fetch (images : Array LoadedImage) (pc : UInt64) : Option (Instr × UInt64) :=
  match images.find? fun img => img.contains pc with
  | none => none
  | some img =>
    match img.instruction? (pc - img.base).toNat with
    | none => none
    | some (i, length) => some (i, pc + length.toUInt64)

/-- The address that compiled code returns to when it leaves for the host. -/
def hostAddress : UInt64 := 0

/-- Run instructions until control is back at the host. There is no state after a fault, and none
when the fuel is used up. -/
def runCode (images : Array LoadedImage) : (fuel : Nat) → Cpu → Option Cpu
  | 0, _ => none
  | fuel + 1, c =>
    if c.rip = hostAddress then some c
    else
      match fetch images c.rip with
      | none => none
      | some (i, next) =>
        match c.execute next i with
        | none => none
        | some c => runCode images fuel c

/-- A number of instructions that no run reaches. -/
def stepBound : Nat := 2 ^ 62

/-- Run compiled code until it leaves. -/
def execute (m : Machine) : Option Machine :=
  match m with
  | ⟨codeMemory, context, nativeBase, nativeEnd, codes, images, depth, cpu⟩ =>
    match runCode images stepBound cpu with
    | none => none
    | some cpu => some ⟨codeMemory, context, nativeBase, nativeEnd, codes, images, depth, cpu⟩

/-- The stack pointer of the host, at which its return address stands. -/
def hostStack (m : Machine) : UInt64 := m.context + (pageSize - 8).toUInt64

/-- Switch to the native stack, remembering the host's. -/
def leaveHost (m : Machine) : Machine :=
  let m := m.setContextWord Context.hostSP m.hostStack
  let m := m.writeWord m.hostStack hostAddress
  let sp := m.contextWord Context.nativeSP
  { m with cpu := (m.cpu.setReg .rdi m.context).setReg .rsp sp }

/-- Enter an image from the host, to run a function in a frame. -/
def enter (m : Machine) (image : Image) (frame entry : UInt64) : Machine :=
  let m := ({ m with depth := m.depth + 1 }).leaveHost
  { m with cpu := ((m.cpu.setReg .rsi frame).setReg .rdx entry).jump image.entryThunk }

/-- The registers that a stub call keeps, with their words in the context. -/
def keptRegisters : List (Reg × Int32) :=
  [(.rbx, Context.savedRBX), (.rbp, Context.savedRBP), (.r12, Context.savedR12),
    (.r14, Context.savedR14), (.r15, Context.savedR15)]

/-- Return from the host into the code that left for a stub, with the stub's results. -/
def resume (m : Machine) (r0 r1 : UInt64) : Machine :=
  let m := m.leaveHost
  let m := keptRegisters.foldl (fun m (r, offset) =>
    { m with cpu := m.cpu.setReg r (m.contextWord offset) }) m
  let cpu := ((m.cpu.setReg .r13 m.context).setReg .rax r0).setReg .rdx r1
  let (target, cpu) := cpu.pop
  { m with cpu := cpu.jump target }

end Machine

end RegisterJit
