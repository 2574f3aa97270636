import RegisterJit.Compile.Piece
import RegisterJit.Compile.Scan
import RegisterJit.Compile.Stub
import RegisterJit.Value

/-!
# Emitting code

The compiler keeps one register of the frame in the accumulator `rax`. The cache is dropped at every
jump target and whenever something may have put the accumulator or the frame out of step. Frame
memory is always current; the cache only saves loads.

An emitter works at a site, which it only reads: the code, its labels and the thunk of stubs. What
it appends are pieces of symbolic code. `Proofs.Writing` and `Proofs.Emission` reason about emitters
by what they append, with and without the assumption that the code is well formed; bytes come in
only when pieces are put into a session.
-/

namespace RegisterJit

open X86 (Reg Xmm Cond Instr Label Assembler)

/-- A code together with what the runtime has added to it. -/
structure CodeUnit where
  /-- Tells units apart. -/
  key : Nat
  /-- The number that names the code in references from compiled code. -/
  id : UInt32
  code : Code
  /-- The boxed constants. -/
  pool : Array Value

/-- Where the compiler is. -/
structure Site where
  unit : CodeUnit
  jumps : JumpTable
  stubThunk : Label
  /-- The instruction being compiled. -/
  offset : UInt32

/-- What the compiler has written for one instruction so far. -/
structure Emitter where
  pieces : Array Piece
  /-- The next label to allocate. -/
  labels : Nat
  /-- The register that the accumulator holds, if any. -/
  cached : Register
  /-- The register that the accumulator will hold after the current instruction. -/
  upcoming : Register

/-- Compile-time computations: they write symbolic code and may find a broken invariant. What was
written before stays. -/
abbrev Emit := ReaderT Site (EStateM Invariant Emitter)

namespace Emit

/-- Append a piece. -/
def piece (p : Piece) : Emit Unit := modify fun e => { e with pieces := e.pieces.push p }

/-- Append an instruction. -/
def instr (i : Instr) : Emit Unit := piece (.instr i)

/-- Append instructions. -/
def instrs (is : List Instr) : Emit Unit := is.forM instr

/-- Allocate a label. -/
def newLabel : Emit Label := modifyGet fun e => (e.labels, { e with labels := e.labels + 1 })

/-- Bind a label here. -/
def bind (l : Label) : Emit Unit := piece (.bind l)

/-- Jump to a label. -/
def jmp (l : Label) : Emit Unit := piece (.jmp l)

/-- Jump to a label when a condition holds. -/
def jcc (c : Cond) (l : Label) : Emit Unit := piece (.jcc c l)

/-- Call the code at a label. -/
def call (l : Label) : Emit Unit := piece (.call l)

/-- The name of the code being compiled. -/
def codeName : Emit Text := return (← read).unit.code.name

/-- Whether the code being compiled is strict. -/
def isStrict : Emit Bool := return (← read).unit.code.strict

/-- The displacement of a register. -/
def registerOffset (r : Register) : Emit Int32 :=
  match Frame.registerOffset? r with
  | some d => pure d
  | none => throw .invalidRegister

/-- The label of a jump target. -/
def targetLabel (target : UInt32) : Emit Label := do
  match (← read).jumps.find? target with
  | some t => return t.label
  | none => throw (.notScanned (← codeName) target)

/-- Put a register of the frame into `dst`, from the accumulator if it is there. -/
def load (dst : Reg) (r : Register) : Emit Unit := do
  if r = (← get).cached then piece (.kept dst r)
  else
    instr (.load dst frameReg (← registerOffset r))
    if dst = .rax then modify fun e => { e with cached := r }

/-- Put one register into the accumulator and another into `rdx`. -/
def loadPair (lhs rhs : Register) : Emit Unit := do
  let cached := (← get).cached
  if rhs = cached ∧ lhs ≠ cached then
    piece (.kept .rdx rhs)
    load .rax lhs
  else
    load .rax lhs
    load .rdx rhs

/-- Put a register of the frame into `dst` without looking at the cache. -/
def reload (dst : Reg) (r : Register) : Emit Unit := do
  instr (.load dst frameReg (← registerOffset r))

/-- Write `src` to a register of the frame. -/
def store (r : Register) (src : Reg) : Emit Unit := do
  instr (.store frameReg (← registerOffset r) src)

/-- Write the accumulator to a register, which it then holds. -/
def storeResult (r : Register) : Emit Unit := do
  store r .rax
  modify fun e => { e with upcoming := r }

/-- Call a stub whose arguments are in place. -/
def callStub (s : Stub) : Emit Unit := do
  instr (.mov .w64 .rdi contextReg)
  instr (.movImm32 .rax s.number)
  call (← read).stubThunk
  modify fun e => { e with cached := Register.invalid }

/-- Call a stub that never comes back. -/
def callStubNoReturn (s : Stub) : Emit Unit := do
  callStub s
  instr .ud2

/-- Load a reference to the current instruction. -/
def instructionPointer (dst : Reg) : Emit Unit := do
  let site ← read
  instr (.movValue dst (codeReference site.unit.id site.offset))

/-- Load a reference to a name. -/
def symbol (dst : Reg) (index : UInt32) : Emit Unit := do
  let u := (← read).unit
  if u.code.names.size ≤ index.toNat then throw (.nameRange u.code.name index)
  instr (.movValue dst (codeReference u.id index))

/-- Load the current frame. -/
def frame (dst : Reg) : Emit Unit := instr (.mov .w64 dst frameReg)

/-- Load the address of a register of the frame. -/
def registerAddress (dst : Reg) (r : Register) : Emit Unit := do
  instr (.lea dst frameReg (← registerOffset r))

/-- A boxed constant. -/
def constant (k : UInt32) : Emit Value := do
  let u := (← read).unit
  match u.pool[k.toNat]? with
  | some v => return v
  | none => throw (.notPrepared u.code.name k u.pool.size)

/-- Load an immediate. -/
def immediate (dst : Reg) (n : UInt32) : Emit Unit := instr (.movImm32 dst n)

/-- Jump to `slow` unless `r` holds an integer. -/
def guardInt32 (r : Reg) (slow : Label) : Emit Unit := do
  instr (.alu .cmp .w64 r maskReg)
  jcc .b slow

/-- Tag the zero-extended 32-bit result in `r`. -/
def boxInt32 (r : Reg) : Emit Unit := instr (.alu .or .w64 r maskReg)

/-- Box the signed 64-bit integer in `src` as a double in the accumulator, using `rcx`. -/
def boxDouble (src : Reg) : Emit Unit :=
  instrs [.cvtsi2sd .x0 src, .movqFrom .rax .x0, .movImm64 .rcx Value.doubleOffset,
    .alu .add .w64 .rax .rcx]

/-- Compare the value in `src` with null and undefined, using `rcx`; the condition `e` tells. -/
def compareNullish (src : Reg) : Emit Unit :=
  instrs [.mov .w64 .rcx src, .aluImm .and .w64 .rcx (-9), .aluImm .cmp .w64 .rcx 2]

/-- Leave the function with the accumulator as its result: cut the register stack back to the
arguments, drop the slot with the frame, and return. -/
def returnAccumulator : Emit Unit :=
  instrs [.load .rcx frameReg Frame.argumentBase, .store contextReg Context.stackPointer .rcx,
    .pop .rcx, .ret]

end Emit

end RegisterJit
