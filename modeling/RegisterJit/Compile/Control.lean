import RegisterJit.Compile.Emit

/-!
# Compiling control flow

Conditions on values whose truth shows in their word are decided inline. A finally block is entered
with the address to go back to in one register, disguised as a double, and the kind of completion in
another. A call either comes back from its stub with the current frame and a result, or with a frame
to enter.

`Proofs.Branching` shows that jumps decide as the operators do, whichever way they are compiled, and
`Proofs.Finally` that finally blocks go back to where they were entered from or throw what was being
delivered. The code after the call of a stub that makes calls tells the two kinds of answers apart
by comparing frames.
-/

namespace RegisterJit.Emit

open X86 (Reg Cond Instr Label)

/-- Jump to `target` when the truth of a register is `sense`. -/
def conditionalJump (r : Register) (target : Label) (sense : Bool) : Emit Unit := do
  let next ← newLabel
  let truthy := if sense then target else next
  let falsy := if sense then next else target
  load .rax r
  instr (.aluImm .cmp .w64 .rax 6)
  jcc .e falsy
  instr (.aluImm .cmp .w64 .rax 7)
  jcc .e truthy
  instr (.alu .cmp .w64 .rax maskReg)
  jcc .e falsy
  jcc .a truthy
  compareNullish .rax
  jcc .e falsy
  instr (.mov .w64 .rsi .rax)
  callStub .toBoolean
  instr (.aluImm .cmp .w64 .rax 7)
  jcc .e truthy
  if falsy ≠ next then jmp falsy
  bind next

/-- Enter a finally block that is to come back here. The address must be even, so it is aligned. -/
def jumpSubroutine (jump flag : Register) (target : Label) : Emit Unit := do
  let resume ← newLabel
  piece (.address .rax resume)
  store jump .rax
  instr (.movValue .rcx (Value.int32 finallyResume).word)
  store flag .rcx
  jmp target
  piece (.align 4)
  bind resume

/-- Leave a finally block: go back to the stored address, or throw the stored value again. -/
def returnSubroutine (jump flag : Register) : Emit Unit := do
  let rethrow ← newLabel
  reload .rcx flag
  instr (.movValue .rdx (Value.int32 finallyResume).word)
  instr (.alu .cmp .w64 .rcx .rdx)
  jcc .ne rethrow
  reload .rax jump
  instrs [.rol .rax 16, .aluImm .and .w64 .rax (-2), .jmpReg .rax]
  bind rethrow
  reload .rsi jump
  callStubNoReturn .throw

/-- Start an enumeration, or skip the loop over null and undefined. -/
def forInSetup (iterator enumerable : Register) (leave : Label) : Emit Unit := do
  load .rax enumerable
  compareNullish .rax
  jcc .e leave
  instr (.mov .w64 .rsi .rax)
  callStub .forInSetup
  storeResult iterator

/-- The next key of an enumeration, or leave the loop. -/
def forInEnumerate (dst iterator : Register) (leave : Label) : Emit Unit := do
  load .rsi iterator
  callStub .forInEnumerate
  instr (.test .w64 .rax .rax)
  jcc .e leave
  storeResult dst

/-- Give an iterator up. -/
def forInLeave (iterator : Register) : Emit Unit := do
  load .rsi iterator
  callStub .forInLeave

/-- Jump to `yes` when `r` holds an object, using `rcx`. -/
def jumpIfObject (r : Reg) (yes : Label) : Emit Unit := do
  let no ← newLabel
  instr (.test .w64 r r)
  jcc .e no
  instr (.movImm64 .rcx (Value.numberMask ||| 0xf))
  instr (.test .w64 r .rcx)
  jcc .e yes
  bind no

/-- A call. The receiver is in `start` and the arguments follow it. After a compiled callee has
returned, the stack pointer is raised again over the registers of this frame; a constructor that
returned no object yields the receiver, which the stub left in `start`. -/
def callShaped (s : Stub) (dst callee start : Register) (argc : UInt32) : Emit Unit := do
  let native ← newLabel
  let done ← newLabel
  load .rsi callee
  registerAddress .rdx start
  immediate .rcx argc
  instr (.mov .w64 .r8 .rsp)
  instructionPointer .r9
  callStub s
  instr (.alu .cmp .w64 .rax frameReg)
  jcc .ne native
  instr (.mov .w64 .rax .rdx)
  jmp done
  bind native
  instr (.mov .w64 frameReg .rax)
  instr (.callMem frameReg Frame.entry)
  instr (.load frameReg .rsp 0)
  let limit := Frame.limit (← read).unit.code.registerCount
  instrs [.lea .rcx frameReg limit, .load .rdx contextReg Context.stackPointer,
    .alu .cmp .w64 .rdx .rcx, .cmov .b .rdx .rcx, .store contextReg Context.stackPointer .rdx]
  if s = .construct then
    let object ← newLabel
    jumpIfObject .rax object
    reload .rax start
    bind object
  bind done
  storeResult dst

/-- Look a function up by its name; its base object goes into the receiver's register. -/
def prepareDynamicCall (dst receiver : Register) (name : UInt32) : Emit Unit := do
  frame .rsi
  symbol .rdx name
  registerAddress .rcx receiver
  callStub .prepareDynamicCall
  storeResult dst

end RegisterJit.Emit
