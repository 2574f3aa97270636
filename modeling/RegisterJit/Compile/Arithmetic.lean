import RegisterJit.Compile.Emit

/-!
# Compiling operators

Operators have an inline path for integers and leave everything else to a stub. The inline path must
give exactly the value the stub would: overflow goes on in 64 bits and is boxed as a double, and
whatever could be negative zero is left to the stub.

`Proofs.Arithmetic` follows the inline paths on the processor and `Proofs.Shortcuts` compares the
code of each operator with its stub, for all pairs of integers. Emitters here are written without
regard to frames or labels of others; that they bind what they allocate and admit what they are
given is in `Proofs.Emission` and `Proofs.Bindings`.
-/

namespace RegisterJit.Emit

open X86 (Reg Cond Instr Label)

/-- The accumulator gets the stub's result for operands reread from the frame. -/
def binarySlow (op : BinaryOp) (lhs rhs : Register) : Emit Unit := do
  reload .rsi lhs
  reload .rdx rhs
  callStub (.binary op)

/-- A binary operator without an inline path. -/
def binaryStub (op : BinaryOp) (dst lhs rhs : Register) : Emit Unit := do
  load .rsi lhs
  load .rdx rhs
  callStub (.binary op)
  storeResult dst

/-- The operands in the accumulator and `rdx`, both checked to be integers. -/
def integerPair (lhs rhs : Register) (slow : Label) : Emit Unit := do
  loadPair lhs rhs
  guardInt32 .rax slow
  guardInt32 .rdx slow

/-- The end of an operator with an inline path: the slow path, then the result. -/
def finishSlow (slow done : Label) (path : Emit Unit) (dst : Register) : Emit Unit := do
  bind slow
  path
  bind done
  storeResult dst

/-- The instruction of an arithmetic operator at a width. -/
def arithInstr (op : BinaryOp) (w : X86.Width) (dst src : Reg) : Instr :=
  match op with
  | .add => .alu .add w dst src
  | .subtract => .alu .sub w dst src
  | _ => .imul w dst src

/-- Addition, subtraction and multiplication. An overflow in 32 bits is redone in 64 bits and boxed
as a double. A zero product with a negative factor is left to the stub. -/
def arith (op : BinaryOp) (dst lhs rhs : Register) : Emit Unit := do
  let slow ← newLabel
  let overflow ← newLabel
  let done ← newLabel
  integerPair lhs rhs slow
  instr (.mov .w32 .rcx .rax)
  instr (arithInstr op .w32 .rcx .rdx)
  jcc .o overflow
  if op = .multiply then
    let nonzero ← newLabel
    instr (.test .w32 .rcx .rcx)
    jcc .ne nonzero
    instr (.mov .w32 .r8 .rax)
    instr (.alu .or .w32 .r8 .rdx)
    jcc .s slow
    bind nonzero
  instr (.mov .w32 .rax .rcx)
  boxInt32 .rax
  jmp done
  bind overflow
  instr (.movsxd .rcx .rax)
  instr (.movsxd .rdx .rdx)
  instr (arithInstr op .w64 .rcx .rdx)
  boxDouble .rcx
  jmp done
  finishSlow slow done (binarySlow op lhs rhs) dst

/-- Division, inline only for exact quotients: divisors zero and minus one, zero by a negative
number, and inexact quotients are left to the stub. -/
def divide (dst lhs rhs : Register) : Emit Unit := do
  let slow ← newLabel
  let nonzero ← newLabel
  let done ← newLabel
  integerPair lhs rhs slow
  instr (.mov .w32 .rcx .rdx)
  instr (.test .w32 .rcx .rcx)
  jcc .e slow
  instr (.aluImm .cmp .w32 .rcx (-1))
  jcc .e slow
  instr (.test .w32 .rax .rax)
  jcc .ne nonzero
  instr (.test .w32 .rcx .rcx)
  jcc .s slow
  bind nonzero
  instr .cdq
  instr (.idiv32 .rcx)
  instr (.test .w32 .rdx .rdx)
  jcc .ne slow
  boxInt32 .rax
  jmp done
  finishSlow slow done (binarySlow .divide lhs rhs) dst

/-- Remainder, inline only for a dividend that is not negative and a positive divisor. -/
def modulo (dst lhs rhs : Register) : Emit Unit := do
  let slow ← newLabel
  let done ← newLabel
  integerPair lhs rhs slow
  instr (.test .w32 .rax .rax)
  jcc .s slow
  instr (.test .w32 .rdx .rdx)
  jcc .le slow
  instr (.mov .w32 .rcx .rdx)
  instr .cdq
  instr (.idiv32 .rcx)
  instr (.mov .w32 .rax .rdx)
  boxInt32 .rax
  jmp done
  finishSlow slow done (binarySlow .modulo lhs rhs) dst

/-- The instruction of a shift operator. -/
def shiftInstr (op : BinaryOp) : Instr :=
  match op with
  | .shiftLeft => .shift32 .shl .rax
  | .shiftRight => .shift32 .sar .rax
  | _ => .shift32 .shr .rax

/-- Shifts. The processor takes the count modulo 32, as the language does. An unsigned result with
its top bit set is boxed as a double. -/
def shift (op : BinaryOp) (dst lhs rhs : Register) : Emit Unit := do
  let slow ← newLabel
  let done ← newLabel
  integerPair lhs rhs slow
  instr (.mov .w32 .rcx .rdx)
  instr (shiftInstr op)
  if op = .shiftRightLogical then
    let small ← newLabel
    instr (.test .w32 .rax .rax)
    jcc .ns small
    boxDouble .rax
    jmp done
    bind small
  boxInt32 .rax
  jmp done
  finishSlow slow done (binarySlow op lhs rhs) dst

/-- Bitwise operators. And and or keep the tags of two integers, so they run on whole words. -/
def bitwise (op : BinaryOp) (dst lhs rhs : Register) : Emit Unit := do
  let slow ← newLabel
  let done ← newLabel
  integerPair lhs rhs slow
  match op with
  | .bitAnd => instr (.alu .and .w64 .rax .rdx)
  | .bitOr => instr (.alu .or .w64 .rax .rdx)
  | _ =>
    instr (.alu .xor .w32 .rax .rdx)
    boxInt32 .rax
  jmp done
  finishSlow slow done (binarySlow op lhs rhs) dst

/-- The condition under which a comparison of two integers holds. -/
def comparisonCond : Comparison → Cond
  | .lt => .l
  | .lte => .le
  | .gt => .g
  | .gte => .ge
  | .eq | .strictEq => .e
  | .ne | .strictNe => .ne

/-- Comparisons. -/
def compare (c : Comparison) (dst lhs rhs : Register) : Emit Unit := do
  let slow ← newLabel
  let done ← newLabel
  integerPair lhs rhs slow
  instrs [.alu .cmp .w32 .rax .rdx, .setcc (comparisonCond c) .rax, .movzx8 .rax .rax,
    .aluImm .or .w64 .rax 6]
  jmp done
  finishSlow slow done (binarySlow (.compare c) lhs rhs) dst

/-- A comparison and a jump when it is `sense`. Integers are compared and branched on directly;
otherwise the stub's boolean is compared with true. -/
def compareBranch (sense : Bool) (c : Comparison) (lhs rhs : Register) (target : Label) :
    Emit Unit := do
  let cond := if sense then comparisonCond c else (comparisonCond c).invert
  let slow ← newLabel
  let next ← newLabel
  integerPair lhs rhs slow
  instr (.alu .cmp .w32 .rax .rdx)
  jcc cond target
  jmp next
  bind slow
  binarySlow (.compare c) lhs rhs
  instr (.aluImm .cmp .w64 .rax 7)
  jcc (if sense then .e else .ne) target
  bind next

/-- A binary operator. -/
def binary (op : BinaryOp) (dst lhs rhs : Register) : Emit Unit :=
  match op with
  | .add | .subtract | .multiply => arith op dst lhs rhs
  | .divide => divide dst lhs rhs
  | .modulo => modulo dst lhs rhs
  | .shiftLeft | .shiftRight | .shiftRightLogical => shift op dst lhs rhs
  | .bitAnd | .bitXor | .bitOr => bitwise op dst lhs rhs
  | .compare c => compare c dst lhs rhs
  | .instanceOf | .memberOf => binaryStub op dst lhs rhs

/-- Conversion to a number; numbers pass through. -/
def toNumber (s : Stub) (dst src : Register) : Emit Unit := do
  let done ← newLabel
  load .rax src
  instr (.test .w64 .rax maskReg)
  jcc .ne done
  instr (.mov .w64 .rsi .rax)
  callStub s
  bind done
  storeResult dst

/-- Negation. Zero and the least integer are left to the stub. -/
def negate (dst src : Register) : Emit Unit := do
  let slow ← newLabel
  let done ← newLabel
  load .rax src
  guardInt32 .rax slow
  instr (.test .w32 .rax .rax)
  jcc .e slow
  instr (.aluImm .cmp .w32 .rax Int32.minValue)
  jcc .e slow
  instr (.neg32 .rax)
  boxInt32 .rax
  jmp done
  finishSlow slow done (do reload .rsi src; callStub .unaryNegative) dst

/-- Logical not; booleans flip inline. -/
def not (dst src : Register) : Emit Unit := do
  let slow ← newLabel
  let done ← newLabel
  load .rax src
  instrs [.mov .w64 .rcx .rax, .aluImm .and .w64 .rcx (-2), .aluImm .cmp .w64 .rcx 6]
  jcc .ne slow
  instr (.aluImm .xor .w64 .rax 1)
  jmp done
  finishSlow slow done (do reload .rsi src; callStub .unaryNot) dst

/-- Bitwise not. -/
def bitNot (dst src : Register) : Emit Unit := do
  let slow ← newLabel
  let done ← newLabel
  load .rax src
  guardInt32 .rax slow
  instr (.not32 .rax)
  boxInt32 .rax
  jmp done
  finishSlow slow done (do reload .rsi src; callStub .unaryBitNot) dst

/-- An operator that a stub does alone. -/
def unaryStub (s : Stub) (dst src : Register) : Emit Unit := do
  load .rsi src
  callStub s
  storeResult dst

/-- Add `delta` to the integer in the accumulator and jump to `done` with the boxed result. -/
def addDelta (delta : Int32) (done : Label) : Emit Unit := do
  let overflow ← newLabel
  instr (.mov .w32 .rcx .rax)
  instr (.aluImm .add .w32 .rcx delta)
  jcc .o overflow
  instr (.mov .w32 .rax .rcx)
  boxInt32 .rax
  jmp done
  bind overflow
  instr (.movsxd .rcx .rax)
  instr (.aluImm .add .w64 .rcx delta)
  boxDouble .rcx
  jmp done

/-- What a step adds. -/
def stepDelta (s : Step) : Int32 := if s.decrement then -1 else 1

/-- The stub of a step. -/
def stepStub (s : Step) : Stub := if s.decrement then .decrement else .increment

/-- Increment or decrement a register in place. -/
def stepInPlace (s : Step) (r : Register) : Emit Unit := do
  let slow ← newLabel
  let done ← newLabel
  load .rax r
  guardInt32 .rax slow
  addDelta (stepDelta s) done
  finishSlow slow done (do reload .rsi r; callStub (stepStub s)) r

/-- Put a register's number into `dst` and step the register. When both are the same register, it
keeps its old number. -/
def stepKeeping (s : Step) (dst src : Register) : Emit Unit := do
  if dst = src then toNumber .toNumber dst src
  else
    let slow ← newLabel
    let done ← newLabel
    load .rax src
    guardInt32 .rax slow
    store dst .rax
    addDelta (stepDelta s) done
    let path : Emit Unit := do
      reload .rsi src
      callStub .toNumber
      store dst .rax
      instr (.mov .w64 .rsi .rax)
      callStub (stepStub s)
    finishSlow slow done path src

/-- Conversion to a string; strings pass through. -/
def toPrimitiveString (dst src : Register) : Emit Unit := do
  let done ← newLabel
  load .rax src
  instrs [.movImm64 .rcx (Value.numberMask ||| 0xf), .alu .and .w64 .rcx .rax,
    .aluImm .cmp .w64 .rcx 8]
  jcc .e done
  instr (.mov .w64 .rsi .rax)
  callStub .toPrimitiveString
  bind done
  storeResult dst

/-- Concatenation of `count` registers from `start` on. -/
def concat (dst start : Register) (count : UInt32) : Emit Unit := do
  registerAddress .rsi start
  immediate .rdx count
  callStub .concat
  storeResult dst

end RegisterJit.Emit
