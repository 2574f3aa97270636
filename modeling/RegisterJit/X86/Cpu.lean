import RegisterJit.Number.Double
import RegisterJit.X86.Instr
import Std.Data.HashMap

/-!
# The meaning of instructions

What an instruction does to registers, flags and memory. Memory is a map of 64-bit words: every
access of this instruction set reads or writes a whole word, and words that are used never overlap.
Flags that the architecture leaves undefined keep their values.

A step fetches the instruction at the current address through the decoder, so that running code
depends on bytes alone. What a single instruction does is a function of registers, flags and memory;
`Proofs.Execution` and `Proofs.Following` lift it to symbolic code. Leaving for the host is an
address with no code behind it.
-/

namespace RegisterJit.X86

/-- The condition flags. -/
structure Flags where
  carry : Bool
  parity : Bool
  zero : Bool
  sign : Bool
  overflow : Bool
  deriving DecidableEq, Repr, Inhabited

/-- Memory as words at addresses; a word never written is zero. -/
abbrev Memory := Std.HashMap UInt64 UInt64

namespace Memory

/-- No memory written yet. -/
def blank : Memory := (∅ : Std.HashMap UInt64 UInt64)

/-- The word at an address. -/
def read (m : Memory) (address : UInt64) : UInt64 := m.getD address 0

/-- Put a word at an address. -/
def write (m : Memory) (address word : UInt64) : Memory := m.insert address word

end Memory

/-- The state of the processor. -/
structure Cpu where
  regs : Vector UInt64 16
  /-- The low halves of the vector registers. -/
  xmm : Vector UInt64 16
  flags : Flags
  memory : Memory
  /-- The address of the next instruction. -/
  rip : UInt64

namespace Width

/-- The low bits of a word that belong to the width. -/
def clip (w : Width) (x : UInt64) : UInt64 :=
  match w with
  | .w32 => x &&& 0xffffffff
  | .w64 => x

/-- Whether the sign bit of the width is set. -/
def isNegative (w : Width) (x : UInt64) : Bool :=
  match w with
  | .w32 => x &&& 0x80000000 != 0
  | .w64 => x &&& 0x8000000000000000 != 0

/-- The signed number of the width. -/
def toInt (w : Width) (x : UInt64) : Int :=
  match w with
  | .w32 => x.toUInt32.toBitVec.toInt
  | .w64 => x.toBitVec.toInt

/-- The word of a number modulo the width. -/
def ofInt (w : Width) (i : Int) : UInt64 := w.clip (UInt64.ofInt i)

end Width

/-- A displacement as a word to add to an address. -/
def displacementWord (d : Int32) : UInt64 := d.toInt64.toUInt64

namespace Flags

/-- Whether the low octet has an even number of ones. -/
def evenParity (x : UInt64) : Bool :=
  let b := x ^^^ (x >>> 4)
  let b := b ^^^ (b >>> 2)
  let b := b ^^^ (b >>> 1)
  b &&& 1 == 0

/-- The flags that a result determines. -/
def ofResult (w : Width) (r : UInt64) (carry overflow : Bool) : Flags :=
  ⟨carry, evenParity r, r == 0, w.isNegative r, overflow⟩

/-- The flags after an addition of `a` and `b` with the sum `r`. -/
def ofSum (w : Width) (a b r : UInt64) : Flags :=
  ofResult w r (r < a) (w.isNegative ((a ^^^ r) &&& (b ^^^ r)))

/-- The flags after a subtraction of `b` from `a` with the difference `r`. -/
def ofDifference (w : Width) (a b r : UInt64) : Flags :=
  ofResult w r (a < b) (w.isNegative ((a ^^^ b) &&& (a ^^^ r)))

/-- The flags after a bitwise operation. -/
def ofBits (w : Width) (r : UInt64) : Flags := ofResult w r false false

end Flags

/-- Whether a condition holds. -/
def Cond.holds (c : Cond) (f : Flags) : Bool :=
  let even :=
    match c.num.toNat % 16 / 2 with
    | 0 => f.overflow
    | 1 => f.carry
    | 2 => f.zero
    | 3 => f.carry || f.zero
    | 4 => f.sign
    | 5 => f.parity
    | 6 => f.sign != f.overflow
    | _ => f.zero || f.sign != f.overflow
  if c.num &&& 1 = 0 then even else !even

namespace Cpu

/-- A processor with all registers zero. -/
def blank : Cpu :=
  ⟨Vector.replicate 16 0, Vector.replicate 16 0, default, Memory.blank, 0⟩

/-- The content of a register. -/
def reg (c : Cpu) (r : Reg) : UInt64 := c.regs[r.slot]

/-- Set a register. -/
def setReg (c : Cpu) (r : Reg) (x : UInt64) : Cpu := { c with regs := c.regs.set r.slot x }

/-- Set the low half of a vector register. -/
def setXmm (c : Cpu) (r : Xmm) (x : UInt64) : Cpu := { c with xmm := c.xmm.set r.toReg.slot x }

/-- Set the flags. -/
def setFlags (c : Cpu) (f : Flags) : Cpu := { c with flags := f }

/-- Continue at an address. -/
def jump (c : Cpu) (target : UInt64) : Cpu := { c with rip := target }

/-- The address of an operand in memory. -/
def address (c : Cpu) (base : Reg) (disp : Int32) : UInt64 :=
  c.reg base + displacementWord disp

/-- The word at an address. -/
def read (c : Cpu) (address : UInt64) : UInt64 := c.memory.read address

/-- Write a word at an address. -/
def write (c : Cpu) (address word : UInt64) : Cpu :=
  { c with memory := c.memory.write address word }

/-- Push a word. -/
def push (c : Cpu) (word : UInt64) : Cpu :=
  let sp := c.reg .rsp - 8
  (c.setReg .rsp sp).write sp word

/-- The word on top of the stack, and the state without it. -/
def pop (c : Cpu) : UInt64 × Cpu :=
  let sp := c.reg .rsp
  (c.read sp, c.setReg .rsp (sp + 8))

/-- A two-operand integer operation; a comparison leaves its destination alone. -/
def alu (c : Cpu) (op : AluOp) (w : Width) (dst : Reg) (b : UInt64) : Cpu :=
  let a := w.clip (c.reg dst)
  let b := w.clip b
  match op with
  | .add =>
    let r := w.clip (a + b)
    (c.setReg dst r).setFlags (.ofSum w a b r)
  | .sub =>
    let r := w.clip (a - b)
    (c.setReg dst r).setFlags (.ofDifference w a b r)
  | .cmp => c.setFlags (.ofDifference w a b (w.clip (a - b)))
  | .and => (c.setReg dst (a &&& b)).setFlags (.ofBits w (a &&& b))
  | .or => (c.setReg dst (a ||| b)).setFlags (.ofBits w (a ||| b))
  | .xor => (c.setReg dst (a ^^^ b)).setFlags (.ofBits w (a ^^^ b))

/-- A signed product. Only overflow and carry are defined; both tell that it does not fit. -/
def multiply (c : Cpu) (w : Width) (dst src : Reg) : Cpu :=
  let product := w.toInt (c.reg dst) * w.toInt (c.reg src)
  let r := w.ofInt product
  let lost := w.toInt r != product
  (c.setReg dst r).setFlags { c.flags with carry := lost, overflow := lost }

/-- A 32-bit shift by the low five bits of `rcx`; a shift by zero leaves the flags alone. -/
def shift (c : Cpu) (op : ShiftOp) (dst : Reg) : Cpu :=
  let a := (c.reg dst).toUInt32
  let count := (c.reg .rcx).toUInt32 &&& 31
  let r :=
    match op with
    | .shl => a <<< count
    | .shr => a >>> count
    | .sar => (a.toInt32 >>> count.toInt32).toUInt32
  let out :=
    match op with
    | .shl => (a >>> (32 - count)) &&& 1 == 1
    | .shr => (a >>> (count - 1)) &&& 1 == 1
    | .sar => (a.toInt32 >>> (count - 1).toInt32).toUInt32 &&& 1 == 1
  let c' := c.setReg dst r.toUInt64
  if count = 0 then c' else c'.setFlags (.ofResult .w32 r.toUInt64 out c.flags.overflow)

/-- A signed division of `edx:eax` toward zero. A quotient that does not fit is a fault, and so is a
divisor of zero. -/
def divide (c : Cpu) (src : Reg) : Option Cpu :=
  let divisor := Width.toInt .w32 (c.reg src)
  let dividend :=
    Width.toInt .w64 ((c.reg .rdx).toUInt32.toUInt64 <<< 32 ||| (c.reg .rax).toUInt32.toUInt64)
  if divisor = 0 then none
  else
    let quotient := dividend.tdiv divisor
    if quotient < -2 ^ 31 ∨ 2 ^ 31 ≤ quotient then none
    else
      let c := c.setReg .rax (Width.ofInt .w32 quotient)
      some (c.setReg .rdx (Width.ofInt .w32 (dividend.tmod divisor)))

/-- Rotate a word to the left. -/
def rotateLeft (x : UInt64) (count : UInt8) : UInt64 :=
  let n := count.toUInt64 &&& 63
  if n = 0 then x else x <<< n ||| x >>> (64 - n)

/-- Execute an instruction; `next` is the address after it. There is no state after a fault. -/
def execute (c : Cpu) (next : UInt64) (i : Instr) : Option Cpu :=
  let c := c.jump next
  match i with
  | .mov w dst src => some (c.setReg dst (w.clip (c.reg src)))
  | .movImm64 dst imm => some (c.setReg dst imm)
  | .movImm32 dst imm => some (c.setReg dst imm.toUInt64)
  | .movImmSigned dst imm => some (c.setReg dst (displacementWord imm))
  | .load dst base disp => some (c.setReg dst (c.read (c.address base disp)))
  | .store base disp src => some (c.write (c.address base disp) (c.reg src))
  | .lea dst base disp => some (c.setReg dst (c.address base disp))
  | .alu op w dst src => some (c.alu op w dst (c.reg src))
  | .aluImm op w dst imm => some (c.alu op w dst (displacementWord imm))
  | .test w left right =>
    some (c.setFlags (.ofBits w (w.clip (c.reg left &&& c.reg right))))
  | .imul w dst src => some (c.multiply w dst src)
  | .neg32 dst =>
    let a := Width.clip .w32 (c.reg dst)
    let r := Width.clip .w32 (0 - a)
    some ((c.setReg dst r).setFlags (.ofDifference .w32 0 a r))
  | .not32 dst => some (c.setReg dst (Width.clip .w32 (~~~c.reg dst)))
  | .shift32 op dst => some (c.shift op dst)
  | .rol dst count =>
    let r := rotateLeft (c.reg dst) count
    some ((c.setReg dst r).setFlags { c.flags with carry := r &&& 1 == 1 })
  | .cdq =>
    some (c.setReg .rdx (if Width.isNegative .w32 (c.reg .rax) then 0xffffffff else 0))
  | .idiv32 src => c.divide src
  | .movsxd dst src => some (c.setReg dst (c.reg src).toUInt32.toInt32.toInt64.toUInt64)
  | .movzx8 dst src => some (c.setReg dst (c.reg src &&& 0xff))
  | .setcc cond dst =>
    let bit : UInt64 := if cond.holds c.flags then 1 else 0
    some (c.setReg dst (c.reg dst &&& ~~~(0xff : UInt64) ||| bit))
  | .cmov cond dst src => some (if cond.holds c.flags then c.setReg dst (c.reg src) else c)
  | .cvtsi2sd dst src => some (c.setXmm dst (Double.ofInt (Width.toInt .w64 (c.reg src))).bits)
  | .movqFrom dst src => some (c.setReg dst c.xmm[src.toReg.slot])
  | .movqTo dst src => some (c.setXmm dst (c.reg src))
  | .jmp rel => some (c.jump (next + displacementWord rel))
  | .jcc cond rel =>
    some (if cond.holds c.flags then c.jump (next + displacementWord rel) else c)
  | .call rel => some ((c.push next).jump (next + displacementWord rel))
  | .jmpReg target => some (c.jump (c.reg target))
  | .callReg target =>
    let entry := c.reg target
    some ((c.push next).jump entry)
  | .callMem base disp =>
    let entry := c.read (c.address base disp)
    some ((c.push next).jump entry)
  | .ret =>
    let (target, c) := c.pop
    some (c.jump target)
  | .push src => some (c.push (c.reg src))
  | .pop dst =>
    let (x, c) := c.pop
    some (c.setReg dst x)
  | .nop => some c
  | .ud2 => none

end Cpu

end RegisterJit.X86
