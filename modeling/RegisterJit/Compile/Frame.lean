import RegisterJit.Bytecode.Code
import RegisterJit.X86.Instr

/-!
# Frames and the machine context

Where compiled code finds things. A frame is a header of nine words with the registers after it, the
receiver just below it and the arguments below that. The context is a block of words shared between
compiled code and the machine that runs it.

These displacements are the interface between emitted code and the host. `Proofs.State` shows what
reads and writes through them leave alone, `Proofs.Frames` what a new frame holds, and every emitter
takes its offsets from here.
-/

namespace RegisterJit

open X86 (Reg)

/-! ## Registers with a fixed role -/

/-- Holds the machine context throughout a run. -/
def contextReg : Reg := .r13

/-- Holds the current frame. -/
def frameReg : Reg := .r12

/-- Holds `Value.numberMask`. -/
def maskReg : Reg := .r15

/-- The registers of a stub's arguments, in order. -/
def stubArgumentRegs : List Reg := [.rsi, .rdx, .rcx, .r8, .r9]

namespace Frame

/-! ## Words of the frame header, as displacements from the frame -/

/-- The caller's frame, zero for the outermost one. -/
def previous : Int32 := 0

/-- The number of the code. -/
def code : Int32 := 8

/-- The address at which the code starts. -/
def entry : Int32 := 16

/-- The function that was called. -/
def callee : Int32 := 24

/-- How many arguments were passed. -/
def argumentCount : Int32 := 32

/-- The stack pointer to go back to on return. -/
def argumentBase : Int32 := 40

/-- The lexical environment. -/
def lexicalEnv : Int32 := 48

/-- The variable environment. -/
def variableEnv : Int32 := 56

/-- Bit 0 is set in a frame made by a constructor call. -/
def flags : Int32 := 64

/-- The size of the header. -/
def headerSize : Int32 := 72

/-- The displacement of a register from the frame; there is none for no register. Arithmetic is
modulo `2 ^ 32`. -/
def registerOffset? (r : Register) : Option Int32 :=
  if r = Register.invalid then none
  else if r.index.toInt < 0 then some (r.index * 8)
  else some (headerSize + r.index * 8)

/-- The first byte past the registers of a frame with that many registers. -/
def limit (registerCount : UInt32) : Int32 := headerSize + registerCount.toInt32 * 8

end Frame

namespace Context

/-! ## Words of the context, as displacements from it -/

/-- The number of the stub that is called. -/
def stubId : Int32 := 0

/-- The first of the five argument words. -/
def arguments : Int32 := 8

/-- The stack pointer of compiled code while it is suspended. -/
def nativeSP : Int32 := 48

/-- The stack pointer of the host while compiled code runs. -/
def hostSP : Int32 := 56

/-- The base pointer of the host while compiled code runs. -/
def hostBP : Int32 := 64

/-- The words that keep registers while compiled code is suspended. -/
def savedRBX : Int32 := 72
def savedRBP : Int32 := 80
def savedR12 : Int32 := 88
def savedR14 : Int32 := 96
def savedR15 : Int32 := 104

/-- The first free byte of the register stack. -/
def stackPointer : Int32 := 112

/-- The end of the register stack. -/
def stackLimit : Int32 := 120

/-- What the outermost function returned. -/
def result : Int32 := 128

/-- The exception last delivered to a catch handler. -/
def exception : Int32 := 136

/-- How many words the context has. -/
def wordCount : Nat := 18

end Context

/-- The status with which compiled code leaves when it has returned. -/
def exitReturn : UInt32 := 0

/-- The status with which compiled code leaves to call a stub. -/
def exitStub : UInt32 := 1

/-- A reference from compiled code: an instruction of a code, or an entry of one of its tables. -/
def codeReference (id : UInt32) (index : UInt32) : UInt64 := id.toUInt64 <<< 32 ||| index.toUInt64

/-- The code and the index of a reference. -/
def splitReference (ref : UInt64) : UInt32 × UInt32 := ((ref >>> 32).toUInt32, ref.toUInt32)

/-- The completion that resumes after a finally block. -/
def finallyResume : UInt32 := 0

/-- The completion that throws after a finally block. -/
def finallyThrow : UInt32 := 1

end RegisterJit
