import RegisterJit.Codec.LittleEndian

/-!
# Machine instructions

The part of the x86-64 instruction set that compiled code uses: moves, integer arithmetic of 32 and
64 bits, conditions, calls and jumps, and the conversion of integers to doubles.

The instructions are those that the compiler uses, with operands in the few forms that it needs.
`X86.Encode` and `X86.Decode` relate them to bytes, and `X86.Cpu` says what they do.
-/

namespace RegisterJit.X86

/-- A general register by its number, an octet of which the registers that exist use the values
below sixteen. -/
structure Reg where
  num : UInt8
  deriving DecidableEq, Repr, Inhabited

namespace Reg

def rax : Reg := ⟨0⟩
def rcx : Reg := ⟨1⟩
def rdx : Reg := ⟨2⟩
def rbx : Reg := ⟨3⟩
def rsp : Reg := ⟨4⟩
def rbp : Reg := ⟨5⟩
def rsi : Reg := ⟨6⟩
def rdi : Reg := ⟨7⟩
def r8 : Reg := ⟨8⟩
def r9 : Reg := ⟨9⟩
def r10 : Reg := ⟨10⟩
def r11 : Reg := ⟨11⟩
def r12 : Reg := ⟨12⟩
def r13 : Reg := ⟨13⟩
def r14 : Reg := ⟨14⟩
def r15 : Reg := ⟨15⟩

/-- The register with a number, taken modulo an octet. -/
def ofInt (i : Int) : Reg := ⟨UInt8.ofInt i⟩

/-- Whether the number needs more than three bits. -/
def extended (r : Reg) : Bool := 8 ≤ r.num

/-- The three low bits of the number. -/
def low (r : Reg) : Nat := r.num.toNat % 8

/-- The register that instructions naming `r` act on: they hold its three low bits, and a fourth
that tells whether there is more. -/
def slot (r : Reg) : Fin 16 :=
  ⟨(r.low + if r.extended then 8 else 0) % 16, Nat.mod_lt _ (by decide)⟩

end Reg

/-- A vector register by its number; only its low 64 bits matter here. -/
structure Xmm where
  num : UInt8
  deriving DecidableEq, Repr, Inhabited

namespace Xmm

def x0 : Xmm := ⟨0⟩

/-- The register with a number, taken modulo an octet. -/
def ofInt (i : Int) : Xmm := ⟨UInt8.ofInt i⟩

/-- The general register with the same number, for encoding. -/
def toReg (x : Xmm) : Reg := ⟨x.num⟩

end Xmm

/-- A condition code, an octet of which the codes that exist use the values below sixteen. Codes
come in pairs: the odd one is the opposite of the even one before it. -/
structure Cond where
  num : UInt8
  deriving DecidableEq, Repr, Inhabited

namespace Cond

/-- Overflow. -/
def o : Cond := ⟨0⟩
def no : Cond := ⟨1⟩

/-- Unsigned below. -/
def b : Cond := ⟨2⟩
def ae : Cond := ⟨3⟩
def e : Cond := ⟨4⟩
def ne : Cond := ⟨5⟩
def be : Cond := ⟨6⟩

/-- Unsigned above. -/
def a : Cond := ⟨7⟩
def s : Cond := ⟨8⟩
def ns : Cond := ⟨9⟩
def p : Cond := ⟨10⟩
def np : Cond := ⟨11⟩

/-- Signed less. -/
def l : Cond := ⟨12⟩
def ge : Cond := ⟨13⟩
def le : Cond := ⟨14⟩

/-- Signed greater. -/
def g : Cond := ⟨15⟩

/-- The condition with a number, taken modulo an octet. -/
def ofInt (i : Int) : Cond := ⟨UInt8.ofInt i⟩

/-- The opposite condition. -/
def invert (c : Cond) : Cond := ⟨c.num ^^^ 1⟩

end Cond

/-- Operand size of an integer operation. A 32-bit operation clears the high half of its
destination. -/
inductive Width
  | w32
  | w64
  deriving DecidableEq, Repr

/-- The two-operand integer operations. -/
inductive AluOp
  | add | or | and | sub | xor | cmp
  deriving DecidableEq, Repr

/-- The 32-bit shifts by the low byte of `rcx`. -/
inductive ShiftOp
  | shl | shr | sar
  deriving DecidableEq, Repr

/-- One machine instruction. Jumps and calls hold the displacement from their end. -/
inductive Instr
  | mov (w : Width) (dst src : Reg)
  | movImm64 (dst : Reg) (imm : UInt64)
  /-- Load a 32-bit immediate, clearing the high half. -/
  | movImm32 (dst : Reg) (imm : UInt32)
  /-- Load a 32-bit immediate with its sign. -/
  | movImmSigned (dst : Reg) (imm : Int32)
  | load (dst base : Reg) (disp : Int32)
  | store (base : Reg) (disp : Int32) (src : Reg)
  | lea (dst base : Reg) (disp : Int32)
  | alu (op : AluOp) (w : Width) (dst src : Reg)
  | aluImm (op : AluOp) (w : Width) (dst : Reg) (imm : Int32)
  | test (w : Width) (left right : Reg)
  | imul (w : Width) (dst src : Reg)
  | neg32 (dst : Reg)
  | not32 (dst : Reg)
  | shift32 (op : ShiftOp) (dst : Reg)
  | rol (dst : Reg) (count : UInt8)
  | cdq
  | idiv32 (src : Reg)
  | movsxd (dst src : Reg)
  | movzx8 (dst src : Reg)
  | setcc (c : Cond) (dst : Reg)
  | cmov (c : Cond) (dst src : Reg)
  | cvtsi2sd (dst : Xmm) (src : Reg)
  | movqFrom (dst : Reg) (src : Xmm)
  | movqTo (dst : Xmm) (src : Reg)
  | jmp (rel : Int32)
  | jcc (c : Cond) (rel : Int32)
  | call (rel : Int32)
  | jmpReg (target : Reg)
  | callReg (target : Reg)
  | callMem (base : Reg) (disp : Int32)
  | ret
  | push (src : Reg)
  | pop (dst : Reg)
  | nop
  | ud2
  deriving DecidableEq, Repr

end RegisterJit.X86
