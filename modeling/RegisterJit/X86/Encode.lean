import RegisterJit.Codec.LittleEndian
import RegisterJit.X86.Instr

/-!
# Encoding instructions

The bytes of each instruction. Displacements and immediates take one byte when they fit. A base of
`rsp` or `r12` needs an index byte, and one of `rbp` or `r13` always a displacement.

The choice among forms with short and long displacements and immediates is made here.
`Proofs.Decoding` shows that decoding gives the instruction back, so that the processor, which sees
bytes only, executes what was written.
-/

namespace RegisterJit.X86

/-- The bytes of a 32-bit immediate. -/
def imm32 (i : UInt32) : List UInt8 := LittleEndian.encode 4 i.toNat

/-- The bytes of a 64-bit immediate. -/
def imm64 (i : UInt64) : List UInt8 := LittleEndian.encode 8 i.toNat

/-- Whether a number fits a signed byte. -/
def fitsByte (i : Int32) : Bool := -128 ≤ i.toInt && i.toInt ≤ 127

/-- The byte of a number that fits one. -/
def imm8 (i : Int32) : UInt8 := i.toUInt32.toUInt8

/-- The prefix `0100WR0B`. -/
def rexByte (wide reg rm : Bool) : UInt8 :=
  0x40 ||| (if wide then 8 else 0) ||| (if reg then 4 else 0) ||| (if rm then 1 else 0)

/-- The prefix of a 64-bit operation. -/
def rexWide (reg rm : Reg) : UInt8 := rexByte true reg.extended rm.extended

/-- The prefix of a 32-bit operation, which is left out when it says nothing. -/
def rexNarrow (reg rm : Reg) : List UInt8 :=
  if reg.extended || rm.extended then [rexByte false reg.extended rm.extended] else []

/-- The prefix for a width. -/
def rex (w : Width) (reg rm : Reg) : List UInt8 :=
  match w with
  | .w64 => [rexWide reg rm]
  | .w32 => rexNarrow reg rm

/-- The byte of mode, register field and operand field. -/
def modRM (mode : Nat) (reg rm : Nat) : UInt8 := (mode * 64 + reg * 8 + rm).toUInt8

/-- A register operand. -/
def direct (reg : Nat) (rm : Reg) : UInt8 := modRM 3 reg rm.low

/-- A memory operand: base and displacement. -/
def memory (reg : Nat) (base : Reg) (disp : Int32) : List UInt8 :=
  let index : List UInt8 := if base = .rsp ∨ base = .r12 then [0x24] else []
  if disp = 0 ∧ base ≠ .rbp ∧ base ≠ .r13 then modRM 0 reg base.low :: index
  else if fitsByte disp then modRM 1 reg base.low :: (index ++ [imm8 disp])
  else modRM 2 reg base.low :: (index ++ imm32 disp.toUInt32)

/-- The digit of an operation in its opcode group. -/
def AluOp.digit : AluOp → Nat
  | .add => 0
  | .or => 1
  | .and => 4
  | .sub => 5
  | .xor => 6
  | .cmp => 7

/-- The opcode of an operation between registers. -/
def AluOp.opcode (op : AluOp) : UInt8 := (op.digit * 8 + 1).toUInt8

/-- The digit of a shift in its opcode group. -/
def ShiftOp.digit : ShiftOp → Nat
  | .shl => 4
  | .shr => 5
  | .sar => 7

/-- No register in the register field. -/
def Reg.none : Reg := ⟨0⟩

/-- The bytes of an instruction. -/
def Instr.encode : Instr → List UInt8
  | .mov w dst src => rex w src dst ++ [0x89, direct src.low dst]
  | .movImm64 dst imm => [rexWide .none dst, 0xb8 + dst.low.toUInt8] ++ imm64 imm
  | .movImm32 dst imm => rexNarrow .none dst ++ [0xb8 + dst.low.toUInt8] ++ imm32 imm
  | .movImmSigned dst imm => [rexWide .none dst, 0xc7, direct 0 dst] ++ imm32 imm.toUInt32
  | .load dst base disp => [rexWide dst base, 0x8b] ++ memory dst.low base disp
  | .store base disp src => [rexWide src base, 0x89] ++ memory src.low base disp
  | .lea dst base disp => [rexWide dst base, 0x8d] ++ memory dst.low base disp
  | .alu op w dst src => rex w src dst ++ [op.opcode, direct src.low dst]
  | .aluImm op w dst imm =>
    rex w .none dst ++
      if fitsByte imm then [0x83, direct op.digit dst, imm8 imm]
      else [0x81, direct op.digit dst] ++ imm32 imm.toUInt32
  | .test w left right => rex w right left ++ [0x85, direct right.low left]
  | .imul w dst src => rex w dst src ++ [0x0f, 0xaf, direct dst.low src]
  | .neg32 dst => rexNarrow .none dst ++ [0xf7, direct 3 dst]
  | .not32 dst => rexNarrow .none dst ++ [0xf7, direct 2 dst]
  | .shift32 op dst => rexNarrow .none dst ++ [0xd3, direct op.digit dst]
  | .rol dst count => [rexWide .none dst, 0xc1, direct 0 dst, count]
  | .cdq => [0x99]
  | .idiv32 src => rexNarrow .none src ++ [0xf7, direct 7 src]
  | .movsxd dst src => [rexWide dst src, 0x63, direct dst.low src]
  | .movzx8 dst src => [rexWide dst src, 0x0f, 0xb6, direct dst.low src]
  | .setcc c dst =>
    (if 4 ≤ dst.num then [rexByte false false dst.extended] else []) ++
      [0x0f, 0x90 ||| c.num, direct 0 dst]
  | .cmov c dst src => [rexWide dst src, 0x0f, 0x40 ||| c.num, direct dst.low src]
  | .cvtsi2sd dst src => [0xf2, rexWide dst.toReg src, 0x0f, 0x2a, direct dst.toReg.low src]
  | .movqFrom dst src => [0x66, rexWide src.toReg dst, 0x0f, 0x7e, direct src.toReg.low dst]
  | .movqTo dst src => [0x66, rexWide dst.toReg src, 0x0f, 0x6e, direct dst.toReg.low src]
  | .jmp rel => 0xe9 :: imm32 rel.toUInt32
  | .jcc c rel => [0x0f, 0x80 ||| c.num] ++ imm32 rel.toUInt32
  | .call rel => 0xe8 :: imm32 rel.toUInt32
  | .jmpReg target => rexNarrow .none target ++ [0xff, direct 4 target]
  | .callReg target => rexNarrow .none target ++ [0xff, direct 2 target]
  | .callMem base disp => rexNarrow .none base ++ [0xff] ++ memory 2 base disp
  | .ret => [0xc3]
  | .push src => rexNarrow .none src ++ [0x50 + src.low.toUInt8]
  | .pop dst => rexNarrow .none dst ++ [0x58 + dst.low.toUInt8]
  | .nop => [0x90]
  | .ud2 => [0x0f, 0x0b]

/-- The instruction that loads a 64-bit constant in the fewest bytes. -/
def Instr.movValue (dst : Reg) (v : UInt64) : Instr :=
  if v.toNat ≤ 0xffffffff then .movImm32 dst v.toUInt32
  else if -(2 ^ 31) ≤ v.toInt64.toInt ∧ v.toInt64.toInt < 2 ^ 31 then
    .movImmSigned dst v.toUInt32.toInt32
  else .movImm64 dst v

end RegisterJit.X86
