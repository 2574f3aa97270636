import RegisterJit.Bytecode.Opcode

/-!
# Instruction words

An instruction is an opcode word followed by one word for each operand. Registers and immediates use
the low half of a word; a packed operand has a register in each of the two low quarters and a number
in the high half.

Words of 64 bits hold operands of at most 32 bits and registers of 16, so writing an operand and
reading it back loses what does not fit; `Proofs.Restating` and `Proofs.Arguments` say which
operands are kept. Whether a word is an opcode is decided by its low sixteen bits, and validation
refuses those with other bits.
-/

namespace RegisterJit

/-- A frame slot. Registers from zero on stand after the frame header, the receiver and the
arguments below it. -/
structure Register where
  index : Int32
  deriving DecidableEq, Inhabited, Repr

namespace Register

/-- The receiver. -/
def this : Register := ⟨-1⟩

/-- No register. -/
def invalid : Register := ⟨Int32.minValue⟩

/-- The register of argument `i`. -/
def arg (i : Int) : Register := ⟨Int32.ofInt (-2 - i)⟩

/-- The register with number `i`. -/
def ofNat (i : Nat) : Register := ⟨Int32.ofInt i⟩

/-- How a register is written. -/
def text (r : Register) : Text :=
  if r = invalid then "r?"
  else if r = this then "this"
  else if r.index.toInt < 0 then Text.ofString "a" ++ Text.ofInt (-2 - r.index.toInt)
  else Text.ofString "r" ++ Text.ofInt r.index.toInt

end Register

/-- One word of an instruction stream. -/
abbrev Word := UInt64

namespace Word

/-- The word of a signed 32-bit number. -/
def ofInt32 (i : Int32) : Word := i.toUInt32.toUInt64

/-- The word of an unsigned 32-bit number. -/
def ofUInt32 (u : UInt32) : Word := u.toUInt64

/-- The word of a register. -/
def ofRegister (r : Register) : Word := ofInt32 r.index

/-- The word of an opcode. -/
def ofOpcode (op : Opcode) : Word := op.toNat.toUInt64

/-- Two registers, cut to sixteen bits, and a number in one word. -/
def pack (a b : Register) (c : UInt32) : Word :=
  a.index.toUInt32.toUInt16.toUInt64 ||| b.index.toUInt32.toUInt16.toUInt64 <<< 16 |||
    c.toUInt64 <<< 32

/-- The number in the low sixteen bits. -/
def opcodeNumber (w : Word) : Nat := w.toNat % 65536

/-- The opcode that the low sixteen bits name. -/
def opcode? (w : Word) : Option Opcode := Opcode.ofNat? (opcodeNumber w)

/-- The unsigned number in the low half. -/
def u32 (w : Word) : UInt32 := w.toUInt32

/-- The signed number in the low half. -/
def i32 (w : Word) : Int32 := w.toUInt32.toInt32

/-- The register in the low half. -/
def reg (w : Word) : Register := ⟨i32 w⟩

/-- The register in a quarter of a packed word, sign extended. -/
def quarter (u : UInt16) : Register := ⟨u.toInt16.toInt32⟩

/-- The parts of a packed word. -/
def unpack (w : Word) : Register × Register × UInt32 :=
  (quarter w.toUInt16, quarter (w >>> 16).toUInt16, (w >>> 32).toUInt32)

end Word

end RegisterJit
