import RegisterJit.Bytecode.Code

/-!
# Instruction streams

A word sequence read as instructions. Reading stops at the first word that is no opcode and at an
instruction that is cut short. Jump targets are computed modulo `2 ^ 32`.

Validation, scanning for jump targets, compiling and printing all go through the instructions that
are read here, so that they agree on where instructions start. `Proofs.Words` describes streams by
their opcodes instead, and shows that reading a stream with these opcodes gives them back whatever
the operands are.
-/

namespace RegisterJit

/-- An instruction at its place in a stream. -/
structure Instruction where
  offset : Nat
  opcode : Opcode
  /-- The opcode word and the operand words. -/
  words : List Word

namespace Instruction

/-- Operand word `i`, counted from zero. -/
def operand (ins : Instruction) (i : Nat) : Word := ins.words.getD (i + 1) 0

/-- An operand as a register. -/
def reg (ins : Instruction) (i : Nat) : Register := Word.reg (ins.operand i)

/-- An operand as an unsigned integer. -/
def u32 (ins : Instruction) (i : Nat) : UInt32 := Word.u32 (ins.operand i)

/-- An operand as a signed integer. -/
def i32 (ins : Instruction) (i : Nat) : Int32 := Word.i32 (ins.operand i)

/-- The word offset that the instruction jumps to, if it is a jump. -/
def target? (ins : Instruction) : Option UInt32 :=
  ins.opcode.jumpOperand?.map fun i => ins.offset.toUInt32 + (ins.i32 i).toUInt32

/-- Where the next instruction starts. -/
def next (ins : Instruction) : Nat := ins.offset + ins.opcode.length

/-- The operands with their kinds. -/
def operands (ins : Instruction) : List (OperandKind × Word) :=
  ins.opcode.format.zip (ins.words.drop 1)

end Instruction

/-- Why a stream cannot be read further. -/
inductive StreamFault
  /-- The low sixteen bits of the word name no opcode. -/
  | badOpcode (offset : Nat) (word : Word)
  /-- The operands of the instruction run past the end. -/
  | cutShort (offset : Nat) (opcode : Opcode)

namespace Stream

/-- The instruction that starts at word `pos`. -/
def readOne (data : Array Word) (pos : Nat) : Except StreamFault Instruction :=
  let word := data.getD pos 0
  match Word.opcode? word with
  | none => .error (.badOpcode pos word)
  | some op =>
    if data.size < pos + op.length then .error (.cutShort pos op)
    else .ok ⟨pos, op, (data.extract pos (pos + op.length)).toList⟩

set_option maxRecDepth 3000 in
/-- The instructions from word `pos` on, and the fault that ends them, if any. -/
def readFrom (data : Array Word) (pos : Nat) : List Instruction × Option StreamFault :=
  if _h : pos < data.size then
    match readOne data pos with
    | .error fault => ([], some fault)
    | .ok ins =>
      let rest := readFrom data (pos + ins.opcode.length)
      (ins :: rest.1, rest.2)
  else ([], none)
termination_by data.size - pos
decreasing_by
  exact Nat.sub_lt_sub_left _h (Nat.lt_add_of_pos_right ins.opcode.length_pos)

/-- All instructions of a stream, and the fault that ends them, if any. -/
def read (data : Array Word) : List Instruction × Option StreamFault := readFrom data 0

/-- The instructions of a stream up to its fault. -/
def instructions (data : Array Word) : List Instruction := (read data).1

end Stream

end RegisterJit
