import RegisterJit.X86.Encode

/-!
# Decoding instructions

Reading instructions back from bytes: an optional mandatory prefix, an optional register prefix, the
opcode, and its operands. Only the forms that `Instr` has are recognised: an opcode whose operand
size or byte register is another one than the instruction has is not read as that instruction.

The decoder is written from the encoding of the processor and not from the encoder, and it is
partial: what the compiler never writes is not decoded. The processor of `X86.Cpu` fetches through
it, and so does the disassembly.
-/

namespace RegisterJit.X86

/-- A register prefix as read: 64-bit operands, the fourth bits of the two register fields, and
whether it was there at all. -/
structure Rex where
  wide : Bool
  reg : Bool
  rm : Bool
  given : Bool

namespace Rex

/-- No prefix. -/
def absent : Rex := ⟨false, false, false, false⟩

/-- A byte as a register prefix; an extended index register is not recognised. -/
def ofByte? (b : UInt8) : Option Rex :=
  if b &&& 0xf0 = 0x40 ∧ b &&& 2 = 0 then some ⟨b &&& 8 ≠ 0, b &&& 4 ≠ 0, b &&& 1 ≠ 0, true⟩
  else none

/-- The width that the prefix asks for. -/
def width (r : Rex) : Width := if r.wide then .w64 else .w32

/-- What is read when operands have 64 bits. -/
def ifWide {α : Type} (r : Rex) (x : Option α) : Option α := if r.wide then x else none

/-- What is read when operands have 32 bits. -/
def ifNarrow {α : Type} (r : Rex) (x : Option α) : Option α := if r.wide then none else x

/-- What is read when a register stands for its low byte: without a prefix the fields from four on
name the second bytes of the first registers. -/
def ifLowByte {α : Type} (rex : Rex) (r : Reg) (x : Option α) : Option α :=
  if rex.given || r.num < 4 then x else none

end Rex

/-- A register from its three low bits and its fourth. -/
def regOf (high : Bool) (low : Nat) : Reg := ⟨(low % 8 + if high then 8 else 0).toUInt8⟩

/-- The operand that mode and operand field describe. -/
inductive Operand
  | direct (r : Reg)
  | memory (base : Reg) (disp : Int32)

/-- Read a 32-bit immediate. -/
def readImm32 (bytes : List UInt8) : Option (UInt32 × List UInt8) :=
  match bytes with
  | a :: b :: c :: d :: rest => some ((LittleEndian.decode [a, b, c, d]).toUInt32, rest)
  | _ => none

/-- Read a 64-bit immediate. -/
def readImm64 (bytes : List UInt8) : Option (UInt64 × List UInt8) :=
  if bytes.length < 8 then none
  else some ((LittleEndian.decode (bytes.take 8)).toUInt64, bytes.drop 8)

/-- Read an immediate of one byte with its sign. -/
def readImm8 (bytes : List UInt8) : Option (Int32 × List UInt8) :=
  match bytes with
  | b :: rest => some (b.toInt8.toInt32, rest)
  | [] => none

/-- Read the operand byte and what belongs to it: the register field and the operand. -/
def readModRM (rex : Rex) (bytes : List UInt8) : Option (Nat × Operand × List UInt8) :=
  match bytes with
  | [] => none
  | m :: rest =>
    let mode := m.toNat / 64
    let reg := m.toNat / 8 % 8
    let rm := m.toNat % 8
    if mode = 3 then some (reg, .direct (regOf rex.rm rm), rest)
    else
      let afterIndex : Option (List UInt8) :=
        if rm = 4 then
          match rest with
          | s :: r => if s = 0x24 then some r else none
          | [] => none
        else some rest
      match afterIndex with
      | none => none
      | some rest =>
        let base := regOf rex.rm rm
        if mode = 0 then if rm = 5 then none else some (reg, .memory base 0, rest)
        else if mode = 1 then
          (readImm8 rest).map fun (d, rest) => (reg, .memory base d, rest)
        else (readImm32 rest).map fun (d, rest) => (reg, .memory base d.toInt32, rest)

/-- Read an operand that must be a register: the register field and the register. -/
def readDirect (rex : Rex) (bytes : List UInt8) : Option (Nat × Reg × List UInt8) :=
  match readModRM rex bytes with
  | some (reg, .direct r, rest) => some (reg, r, rest)
  | _ => none

/-- The operation with a digit. -/
def AluOp.ofDigit? (n : Nat) : Option AluOp :=
  match n with
  | 0 => some .add
  | 1 => some .or
  | 4 => some .and
  | 5 => some .sub
  | 6 => some .xor
  | 7 => some .cmp
  | _ => none

/-- The shift with a digit. -/
def ShiftOp.ofDigit? (n : Nat) : Option ShiftOp :=
  match n with
  | 4 => some .shl
  | 5 => some .shr
  | 7 => some .sar
  | _ => none

/-- Decode what follows the two-byte opcode escape. -/
def decodeEscape (mandatory : Option UInt8) (rex : Rex) (op : UInt8) (rest : List UInt8) :
    Option (Instr × List UInt8) :=
  match mandatory with
  | some 0xf2 =>
    if op = 0x2a then
      rex.ifWide <| (readDirect rex rest).map fun (reg, r, rest) =>
        (.cvtsi2sd ⟨(regOf rex.reg reg).num⟩ r, rest)
    else none
  | some 0x66 =>
    if op = 0x7e then
      rex.ifWide <| (readDirect rex rest).map fun (reg, r, rest) =>
        (.movqFrom r ⟨(regOf rex.reg reg).num⟩, rest)
    else if op = 0x6e then
      rex.ifWide <| (readDirect rex rest).map fun (reg, r, rest) =>
        (.movqTo ⟨(regOf rex.reg reg).num⟩ r, rest)
    else none
  | some _ => none
  | none =>
    if op = 0x0b then some (.ud2, rest)
    else if op = 0xaf then
      (readDirect rex rest).map fun (reg, r, rest) => (.imul rex.width (regOf rex.reg reg) r, rest)
    else if op = 0xb6 then
      rex.ifWide <| (readDirect rex rest).map fun (reg, r, rest) =>
        (.movzx8 (regOf rex.reg reg) r, rest)
    else if op &&& 0xf0 = 0x40 then
      rex.ifWide <| (readDirect rex rest).map fun (reg, r, rest) =>
        (.cmov ⟨op &&& 0x0f⟩ (regOf rex.reg reg) r, rest)
    else if op &&& 0xf0 = 0x80 then
      (readImm32 rest).map fun (i, rest) => (.jcc ⟨op &&& 0x0f⟩ i.toInt32, rest)
    else if op &&& 0xf0 = 0x90 then
      (readDirect rex rest).bind fun (_, r, rest) =>
        rex.ifLowByte r (some (.setcc ⟨op &&& 0x0f⟩ r, rest))
    else none

/-- Decode the opcode group of one operand. -/
def decodeUnary (digit : Nat) (r : Reg) (rest : List UInt8) : Option (Instr × List UInt8) :=
  match digit with
  | 2 => some (.not32 r, rest)
  | 3 => some (.neg32 r, rest)
  | 7 => some (.idiv32 r, rest)
  | _ => none

/-- Decode the opcode group of indirect jumps and calls. -/
def decodeIndirect (digit : Nat) (o : Operand) (rest : List UInt8) : Option (Instr × List UInt8) :=
  match digit, o with
  | 2, .direct r => some (.callReg r, rest)
  | 4, .direct r => some (.jmpReg r, rest)
  | 2, .memory base disp => some (.callMem base disp, rest)
  | _, _ => none

/-- Decode a one-byte opcode and its operands. -/
def decodeOpcode (rex : Rex) (op : UInt8) (rest : List UInt8) : Option (Instr × List UInt8) :=
  if op = 0x89 then
    match readModRM rex rest with
    | some (reg, .direct r, rest) => some (.mov rex.width r (regOf rex.reg reg), rest)
    | some (reg, .memory base disp, rest) =>
      rex.ifWide (some (.store base disp (regOf rex.reg reg), rest))
    | none => none
  else if op = 0x8b then
    match readModRM rex rest with
    | some (reg, .memory base disp, rest) =>
      rex.ifWide (some (.load (regOf rex.reg reg) base disp, rest))
    | _ => none
  else if op = 0x8d then
    match readModRM rex rest with
    | some (reg, .memory base disp, rest) =>
      rex.ifWide (some (.lea (regOf rex.reg reg) base disp, rest))
    | _ => none
  else if op = 0x63 then
    rex.ifWide <| (readDirect rex rest).map fun (reg, r, rest) => (.movsxd (regOf rex.reg reg) r, rest)
  else if op = 0x85 then
    (readDirect rex rest).map fun (reg, r, rest) => (.test rex.width r (regOf rex.reg reg), rest)
  else if op = 0x83 then
    (readDirect rex rest).bind fun (digit, r, rest) =>
      (AluOp.ofDigit? digit).bind fun a =>
        (readImm8 rest).map fun (i, rest) => (.aluImm a rex.width r i, rest)
  else if op = 0x81 then
    (readDirect rex rest).bind fun (digit, r, rest) =>
      (AluOp.ofDigit? digit).bind fun a =>
        (readImm32 rest).map fun (i, rest) => (.aluImm a rex.width r i.toInt32, rest)
  else if op = 0xf7 then
    rex.ifNarrow <| (readDirect rex rest).bind fun (digit, r, rest) => decodeUnary digit r rest
  else if op = 0xd3 then
    rex.ifNarrow <| (readDirect rex rest).bind fun (digit, r, rest) =>
      (ShiftOp.ofDigit? digit).map fun s => (.shift32 s r, rest)
  else if op = 0xc1 then
    rex.ifWide <| (readDirect rex rest).bind fun (digit, r, rest) =>
      match digit, rest with
      | 0, count :: rest => some (.rol r count, rest)
      | _, _ => none
  else if op = 0xc7 then
    rex.ifWide <| (readDirect rex rest).bind fun (digit, r, rest) =>
      if digit = 0 then (readImm32 rest).map fun (i, rest) => (.movImmSigned r i.toInt32, rest)
      else none
  else if op = 0xff then
    (readModRM rex rest).bind fun (digit, o, rest) => decodeIndirect digit o rest
  else if op = 0xe9 then (readImm32 rest).map fun (i, rest) => (.jmp i.toInt32, rest)
  else if op = 0xe8 then (readImm32 rest).map fun (i, rest) => (.call i.toInt32, rest)
  else if op = 0x99 then rex.ifNarrow (some (.cdq, rest))
  else if op = 0xc3 then some (.ret, rest)
  else if op = 0x90 then if rex.rm then none else some (.nop, rest)
  else if op &&& 0xf8 = 0x50 then some (.push (regOf rex.rm (op.toNat % 8)), rest)
  else if op &&& 0xf8 = 0x58 then some (.pop (regOf rex.rm (op.toNat % 8)), rest)
  else if op &&& 0xf8 = 0xb8 then
    let dst := regOf rex.rm (op.toNat % 8)
    if rex.wide then (readImm64 rest).map fun (i, rest) => (.movImm64 dst i, rest)
    else (readImm32 rest).map fun (i, rest) => (.movImm32 dst i, rest)
  else if op &&& 0xc7 = 0x01 then
    (AluOp.ofDigit? (op.toNat / 8)).bind fun a =>
      (readDirect rex rest).map fun (reg, r, rest) =>
        (.alu a rex.width r (regOf rex.reg reg), rest)
  else none

/-- Decode after the mandatory prefix and the register prefix. -/
def decodeBody (mandatory : Option UInt8) (rex : Rex) (bytes : List UInt8) :
    Option (Instr × List UInt8) :=
  match bytes with
  | 0x0f :: op :: rest => decodeEscape mandatory rex op rest
  | op :: rest => if mandatory.isSome then none else decodeOpcode rex op rest
  | [] => none

/-- Decode after the mandatory prefix. -/
def decodeRex (mandatory : Option UInt8) (bytes : List UInt8) : Option (Instr × List UInt8) :=
  match bytes with
  | b :: rest =>
    if b &&& 0xf0 = 0x40 then (Rex.ofByte? b).bind fun rex => decodeBody mandatory rex rest
    else decodeBody mandatory Rex.absent bytes
  | [] => none

/-- The instruction that a byte sequence starts with, and the bytes after it. -/
def decode (bytes : List UInt8) : Option (Instr × List UInt8) :=
  match bytes with
  | 0xf2 :: rest => decodeRex (some 0xf2) rest
  | 0x66 :: rest => decodeRex (some 0x66) rest
  | _ => decodeRex none bytes

/-- The instructions of a byte sequence, up to bytes that are none. -/
def decodeAll : (fuel : Nat) → List UInt8 → List Instr × List UInt8
  | 0, bytes => ([], bytes)
  | fuel + 1, bytes =>
    match decode bytes with
    | none => ([], bytes)
    | some (i, rest) =>
      let (is, rest) := decodeAll fuel rest
      (i :: is, rest)

end RegisterJit.X86
