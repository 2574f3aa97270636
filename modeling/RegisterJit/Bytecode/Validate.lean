import RegisterJit.Bytecode.Stream

/-!
# Validation

A stream is well formed if it is a sequence of complete instructions whose opcode words have no high
bits and whose jumps reach an instruction or the end. A code is well formed if moreover its operands
stay inside its tables and its handlers inside its stream.

Images and stores validate what they read, and the compiler relies on it. `Proofs.Cursor` shows that
validation of a stream is well-formedness in the sense of a grammar, `Proofs.Acceptance` which trees
pass it and which operands it leaves unchecked. Messages name the code, the place and what was found
there.
-/

namespace RegisterJit

/-- What is wrong with a stream. -/
inductive StreamDefect
  | invalidOpcode (word : Word) (offset : Nat)
  | cutShort (opcode : Opcode) (offset : Nat)
  | badTarget (offset : Nat) (target : UInt32)

/-- The tables and limits that operands are checked against. -/
inductive OperandDefect
  | constant (index : UInt32)
  | name (index : UInt32)
  | code (index : UInt32)
  | register (r : Register) (count : UInt32)

/-- What is wrong with a code. -/
inductive CodeDefect
  | stream (d : StreamDefect)
  | operand (opcode : Opcode) (offset : Nat) (d : OperandDefect)
  | handler (index : Nat) (start stop : UInt32)

/-- What is wrong with a program: a defect of the named code, or an absent nested code. -/
inductive ProgramDefect
  | inCode (name : Text) (d : CodeDefect)
  | absentCode

/-- The wording of a defect of a stream. -/
def StreamDefect.message : StreamDefect → Text
  | .invalidOpcode word offset =>
    Text.ofString "invalid opcode " ++ Text.ofNat word.toNat ++ Text.ofString " at " ++
      Text.ofNat offset
  | .cutShort op offset =>
    op.text ++ Text.ofString " at " ++ Text.ofNat offset ++
      Text.ofString " runs past the end of the stream"
  | .badTarget offset target =>
    Text.ofString "jump at " ++ Text.ofNat offset ++ Text.ofString " targets " ++
      Text.ofNat target.toNat ++ Text.ofString ", which is not an instruction boundary"

/-- The wording of a defect of an operand. -/
def OperandDefect.message : OperandDefect → Text
  | .constant i => Text.ofString "constant " ++ Text.ofNat i.toNat ++ Text.ofString " out of range"
  | .name i => Text.ofString "name " ++ Text.ofNat i.toNat ++ Text.ofString " out of range"
  | .code i => Text.ofString "code " ++ Text.ofNat i.toNat ++ Text.ofString " out of range"
  | .register r count =>
    Text.ofString "register " ++ r.text ++ Text.ofString " beyond frame size " ++
      Text.ofNat count.toNat

/-- The wording of a defect of a code. -/
def CodeDefect.message : CodeDefect → Text
  | .stream d => d.message
  | .operand op offset d =>
    op.text ++ Text.ofString " at " ++ Text.ofNat offset ++ Text.ofString ": " ++ d.message
  | .handler index start stop =>
    Text.ofString "handler " ++ Text.ofNat index ++ Text.ofString " range [" ++
      Text.ofNat start.toNat ++ Text.ofString ", " ++ Text.ofNat stop.toNat ++
      Text.ofString ") invalid"

/-- The wording of a defect of the code called `name`. -/
def CodeDefect.messageIn (name : Text) (d : CodeDefect) : Text :=
  Text.ofString "code " ++ name ++ Text.ofString ": " ++ d.message

/-- The wording of what is wrong with a program; an absent code has none. -/
def ProgramDefect.message? : ProgramDefect → Option Text
  | .inCode name d => some (d.messageIn name)
  | .absentCode => none

namespace Stream

/-- The opcode word of an instruction, if it has bits above the opcode. -/
def wideWord? (ins : Instruction) : Option Word :=
  match ins.words with
  | w :: _ => if w.toNat > 0xffff then some w else none
  | [] => none

/-- The first instruction with a wide opcode word. -/
def firstWide? (instructions : List Instruction) : Option StreamDefect :=
  instructions.findSome? fun ins => (wideWord? ins).map fun w => .invalidOpcode w ins.offset

/-- How a fault counts as a defect; the width of an opcode word is looked at before its operands. -/
def defectOfFault (data : Array Word) : StreamFault → StreamDefect
  | .badOpcode offset word => .invalidOpcode word offset
  | .cutShort offset op =>
    let word := data.getD offset 0
    if word.toNat > 0xffff then .invalidOpcode word offset else .cutShort op offset

/-- The first jump that reaches neither an instruction nor the end. -/
def firstBadJump? (instructions : List Instruction) (size : Nat) : Option StreamDefect :=
  let starts := instructions.map (·.offset)
  instructions.findSome? fun ins =>
    match ins.target? with
    | none => none
    | some t =>
      if t.toNat ∈ starts ∨ t.toNat = size then none else some (.badTarget ins.offset t)

/-- Check a stream: every instruction in order, then every jump. -/
def validate (data : Array Word) : Except StreamDefect Unit :=
  let (instructions, fault) := read data
  match firstWide? instructions with
  | some d => .error d
  | none =>
    match fault with
    | some f => .error (defectOfFault data f)
    | none =>
      match firstBadJump? instructions data.size with
      | some d => .error d
      | none => .ok ()

end Stream

namespace Code

/-- What is wrong with an operand of an instruction of `c`, if anything. -/
def operandDefect? (c : Code) (kind : OperandKind) (w : Word) : Option OperandDefect :=
  match kind with
  | .constant =>
    if c.constants.size ≤ (Word.u32 w).toNat then some (.constant (Word.u32 w)) else none
  | .name => if c.names.size ≤ (Word.u32 w).toNat then some (.name (Word.u32 w)) else none
  | .code => if c.codes.length ≤ (Word.u32 w).toNat then some (.code (Word.u32 w)) else none
  | .register =>
    let r := Word.reg w
    if 0 ≤ r.index.toInt ∧ c.registerCount.toNat ≤ r.index.toInt.toNat then
      some (.register r c.registerCount)
    else none
  | _ => none

/-- The first operand that refers to nothing. -/
def firstBadOperand? (c : Code) : Option CodeDefect :=
  (Stream.instructions c.data).findSome? fun ins =>
    ins.operands.findSome? fun (kind, w) =>
      (c.operandDefect? kind w).map (.operand ins.opcode ins.offset)

/-- The first handler whose range is not inside the stream. -/
def firstBadHandler? (c : Code) : Option CodeDefect :=
  c.handlers.toList.zipIdx.findSome? fun (h, i) =>
    if h.stop < h.start ∨ c.data.size < h.stop.toNat then some (.handler i h.start h.stop) else none

/-- Check one code without its nested codes. -/
def validateOne (c : Code) : Except CodeDefect Unit :=
  match Stream.validate c.data with
  | .error d => .error (.stream d)
  | .ok () =>
    match c.firstBadOperand? with
    | some d => .error d
    | none =>
      match c.firstBadHandler? with
      | some d => .error d
      | none => .ok ()

/-- Check a program. An absent code anywhere outweighs every other defect. -/
def validate (c : Code) : Except ProgramDefect Unit :=
  match c.walk? with
  | none => .error .absentCode
  | some codes => codes.forM fun code => code.validateOne.mapError (.inCode code.name)

end Code

end RegisterJit
