import RegisterJit.Bytecode.Stream

/-!
# Writing program texts

A program as the text from which it can be read again: labels are named after the offsets they stand
for, handlers and nested functions follow the instructions.

`render` is the inverse of parsing on codes that were read: `Proofs.Restating` computes the
statements that a listing tells, `Proofs.Listings` shows that its lines say them, and
`Proofs.Reading` concludes that they give the same tree. Codes of other origin can be printed as
well, but their texts need not be accepted.
-/

namespace RegisterJit.Listing

/-- The label of an offset. -/
def labelText (offset : Nat) : Text := Text.ofString "L" ++ Text.ofNat offset

/-- The offsets that need a label: jump targets and the ends of handlers. -/
def labelled (c : Code) : List Nat :=
  (Stream.instructions c.data).filterMap (fun ins => ins.target?.map UInt32.toNat) ++
    c.handlers.toList.flatMap fun h => [h.start.toNat, h.stop.toNat]

/-- The arguments that one operand is written as. -/
def operandTexts (c : Code) (ins : Instruction) (kind : OperandKind) (w : Word) : List Text :=
  match kind with
  | .register => [(Word.reg w).text]
  | .signed => [Text.ofInt (Word.i32 w).toInt]
  | .unsigned => [Text.ofNat (Word.u32 w).toNat]
  | .constant => [(c.constants.getD (Word.u32 w).toNat default).render]
  | .name => [Text.quote (c.names.getD (Word.u32 w).toNat [])]
  | .code =>
    match c.codes.getD (Word.u32 w).toNat none with
    | some nested => [nested.name]
    | none => [[]]
  | .jump => [labelText (ins.target?.getD 0).toNat]
  | .packed =>
    let (a, b, n) := Word.unpack w
    [a.text, b.text, Text.ofNat n.toNat]

/-- An instruction with its arguments. -/
def instructionText (c : Code) (ins : Instruction) : Text :=
  let args := ins.operands.flatMap fun (kind, w) => operandTexts c ins kind w
  if args.isEmpty then ins.opcode.text
  else ins.opcode.text ++ Text.ofString " " ++ Text.join (Text.ofString ", ") args

/-- A line with its line feed. -/
def line (indent : Text) (t : Text) : Text := indent ++ t ++ [0x0a]

/-- A handler line. -/
def handlerText (h : Handler) : Text :=
  let range := labelText h.start.toNat ++ Text.ofString ", " ++ labelText h.stop.toNat
  let level := Text.ofString ", level=" ++ Text.ofNat h.level.toNat
  if h.kind = Handler.kindFinally then
    Text.ofString ".finally " ++ range ++ Text.ofString ", jump=" ++ h.jump.text ++
      Text.ofString ", flag=" ++ h.flag.text ++ level
  else Text.ofString ".catch " ++ range ++ level

/-- The header line of a function. -/
def headerText (c : Code) : Text :=
  Text.ofString "function " ++ c.name ++ Text.ofString " regs=" ++
    Text.ofNat c.registerCount.toNat ++
    Text.ofString " params=" ++ Text.ofNat c.params.toNat ++
    (if c.strict then Text.ofString " strict" else [])

/-- The lines of a function from its header to its handlers. -/
def bodyText (indent : Text) (c : Code) : Text :=
  let marks := labelled c
  let inner := indent ++ Text.ofString "  "
  let mark (offset : Nat) : Text :=
    if marks.contains offset then line indent (labelText offset ++ Text.ofString ":") else []
  line indent (headerText c) ++
    ((Stream.instructions c.data).flatMap fun ins =>
      mark ins.offset ++ line inner (instructionText c ins)) ++
    mark c.data.size ++
    c.handlers.toList.flatMap fun h => line inner (handlerText h)

mutual

/-- A function and the functions nested in it, indented. -/
def renderIn (indent : Text) : Code → Text
  | c@⟨_, _, _, _, codes, _, _, _, _⟩ =>
    bodyText indent c ++ renderAll (indent ++ Text.ofString "  ") codes ++
      line indent (Text.ofString "end")

/-- Functions one after the other. -/
def renderAll (indent : Text) : List (Option Code) → Text
  | [] => []
  | none :: rest => renderAll indent rest
  | some c :: rest => renderIn indent c ++ renderAll indent rest

end

/-- The text of a program. -/
def render (c : Code) : Text := renderIn [] c

/-- The offsets that some instruction jumps to, in increasing order without repetition. -/
def jumpTargets (c : Code) : List Nat :=
  ((Stream.instructions c.data).filterMap fun ins => ins.target?.map UInt32.toNat).eraseDups
    |>.mergeSort (· ≤ ·)

end RegisterJit.Listing
