import RegisterJit.Bytecode.Builder
import RegisterJit.Bytecode.Lexeme
import RegisterJit.Number.Literal

/-!
# Reading program texts

A program text is one function, which may nest others:

    function main regs=3
      LOAD_INT32 r0, 1
    loop:
      IF_FALSE_BINARY_LT r0, r1, done
      ...
      .catch first, last
      function inner params=1
        RETURN a0
      end
    end

Registers are `rN`, `this` or `aN`; constants are numbers, quoted texts or words; names are bare or
quoted; a code operand is the name of a function nested in the same one. Labels may be used before
they are bound. Without `regs=` a function has just the registers it names.

Reading keeps drafts, one for each function that is open, whose references to labels and nested
functions are filled in when the function ends. `Proofs.Parsing` shows that a text is rejected for a
reason in the text or gives a sound tree, and `Proofs.Statements` separates what lines say from what
is done with it.
-/

namespace RegisterJit

/-- What is wrong with one operand. -/
inductive OperandError
  | badRegister (t : Text)
  | badLiteral (t : Text)
  | badString (t : Text)
  | badQuote
  | numeral (e : NumeralError)
  /-- Fewer arguments than the format asks for. -/
  | missing

/-- The wording of an operand error. -/
def OperandError.message : OperandError → Text
  | .badRegister t => Text.ofString "bad register " ++ Text.quote t
  | .badLiteral t => Text.ofString "bad literal " ++ Text.quote t
  | .badString t => Text.ofString "bad string literal " ++ t ++ Text.ofString ": invalid syntax"
  | .badQuote => "invalid syntax"
  | .numeral e => e.message
  | .missing => []

/-- What is wrong with one line. -/
inductive LineError
  | expectedFunction (t : Text)
  | trailing (t : Text)
  | nameless
  | badAttribute (key : Text) (e : NumeralError)
  | unknownAttribute (t : Text)
  | missingEnd (name : Text)
  | unterminated (t : Text)
  | unknownOpcode (t : Text)
  | operandCount (op : Opcode) (wanted given : Nat)
  | operand (op : Opcode) (index : Nat) (e : OperandError)
  | handlerLabels
  | handlerRegisters
  | handlerAttribute (e : OperandError)
  | unknownHandlerAttribute (t : Text)

/-- The wording of an error in a line. -/
def LineError.message : LineError → Text
  | .expectedFunction t => Text.ofString "expected function, got " ++ Text.quote t
  | .trailing t =>
    Text.ofString "unexpected " ++ Text.quote t ++ Text.ofString " after top-level function"
  | .nameless => "function needs a name"
  | .badAttribute key e => Text.ofString "bad " ++ key ++ Text.ofString ": " ++ e.message
  | .unknownAttribute t => Text.ofString "unknown function attribute " ++ Text.quote t
  | .missingEnd name => Text.ofString "function " ++ name ++ Text.ofString ": missing end"
  | .unterminated t => Text.ofString "unterminated string in " ++ Text.quote t
  | .unknownOpcode t => Text.ofString "unknown opcode " ++ Text.quote t
  | .operandCount op wanted given =>
    op.text ++ Text.ofString " takes " ++ Text.ofNat wanted ++ Text.ofString " operands, got " ++
      Text.ofNat given
  | .operand op index e =>
    op.text ++ Text.ofString " operand " ++ Text.ofNat index ++ Text.ofString ": " ++ e.message
  | .handlerLabels => "handler needs begin and end labels"
  | .handlerRegisters => ".finally needs jump= and flag= registers"
  | .handlerAttribute e => e.message
  | .unknownHandlerAttribute t => Text.ofString "unknown handler attribute " ++ Text.quote t

/-- Why a text is no program. -/
inductive ParseError
  | empty
  | atLine (number : Nat) (e : LineError)
  | build (name : Text) (e : BuildError)
  | noNested (name : Text) (nested : Text)
  /-- A line that is not blank and has no word. -/
  | wordless

/-- The wording of a parse error. -/
def ParseError.message : ParseError → Text
  | .empty => "parse: empty program"
  | .atLine number e =>
    Text.ofString "parse: line " ++ Text.ofNat number ++ Text.ofString ": " ++ e.message
  | .build name e => e.messageIn name
  | .noNested name nested =>
    Text.ofString "parse: function " ++ name ++ Text.ofString ": no nested function " ++
      Text.quote nested
  | .wordless => []

/-- Whether an error tells that reading itself went wrong: a label, a word of the stream, an
argument or a word of a line was taken to be there and is not. -/
def ParseError.isFault : ParseError → Bool
  | .wordless | .build _ .noSuchLabel | .build _ .noSuchWord | .atLine _ (.operand _ _ .missing) =>
    true
  | _ => false

namespace Listing

/-- A register: `this`, or `r` or `a` with a number of at most fifteen bits. -/
def parseRegister (t : Text) : Except OperandError Register :=
  if t = Text.ofString "this" then .ok Register.this
  else
    match t with
    | kind :: d :: rest =>
      if kind = 0x72 ∨ kind = 0x61 then
        match Numeral.unsigned 15 (d :: rest) with
        | .ok n => .ok (if kind = 0x61 then Register.arg n else Register.ofNat n)
        | .error _ => .error (.badRegister t)
      else .error (.badRegister t)
    | _ => .error (.badRegister t)

/-- A literal: a word, a quoted text or a number. -/
def parseConstant (t : Text) : Except OperandError Constant :=
  if t = Text.ofString "undefined" then .ok Constant.undefined
  else if t = Text.ofString "null" then .ok Constant.null
  else if t = Text.ofString "true" then .ok (Constant.ofBool true)
  else if t = Text.ofString "false" then .ok (Constant.ofBool false)
  else if t.head? = some Text.quoteMark then
    match Text.unquote? t with
    | some s => .ok (Constant.ofText s)
    | none => .error (.badString t)
  else
    match Double.parse t with
    | .ok x => .ok (Constant.ofNumber x)
    | .error _ => .error (.badLiteral t)

/-- A name: bare, or quoted. -/
def parseName (t : Text) : Except OperandError Text :=
  if t.head? = some Text.quoteMark then
    match Text.unquote? t with
    | some s => .ok s
    | none => .error .badQuote
  else .ok t

/-- A handler as written, with its labels by name. -/
structure HandlerLine where
  isFinally : Bool
  start : Text
  stop : Text
  jump : Register
  flag : Register
  level : UInt32

/-- Apply the attributes of a handler line in order. -/
def handlerAttributes (h : HandlerLine) : List Text → Except LineError HandlerLine
  | [] => .ok h
  | attr :: rest => do
    let (key, value) := Text.cut 0x3d attr
    let h ←
      if key = Text.ofString "jump" then
        (parseRegister value).mapError .handlerAttribute |>.map fun r => { h with jump := r }
      else if key = Text.ofString "flag" then
        (parseRegister value).mapError .handlerAttribute |>.map fun r => { h with flag := r }
      else if key = Text.ofString "level" then
        (Numeral.unsigned 32 value).mapError (fun e => .handlerAttribute (.numeral e))
          |>.map fun n => { h with level := n.toUInt32 }
      else .error (.unknownHandlerAttribute attr)
    handlerAttributes h rest

/-- A handler line from its operands. -/
def parseHandler (isFinally : Bool) (args : List Text) : Except LineError HandlerLine :=
  match args with
  | start :: stop :: attributes => do
    let h ← handlerAttributes
      ⟨isFinally, start, stop, Register.invalid, Register.invalid, 0⟩ attributes
    if isFinally && (h.jump == Register.invalid || h.flag == Register.invalid) then
      throw .handlerRegisters
    return h
  | _ => .error .handlerLabels

/-- A function being read. -/
structure Draft where
  builder : Builder
  /-- The labels by name. -/
  labels : List (Text × Int)
  /-- The nested functions by name, the latest first. -/
  children : List (Text × Nat)
  /-- The words that refer to nested functions. -/
  references : List (Nat × Text)
  handlers : List HandlerLine
  /-- The number of registers in the header, if given. -/
  registers : Option Nat
  /-- The highest register named. -/
  highest : Int

namespace Draft

/-- The label of a name, which is given out when first mentioned. -/
def label (d : Draft) (t : Text) : Int × Draft :=
  match d.labels.lookup t with
  | some l => (l, d)
  | none =>
    let (l, b) := d.builder.newLabel
    (l, { d with builder := b, labels := (t, l) :: d.labels })

/-- Note that a register is used. -/
def noteRegister (d : Draft) (r : Register) : Draft :=
  { d with highest := max d.highest r.index.toInt }

/-- Bind a label at the current place. -/
def bind (d : Draft) (t : Text) : Draft :=
  let (l, d) := d.label t
  { d with builder := (d.builder.bind? l).getD (d.builder.fail .noSuchLabel) }

/-- Read a register operand. -/
def register (d : Draft) (t : Text) : Except OperandError (Register × Draft) :=
  (parseRegister t).map fun r => (r, d.noteRegister r)

/-- Read one operand of the instruction to come from the arguments that are left. -/
def operand (d : Draft) (index : Nat) (kind : OperandKind) (args : List Text) :
    Except OperandError (BuilderOperand × Draft × List Text) := do
  let arg :: args := args | throw .missing
  match kind with
  | .register =>
    let (r, d) ← d.register arg
    return (.register r, d, args)
  | .jump =>
    let (l, d) := d.label arg
    return (.label l, d, args)
  | .packed =>
    let second :: third :: args := args | throw .missing
    let (a, d) ← d.register arg
    let (b, d) ← d.register second
    let n ← (Numeral.unsigned 32 third).mapError .numeral
    return (.packed a b n.toUInt32, d, args)
  | .signed | .unsigned =>
    let n ← (Numeral.signed arg).mapError .numeral
    return (.immediate n, d, args)
  | .constant =>
    let c ← parseConstant arg
    let (i, b) := d.builder.constant c
    return (.immediate i, { d with builder := b }, args)
  | .name =>
    let t ← parseName arg
    let (i, b) := d.builder.name t
    return (.immediate i, { d with builder := b }, args)
  | .code =>
    let place := d.builder.offset + 1 + index
    return (.immediate 0, { d with references := d.references ++ [(place, arg)] }, args)

/-- Read the operands of the instruction to come, numbering them from `index`. -/
def operands (d : Draft) (op : Opcode) :
    (index : Nat) → List OperandKind → List Text → Except LineError (List BuilderOperand × Draft)
  | _, [], _ => .ok ([], d)
  | index, kind :: kinds, args =>
    match d.operand index kind args with
    | .error e => .error (.operand op index e)
    | .ok (o, d, args) => do
      let (rest, d) ← operands d op (index + 1) kinds args
      return (o :: rest, d)

/-- How many arguments an instruction takes in a text: three for a packed operand. -/
def argumentCount (op : Opcode) : Nat :=
  op.format.length + 2 * op.format.count .packed

/-- Read one instruction. -/
def instruction (d : Draft) (mnemonic : Text) (args : List Text) : Except LineError Draft :=
  match Opcode.ofName? mnemonic with
  | none => .error (.unknownOpcode mnemonic)
  | some op =>
    if args.length ≠ argumentCount op then
      .error (.operandCount op (argumentCount op) args.length)
    else do
      let (os, d) ← d.operands op 0 op.format args
      return { d with builder := d.builder.emit op os }

/-- Enter a handler once all lines are read. -/
def enterHandler (d : Draft) (h : HandlerLine) : Draft :=
  let (start, d) := d.label h.start
  let (stop, d) := d.label h.stop
  if h.isFinally then
    { d with
      builder := d.builder.finally_ start stop h.jump h.flag h.level
      highest := max (max d.highest h.jump.index.toInt) h.flag.index.toInt }
  else { d with builder := d.builder.catching start stop h.level }

/-- Fill in the references to nested functions. -/
def linkReferences (d : Draft) (name : Text) :
    List (Nat × Text) → Array Word → Except ParseError (Array Word)
  | [], data => .ok data
  | (place, nested) :: rest, data =>
    match d.children.lookup nested with
    | none => .error (.noNested name nested)
    | some i =>
      if _h : place < data.size then
        linkReferences d name rest (data.set place (Word.ofUInt32 i.toUInt32))
      else .error (.build name .noSuchWord)

/-- The code of a function whose lines are all read. -/
def finish (d : Draft) : Except ParseError Code := do
  let d := d.handlers.foldl enterHandler d
  let registers : Int := match d.registers with
    | some n => n
    | none => d.highest + 1
  let b := d.builder.setRegisters (UInt32.ofInt registers)
  let code ← b.build.mapError (.build b.code.name)
  let data ← d.linkReferences code.name d.references code.data
  return { code with data := data }

end Draft

/-- Apply the attributes of a function header in order. -/
def headerAttributes (d : Draft) : List Text → Except LineError Draft
  | [] => .ok d
  | attr :: rest => do
    let (key, value) := Text.cut 0x3d attr
    let d ←
      if key = Text.ofString "strict" then
        .ok { d with builder := d.builder.setStrict true }
      else if key = Text.ofString "regs" then
        (Numeral.unsigned 32 value).mapError (.badAttribute key)
          |>.map fun n => { d with registers := some n }
      else if key = Text.ofString "params" then
        (Numeral.unsigned 32 value).mapError (.badAttribute key)
          |>.map fun n => { d with builder := d.builder.setParams n.toUInt32 }
      else .error (.unknownAttribute attr)
    headerAttributes d rest

/-- An empty draft from the words of a function header. -/
def openFunction (header : List Text) : Except LineError Draft :=
  match header with
  | _ :: name :: attributes =>
    headerAttributes ⟨Builder.new name, [], [], [], [], none, -1⟩ attributes
  | _ => .error .nameless

/-- The label that a line binds: one word before a colon. -/
def boundLabel? (line : Text) : Option Text :=
  if line.getLast? = some 0x3a ∧ ¬ line.any (fun b => b == 0x20 || b == 0x09 || b == 0x2c) then
    some line.dropLast
  else none

/-- A line cut at its first space or tab. -/
def mnemonic : Text → Text × Text
  | [] => ([], [])
  | b :: rest =>
    if b = 0x20 ∨ b = 0x09 then ([], rest)
    else
      let (word, more) := mnemonic rest
      (b :: word, more)

/-- What a line of a function body asks for. -/
inductive BodyLine
  | close
  | label (t : Text)
  | nested
  | handler (isFinally : Bool) (args : List Text)
  | instruction (mnemonic : Text) (args : List Text)

/-- Classify a line of a function body. -/
def bodyLine (line : Text) : Except LineError BodyLine :=
  if line = Text.ofString "end" then .ok .close
  else
    match boundLabel? line with
    | some t => .ok (.label t)
    | none =>
      let (word, rest) := mnemonic line
      match splitOperands rest with
      | none => .error (.unterminated rest)
      | some args =>
        if word = Text.ofString "function" then .ok .nested
        else if word = Text.ofString ".catch" then .ok (.handler false args)
        else if word = Text.ofString ".finally" then .ok (.handler true args)
        else .ok (.instruction word args)

/-- Read the body of a function up to its end. `last` is the number of lines of the whole text.
Every step takes a line, so `fuel` need not exceed the number of lines by more than one. -/
def readBody (last : Nat) :
    (fuel : Nat) → Draft → List Line → Except ParseError (Code × List Line)
  | 0, d, _ => .error (.atLine last (.missingEnd d.builder.code.name))
  | _ + 1, d, [] => .error (.atLine last (.missingEnd d.builder.code.name))
  | fuel + 1, d, line :: rest =>
    match bodyLine line.text with
    | .error e => .error (.atLine line.number e)
    | .ok .close => d.finish.map fun code => (code, rest)
    | .ok (.label t) => readBody last fuel (d.bind t) rest
    | .ok .nested =>
      match openFunction (Text.fields line.text) with
      | .error e => .error (.atLine line.number e)
      | .ok inner =>
        match readBody last fuel inner rest with
        | .error e => .error e
        | .ok (code, rest) =>
          let (i, b) := d.builder.child code
          readBody last fuel
            { d with builder := b, children := (code.name, i) :: d.children } rest
    | .ok (.handler isFinally args) =>
      match parseHandler isFinally args with
      | .error e => .error (.atLine line.number e)
      | .ok h => readBody last fuel { d with handlers := d.handlers ++ [h] } rest
    | .ok (.instruction word args) =>
      match d.instruction word args with
      | .error e => .error (.atLine line.number e)
      | .ok d => readBody last fuel d rest

/-- Read a program text. -/
def parse (source : Text) : Except ParseError Code :=
  let last := (Text.lines source).length
  match significantLines source with
  | [] => .error .empty
  | line :: rest =>
    match Text.fields line.text with
    | [] => .error .wordless
    | first :: words =>
      if first ≠ Text.ofString "function" then
        .error (.atLine line.number (.expectedFunction first))
      else
        match openFunction (first :: words) with
        | .error e => .error (.atLine line.number e)
        | .ok d =>
          match readBody last (rest.length + 1) d rest with
          | .error e => .error e
          | .ok (code, []) => .ok code
          | .ok (_, extra :: _) => .error (.atLine extra.number (.trailing extra.text))

end Listing

end RegisterJit
