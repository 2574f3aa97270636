import RegisterJit.Bytecode.Validate

/-!
# Building codes

A builder collects the instructions and tables of one code. Jumps and handlers refer to labels,
which are bound to places at any time before the code is finished. The first thing that goes wrong
is kept and reported at the end.

The parser drives a builder for each function of a text. `Proofs.Building` shows that a builder
whose requests fit their instructions finishes, and that what it finishes passes validation;
`Proofs.Requests` and `Proofs.Resolution` compute the finished code from the requests alone, so that
jumps, handlers and names are known to be what was asked for.
-/

namespace RegisterJit

/-- An operand handed to a builder. -/
inductive BuilderOperand
  | register (r : Register)
  | immediate (i : Int)
  | label (l : Int)
  | packed (a b : Register) (c : UInt32)

/-- The number an operand stands for where any number will do. -/
def BuilderOperand.number : BuilderOperand → Int
  | .register r => r.index.toInt
  | .immediate i => i
  | .label _ => 0
  | .packed _ _ c => c.toNat

/-- Why a code cannot be finished. -/
inductive BuildError
  | boundTwice (label : Int)
  | operandCount (opcode : Opcode) (given : Nat)
  | operandKind (opcode : Opcode) (index : Nat) (wanted : Text)
  | neverBound (label : Int)
  | defective (d : CodeDefect)
  /-- A label that no builder gives out. -/
  | noSuchLabel
  /-- A jump outside the words. -/
  | noSuchWord

/-- The wording of an error of the code called `name`. -/
def BuildError.messageIn (name : Text) (e : BuildError) : Text :=
  let lead := Text.ofString "build " ++ name ++ Text.ofString ": "
  match e with
  | .boundTwice l => lead ++ Text.ofString "label " ++ Text.ofInt l ++ Text.ofString " bound twice"
  | .operandCount op given =>
    lead ++ op.text ++ Text.ofString " takes " ++ Text.ofNat op.format.length ++
      Text.ofString " operands, got " ++ Text.ofNat given
  | .operandKind op i wanted =>
    lead ++ op.text ++ Text.ofString " operand " ++ Text.ofNat i ++ Text.ofString " must be a " ++
      wanted
  | .neverBound l => lead ++ Text.ofString "label " ++ Text.ofInt l ++ Text.ofString " never bound"
  | .defective d => d.messageIn name
  | .noSuchLabel | .noSuchWord => []

/-- A jump whose displacement is filled in at the end. -/
structure Fixup where
  place : Nat
  start : Nat
  label : Int

/-- A code under construction. While it is, the ranges of its handlers hold labels. -/
structure Builder where
  code : Code
  labels : Array (Option Nat)
  fixups : Array Fixup
  failure : Option BuildError

namespace Builder

/-- A builder for a code with the given name. -/
def new (name : Text) : Builder := ⟨Code.ofName name, #[], #[], none⟩

/-- The number of words so far. -/
def offset (b : Builder) : Nat := b.code.data.size

/-- Set the number of registers. -/
def setRegisters (b : Builder) (n : UInt32) : Builder :=
  { b with code := { b.code with registerCount := n } }

/-- Set the number of parameters. -/
def setParams (b : Builder) (n : UInt32) : Builder :=
  { b with code := { b.code with params := n } }

/-- Choose strict or sloppy code. -/
def setStrict (b : Builder) (strict : Bool) : Builder :=
  { b with code := { b.code with strict := strict } }

/-- Keep the first failure. -/
def fail (b : Builder) (e : BuildError) : Builder :=
  { b with failure := b.failure.or (some e) }

/-- A fresh label. -/
def newLabel (b : Builder) : Int × Builder :=
  (b.labels.size, { b with labels := b.labels.push none })

/-- The place of a label that the builder gave out. -/
def place? (b : Builder) (l : Int) : Option (Option Nat) :=
  if 0 ≤ l then b.labels[l.toNat]? else none

/-- Bind a label to the current place; `none` if the builder did not give it out. -/
def bind? (b : Builder) (l : Int) : Option Builder :=
  match b.place? l with
  | none => none
  | some (some _) => some (b.fail (.boundTwice l))
  | some none => some { b with labels := b.labels.setIfInBounds l.toNat (some b.offset) }

/-- The index of a name, which is entered if it is new. -/
def name (b : Builder) (t : Text) : Nat × Builder :=
  match b.code.names.idxOf? t with
  | some i => (i, b)
  | none => (b.code.names.size, { b with code := { b.code with names := b.code.names.push t } })

/-- The index of a literal, which is entered unless one that is the same is there. -/
def constant (b : Builder) (c : Constant) : Nat × Builder :=
  match b.code.constants.findIdx? fun have_ => have_.same c with
  | some i => (i, b)
  | none =>
    (b.code.constants.size, { b with code := { b.code with constants := b.code.constants.push c } })

/-- Attach a nested code. -/
def child (b : Builder) (c : Code) : Nat × Builder :=
  (b.code.codes.length, { b with code := { b.code with codes := b.code.codes ++ [some c] } })

/-- Append a word. -/
def push (b : Builder) (w : Word) : Builder :=
  { b with code := { b.code with data := b.code.data.push w } }

/-- Append one operand of the instruction at `start`; the error tells what was wanted. -/
def pushOperand (b : Builder) (start : Nat) (kind : OperandKind) (o : BuilderOperand) :
    Except Text Builder :=
  match kind, o with
  | .register, .register r => .ok (b.push (Word.ofRegister r))
  | .register, _ => .error "register"
  | .jump, .label l =>
    .ok { b.push 0 with fixups := b.fixups.push ⟨b.offset, start, l⟩ }
  | .jump, _ => .error "label"
  | .packed, .packed x y c => .ok (b.push (Word.pack x y c))
  | .packed, _ => .error "packed triple"
  | _, o => .ok (b.push (Word.ofUInt32 (UInt32.ofInt o.number)))

/-- Append operands in order, numbering them from `index`; stop at the first that does not fit. -/
def pushOperands (b : Builder) (op : Opcode) (start : Nat) :
    (index : Nat) → List (OperandKind × BuilderOperand) → Builder
  | _, [] => b
  | index, (kind, o) :: rest =>
    match b.pushOperand start kind o with
    | .error wanted => b.fail (.operandKind op index wanted)
    | .ok b => pushOperands b op start (index + 1) rest

/-- Append one instruction. -/
def emit (b : Builder) (op : Opcode) (operands : List BuilderOperand) : Builder :=
  if operands.length = op.format.length then
    pushOperands (b.push (Word.ofOpcode op)) op b.offset 0 (op.format.zip operands)
  else b.fail (.operandCount op operands.length)

/-- Enter a handler between two labels. -/
def handler (b : Builder) (kind : UInt8) (start stop : Int) (level : UInt32)
    (jump flag : Register) : Builder :=
  { b with
    code := { b.code with
      handlers := b.code.handlers.push
        ⟨kind, UInt32.ofInt start, UInt32.ofInt stop, level, jump, flag⟩ } }

/-- Add a catch handler for the region between two labels. -/
def catching (b : Builder) (start stop : Int) (level : UInt32) : Builder :=
  b.handler Handler.kindCatch start stop level Register.invalid Register.invalid

/-- Add a finally handler for the region between two labels. -/
def finally_ (b : Builder) (start stop : Int) (jump flag : Register) (level : UInt32) : Builder :=
  b.handler Handler.kindFinally start stop level jump flag

/-- The place of a label. -/
def resolve (b : Builder) (l : Int) : Except BuildError Nat :=
  if (b.labels.size : Int) ≤ l then .error (.neverBound l)
  else
    match b.place? l with
    | none => .error .noSuchLabel
    | some none => .error (.neverBound l)
    | some (some n) => .ok n

/-- Fill in the displacements of jumps. -/
def patchJumps (b : Builder) : List Fixup → Array Word → Except BuildError (Array Word)
  | [], data => .ok data
  | f :: rest, data => do
    let target ← b.resolve f.label
    let w := Word.ofInt32 (Int32.ofInt ((target : Int) - f.start))
    if _h : f.place < data.size then patchJumps b rest (data.set f.place w)
    else throw .noSuchWord

/-- Replace the labels of handlers by places. -/
def placeHandler (b : Builder) (h : Handler) : Except BuildError Handler := do
  let start ← b.resolve h.start.toNat
  let stop ← b.resolve h.stop.toNat
  return { h with start := start.toUInt32, stop := stop.toUInt32 }

/-- The finished code. -/
def build (b : Builder) : Except BuildError Code := do
  if let some e := b.failure then throw e
  let data ← patchJumps b b.fixups.toList b.code.data
  let handlers ← b.code.handlers.mapM b.placeHandler
  let code := { b.code with data := data, handlers := handlers }
  code.validateOne.mapError .defective
  return code

end Builder

end RegisterJit
