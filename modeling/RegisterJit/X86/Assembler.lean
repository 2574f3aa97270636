import RegisterJit.X86.Encode

/-!
# Assembling with labels

A growing sequence of machine instructions. A label is a place in it, bound once; jumps to labels
are emitted with an empty displacement and remembered, and filled in when all labels are bound.

Jumps have displacements of 32 bits and nothing else, so places are known before the jumps are
resolved. `Proofs.Transcription` shows that requests are read back from the bytes as the
instructions that were asked for, `Proofs.Layout` where labels are, `Proofs.Fields` what filling in
a displacement changes.
-/

namespace RegisterJit.X86

/-- A label by its number, in the order of allocation. -/
abbrev Label := Nat

/-- A jump whose displacement is still to be filled in. -/
structure Jump where
  /-- Where its displacement stands. -/
  place : Nat
  label : Label
  deriving DecidableEq, Repr

/-- Code under construction. -/
structure Assembler where
  bytes : Array UInt8
  /-- The place of each label that is bound. -/
  labels : Array (Option Nat)
  jumps : Array Jump
  deriving Inhabited

/-- What can go wrong with a label. -/
inductive LabelFault
  /-- It was never allocated. -/
  | unknown (l : Int)
  | boundTwice (l : Label)
  | notBound (l : Label)

namespace Assembler

/-- No code and no labels. -/
def empty : Assembler := ⟨#[], #[], #[]⟩

/-- The number of bytes so far. -/
def size (a : Assembler) : Nat := a.bytes.size

/-- Append an instruction. -/
def emit (a : Assembler) (i : Instr) : Assembler :=
  { a with bytes := a.bytes ++ i.encode.toArray }

/-- Allocate a label. -/
def newLabel (a : Assembler) : Label × Assembler :=
  (a.labels.size, { a with labels := a.labels.push none })

/-- The place of a label, if it is bound. -/
def place? (a : Assembler) (l : Label) : Option Nat := a.labels.getD l none

/-- Bind a label to the current place. -/
def bind (a : Assembler) (l : Label) : Except LabelFault Assembler :=
  match a.labels[l]? with
  | none => .error (.unknown l)
  | some (some _) => .error (.boundTwice l)
  | some none => .ok { a with labels := a.labels.setIfInBounds l (some a.size) }

/-- Whether a label is bound. -/
def isBound (a : Assembler) (l : Label) : Except LabelFault Bool :=
  match a.labels[l]? with
  | none => .error (.unknown l)
  | some place => .ok place.isSome

/-- The place of a label that must be bound. -/
def labelOffset (a : Assembler) (l : Label) : Except LabelFault Nat :=
  match a.labels[l]? with
  | none => .error (.unknown l)
  | some none => .error (.notBound l)
  | some (some place) => .ok place

/-- Append a jump or call to a label; `i` is the instruction with an empty displacement. -/
def emitTo (a : Assembler) (i : Instr) (l : Label) : Assembler :=
  let a := a.emit i
  { a with jumps := a.jumps.push ⟨a.size - 4, l⟩ }

/-- Jump to a label. -/
def jmp (a : Assembler) (l : Label) : Assembler := a.emitTo (.jmp 0) l

/-- Jump to a label when a condition holds. -/
def jcc (a : Assembler) (c : Cond) (l : Label) : Assembler := a.emitTo (.jcc c 0) l

/-- Call the code at a label. -/
def call (a : Assembler) (l : Label) : Assembler := a.emitTo (.call 0) l

/-- Load an address that is not known yet; returns where its eight bytes stand. -/
def movAddress (a : Assembler) (dst : Reg) : Nat × Assembler :=
  let a := a.emit (.movImm64 dst 0)
  (a.size - 8, a)

/-- Append `count` instructions that do nothing. -/
def pad (a : Assembler) : (count : Nat) → Assembler
  | 0 => a
  | count + 1 => (a.emit .nop).pad count

/-- Pad until the size is a multiple of `n`. -/
def align (a : Assembler) (n : Nat) : Assembler := a.pad ((n - a.size % n) % n)

/-- Overwrite the bytes from `place` on. -/
def patch (code : Array UInt8) (place : Nat) : List UInt8 → Array UInt8
  | [] => code
  | b :: rest => patch (code.setIfInBounds place b) (place + 1) rest

/-- The displacement of a jump whose label is at `target`. -/
def displacement (j : Jump) (target : Nat) : Int32 := Int32.ofInt ((target : Int) - (j.place + 4))

/-- Fill in the displacements of jumps in order; the first jump to an unbound label is the error. -/
def resolveJumps (a : Assembler) : List Jump → Array UInt8 → Except Jump (Array UInt8)
  | [], code => .ok code
  | j :: rest, code =>
    match a.place? j.label with
    | none => .error j
    | some target =>
      resolveJumps a rest (patch code j.place (imm32 (displacement j target).toUInt32))

/-- The finished code. -/
def resolve (a : Assembler) : Except Jump (Array UInt8) := resolveJumps a a.jumps.toList a.bytes

/-- The bytes with the displacements of jumps filled in, as far as the first to an unbound label. -/
def settleJumps (a : Assembler) : List Jump → Array UInt8 → Array UInt8
  | [], code => code
  | j :: rest, code =>
    match a.place? j.label with
    | none => code
    | some target =>
      settleJumps a rest (patch code j.place (imm32 (displacement j target).toUInt32))

/-- What an attempt to finish the code leaves: displacements are filled in where the bytes are. -/
def settle (a : Assembler) : Assembler := { a with bytes := a.settleJumps a.jumps.toList a.bytes }

end Assembler

end RegisterJit.X86
