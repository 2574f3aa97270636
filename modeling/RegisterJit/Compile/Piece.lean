import RegisterJit.Compile.Frame
import RegisterJit.X86.Assembler

/-!
# Symbolic code

What the compiler writes before it becomes bytes: machine instructions, jumps to labels and the
labels themselves, addresses that are known only when the code is placed, and operands that need no
load because the accumulator holds them. Every piece stands for the bytes that `Assembler.put`
appends.

Pieces are what the compiler is proved about. `Proofs.Layout` shows that the buffer of a session is
the pieces that were put into it, `Proofs.Following` that running the linked bytes is following the
pieces, with labels for addresses.
-/

namespace RegisterJit

open X86 (Reg Cond Instr Label LabelFault Assembler)

/-- A piece of symbolic code. -/
inductive Piece
  | instr (i : Instr)
  /-- The frame register `r` as an operand in `dst`, taken from the accumulator. -/
  | kept (dst : Reg) (r : Register)
  | jmp (l : Label)
  | jcc (c : Cond) (l : Label)
  | call (l : Label)
  /-- Load the address of a label, disguised as a double. -/
  | address (dst : Reg) (l : Label)
  /-- The place of a label. -/
  | bind (l : Label)
  /-- Instructions that do nothing, up to a multiple of `n`. -/
  | align (n : Nat)
  deriving DecidableEq, Repr

namespace X86.Assembler

/-- Append a piece. -/
def put (a : Assembler) : Piece → Except LabelFault Assembler
  | .instr i => .ok (a.emit i)
  | .kept dst _ => .ok (if dst = .rax then a else a.emit (.mov .w64 dst .rax))
  | .jmp l => .ok (a.jmp l)
  | .jcc c l => .ok (a.jcc c l)
  | .call l => .ok (a.call l)
  | .address dst _ => .ok (a.movAddress dst).2
  | .bind l => a.bind l
  | .align n => .ok (a.align n)

/-- The place of the address that a piece leaves to be filled in, with its label. -/
def addressSite? (a : Assembler) : Piece → Option (Nat × Label)
  | .address dst l => some ((a.movAddress dst).1, l)
  | _ => none

/-- Allocate labels. -/
def reserve (a : Assembler) (count : Nat) : Assembler :=
  { a with labels := a.labels ++ Array.replicate count none }

end X86.Assembler

end RegisterJit
