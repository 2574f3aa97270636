import RegisterJit.Bytecode.Stream
import RegisterJit.X86.Assembler

/-!
# Jump targets

Before a code is compiled, every offset that something jumps to and every boundary of a handler gets
a label. Boundaries of handlers are marked, because their addresses are needed when exceptions are
delivered. Scanning also finds what makes a code impossible to compile.

Offsets are entered in the order in which they are met; an offset that a handler mentions after a
jump did gets a new label. `Proofs.Scanning` has what emitters need to know about the table,
`Proofs.Targets` that it holds exactly the offsets mentioned and when a code is refused.
-/

namespace RegisterJit

open X86 (Label LabelFault Assembler)

/-- What must hold of a program for it to be compiled and linked, and does not. -/
inductive Invariant
  | invalidOpcode (name : Text) (number : Nat) (offset : Nat)
  | cutShort (name : Text) (opcode : Opcode) (offset : Nat)
  | jumpsOutside (name : Text) (opcode : Opcode) (offset : Nat) (target : UInt32)
  | handlerOutside (name : Text) (start stop : UInt32)
  | notScanned (name : Text) (target : UInt32)
  | nameRange (name : Text) (index : UInt32)
  | notPrepared (name : Text) (index : UInt32) (size : Nat)
  | nestedRange (name : Text) (index : UInt32)
  | invalidRegister
  | alreadyLinked
  | compiledTwice (name : Text)
  | handlerNotLinked (name : Text) (isStart : Bool) (offset : UInt32)
  | unboundJump (place : Nat) (label : Label)
  | label (f : LabelFault)
  /-- A nested code is absent. -/
  | absentCode

/-- The wording of a misuse of labels. -/
def labelMessage : LabelFault → Text
  | .unknown l => Text.ofString "label " ++ Text.ofInt l ++ Text.ofString " is unknown"
  | .boundTwice l => Text.ofString "label " ++ Text.ofNat l ++ Text.ofString " bound twice"
  | .notBound l => Text.ofString "label " ++ Text.ofNat l ++ Text.ofString " is not bound"

/-- The wording of a broken invariant. -/
def Invariant.message : Invariant → Text
  | .invalidOpcode name number offset =>
    name ++ Text.ofString ": invalid opcode " ++ Text.ofNat number ++ Text.ofString " at " ++
      Text.ofNat offset
  | .cutShort name op offset =>
    name ++ Text.ofString ": " ++ op.text ++ Text.ofString " at " ++ Text.ofNat offset ++
      Text.ofString " runs past the end"
  | .jumpsOutside name op offset target =>
    name ++ Text.ofString ": " ++ op.text ++ Text.ofString " at " ++ Text.ofNat offset ++
      Text.ofString " jumps to " ++ Text.ofNat target.toNat ++ Text.ofString " outside the program"
  | .handlerOutside name start stop =>
    name ++ Text.ofString ": handler range [" ++ Text.ofNat start.toNat ++ Text.ofString ", " ++
      Text.ofNat stop.toNat ++ Text.ofString ") outside the program"
  | .notScanned name target =>
    name ++ Text.ofString ": jump target " ++ Text.ofNat target.toNat ++
      Text.ofString " was not scanned"
  | .nameRange name index =>
    name ++ Text.ofString ": name " ++ Text.ofNat index.toNat ++ Text.ofString " out of range"
  | .notPrepared name index size =>
    name ++ Text.ofString ": constant " ++ Text.ofNat index.toNat ++
      Text.ofString " not prepared (pool has " ++ Text.ofNat size ++ Text.ofString ")"
  | .nestedRange name index =>
    name ++ Text.ofString ": nested code " ++ Text.ofNat index.toNat ++
      Text.ofString " out of range"
  | .invalidRegister => "invalid register operand"
  | .alreadyLinked => "session already linked"
  | .compiledTwice name => Text.ofString "program " ++ name ++ Text.ofString " compiled twice"
  | .handlerNotLinked name isStart offset =>
    name ++ Text.ofString (if isStart then ": handler begin " else ": handler end ") ++
      Text.ofNat offset.toNat ++ Text.ofString " not linked"
  | .unboundJump place l =>
    Text.ofString "link: jump at 0x" ++ Text.ofNatHex place ++ Text.ofString " to unbound label " ++
      Text.ofNat l
  | .label f => labelMessage f
  | .absentCode => []

/-- An offset that control can reach other than from the instruction before it. -/
structure JumpTarget where
  offset : UInt32
  label : Label
  /-- Whether it is the boundary of a handler. -/
  handled : Bool
  deriving Repr

/-- The jump targets of a code, one for each offset. -/
abbrev JumpTable := List JumpTarget

namespace JumpTable

/-- The target at an offset. -/
def find? (table : JumpTable) (offset : UInt32) : Option JumpTarget :=
  List.find? (fun t => t.offset == offset) table

/-- Enter an offset. A boundary of a handler takes the place of a plain target with a fresh label;
other repetitions change nothing. -/
def register (table : JumpTable) (asm : Assembler) (offset : UInt32) (handled : Bool) :
    JumpTable × Assembler :=
  match table.find? offset with
  | some have_ =>
    if have_.handled || !handled then (table, asm)
    else
      let (l, asm) := asm.newLabel
      (List.map (fun t => if t.offset == offset then ⟨offset, l, handled⟩ else t) table, asm)
  | none =>
    let (l, asm) := asm.newLabel
    (table ++ [⟨offset, l, handled⟩], asm)

end JumpTable

namespace Scan

/-- Enter the targets of jumps in order. The first jump out of the code stops the scan. -/
def jumps (c : Code) : List Instruction → JumpTable → Assembler →
    Except Invariant JumpTable × Assembler
  | [], table, asm => (.ok table, asm)
  | ins :: rest, table, asm =>
    match ins.target? with
    | none => jumps c rest table asm
    | some target =>
      if c.data.size < target.toNat then
        (.error (.jumpsOutside c.name ins.opcode ins.offset target), asm)
      else
        let (table, asm) := table.register asm target false
        jumps c rest table asm

/-- Enter the boundaries of handlers in order. -/
def handlers (c : Code) : List Handler → JumpTable → Assembler →
    Except Invariant JumpTable × Assembler
  | [], table, asm => (.ok table, asm)
  | h :: rest, table, asm =>
    if h.stop < h.start ∨ c.data.size < h.stop.toNat then
      (.error (.handlerOutside c.name h.start h.stop), asm)
    else
      let (table, asm) := table.register asm h.start true
      let (table, asm) := table.register asm h.stop true
      handlers c rest table asm

/-- The invariant that a faulty stream breaks. -/
def faultInvariant (name : Text) : StreamFault → Invariant
  | .badOpcode offset word => .invalidOpcode name (Word.opcodeNumber word) offset
  | .cutShort offset op => .cutShort name op offset

/-- The jump targets of a code, with labels from `asm`. Labels allocated before a fault stay
allocated. -/
def targets (c : Code) (asm : Assembler) : Except Invariant JumpTable × Assembler :=
  let (instructions, fault) := Stream.read c.data
  match jumps c instructions [] asm with
  | (.error e, asm) => (.error e, asm)
  | (.ok table, asm) =>
    match fault with
    | some f => (.error (faultInvariant c.name f), asm)
    | none => handlers c c.handlers.toList table asm

end Scan

end RegisterJit
