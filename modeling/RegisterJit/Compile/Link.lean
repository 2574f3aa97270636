import RegisterJit.Compile.Memory
import RegisterJit.Compile.Session

/-!
# Linking

A finished buffer is placed: jumps are resolved, addresses that depend on the place are filled in,
and the entry of every code and the native ranges of its handlers are published. A session is linked
once.

Publishing goes along the programs of a session in order and stops at the first handler whose
boundary has no place, with the entries before it already published. `Proofs.Relocation` says what a
link writes and where, `Proofs.Publication` what codes know of their entries after any requests to a
session.
-/

namespace RegisterJit

open X86 (Label Assembler)

/-- A code with its place in memory. -/
structure PlacedUnit where
  unit : CodeUnit
  /-- The address of its first instruction. -/
  entry : UInt64
  /-- The address after its last instruction. -/
  stop : UInt64
  /-- The first address and the address past the last of each handler's region. -/
  handlers : Array (UInt64 × UInt64)

/-- Placed code. -/
structure Image where
  base : UInt64
  code : Array UInt8
  entryThunk : UInt64
  stubThunk : UInt64
  /-- The return address of the outermost function. Walks of the native stack end there. -/
  returnSite : UInt64
  programs : Array PlacedUnit

namespace Image

/-- Whether an address lies in the image. -/
def contains (img : Image) (pc : UInt64) : Bool :=
  img.base ≤ pc && pc < img.base + img.code.size.toUInt64

/-- The code whose instructions are at an address. Codes are placed in the order of compilation, so
the first one that ends after the address decides. -/
def lookup (img : Image) (pc : UInt64) : Option PlacedUnit :=
  match img.programs.find? fun p => pc < p.stop with
  | some p => if p.entry ≤ pc then some p else none
  | none => none

end Image

/-- Why a session could not be linked. -/
inductive LinkError
  | invariant (i : Invariant)
  | allocation (size : Nat) (cause : AllocationError)

/-- The wording of a link error. -/
def LinkError.message : LinkError → Text
  | .invariant i => i.message
  | .allocation size cause =>
    Text.ofString "allocate " ++ Text.ofNat size ++ Text.ofString " bytes of code: " ++
      cause.message

/-- What linking leaves behind. -/
structure LinkOutcome (α : Type) where
  result : Except LinkError Image
  session : Session
  /-- The allocator afterwards. -/
  allocator : α
  /-- The codes whose entries were published, also by a link that failed later. -/
  published : Array PlacedUnit

namespace Session

/-- The address of a label in a buffer placed at `base`. -/
def address (s : Session) (base : UInt64) (l : Label) : Except Invariant UInt64 :=
  match s.asm.labelOffset l with
  | .ok place => .ok (base + place.toUInt64)
  | .error f => .error (.label f)

/-- Fill in the addresses of labels, disguised as doubles. -/
def fillAddresses (s : Session) (base : UInt64) :
    List (Nat × Label) → Array UInt8 → Except Invariant (Array UInt8)
  | [], code => .ok code
  | (place, l) :: rest, code => do
    let target ← s.address base l
    s.fillAddresses base rest
      (Assembler.patch code place (X86.imm64 (Value.ofAddress target).word))

/-- The place of a boundary of a handler. -/
def boundary (s : Session) (u : CodeUnit) (isStart : Bool) (offset : UInt32) :
    Except Invariant Nat :=
  match s.handlerLinks.find? fun l => l.key == u.key && l.offset == offset with
  | some l => .ok l.place
  | none => .error (.handlerNotLinked u.code.name isStart offset)

/-- The native ranges of handlers, up to the first with an unknown boundary. -/
def handlerRanges (s : Session) (base : UInt64) (u : CodeUnit) :
    List Handler → Array (UInt64 × UInt64) → Except Invariant Unit × Array (UInt64 × UInt64)
  | [], ranges => (.ok (), ranges)
  | h :: rest, ranges =>
    match s.boundary u true h.start, s.boundary u false h.stop with
    | .ok start, .ok stop =>
      s.handlerRanges base u rest (ranges.push (base + start.toUInt64, base + stop.toUInt64))
    | .error i, _ => (.error i, ranges)
    | _, .error i => (.error i, ranges)

/-- The label of a unit's entry. -/
def entryLabel (s : Session) (u : CodeUnit) : Label :=
  match s.entries.find? fun e => e.1 == u.key with
  | some e => e.2
  | none => 0

/-- Publish codes in order, up to the first that cannot be linked. -/
def publish (s : Session) (base : UInt64) :
    List CompiledUnit → Array PlacedUnit → Except Invariant Unit × Array PlacedUnit
  | [], placed => (.ok (), placed)
  | c :: rest, placed =>
    match s.address base (s.entryLabel c.unit) with
    | .error i => (.error i, placed)
    | .ok entry =>
      let (ok, handlers) := s.handlerRanges base c.unit c.unit.code.handlers.toList #[]
      let placed := placed.push ⟨c.unit, entry, base + c.stop.toUInt64, handlers⟩
      match ok with
      | .error i => (.error i, placed)
      | .ok _ => s.publish base rest placed

/-- The image of code placed at `base`, and the codes that were published. -/
def place (s : Session) (base : UInt64) (code : Array UInt8) :
    Except Invariant Image × Array PlacedUnit :=
  let filled : Except Invariant Image := do
    let entryThunk ← s.address base entryThunk
    let stubThunk ← s.address base stubThunk
    let returnSite ← s.address base returnSite
    let code ← s.fillAddresses base s.addresses.toList code
    return ⟨base, code, entryThunk, stubThunk, returnSite, #[]⟩
  match filled with
  | .error i => (.error i, #[])
  | .ok image =>
    match s.publish base s.programs.toList #[] with
    | (.error i, placed) => (.error i, placed)
    | (.ok _, placed) => (.ok { image with programs := placed }, placed)

/-- A session whose jumps were filled in, as far as their labels are bound. -/
def settled (s : Session) : Session := { s with asm := s.asm.settle }

/-- Place the buffer where `allocate` says. The displacements of jumps stay in the buffer, whatever
comes of it. -/
def link {α : Type} (s : Session) (allocator : α)
    (allocate : α → Int → Except AllocationError UInt64 × α) : LinkOutcome α :=
  if s.linked then ⟨.error (.invariant .alreadyLinked), s, allocator, #[]⟩
  else
    match s.asm.resolve with
    | .error j => ⟨.error (.invariant (.unboundJump j.place j.label)), s.settled, allocator, #[]⟩
    | .ok code =>
      match allocate allocator code.size with
      | (.error cause, allocator) =>
        ⟨.error (.allocation code.size cause), s.settled, allocator, #[]⟩
      | (.ok base, allocator) =>
        let s := { s with linked := true }
        match s.place base code with
        | (.error i, placed) => ⟨.error (.invariant i), s.settled, allocator, placed⟩
        | (.ok image, placed) => ⟨.ok image, s.settled, allocator, placed⟩

end Session

end RegisterJit
