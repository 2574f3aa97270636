import RegisterJit.Machine.Run
import RegisterJit.Script.Pool

/-!
# Programs on a machine

A machine numbers the codes of a program, turns their literals into values, compiles them and places
the result in its memory. Codes keep their numbers even when a later step fails.

Numbers are given before anything is compiled, so references by number do not depend on whether a
later step succeeds. `Proofs.Ownership` has the invariant of the tables of a machine,
`Proofs.Addresses` what it says about machine code after any number of programs.
-/

namespace RegisterJit

namespace Machine

/-- Note the entries of codes that were published. -/
def publish (m : Machine) (placed : Array PlacedUnit) : Machine :=
  placed.foldl (fun m p =>
    { m with codes := m.codes.modify p.unit.key fun c => { c with entry := p.entry } }) m

end Machine

namespace Run

/-- Number a code, parents first, and turn its literals into values. -/
def register (c : Code) : Run CodeUnit := do
  let id := (← machine).codes.size
  modifyMachine fun m => { m with codes := m.codes.push ⟨⟨id, id.toUInt32, c, #[]⟩, 0⟩ }
  let pool ← prepare c
  let unit : CodeUnit := ⟨id, id.toUInt32, c, pool⟩
  modifyMachine fun m => { m with codes := m.codes.setIfInBounds id ⟨unit, 0⟩ }
  return unit

/-- The units of codes in order. An absent code stops everything; so does, once all are known to be
there, a literal without a meaning. -/
def unitsOf (make : Code → Run CodeUnit) : List (Option Code) → Run (List (Option CodeUnit))
  | [] => return []
  | none :: _ => throw .crash
  | some c :: rest => do
    match ← attempt (make c) with
    | .error fault => if rest.any Option.isNone then throw .crash else throw fault
    | .ok unit => return some unit :: (← unitsOf make rest)

/-- The units of a program that is compiled to be looked at: with the numbers of its codes or with
zeros, and with its literals turned into values or without. Keys are counted from `first` on. -/
def inspectedUnits (first : Nat) (numbered prepared : Bool) (c : Code) :
    Run (List (Option CodeUnit)) := do
  let codes := c.walk
  if codes.any Option.isNone && (numbered || prepared) then throw .crash
  codes.zipIdx.mapM fun (code?, i) => do
    match code? with
    | none => return none
    | some code =>
      let pool ← if prepared then prepare code else pure #[]
      return some ⟨first + i, if numbered then i.toUInt32 else 0, code, pool⟩

/-- Compile a program into the machine's memory; the result is the number of its outermost code and
the image. -/
def compile (c : Code) : Run (Nat × Image) := do
  let first := (← machine).codes.size
  let units ← do
    match ← attempt (unitsOf register c.walk) with
    | .ok units => pure units
    | .error (.failure message) =>
      throw (.failure (Text.ofString "prepare " ++ c.name ++ Text.ofString ": " ++ message))
    | .error fault => throw fault
  match Session.start.compile units with
  | (.error .absentCode, _) => throw .crash
  | (.error i, _) => throw (.invariant i)
  | (.ok _, session) =>
    let outcome := session.link (← machine).codeMemory CodeMemory.allocate
    modifyMachine fun m => { m with codeMemory := outcome.allocator }.publish outcome.published
    match outcome.result with
    | .error (.invariant i) => throw (.invariant i)
    | .error e => throw (.failure e.message)
    | .ok image =>
      modifyMachine fun m => { m with images := m.images.push (.ofImage image) }
      return (first, image)

/-- Run a code that is no function, in the global environment. -/
def runProgram (code : MachineCode) (this : Value) (args : List Value) : Run Value :=
  invoke onMachine ⟨code, Value.undefined, this, args, 0, false⟩

end Run

end RegisterJit
