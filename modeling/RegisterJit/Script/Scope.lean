import RegisterJit.Script.Heap

/-!
# Environments

Scopes form chains of environments. A declarative environment has named bindings and numbered slots;
an object environment finds names as properties of an object. Bindings and slots are cells, so that
a reference to one stays what it is while code runs between its reading and its writing.

Slots are found by going out a number of levels and by an index, names by going out until an
environment has them; both lead to cells. `Proofs.Capture` shows when the two ways and names found
earlier agree, `Proofs.Unwinding` that levels designate environments, `Proofs.Slots` what happens to
slots.
-/

namespace RegisterJit

/-- A cell by its number. -/
abbrev CellRef := Nat

/-- What a binding or a slot holds. The empty value marks one that is not initialised. -/
structure Cell where
  value : Value
  /-- The name of a binding, or the name under which a slot was first read. -/
  name : Text
  isMutable : Bool
  isDeletable : Bool

namespace Cell

/-- A slot that is assigned once. -/
def immutableSlot : Cell := ⟨Value.empty, [], false, false⟩

/-- A slot that may be assigned. -/
def mutableSlot : Cell := ⟨Value.undefined, [], true, false⟩

end Cell

/-- What names mean in one environment. -/
inductive EnvKind
  /-- Bindings by name, and slots in consecutive cells. -/
  | declarative (bindings : List (Text × CellRef)) (firstSlot slotCount : Nat)
  | object (r : ObjectRef)
  deriving DecidableEq

/-- One link of a scope chain. -/
structure Env where
  parent : Option EnvRef
  /-- The number of environments around it. -/
  depth : Nat
  kind : EnvKind

/-- All environments and their cells. -/
structure Scopes where
  envs : Array Env
  cells : Array Cell

/-- What a name resolves to. -/
inductive Reference
  | cell (env : EnvRef) (c : CellRef)
  | property (r : ObjectRef)
  deriving DecidableEq

namespace Scopes

/-- No environments. -/
def empty : Scopes := ⟨#[], #[]⟩

/-- The environment with a number. -/
def env (s : Scopes) (e : EnvRef) : Env := s.envs.getD e ⟨none, 0, .declarative [] 0 0⟩

/-- The cell with a number. -/
def cell (s : Scopes) (c : CellRef) : Cell := s.cells.getD c Cell.immutableSlot

/-- Change a cell. -/
def setCell (s : Scopes) (c : CellRef) (x : Cell) : Scopes :=
  { s with cells := s.cells.setIfInBounds c x }

/-- Write the value of a cell. -/
def setValue (s : Scopes) (c : CellRef) (v : Value) : Scopes :=
  s.setCell c { s.cell c with value := v }

/-- Add an environment inside another. -/
def push (s : Scopes) (parent : Option EnvRef) (kind : EnvKind) : EnvRef × Scopes :=
  let depth :=
    match parent with
    | some p => (s.env p).depth + 1
    | none => 0
  (s.envs.size, { s with envs := s.envs.push ⟨parent, depth, kind⟩ })

/-- Add an environment with slots, of which those before `mutableStart` are assigned once. -/
def pushSlots (s : Scopes) (parent : EnvRef) (size mutableStart : Nat) : EnvRef × Scopes :=
  let first := s.cells.size
  let slots := Array.ofFn fun i : Fin size =>
    if mutableStart ≤ i.val then Cell.mutableSlot else Cell.immutableSlot
  ({ s with cells := s.cells ++ slots }).push (some parent) (.declarative [] first size)

/-- Add a binding to a declarative environment. -/
def bind (s : Scopes) (e : EnvRef) (name : Text) (c : Cell) : Scopes :=
  match (s.env e).kind with
  | .object _ => s
  | .declarative bindings first count =>
    let kind := EnvKind.declarative ((name, s.cells.size) :: bindings) first count
    { cells := s.cells.push c, envs := s.envs.modify e fun env => { env with kind := kind } }

/-- Drop a binding of a declarative environment. -/
def unbind (s : Scopes) (e : EnvRef) (name : Text) : Scopes :=
  match (s.env e).kind with
  | .object _ => s
  | .declarative bindings first count =>
    let kind := EnvKind.declarative (bindings.filter fun b => b.1 != name) first count
    { s with envs := s.envs.modify e fun env => { env with kind := kind } }

/-- The binding of a name in a declarative environment, or else its first slot of that name. -/
def cellOf? (s : Scopes) (e : EnvRef) (name : Text) : Option CellRef :=
  match (s.env e).kind with
  | .object _ => none
  | .declarative bindings first count =>
    match bindings.lookup name with
    | some c => some c
    | none => ((List.range count).map (first + ·)).find? fun c => (s.cell c).name == name

/-- What a name means in an environment, if anything. -/
def resolveIn? (s : Scopes) (h : Heap) (e : EnvRef) (name : Text) : Option Reference :=
  match (s.env e).kind with
  | .object r => if h.hasProperty r name then some (.property r) else none
  | .declarative _ _ _ => (s.cellOf? e name).map (.cell e)

/-- What a name means in a chain of environments. Environments are inside older ones only, so there
are at most as many as the number of the first, and one. -/
def resolveFrom (s : Scopes) (h : Heap) (name : Text) :
    (fuel : Nat) → Option EnvRef → Option Reference
  | 0, _ => none
  | _, none => none
  | fuel + 1, some e =>
    match s.resolveIn? h e name with
    | some ref => some ref
    | none => s.resolveFrom h name fuel (s.env e).parent

/-- What a name means in an environment or those around it. -/
def resolve (s : Scopes) (h : Heap) (e : EnvRef) (name : Text) : Option Reference :=
  s.resolveFrom h name (e + 1) (some e)

/-- The environment `nest` steps out. -/
def outer (s : Scopes) : (nest : Nat) → EnvRef → Option EnvRef
  | 0, e => some e
  | nest + 1, e =>
    match (s.env e).parent with
    | none => none
    | some p => s.outer nest p

/-- A slot of the environment `nest` steps out, if it exists. -/
def slot? (s : Scopes) (e : EnvRef) (offset nest : Nat) : Option CellRef :=
  match s.outer nest e with
  | none => none
  | some e =>
    match (s.env e).kind with
    | .object _ => none
    | .declarative _ first count => if offset < count then some (first + offset) else none

/-- The innermost environment that is no deeper than `depth`, or the outermost one. -/
def unwindFrom (s : Scopes) (depth : Nat) : (fuel : Nat) → EnvRef → EnvRef
  | 0, e => e
  | fuel + 1, e =>
    let env := s.env e
    match env.parent with
    | some p => if depth < env.depth then s.unwindFrom depth fuel p else e
    | none => e

/-- The innermost environment that is no deeper than `depth`, or the outermost one. -/
def unwind (s : Scopes) (depth : Nat) (e : EnvRef) : EnvRef := s.unwindFrom depth (e + 1) e

end Scopes

end RegisterJit
