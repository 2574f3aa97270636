import RegisterJit.Script.Property

/-!
# Variables

Variables by name, global variables, and slots of enclosing environments. The environments of a
running function stand in its frame.

A frame is an address on the register stack and is read through the machine, so variables of
suspended functions stay where they are. `Proofs.Slots` and `Proofs.Capture` follow every access to
a slot or a name through these functions, and `Proofs.Permanence` looks at what declarations do to
global properties.
-/

namespace RegisterJit.Run

/-- The address of a frame. -/
abbrev FrameRef := UInt64

/-- An environment by its number; it must exist. -/
def envOrCrash (e : EnvRef) : Run EnvRef := do
  if e < (← realm).scopes.envs.size then return e else throw .crash

/-- The lexical environment of a frame. -/
def lexicalEnv (frame : FrameRef) : Run EnvRef := do
  envOrCrash ((← machine).frameWord frame Frame.lexicalEnv).toNat

/-- Enter a lexical environment. -/
def setLexicalEnv (frame : FrameRef) (e : EnvRef) : Run Unit :=
  modifyMachine fun m => m.setFrameWord frame Frame.lexicalEnv e.toUInt64

/-- The number of the variable environment of a frame. -/
def variableEnv (frame : FrameRef) : Run EnvRef :=
  return ((← machine).frameWord frame Frame.variableEnv).toNat

/-- The environment that a frame's function was made in; top-level code is in the global one. -/
def closureEnv (frame : FrameRef) : Run EnvRef := do
  let realm ← realm
  match Heap.ref? ((← machine).frameCallee frame) with
  | none => return realm.globalEnv
  | some r =>
    match (realm.heap.object r).function with
    | some ⟨_, .compiled _ env⟩ => return env
    | _ => return realm.globalEnv

/-- Add an environment inside another. -/
def pushEnv (parent : EnvRef) (kind : EnvKind) : Run EnvRef := modifyGet fun w =>
  let (e, scopes) := w.realm.scopes.push (some parent) kind
  (e, { w with realm := { w.realm with scopes := scopes } })

/-- What a name means in a frame. -/
def resolve (frame : FrameRef) (name : Text) : Run (Option Reference) := do
  let e ← lexicalEnv frame
  let realm ← realm
  return realm.scopes.resolve realm.heap e name

/-- The error for a name that means nothing. -/
def notDefined {α : Type} (name : Text) : Run α :=
  raise .referenceError (name ++ Text.ofString " is not defined")

/-- The error for a binding that has no value yet. -/
def notInitialized {α : Type} (name : Text) : Run α :=
  raise .referenceError (aboutKey "cannot access" name " before initialization")

/-- The error for a second assignment to a constant. -/
def constantAssigned {α : Type} (name : Text) : Run α :=
  raise .typeError (aboutKey "assignment to constant variable" name "")

/-- The cell with a number. -/
def cell (c : CellRef) : Run Cell := return (← realm).scopes.cell c

/-- The value of a reference. -/
def getReference (ev : Evaluator) (ref : Reference) (name : Text) : Run Value := do
  match ref with
  | .property r => get ev r name (Heap.value r)
  | .cell _ c =>
    let v := (← cell c).value
    if v.isEmpty then notInitialized name else return v

/-- Write a cell, unless it is a constant that has its value. -/
def setCell (c : CellRef) (name : Text) (v : Value) (strict : Bool) : Run Unit := do
  let x ← cell c
  if !x.isMutable && !x.value.isEmpty then
    if strict then constantAssigned name
  else modifyScopes fun s => s.setValue c v

/-- Assign to a reference. -/
def setReference (ev : Evaluator) (ref : Reference) (name : Text) (v : Value) (strict : Bool) :
    Run Unit :=
  match ref with
  | .property r => putProperty ev (Heap.value r) name v strict
  | .cell _ c => setCell c name v strict

/-! ## Names -/

/-- The value of a name. -/
def loadName (ev : Evaluator) (frame : FrameRef) (name : Text) : Run Value := do
  match ← resolve frame name with
  | none => notDefined name
  | some ref => getReference ev ref name

/-- Assign to a name. One that means nothing becomes a global variable, except in strict code. -/
def storeName (ev : Evaluator) (frame : FrameRef) (name : Text) (v : Value) (strict : Bool) :
    Run Unit := do
  match ← resolve frame name with
  | some ref => setReference ev ref name v strict
  | none =>
    if strict then notDefined name
    else putProperty ev (Heap.value (← realm).globalObject) name v false

/-- Delete a name; the result is whether it is gone. -/
def deleteName (frame : FrameRef) (name : Text) : Run Bool := do
  match ← resolve frame name with
  | none => return true
  | some (.property r) => deleteProperty (Heap.value r) name false
  | some (.cell e c) =>
    if (← cell c).isDeletable then
      modifyScopes fun s => s.unbind e name
      return true
    else return false

/-- The type name of what a name stands for; a name that means nothing is undefined. -/
def typeofName (ev : Evaluator) (frame : FrameRef) (name : Text) : Run Value := do
  match ← resolve frame name with
  | none => intern "undefined"
  | some ref =>
    let v ← getReference ev ref name
    intern ((← heap).typeName v)

/-- Increment or decrement what a name stands for. -/
def stepName (ev : Evaluator) (frame : FrameRef) (name : Text) (mode : UInt64) : Run Value := do
  match ← resolve frame name with
  | none => notDefined name
  | some ref =>
    let old ← getReference ev ref name
    let (stored, result) ← stepNumber ev old mode
    setReference ev ref name stored (isStrictMode mode)
    return result

/-- Look a function up by its name and put the receiver of its call at an address: the object of a
with block that it was found in, else undefined. -/
def prepareDynamicCall (ev : Evaluator) (frame : FrameRef) (name : Text) (receiver : UInt64) :
    Run Value := do
  match ← resolve frame name with
  | none => notDefined name
  | some ref =>
    let fn ← getReference ev ref name
    let globalObject := (← realm).globalObject
    let this :=
      match ref with
      | .property r => if r = globalObject then Value.undefined else Heap.value r
      | .cell _ _ => Value.undefined
    modifyMachine fun m => m.writeWord receiver this.word
    return fn

/-! ## Global variables -/

/-- The value of a global variable. -/
def loadGlobal (ev : Evaluator) (name : Text) : Run Value := do
  let r := (← realm).globalObject
  if (← heap).hasProperty r name then get ev r name (Heap.value r) else notDefined name

/-- Assign to a global variable. Strict code does not make new ones. -/
def storeGlobal (ev : Evaluator) (name : Text) (v : Value) (strict : Bool) : Run Unit := do
  let r := (← realm).globalObject
  if strict && !(← heap).hasProperty r name then notDefined name
  else putProperty ev (Heap.value r) name v strict

/-- Delete a global variable; the result is whether it is gone. -/
def deleteGlobal (name : Text) : Run Bool := do
  deleteProperty (Heap.value (← realm).globalObject) name false

/-- The type name of a global variable, also if there is none. -/
def typeofGlobal (ev : Evaluator) (name : Text) : Run Value := do
  if (← heap).hasProperty (← realm).globalObject name then
    let v ← loadGlobal ev name
    intern ((← heap).typeName v)
  else intern "undefined"

/-- Increment or decrement a global variable. -/
def stepGlobal (ev : Evaluator) (name : Text) (mode : UInt64) : Run Value := do
  let old ← loadGlobal ev name
  let (stored, result) ← stepNumber ev old mode
  putProperty ev (Heap.value (← realm).globalObject) name stored (isStrictMode mode)
  return result

/-- The value of a global data property, undefined if there is none. -/
def global (name : Text) : Run Value := do
  let realm ← realm
  let v? := ((realm.heap.object realm.globalObject).own? name).bind Property.value?
  return v?.getD Value.undefined

/-! ## Slots -/

/-- The slot at an offset in the environment `nest` steps out; it must exist. -/
def heapSlot (frame : FrameRef) (offset nest : UInt64) : Run CellRef := do
  let e ← lexicalEnv frame
  match (← realm).scopes.slot? e offset.toNat nest.toNat with
  | some c => return c
  | none =>
    internalError (Text.ofString "heap slot " ++ Text.ofNat offset.toNat ++
      Text.ofString " at depth " ++ Text.ofNat nest.toNat ++ Text.ofString " does not exist")

/-- Read a slot. The first name under which it is read becomes its own. -/
def loadHeap (frame : FrameRef) (name : Text) (offset nest : UInt64) : Run Value := do
  let c ← heapSlot frame offset nest
  let x ← cell c
  if x.name = [] then modifyScopes fun s => s.setCell c { x with name := name }
  if x.value.isEmpty then notInitialized name else return x.value

/-- Write a slot. -/
def storeHeap (frame : FrameRef) (v : Value) (offset nest : UInt64) (strict : Bool) :
    Run Unit := do
  let c ← heapSlot frame offset nest
  setCell c (← cell c).name v strict

/-- The type name of what a slot holds. -/
def typeofHeap (frame : FrameRef) (name : Text) (offset nest : UInt64) : Run Value := do
  let v ← loadHeap frame name offset nest
  intern ((← heap).typeName v)

/-- Increment or decrement a slot. -/
def stepHeap (ev : Evaluator) (frame : FrameRef) (mode offset nest : UInt64) : Run Value := do
  let c ← heapSlot frame offset nest
  let x ← cell c
  if x.value.isEmpty then notInitialized x.name
  else
    let (stored, result) ← stepNumber ev x.value mode
    let x ← cell c
    if x.isMutable then
      modifyScopes fun s => s.setValue c stored
      return result
    else if isStrictMode mode then constantAssigned x.name
    else return result

/-- Give a write-once slot of the innermost environment its value. -/
def initializeHeapImmutable (frame : FrameRef) (v : Value) (offset : UInt64) : Run Unit := do
  let c ← heapSlot frame offset 0
  modifyScopes fun s => s.setValue c v

/-! ## Environments -/

/-- Enter an environment with slots. The first one that a function enters is also its variable
environment. -/
def buildEnv (frame : FrameRef) (size mutableStart : UInt64) : Run Unit := do
  let outer ← lexicalEnv frame
  let e ← modifyGet fun w =>
    let (e, scopes) := w.realm.scopes.pushSlots outer size.toNat mutableStart.toNat
    (e, { w with realm := { w.realm with scopes := scopes } })
  let isFunction := (Heap.ref? ((← machine).frameCallee frame)).isSome
  if isFunction && (← variableEnv frame) == (← closureEnv frame) then
    modifyMachine fun m => m.setFrameWord frame Frame.variableEnv e.toUInt64
  setLexicalEnv frame e

/-- Declare a name in the variable environment. A function declaration resets a name that exists; a
variable declaration keeps it. -/
def instantiate (frame : FrameRef) (name : Text) (isFunction configurable : Bool) : Run Unit := do
  let e ← envOrCrash (← variableEnv frame)
  match ((← realm).scopes.env e).kind with
  | .object r =>
    match (← object r).own? name with
    | some p =>
      match p.body with
      | .data _ writable =>
        if isFunction then define r name { p with body := .data Value.undefined writable }
      | .accessor _ _ => return ()
    | none => define r name ⟨.data Value.undefined true, true, configurable⟩
  | .declarative bindings _ _ =>
    match bindings.lookup name with
    | some c => if isFunction then modifyScopes fun s => s.setValue c Value.undefined
    | none =>
      modifyScopes fun s => s.bind e name ⟨Value.undefined, name, true, configurable⟩

/-- Enter an environment of an object's properties. -/
def withSetup (frame : FrameRef) (v : Value) : Run Unit := do
  let r ← toObject v
  setLexicalEnv frame (← pushEnv (← lexicalEnv frame) (.object r))

/-- Leave the innermost environment, unless it is the outermost one. -/
def popEnv (frame : FrameRef) : Run Unit := do
  match ((← realm).scopes.env (← lexicalEnv frame)).parent with
  | some p => setLexicalEnv frame p
  | none => return ()

/-- Enter an environment with the pending exception bound to a name. -/
def tryCatchSetup (frame : FrameRef) (name : Text) : Run Value := do
  let v : Value := ⟨(← machine).contextWord Context.exception⟩
  let e ← pushEnv (← lexicalEnv frame) (.declarative [] 0 0)
  modifyScopes fun s => s.bind e name ⟨v, name, true, false⟩
  setLexicalEnv frame e
  return v

/-- Leave the environments entered since a handler's region was. -/
def unwindEnv (frame : FrameRef) (level : UInt32) : Run Unit := do
  let closure ← closureEnv frame
  let e := ((← machine).frameWord frame Frame.lexicalEnv).toNat
  let scopes := (← realm).scopes
  setLexicalEnv frame (scopes.unwind ((scopes.env closure).depth + level.toNat) e)

end RegisterJit.Run
