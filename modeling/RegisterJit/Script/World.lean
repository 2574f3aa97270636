import RegisterJit.Compile.Stub
import RegisterJit.Machine.State
import RegisterJit.Script.Scope

/-!
# Running scripts

A realm is a heap with the objects that every script finds there. Together with a machine and the
text printed so far it is the world in which scripts run. A step of a run may raise a fault; what
happened in the world before stays.

A step is a function from a world to a result and a world, so what was done before a fault is kept,
which matters for every statement about errors. `Evaluator` collects the ways in which the runtime
goes back to scripts; it is closed in `Machine.Run`, and proofs take it as a parameter with what
they need to know about it.
-/

namespace RegisterJit

/-- Why a run did not go on. -/
inductive Fault
  /-- The script threw a value; the message is how it is reported. -/
  | thrown (v : Value) (message : Text)
  /-- The register stack or the native stack is used up. -/
  | stackOverflow
  /-- The program broke a rule of the runtime that no script can observe. -/
  | failure (message : Text)
  /-- A broken invariant stopped everything. -/
  | invariant (i : Invariant)
  /-- Something that must exist does not; everything stopped. -/
  | crash
  /-- The bound on nested evaluations was reached. -/
  | exhausted

/-- Whether a fault can be recovered from. -/
def Fault.isRecoverable : Fault → Bool
  | .thrown _ _ | .stackOverflow | .failure _ => true
  | .invariant _ | .crash | .exhausted => false

/-- How an exception that nothing caught is reported: by its message, or else by its word. -/
def exceptionText (v : Value) (message : Text) : Text :=
  Text.ofString "uncaught exception: " ++
    (if message = [] then Text.ofString "0x" ++ Text.ofNatHex v.word.toNat else message)

/-- A heap with the objects that every script finds there. -/
structure Realm where
  heap : Heap
  scopes : Scopes
  objectProto : ObjectRef
  functionProto : ObjectRef
  arrayProto : ObjectRef
  errorProto : ObjectRef
  globalObject : ObjectRef
  /-- The environment of the global object. -/
  globalEnv : EnvRef
  /-- The constructors of errors. -/
  constructors : List (ErrorKind × ObjectRef)
  /-- The function whose direct calls evaluate text. -/
  evalFunction : ObjectRef

/-- What a run changes. -/
structure World where
  realm : Realm
  machine : Machine
  /-- What was printed, a line each. -/
  output : Array Text
  /-- The stubs that compiled code left for. -/
  stubCalls : Array Stub

/-- A step of a run. -/
abbrev Run := EStateM Fault World

/-- What an object is to be converted to. -/
inductive Hint
  | default
  | number
  | string
  deriving DecidableEq

/-- How a step goes back into evaluation. -/
structure Evaluator where
  /-- Call a function with a receiver and arguments. -/
  call : Value → Value → List Value → Run Value
  /-- Convert an object to a primitive. -/
  toPrimitive : Value → Hint → Run Primitive
  /-- Render a value for a message, without running compiled code. -/
  display : Value → Run Text

namespace Run

section

variable {α β : Type} {x : Run α} {f : α → Run β} {w w' : World}

theorem bind_ok {a : α} (h : x w = .ok a w') : (x >>= f) w = f a w' := by
  change EStateM.bind x f w = _
  rw [EStateM.bind, h]

theorem bind_error {e : Fault} (h : x w = .error e w') : (x >>= f) w = .error e w' := by
  change EStateM.bind x f w = _
  rw [EStateM.bind, h]

end

/-- The current heap. -/
def heap : Run Heap := return (← get).realm.heap

/-- The current realm. -/
def realm : Run Realm := return (← get).realm

/-- The current machine. -/
def machine : Run Machine := return (← get).machine

theorem heap_run (w : World) : heap w = .ok w.realm.heap w := rfl

theorem realm_run (w : World) : realm w = .ok w.realm w := rfl

theorem machine_run (w : World) : machine w = .ok w.machine w := rfl

/-- Change the realm. -/
def modifyRealm (f : Realm → Realm) : Run Unit :=
  modify fun w => { w with realm := f w.realm }

/-- Change the heap. -/
def modifyHeap (f : Heap → Heap) : Run Unit :=
  modifyRealm fun r => { r with heap := f r.heap }

/-- Change the environments. -/
def modifyScopes (f : Scopes → Scopes) : Run Unit :=
  modifyRealm fun r => { r with scopes := f r.scopes }

/-- Change the machine. -/
def modifyMachine (f : Machine → Machine) : Run Unit :=
  modify fun w => { w with machine := f w.machine }

/-- Run a step; a recoverable fault becomes a result. -/
def attempt {α : Type} (x : Run α) : Run (Except Fault α) := fun w =>
  match x w with
  | .ok a w => .ok (.ok a) w
  | .error e w => if e.isRecoverable then .ok (.error e) w else .error e w

/-- The string value of a text. -/
def intern (t : Text) : Run Value := modifyGet fun w =>
  let (v, h) := w.realm.heap.intern t
  (v, { w with realm := { w.realm with heap := h } })

/-- The string value of a text, as a primitive. -/
def internPrimitive (t : Text) : Run Primitive := modifyGet fun w =>
  (⟨(w.realm.heap.intern t).1, w.realm.heap.isObject_intern t⟩,
    { w with realm := { w.realm with heap := (w.realm.heap.intern t).2 } })

/-- The text of a string value. -/
def textOf (v : Value) : Run Text := return (← heap).text v

/-- The text that a value names as a string; it must exist. -/
def textOrCrash (v : Value) : Run Text := do
  match (← heap).text? v with
  | some t => return t
  | none => throw .crash

/-- The object with a number; it must exist. -/
def object (r : ObjectRef) : Run Object := do
  match (← heap).object? r with
  | some o => return o
  | none => throw .crash

/-- The object that a value names by its handle; it must exist. -/
def refOrCrash (v : Value) : Run ObjectRef := do
  let r := v.handle.toNat
  match (← heap).object? r with
  | some _ => return r
  | none => throw .crash

/-- The object to inherit from if a value is given for it: the value's object, or else the one that
plain objects inherit from. -/
def protoOf (v : Value) : Run ObjectRef := do
  if v.isObject then refOrCrash v else return (← realm).objectProto

/-- Add an object. -/
def alloc (o : Object) : Run ObjectRef := modifyGet fun w =>
  let (r, h) := w.realm.heap.alloc o
  (r, { w with realm := { w.realm with heap := h } })

/-- Change an object. -/
def modifyObject (r : ObjectRef) (f : Object → Object) : Run Unit :=
  modifyHeap fun h => h.modify r f

/-- Set a named property of an object. -/
def define (r : ObjectRef) (key : Text) (p : Property) : Run Unit :=
  modifyObject r fun o => o.define key p

/-- A new plain object. -/
def newObject : Run ObjectRef := do
  alloc (Object.ofClass .object (some (← realm).objectProto))

/-- A new array of holes. -/
def newArray (n : Nat) : Run ObjectRef := do
  alloc { Object.ofClass .array (some (← realm).arrayProto) with
    elements := Elements.holes n }

/-- Print a line. -/
def printLine (t : Text) : Run Unit :=
  modify fun w => { w with output := w.output.push (t ++ Text.ofString "\n") }

/-! ## Errors -/

/-- A new error object. -/
def newError (proto : ObjectRef) (message : Text) : Run ObjectRef := do
  let r ← alloc (Object.ofClass .error (some proto))
  if message ≠ [] then define r "message" (Property.hidden (← intern message))
  return r

/-- How an error is written: its name, and its message if there is one. -/
def errorText (h : Heap) (r : ObjectRef) : Text :=
  let name := h.propertyText r "name"
  let message := h.propertyText r "message"
  if message = [] then name else name ++ Text.ofString ": " ++ message

/-- What the constructor of a kind of errors has for its prototype, if that is a value. -/
def errorPrototype? (realm : Realm) (kind : ErrorKind) : Option Value := do
  let ctor ← realm.constructors.lookup kind
  ((realm.heap.object ctor).own? "prototype").bind Property.value?

/-- Throw a new error object. -/
def raise {α : Type} (kind : ErrorKind) (message : Text) : Run α := do
  let realm ← realm
  let r ← newError (← protoOf ((errorPrototype? realm kind).getD Value.undefined)) message
  throw (.thrown (Heap.value r) (errorText (← heap) r))

/-- Give up: the program broke a rule of the runtime. -/
def internalError {α : Type} (message : Text) : Run α :=
  throw (.failure (Text.ofString "internal: " ++ message))

end Run

end RegisterJit
