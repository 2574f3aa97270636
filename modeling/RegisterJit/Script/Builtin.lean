import RegisterJit.Script.Property

/-!
# Built-in functions

What the functions that are not written in bytecode do, and the realm in which they are installed.

A function takes its receiver and its arguments as values and works on the world; some convert their
arguments by calling methods, which may run scripts. `ofConfig` builds the realm with all of them.
`Proofs.Service` shows that they go on by the changes that all steps go on by, `Proofs.Possession`
that they make up no strings.
-/

namespace RegisterJit

namespace Run

/-- Argument `i`, undefined if it was not passed. -/
def argument (args : List Value) (i : Nat) : Value := args.getD i Value.undefined

/-- The array that a method was called on. -/
def arrayReceiver (method : String) (this : Value) : Run ObjectRef := do
  let fail := raise .typeError (Text.ofString "Array.prototype." ++ Text.ofString method ++
    Text.ofString " called on non-array")
  match Heap.ref? this with
  | some r => if (← object r).cls = .array then return r else fail
  | none => fail

/-- A text with its first letter in upper case. -/
def capitalized : Text → Text
  | [] => []
  | b :: rest => (if 0x61 ≤ b ∧ b ≤ 0x7a then b - 0x20 else b) :: rest

/-- What a direct evaluation yields: its argument, unless that is source text. -/
def evaluate (args : List Value) : Run Value :=
  match args with
  | [] => return Value.undefined
  | v :: _ =>
    if v.isString then raise .evalError "eval of source text is not supported" else return v

/-- The elements `0`, `1`, … of a list-like object, after those in `done`, which stand in reverse
order. -/
def listItems (ev : Evaluator) (list : Value) :
    (count i : Nat) → (done : List Value) → Run (List Value)
  | 0, _, done => return done.reverse
  | count + 1, i, done => do
    let v ← getProperty ev list (Text.ofNat i)
    listItems ev list count (i + 1) (v :: done)

/-- How many items a length stands for: its integer part, and none if that needs more than 63
bits. -/
def itemCount (x : Double) : Nat :=
  let n := x.truncInt
  if x.isFinite ∧ 0 ≤ n ∧ n < 2 ^ 63 then n.toNat else 0

/-- The arguments that `apply` passes on. -/
def applyArguments (ev : Evaluator) (v : Value) : Run (List Value) := do
  match Heap.ref? v with
  | none => return []
  | some r =>
    let count ← toNumber ev (← get ev r lengthKey v)
    listItems ev v (itemCount count) 0 []

/-- The texts of values, after those in `done`, which stand in reverse order. -/
def textsOf (ev : Evaluator) : (done : List Text) → List Value → Run (List Text)
  | done, [] => return done.reverse
  | done, v :: rest => do textsOf ev ((← toText ev v) :: done) rest

/-- A new array of a length given as a number, or of the arguments. -/
def makeArray (args : List Value) : Run Value := do
  match args with
  | [n] =>
    if n.isNumber then
      let x := n.toNumber
      if x.eq (Double.ofInt x.toUInt32.toNat) then
        return Heap.value (← newArray x.toUInt32.toNat)
      else raise .rangeError "invalid array length"
    else fill
  | _ => fill
where
  /-- An array of the arguments. -/
  fill : Run Value := do
    let r ← newArray 0
    modifyObject r fun o => { o with elements := o.elements.append args.toArray }
    return Heap.value r

/-- Run a built-in function. -/
def builtin (ev : Evaluator) (b : Builtin) (this : Value) (args : List Value) : Run Value := do
  match b with
  | .objectToString =>
    match Heap.ref? this with
    | some r => intern (← defaultText ev r)
    | none =>
      let name := capitalized ((← heap).typeName this)
      intern (Text.ofString "[object " ++ name ++ Text.ofString "]")
  | .objectValueOf =>
    match Heap.ref? this with
    | some r =>
      let p := (← object r).primitive
      return if p.isEmpty then this else p.value
    | none => return this
  | .objectHasOwnProperty =>
    let r ← toObject this
    let key ← propertyKey ev (argument args 0)
    return Value.ofBool ((← object r).hasOwn key)
  | .functionCall => ev.call this (argument args 0) (args.drop 1)
  | .functionApply =>
    let rest ← applyArguments ev (argument args 1)
    ev.call this (argument args 0) rest
  | .arrayPush =>
    let r ← arrayReceiver "push" this
    modifyObject r fun o => { o with elements := o.elements.append args.toArray }
    return Value.ofInt (← object r).elements.size
  | .arrayPop =>
    let r ← arrayReceiver "pop" this
    match (← object r).elements.items.back? with
    | none => return Value.undefined
    | some v =>
      modifyObject r fun o => o.setLength (o.elements.size - 1)
      return if v.isEmpty then Value.undefined else v
  | .arrayJoin =>
    let r ← arrayReceiver "join" this
    let comma : Text := ","
    let sep ←
      match args with
      | [] => pure comma
      | v :: _ => if v.isUndefined then pure comma else toText ev v
    intern (← join ev r sep)
  | .errorToString =>
    match Heap.ref? this with
    | none => raise .typeError "Error.prototype.toString called on non-object"
    | some r =>
      let h ← heap
      let name := h.propertyText r "name"
      let message := h.propertyText r "message"
      intern (if message = [] then name
        else if name = [] then message
        else name ++ Text.ofString ": " ++ message)
  | .errorConstructor proto =>
    let message ←
      match args with
      | [] => pure []
      | v :: _ => if v.isUndefined then pure [] else toText ev v
    return Heap.value (← newError proto message)
  | .print =>
    printLine (Text.join " " (← textsOf ev [] args))
    return Value.undefined
  | .eval => evaluate args
  | .isNaN => return Value.ofBool (← toNumber ev (argument args 0)).isNaN
  | .stringFunction =>
    match args with
    | [] => intern []
    | v :: _ => intern (← toText ev v)
  | .numberFunction =>
    match args with
    | [] => return Value.ofInt 0
    | v :: _ => return Value.number (← toNumber ev v)
  | .arrayFunction => makeArray args
  | .objectFunction =>
    let v := argument args 0
    if v.isNullOrUndefined then return Heap.value (← newObject)
    else return Heap.value (← toObject v)
  | .receiver => return this
  | .callback =>
    match args with
    | [] => throw .crash
    | fn :: rest => ev.call fn this rest

/-! ## Functions as objects -/

/-- A new object for a built-in function. -/
def newBuiltin (name : Text) (arity : Int) (b : Builtin) : Run ObjectRef := do
  let r ← alloc { Object.ofClass .function (some (← realm).functionProto) with
    function := some ⟨name, .builtin b⟩ }
  define r lengthKey (Property.fixed (Value.ofInt arity))
  define r "name" (Property.fixed (← intern name))
  return r

/-- A new function object for a code in an environment. -/
def newFunction (code : MachineCode) (env : EnvRef) : Run ObjectRef := do
  let name := code.unit.code.name
  let r ← alloc { Object.ofClass .function (some (← realm).functionProto) with
    function := some ⟨name, .compiled code.unit.id.toNat env⟩ }
  let proto ← newObject
  define proto "constructor" (Property.hidden (Heap.value r))
  define r "prototype" ⟨.data (Heap.value proto) true, false, false⟩
  define r lengthKey (Property.fixed (Value.int32 code.unit.code.params))
  define r "name" (Property.fixed (← intern name))
  return r

/-- The object of the arguments of a call. -/
def newArguments (frame : UInt64) : Run ObjectRef := do
  let r ← alloc (Object.ofClass .arguments (some (← realm).objectProto))
  let m ← machine
  let n := (m.frameWord frame Frame.argumentCount).toNat
  (List.range n).forM fun i => define r (Text.ofNat i) (Property.plain (m.frameArgument frame i))
  define r lengthKey (Property.hidden (Value.ofInt n))
  define r "callee" (Property.hidden (m.frameCallee frame))
  return r

/-- Whether a text has only flags of regular expressions, none twice. -/
def validFlags : (seen : List Nat) → List Nat → Bool
  | _, [] => true
  | seen, f :: rest =>
    (f == 0x67 || f == 0x69 || f == 0x6d) && !seen.contains f && validFlags (f :: seen) rest

/-- A new regular expression. -/
def newRegExp (pattern flags : Value) : Run Value := do
  let source ← textOrCrash pattern
  let flagText ← textOrCrash flags
  let letters := Text.scalars flagText
  if !validFlags [] letters then
    raise .syntaxError (aboutKey "invalid regular expression flags" flagText "")
  let r ← alloc (Object.ofClass .regExp (some (← realm).objectProto))
  let flag (f : Nat) : Property := Property.fixed (Value.ofBool (letters.contains f))
  define r "source" (Property.fixed pattern)
  define r "flags" (Property.fixed flags)
  define r "global" (flag 0x67)
  define r "ignoreCase" (flag 0x69)
  define r "multiline" (flag 0x6d)
  define r "lastIndex" ⟨.data (Value.ofInt 0) true, false, false⟩
  if source = [] then define r "source" (Property.fixed (← intern "(?:)"))
  return Heap.value r

/-! ## The realm -/

/-- Install a built-in function as a property of an object. -/
def install (r : ObjectRef) (name : Text) (arity : Int) (b : Builtin) : Run ObjectRef := do
  let fn ← newBuiltin name arity b
  define r name (Property.hidden (Heap.value fn))
  return fn

/-- Install the constructor of a kind of errors. -/
def installError (kind : ErrorKind) : Run Unit := do
  let realm ← realm
  let proto ←
    if kind = .error then pure realm.errorProto
    else
      let r ← alloc (Object.ofClass .object (some realm.errorProto))
      define r "name" (Property.hidden (← intern kind.name))
      pure r
  let ctor ← install realm.globalObject kind.name 1 (.errorConstructor proto)
  define ctor "prototype" (Property.fixed (Heap.value proto))
  define proto "constructor" (Property.hidden (Heap.value ctor))
  modifyRealm fun r => { r with constructors := r.constructors ++ [(kind, ctor)] }

/-- Install everything that scripts find in a realm. -/
def installAll : Run Unit := do
  let realm ← realm
  let global := realm.globalObject
  let _ ← install realm.objectProto "toString" 0 .objectToString
  let _ ← install realm.objectProto "valueOf" 0 .objectValueOf
  let _ ← install realm.objectProto "hasOwnProperty" 1 .objectHasOwnProperty
  let _ ← install realm.functionProto "call" 1 .functionCall
  let _ ← install realm.functionProto "apply" 2 .functionApply
  let _ ← install realm.arrayProto "push" 1 .arrayPush
  let _ ← install realm.arrayProto "pop" 0 .arrayPop
  let _ ← install realm.arrayProto "join" 1 .arrayJoin
  define realm.errorProto "name" (Property.hidden (← intern "Error"))
  define realm.errorProto "message" (Property.hidden (← intern []))
  let _ ← install realm.errorProto "toString" 0 .errorToString
  ErrorKind.all.forM installError
  let _ ← install global "print" 1 .print
  let evalFunction ← install global "eval" 1 .eval
  modifyRealm fun r => { r with evalFunction := evalFunction }
  let _ ← install global "isNaN" 1 .isNaN
  let _ ← install global "String" 1 .stringFunction
  let _ ← install global "Number" 1 .numberFunction
  let arrayCtor ← install global "Array" 1 .arrayFunction
  define arrayCtor "prototype" (Property.fixed (Heap.value realm.arrayProto))
  let objectCtor ← install global "Object" 1 .objectFunction
  define objectCtor "prototype" (Property.fixed (Heap.value realm.objectProto))
  define global "undefined" (Property.fixed Value.undefined)
  define global "NaN" (Property.fixed (Value.double Double.nan))
  define global "Infinity" (Property.fixed (Value.double Double.infinity))
  define global "globalThis" (Property.hidden (Heap.value global))

end Run

namespace Realm

/-- A realm with its five first objects and nothing in them. -/
def bare : Realm :=
  let plain : Object := Object.ofClass .object (some 1)
  { heap := ⟨#[], #[Object.ofClass .object none, plain, plain, plain, plain]⟩
    scopes := ⟨#[⟨none, 0, .object 5⟩], #[]⟩
    objectProto := 1
    functionProto := 2
    arrayProto := 3
    errorProto := 4
    globalObject := 5
    globalEnv := 0
    constructors := []
    evalFunction := 0 }

end Realm

namespace World

/-- A world before anything has run. -/
def ofConfig (config : MachineConfig) : World :=
  let start : World := ⟨Realm.bare, Machine.ofConfig config, #[], #[]⟩
  match Run.installAll.run start with
  | .ok _ w => w
  | .error _ w => w

end World

end RegisterJit
