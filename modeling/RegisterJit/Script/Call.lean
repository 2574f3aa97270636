import RegisterJit.Script.Builtin
import RegisterJit.Script.Operator
import RegisterJit.Script.Variable

/-!
# Stubs

What the runtime does when compiled code leaves for a stub. A stub gets five words, of which it uses
those it needs, and gives back two. A call of a built-in function is done on the spot; for a
compiled function the stub makes a frame, which compiled code then enters.

`stub` has a case for each stub and is what all statements about the runtime as a whole are about:
`Proofs.Service` says what it may change, `Proofs.Possession` which strings it yields,
`Proofs.Slots` which stub may fill slots. Frames are made by `pushFrame`, whose sizes wrap as the
32-bit arithmetic of the code does; `Proofs.Frames` has the bounds.
-/

namespace RegisterJit.Run

/-- The code with a number; it must exist. -/
def codeOrCrash (id : UInt32) : Run MachineCode := do
  match (← machine).code? id with
  | some c => return c
  | none => throw .crash

/-- The name that a reference names. -/
def symbol (ref : UInt64) : Run Text := do
  let (id, index) := splitReference ref
  match (← codeOrCrash id).unit.code.names[index.toNat]? with
  | some t => return t
  | none => throw .crash

/-- The place of an instruction in a message. -/
def siteText (ref : UInt64) : Run Text := do
  let (id, offset) := splitReference ref
  match (← machine).code? id with
  | some c => return c.unit.code.name ++ Text.ofString "@" ++ Text.ofNat offset.toNat
  | none => return "?"

/-- Whether the code of a frame is strict. -/
def frameStrict (frame : FrameRef) : Run Bool := do
  let id := ((← machine).frameWord frame Frame.code).toUInt32
  return (← codeOrCrash id).unit.code.strict

/-- The receiver of a call. Code that is not strict gets the global object for a missing one. -/
def receiver (code : Code) (this : Value) : Run Value := do
  if !code.strict && isNullish this then return Heap.value (← realm).globalObject
  return this

/-- The error for calls that go too deep. -/
def tooDeep {α : Type} : Run α := raise .rangeError "maximum call stack size exceeded"

/-- A new object for a constructor to fill. -/
def newInstance (ev : Evaluator) (callee : Value) (fn : ObjectRef) : Run Value := do
  let base ← protoOf (← get ev fn "prototype" callee)
  return Heap.value (← alloc (Object.ofClass .object (some base)))

/-- Make a frame; there is none if the register stack is too small. -/
def pushFrame (prev : UInt64) (call : Call) : Run (Option UInt64) := do
  if (← machine).frameFits call then
    modifyGet fun w =>
      let (frame, m) := w.machine.layFrame prev call
      (some frame, { w with machine := m })
  else return none

/-- Make a frame for a call of a compiled function from compiled code. -/
def enterCompiled (callee this : Value) (args : List Value) (code : Nat) (env : EnvRef)
    (construct : Bool) (nativeSP : UInt64) : Run UInt64 := do
  if !(← machine).nativeStackAvailable nativeSP then tooDeep
  let target ← codeOrCrash code.toUInt32
  let this ← if construct then pure this else receiver target.unit.code this
  match ← pushFrame (← machine).frame ⟨target, callee, this, args, env.toUInt64, construct⟩ with
  | none => tooDeep
  | some frame => return frame

/-- The error for a call of what is no function. -/
def notCallable {α : Type} (ev : Evaluator) (callee : Value) (site : UInt64) : Run α := do
  let shown ← ev.display callee
  raise .typeError (shown ++ Text.ofString " is not a function (" ++ (← siteText site) ++
    Text.ofString ")")

/-- Run a function for a call from compiled code in a frame. A constructor that is built in yields its
new object unless it makes another. -/
def callFunction (ev : Evaluator) (frame : UInt64) (f : Function) (callee this : Value)
    (args : List Value) (construct : Bool) (nativeSP : UInt64) : Run (UInt64 × UInt64) := do
  match f.body with
  | .builtin b =>
    let result ← builtin ev b this args
    let result := if construct && !result.isObject then this else result
    return (frame, result.word)
  | .compiled code env =>
    return (← enterCompiled callee this args code env construct nativeSP, 0)

/-- A call from compiled code: the callee, the address of the receiver with the arguments behind it,
their number, the native stack pointer and the instruction. The first word of the result is the
current frame when the call is done, and its result is the second; otherwise it is the frame to
enter. -/
def callStub (ev : Evaluator) (s : Stub) (callee : Value) (address count nativeSP site : UInt64) :
    Run (UInt64 × UInt64) := do
  let frame := (← machine).frame
  let args := (← machine).window (address + 8) count.toNat
  let this : Value := ⟨(← machine).readWord address⟩
  let realm ← realm
  match Heap.ref? callee with
  | none => notCallable ev callee site
  | some fn =>
    match (realm.heap.object fn).function with
    | none => notCallable ev callee site
    | some f =>
      if s = .eval ∧ fn = realm.evalFunction then return (frame, (← evaluate args).word)
      if s = .construct then
        let this ← newInstance ev callee fn
        modifyMachine fun m => m.writeWord address this.word
        callFunction ev frame f callee this args true nativeSP
      else callFunction ev frame f callee this args false nativeSP

/-- Make a function of a nested code. -/
def loadFunction (frame : FrameRef) (ref : UInt64) : Run Value := do
  let (id, index) := splitReference ref
  let parent ← codeOrCrash id
  let code ← codeOrCrash (parent.nested index.toNat).toUInt32
  return Heap.value (← newFunction code (← lexicalEnv frame))

/-- What a stub does with its argument words. -/
def stub (ev : Evaluator) (s : Stub) (a b c d e : UInt64) : Run (UInt64 × UInt64) := do
  let result (x : Run Value) : Run (UInt64 × UInt64) := return ((← x).word, 0)
  let truth (x : Run Bool) : Run (UInt64 × UInt64) := return ((Value.ofBool (← x)).word, 0)
  let done (x : Run Unit) : Run (UInt64 × UInt64) := do x; return (0, 0)
  match s with
  | .binary op => result (binary ev op ⟨a⟩ ⟨b⟩)
  | .unaryPositive | .unaryNegative | .unaryNot | .unaryBitNot | .typeof | .increment | .decrement
  | .toNumber | .toPrimitiveString | .toBoolean => result (unaryStub ev s ⟨a⟩)
  | .concat => result do concat ev ((← machine).window a b.toNat)
  | .loadFunction => result (loadFunction a b)
  | .loadRegExp => result (newRegExp ⟨a⟩ ⟨b⟩)
  | .loadArguments => result do return Heap.value (← newArguments a)
  | .loadArray => result do return Heap.value (← newArray a.toNat)
  | .initVectorElement => done do
    let r ← refOrCrash ⟨a⟩
    let vs := (← machine).window b d.toNat
    modifyObject r fun o => o.setElements c.toNat vs
  | .initSparseElement => done do
    let r ← refOrCrash ⟨a⟩
    modifyObject r fun o => o.setElement b.toNat ⟨c⟩
  | .loadObject => result do return Heap.value (← newObject)
  | .storeObject part => done do
    let name ← symbol b
    storeObject part (← refOrCrash ⟨a⟩) name ⟨c⟩ (d != 0)
  | .loadGlobal => result do loadGlobal ev (← symbol a)
  | .storeGlobal strict => done do storeGlobal ev (← symbol a) ⟨b⟩ strict
  | .deleteGlobal => truth do deleteGlobal (← symbol a)
  | .typeofGlobal => result do typeofGlobal ev (← symbol a)
  | .stepGlobal => result do stepGlobal ev (← symbol a) b
  | .loadHeap => result do loadHeap a (← symbol b) c d
  | .storeHeap => done do storeHeap a ⟨b⟩ c d (← frameStrict a)
  | .typeofHeap => result do typeofHeap a (← symbol b) c d
  | .stepHeap => result (stepHeap ev a b c d)
  | .loadName => result do loadName ev a (← symbol b)
  | .storeName strict => done do storeName ev a (← symbol b) ⟨c⟩ strict
  | .deleteName => truth do deleteName a (← symbol b)
  | .typeofName => result do typeofName ev a (← symbol b)
  | .stepName => result do stepName ev a (← symbol b) c
  | .loadProp => result do getProperty ev ⟨a⟩ (← symbol b)
  | .storeProp strict => done do putProperty ev ⟨a⟩ (← symbol b) ⟨c⟩ strict
  | .deleteProp strict => truth do deleteProperty ⟨a⟩ (← symbol b) strict
  | .stepProp => result do stepProperty ev ⟨a⟩ (← symbol b) c
  | .loadElement => result (loadElement ev ⟨a⟩ ⟨b⟩)
  | .storeElement strict => done do putProperty ev ⟨a⟩ (← propertyKey ev ⟨b⟩) ⟨c⟩ strict
  | .deleteElement strict => truth do deleteProperty ⟨a⟩ (← propertyKey ev ⟨b⟩) strict
  | .stepElement => result do stepProperty ev ⟨a⟩ (← propertyKey ev ⟨b⟩) c
  | .raiseNotCoercible =>
    let shown ← ev.display ⟨a⟩
    raise .typeError (Text.ofString "cannot convert " ++ shown ++ Text.ofString " to object")
  | .raiseReference => raise .referenceError "invalid assignment target"
  | .raiseImmutable => constantAssigned (← symbol a)
  | .throw =>
    let shown ← ev.display ⟨a⟩
    throw (.thrown ⟨a⟩ shown)
  | .debugger => return (0, 0)
  | .tryCatchSetup => result do tryCatchSetup a (← symbol b)
  | .buildEnv => done (buildEnv a b c)
  | .instantiate isVariable configurable =>
    done do instantiate a (← symbol b) (!isVariable) configurable
  | .initializeHeapImmutable => done (initializeHeapImmutable a ⟨b⟩ c)
  | .withSetup => done (withSetup a ⟨b⟩)
  | .popEnv => done (popEnv a)
  | .forInSetup => result (enumerate ⟨a⟩)
  | .forInEnumerate => result (nextKey ⟨a⟩)
  | .forInLeave => done (endEnumeration ⟨a⟩)
  | .call | .construct | .eval => callStub ev s ⟨a⟩ b c d e
  | .prepareDynamicCall => result do prepareDynamicCall ev a (← symbol b) c

end RegisterJit.Run
