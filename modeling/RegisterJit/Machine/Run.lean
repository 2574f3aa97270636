import RegisterJit.Script.Call

/-!
# Running programs

A machine compiles programs and runs them. Whenever compiled code leaves for a stub, the runtime
does its work and compiled code goes on, or an exception is delivered: the native stack is searched
for the innermost call that lies in the region of a handler. Stubs may start nested runs, which use
the native stack below the suspended one.

The evaluator is by recursion on the depth of nested evaluations, and a run of the processor is
bounded as well, both so far away that no run comes there; running out is a fault of its own.
`Proofs.Service` and `Proofs.Evolution` say what a run may change, `Proofs.Delivery` where an
exception goes, `Proofs.Proceeding` how runs of compiled code are put together.
-/

namespace RegisterJit

/-- The place and the handler that cover an address of a code: the first one of its handlers. -/
def PlacedUnit.handlerAt? (p : PlacedUnit) (pc : UInt64) : Option (Handler × UInt64) :=
  let covering := (p.unit.code.handlers.toList.zip p.handlers.toList).find?
    fun (_, start, stop) => start ≤ pc && pc < stop
  covering.map fun (h, _, stop) => (h, stop)

namespace Run

/-- An address in a message. -/
def addressText (a : UInt64) : Text := Text.ofString "0x" ++ Text.ofNatHex a.toNat

/-- Write a register of a frame. -/
def setRegister (frame : FrameRef) (r : Register) (v : Value) : Run Unit :=
  match Frame.registerOffset? r with
  | some offset => modifyMachine fun m => m.setFrameWord frame offset v.word
  | none => throw (.invariant .invalidRegister)

/-- Let compiled code run until it leaves; the result is the status it leaves with. -/
def execute : Run UInt64 := fun ⟨realm, machine, output, stubCalls⟩ =>
  match machine.execute with
  | some m => .ok (m.cpu.reg .rax) ⟨realm, m, output, stubCalls⟩
  | none => .error .crash ⟨realm, Machine.ofConfig ⟨0, 0, 0⟩, output, stubCalls⟩

/-- Return to compiled code with the results of a stub. -/
def resume (r0 r1 : UInt64) : Run UInt64 := do
  modifyMachine fun m => m.resume r0 r1
  execute

/-- Give an exception to a handler: the call that lies in its region goes on after the region, in
its own frame. -/
def enterHandler (v : Value) (sp : UInt64) (frame : FrameRef) (p : PlacedUnit) (h : Handler)
    (target : UInt64) : Run UInt64 := do
  let limit := frame + X86.displacementWord (Frame.limit p.unit.code.registerCount)
  modifyMachine fun m =>
    let m := m.writeWord sp target
    let m := m.setContextWord Context.nativeSP sp
    let m := m.setContextWord Context.savedR12 frame
    m.setContextWord Context.stackPointer limit
  if h.kind = Handler.kindCatch then
    modifyMachine fun m => m.setContextWord Context.exception v.word
  else
    setRegister frame h.flag (Value.int32 finallyThrow)
    setRegister frame h.jump v
  unwindEnv frame h.level
  resume 0 0

/-- Search the native stack from a return address on. Each function has its return address there
with its caller's frame above it; the search ends where the run was entered. -/
def deliverFrom (v : Value) (message : Text) : (fuel : Nat) → UInt64 → FrameRef → Run UInt64
  | 0, _, _ => throw .exhausted
  | fuel + 1, sp, frame => do
    let m ← machine
    let ra := m.readWord sp
    match m.imageOf ra with
    | none =>
      throw (.failure (Text.ofString "unwind: return address " ++ addressText ra ++
        Text.ofString " outside compiled code"))
    | some img =>
      if ra = img.returnSite then throw (.thrown v message)
      match img.lookup ra with
      | none => throw (.failure (Text.ofString "unwind: no code at " ++ addressText ra))
      | some p =>
        match p.handlerAt? (ra - 1) with
        | some (h, target) => enterHandler v sp frame p h target
        | none => deliverFrom v message fuel (sp + 16) (m.readWord (sp + 24))

/-- Deliver an exception thrown by a stub. -/
def deliver (v : Value) (message : Text) : Run UInt64 := do
  let m ← machine
  deliverFrom v message (m.nativeEnd - m.nativeBase).toNat (m.contextWord Context.nativeSP) m.frame

/-- Do the work of the stub that compiled code left for, and return. -/
def serveStub (ev : Evaluator) : Run UInt64 := do
  let ⟨number, a, b, c, d, e⟩ := (← machine).pendingStub
  match Stub.ofNat? number.toNat with
  | none => throw .crash
  | some s =>
    modify fun w => { w with stubCalls := w.stubCalls.push s }
    match ← attempt (stub ev s a b c d e) with
    | .ok (r0, r1) => resume r0 r1
    | .error (.thrown v message) => deliver v message
    | .error (.failure message) =>
      throw (.failure (Text.ofString "stub " ++ Text.ofString s.name ++ Text.ofString ": " ++
        message))
    | .error fault => throw fault

/-- Serve stubs until the run returns. -/
def serve (ev : Evaluator) : (fuel : Nat) → (status : UInt64) → Run Value
  | 0, _ => throw .exhausted
  | fuel + 1, status => do
    if status = exitReturn.toUInt64 then
      return ⟨(← machine).contextWord Context.result⟩
    else serve ev fuel (← serveStub ev)

/-- The native stack pointer and the caller's frame of a run that is about to start. A nested run
keeps clear of the stub that starts it. -/
def nativeStart : Run (UInt64 × FrameRef) := do
  let m ← machine
  if m.depth = 0 then return (m.nativeEnd, 0)
  else
    let sp := m.contextWord Context.nativeSP - Machine.nativeReserve
    if m.nativeStackAvailable sp then return (sp &&& ~~~(15 : UInt64), m.frame)
    else throw .stackOverflow

/-- Run a call in an image, from the start of its native stack to its return. -/
def runCall (ev : Evaluator) (image : Image) (call : Call) : Run Value := do
  let (sp, prev) ← nativeStart
  modifyMachine fun m => m.setContextWord Context.nativeSP sp
  match ← pushFrame prev call with
  | none => throw .stackOverflow
  | some frame =>
    modifyMachine fun m => m.enter image frame call.code.entry
    serve ev Machine.stepBound (← execute)

/-- Do something and put the context and the depth back, whatever comes of it. -/
def restoring {α : Type} (x : Run α) : Run α := fun w =>
  let context := w.machine.contextWords
  let depth := w.machine.depth
  let restore (w : World) : World :=
    { w with machine := { w.machine.restoreContext context with depth := depth } }
  match x w with
  | .ok a w => .ok a (restore w)
  | .error e w => .error e (restore w)

/-- Run a call to completion. It may be made from inside a stub. -/
def invoke (ev : Evaluator) (call : Call) : Run Value := do
  let name := call.code.unit.code.name
  if call.code.entry = 0 then
    throw (.failure (Text.ofString "invoke " ++ name ++ Text.ofString ": code is not linked"))
  match (← machine).imageOf call.code.entry with
  | none =>
    throw (.failure (Text.ofString "invoke " ++ name ++
      Text.ofString ": code belongs to another machine"))
  | some image => restoring (runCall ev image.toImage call)

/-- Call a function. Without a machine, compiled functions cannot be called. -/
def callWith (ev : Evaluator) (attached : Bool) (fn this : Value) (args : List Value) :
    Run Value := do
  let h ← heap
  match (Heap.ref? fn).bind fun r => (h.object r).function with
  | none => raise .typeError ((← ev.display fn) ++ Text.ofString " is not a function")
  | some ⟨_, .builtin b⟩ => builtin ev b this args
  | some ⟨name, .compiled code env⟩ =>
    if !attached then
      internalError (Text.ofString "cannot call " ++ name ++
        Text.ofString " outside a running machine")
    let target ← codeOrCrash code.toUInt32
    let this ← receiver target.unit.code this
    match ← attempt (invoke ev ⟨target, fn, this, args, env.toUInt64, false⟩) with
    | .ok v => return v
    | .error .stackOverflow => tooDeep
    | .error fault => throw fault

/-- Evaluation with a bound on nesting. Messages are rendered without a machine. -/
def evaluator : (attached : Bool) → (fuel : Nat) → Evaluator
  | _, 0 => ⟨fun _ _ _ => throw .exhausted, fun _ _ => throw .exhausted, fun _ => throw .exhausted⟩
  | attached, fuel + 1 =>
    ⟨fun fn this args => callWith (evaluator attached fuel) attached fn this args,
      fun v hint => toPrimitiveWith (evaluator attached fuel) v hint,
      fun v => displayWith (evaluator false fuel) v⟩

/-- A depth of nested evaluations that no run reaches. -/
def nestingBound : Nat := 2 ^ 62

/-- Evaluation on a machine. -/
def onMachine : Evaluator := evaluator true nestingBound

/-- Evaluation without a machine. -/
def detached : Evaluator := evaluator false nestingBound

end Run

end RegisterJit
