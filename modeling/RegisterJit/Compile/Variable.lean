import RegisterJit.Compile.Emit

/-!
# Compiling loads, variables and members

Moves and constants are done inline. Variables, members and literals are left to stubs; a member
access first makes sure that its base is neither null nor undefined.

Each emitter loads the registers that its stub expects and stores the answer. Since the work is done
elsewhere, what is proved about these is which references they hand over (`Proofs.References`) and
that the test before a member access agrees with the classes of values (`Proofs.Forks`).
-/

namespace RegisterJit.Emit

open X86 (Reg Instr)

/-- Copy a register. -/
def move (dst src : Register) : Emit Unit := do
  load .rax src
  storeResult dst

/-- The value of an immediate. -/
def immediateValue : Immediate → Value
  | .undefined => Value.undefined
  | .empty => Value.empty
  | .null => Value.null
  | .true => Value.true
  | .false => Value.false

/-- Load a constant with an opcode of its own. -/
def loadImmediate (i : Immediate) (dst : Register) : Emit Unit := do
  if i = .empty then instr (.alu .xor .w32 .rax .rax)
  else immediate .rax (immediateValue i).word.toUInt32
  storeResult dst

/-- Load an integer. -/
def loadInt32 (dst : Register) (i : Int32) : Emit Unit := do
  instr (.movValue .rax (Value.int32 i.toUInt32).word)
  storeResult dst

/-- Load a boxed constant. -/
def loadConst (dst : Register) (k : UInt32) : Emit Unit := do
  instr (.movValue .rax (← constant k).word)
  storeResult dst

/-- Load the function that is running. -/
def loadCallee (dst : Register) : Emit Unit := do
  instr (.load .rax frameReg Frame.callee)
  storeResult dst

/-- Make the arguments object. -/
def loadArguments (dst : Register) : Emit Unit := do
  frame .rsi
  callStub .loadArguments
  storeResult dst

/-- Make a function of a nested code in the current environment. -/
def loadFunction (dst : Register) (index : UInt32) : Emit Unit := do
  let u := (← read).unit
  if u.code.codes.length ≤ index.toNat then throw (.nestedRange u.code.name index)
  frame .rsi
  instr (.movValue .rdx (codeReference u.id index))
  callStub .loadFunction
  storeResult dst

/-- Make a regular expression from two constants. -/
def loadRegExp (dst : Register) (pattern flags : UInt32) : Emit Unit := do
  instr (.movValue .rsi (← constant pattern).word)
  instr (.movValue .rdx (← constant flags).word)
  callStub .loadRegExp
  storeResult dst

/-- Make an array of a given length. -/
def loadArray (dst : Register) (size : UInt32) : Emit Unit := do
  immediate .rsi size
  callStub .loadArray
  storeResult dst

/-- Put `count` registers from `start` on into an array from `index` on. -/
def initVectorElement (array start : Register) (index count : UInt32) : Emit Unit := do
  load .rsi array
  registerAddress .rdx start
  immediate .rcx index
  immediate .r8 count
  callStub .initVectorElement

/-- Put one register into an array. -/
def initSparseElement (array : Register) (index : UInt32) (src : Register) : Emit Unit := do
  load .rsi array
  immediate .rdx index
  load .rcx src
  callStub .initSparseElement

/-- Make an empty object. -/
def loadObject (dst : Register) : Emit Unit := do
  callStub .loadObject
  storeResult dst

/-- Define a part of a property of an object literal. -/
def storeObject (part : PropertyPart) (object item : Register) (merged name : UInt32) :
    Emit Unit := do
  load .rsi object
  symbol .rdx name
  load .rcx item
  immediate .r8 merged
  callStub (.storeObject part)

/-! ## Variables -/

/-- A stub of a name. -/
def nameStub (s : Stub) (dst : Register) (name : UInt32) : Emit Unit := do
  symbol .rsi name
  callStub s
  storeResult dst

/-- A stub of a frame and a name. -/
def frameNameStub (s : Stub) (dst : Register) (name : UInt32) : Emit Unit := do
  frame .rsi
  symbol .rdx name
  callStub s
  storeResult dst

/-- Load the mode of a step. -/
def stepMode (dst : Reg) (s : Step) : Emit Unit := do
  immediate dst (s.mode (← isStrict))

/-- An access to a global variable. -/
def global (a : VariableAccess) (r : Register) (name : UInt32) : Emit Unit := do
  match a with
  | .load =>
    symbol .rsi name
    instructionPointer .rdx
    callStub .loadGlobal
    storeResult r
  | .store =>
    symbol .rsi name
    load .rdx r
    instructionPointer .rcx
    callStub (.storeGlobal (← isStrict))
  | .delete => nameStub .deleteGlobal r name
  | .typeof => nameStub .typeofGlobal r name
  | .step s =>
    symbol .rsi name
    stepMode .rdx s
    callStub .stepGlobal
    storeResult r

/-- A stub of a slot of an enclosing environment. -/
def heapStub (s : Stub) (dst : Register) (name offset nest : UInt32) : Emit Unit := do
  frame .rsi
  symbol .rdx name
  immediate .rcx offset
  immediate .r8 nest
  callStub s
  storeResult dst

/-- An access to a slot of an enclosing environment. -/
def heap (a : VariableAccess) (r : Register) (name offset nest : UInt32) : Emit Unit := do
  match a with
  | .load => heapStub .loadHeap r name offset nest
  | .typeof => heapStub .typeofHeap r name offset nest
  | .store =>
    frame .rsi
    load .rdx r
    immediate .rcx offset
    immediate .r8 nest
    callStub .storeHeap
  | .delete => loadImmediate .false r
  | .step s =>
    frame .rsi
    stepMode .rdx s
    immediate .rcx offset
    immediate .r8 nest
    callStub .stepHeap
    storeResult r

/-- An access to a variable found by its name. -/
def dynamic (a : VariableAccess) (r : Register) (name : UInt32) : Emit Unit := do
  match a with
  | .load => frameNameStub .loadName r name
  | .delete => frameNameStub .deleteName r name
  | .typeof => frameNameStub .typeofName r name
  | .store =>
    frame .rsi
    symbol .rdx name
    load .rcx r
    callStub (.storeName (← isStrict))
  | .step s =>
    frame .rsi
    symbol .rdx name
    stepMode .rcx s
    callStub .stepName
    storeResult r

/-! ## Members -/

/-- Load the base of a member access and raise an error when it is null or undefined. The
accumulator is left alone on the way through. -/
def coercible (base : Register) : Emit Unit := do
  load .rsi base
  let saved := (← get).cached
  let ok ← newLabel
  compareNullish .rsi
  jcc .ne ok
  callStubNoReturn .raiseNotCoercible
  bind ok
  modify fun e => { e with cached := saved }

/-- An access to a named property. `r` is the source of a store and the destination otherwise. -/
def prop (a : MemberAccess) (r base : Register) (name : UInt32) : Emit Unit := do
  coercible base
  symbol .rdx name
  match a with
  | .load =>
    instructionPointer .rcx
    callStub .loadProp
    storeResult r
  | .store =>
    load .rcx r
    instructionPointer .r8
    callStub (.storeProp (← isStrict))
  | .delete =>
    callStub (.deleteProp (← isStrict))
    storeResult r
  | .step s =>
    stepMode .rcx s
    callStub .stepProp
    storeResult r

/-- An access to a computed property. -/
def element (a : MemberAccess) (r base index : Register) : Emit Unit := do
  coercible base
  load .rdx index
  match a with
  | .load =>
    callStub .loadElement
    storeResult r
  | .store =>
    load .rcx r
    callStub (.storeElement (← isStrict))
  | .delete =>
    callStub (.deleteElement (← isStrict))
    storeResult r
  | .step s =>
    stepMode .rcx s
    callStub .stepElement
    storeResult r

/-! ## Environments -/

/-- Bind the pending exception to a name in a new scope. -/
def tryCatchSetup (dst : Register) (name : UInt32) : Emit Unit :=
  frameNameStub .tryCatchSetup dst name

/-- Enter a new environment of slots; those below `mutableStart` are write-once. -/
def buildEnv (size mutableStart : UInt32) : Emit Unit := do
  frame .rsi
  immediate .rdx size
  immediate .rcx mutableStart
  callStub .buildEnv

/-- Declare a name in the variable environment. -/
def instantiate (isVariable : Bool) (name : UInt32) (configurable : Bool) : Emit Unit := do
  frame .rsi
  symbol .rdx name
  callStub (.instantiate isVariable configurable)

/-- Give a write-once slot its value. -/
def initializeHeapImmutable (src : Register) (offset : UInt32) : Emit Unit := do
  frame .rsi
  load .rdx src
  immediate .rcx offset
  callStub .initializeHeapImmutable

/-- Enter the scope of an object. -/
def withSetup (src : Register) : Emit Unit := do
  frame .rsi
  load .rdx src
  callStub .withSetup

/-- Leave the innermost environment. -/
def popEnv : Emit Unit := do
  frame .rsi
  callStub .popEnv

end RegisterJit.Emit
