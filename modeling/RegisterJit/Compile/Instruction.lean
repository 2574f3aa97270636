import RegisterJit.Compile.Arithmetic
import RegisterJit.Compile.Control
import RegisterJit.Compile.Variable

/-!
# Compiling one instruction

The operands of an instruction, taken from its words, go to the emitter of its opcode.

There is one case for each family of opcodes. Proofs about all instructions, such as
`Proofs.Emission`, `Proofs.Bindings` and `Proofs.References`, have one theorem here, by cases on the
opcode, and a lemma for each emitter.
-/

namespace RegisterJit.Emit

/-- The label that an instruction jumps to. -/
def jumpLabel (ins : Instruction) : Emit X86.Label := targetLabel (ins.target?.getD 0)

/-- Emit the code of an instruction. -/
def instruction (ins : Instruction) : Emit Unit := do
  let r := ins.reg
  let u := ins.u32
  match ins.opcode with
  | .nop => modify fun e => { e with upcoming := e.cached }
  | .move => move (r 0) (r 1)
  | .loadImmediate i => loadImmediate i (r 0)
  | .loadInt32 => loadInt32 (r 0) (ins.i32 1)
  | .loadConst => loadConst (r 0) (u 1)
  | .loadCallee => loadCallee (r 0)
  | .loadArguments => loadArguments (r 0)
  | .loadFunction => loadFunction (r 0) (u 1)
  | .loadRegExp => loadRegExp (r 0) (u 1) (u 2)
  | .loadArray => loadArray (r 0) (u 1)
  | .initVectorElement =>
    let (array, start, index) := Word.unpack (ins.operand 0)
    initVectorElement array start index (u 1)
  | .initSparseElement => initSparseElement (r 0) (u 1) (r 2)
  | .loadObject => loadObject (r 0)
  | .storeObject part =>
    let (object, item, merged) := Word.unpack (ins.operand 0)
    storeObject part object item merged (u 1)
  | .global a => global a (r 0) (u 1)
  | .heap a => heap a (r 0) (u 1) (u 2) (u 3)
  | .dynamic a => dynamic a (r 0) (u 1)
  | .prop .store => prop .store (r 2) (r 0) (u 1)
  | .prop a => prop a (r 0) (r 1) (u 2)
  | .element .store => element .store (r 2) (r 0) (r 1)
  | .element a => element a (r 0) (r 1) (r 2)
  | .binary op => binary op (r 0) (r 1) (r 2)
  | .branch sense c => compareBranch sense c (r 0) (r 1) (← jumpLabel ins)
  | .unaryPositive => toNumber .unaryPositive (r 0) (r 1)
  | .toNumber => toNumber .toNumber (r 0) (r 1)
  | .unaryNegative => negate (r 0) (r 1)
  | .unaryNot => not (r 0) (r 1)
  | .unaryBitNot => bitNot (r 0) (r 1)
  | .typeof => unaryStub .typeof (r 0) (r 1)
  | .step s => if s.keepsOld then stepKeeping s (r 0) (r 1) else stepInPlace s (r 0)
  | .toPrimitiveString => toPrimitiveString (r 0) (r 1)
  | .concat => concat (r 0) (r 1) (u 2)
  | .raiseReference => callStubNoReturn .raiseReference
  | .raiseImmutable => symbol .rsi (u 0); callStubNoReturn .raiseImmutable
  | .throw => load .rsi (r 0); callStubNoReturn .throw
  | .debugger => callStub .debugger
  | .tryCatchSetup => tryCatchSetup (r 0) (u 1)
  | .buildEnv => buildEnv (u 0) (u 1)
  | .instantiateDeclaration => instantiate false (u 0) (u 1 != 0)
  | .instantiateVariable => instantiate true (u 0) (u 1 != 0)
  | .initializeHeapImmutable => initializeHeapImmutable (r 0) (u 1)
  | .withSetup => withSetup (r 0)
  | .popEnv => popEnv
  | .jumpBy => jmp (← jumpLabel ins)
  | .jumpSubroutine => jumpSubroutine (r 0) (r 1) (← jumpLabel ins)
  | .returnSubroutine => returnSubroutine (r 0) (r 1)
  | .jumpIf sense => conditionalJump (r 0) (← jumpLabel ins) sense
  | .forInSetup => forInSetup (r 0) (r 1) (← jumpLabel ins)
  | .forInEnumerate => forInEnumerate (r 0) (r 1) (← jumpLabel ins)
  | .forInLeave => forInLeave (r 0)
  | .call => callShaped .call (r 0) (r 1) (r 2) (u 3)
  | .construct => callShaped .construct (r 0) (r 1) (r 2) (u 3)
  | .eval => callShaped .eval (r 0) (r 1) (r 2) (u 3)
  | .prepareDynamicCall => prepareDynamicCall (r 0) (r 1) (u 2)
  | .return => load .rax (r 0); returnAccumulator

end RegisterJit.Emit
