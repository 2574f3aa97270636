import RegisterJit.Bytecode.Opcode

/-!
# Stubs

What compiled code leaves to the runtime. A stub gets up to five words and gives back up to two. The
number of a stub is its place in the table `Stub.all`.

The emitters load the number of a stub and its arguments into registers, and `Script.Call` has the
body of each. The number of arguments is part of a stub here, since both sides depend on it;
`Proofs.References` adds which of them refer to tables of the code, `Proofs.Leaving` how they get
from one side to the other.
-/

namespace RegisterJit

/-- A routine that compiled code calls. -/
inductive Stub
  | binary (op : BinaryOp)
  | unaryPositive
  | unaryNegative
  | unaryNot
  | unaryBitNot
  | typeof
  | increment
  | decrement
  | toNumber
  | toPrimitiveString
  | toBoolean
  | concat
  | loadFunction
  | loadRegExp
  | loadArguments
  | loadArray
  | initVectorElement
  | initSparseElement
  | loadObject
  | storeObject (part : PropertyPart)
  | loadGlobal
  | storeGlobal (strict : Bool)
  | deleteGlobal
  | typeofGlobal
  | stepGlobal
  | loadHeap
  | storeHeap
  | typeofHeap
  | stepHeap
  | loadName
  | storeName (strict : Bool)
  | deleteName
  | typeofName
  | stepName
  | loadProp
  | storeProp (strict : Bool)
  | deleteProp (strict : Bool)
  | stepProp
  | loadElement
  | storeElement (strict : Bool)
  | deleteElement (strict : Bool)
  | stepElement
  | raiseNotCoercible
  | raiseReference
  | raiseImmutable
  | throw
  | debugger
  | tryCatchSetup
  | buildEnv
  | instantiate (isVariable : Bool) (configurable : Bool)
  | initializeHeapImmutable
  | withSetup
  | popEnv
  | forInSetup
  | forInEnumerate
  | forInLeave
  | call
  | construct
  | eval
  | prepareDynamicCall
  deriving DecidableEq

namespace Stub

/-- The stubs other than binary operators, in the order of their numbers. -/
def others : List Stub :=
  [.unaryPositive, .unaryNegative, .unaryNot, .unaryBitNot, .typeof, .increment, .decrement,
    .toNumber, .toPrimitiveString, .toBoolean, .concat, .loadFunction, .loadRegExp, .loadArguments,
    .loadArray, .initVectorElement, .initSparseElement, .loadObject, .storeObject .data,
    .storeObject .getter, .storeObject .setter, .loadGlobal, .storeGlobal false, .storeGlobal true,
    .deleteGlobal, .typeofGlobal, .stepGlobal, .loadHeap, .storeHeap, .typeofHeap, .stepHeap,
    .loadName, .storeName false, .storeName true, .deleteName, .typeofName, .stepName, .loadProp,
    .storeProp false, .storeProp true, .deleteProp false, .deleteProp true, .stepProp,
    .loadElement, .storeElement false, .storeElement true, .deleteElement false,
    .deleteElement true, .stepElement, .raiseNotCoercible, .raiseReference, .raiseImmutable,
    .throw, .debugger, .tryCatchSetup, .buildEnv, .instantiate false false,
    .instantiate false true, .instantiate true false, .instantiate true true,
    .initializeHeapImmutable, .withSetup, .popEnv, .forInSetup, .forInEnumerate, .forInLeave,
    .call, .construct, .eval, .prepareDynamicCall]

/-- All stubs; the place of each is its number. -/
def all : List Stub := BinaryOp.all.map .binary ++ others

/-- The table of stubs by number. -/
def table : Array Stub := all.toArray

/-- The stub with a number. -/
def ofNat? (n : Nat) : Option Stub := table[n]?

/-- The number of a stub. -/
def toNat (s : Stub) : Nat := all.idxOf s

/-- The number as compiled code hands it over. -/
def number (s : Stub) : UInt32 := s.toNat.toUInt32

/-- The ending of the strict member of a pair of stubs. -/
def strictSuffix (strict : Bool) : String := if strict then "_strict" else ""

/-- The name under which calls of a stub are counted. -/
def name : Stub → String
  | .binary op => "binary_" ++ binaryName op
  | .unaryPositive => "unary_positive"
  | .unaryNegative => "unary_negative"
  | .unaryNot => "unary_not"
  | .unaryBitNot => "unary_bit_not"
  | .typeof => "typeof"
  | .increment => "increment"
  | .decrement => "decrement"
  | .toNumber => "to_number"
  | .toPrimitiveString => "to_primitive_and_to_string"
  | .toBoolean => "to_boolean"
  | .concat => "concat"
  | .loadFunction => "load_function"
  | .loadRegExp => "load_regexp"
  | .loadArguments => "load_arguments"
  | .loadArray => "load_array"
  | .initVectorElement => "init_vector_array_element"
  | .initSparseElement => "init_sparse_array_element"
  | .loadObject => "load_object"
  | .storeObject .data => "store_object_data"
  | .storeObject .getter => "store_object_get"
  | .storeObject .setter => "store_object_set"
  | .loadGlobal => "load_global"
  | .storeGlobal s => "store_global" ++ strictSuffix s
  | .deleteGlobal => "delete_global"
  | .typeofGlobal => "typeof_global"
  | .stepGlobal => "increment_global"
  | .loadHeap => "load_heap"
  | .storeHeap => "store_heap"
  | .typeofHeap => "typeof_heap"
  | .stepHeap => "increment_heap"
  | .loadName => "load_name"
  | .storeName s => "store_name" ++ strictSuffix s
  | .deleteName => "delete_name"
  | .typeofName => "typeof_name"
  | .stepName => "increment_name"
  | .loadProp => "load_prop"
  | .storeProp s => "store_prop" ++ strictSuffix s
  | .deleteProp s => "delete_prop" ++ strictSuffix s
  | .stepProp => "increment_prop"
  | .loadElement => "load_element"
  | .storeElement s => "store_element" ++ strictSuffix s
  | .deleteElement s => "delete_element" ++ strictSuffix s
  | .stepElement => "increment_element"
  | .raiseNotCoercible => "raise_not_coercible"
  | .raiseReference => "raise_reference"
  | .raiseImmutable => "raise_immutable"
  | .throw => "throw"
  | .debugger => "debugger"
  | .tryCatchSetup => "try_catch_setup"
  | .buildEnv => "build_env"
  | .instantiate isVariable configurable =>
    (if isVariable then "instantiate_variable_binding" else "instantiate_declaration_binding") ++
      (if configurable then "_configurable" else "")
  | .initializeHeapImmutable => "initialize_heap_immutable"
  | .withSetup => "with_setup"
  | .popEnv => "pop_env"
  | .forInSetup => "forin_setup"
  | .forInEnumerate => "forin_enumerate"
  | .forInLeave => "forin_leave"
  | .call => "call"
  | .construct => "construct"
  | .eval => "eval"
  | .prepareDynamicCall => "prepare_dynamic_call"
where
  /-- The name of a binary operator in a stub. -/
  binaryName : BinaryOp → String
    | .add => "add"
    | .subtract => "subtract"
    | .multiply => "multiply"
    | .divide => "divide"
    | .modulo => "modulo"
    | .shiftLeft => "lshift"
    | .shiftRight => "rshift"
    | .shiftRightLogical => "rshift_logical"
    | .compare .lt => "lt"
    | .compare .lte => "lte"
    | .compare .gt => "gt"
    | .compare .gte => "gte"
    | .compare .eq => "eq"
    | .compare .strictEq => "strict_eq"
    | .compare .ne => "ne"
    | .compare .strictNe => "strict_ne"
    | .instanceOf => "instanceof"
    | .memberOf => "in"
    | .bitAnd => "bit_and"
    | .bitXor => "bit_xor"
    | .bitOr => "bit_or"

/-- The name of the stub with a number; numbers beyond the table have a generic one. -/
def nameOf (n : Nat) : Text :=
  match ofNat? n with
  | some s => s.name
  | none => Text.ofString "stub(" ++ Text.ofNat n ++ Text.ofString ")"

/-- The stub with a name. -/
def ofName? (t : Text) : Option Stub := all.find? fun s => Text.ofString s.name == t

end Stub

/-- The modes handed to the stubs that increment and decrement. -/
def Step.mode (s : Step) (strict : Bool) : UInt32 :=
  (if s.decrement then 1 else 0) + (if s.keepsOld then 2 else 0) + (if strict then 4 else 0)

end RegisterJit
