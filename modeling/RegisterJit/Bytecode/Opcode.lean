import RegisterJit.Text.Bytes

/-!
# Opcodes

The register bytecode. Opcodes come in families: variables of four kinds of storage and two kinds of
members share their accesses, the fused branches share the comparisons of the binary operators. The
number of an opcode is its place in the table `Opcode.all`.

The format of an opcode lists the kinds of its operands, and with it the builder, the reader of
texts, validation and the emitters treat all instructions alike. Statements about all opcodes are by
cases on the families and not on the numbers; that numbers and names are unique is decided from the
table.
-/

namespace RegisterJit

/-- What an operand word of an instruction means. -/
inductive OperandKind
  | register
  | signed
  | unsigned
  | constant
  | name
  | code
  /-- A displacement in words from the start of the instruction. -/
  | jump
  /-- Two registers and an unsigned number in one word. -/
  | packed
  deriving DecidableEq, Repr

/-- The letter of an operand kind in a format. -/
def OperandKind.letter : OperandKind → Char
  | .register => 'r'
  | .signed => 'i'
  | .unsigned => 'u'
  | .constant => 'k'
  | .name => 'n'
  | .code => 'c'
  | .jump => 'j'
  | .packed => 's'

/-- The comparisons. -/
inductive Comparison
  | lt | lte | gt | gte | eq | strictEq | ne | strictNe
  deriving DecidableEq, Repr

/-- The binary operators. -/
inductive BinaryOp
  | add | subtract | multiply | divide | modulo
  | shiftLeft | shiftRight | shiftRightLogical
  | compare (c : Comparison)
  | instanceOf
  | memberOf
  | bitAnd | bitXor | bitOr
  deriving DecidableEq, Repr

/-- An increment or decrement that yields the new value or, if `keepsOld`, the old one. -/
structure Step where
  decrement : Bool
  keepsOld : Bool
  deriving DecidableEq, Repr

/-- What can be done to a variable. -/
inductive VariableAccess
  | load | store | delete | typeof
  | step (s : Step)
  deriving DecidableEq, Repr

/-- What can be done to a member of an object. -/
inductive MemberAccess
  | load | store | delete
  | step (s : Step)
  deriving DecidableEq, Repr

/-- The values with an opcode of their own. -/
inductive Immediate
  | undefined | empty | null | true | false
  deriving DecidableEq, Repr

/-- The parts of a property that an object literal defines. -/
inductive PropertyPart
  | data | getter | setter
  deriving DecidableEq, Repr

/-- One instruction of the register bytecode, without its operands. -/
inductive Opcode
  | nop
  -- moves and constants
  | move
  | loadImmediate (i : Immediate)
  | loadInt32
  | loadConst
  | loadCallee
  | loadArguments
  | loadFunction
  | loadRegExp
  -- literals
  | loadArray
  | initVectorElement
  | initSparseElement
  | loadObject
  | storeObject (part : PropertyPart)
  -- variables and members
  | global (a : VariableAccess)
  | heap (a : VariableAccess)
  | dynamic (a : VariableAccess)
  | prop (a : MemberAccess)
  | element (a : MemberAccess)
  -- operators
  | binary (op : BinaryOp)
  /-- Compare and jump when the outcome is `sense`. -/
  | branch (sense : Bool) (c : Comparison)
  | unaryPositive
  | unaryNegative
  | unaryNot
  | unaryBitNot
  | typeof
  | step (s : Step)
  | toNumber
  | toPrimitiveString
  | concat
  -- errors and environments
  | raiseReference
  | raiseImmutable
  | throw
  | debugger
  | tryCatchSetup
  | buildEnv
  | instantiateDeclaration
  | instantiateVariable
  | initializeHeapImmutable
  | withSetup
  | popEnv
  -- control flow
  | jumpBy
  | jumpSubroutine
  | returnSubroutine
  /-- Jump when the operand's truth is `sense`. -/
  | jumpIf (sense : Bool)
  | forInSetup
  | forInEnumerate
  | forInLeave
  -- calls
  | call
  | construct
  | eval
  | prepareDynamicCall
  | return
  deriving DecidableEq, Repr

namespace Comparison

/-- The comparisons in the order of their opcodes' families. -/
def all : List Comparison := [.lt, .lte, .gt, .gte, .eq, .strictEq, .ne, .strictNe]

/-- The word that stands for it in mnemonics. -/
def name : Comparison → String
  | .lt => "LT"
  | .lte => "LTE"
  | .gt => "GT"
  | .gte => "GTE"
  | .eq => "EQ"
  | .strictEq => "STRICT_EQ"
  | .ne => "NE"
  | .strictNe => "STRICT_NE"

end Comparison

namespace BinaryOp

/-- The binary operators in the order of their opcodes. -/
def all : List BinaryOp :=
  [.add, .subtract, .multiply, .divide, .modulo, .shiftLeft, .shiftRight, .shiftRightLogical,
    .compare .lt, .compare .lte, .compare .gt, .compare .gte, .instanceOf, .memberOf,
    .compare .eq, .compare .strictEq, .compare .ne, .compare .strictNe, .bitAnd, .bitXor, .bitOr]

/-- The word that stands for it in mnemonics. -/
def name : BinaryOp → String
  | .add => "ADD"
  | .subtract => "SUBTRACT"
  | .multiply => "MULTIPLY"
  | .divide => "DIVIDE"
  | .modulo => "MODULO"
  | .shiftLeft => "LSHIFT"
  | .shiftRight => "RSHIFT"
  | .shiftRightLogical => "RSHIFT_LOGICAL"
  | .compare c => c.name
  | .instanceOf => "INSTANCEOF"
  | .memberOf => "IN"
  | .bitAnd => "BIT_AND"
  | .bitXor => "BIT_XOR"
  | .bitOr => "BIT_OR"

end BinaryOp

namespace Step

/-- The steps in the order of their opcodes. -/
def all : List Step := [⟨false, false⟩, ⟨true, false⟩, ⟨false, true⟩, ⟨true, true⟩]

/-- The word that stands for it in mnemonics. -/
def name (s : Step) : String :=
  (if s.keepsOld then "POSTFIX_" else "") ++ (if s.decrement then "DECREMENT" else "INCREMENT")

end Step

namespace VariableAccess

/-- The accesses to variables in the order of their opcodes. -/
def all : List VariableAccess := [.load, .store, .delete, .typeof] ++ Step.all.map .step

/-- The word that stands for it in mnemonics. -/
def name : VariableAccess → String
  | .load => "LOAD"
  | .store => "STORE"
  | .delete => "DELETE"
  | .typeof => "TYPEOF"
  | .step s => s.name

end VariableAccess

namespace MemberAccess

/-- The accesses to members in the order of their opcodes. -/
def all : List MemberAccess := [.load, .store, .delete] ++ Step.all.map .step

/-- The word that stands for it in mnemonics. -/
def name : MemberAccess → String
  | .load => "LOAD"
  | .store => "STORE"
  | .delete => "DELETE"
  | .step s => s.name

end MemberAccess

namespace Opcode

/-- The opcodes up to the literals. -/
def values : List Opcode :=
  [.nop, .move, .loadImmediate .undefined, .loadImmediate .empty, .loadImmediate .null,
    .loadImmediate .true, .loadImmediate .false, .loadInt32, .loadConst, .loadCallee,
    .loadArguments, .loadFunction, .loadRegExp, .loadArray, .initVectorElement,
    .initSparseElement, .loadObject, .storeObject .data, .storeObject .getter,
    .storeObject .setter]

/-- The opcodes of unary operators. -/
def unary : List Opcode := [.unaryPositive, .unaryNegative, .unaryNot, .unaryBitNot, .typeof]

/-- The opcodes from the conversions on. -/
def control : List Opcode :=
  [.toNumber, .toPrimitiveString, .concat, .raiseReference, .raiseImmutable, .throw, .debugger,
    .tryCatchSetup, .buildEnv, .instantiateDeclaration, .instantiateVariable,
    .initializeHeapImmutable, .withSetup, .popEnv, .jumpBy, .jumpSubroutine, .returnSubroutine,
    .jumpIf false, .jumpIf true, .forInSetup, .forInEnumerate, .forInLeave, .call, .construct,
    .eval, .prepareDynamicCall, .return]

/-- All opcodes; the place of each is its number. -/
def all : List Opcode :=
  [values, VariableAccess.all.map .global, VariableAccess.all.map .heap,
    VariableAccess.all.map .dynamic, MemberAccess.all.map .prop, MemberAccess.all.map .element,
    BinaryOp.all.map .binary, Comparison.all.map (.branch false), Comparison.all.map (.branch true),
    unary, Step.all.map .step, control].flatten

/-- The table of opcodes by number. -/
def table : Array Opcode := all.toArray

/-- The opcode with a number. -/
def ofNat? (n : Nat) : Option Opcode := table[n]?

/-- The number of an opcode. -/
def toNat (op : Opcode) : Nat := all.idxOf op

/-- The name of an opcode in listings. -/
def name : Opcode → String
  | .nop => "NOP"
  | .move => "MV"
  | .loadImmediate .undefined => "LOAD_UNDEFINED"
  | .loadImmediate .empty => "LOAD_EMPTY"
  | .loadImmediate .null => "LOAD_NULL"
  | .loadImmediate .true => "LOAD_TRUE"
  | .loadImmediate .false => "LOAD_FALSE"
  | .loadInt32 => "LOAD_INT32"
  | .loadConst => "LOAD_CONST"
  | .loadCallee => "LOAD_CALLEE"
  | .loadArguments => "LOAD_ARGUMENTS"
  | .loadFunction => "LOAD_FUNCTION"
  | .loadRegExp => "LOAD_REGEXP"
  | .loadArray => "LOAD_ARRAY"
  | .initVectorElement => "INIT_VECTOR_ARRAY_ELEMENT"
  | .initSparseElement => "INIT_SPARSE_ARRAY_ELEMENT"
  | .loadObject => "LOAD_OBJECT"
  | .storeObject .data => "STORE_OBJECT_DATA"
  | .storeObject .getter => "STORE_OBJECT_GET"
  | .storeObject .setter => "STORE_OBJECT_SET"
  | .global a => a.name ++ "_GLOBAL"
  | .heap a => a.name ++ "_HEAP"
  | .dynamic a => a.name ++ "_NAME"
  | .prop a => a.name ++ "_PROP"
  | .element a => a.name ++ "_ELEMENT"
  | .binary op => "BINARY_" ++ op.name
  | .branch sense c => (if sense then "IF_TRUE_BINARY_" else "IF_FALSE_BINARY_") ++ c.name
  | .unaryPositive => "UNARY_POSITIVE"
  | .unaryNegative => "UNARY_NEGATIVE"
  | .unaryNot => "UNARY_NOT"
  | .unaryBitNot => "UNARY_BIT_NOT"
  | .typeof => "TYPEOF"
  | .step s => s.name
  | .toNumber => "TO_NUMBER"
  | .toPrimitiveString => "TO_PRIMITIVE_AND_TO_STRING"
  | .concat => "CONCAT"
  | .raiseReference => "RAISE_REFERENCE"
  | .raiseImmutable => "RAISE_IMMUTABLE"
  | .throw => "THROW"
  | .debugger => "DEBUGGER"
  | .tryCatchSetup => "TRY_CATCH_SETUP"
  | .buildEnv => "BUILD_ENV"
  | .instantiateDeclaration => "INSTANTIATE_DECLARATION_BINDING"
  | .instantiateVariable => "INSTANTIATE_VARIABLE_BINDING"
  | .initializeHeapImmutable => "INITIALIZE_HEAP_IMMUTABLE"
  | .withSetup => "WITH_SETUP"
  | .popEnv => "POP_ENV"
  | .jumpBy => "JUMP_BY"
  | .jumpSubroutine => "JUMP_SUBROUTINE"
  | .returnSubroutine => "RETURN_SUBROUTINE"
  | .jumpIf sense => if sense then "IF_TRUE" else "IF_FALSE"
  | .forInSetup => "FORIN_SETUP"
  | .forInEnumerate => "FORIN_ENUMERATE"
  | .forInLeave => "FORIN_LEAVE"
  | .call => "CALL"
  | .construct => "CONSTRUCT"
  | .eval => "EVAL"
  | .prepareDynamicCall => "PREPARE_DYNAMIC_CALL"
  | .return => "RETURN"

/-- The name as a text. -/
def text (op : Opcode) : Text := op.name

/-- The opcode with a name. -/
def ofName? (t : Text) : Option Opcode := all.find? fun op => op.text == t

/-- The operands that follow the opcode word, one word each. -/
def format : Opcode → List OperandKind
  | .nop | .raiseReference | .debugger | .popEnv => []
  | .loadImmediate _ | .loadCallee | .loadArguments | .loadObject | .throw | .withSetup
  | .forInLeave | .return => [.register]
  | .step s => if s.keepsOld then [.register, .register] else [.register]
  | .move | .unaryPositive | .unaryNegative | .unaryNot | .unaryBitNot | .typeof | .toNumber
  | .toPrimitiveString | .returnSubroutine => [.register, .register]
  | .loadInt32 => [.register, .signed]
  | .loadConst => [.register, .constant]
  | .loadFunction => [.register, .code]
  | .loadRegExp => [.register, .constant, .constant]
  | .loadArray | .initializeHeapImmutable => [.register, .unsigned]
  | .initVectorElement => [.packed, .unsigned]
  | .initSparseElement => [.register, .unsigned, .register]
  | .storeObject _ => [.packed, .name]
  | .global _ | .dynamic _ | .heap .delete | .tryCatchSetup => [.register, .name]
  | .heap _ => [.register, .name, .unsigned, .unsigned]
  | .prop .store => [.register, .name, .register]
  | .prop _ => [.register, .register, .name]
  | .element _ | .binary _ => [.register, .register, .register]
  | .branch _ _ | .jumpSubroutine | .forInSetup | .forInEnumerate => [.register, .register, .jump]
  | .concat => [.register, .register, .unsigned]
  | .raiseImmutable => [.name]
  | .buildEnv => [.unsigned, .unsigned]
  | .instantiateDeclaration | .instantiateVariable => [.name, .unsigned]
  | .jumpBy => [.jump]
  | .jumpIf _ => [.register, .jump]
  | .call | .construct | .eval => [.register, .register, .register, .unsigned]
  | .prepareDynamicCall => [.register, .register, .name]

/-- The size of an instruction in words, the opcode word included. -/
def length (op : Opcode) : Nat := 1 + op.format.length

/-- An instruction takes at least one word. -/
theorem length_pos (op : Opcode) : 0 < op.length := by unfold length; omega

/-- The place of the jump displacement among the operands, if there is one. -/
def jumpOperand? (op : Opcode) : Option Nat := op.format.findIdx? (· == .jump)

/-- Whether the opcode carries a jump target. -/
def isJump (op : Opcode) : Bool := op.jumpOperand?.isSome

/-- The comparison of a fused branch, and the outcome on which it jumps. -/
def fused? : Opcode → Option (Comparison × Bool)
  | .branch sense c => some (c, sense)
  | _ => none

end Opcode

end RegisterJit
