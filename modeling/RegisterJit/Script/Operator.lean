import RegisterJit.Script.Property

/-!
# Operators

The operators on arbitrary operands. Operands are converted from left to right.

Operators take the evaluator as a parameter and convert their operands through it.
`Proofs.Relational` and `Proofs.LooseEquality` state the laws of comparisons, `Proofs.IntegerStubs`
what operators give for integers, which compiled code computes inline.
-/

namespace RegisterJit

/-- The outcome of an ordering: numbers that are not comparable have none. -/
inductive Ordered
  | holds
  | fails
  | incomparable
  deriving DecidableEq

namespace Heap

/-- Strict equality. The empty value counts as undefined. -/
def strictEquals (a b : Value) : Bool :=
  if a.isNumber && b.isNumber then a.toNumber.eq b.toNumber
  else
    let a := if a.isEmpty then Value.undefined else a
    let b := if b.isEmpty then Value.undefined else b
    a == b

/-- Whether two values are both strings, both objects or both booleans. -/
def sameType (a b : Value) : Bool :=
  if a.isString then b.isString
  else if a.isObject then b.isObject
  else a.isBool && b.isBool

/-- The order of two primitives: strings by their UTF-16 units, all else by number. -/
def lessThan (h : Heap) (a b : Value) : Ordered :=
  if a.isString && b.isString then
    if Text.compareUnits (Text.units (h.text a)) (Text.units (h.text b)) < 0 then .holds
    else .fails
  else
    let x := h.primitiveNumber a
    let y := h.primitiveNumber b
    if x.isNaN || y.isNaN then .incomparable
    else if x.lt y then .holds
    else .fails

/-- What loose equality does next with two values. -/
inductive LooseStep
  | answer (b : Bool)
  /-- Continue with other values. -/
  | replace (a b : Value)
  | convertLeft
  | convertRight

/-- The number of a boolean. -/
def boolNumber (v : Value) : Value := Value.ofInt (if v.toBool then 1 else 0)

/-- The number of a string. -/
def textNumber (h : Heap) (v : Value) : Value := Value.number (stringToNumber (h.text v))

/-- One step of loose equality. Booleans become numbers, then strings become numbers beside numbers,
then objects become primitives. -/
def looseStep (h : Heap) (a b : Value) : LooseStep :=
  if (a.isNumber && b.isNumber) || sameType a b then .answer (strictEquals a b)
  else if Run.isNullish a && Run.isNullish b then .answer true
  else if Run.isNullish a || Run.isNullish b then .answer false
  else if a.isBool then .replace (boolNumber a) b
  else if b.isBool then .replace a (boolNumber b)
  else if a.isNumber && b.isString then .replace a (h.textNumber b)
  else if a.isString && b.isNumber then .replace (h.textNumber a) b
  else if a.isObject && !b.isObject then .convertLeft
  else if b.isObject && !a.isObject then .convertRight
  else .answer false

/-- How many conversions of loose equality a value can undergo. -/
def looseRank (v : Value) : Nat :=
  if v.isObject then 2 else if v.isBool || v.isString then 1 else 0

theorem looseRank_of_isObject {v : Value} (h : v.isObject) : looseRank v = 2 := if_pos h

theorem looseRank_le_one {v : Value} (h : v.isObject = false) : looseRank v ≤ 1 := by
  rw [looseRank, h, if_neg Bool.false_ne_true]
  split <;> omega

theorem isObject_of_isBool {v : Value} (h : v.isBool) : v.isObject = false := by
  rw [Value.isBool_iff] at h
  rw [Bool.eq_false_iff, ne_eq, Value.isObject_iff]
  omega

theorem isObject_of_isString {v : Value} (h : v.isString) : v.isObject = false := by
  rw [Value.isString_iff] at h
  rw [Bool.eq_false_iff, ne_eq, Value.isObject_iff]
  omega

theorem looseRank_of_isBool {v : Value} (h : v.isBool) : looseRank v = 1 := by
  rw [looseRank, isObject_of_isBool h, if_neg Bool.false_ne_true, h, Bool.true_or, if_pos rfl]

theorem looseRank_of_isString {v : Value} (h : v.isString) : looseRank v = 1 := by
  rw [looseRank, isObject_of_isString h, if_neg Bool.false_ne_true, h, Bool.or_true, if_pos rfl]

theorem looseRank_of_isNumber {v : Value} (h : v.isNumber) : looseRank v = 0 := by
  have hobject := Value.isObject_of_isNumber h
  have hother : ¬ (v.isBool || v.isString) := by
    rw [Value.isNumber_iff] at h
    rw [Bool.or_eq_true, Value.isBool_iff, Value.isString_iff]
    omega
  rw [looseRank, hobject, if_neg Bool.false_ne_true, if_neg hother]

/-- What a step can do, and to which values. -/
inductive LooseStep.Fits (h : Heap) (a b : Value) : LooseStep → Prop
  | answer (r : Bool) : Fits h a b (.answer r)
  | boolLeft (ha : a.isBool) : Fits h a b (.replace (boolNumber a) b)
  | boolRight (hb : b.isBool) : Fits h a b (.replace a (boolNumber b))
  | textRight (hb : b.isString) : Fits h a b (.replace a (h.textNumber b))
  | textLeft (ha : a.isString) : Fits h a b (.replace (h.textNumber a) b)
  | convertLeft (ha : a.isObject) : Fits h a b .convertLeft
  | convertRight (hb : b.isObject) : Fits h a b .convertRight

theorem looseStep_fits (h : Heap) (a b : Value) : LooseStep.Fits h a b (h.looseStep a b) := by
  unfold looseStep
  refine iteInduction (fun _ => .answer _) fun _ => iteInduction (fun _ => .answer _) fun _ =>
    iteInduction (fun _ => .answer _) fun _ => iteInduction .boolLeft fun _ => iteInduction .boolRight fun _ =>
    iteInduction (fun htext => ?_) fun _ => iteInduction (fun htext => ?_) fun _ => iteInduction (fun hobject => ?_)
    fun _ => iteInduction (fun hobject => ?_) fun _ => .answer _
  · exact .textRight (Bool.and_eq_true_iff.1 htext).2
  · exact .textLeft (Bool.and_eq_true_iff.1 htext).1
  · exact .convertLeft (Bool.and_eq_true_iff.1 hobject).1
  · exact .convertRight (Bool.and_eq_true_iff.1 hobject).1

/-- A value that is replaced has fewer conversions before it. -/
theorem looseRank_of_replace {h : Heap} {a b a' b' : Value} (hs : h.looseStep a b = .replace a' b') :
    looseRank a' + looseRank b' < looseRank a + looseRank b := by
  have hbool (v : Value) : looseRank (boolNumber v) = 0 :=
    looseRank_of_isNumber (Value.isNumber_ofInt _)
  have htext (v : Value) : looseRank (h.textNumber v) = 0 :=
    looseRank_of_isNumber (Value.isNumber_number _)
  have hfits := h.looseStep_fits a b
  rw [hs] at hfits
  cases hfits with
  | boolLeft ha =>
    rw [hbool, looseRank_of_isBool ha]
    omega
  | boolRight hb =>
    rw [hbool, looseRank_of_isBool hb]
    omega
  | textRight hb =>
    rw [htext, looseRank_of_isString hb]
    omega
  | textLeft ha =>
    rw [htext, looseRank_of_isString ha]
    omega

/-- Only objects become primitives. -/
theorem isObject_of_convert {h : Heap} {a b : Value} :
    (h.looseStep a b = .convertLeft → a.isObject) ∧ (h.looseStep a b = .convertRight → b.isObject) := by
  have hfits := h.looseStep_fits a b
  constructor <;> intro hs <;> rw [hs] at hfits <;> cases hfits <;> assumption

theorem isObject_boolNumber (v : Value) : (boolNumber v).isObject = false :=
  Value.isObject_of_isNumber (Value.isNumber_ofInt _)

theorem isObject_textNumber (h : Heap) (v : Value) : (h.textNumber v).isObject = false :=
  Value.isObject_of_isNumber (Value.isNumber_number _)

/-- Only primitives are replaced, by primitives. -/
theorem isObject_of_replace {h : Heap} {a b a' b' : Value} (hs : h.looseStep a b = .replace a' b') :
    a'.isObject = a.isObject ∧ b'.isObject = b.isObject := by
  have hbool {v : Value} (hv : v.isBool) : (boolNumber v).isObject = v.isObject :=
    (isObject_boolNumber v).trans (isObject_of_isBool hv).symm
  have htext {v : Value} (hv : v.isString) : (h.textNumber v).isObject = v.isObject :=
    (isObject_textNumber h v).trans (isObject_of_isString hv).symm
  have hfits := h.looseStep_fits a b
  rw [hs] at hfits
  cases hfits with
  | boolLeft ha => exact ⟨hbool ha, rfl⟩
  | boolRight hb => exact ⟨rfl, hbool hb⟩
  | textRight hb => exact ⟨rfl, htext hb⟩
  | textLeft ha => exact ⟨htext ha, rfl⟩

theorem looseRank_primitive_lt (p : Primitive) {v : Value} (hv : v.isObject) :
    looseRank p < looseRank v := by
  have hp := looseRank_le_one p.isObject_eq
  rw [looseRank_of_isObject hv]
  omega

theorem looseRank_of_convertLeft {h : Heap} {a b : Value} (hs : h.looseStep a b = .convertLeft)
    (p : Primitive) : looseRank p + looseRank b < looseRank a + looseRank b :=
  Nat.add_lt_add_right (looseRank_primitive_lt p (isObject_of_convert.1 hs)) _

theorem looseRank_of_convertRight {h : Heap} {a b : Value} (hs : h.looseStep a b = .convertRight)
    (p : Primitive) : looseRank a + looseRank p < looseRank a + looseRank b :=
  Nat.add_lt_add_left (looseRank_primitive_lt p (isObject_of_convert.2 hs)) _

end Heap

namespace Run

/-- Loose equality: the values are converted until they have a common type. -/
def looseEquals (ev : Evaluator) (a b : Value) : Run Bool := do
  let h ← heap
  match _hs : h.looseStep a b with
  | .answer r => return r
  | .replace a b => looseEquals ev a b
  | .convertLeft => looseEquals ev (← ev.toPrimitive a .default) b
  | .convertRight => looseEquals ev a (← ev.toPrimitive b .default)
termination_by Heap.looseRank a + Heap.looseRank b
decreasing_by
  · exact Heap.looseRank_of_replace _hs
  · exact Heap.looseRank_of_convertLeft _hs _
  · exact Heap.looseRank_of_convertRight _hs _

theorem looseEquals_eq (ev : Evaluator) (a b : Value) : looseEquals ev a b = (do
    let h ← heap
    match h.looseStep a b with
    | .answer r => return r
    | .replace a b => looseEquals ev a b
    | .convertLeft => looseEquals ev (← ev.toPrimitive a .default) b
    | .convertRight => looseEquals ev a (← ev.toPrimitive b .default)) := by
  rw [looseEquals]
  congr
  funext h
  split <;> simp only [*]

section

variable {ev : Evaluator} {a b : Value} {w : World}

theorem looseEquals_apply : looseEquals ev a b w = (match w.realm.heap.looseStep a b with
    | .answer r => return r
    | .replace a b => looseEquals ev a b
    | .convertLeft => do looseEquals ev (← ev.toPrimitive a .default) b
    | .convertRight => do looseEquals ev a (← ev.toPrimitive b .default) : Run Bool) w := by
  rw [looseEquals_eq]
  rfl

theorem looseEquals_of_answer {r : Bool} (hs : w.realm.heap.looseStep a b = .answer r) :
    looseEquals ev a b w = .ok r w := by
  rw [looseEquals_apply, hs]
  rfl

theorem looseEquals_of_replace {a' b' : Value} (hs : w.realm.heap.looseStep a b = .replace a' b') :
    looseEquals ev a b w = looseEquals ev a' b' w := by
  rw [looseEquals_apply, hs]

theorem looseEquals_of_convertLeft (hs : w.realm.heap.looseStep a b = .convertLeft) :
    looseEquals ev a b w = (do looseEquals ev (← ev.toPrimitive a .default) b : Run Bool) w := by
  rw [looseEquals_apply, hs]

theorem looseEquals_of_convertRight (hs : w.realm.heap.looseStep a b = .convertRight) :
    looseEquals ev a b w = (do looseEquals ev a (← ev.toPrimitive b .default) : Run Bool) w := by
  rw [looseEquals_apply, hs]

end

/-- Addition of numbers or concatenation of strings. -/
def add (ev : Evaluator) (a b : Value) : Run Value := do
  if a.isNumber && b.isNumber then return Value.number (a.toNumber.add b.toNumber)
  let a ← ev.toPrimitive a .default
  let b ← ev.toPrimitive b .default
  let h ← heap
  if a.value.isString || b.value.isString then intern (h.primitiveText a ++ h.primitiveText b)
  else return Value.number ((h.primitiveNumber a).add (h.primitiveNumber b))

/-- The order of two values. Which of them is converted first does not depend on which is to be the
smaller one. -/
def lessThan (ev : Evaluator) (a b : Value) (leftFirst : Bool) : Run Ordered := do
  if leftFirst then
    let p ← ev.toPrimitive a .number
    let q ← ev.toPrimitive b .number
    return (← heap).lessThan p q
  else
    let q ← ev.toPrimitive b .number
    let p ← ev.toPrimitive a .number
    return (← heap).lessThan p q

/-- A comparison. -/
def compare (ev : Evaluator) (c : Comparison) (a b : Value) : Run Bool := do
  match c with
  | .lt => return (← lessThan ev a b true) = .holds
  | .gt => return (← lessThan ev b a false) = .holds
  | .lte => return (← lessThan ev b a false) = .fails
  | .gte => return (← lessThan ev a b true) = .fails
  | .eq => looseEquals ev a b
  | .ne => return !(← looseEquals ev a b)
  | .strictEq => return Heap.strictEquals a b
  | .strictNe => return !Heap.strictEquals a b

/-- Whether an object inherits from the prototype of a constructor. -/
def instanceOf (ev : Evaluator) (v ctor : Value) : Run Bool := do
  if !(← isCallable ctor) then
    raise .typeError "right-hand side of 'instanceof' is not callable"
  match Heap.ref? v with
  | none => return false
  | some r =>
    match Heap.ref? (← getProperty ev ctor "prototype") with
    | none => raise .typeError "function has non-object prototype in instanceof check"
    | some target => return ((← heap).chain r).drop 1 |>.any fun link => link.1 == target

/-- Whether an object has or inherits a key. -/
def memberOf (ev : Evaluator) (key container : Value) : Run Bool := do
  match Heap.ref? container with
  | none =>
    raise .typeError
      (Text.ofString "cannot use 'in' operator to search for a key in " ++
        (← heap).primitiveText container)
  | some r =>
    let k ← propertyKey ev key
    return (← heap).hasProperty r k

/-- The result of a numeric operator on two numbers; other operators have none. -/
def arithmetic? (op : BinaryOp) (x y : Double) : Option Value :=
  let shiftCount := y.toUInt32 &&& 31
  let signed (u : UInt32) : Value := Value.int32 u
  match op with
  | .subtract => some (Value.number (x.sub y))
  | .multiply => some (Value.number (x.mul y))
  | .divide => some (Value.number (x.div y))
  | .modulo => some (Value.number (x.rem y))
  | .shiftLeft => some (signed (x.toUInt32 <<< shiftCount))
  | .shiftRight => some (Value.ofInt (x.toInt32 >>> shiftCount.toNat))
  | .shiftRightLogical =>
    some (Value.number (Double.ofInt (x.toUInt32 >>> shiftCount).toNat))
  | .bitAnd => some (signed (x.toUInt32 &&& y.toUInt32))
  | .bitXor => some (signed (x.toUInt32 ^^^ y.toUInt32))
  | .bitOr => some (signed (x.toUInt32 ||| y.toUInt32))
  | _ => none

/-- A binary operator. -/
def binary (ev : Evaluator) (op : BinaryOp) (a b : Value) : Run Value := do
  match op with
  | .add => add ev a b
  | .compare c => return Value.ofBool (← compare ev c a b)
  | .instanceOf => return Value.ofBool (← instanceOf ev a b)
  | .memberOf => return Value.ofBool (← memberOf ev a b)
  | _ =>
    let x ← toNumber ev a
    let y ← toNumber ev b
    match arithmetic? op x y with
    | some v => return v
    | none => throw .crash

/-- The binary operator of a stub. A stub that is none converts its operands all the same. -/
def binaryStub (ev : Evaluator) (s : Stub) (a b : Value) : Run Value := do
  match s with
  | .binary op => binary ev op a b
  | _ =>
    let _ ← toNumber ev a
    let _ ← toNumber ev b
    internalError (Text.ofString s.name ++ Text.ofString " is not a binary operator")

/-- The operator or conversion of one operand of a stub. -/
def unaryStub (ev : Evaluator) (s : Stub) (v : Value) : Run Value := do
  match s with
  | .unaryNot => return Value.ofBool (!(← heap).toBoolean v)
  | .toBoolean => return Value.ofBool ((← heap).toBoolean v)
  | .typeof => intern ((← heap).typeName v)
  | .toPrimitiveString =>
    let p ← ev.toPrimitive v .default
    intern ((← heap).primitiveText p)
  | _ =>
    let n ← toNumber ev v
    match s with
    | .unaryPositive | .toNumber => return Value.number n
    | .unaryNegative => return Value.number n.neg
    | .unaryBitNot => return Value.int32 (~~~n.toUInt32)
    | .increment => return Value.number (n.add Double.one)
    | .decrement => return Value.number (n.sub Double.one)
    | _ => internalError (Text.ofString s.name ++ Text.ofString " is not a unary operator")

/-- The texts of values, one after the other. -/
def concatFrom (ev : Evaluator) : (done : List Text) → List Value → Run Text
  | done, [] => return done.reverse.flatten
  | done, v :: rest => do concatFrom ev ((← toText ev v) :: done) rest

/-- The concatenation of the texts of values. -/
def concat (ev : Evaluator) (vs : List Value) : Run Value := do
  intern (← concatFrom ev [] vs)

end Run

end RegisterJit
