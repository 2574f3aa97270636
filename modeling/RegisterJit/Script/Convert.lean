import RegisterJit.Number.Layout
import RegisterJit.Number.Literal
import RegisterJit.Number.Modular
import RegisterJit.Script.World
import RegisterJit.Text.Blank

/-!
# Conversions

How values become booleans, numbers, strings and primitives. Conversions of primitives are functions
of the heap; conversions of objects may call their methods.

Conversion of objects is a parameter of these functions, an evaluator that may run scripts, so
statements about them hold whatever scripts do. `Proofs.NumericStrings` describes the numbers of
strings, `Proofs.Recognition` the literals, `Proofs.Rendering` which texts for messages have
effects.
-/

namespace RegisterJit

/-! ## Numbers in strings -/

/-- The place of a scan through a decimal literal. -/
structure LiteralScan where
  digits : Nat
  point : Bool
  exponent : Bool
  /-- Whether the exponent has only begun: neither its sign nor a digit was seen. -/
  atSign : Bool
  /-- Whether something must still follow. -/
  unfinished : Bool

/-- Whether the rest of a text continues a decimal literal: digits, one point before the exponent,
and one exponent after some digit, which has an optional sign and is not empty. -/
def isDecimalFrom (s : LiteralScan) : Text → Bool
  | [] => 0 < s.digits && !s.unfinished
  | b :: rest =>
    if Text.isDigit b then
      isDecimalFrom ⟨s.digits + 1, s.point, s.exponent, false, false⟩ rest
    else if s.atSign ∧ (b = 0x2b ∨ b = 0x2d) then
      isDecimalFrom ⟨s.digits, s.point, s.exponent, false, true⟩ rest
    else if b = 0x2e ∧ !s.point ∧ !s.exponent then
      isDecimalFrom ⟨s.digits, true, false, false, false⟩ rest
    else if (b = 0x65 ∨ b = 0x45) ∧ !s.exponent ∧ 0 < s.digits then
      isDecimalFrom ⟨s.digits, s.point, true, true, true⟩ rest
    else false

/-- Whether a text is a decimal literal without a sign. -/
def isDecimalLiteral (t : Text) : Bool := isDecimalFrom ⟨0, false, false, false, false⟩ t

/-- The value of hexadecimal digits, if there is at least one, and it is below `2 ^ 64`. -/
def hexNumber? (t : Text) : Option Nat :=
  match t with
  | [] => none
  | _ =>
    match t.foldlM (fun n b => (Text.hexValue? b).map fun d => n * 16 + d) 0 with
    | some n => if n < 2 ^ 64 then some n else none
    | none => none

/-- What is made of a literal that was read: one that is out of range counts all the same. -/
def acceptedNumber : Double × Option NumeralFault → Double
  | (x, none) | (x, some .outOfRange) => x
  | (_, some .syntaxError) => Double.nan

/-- The number that a trimmed text without a hexadecimal mark denotes; literals are left to a reader. -/
def decimalNumber (read : Text → Double × Option NumeralFault) (t : Text) : Double :=
  let body := t.dropWhile fun b => b == 0x2b || b == 0x2d
  if 1 < t.length - body.length then Double.nan
  else if body = "Infinity" then Double.signedInfinity (t.head? = some 0x2d)
  else if isDecimalLiteral body then acceptedNumber (read t)
  else Double.nan

/-- The number that a trimmed text denotes: nothing is zero, and what is no numeral is not a number. -/
def trimmedNumber (read : Text → Double × Option NumeralFault) : Text → Double
  | [] => Double.zero
  | 0x30 :: x :: d :: rest =>
    if x = 0x78 ∨ x = 0x58 then
      match hexNumber? (d :: rest) with
      | some n => Double.ofInt n
      | none => Double.nan
    else decimalNumber read (0x30 :: x :: d :: rest)
  | t => decimalNumber read t

/-- The number that a string denotes: blanks around it do not count. -/
def stringToNumberWith (read : Text → Double × Option NumeralFault) (t : Text) : Double :=
  trimmedNumber read (Text.trim t)

/-- The number that a string denotes, its literals read by `parseFloat`. -/
def stringToNumber (t : Text) : Double := stringToNumberWith Double.parseFloat t

/-! ## Primitives -/

namespace Heap

/-- Whether a value refers to a function. -/
def isCallable (h : Heap) (v : Value) : Bool :=
  match ref? v with
  | some r => (h.object r).function.isSome
  | none => false

/-- Truth. -/
def toBoolean (h : Heap) (v : Value) : Bool :=
  if v.isBool then v.toBool
  else if v.isInt32 then v.toInt32 != 0
  else if v.isNumber then !v.toDouble.isZero && !v.toDouble.isNaN
  else if v.isString then h.text v != []
  else v.isObject

/-- The number of a primitive. -/
def primitiveNumber (h : Heap) (v : Value) : Double :=
  if v.isNumber then v.toNumber
  else if v.isNull then Double.zero
  else if v.isBool then if v.toBool then Double.one else Double.zero
  else if v.isString then stringToNumber (h.text v)
  else Double.nan

/-- The text of a primitive. -/
def primitiveText (h : Heap) (v : Value) : Text :=
  if v.isString then h.text v
  else if v.isNumber then v.toNumber.scriptText
  else if v.isNull then "null"
  else if v.isBool then if v.toBool then "true" else "false"
  else "undefined"

/-- The name of a value's type. -/
def typeName (h : Heap) (v : Value) : Text :=
  if v.isUndefined || v.isEmpty then "undefined"
  else if v.isNull then "object"
  else if v.isBool then "boolean"
  else if v.isNumber then "number"
  else if v.isString then "string"
  else if h.isCallable v then "function"
  else "object"

end Heap

namespace Run

/-- Whether a value refers to a function. -/
def isCallable (v : Value) : Run Bool := return (← heap).isCallable v

/-- The number of a value. -/
def toNumber (ev : Evaluator) (v : Value) : Run Double := do
  let p ← if v.isObject then Primitive.value <$> ev.toPrimitive v .number else pure v
  return (← heap).primitiveNumber p

/-- The text of a value. -/
def toText (ev : Evaluator) (v : Value) : Run Text := do
  let p ← if v.isObject then Primitive.value <$> ev.toPrimitive v .string else pure v
  return (← heap).primitiveText p

/-- The key that an element operand names. -/
def propertyKey (ev : Evaluator) (v : Value) : Run Text :=
  if v.isInt32 then return Text.ofInt v.toInt32 else toText ev v

/-! ## Objects -/

/-- The texts of an array's elements from `i` on, `count` of them, after those in `done`, which
stand in reverse order. Holes, null and undefined have no text. Each element is read when its turn
comes, at the place of a generation. -/
def elementTexts (ev : Evaluator) (r : ObjectRef) (generation : Nat) :
    (count i : Nat) → (done : List Text) → Run (List Text)
  | 0, _, done => return done.reverse
  | count + 1, i, done => do
    let v := (← object r).elements.seenFrom generation i
    let t ← if v.isEmpty || v.isNullOrUndefined then pure [] else toText ev v
    elementTexts ev r generation count (i + 1) (t :: done)

/-- The texts of an array's elements with `sep` between them. -/
def join (ev : Evaluator) (r : ObjectRef) (sep : Text) : Run Text := do
  let elements := (← object r).elements
  return Text.join sep (← elementTexts ev r elements.generation elements.size 0 [])

/-- The text of an object that has no better one: its wrapped primitive, or its class. -/
def classText (o : Object) : Run Text := do
  if o.primitive.isEmpty then
    return Text.ofString "[object " ++ o.cls.name ++ Text.ofString "]"
  return (← heap).primitiveText o.primitive

/-- The text of an object whose methods give none. -/
def defaultText (ev : Evaluator) (r : ObjectRef) : Run Text := do
  let o ← object r
  match o.cls with
  | .array =>
    match ← attempt (join ev r ",") with
    | .ok t => return t
    | .error _ => classText o
  | .function =>
    let name := (o.function.map (·.name)).getD []
    return Text.ofString "function " ++ name ++ Text.ofString "() \x7b [native code] \x7d"
  | .error => return errorText (← heap) r
  | .regExp =>
    let h ← heap
    return Text.ofString "/" ++ h.propertyText r "source" ++ Text.ofString "/" ++
      h.propertyText r "flags"
  | _ => classText o

/-- Render a value for a message. -/
def displayWith (ev : Evaluator) (v : Value) : Run Text :=
  match Heap.ref? v with
  | some r => defaultText ev r
  | none => return (← heap).primitiveText v

end Run

end RegisterJit
