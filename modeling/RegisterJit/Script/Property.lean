import RegisterJit.Script.Convert

/-!
# Properties

Reading, writing and deleting properties of any value, and the conversions that depend on them.

These are the functions behind stubs and built-in functions that touch objects. `Proofs.Stores`
lists how a store and a deletion can end, `Proofs.Arrays` describes arrays by them, `Proofs.Loops`
the loops over keys. `maxDenseGrowth` is how far past its end an array grows before an index becomes
a name.
-/

namespace RegisterJit.Run

/-- How far past its end an array grows its vector; a store further out becomes a named property. -/
def maxDenseGrowth : Nat := 65536

/-- Whether a value has no properties at all. -/
def isNullish (v : Value) : Bool := v.isNullOrUndefined || v.isEmpty

/-- A message about a key. -/
def aboutKey (before : String) (key : Text) (after : String) : Text :=
  Text.ofString before ++ Text.ofString " '" ++ key ++ Text.ofString "'" ++ Text.ofString after

/-- The value of a property of an object; a getter is called with the receiver. -/
def get (ev : Evaluator) (r : ObjectRef) (key : Text) (receiver : Value) : Run Value := do
  match (← heap).find? r key with
  | none => return Value.undefined
  | some (.element v) => return v
  | some (.property _ p) =>
    match p.body with
    | .data v _ => return v
    | .accessor getter _ =>
      if getter.isEmpty then return Value.undefined else ev.call getter receiver []

/-- The one-unit string at an index of a text. A lone half of a pair reads as the replacement
character. -/
def unitAt? (t : Text) (i : Nat) : Option Text :=
  (Text.units t)[i]?.map fun u =>
    Text.encodeChar (if 0xd800 ≤ u ∧ u < 0xe000 then Text.replacement else u)

/-- The value of a property of any value. Strings have a length and characters of their own. -/
def getProperty (ev : Evaluator) (base : Value) (key : Text) : Run Value := do
  let inherited := do get ev (← realm).objectProto key base
  match Heap.ref? base with
  | some _ => get ev (← refOrCrash base) key base
  | none =>
    if base.isString then
      let t ← textOf base
      if key = lengthKey then return Value.ofInt (Text.units t).length
      else
        match (arrayIndex? key).bind (unitAt? t) with
        | some c => intern c
        | none => inherited
    else if isNullish base then
      raise .typeError (aboutKey "cannot read property" key " of " ++ (← heap).primitiveText base)
    else inherited

/-- What a method of an object gives, if there is such a method and that is a primitive. -/
def byMethod (ev : Evaluator) (v : Value) (name : Text) (otherwise : Run Primitive) :
    Run Primitive := do
  let fn ← getProperty ev v name
  if ← isCallable fn then
    let result ← ev.call fn v []
    if h : result.isObject then otherwise else return ⟨result, Bool.eq_false_iff.2 h⟩
  else otherwise

/-- The primitive of an object whose methods give none. -/
def fallbackPrimitive (ev : Evaluator) (r : ObjectRef) (o : Object) (hint : Hint) :
    Run Primitive := do
  if hint ≠ .string ∧ o.cls = .object ∧ !o.primitive.isEmpty then return o.primitive
  else internPrimitive (← defaultText ev r)

/-- Convert an object to a primitive: the first of its methods that gives one decides. -/
def toPrimitiveWith (ev : Evaluator) (v : Value) (hint : Hint) : Run Primitive := do
  match h : Heap.ref? v with
  | none => return ⟨v, Heap.isObject_of_ref?_eq_none h⟩
  | some r =>
    let o ← object r
    let fallback := fallbackPrimitive ev r o hint
    if hint = .string then byMethod ev v "toString" (byMethod ev v "valueOf" fallback)
    else byMethod ev v "valueOf" (byMethod ev v "toString" fallback)

/-- A primitive is its own primitive. -/
theorem toPrimitiveWith_of_isObject {ev : Evaluator} {v : Value} (hv : v.isObject = false)
    (hint : Hint) : toPrimitiveWith ev v hint = pure ⟨v, hv⟩ := by
  unfold toPrimitiveWith
  split
  · rfl
  · next href => simp [Heap.ref?, hv] at href

/-- The object of a value. Primitives are wrapped; a string's wrapper has its characters. -/
def toObject (v : Value) : Run ObjectRef := do
  match h : Heap.ref? v with
  | some _ => refOrCrash v
  | none =>
    if isNullish v then
      raise .typeError
        (Text.ofString "cannot convert " ++ (← heap).primitiveText v ++ Text.ofString " to object")
    else
      let r ← newObject
      modifyObject r fun o => { o with primitive := ⟨v, Heap.isObject_of_ref?_eq_none h⟩ }
      if v.isString then
        (Text.scalars (← textOf v)).zipIdx.forM fun (c, i) => do
          let character ← intern (Text.encodeChar c)
          define r (Text.ofNat i) ⟨.data character false, true, false⟩
      return r

/-- Store under a key that names no element. -/
def putNamed (ev : Evaluator) (r : ObjectRef) (base : Value) (key : Text) (v : Value)
    (strict : Bool) : Run Unit := do
  match (← heap).find? r key with
  | some (.property owner p) =>
    match p.body with
    | .accessor _ setter =>
      if setter.isEmpty then
        if strict then
          raise .typeError (aboutKey "cannot set property" key " which has only a getter")
      else
        let _ ← ev.call setter base [v]
    | .data _ writable =>
      if !writable then
        if strict then raise .typeError (aboutKey "cannot assign to read only property" key "")
      else if owner = r then define r key { p with body := .data v true }
      else define r key (Property.plain v)
  | _ => define r key (Property.plain v)

/-- Set the length of an array. -/
def putLength (ev : Evaluator) (r : ObjectRef) (v : Value) : Run Unit := do
  let n ← toNumber ev v
  if n.eq (Double.ofInt n.toUInt32.toNat) then
    modifyObject r fun o => o.setLength n.toUInt32.toNat
  else raise .rangeError "invalid array length"

/-- Store a value under a key of any value. -/
def putProperty (ev : Evaluator) (base : Value) (key : Text) (v : Value) (strict : Bool) :
    Run Unit := do
  if isNullish base then
    raise .typeError (aboutKey "cannot set property" key " of " ++ (← heap).primitiveText base)
  match Heap.ref? base with
  | none =>
    if strict then
      raise .typeError (aboutKey "cannot create property" key " on " ++ (← heap).typeName base)
  | some r =>
    let o ← object r
    if o.cls = .array ∧ key = lengthKey then putLength ev r v
    else
      match arrayIndex? key with
      | some i =>
        if o.cls = .array ∧ i < o.elements.size + maxDenseGrowth then
          modifyObject r fun o => o.setElement i v
        else putNamed ev r base key v strict
      | none => putNamed ev r base key v strict

/-- Delete a key of any value; the result is whether it is gone. -/
def deleteProperty (base : Value) (key : Text) (strict : Bool) : Run Bool := do
  if isNullish base then
    raise .typeError
      (Text.ofString "cannot convert " ++ (← heap).primitiveText base ++ Text.ofString " to object")
  match Heap.ref? base with
  | none => return true
  | some r =>
    let o ← object r
    if o.cls = .array ∧ key = lengthKey then
      if strict then raise .typeError (aboutKey "cannot delete property" key " of array")
      else return false
    else if o.cls = .array ∧ (arrayIndex? key).any (· < o.elements.size) then
      modifyObject r fun o =>
        { o with elements := o.elements.set ((arrayIndex? key).getD 0) Value.empty }
      return true
    else
      match o.own? key with
      | none => return true
      | some p =>
        if p.configurable then
          modifyObject r fun o => o.remove key
          return true
        else if strict then raise .typeError (aboutKey "cannot delete property" key "")
        else return false

/-- The value of a computed property, directly for an element of an array. -/
def loadElement (ev : Evaluator) (base element : Value) : Run Value := do
  let direct : Option Value ← match Heap.ref? base with
    | some r =>
      if element.isInt32 then do
        let o ← object r
        pure (if o.cls = .array ∧ 0 ≤ element.toInt32 then o.element? element.toInt32.toNat else none)
      else pure none
    | none => pure none
  match direct with
  | some v => return v
  | none => getProperty ev base (← propertyKey ev element)

/-- What an increment or decrement stores and what it yields. The bits of the mode are those of
`Step.mode`. -/
def stepNumber (ev : Evaluator) (old : Value) (mode : UInt64) : Run (Value × Value) := do
  let n ← toNumber ev old
  let next := if mode &&& 1 != 0 then n.sub Double.one else n.add Double.one
  let stored := Value.number next
  return (stored, if mode &&& 2 != 0 then Value.number n else stored)

/-- Whether a mode is that of strict code. -/
def isStrictMode (mode : UInt64) : Bool := mode &&& 4 != 0

/-- Increment or decrement a property. -/
def stepProperty (ev : Evaluator) (base : Value) (key : Text) (mode : UInt64) : Run Value := do
  let old ← getProperty ev base key
  let (stored, result) ← stepNumber ev old mode
  putProperty ev base key stored (isStrictMode mode)
  return result

/-- Define a part of a property of an object literal. A getter and a setter go together if the
literal says so. -/
def storeObject (part : PropertyPart) (r : ObjectRef) (name : Text) (v : Value) (merged : Bool) :
    Run Unit := do
  match part with
  | .data => define r name (Property.plain v)
  | _ =>
    let fresh : Property := ⟨.accessor Value.empty Value.empty, true, true⟩
    let p :=
      match (← object r).own? name with
      | some p => if merged then p else fresh
      | none => fresh
    let (getter, setter, p) :=
      match p.body with
      | .accessor getter setter => (getter, setter, p)
      | .data _ _ => (Value.empty, Value.empty, fresh)
    let body :=
      match part with
      | .getter => PropertyBody.accessor v setter
      | _ => PropertyBody.accessor getter v
    define r name { p with body := body }

/-! ## Enumeration -/

/-- Start a loop over the keys of a value. -/
def enumerate (v : Value) : Run Value := do
  let target ← toObject v
  let keys := (← heap).enumerableKeys target
  let r ← alloc { Object.ofClass .iterator none with enumeration := some ⟨target, keys⟩ }
  return Heap.value r

/-- The keys from the first one on that the object still has. -/
def liveKeys (h : Heap) (target : ObjectRef) (keys : List Text) : List Text :=
  keys.dropWhile fun k => !h.hasProperty target k

/-- The next key of a loop, or the empty value at its end. -/
def nextKey (v : Value) : Run Value := do
  let r ← refOrCrash v
  match (← object r).enumeration with
  | none => throw .crash
  | some e =>
    let rest := liveKeys (← heap) e.target e.keys
    modifyObject r fun o => { o with enumeration := some { e with keys := rest.drop 1 } }
    match rest with
    | [] => return Value.empty
    | k :: _ => intern k

/-- End a loop. -/
def endEnumeration (v : Value) : Run Unit :=
  match Heap.ref? v with
  | some r => modifyObject r fun o => { o with enumeration := none }
  | none => return ()

end RegisterJit.Run
