import RegisterJit.Script.Elements
import RegisterJit.Text.Utf8

/-!
# Strings and objects

Values that do not fit into a word live here: strings are interned, so equal texts have equal words,
and objects are numbered in the order of their creation. An object keeps its named properties and,
beside them, their names in the order in which they appeared; an array keeps its elements in a vector,
with empty values as holes.

A chain of prototypes is followed for as many steps as the object has older ones, which suffices
since prototypes are older; `Proofs.Chains` shows that they always are. `Proofs.Interning` is about
the table of strings, `Proofs.Heaps` has the rules for reading a heap after a change.
-/

namespace RegisterJit

/-- An object by its number, counted from one. -/
abbrev ObjectRef := Nat

/-- An environment by its number. -/
abbrev EnvRef := Nat

/-- The kinds of errors that the runtime raises. -/
inductive ErrorKind
  | error
  | typeError
  | referenceError
  | rangeError
  | evalError
  | syntaxError
  deriving DecidableEq

namespace ErrorKind

/-- All of them, in order. -/
def all : List ErrorKind :=
  [.error, .typeError, .referenceError, .rangeError, .evalError, .syntaxError]

/-- Its name. -/
def name : ErrorKind → Text
  | .error => "Error"
  | .typeError => "TypeError"
  | .referenceError => "ReferenceError"
  | .rangeError => "RangeError"
  | .evalError => "EvalError"
  | .syntaxError => "SyntaxError"

end ErrorKind

/-- The functions that are not written in bytecode. -/
inductive Builtin
  | objectToString
  | objectValueOf
  | objectHasOwnProperty
  | functionCall
  | functionApply
  | arrayPush
  | arrayPop
  | arrayJoin
  | errorToString
  /-- Makes errors that inherit from the given object. -/
  | errorConstructor (proto : ObjectRef)
  | print
  | eval
  | isNaN
  | stringFunction
  | numberFunction
  | arrayFunction
  | objectFunction
  /-- Returns its receiver. -/
  | receiver
  /-- Calls its first argument with its own receiver and the other arguments. -/
  | callback
  deriving DecidableEq

/-- What a function runs. -/
inductive FunctionBody
  /-- A code by its number, closed over an environment. -/
  | compiled (code : Nat) (env : EnvRef)
  | builtin (b : Builtin)

/-- The callable part of an object. -/
structure Function where
  name : Text
  body : FunctionBody

/-- What a property holds. -/
inductive PropertyBody
  | data (value : Value) (writable : Bool)
  /-- A missing half is the empty value. -/
  | accessor (getter setter : Value)

/-- An own property. -/
structure Property where
  body : PropertyBody
  enumerable : Bool
  configurable : Bool

namespace Property

/-- A property as assignment makes it. -/
def plain (v : Value) : Property := ⟨.data v true, true, true⟩

/-- A property that loops do not enumerate. -/
def hidden (v : Value) : Property := ⟨.data v true, false, true⟩

/-- A property that cannot be changed, enumerated or deleted. -/
def fixed (v : Value) : Property := ⟨.data v false, false, false⟩

/-- The value of a data property. -/
def value? (p : Property) : Option Value :=
  match p.body with
  | .data v _ => some v
  | .accessor _ _ => none

end Property

/-- The internal kind of an object. -/
inductive ObjectClass
  | object
  | array
  | function
  | arguments
  | error
  | regExp
  | iterator
  deriving DecidableEq

namespace ObjectClass

/-- All of them, in order. -/
def all : List ObjectClass :=
  [.object, .array, .function, .arguments, .error, .regExp, .iterator]

/-- Its name. -/
def name : ObjectClass → Text
  | .object => "Object"
  | .array => "Array"
  | .function => "Function"
  | .arguments => "Arguments"
  | .error => "Error"
  | .regExp => "RegExp"
  | .iterator => "Iterator"

end ObjectClass

/-- A loop over the keys of an object: the keys that are still to come. -/
structure Enumeration where
  target : ObjectRef
  keys : List Text
  deriving DecidableEq

/-- An object. -/
structure Object where
  cls : ObjectClass
  proto : Option ObjectRef
  /-- The primitive that the object wraps, or the empty value. -/
  primitive : Primitive
  function : Option Function
  elements : Elements
  /-- The named properties. -/
  props : List (Text × Property)
  /-- Their names in the order in which they appeared. -/
  keys : List Text
  enumeration : Option Enumeration

/-- The name of the property that holds an array's length. -/
def lengthKey : Text := "length"

/-- The index that a key names if it is the numeral of one: no sign, no leading zero, below
`2 ^ 32 - 1`. -/
def arrayIndex? (key : Text) : Option Nat :=
  match key with
  | [] => none
  | first :: rest =>
    if 10 < key.length ∨ (first = 0x30 ∧ rest ≠ []) then none
    else if key.all Text.isDigit then
      let n := key.foldl (fun n b => n * 10 + Text.digitValue b) 0
      if n < 2 ^ 32 - 1 then some n else none
    else none

namespace Object

/-- A fresh object. -/
def ofClass (cls : ObjectClass) (proto : Option ObjectRef) : Object :=
  ⟨cls, proto, Primitive.empty, none, Elements.holes 0, [], [], none⟩

/-- The own named property with a key. -/
def own? (o : Object) (key : Text) : Option Property := o.props.lookup key

/-- The element at an index, if there is one. -/
def element? (o : Object) (i : Nat) : Option Value :=
  match o.elements.items[i]? with
  | some v => if v.isEmpty then none else some v
  | none => none

/-- The element of an array that a key names. -/
def elementOf? (o : Object) (key : Text) : Option Value := (arrayIndex? key).bind o.element?

/-- Whether the object itself has a key. -/
def hasOwn (o : Object) (key : Text) : Bool :=
  (o.cls == .array && (key == lengthKey || (o.elementOf? key).isSome)) || (o.own? key).isSome

/-- Properties with one replaced or added. -/
def put (key : Text) (p : Property) : List (Text × Property) → List (Text × Property)
  | [] => [(key, p)]
  | (k, q) :: rest => if k = key then (k, p) :: rest else (k, q) :: put key p rest

/-- Set a named property whatever it was before. The name of a new one goes to the end. -/
def define (o : Object) (key : Text) (p : Property) : Object :=
  { o with
    props := put key p o.props
    keys := if (o.own? key).isSome then o.keys else o.keys ++ [key] }

/-- Drop a named property and its name. -/
def remove (o : Object) (key : Text) : Object :=
  if (o.own? key).isSome then
    { o with props := o.props.filter fun q => q.1 != key, keys := o.keys.erase key }
  else o

/-- The keys of the object itself: indices of elements in ascending order, then names. -/
def ownKeys (o : Object) : List Text :=
  (o.elements.items.toList.zipIdx.filter fun e => !e.1.isEmpty).map (fun e => Text.ofNat e.2) ++ o.keys

/-- Cut the elements, or add holes. -/
def setLength (o : Object) (n : Nat) : Object := { o with elements := o.elements.setLength n }

/-- Put an element, growing the vector if need be. -/
def setElement (o : Object) (i : Nat) (v : Value) : Object :=
  let o := if o.elements.size ≤ i then o.setLength (i + 1) else o
  { o with elements := o.elements.set i v }

/-- Put elements from an index on, growing the vector if need be. -/
def setElements (o : Object) (start : Nat) (vs : List Value) : Object :=
  let need := start + vs.length
  let o := if o.elements.size < need then o.setLength need else o
  { o with elements := place start vs o.elements }
where
  /-- Overwrite elements in order. -/
  place (i : Nat) : List Value → Elements → Elements
    | [], e => e
    | v :: rest, e => place (i + 1) rest (e.set i v)

end Object

/-- A number that equal texts share and different ones seldom do. -/
def Text.digest (t : Text) : UInt64 :=
  t.foldl (fun n b => (n ^^^ b.toUInt64) * 0x100000001b3) 0xcbf29ce484222325

/-- A text that is kept with its digest, so that most other texts are told from it at a glance. -/
structure InternedText where
  text : Text
  digest : UInt64
  digest_eq : digest = text.digest

namespace InternedText

/-- A text with its digest. -/
def ofText (t : Text) : InternedText := ⟨t, t.digest, rfl⟩

/-- Whether the text is the one of another. -/
def same (s t : InternedText) : Bool := s.digest == t.digest && s.text == t.text

/-- Comparing digests first changes nothing. -/
theorem same_iff_text_eq (s t : InternedText) : s.same t = true ↔ s.text = t.text := by
  constructor
  · intro h
    simp only [same, Bool.and_eq_true, beq_iff_eq] at h
    exact h.2
  · intro h
    simp only [same, s.digest_eq, t.digest_eq, h, beq_self_eq_true, Bool.and_self]

end InternedText

/-- The interned strings and the objects. -/
structure Heap where
  /-- The texts of strings; the first has handle one. -/
  strings : Array InternedText
  /-- The objects; the first has number one. -/
  objects : Array Object

namespace Heap

/-- No strings and no objects. -/
def empty : Heap := ⟨#[], #[]⟩

/-! ## Strings -/

/-- The handle of a text that is interned. -/
def handle? (h : Heap) (t : InternedText) : Option Nat :=
  (h.strings.findIdx? fun s => s.same t).map (· + 1)

/-- The string value of a text. -/
def intern (h : Heap) (t : Text) : Value × Heap :=
  let s := InternedText.ofText t
  match h.handle? s with
  | some i => (Value.string i.toUInt32, h)
  | none => (Value.string (h.strings.size + 1).toUInt32, { h with strings := h.strings.push s })

theorem isObject_intern (h : Heap) (t : Text) : (h.intern t).1.isObject = false := by
  unfold intern
  dsimp only
  split <;> exact Value.isObject_string _

/-- The text that the handle of a value names, if any. Handle zero, which no string has, names the
empty text. -/
def text? (h : Heap) (v : Value) : Option Text :=
  match v.handle.toNat with
  | 0 => some []
  | i + 1 => h.strings[i]?.map InternedText.text

/-- The text of a string value. -/
def text (h : Heap) (v : Value) : Text := (h.text? v).getD []

/-! ## Objects -/

/-- The object with a number, if any. -/
def object? (h : Heap) (r : ObjectRef) : Option Object :=
  match r with
  | 0 => none
  | r + 1 => h.objects[r]?

/-- The object with a number. -/
def object (h : Heap) (r : ObjectRef) : Object :=
  (h.object? r).getD (Object.ofClass .object none)

/-- Add an object. -/
def alloc (h : Heap) (o : Object) : ObjectRef × Heap :=
  (h.objects.size + 1, { h with objects := h.objects.push o })

/-- Change an object. -/
def modify (h : Heap) (r : ObjectRef) (f : Object → Object) : Heap :=
  match r with
  | 0 => h
  | r + 1 => { h with objects := h.objects.modify r f }

/-- The object that a value refers to. -/
def ref? (v : Value) : Option ObjectRef := if v.isObject then some v.handle.toNat else none

theorem isObject_of_ref?_eq_none {v : Value} (h : ref? v = none) : v.isObject = false := by
  unfold ref? at h
  split at h
  · cases h
  · next hv => exact Bool.eq_false_iff.2 hv

/-- The value that refers to an object. -/
def value (r : ObjectRef) : Value := Value.object r.toUInt32

/-- An object and those it inherits from, nearest first. Objects inherit from older ones only, so
there are at most as many as the number of the first. -/
def chainFrom (h : Heap) : (fuel : Nat) → Option ObjectRef → List (ObjectRef × Object)
  | 0, _ => []
  | _, none => []
  | fuel + 1, some r =>
    let o := h.object r
    (r, o) :: h.chainFrom fuel o.proto

/-- An object and those it inherits from, nearest first. -/
def chain (h : Heap) (r : ObjectRef) : List (ObjectRef × Object) := h.chainFrom (r + 1) (some r)

/-- Where a key was found. -/
inductive Found
  /-- An element or the length of an array. -/
  | element (v : Value)
  | property (owner : ObjectRef) (p : Property)

/-- A key of one object. -/
def findOwn? (r : ObjectRef) (o : Object) (key : Text) : Option Found :=
  let named := (o.own? key).map (Found.property r)
  if o.cls = .array then
    if key = lengthKey then some (.element (Value.number (Double.ofInt o.elements.size)))
    else
      match o.elementOf? key with
      | some v => some (.element v)
      | none => named
  else named

/-- A key of an object or of those it inherits from. -/
def find? (h : Heap) (r : ObjectRef) (key : Text) : Option Found :=
  (h.chain r).findSome? fun (r, o) => findOwn? r o key

/-- Whether an object has or inherits a key. -/
def hasProperty (h : Heap) (r : ObjectRef) (key : Text) : Bool := (h.find? r key).isSome

/-- The text of a data property, if it is a string; otherwise nothing. -/
def propertyText (h : Heap) (r : ObjectRef) (key : Text) : Text :=
  let v? :=
    match h.find? r key with
    | some (.element v) => some v
    | some (.property _ p) => p.value?
    | none => none
  match v? with
  | some v => if v.isString then h.text v else []
  | none => []

/-- Keys of a chain of objects in order. A key seen before is not repeated, and one that is not
enumerable only hides later ones. -/
def enumerableFrom (seen : List Text) : List (Text × Bool) → List Text
  | [] => []
  | (k, enumerable) :: rest =>
    if seen.contains k then enumerableFrom seen rest
    else if enumerable then k :: enumerableFrom (k :: seen) rest
    else enumerableFrom (k :: seen) rest

/-- The keys that a loop over an object enumerates. -/
def enumerableKeys (h : Heap) (r : ObjectRef) : List Text :=
  enumerableFrom [] ((h.chain r).flatMap fun (_, o) =>
    o.ownKeys.map fun k => (k, ((o.own? k).map (·.enumerable)).getD true))

end Heap

end RegisterJit
