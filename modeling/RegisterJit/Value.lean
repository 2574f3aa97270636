import RegisterJit.Number.Modular

/-!
# Tagged values

A script value is one 64-bit word. Small integers have all of the top sixteen bits set; doubles are
stored with `2 ^ 48` added to their pattern, which keeps them clear of the integers above and of
everything else below; the rest are a few constants and cells, a handle shifted past four bits of
kind. The word zero is the empty value (a hole, or no value).

Scripts, the heap and compiled code share this representation, and emitted code tests the tags of
words directly. `Proofs.Boxing` shows that the kinds of values are apart and that each value is read
back, `Value.Tags` and `Proofs.Forks` that the tests of compiled code are the tests of this
module.
-/

namespace RegisterJit

/-- A tagged word. -/
structure Value where
  word : UInt64
  deriving DecidableEq, Hashable, Inhabited, Repr

namespace Value

/-- The bits of which any is set in a number, and all in a small integer. -/
def numberMask : UInt64 := 0xffff000000000000

/-- What is added to a double's pattern. -/
def doubleOffset : UInt64 := 0x0001000000000000

/-- The bit common to null, undefined and the booleans. -/
def tagOther : UInt64 := 0x2

/-- The bit that tells undefined from null. -/
def tagUndefined : UInt64 := 0x8

/-- The bits that are all clear in a cell. -/
def tagMask : UInt64 := numberMask ||| tagOther

/-- The value of what was never set; no program text denotes it. -/
def empty : Value := ⟨0⟩

/-- The value null. -/
def null : Value := ⟨0x2⟩

/-- The truth value false. -/
def «false» : Value := ⟨0x6⟩

/-- The truth value true. -/
def «true» : Value := ⟨0x7⟩

/-- The value undefined. -/
def undefined : Value := ⟨0xa⟩

/-- Box the integer with these 32 bits. -/
def int32 (i : UInt32) : Value := ⟨numberMask ||| i.toUInt64⟩

/-- Box an integer of the 32-bit range. -/
def ofInt (i : Int) : Value := int32 (UInt32.ofInt i)

/-- Box a double as a double; every NaN becomes the one `Double.nan`. -/
def double (x : Double) : Value := ⟨(if x.isNaN then Double.nan else x).bits + doubleOffset⟩

/-- Box a number: as an integer if it is one of the 32-bit range and not negative zero. -/
def number (x : Double) : Value :=
  match x.toInt? with
  | some i =>
    if -(2 ^ 31) ≤ i ∧ i < 2 ^ 31 ∧ ¬ (i = 0 ∧ x.isNegative) then ofInt i else double x
  | none => double x

/-- Box a boolean. -/
def ofBool (b : Bool) : Value := if b then .true else .false

/-- The cell of an object handle. -/
def object (handle : UInt32) : Value := ⟨handle.toUInt64 <<< 4⟩

/-- The cell of a string handle. -/
def string (handle : UInt32) : Value := ⟨handle.toUInt64 <<< 4 ||| 8⟩

/-! ## Classes -/

/-- Whether it is a tagged integer. -/
def isInt32 (v : Value) : Bool := numberMask ≤ v.word

/-- Whether it is a number of either form. -/
def isNumber (v : Value) : Bool := v.word &&& numberMask != 0

/-- Whether it is a boxed double. -/
def isDouble (v : Value) : Bool := v.isNumber && !v.isInt32

/-- Whether it is empty. -/
def isEmpty (v : Value) : Bool := v == empty

/-- Whether it is null. -/
def isNull (v : Value) : Bool := v == null

/-- Whether it is undefined. -/
def isUndefined (v : Value) : Bool := v == undefined

/-- Masks the lowest bit, which is the boolean itself. -/
def isBool (v : Value) : Bool := v.word &&& ~~~(1 : UInt64) == Value.false.word

/-- Masks the bit by which undefined differs from null. -/
def isNullOrUndefined (v : Value) : Bool := v.word &&& ~~~tagUndefined == null.word

/-- Whether it is a handle. -/
def isCell (v : Value) : Bool := v.word &&& tagMask == 0 && v != empty

/-- Whether it is the handle of an object. -/
def isObject (v : Value) : Bool := v.isCell && v.word &&& 0xf == 0

/-- Whether it is the handle of a string. -/
def isString (v : Value) : Bool := v.isCell && v.word &&& 0xf == 8

/-! ## Payloads

A payload means something only for a word of its class, but is defined for every word. -/

/-- The 32 low bits. -/
def toUInt32 (v : Value) : UInt32 := v.word.toUInt32

/-- The integer of the 32 low bits. -/
def toInt32 (v : Value) : Int := signed32 v.toUInt32

/-- The double stored in the word. -/
def toDouble (v : Value) : Double := ⟨v.word - doubleOffset⟩

/-- The number an integer or double stands for. -/
def toNumber (v : Value) : Double := if v.isInt32 then Double.ofInt v.toInt32 else v.toDouble

/-- The truth value that it is; false for everything but true. -/
def toBool (v : Value) : Bool := v == .true

/-- The handle of a cell. -/
def handle (v : Value) : UInt32 := (v.word >>> 4).toUInt32

/-! ## Code addresses -/

/-- A code address as a value: marked in its lowest bit and rotated right by sixteen, so that it is
a double for the script. -/
def ofAddress (a : UInt64) : Value :=
  let marked := a ||| 1
  ⟨marked >>> 16 ||| marked <<< 48⟩

/-- The address that `ofAddress` stored. -/
def toAddress (v : Value) : UInt64 := (v.word <<< 16 ||| v.word >>> 48) &&& ~~~(1 : UInt64)

end Value

end RegisterJit
