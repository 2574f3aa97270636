import RegisterJit.Codec.LittleEndian

/-!
# Binary double-precision numbers

A double is its 64-bit pattern. Every finite magnitude is a whole number of *units*, the unit being
the smallest positive double `2 ^ -1074`; so exact arithmetic on doubles is arithmetic on naturals,
and the only rounding step is `roundUnits`, to nearest with ties to even.

No operation of this module uses floating-point numbers of the host: sums and products are computed
on units and rounded once. `Proofs.Rounding` and `Proofs.Nearest` show that rounding is to the
nearest, `Proofs.Integers` that arithmetic of integers is exact, and the models of the processor and
of the operators share these functions.
-/

namespace RegisterJit

/-- A double by its bit pattern. Equality of `Double`s is equality of patterns; `Double.eq` is
equality of numbers. -/
structure Double where
  bits : UInt64
  deriving DecidableEq, Hashable, Inhabited, Repr

namespace Double

/-- The sign bit. -/
def isNegative (x : Double) : Bool := x.bits.toNat ≥ 2 ^ 63

/-- The pattern without its sign bit. -/
def magnitude (x : Double) : Nat := x.bits.toNat % 2 ^ 63

/-- The magnitude pattern of infinity. -/
def infinityMagnitude : Nat := 0x7ff0000000000000

/-- Put a sign and a magnitude pattern together. -/
def ofMagnitude (negative : Bool) (m : Nat) : Double :=
  ⟨(if negative then 2 ^ 63 + m else m).toUInt64⟩

/-- Whether the pattern is no number. -/
def isNaN (x : Double) : Bool := infinityMagnitude < x.magnitude

/-- Whether the pattern is an infinity. -/
def isInfinite (x : Double) : Bool := x.magnitude = infinityMagnitude

/-- Whether the pattern is a finite number. -/
def isFinite (x : Double) : Bool := x.magnitude < infinityMagnitude

/-- Whether the number is zero, of either sign. -/
def isZero (x : Double) : Bool := x.magnitude = 0

/-- The pattern that stands for every NaN once boxed. -/
def nan : Double := ⟨0x7ff8000000000001⟩

/-- The NaN that arithmetic instructions produce for an invalid operation. -/
def invalid : Double := ⟨0xfff8000000000000⟩

/-- Positive infinity. -/
def infinity : Double := ⟨0x7ff0000000000000⟩

/-- Infinity of the given sign. -/
def signedInfinity (negative : Bool) : Double := ofMagnitude negative infinityMagnitude

/-- Zero of the given sign. -/
def signedZero (negative : Bool) : Double := ofMagnitude negative 0

/-- How many units make one. -/
def unitsPerOne : Nat := 2 ^ 1074

/-- The number of units of a magnitude pattern of a finite double. -/
def unitsOfMagnitude (m : Nat) : Nat :=
  let e := m / 2 ^ 52
  let f := m % 2 ^ 52
  if e = 0 then f else (2 ^ 52 + f) * 2 ^ (e - 1)

/-- The absolute value of a finite double in units. -/
def units (x : Double) : Nat := unitsOfMagnitude x.magnitude

/-- The value of a finite double in units, with its sign. -/
def signedUnits (x : Double) : Int := if x.isNegative then -(x.units : Int) else x.units

/-- Divide and round to the nearest natural, a tie going to the even one. -/
def divRoundEven (num den : Nat) : Nat :=
  let q := num / den
  let r := num % den
  if 2 * r < den then q
  else if 2 * r > den then q + 1
  else if q % 2 = 0 then q else q + 1

/-- The magnitude pattern of the double nearest to `num / den` units; patterns beyond the largest
finite one are infinity. -/
def roundUnits (num den : Nat) : Nat :=
  let e := (num / den).log2 - 52
  min (e * 2 ^ 52 + divRoundEven num (den * 2 ^ e)) infinityMagnitude

/-- The double nearest to the integer `n / den` of units, with the sign `negative` for zero. -/
def ofSignedUnits (zeroSign : Bool) (n : Int) (den : Nat) : Double :=
  ofMagnitude (if n = 0 then zeroSign else n < 0) (roundUnits n.natAbs den)

/-- The double nearest to an integer; zero is positive. -/
def ofInt (i : Int) : Double := ofSignedUnits false (i * unitsPerOne) 1

/-- The number one. -/
def one : Double := ⟨0x3ff0000000000000⟩

/-- Positive zero. -/
def zero : Double := ⟨0⟩

/-- Change the sign. -/
def neg (x : Double) : Double := ⟨x.bits ^^^ 0x8000000000000000⟩

/-- The result of an operation with a NaN operand: the first NaN among the operands, made quiet. -/
def quieted (x y : Double) : Double :=
  ⟨(if x.isNaN then x.bits else y.bits) ||| 0x0008000000000000⟩

/-- Sum, rounded to nearest. The sum of opposite numbers is positive zero; that of two negative
zeros is negative. -/
def add (x y : Double) : Double :=
  if x.isNaN || y.isNaN then quieted x y
  else if x.isInfinite then
    if y.isInfinite && x.isNegative != y.isNegative then invalid else x
  else if y.isInfinite then y
  else ofSignedUnits (x.isNegative && y.isNegative) (x.signedUnits + y.signedUnits) 1

/-- Difference, rounded to nearest. -/
def sub (x y : Double) : Double := if y.isNaN then quieted x y else add x (neg y)

/-- Product, rounded to nearest. -/
def mul (x y : Double) : Double :=
  if x.isNaN || y.isNaN then quieted x y
  else
    let negative := x.isNegative != y.isNegative
    if x.isInfinite || y.isInfinite then
      if x.isZero || y.isZero then invalid else signedInfinity negative
    else ofMagnitude negative (roundUnits (x.units * y.units) unitsPerOne)

/-- Quotient, rounded to nearest. -/
def div (x y : Double) : Double :=
  if x.isNaN || y.isNaN then quieted x y
  else
    let negative := x.isNegative != y.isNegative
    if x.isInfinite then if y.isInfinite then invalid else signedInfinity negative
    else if y.isInfinite then signedZero negative
    else if y.isZero then if x.isZero then invalid else signedInfinity negative
    else ofMagnitude negative (roundUnits (x.units * unitsPerOne) y.units)

/-- Remainder of the division truncated toward zero; it is exact and has the sign of `x`. -/
def rem (x y : Double) : Double :=
  if x.isNaN || y.isNaN || x.isInfinite || y.isZero then nan
  else if y.isInfinite then x
  else ofMagnitude x.isNegative (roundUnits (x.units % y.units) 1)

/-- A key that orders all numbers: the magnitude pattern with the sign. -/
def orderKey (x : Double) : Int := if x.isNegative then -(x.magnitude : Int) else x.magnitude

/-- Equality of numbers: a NaN equals nothing, both zeros are equal. -/
def eq (x y : Double) : Bool := !x.isNaN && !y.isNaN && x.orderKey == y.orderKey

/-- Order of numbers; false when an operand is a NaN. -/
def lt (x y : Double) : Bool := !x.isNaN && !y.isNaN && x.orderKey < y.orderKey

/-- The integer part of a finite double (toward zero). -/
def truncInt (x : Double) : Int :=
  let n : Int := (x.units / unitsPerOne : Nat)
  if x.isNegative then -n else n

/-- The integer that a finite double is, if it is one. -/
def toInt? (x : Double) : Option Int :=
  if x.isFinite && x.units % unitsPerOne == 0 then some x.truncInt else none

/-- The double nearest to `digits * 10 ^ exponent`, not negative. -/
def ofDecimal (digits : Nat) (exponent : Int) : Nat :=
  if 0 ≤ exponent then roundUnits (digits * 10 ^ exponent.toNat * unitsPerOne) 1
  else roundUnits (digits * unitsPerOne) (10 ^ (-exponent).toNat)

end Double

end RegisterJit
