import RegisterJit.Number.Double

/-!
# Modular conversions

A double as a 32-bit integer: the integer part, toward zero, modulo `2 ^ 32`; numbers that are not
finite give zero. The reduction is done on doubles; only its result becomes an integer.

The operators on bits, the boxing of numbers and lengths of arrays convert through here.
`Proofs.Residues` shows that the steps on doubles are exact, so that the result is the residue of
the integer part for every double.
-/

namespace RegisterJit

/-- The integer in `-2 ^ 31 .. 2 ^ 31 - 1` with the same 32 low bits. -/
def signed32 (n : UInt32) : Int := n.toBitVec.toInt

namespace Double

/-- The number without its fraction. -/
def trunc (x : Double) : Double :=
  if x.isFinite then ofMagnitude x.isNegative (roundUnits (x.units / unitsPerOne * unitsPerOne) 1)
  else x

/-- The number `2 ^ 32`. -/
def modulus : Double := ⟨0x41f0000000000000⟩

/-- A number as an unsigned integer; numbers that are out of range have none. -/
def asUInt32? (x : Double) : Option UInt32 :=
  if x.isFinite ∧ 0 ≤ x.truncInt ∧ x.truncInt < 2 ^ 32 then some (UInt32.ofInt x.truncInt) else none

/-- The integer part as a double between zero and `modulus`. -/
def reduced (x : Double) : Double :=
  let r := x.trunc.rem modulus
  if r.lt zero then r.add modulus else r

/-- The integer part modulo `2 ^ 32`, if the last conversion is defined. -/
def toUInt32? (x : Double) : Option UInt32 :=
  if x.isNaN || x.isInfinite then some 0 else x.reduced.asUInt32?

/-- The integer part modulo `2 ^ 32`. -/
def toUInt32 (x : Double) : UInt32 := x.toUInt32?.getD 0

/-- The same residue between `-2 ^ 31` and `2 ^ 31 - 1`. -/
def toInt32 (x : Double) : Int := signed32 x.toUInt32

end Double

end RegisterJit
