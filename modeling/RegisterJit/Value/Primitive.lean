import RegisterJit.Value.Tags

/-!
# Primitives

The values that are no objects. Conversions end with one of them, and an object may wrap one.

Wrapper objects hold one, and conversions give one, so neither needs a test for objects where it is
used. The only way to make one is from a value that is no object.
-/

namespace RegisterJit

namespace Value

theorem isObject_of_isNumber {v : Value} (h : v.isNumber) : v.isObject = Bool.false := by
  rw [isNumber_iff] at h
  rw [Bool.eq_false_iff, ne_eq, isObject_iff]
  omega

theorem isObject_string (handle : UInt32) : (string handle).isObject = Bool.false := by
  rw [Bool.eq_false_iff, ne_eq, isObject_iff, toNat_string]
  omega

theorem isNumber_ofInt (i : Int) : (ofInt i).isNumber := by
  rw [isNumber_iff, ofInt, toNat_int32]
  omega

theorem isNumber_number (x : Double) : (number x).isNumber := by
  have hdouble : (double x).isNumber := isNumber_iff.2 (toNat_double x).1
  unfold number
  split
  · split
    · exact isNumber_ofInt _
    · exact hdouble
  · exact hdouble

end Value

/-- A value that is no object. -/
structure Primitive where
  value : Value
  isObject_eq : value.isObject = false

namespace Primitive

instance : Coe Primitive Value := ⟨Primitive.value⟩

/-- No value. -/
def empty : Primitive := ⟨Value.empty, rfl⟩

/-- Whether it is empty. -/
def isEmpty (p : Primitive) : Bool := p.value.isEmpty

end Primitive

end RegisterJit
