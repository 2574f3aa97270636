import RegisterJit.Machine.Run
import RegisterJit.Proofs.Integers

/-!
# Residues modulo `2 ^ 32`

The integer part of a double, its remainder by `2 ^ 32` and the sum that makes it positive are doubles, so the
reduction does not round, however large the number is. The operators on bits are functions of the residues.

A double stands for an integer in the sense of `Means`. Cutting off the fraction, the remainder by `2 ^ 32` and
adding `2 ^ 32` once each give a double that stands for the exact result (`reduced_exact`), so the conversion to
32 bits is the integer part modulo `2 ^ 32`, whatever the size of the number. `BitOp` lists the operators on
bits, and `result` says what each of them is on residues. `bit_operators_modular` puts this together for the
stubs; `Arrays` uses the conversion for lengths, `IntegerStubs` for the operators on integers.
-/

namespace RegisterJit

namespace Double

variable {x y : Double} {i : Int}

/-- The integer part of a finite double: its value in units, divided toward zero. -/
def integerPart (x : Double) : Int := x.signedUnits.tdiv unitsPerOne

/-- The integer part modulo `2 ^ 32`, and zero for what is not finite. -/
def residue (x : Double) : Nat := if x.isFinite then (x.integerPart % 2 ^ 32).toNat else 0

theorem integerPart_eq (x : Double) : x.integerPart =
    if x.isNegative then -((x.units / unitsPerOne : Nat) : Int) else (x.units / unitsPerOne : Nat) := by
  rw [integerPart, signedUnits]
  split
  · rw [Int.neg_tdiv, Int.ofNat_tdiv]
  · rw [Int.ofNat_tdiv]

theorem Means.integerPart_eq (h : x.Means i) : x.integerPart = i := by
  rw [integerPart, h.2, Int.mul_tdiv_cancel _ (Int.natCast_pos.2 unitsPerOne_pos).ne']

theorem Means.eq_natAbs (h : x.Means i) :
    i = if x.isNegative then -(i.natAbs : Int) else i.natAbs := by
  have hU : (0 : Int) < unitsPerOne := Int.natCast_pos.2 unitsPerOne_pos
  have hvalue := h.2
  rw [signedUnits, h.units_eq] at hvalue
  push_cast at hvalue
  refine Int.eq_of_mul_eq_mul_right hU.ne' (hvalue.symm.trans ?_)
  split <;> push_cast <;> ring

/-! ## Exact steps -/

/-- A pattern with a sign stands for an integer if its units are whole. -/
theorem means_ofMagnitude (negative : Bool) {m n : Nat} (hm : m < infinityMagnitude)
    (h : unitsOfMagnitude m = n * unitsPerOne) :
    (ofMagnitude negative m).Means (if negative then -n else n) := by
  have hm63 : m < 2 ^ 63 := hm.trans (by decide)
  rw [Means, isFinite_iff, signedUnits, units, magnitude_ofMagnitude _ hm63,
    isNegative_ofMagnitude _ hm63, h]
  refine ⟨hm, ?_⟩
  split <;> push_cast
  · rw [Int.neg_mul]
  · rfl

theorem means_roundUnits (negative : Bool) {n : Nat}
    (h : ∃ m < infinityMagnitude, unitsOfMagnitude m = n * unitsPerOne) :
    (ofMagnitude negative (roundUnits (n * unitsPerOne) 1)).Means (if negative then -n else n) ∧
      (ofMagnitude negative (roundUnits (n * unitsPerOne) 1)).isNegative = negative := by
  obtain ⟨m, hm, hunits⟩ := h
  have hround : roundUnits (n * unitsPerOne) 1 = m := by
    rw [← hunits, ← Nat.mul_one (unitsOfMagnitude m)]
    exact roundUnits_units hm Nat.one_pos
  rw [hround]
  exact ⟨means_ofMagnitude negative hm hunits, isNegative_ofMagnitude _ (hm.trans (by decide))⟩

/-- A finite double without its fraction is a double: either it has no fraction, or what is left has no more
bits than the significand. -/
theorem exists_pattern_of_trunc (hx : x.isFinite) :
    ∃ m < infinityMagnitude, unitsOfMagnitude m = x.units / unitsPerOne * unitsPerOne := by
  obtain ⟨e, r, hnormal, hm⟩ := exists_normal x.magnitude
  have hunits : x.units = r * 2 ^ e := by
    rw [units, hm, unitsOfMagnitude_eq hnormal.bits.le hnormal.full]
  rcases Nat.lt_or_ge e 1074 with he | he
  · refine exists_pattern_of_nat (Nat.div_lt_of_lt_mul ?_)
    have hunit : 2 ^ e ≤ unitsPerOne := Nat.pow_le_pow_right Nat.two_pos (Nat.le_of_lt he)
    rw [hunits, Nat.mul_comm]
    exact Nat.mul_lt_mul_of_le_of_lt hunit hnormal.bits unitsPerOne_pos
  · refine ⟨x.magnitude, isFinite_iff.1 hx, ?_⟩
    have hdvd : unitsPerOne ∣ x.units := hunits ▸ (Nat.pow_dvd_pow 2 he).mul_left r
    rw [Nat.div_mul_cancel hdvd, units]

theorem trunc_means (hx : x.isFinite) :
    x.trunc.Means x.integerPart ∧ x.trunc.isNegative = x.isNegative := by
  rw [trunc, if_pos hx, x.integerPart_eq]
  exact means_roundUnits _ (exists_pattern_of_trunc hx)

theorem modulus_means : modulus.Means (2 ^ 32) := ⟨by decide, by decide +kernel⟩

theorem rem_means {n : Nat} (hx : x.Means i) (hy : y.Means n) (hpos : 0 < n) (hn : n ≤ 2 ^ 53) :
    (x.rem y).Means (i.tmod n) := by
  have hyzero : y.isZero = false := Bool.eq_false_iff.2 fun h => by
    have := hy.isZero_iff.1 h
    omega
  have hunits : x.units % y.units = i.natAbs % n * unitsPerOne := by
    rw [hx.units_eq, hy.units_eq, Int.natAbs_natCast, Nat.mul_mod_mul_right]
  have hlt : i.natAbs % n < 2 ^ 53 := (Nat.mod_lt _ hpos).trans_le hn
  have hsign : (i.tmod n : Int) =
      if x.isNegative then -((i.natAbs % n : Nat) : Int) else (i.natAbs % n : Nat) := by
    conv_lhs => rw [hx.eq_natAbs]
    split
    · rw [Int.neg_tmod, Int.ofNat_tmod]
    · rw [Int.ofNat_tmod]
  rw [rem, hx.finite.1, hy.finite.1, hx.finite.2, hy.finite.2, hyzero, hunits, hsign]
  exact (means_roundUnits x.isNegative (exists_pattern_of_nat hlt)).1

theorem tmod_natAbs_lt (i : Int) : (i.tmod (2 ^ 32)).natAbs < 2 ^ 32 := by
  rw [Int.natAbs_tmod]
  exact Nat.mod_lt _ (by decide)

theorem lt_zero_iff (hx : x.Means i) : x.lt zero ↔ i < 0 := by
  have hzero : zero.Means 0 := ⟨by decide, (Int.zero_mul _).symm⟩
  rw [lt, hx.finite.1, hzero.finite.1, Bool.not_false, Bool.true_and, Bool.true_and, decide_eq_true_eq,
    orderKey_lt_iff hx hzero]

/-- Every step of the reduction of a finite double is exact: what is computed is a double that stands for the
integer part, its remainder, and that with `2 ^ 32` added if it is negative. -/
theorem reduced_exact (hx : x.isFinite) :
    x.trunc.Means x.integerPart ∧
    (x.trunc.rem modulus).Means (x.integerPart.tmod (2 ^ 32)) ∧
    (x.integerPart.tmod (2 ^ 32) < 0 →
      ((x.trunc.rem modulus).add modulus).Means (x.integerPart.tmod (2 ^ 32) + 2 ^ 32)) ∧
    x.reduced.Means (x.integerPart % 2 ^ 32) := by
  have htrunc := (trunc_means hx).1
  have hrem : (x.trunc.rem modulus).Means (x.integerPart.tmod (2 ^ 32)) :=
    rem_means htrunc modulus_means (by decide) (by decide)
  have hbound := tmod_natAbs_lt x.integerPart
  have hadd (hneg : x.integerPart.tmod (2 ^ 32) < 0) :
      ((x.trunc.rem modulus).add modulus).Means (x.integerPart.tmod (2 ^ 32) + 2 ^ 32) := by
    rw [add_means hrem modulus_means fun h => by omega]
    exact ofInt_means (by omega)
  refine ⟨htrunc, hrem, hadd, ?_⟩
  rw [reduced]
  have hdiv := Int.tmod_add_mul_tdiv x.integerPart (2 ^ 32)
  split
  · next hlt =>
    have hneg := (lt_zero_iff hrem).1 hlt
    rw [show x.integerPart % 2 ^ 32 = x.integerPart.tmod (2 ^ 32) + 2 ^ 32 by omega]
    exact hadd hneg
  · next hlt =>
    have hnonneg := mt (lt_zero_iff hrem).2 hlt
    rw [show x.integerPart % 2 ^ 32 = x.integerPart.tmod (2 ^ 32) by omega]
    exact hrem

theorem Means.truncInt_eq (hx : x.Means i) : x.truncInt = i := by
  have h := toInt?_eq_some_iff.2 hx
  rw [toInt?] at h
  split at h
  · exact Option.some.inj h
  · cases h

theorem asUInt32?_eq (hx : x.Means i) (hlow : 0 ≤ i) (hhigh : i < 2 ^ 32) :
    x.asUInt32? = some (UInt32.ofInt i) := by
  rw [asUInt32?, hx.truncInt_eq, if_pos ⟨hx.1, hlow, hhigh⟩]

/-! ## The conversions -/

theorem residue_lt (x : Double) : x.residue < 2 ^ 32 := by
  rw [residue]
  split <;> omega

theorem toUInt32?_eq (x : Double) : x.toUInt32? = some (UInt32.ofNat x.residue) := by
  rw [toUInt32?, residue]
  by_cases hx : x.isFinite
  · have hm := isFinite_iff.1 hx
    have hnan : x.isNaN = false := decide_eq_false (by omega)
    have hinfinite : x.isInfinite = false := decide_eq_false (by omega)
    rw [hnan, hinfinite, Bool.or_false, if_neg Bool.false_ne_true, if_pos hx,
      asUInt32?_eq (reduced_exact hx).2.2.2 (Int.emod_nonneg _ (by decide))
        (Int.emod_lt_of_pos _ (by decide))]
    rw [UInt32.ofInt, Int.emod_emod]
  · have hm := mt isFinite_iff.2 hx
    have hother : (x.isNaN || x.isInfinite) = true := by
      rw [Bool.or_eq_true, isNaN, isInfinite, decide_eq_true_eq, decide_eq_true_eq]
      omega
    rw [if_pos hother, if_neg hx]
    rfl

theorem toNat_toUInt32 (x : Double) : x.toUInt32.toNat = x.residue := by
  rw [toUInt32, toUInt32?_eq, Option.getD_some, UInt32.toNat_ofNat', Nat.mod_eq_of_lt x.residue_lt]

theorem toInt32_eq_bmod (x : Double) : x.toInt32 = (x.residue : Int).bmod (2 ^ 32) := by
  rw [toInt32, signed32, BitVec.toInt_eq_toNat_bmod]
  exact congrArg (fun n : Nat => (n : Int).bmod (2 ^ 32)) x.toNat_toUInt32

end Double

/-! ## Operators on bits -/

/-- The operators on the bits of two numbers. -/
inductive BitOp
  | shiftLeft
  | shiftRight
  | shiftRightLogical
  | and
  | xor
  | or

namespace BitOp

def operator : BitOp → BinaryOp
  | shiftLeft => .shiftLeft
  | shiftRight => .shiftRight
  | shiftRightLogical => .shiftRightLogical
  | and => .bitAnd
  | xor => .bitXor
  | or => .bitOr

/-- What an operator makes of two residues. The count of a shift is reduced modulo 32; a shift to the
right divides the residue, which is signed or not. -/
def result (m n : Nat) : BitOp → Value
  | shiftLeft => .ofInt ((m * 2 ^ (n % 32) : Nat) : Int)
  | shiftRight => .ofInt ((m : Int).bmod (2 ^ 32) / 2 ^ (n % 32))
  | shiftRightLogical => .number (Double.ofInt ((m / 2 ^ (n % 32) : Nat) : Int))
  | and => .ofInt ((m &&& n : Nat) : Int)
  | xor => .ofInt ((m ^^^ n : Nat) : Int)
  | or => .ofInt ((m ||| n : Nat) : Int)

theorem ofInt_natCast {u : UInt32} {n : Nat} (h : u.toNat = n % 2 ^ 32) :
    Value.int32 u = Value.ofInt (n : Int) := by
  rw [Value.ofInt]
  refine congrArg Value.int32 (UInt32.toNat_inj.1 ?_)
  rw [h, UInt32.ofInt, UInt32.toNat_ofNat']
  omega

theorem toNat_shiftCount (y : Double) : (y.toUInt32 &&& 31).toNat = y.residue % 32 := by
  rw [UInt32.toNat_and, y.toNat_toUInt32]
  exact Nat.and_two_pow_sub_one_eq_mod _ 5

theorem arithmetic_eq (op : BitOp) (x y : Double) :
    Run.arithmetic? op.operator x y = some (op.result x.residue y.residue) := by
  have hx := x.toNat_toUInt32
  have hy := y.toNat_toUInt32
  have hcount := toNat_shiftCount y
  have hlt := x.residue_lt
  have hlt' := y.residue_lt
  cases op with
  | shiftLeft =>
    refine congrArg some (ofInt_natCast ?_)
    rw [UInt32.toNat_shiftLeft, hx, hcount, Nat.mod_mod, Nat.shiftLeft_eq]
  | shiftRight =>
    refine congrArg some ?_
    rw [hcount, x.toInt32_eq_bmod, Int.shiftRight_eq_div_pow]
    rfl
  | shiftRightLogical =>
    have hshift : (x.toUInt32 >>> (y.toUInt32 &&& 31)).toNat =
        x.residue / 2 ^ (y.residue % 32) := by
      rw [UInt32.toNat_shiftRight, hx, hcount, Nat.mod_mod, Nat.shiftRight_eq_div_pow]
    change some (Value.number (Double.ofInt (x.toUInt32 >>> (y.toUInt32 &&& 31)).toNat)) = _
    rw [hshift, result]
  | and =>
    refine congrArg some (ofInt_natCast ?_)
    rw [UInt32.toNat_and, hx, hy, Nat.mod_eq_of_lt (Nat.and_lt_two_pow _ hlt')]
  | xor =>
    refine congrArg some (ofInt_natCast ?_)
    rw [UInt32.toNat_xor, hx, hy, Nat.mod_eq_of_lt (Nat.xor_lt_two_pow hlt hlt')]
  | or =>
    refine congrArg some (ofInt_natCast ?_)
    rw [UInt32.toNat_or, hx, hy, Nat.mod_eq_of_lt (Nat.or_lt_two_pow hlt hlt')]

end BitOp

/-! ## The operators of stubs -/

namespace Run

theorem binaryStub_bits (ev : Evaluator) (op : BitOp) (a b : Value) :
    binaryStub ev (.binary op.operator) a b = (do
      let x ← toNumber ev a
      let y ← toNumber ev b
      return op.result x.residue y.residue) := by
  have harithmetic := op.arithmetic_eq
  cases op <;> refine bind_congr fun x => bind_congr fun y => ?_ <;> rw [harithmetic]

theorem unaryStub_bitNot (ev : Evaluator) (v : Value) :
    unaryStub ev .unaryBitNot v = (do
      let x ← toNumber ev v
      return Value.ofInt (-(x.residue : Int) - 1)) := by
  have hnot (x : Double) : Value.int32 (~~~x.toUInt32) = Value.ofInt (-(x.residue : Int) - 1) := by
    refine congrArg Value.int32 (UInt32.toNat_inj.1 ?_)
    have hlt := x.residue_lt
    rw [UInt32.toNat_not, x.toNat_toUInt32, UInt32.ofInt, UInt32.toNat_ofNat', UInt32.size]
    omega
  simp only [← hnot]
  rfl

theorem toNumber_shiftRightLogical {m n : Nat} (hm : m < 2 ^ 32) (hn : n % 32 = 0) :
    (BitOp.shiftRightLogical.result m n).toNumber.Means m := by
  have hmeans : (Double.ofInt m).Means m := Double.ofInt_means (by omega)
  rw [BitOp.result, hn, Nat.pow_zero, Nat.div_one, Value.toNumber_number, hmeans.finite.1,
    if_neg Bool.false_ne_true]
  exact hmeans

/-- The conversions of the operators on bits are modular: for a finite double every step is exact, the last one
is defined, and the results are the integer part modulo `2 ^ 32`, without and with a sign; what is not finite
gives zero. The operators are functions of the residues, with the count of a shift modulo 32, and a logical
shift by zero gives the residue. -/
theorem bit_operators_modular (ev : Evaluator) (x y : Double) (op : BitOp) (a b : Value) :
    (x.isFinite →
      x.trunc.Means x.integerPart ∧
      (x.trunc.rem .modulus).Means (x.integerPart.tmod (2 ^ 32)) ∧
      (x.integerPart.tmod (2 ^ 32) < 0 →
        ((x.trunc.rem .modulus).add .modulus).Means (x.integerPart.tmod (2 ^ 32) + 2 ^ 32)) ∧
      x.toUInt32? = some x.toUInt32 ∧ (x.toUInt32.toNat : Int) = x.integerPart % 2 ^ 32 ∧
      -(2 ^ 31) ≤ x.toInt32 ∧ x.toInt32 < 2 ^ 31 ∧ x.toInt32 % 2 ^ 32 = x.integerPart % 2 ^ 32) ∧
    (x.isNaN ∨ x.isInfinite → x.toUInt32 = 0 ∧ x.toInt32 = 0) ∧
    x.toUInt32.toNat = x.residue ∧
    binaryStub ev (.binary op.operator) a b = (do
      let x ← toNumber ev a
      let y ← toNumber ev b
      return op.result x.residue y.residue) ∧
    unaryStub ev .unaryBitNot a = (do
      let x ← toNumber ev a
      return Value.ofInt (-(x.residue : Int) - 1)) ∧
    (y.residue % 32 = 0 →
      (BitOp.shiftRightLogical.result x.residue y.residue).toNumber.Means x.residue) := by
  have hlt := x.residue_lt
  refine ⟨fun hx => ?_, fun hx => ?_, x.toNat_toUInt32, binaryStub_bits ev op a b,
    unaryStub_bitNot ev a, toNumber_shiftRightLogical hlt⟩
  · obtain ⟨htrunc, hrem, hadd, -⟩ := Double.reduced_exact hx
    have hresidue : (x.residue : Int) = x.integerPart % 2 ^ 32 := by
      rw [Double.residue, if_pos hx]
      omega
    have hdefined : x.toUInt32? = some x.toUInt32 := by
      rw [Double.toUInt32, x.toUInt32?_eq, Option.getD_some]
    have hsigned := x.toInt32_eq_bmod
    rw [Int.bmod_def] at hsigned
    refine ⟨htrunc, hrem, hadd, hdefined, by rw [x.toNat_toUInt32, hresidue], ?_, ?_, ?_⟩ <;>
      split at hsigned <;> omega
  · have hresidue : x.residue = 0 := by
      refine if_neg fun hfinite => ?_
      have hm := Double.isFinite_iff.1 hfinite
      simp only [Double.isNaN, Double.isInfinite, decide_eq_true_eq] at hx
      omega
    refine ⟨UInt32.toNat_inj.1 (x.toNat_toUInt32.trans hresidue), ?_⟩
    rw [x.toInt32_eq_bmod, hresidue]
    rfl

/-- The number minus three, and a NaN. -/
theorem bit_operators_modular_values :
    (⟨0xc008000000000000⟩ : Double).toUInt32.toNat = 2 ^ 32 - 3 ∧ Double.nan.toInt32 = 0 ∧
      (BitOp.shiftRightLogical.result (Double.residue ⟨0xc008000000000000⟩)
        Double.zero.residue).toNumber.Means (2 ^ 32 - 3) := by
  have hpart : (⟨0xc008000000000000⟩ : Double).integerPart = -3 := by decide +kernel
  obtain ⟨hfinite, -, hresidue, -, -, hshift⟩ := bit_operators_modular detached
    ⟨0xc008000000000000⟩ Double.zero .shiftLeft Value.undefined Value.undefined
  obtain ⟨-, hnan, -⟩ := bit_operators_modular detached Double.nan Double.zero .shiftLeft
    Value.undefined Value.undefined
  obtain ⟨-, -, -, -, hvalue, -⟩ := hfinite (by decide)
  rw [hpart] at hvalue
  have hthree : (⟨0xc008000000000000⟩ : Double).toUInt32.toNat = 2 ^ 32 - 3 := by omega
  refine ⟨hthree, (hnan (.inl (by decide))).2, ?_⟩
  have hmeans := hshift (by decide +kernel)
  rw [← hresidue, hthree] at hmeans ⊢
  exact hmeans

end Run

end RegisterJit
