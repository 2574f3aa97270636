import Mathlib.Data.Nat.Bitwise
import RegisterJit.Proofs.Boxing

/-!
# Integers as doubles

Arithmetic of doubles on integers that fit the significand is exact, and a product of two of them is rounded
once. The exceptions are results that are zero and would be negative.

A double stands for an integer if its value is that integer, and operations on such doubles are operations on
the integers as long as the results fit 53 bits; a product of two integers of 32 bits need not, but it is
rounded only once, as the conversion from 64 bits rounds it. The sign of a zero is what arithmetic of integers
does not have: a zero that comes from a negative factor, or a remainder of a negative number, would be negative,
and the lemmas exclude it by name. `Inline`, `Residues` and `Indices` start from here.
-/

namespace RegisterJit

namespace Double

variable {x y : Double} {i j : Int}

theorem roundUnits_mul_right (num den : Nat) {k : Nat} (hk : 0 < k) :
    roundUnits (num * k) (den * k) = roundUnits num den := by
  have hround (a b : Nat) : divRoundEven (a * k) (b * k) = divRoundEven a b := by
    unfold divRoundEven
    dsimp only
    rw [Nat.mul_div_mul_right _ _ hk, Nat.mul_mod_mul_right, ← Nat.mul_assoc]
    simp only [Nat.mul_lt_mul_right hk, gt_iff_lt]
  unfold roundUnits
  dsimp only
  rw [Nat.mul_div_mul_right _ _ hk, show den * k * 2 ^ ((num / den).log2 - 52) =
    den * 2 ^ ((num / den).log2 - 52) * k by ring, hround]

theorem Means.finite (h : x.Means i) : x.isNaN = false ∧ x.isInfinite = false := by
  have hm := isFinite_iff.1 h.1
  exact ⟨decide_eq_false (by omega), decide_eq_false (by omega)⟩

theorem Means.isZero_iff (h : x.Means i) : x.isZero = true ↔ i = 0 := by
  have hunits := h.units_eq
  rw [isZero, decide_eq_true_eq]
  constructor
  · intro hzero
    rw [units, hzero] at hunits
    have : i.natAbs * unitsPerOne = 0 := hunits.symm
    exact Int.natAbs_eq_zero.1 ((Nat.mul_eq_zero.1 this).resolve_right unitsPerOne_pos.ne')
  · rintro rfl
    rw [Int.natAbs_zero, Nat.zero_mul] at hunits
    exact unitsOfMagnitude_inj (isFinite_iff.1 h.1) (by decide) hunits

theorem isNegative_ofInt (i : Int) : (ofInt i).isNegative = decide (i < 0) := by
  have hU : (0 : Int) < unitsPerOne := Int.natCast_pos.2 unitsPerOne_pos
  have hlt : roundUnits (i * unitsPerOne).natAbs 1 < 2 ^ 63 :=
    (Nat.min_le_right _ _).trans_lt (by decide)
  rw [ofInt, ofSignedUnits, isNegative_ofMagnitude _ hlt]
  by_cases hi : i = 0
  · rw [hi, Int.zero_mul, if_pos rfl]
    rfl
  · rw [if_neg (Int.mul_ne_zero hi hU.ne'), decide_eq_decide]
    exact ⟨fun h => by_contra fun h' => absurd h (Int.not_lt.2 (Int.mul_nonneg (by omega) hU.le)),
      fun h => Int.mul_neg_of_neg_of_pos h hU⟩

theorem ofSignedUnits_false (i : Int) : ofSignedUnits false (i * unitsPerOne) 1 = ofInt i := rfl

theorem ofSignedUnits_units (zeroSign : Bool) (hi : i = 0 → zeroSign = false) :
    ofSignedUnits zeroSign (i * unitsPerOne) 1 = ofInt i := by
  by_cases h : i = 0
  · rw [hi h, ofSignedUnits_false]
  · have hne : i * (unitsPerOne : Int) ≠ 0 :=
      Int.mul_ne_zero h (Int.natCast_pos.2 unitsPerOne_pos).ne'
    rw [ofInt, ofSignedUnits, ofSignedUnits, if_neg hne, if_neg hne]

theorem ofMagnitude_units {negative : Bool} (hi : i = 0 → negative = false)
    (hsign : i ≠ 0 → negative = decide (i < 0)) :
    ofMagnitude negative (roundUnits (i.natAbs * unitsPerOne) 1) = ofInt i := by
  have hU : (0 : Int) < unitsPerOne := Int.natCast_pos.2 unitsPerOne_pos
  rw [ofInt, ofSignedUnits, Int.natAbs_mul, Int.natAbs_natCast]
  by_cases h : i = 0
  · rw [hi h, h, Int.zero_mul, if_pos rfl]
  · rw [hsign h, if_neg (Int.mul_ne_zero h hU.ne')]
    congr 1
    rw [decide_eq_decide]
    exact ⟨fun h => Int.mul_neg_of_neg_of_pos h hU,
      fun h => by_contra fun h' => absurd h (Int.not_lt.2 (Int.mul_nonneg (by omega) hU.le))⟩

theorem sign_mul (h : i * j ≠ 0) : (decide (i < 0) != decide (j < 0)) = decide (i * j < 0) := by
  have hi : i ≠ 0 := left_ne_zero_of_mul h
  have hj : j ≠ 0 := right_ne_zero_of_mul h
  rw [Bool.eq_iff_iff, bne_iff_ne, ne_eq, decide_eq_decide, decide_eq_true_eq, mul_neg_iff]
  omega

theorem add_means (hx : x.Means i) (hy : y.Means j)
    (hzero : i + j = 0 → (x.isNegative && y.isNegative) = false) : x.add y = ofInt (i + j) := by
  rw [add, hx.finite.1, hy.finite.1, hx.finite.2, hy.finite.2, hx.2, hy.2, ← Int.add_mul]
  exact ofSignedUnits_units _ hzero

theorem toNat_xor_signBit (w : UInt64) :
    (w ^^^ 0x8000000000000000).toNat = (w.toNat + 2 ^ 63) % 2 ^ 64 := by
  have hlt := w.toNat_lt
  rw [UInt64.toNat_xor, show (0x8000000000000000 : UInt64).toNat = 2 ^ 63 from rfl]
  refine Nat.eq_of_testBit_eq fun k => ?_
  rw [Nat.testBit_xor, Nat.testBit_mod_two_pow, Nat.add_comm, Nat.testBit_two_pow]
  rcases Nat.lt_trichotomy k 63 with h | rfl | h
  · rw [Nat.testBit_two_pow_add_gt h, decide_eq_false (by omega), Bool.xor_false,
      decide_eq_true (by omega), Bool.true_and]
  · rw [Nat.testBit_two_pow_add_eq]
    simp
  · rw [Nat.testBit_eq_false_of_lt (hlt.trans_le (Nat.pow_le_pow_right (by decide) h)),
      decide_eq_false (by omega), decide_eq_false (by omega)]
    rfl

theorem neg_means (hx : x.Means i) : x.neg.Means (-i) ∧ x.neg.isNegative = !x.isNegative := by
  have hlt := x.bits.toNat_lt
  have hbits : x.neg.bits.toNat = (x.bits.toNat + 2 ^ 63) % 2 ^ 64 := toNat_xor_signBit x.bits
  have hmagnitude : x.neg.magnitude = x.magnitude := by
    rw [magnitude, magnitude, hbits]
    omega
  have hsign : x.neg.isNegative = !x.isNegative := by
    rw [isNegative, isNegative, hbits, ← decide_not, decide_eq_decide]
    omega
  refine ⟨⟨?_, ?_⟩, hsign⟩
  · rw [isFinite, hmagnitude]
    exact hx.1
  · have hvalue := hx.2
    rw [signedUnits, units] at hvalue ⊢
    rw [hsign, hmagnitude, Int.neg_mul, ← hvalue]
    cases x.isNegative <;> simp

section

variable (hi : i.natAbs < 2 ^ 53) (hj : j.natAbs < 2 ^ 53)

include hi in
theorem neg_ofInt (hzero : i ≠ 0) : (ofInt i).neg = ofInt (-i) := by
  obtain ⟨hmeans, hsign⟩ := neg_means (ofInt_means hi)
  refine eq_ofInt hmeans fun h => hzero ?_
  have hz := hmeans.isZero_iff.1 (h ▸ by decide)
  omega

include hi hj

theorem add_ofInt : (ofInt i).add (ofInt j) = ofInt (i + j) := by
  refine add_means (ofInt_means hi) (ofInt_means hj) fun h => ?_
  rw [isNegative_ofInt, isNegative_ofInt, ← Bool.decide_and]
  exact decide_eq_false (by omega)

theorem sub_ofInt : (ofInt i).sub (ofInt j) = ofInt (i - j) := by
  obtain ⟨hneg, hsign⟩ := neg_means (ofInt_means hj)
  rw [sub, (ofInt_means hj).finite.1, if_neg Bool.false_ne_true, Int.sub_eq_add_neg]
  refine add_means (ofInt_means hi) hneg fun h => ?_
  rw [hsign, isNegative_ofInt, isNegative_ofInt, ← decide_not, ← Bool.decide_and]
  exact decide_eq_false (by omega)

theorem mul_ofInt (hzero : i * j = 0 → 0 ≤ i ∧ 0 ≤ j) : (ofInt i).mul (ofInt j) = ofInt (i * j) := by
  have hx := ofInt_means hi
  have hy := ofInt_means hj
  have hunits : (ofInt i).units * (ofInt j).units = (i * j).natAbs * unitsPerOne * unitsPerOne := by
    rw [hx.units_eq, hy.units_eq, Int.natAbs_mul]
    ring
  have hround : roundUnits ((i * j).natAbs * unitsPerOne * unitsPerOne) unitsPerOne =
      roundUnits ((i * j).natAbs * unitsPerOne) 1 := by
    exact (congrArg (roundUnits _) (Nat.one_mul _).symm).trans (roundUnits_mul_right _ 1 unitsPerOne_pos)
  rw [mul, hx.finite.1, hy.finite.1, hx.finite.2, hy.finite.2, hunits, hround, isNegative_ofInt,
    isNegative_ofInt]
  refine ofMagnitude_units (fun h => ?_) fun h => ?_
  · obtain ⟨h1, h2⟩ := hzero h
    rw [decide_eq_false (by omega), decide_eq_false (by omega)]
    rfl
  · exact sign_mul h

theorem div_ofInt {q : Int} (hq : i = q * j) (hne : j ≠ 0) (hzero : i = 0 → 0 < j) :
    (ofInt i).div (ofInt j) = ofInt q := by
  have hx := ofInt_means hi
  have hy := ofInt_means hj
  have hpos : 0 < (ofInt j).units := by
    rw [hy.units_eq]
    exact Nat.mul_pos (Int.natAbs_pos.2 hne) unitsPerOne_pos
  have hround : roundUnits ((ofInt i).units * unitsPerOne) (ofInt j).units =
      roundUnits (q.natAbs * unitsPerOne) 1 := by
    have hnum : (ofInt i).units * unitsPerOne = q.natAbs * unitsPerOne * (ofInt j).units := by
      rw [hx.units_eq, hy.units_eq, hq, Int.natAbs_mul]
      ring
    rw [hnum]
    exact (congrArg (roundUnits _) (Nat.one_mul _).symm).trans (roundUnits_mul_right _ 1 hpos)
  have hyzero : (ofInt j).isZero = false := Bool.eq_false_iff.2 fun h => hne (hy.isZero_iff.1 h)
  rw [div, hx.finite.1, hy.finite.1, hx.finite.2, hy.finite.2, hyzero, hround, isNegative_ofInt,
    isNegative_ofInt]
  refine ofMagnitude_units (fun h => ?_) fun h => ?_
  · rw [h, Int.zero_mul] at hq
    rw [decide_eq_false (by omega), decide_eq_false (by have := hzero hq; omega)]
    rfl
  · have hsign := sign_mul (i := q) (j := j) (Int.mul_ne_zero h hne)
    rw [hq, ← hsign]
    cases decide (q < 0) <;> cases decide (j < 0) <;> rfl

theorem rem_ofInt (hi0 : 0 ≤ i) (hj0 : 0 < j) : (ofInt i).rem (ofInt j) = ofInt (i % j) := by
  have hx := ofInt_means hi
  have hy := ofInt_means hj
  have hyzero : (ofInt j).isZero = false := Bool.eq_false_iff.2 fun h => hj0.ne' (hy.isZero_iff.1 h)
  have hunits : (ofInt i).units % (ofInt j).units = (i % j).natAbs * unitsPerOne := by
    obtain ⟨a, rfl⟩ := Int.eq_ofNat_of_zero_le hi0
    obtain ⟨b, rfl⟩ := Int.eq_ofNat_of_zero_le hj0.le
    rw [hx.units_eq, hy.units_eq, Nat.mul_mod_mul_right]
    rfl
  rw [rem, hx.finite.1, hy.finite.1, hx.finite.2, hy.finite.2, hyzero, hunits, isNegative_ofInt]
  have hnonneg := Int.emod_nonneg i hj0.ne'
  exact ofMagnitude_units (fun _ => decide_eq_false (by omega)) fun _ => by
    rw [decide_eq_decide]
    omega

end

theorem Interval.Holds.le_upper {iv : Interval} {num den : Nat} (h : iv.Holds num den) :
    4 * num ≤ iv.upper * den := by
  unfold Interval.Holds at h
  split at h
  · exact h.2
  · exact h.2.le

/-! ## Order -/

theorem orderKey_lt_iff (hx : x.Means i) (hy : y.Means j) : x.orderKey < y.orderKey ↔ i < j := by
  have hU : (0 : Int) < unitsPerOne := Int.natCast_pos.2 unitsPerOne_pos
  have hunits : i < j ↔ x.signedUnits < y.signedUnits := by
    rw [hx.2, hy.2]
    exact (Int.mul_lt_mul_right hU).symm
  have hmono (m n : Nat) := unitsOfMagnitude_strictMono.lt_iff_lt (a := m) (b := n)
  have hzero : unitsOfMagnitude 0 = 0 := rfl
  have hxy := hmono x.magnitude y.magnitude
  have hyx := hmono y.magnitude x.magnitude
  have hx0 := hmono 0 x.magnitude
  have hy0 := hmono 0 y.magnitude
  rw [hzero] at hx0 hy0
  rw [hunits, orderKey, orderKey, signedUnits, signedUnits, units, units]
  split <;> split <;> omega

theorem lt_ofInt (hi : i.natAbs < 2 ^ 53) (hj : j.natAbs < 2 ^ 53) :
    (ofInt i).lt (ofInt j) = decide (i < j) := by
  have hx := ofInt_means hi
  have hy := ofInt_means hj
  simp only [lt, hx.finite.1, hy.finite.1, orderKey_lt_iff hx hy]
  rfl

theorem eq_ofInt_iff (hi : i.natAbs < 2 ^ 53) (hj : j.natAbs < 2 ^ 53) :
    (ofInt i).eq (ofInt j) = decide (i = j) := by
  have hx := ofInt_means hi
  have hy := ofInt_means hj
  have hlt := orderKey_lt_iff hx hy
  have hgt := orderKey_lt_iff hy hx
  simp only [eq, hx.finite.1, hy.finite.1]
  rw [Bool.eq_iff_iff]
  simp only [Bool.not_false, Bool.true_and, beq_iff_eq, decide_eq_true_eq]
  omega

end Double

namespace Value

open Double

theorem number_ofInt {i : Int} (h : i.natAbs < 2 ^ 53) : number (Double.ofInt i) =
    if -(2 ^ 31) ≤ i ∧ i < 2 ^ 31 then ofInt i else double (Double.ofInt i) := by
  have hsign : ¬ (i = 0 ∧ (Double.ofInt i).isNegative) := by
    rintro ⟨rfl, hneg⟩
    rw [isNegative_ofInt] at hneg
    cases hneg
  rw [number, toInt?_eq_some_iff.2 (ofInt_means h)]
  simp only [hsign, not_false_eq_true, and_true]

theorem number_ofInt_large {i : Int} (h : 2 ^ 33 ≤ i.natAbs) :
    number (Double.ofInt i) = double (Double.ofInt i) := by
  refine number_of_not_isSmall fun k hk => ?_
  have hlow := Int32.le_toInt k
  have hhigh := Int32.toInt_lt k
  have hlt : roundUnits (i * unitsPerOne).natAbs 1 < 2 ^ 63 :=
    (Nat.min_le_right _ _).trans_lt (by decide)
  have hmagnitude : (Double.ofInt i).magnitude = roundUnits (i.natAbs * unitsPerOne) 1 := by
    rw [Double.ofInt, ofSignedUnits, magnitude_ofMagnitude _ hlt, Int.natAbs_mul, Int.natAbs_natCast]
  have hbound := (holds_of_roundUnits (isFinite_iff.1 hk.1.1) Nat.one_pos hmagnitude.symm).le_upper
  obtain ⟨e, r, hnormal, hm⟩ := exists_normal (Double.ofInt i).magnitude
  have hunits : r * 2 ^ e = k.toInt.natAbs * unitsPerOne := by
    rw [← hk.1.units_eq, units, hm, unitsOfMagnitude_eq hnormal.bits.le hnormal.full]
  -- The upper end of the interval is at most half as far again from zero.
  have hhalf : 2 ^ e ≤ r * 2 ^ e + 1 := by
    rcases hnormal.full with rfl | hr
    · omega
    · have := Nat.mul_le_mul_right (2 ^ e) (show 1 ≤ r by omega)
      omega
  rw [hm, interval_eq hnormal] at hbound
  dsimp only at hbound
  rw [hunits] at hhalf hbound
  have hsmall : k.toInt.natAbs * unitsPerOne ≤ 2 ^ 31 * unitsPerOne :=
    Nat.mul_le_mul_right _ (by omega)
  have hlarge : 2 ^ 33 * unitsPerOne ≤ i.natAbs * unitsPerOne := Nat.mul_le_mul_right _ h
  have hU := unitsPerOne_pos
  generalize unitsPerOne = U at *
  generalize k.toInt.natAbs * U = a at *
  generalize i.natAbs * U = b at *
  omega

end Value

end RegisterJit
