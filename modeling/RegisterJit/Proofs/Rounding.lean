import Mathlib.Algebra.Order.Ring.Int
import Mathlib.Order.Monotone.Basic
import Mathlib.Tactic.Common
import Mathlib.Tactic.Positivity
import Mathlib.Tactic.Ring
import RegisterJit.Number.Shortest

/-!
# Rounding to doubles

A magnitude pattern is `e * 2 ^ 52 + r`, where the significand `r` has 53 bits unless `e` is zero, and it stands
for `r * 2 ^ e` units. A quotient of units is rounded to the pattern in whose interval it lies; so what a finite
double stands for is rounded to that double.

`interval` gives the rationals that are rounded to a pattern, closed for an even one and open for an odd one,
and `Interval.Holds` says that a quotient lies there. `exists_holds` and `holds_of_roundUnits` connect it with
the function that rounds: the result of rounding is the pattern that holds the quotient. `Means` is what it is
for a double to stand for an integer, with units as fractions of one. Conversions between texts and numbers
(`Decimals`, `Literals`, `DecimalLiterals`) and the boxing of numbers all round through these lemmas.
-/

namespace RegisterJit.Double

/-! ## Signs and magnitudes -/

section

variable {x y : Double}

theorem ext_bits (h : x.bits.toNat = y.bits.toNat) : x = y :=
  congrArg Double.mk (UInt64.toNat_inj.1 h)

theorem magnitude_lt (x : Double) : x.magnitude < 2 ^ 63 := Nat.mod_lt _ (Nat.two_pow_pos 63)

theorem toNat_bits_ofMagnitude (negative : Bool) {m : Nat} (hm : m < 2 ^ 63) :
    (ofMagnitude negative m).bits.toNat = if negative then 2 ^ 63 + m else m := by
  simp only [ofMagnitude, Nat.toUInt64_eq, UInt64.toNat_ofNat']
  refine Nat.mod_eq_of_lt ?_
  split <;> omega

theorem magnitude_ofMagnitude (negative : Bool) {m : Nat} (hm : m < 2 ^ 63) :
    (ofMagnitude negative m).magnitude = m := by
  rw [magnitude, toNat_bits_ofMagnitude negative hm]
  cases negative <;> simp <;> omega

theorem isNegative_ofMagnitude (negative : Bool) {m : Nat} (hm : m < 2 ^ 63) :
    (ofMagnitude negative m).isNegative = negative := by
  rw [isNegative, toNat_bits_ofMagnitude negative hm]
  cases negative
  · simpa using hm
  · simp

theorem ofMagnitude_magnitude (x : Double) : ofMagnitude x.isNegative x.magnitude = x := by
  have hlt := x.bits.toNat_lt
  refine ext_bits ?_
  rw [toNat_bits_ofMagnitude _ x.magnitude_lt, isNegative, magnitude]
  simp only [decide_eq_true_eq]
  split <;> omega

theorem eq_of_sign_of_magnitude (hs : x.isNegative = y.isNegative) (hm : x.magnitude = y.magnitude) :
    x = y := by
  rw [← ofMagnitude_magnitude x, ← ofMagnitude_magnitude y, hs, hm]

theorem eq_iff :
    x.eq y = true ↔ x.isNaN = false ∧ (x = y ∨ x.isZero = true ∧ y.isZero = true) := by
  have hx := x.bits.toNat_lt
  have hy := y.bits.toNat_lt
  simp only [eq, Bool.and_eq_true, Bool.not_eq_true', beq_iff_eq]
  constructor
  · rintro ⟨⟨hnan, -⟩, hkey⟩
    refine ⟨hnan, ?_⟩
    by_cases hbits : x.bits.toNat = y.bits.toNat
    · exact .inl (ext_bits hbits)
    · have hzero : x.magnitude = 0 ∧ y.magnitude = 0 := by
        simp only [orderKey, isNegative, magnitude, decide_eq_true_eq] at hkey ⊢
        split at hkey <;> split at hkey <;> omega
      exact .inr ⟨decide_eq_true hzero.1, decide_eq_true hzero.2⟩
  · rintro ⟨hnan, rfl | ⟨hx0, hy0⟩⟩
    · exact ⟨⟨hnan, hnan⟩, rfl⟩
    · simp only [isZero, decide_eq_true_eq] at hx0 hy0
      simp [isNaN, orderKey, hx0, hy0]

end

/-! ## Patterns -/

/-- A significand and the exponent of its unit: the significand has 53 bits unless the exponent is zero. -/
structure Normal (e r : Nat) : Prop where
  bits : r < 2 ^ 53
  full : e = 0 ∨ 2 ^ 52 ≤ r

theorem exists_normal (m : Nat) : ∃ e r, Normal e r ∧ m = e * 2 ^ 52 + r := by
  by_cases h : m < 2 ^ 53
  · exact ⟨0, m, ⟨h, .inl rfl⟩, by omega⟩
  · exact ⟨m / 2 ^ 52 - 1, 2 ^ 52 + m % 2 ^ 52, ⟨by omega, .inr (by omega)⟩, by omega⟩

/-- The units of a pattern, also of one whose significand was rounded up to the next power of two. -/
theorem unitsOfMagnitude_eq {e r : Nat} (hr : r ≤ 2 ^ 53) (hfull : e = 0 ∨ 2 ^ 52 ≤ r) :
    unitsOfMagnitude (e * 2 ^ 52 + r) = r * 2 ^ e := by
  unfold unitsOfMagnitude
  dsimp only
  rcases Nat.lt_or_ge r (2 ^ 52) with hlow | hlow
  · obtain rfl : e = 0 := by omega
    rw [if_pos (by omega)]
    omega
  rcases Nat.lt_or_ge r (2 ^ 53) with hlt | hge
  · rw [show (e * 2 ^ 52 + r) / 2 ^ 52 = e + 1 by omega,
      show (e * 2 ^ 52 + r) % 2 ^ 52 = r - 2 ^ 52 by omega, if_neg (by omega), Nat.add_sub_cancel,
      Nat.add_sub_cancel' hlow]
  · obtain rfl : r = 2 ^ 53 := by omega
    rw [show (e * 2 ^ 52 + 2 ^ 53) / 2 ^ 52 = e + 2 by omega,
      show (e * 2 ^ 52 + 2 ^ 53) % 2 ^ 52 = 0 by omega, if_neg (by omega),
      show e + 2 - 1 = e + 1 by omega, Nat.pow_succ]
    ring

theorem unitsOfMagnitude_strictMono : StrictMono unitsOfMagnitude := by
  refine strictMono_nat_of_lt_succ fun m => ?_
  obtain ⟨e, r, hnormal, rfl⟩ := exists_normal m
  have hbits := hnormal.bits
  rw [unitsOfMagnitude_eq hbits.le hnormal.full, Nat.add_assoc,
    unitsOfMagnitude_eq hbits (hnormal.full.imp_right (Nat.le_succ_of_le ·))]
  exact Nat.mul_lt_mul_of_pos_right (Nat.lt_succ_self r) (Nat.two_pow_pos e)

/-! ## The nearest natural -/

/-- A quotient is rounded to the natural from which it differs by no more than a half, and by less if the
natural is odd. -/
theorem divRoundEven_eq {num den r : Nat} (hden : 0 < den) (hlow : 2 * (r * den) ≤ 2 * num + den)
    (hhigh : 2 * num ≤ 2 * (r * den) + den)
    (hodd : r % 2 = 1 → 2 * (r * den) < 2 * num + den ∧ 2 * num < 2 * (r * den) + den) :
    divRoundEven num den = r := by
  have hdiv := Nat.div_add_mod num den
  have hmod := Nat.mod_lt num hden
  have hupper : num / den ≤ r := by
    refine Nat.le_of_lt_succ ((Nat.div_lt_iff_lt_mul hden).2 ?_)
    rw [Nat.succ_mul]
    omega
  have hlower : r ≤ num / den + 1 := by
    refine Nat.sub_le_iff_le_add.1 ((Nat.le_div_iff_mul_le hden).2 ?_)
    rw [Nat.sub_mul]
    omega
  unfold divRoundEven
  dsimp only
  generalize num / den = q at *
  generalize num % den = s at *
  rcases Nat.lt_or_ge q r with hlt | hge
  · obtain rfl : r = q + 1 := by omega
    have hproduct : (q + 1) * den = den * q + den := by ring
    rw [hproduct] at hlow hhigh hodd
    split_ifs <;> omega
  · obtain rfl : r = q := by omega
    rw [Nat.mul_comm r den] at hlow hhigh hodd
    split_ifs <;> omega

/-! ## Rounding to a pattern -/

/-- A quotient lies in an interval, the ends of which belong to it if it is closed. -/
def Interval.Holds (iv : Interval) (num den : Nat) : Prop :=
  if iv.closed then iv.lower * den ≤ 4 * num ∧ 4 * num ≤ iv.upper * den
  else iv.lower * den < 4 * num ∧ 4 * num < iv.upper * den

theorem interval_eq {e r : Nat} (h : Normal e r) :
    interval (e * 2 ^ 52 + r) =
      { lower := 4 * (r * 2 ^ e) - if r = 2 ^ 52 ∧ 0 < e then 2 ^ e else 2 * 2 ^ e
        value := 4 * (r * 2 ^ e)
        upper := 4 * (r * 2 ^ e) + 2 * 2 ^ e
        closed := r % 2 == 0 } := by
  have hexp : 2 ^ ((e * 2 ^ 52 + r) / 2 ^ 52 - 1) = 2 ^ e := by
    refine congrArg (2 ^ ·) ?_
    have := h.bits
    rcases h.full with rfl | hfull <;> omega
  have hstart : ((e * 2 ^ 52 + r) % 2 ^ 52 = 0 ∧ 1 < (e * 2 ^ 52 + r) / 2 ^ 52) ↔
      r = 2 ^ 52 ∧ 0 < e := by
    have := h.bits
    rcases h.full with rfl | hfull <;> omega
  have hparity : (e * 2 ^ 52 + r) % 2 = r % 2 := by omega
  unfold interval
  dsimp only
  rw [unitsOfMagnitude_eq h.bits.le h.full, hexp, hparity]
  simp only [hstart]

theorem log2_sub_of_bounds {q e : Nat} (hlow : e = 0 ∨ 2 ^ 52 * 2 ^ e ≤ q)
    (hhigh : q < 2 ^ 53 * 2 ^ e) : q.log2 - 52 = e := by
  rcases Nat.eq_zero_or_pos q with rfl | hpos
  · simp only [Nat.log2_zero]
    have := Nat.two_pow_pos e
    rcases hlow with rfl | hlow <;> omega
  · rw [← Nat.pow_add] at hhigh hlow
    have hlt : q.log2 < 53 + e := (Nat.log2_lt (by omega)).2 hhigh
    rcases hlow with rfl | hlow
    · omega
    · have := (Nat.le_log2 (by omega)).2 hlow
      omega

theorem bounds_of_log2 (q : Nat) :
    (q.log2 - 52 = 0 ∨ 2 ^ 52 * 2 ^ (q.log2 - 52) ≤ q) ∧ q < 2 ^ 53 * 2 ^ (q.log2 - 52) := by
  rw [← Nat.pow_add, ← Nat.pow_add]
  constructor
  · rcases Nat.lt_or_ge 52 q.log2 with h | h
    · rw [Nat.add_sub_cancel' h.le]
      refine .inr (Nat.log2_self_le ?_)
      rintro rfl
      exact absurd h (by decide)
    · exact .inl (by omega)
  · exact Nat.lt_of_lt_of_le Nat.lt_log2_self (Nat.pow_le_pow_right (by decide) (by omega))

theorem roundUnits_eq {num den e r : Nat} (hden : 0 < den)
    (hlow : e = 0 ∨ 2 ^ 52 * 2 ^ e * den ≤ num) (hhigh : num < 2 ^ 53 * 2 ^ e * den)
    (hround : divRoundEven num (den * 2 ^ e) = r) :
    roundUnits num den = min (e * 2 ^ 52 + r) infinityMagnitude := by
  have hlog : (num / den).log2 - 52 = e :=
    log2_sub_of_bounds (hlow.imp_right (Nat.le_div_iff_mul_le hden).2)
      ((Nat.div_lt_iff_lt_mul hden).2 hhigh)
  unfold roundUnits
  dsimp only
  rw [hlog, hround]

/-- What is no further than half a unit from a significand is rounded to it. -/
theorem roundUnits_of_near {num den e r : Nat} (hnormal : Normal e r)
    (hm : e * 2 ^ 52 + r < infinityMagnitude) (hden : 0 < den)
    (hlow : 2 * (r * (den * 2 ^ e)) ≤ 2 * num + den * 2 ^ e)
    (hhigh : 2 * num ≤ 2 * (r * (den * 2 ^ e)) + den * 2 ^ e)
    (hodd : r % 2 = 1 → 2 * (r * (den * 2 ^ e)) < 2 * num + den * 2 ^ e ∧
      2 * num < 2 * (r * (den * 2 ^ e)) + den * 2 ^ e)
    (hfull : e = 0 ∨ 2 ^ 52 * (den * 2 ^ e) ≤ num) : roundUnits num den = e * 2 ^ 52 + r := by
  have hbits := hnormal.bits
  have hD : 0 < den * 2 ^ e := Nat.mul_pos hden (Nat.two_pow_pos e)
  have hunit (a : Nat) : a * 2 ^ e * den = a * (den * 2 ^ e) := by ring
  have hupper : r * (den * 2 ^ e) ≤ (2 ^ 53 - 1) * (den * 2 ^ e) :=
    Nat.mul_le_mul_right _ (by omega)
  rw [roundUnits_eq hden ?_ ?_ (divRoundEven_eq hD hlow hhigh hodd), Nat.min_eq_left hm.le]
  · rwa [hunit]
  · rw [hunit]
    omega

/-- Just below a power of two the unit is half as large. -/
theorem roundUnits_of_below {num den k : Nat} (hm : (k + 1) * 2 ^ 52 + 2 ^ 52 < infinityMagnitude)
    (hden : 0 < den) (hlow : 2 * (2 ^ 53 * (den * 2 ^ k)) ≤ 2 * num + den * 2 ^ k)
    (hhigh : num < 2 ^ 53 * (den * 2 ^ k)) :
    roundUnits num den = (k + 1) * 2 ^ 52 + 2 ^ 52 := by
  have hD : 0 < den * 2 ^ k := Nat.mul_pos hden (Nat.two_pow_pos k)
  have hunit (a : Nat) : a * 2 ^ k * den = a * (den * 2 ^ k) := by ring
  have hround : divRoundEven num (den * 2 ^ k) = 2 ^ 53 :=
    divRoundEven_eq hD hlow (by omega) (by omega)
  rw [roundUnits_eq hden (.inr ?_) ?_ hround, Nat.min_eq_left]
  · omega
  · omega
  · rw [hunit]
    omega
  · rwa [hunit]

theorem roundUnits_of_holds {num den m : Nat} (hm : m < infinityMagnitude) (hden : 0 < den)
    (h : (interval m).Holds num den) : roundUnits num den = m := by
  obtain ⟨e, r, hnormal, rfl⟩ := exists_normal m
  have hbits := hnormal.bits
  have hD : 0 < den * 2 ^ e := Nat.mul_pos hden (Nat.two_pow_pos e)
  have hvalue : 4 * (r * 2 ^ e) * den = 4 * (r * (den * 2 ^ e)) := by ring
  have hstep : 2 * 2 ^ e * den = 2 * (den * 2 ^ e) := by ring
  have hclosed : (r % 2 == 0) = true ↔ r % 2 = 0 := beq_iff_eq
  rw [interval_eq hnormal, Interval.Holds] at h
  dsimp only at h
  rw [Nat.sub_mul, Nat.add_mul, hvalue, hstep] at h
  by_cases hstart : r = 2 ^ 52 ∧ 0 < e
  · rw [if_pos (hclosed.2 (by omega)), if_pos hstart, Nat.mul_comm (2 ^ e) den] at h
    by_cases hfull : 2 ^ 52 * (den * 2 ^ e) ≤ num
    · obtain ⟨rfl, -⟩ := hstart
      exact roundUnits_of_near hnormal hm hden (by omega) (by omega) (by omega) (.inr hfull)
    · obtain ⟨rfl, he⟩ := hstart
      obtain ⟨k, rfl⟩ : ∃ k, e = k + 1 := ⟨e - 1, by omega⟩
      rw [show den * 2 ^ (k + 1) = 2 * (den * 2 ^ k) by ring] at h hfull
      exact roundUnits_of_below hm hden (by omega) (by omega)
  · rw [if_neg hstart, hstep] at h
    have hfull : e = 0 ∨ 2 ^ 52 * (den * 2 ^ e) ≤ num := by
      refine (Nat.eq_zero_or_pos e).imp_right fun he => ?_
      have hr : 2 ^ 52 + 1 ≤ r := by
        rcases hnormal.full with h0 | h52 <;> omega
      have hlower : (2 ^ 52 + 1) * (den * 2 ^ e) ≤ r * (den * 2 ^ e) := Nat.mul_le_mul_right _ hr
      split at h <;> omega
    split at h
    · rename_i hc
      have heven := hclosed.1 hc
      exact roundUnits_of_near hnormal hm hden (by omega) (by omega) (by omega) hfull
    · exact roundUnits_of_near hnormal hm hden (by omega) (by omega) (by omega) hfull

/-- The nearest natural differs by no more than a half, and by less if it is odd. -/
theorem divRoundEven_bounds (num : Nat) {den : Nat} (hden : 0 < den) :
    2 * (divRoundEven num den * den) ≤ 2 * num + den ∧
      2 * num ≤ 2 * (divRoundEven num den * den) + den ∧
      (divRoundEven num den % 2 = 1 → 2 * (divRoundEven num den * den) < 2 * num + den ∧
        2 * num < 2 * (divRoundEven num den * den) + den) := by
  have hdiv := Nat.div_add_mod num den
  have hmod := Nat.mod_lt num hden
  have hup : (num / den + 1) * den = den * (num / den) + den := by ring
  have hdown : num / den * den = den * (num / den) := Nat.mul_comm ..
  unfold divRoundEven
  dsimp only
  split_ifs <;> simp only [hup, hdown] <;> omega

/-- A quotient lies in the interval of some pattern, which may be beyond infinity. It is rounded to that
pattern or to infinity. -/
theorem exists_holds (num : Nat) {den : Nat} (hden : 0 < den) :
    ∃ m, roundUnits num den = min m infinityMagnitude ∧ (interval m).Holds num den := by
  refine ⟨_, rfl, ?_⟩
  obtain ⟨hfull, hsmall⟩ := bounds_of_log2 (num / den)
  rw [Nat.le_div_iff_mul_le hden] at hfull
  rw [Nat.div_lt_iff_lt_mul hden] at hsmall
  generalize (num / den).log2 - 52 = e at hfull hsmall
  have hD : 0 < den * 2 ^ e := Nat.mul_pos hden (Nat.two_pow_pos e)
  have hunit (a : Nat) : a * 2 ^ e * den = a * (den * 2 ^ e) := by ring
  have hvalue (a : Nat) : 4 * (a * 2 ^ e) * den = 4 * (a * (den * 2 ^ e)) := by ring
  have hstep : 2 * 2 ^ e * den = 2 * (den * 2 ^ e) := by ring
  rw [hunit] at hfull hsmall
  obtain ⟨hlow, hhigh, hodd⟩ := divRoundEven_bounds num hD
  generalize divRoundEven num (den * 2 ^ e) = r at hlow hhigh hodd
  have hr : r ≤ 2 ^ 53 := by
    by_contra hlarge
    have := Nat.mul_le_mul_right (den * 2 ^ e) (show 2 ^ 53 + 1 ≤ r by omega)
    omega
  have hr' : e = 0 ∨ 2 ^ 52 ≤ r := by
    refine hfull.imp_right fun hnum => ?_
    by_contra hless
    have := Nat.mul_le_mul_right (den * 2 ^ e) (show r ≤ 2 ^ 52 - 1 by omega)
    omega
  rcases Nat.lt_or_eq_of_le hr with hlt | rfl
  · rw [interval_eq ⟨hlt, hr'⟩, Interval.Holds]
    dsimp only
    rw [Nat.sub_mul, Nat.add_mul, hvalue, hstep]
    have hlower : 4 * (r * (den * 2 ^ e)) -
        (if r = 2 ^ 52 ∧ 0 < e then 2 ^ e else 2 * 2 ^ e) * den ≤ 4 * num ∧
        (r % 2 = 1 → 4 * (r * (den * 2 ^ e)) -
          (if r = 2 ^ 52 ∧ 0 < e then 2 ^ e else 2 * 2 ^ e) * den < 4 * num) := by
      split
      · rename_i hstart
        obtain ⟨rfl, he⟩ := hstart
        rw [Nat.mul_comm (2 ^ e) den]
        have := hfull.resolve_left he.ne'
        exact ⟨by omega, by omega⟩
      · rw [hstep]
        refine ⟨by omega, fun hr1 => ?_⟩
        have hone : 1 * (den * 2 ^ e) ≤ r * (den * 2 ^ e) := Nat.mul_le_mul_right _ (by omega)
        have := hodd hr1
        omega
    have hparity : (r % 2 == 0) = true ↔ r % 2 = 0 := beq_iff_eq
    split
    · exact ⟨hlower.1, by omega⟩
    · rename_i hopen
      have hr1 := Nat.mod_two_ne_zero.1 (mt hparity.2 hopen)
      have := hodd hr1
      exact ⟨hlower.2 hr1, by omega⟩
  · -- the significand was rounded up to the next power of two, whose lower neighbour is nearer
    rw [show e * 2 ^ 52 + 2 ^ 53 = (e + 1) * 2 ^ 52 + 2 ^ 52 by omega,
      interval_eq ⟨by decide, .inr le_rfl⟩, Interval.Holds]
    dsimp only
    rw [if_pos (by decide : (2 ^ 52 % 2 == 0) = true)]
    rw [if_pos ⟨rfl, by omega⟩, Nat.sub_mul, Nat.add_mul,
      show 4 * (2 ^ 52 * 2 ^ (e + 1)) * den = 4 * (2 ^ 53 * (den * 2 ^ e)) by ring,
      show 2 * 2 ^ (e + 1) * den = 4 * (den * 2 ^ e) by ring,
      show 2 ^ (e + 1) * den = 2 * (den * 2 ^ e) by ring]
    exact ⟨by omega, by omega⟩

/-- A quotient lies in the interval of the finite pattern to which it is rounded. -/
theorem holds_of_roundUnits {num den m : Nat} (hm : m < infinityMagnitude) (hden : 0 < den)
    (h : roundUnits num den = m) : (interval m).Holds num den := by
  obtain ⟨n, hround, hn⟩ := exists_holds num hden
  obtain rfl : n = m := by omega
  exact hn

theorem roundUnits_units {m : Nat} (hm : m < infinityMagnitude) {den : Nat} (hden : 0 < den) :
    roundUnits (unitsOfMagnitude m * den) den = m := by
  obtain ⟨e, r, hnormal, rfl⟩ := exists_normal m
  have hD : 0 < den * 2 ^ e := Nat.mul_pos hden (Nat.two_pow_pos e)
  rw [unitsOfMagnitude_eq hnormal.bits.le hnormal.full,
    show r * 2 ^ e * den = r * (den * 2 ^ e) by ring]
  refine roundUnits_of_near hnormal hm hden (by omega) (by omega) (by omega) ?_
  exact hnormal.full.imp_right fun hr => Nat.mul_le_mul_right _ hr

theorem unitsOfMagnitude_inj {m n : Nat} (hm : m < infinityMagnitude) (hn : n < infinityMagnitude)
    (h : unitsOfMagnitude m = unitsOfMagnitude n) : m = n := by
  have hround := roundUnits_units hm Nat.one_pos
  rw [h, roundUnits_units hn Nat.one_pos] at hround
  exact hround.symm

/-! ## Integers -/

theorem exists_pattern_of_nat {n : Nat} (h : n < 2 ^ 53) :
    ∃ m < infinityMagnitude, unitsOfMagnitude m = n * unitsPerOne := by
  rcases Nat.eq_zero_or_pos n with rfl | hpos
  · exact ⟨0, by decide, by simp [unitsOfMagnitude]⟩
  · have hlog : n.log2 ≤ 52 := Nat.le_of_lt_succ ((Nat.log2_lt (by omega)).2 h)
    have hlow := Nat.log2_self_le (n := n) (by omega)
    have hhigh := Nat.lt_log2_self (n := n)
    have hshift : 2 ^ n.log2 * 2 ^ (52 - n.log2) = 2 ^ 52 := by
      rw [← Nat.pow_add, Nat.add_sub_cancel' hlog]
    have hshift' : 2 ^ (n.log2 + 1) * 2 ^ (52 - n.log2) = 2 ^ 53 := by
      rw [← Nat.pow_add, show n.log2 + 1 + (52 - n.log2) = 53 by omega]
    have hr : 2 ^ 52 ≤ n * 2 ^ (52 - n.log2) := hshift ▸ Nat.mul_le_mul_right _ hlow
    have hr' : n * 2 ^ (52 - n.log2) < 2 ^ 53 :=
      hshift' ▸ Nat.mul_lt_mul_of_pos_right hhigh (Nat.two_pow_pos _)
    refine ⟨(1022 + n.log2) * 2 ^ 52 + n * 2 ^ (52 - n.log2), ?_, ?_⟩
    · rw [infinityMagnitude]
      omega
    · rw [unitsOfMagnitude_eq hr'.le (.inr hr), Nat.mul_assoc, ← Nat.pow_add, unitsPerOne,
        show 52 - n.log2 + (1022 + n.log2) = 1074 by omega]

/-- A finite double stands for an integer. -/
def Means (x : Double) (i : Int) : Prop := x.isFinite = true ∧ x.signedUnits = i * unitsPerOne

theorem unitsPerOne_pos : 0 < unitsPerOne := by
  rw [unitsPerOne]
  exact Nat.two_pow_pos _

theorem isFinite_iff {x : Double} : x.isFinite = true ↔ x.magnitude < infinityMagnitude :=
  decide_eq_true_iff

theorem Means.units_eq {x : Double} {i : Int} (h : x.Means i) : x.units = i.natAbs * unitsPerOne := by
  have habs := congrArg Int.natAbs h.2
  rw [Int.natAbs_mul, Int.natAbs_natCast] at habs
  rw [← habs, signedUnits]
  split <;> simp

theorem ofInt_eq {i : Int} {m : Nat} (hm : m < infinityMagnitude)
    (h : unitsOfMagnitude m = i.natAbs * unitsPerOne) : ofInt i = ofMagnitude (decide (i < 0)) m := by
  have hround : roundUnits (i * unitsPerOne).natAbs 1 = m := by
    rw [Int.natAbs_mul, Int.natAbs_natCast, ← h, ← Nat.mul_one (unitsOfMagnitude m)]
    exact roundUnits_units hm Nat.one_pos
  have hU : (0 : Int) < unitsPerOne := Int.natCast_pos.2 unitsPerOne_pos
  rw [ofInt, ofSignedUnits, hround]
  refine congrArg (ofMagnitude · m) ?_
  rcases lt_trichotomy i 0 with hi | rfl | hi
  · rw [if_neg (Int.mul_ne_zero hi.ne hU.ne')]
    exact decide_eq_decide.2 (iff_of_true (Int.mul_neg_of_neg_of_pos hi hU) hi)
  · rw [if_pos (Int.zero_mul _)]
    rfl
  · rw [if_neg (Int.mul_ne_zero hi.ne' hU.ne')]
    exact decide_eq_decide.2 (iff_of_false (Int.mul_pos hi hU).not_gt hi.not_gt)

theorem ofInt_means {i : Int} (h : i.natAbs < 2 ^ 53) : (ofInt i).Means i := by
  obtain ⟨m, hm, hunits⟩ := exists_pattern_of_nat h
  have hm63 : m < 2 ^ 63 := hm.trans (by decide)
  rw [Means, isFinite_iff, signedUnits, units, ofInt_eq hm hunits, isNegative_ofMagnitude _ hm63,
    magnitude_ofMagnitude _ hm63, hunits]
  refine ⟨hm, ?_⟩
  push_cast
  simp only [decide_eq_true_eq]
  split
  · rw [abs_of_neg ‹_›, Int.neg_mul, Int.neg_neg]
  · rw [abs_of_nonneg (Int.not_lt.1 ‹_›)]

theorem eq_ofInt {x : Double} {i : Int} (hx : x.Means i) (hzero : x ≠ signedZero true) :
    x = ofInt i := by
  have hm := isFinite_iff.1 hx.1
  have hU : (0 : Int) < unitsPerOne := Int.natCast_pos.2 unitsPerOne_pos
  rw [ofInt_eq hm hx.units_eq]
  conv_lhs => rw [← ofMagnitude_magnitude x]
  congr 1
  have hsigned := hx.2
  rw [signedUnits] at hsigned
  by_cases hneg : x.isNegative = true
  · rw [if_pos hneg] at hsigned
    rw [hneg, eq_comm, decide_eq_true_iff]
    have hle : i * unitsPerOne ≤ 0 := by omega
    refine lt_of_le_of_ne (nonpos_of_mul_nonpos_left hle hU) fun hi => hzero ?_
    have hunits : unitsOfMagnitude x.magnitude = unitsOfMagnitude 0 := by
      rw [show unitsOfMagnitude x.magnitude = x.units from rfl, hx.units_eq, hi]
      simp [unitsOfMagnitude]
    rw [← ofMagnitude_magnitude x, hneg, unitsOfMagnitude_inj hm (by decide) hunits]
    rfl
  · rw [if_neg hneg] at hsigned
    rw [Bool.eq_false_iff.2 hneg, eq_comm, decide_eq_false_iff_not, not_lt]
    have hle : 0 ≤ i * unitsPerOne := by omega
    exact nonneg_of_mul_nonneg_left hle hU

theorem toInt?_eq_some_iff {x : Double} {i : Int} : x.toInt? = some i ↔ x.Means i := by
  have hU : (0 : Int) < unitsPerOne := Int.natCast_pos.2 unitsPerOne_pos
  have hU' : unitsPerOne ≠ 0 := unitsPerOne_pos.ne'
  constructor
  · intro h
    rw [toInt?] at h
    split at h
    · rename_i hwhole
      obtain ⟨hfinite, hmod⟩ := (Bool.and_eq_true ..).mp hwhole
      have hdvd : x.units / unitsPerOne * unitsPerOne = x.units :=
        Nat.div_mul_cancel (Nat.dvd_of_mod_eq_zero (eq_of_beq hmod))
      refine ⟨hfinite, ?_⟩
      rw [← Option.some.inj h, truncInt, signedUnits]
      split
      · rw [Int.neg_mul, ← Nat.cast_mul, hdvd]
      · rw [← Nat.cast_mul, hdvd]
    · cases h
  · intro h
    have hunits := h.units_eq
    have hsigned := h.2
    have hdiv : x.units / unitsPerOne = i.natAbs := by
      rw [hunits, Nat.mul_div_cancel _ unitsPerOne_pos]
    rw [toInt?, if_pos (by rw [h.1, hunits, Nat.mul_mod_left]; rfl), truncInt, hdiv]
    congr 1
    rw [signedUnits] at hsigned
    refine Int.eq_of_mul_eq_mul_right hU.ne' ?_
    rw [← hsigned, hunits]
    split <;> push_cast <;> ring

end RegisterJit.Double
