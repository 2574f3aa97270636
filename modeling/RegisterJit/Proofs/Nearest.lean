import RegisterJit.Proofs.Decimals

/-!
# Nearest doubles

Rounding gives the pattern whose value is nearest to a rational, the even one if two are equally near. Infinity
counts as the power of two that follows the largest finite double.

`IsNearest` is the definition that rounding is measured by: no finite pattern is nearer to the rational, and of
two that are equally near the even one is taken. The proof computes the interval of a pattern from its
neighbours (`interval_lower`, `interval_upper`), shows that a rational lies in the interval of what it is
rounded to, which is `nearest_of_has`, and that a pattern is determined by being nearest. `NumericStrings`
states with it what the text of a number denotes, and `Indices` uses it for shortest digits.
-/

namespace RegisterJit.Double

/-! ## Neighbours -/

/-- An interval ends halfway to the next pattern, -/
theorem interval_upper (m : Nat) :
    (interval m).upper = 2 * (unitsOfMagnitude m + unitsOfMagnitude (m + 1)) := by
  obtain ⟨e, r, hnormal, rfl⟩ := exists_normal m
  have hbits := hnormal.bits
  rw [interval_eq hnormal, Nat.add_assoc, unitsOfMagnitude_eq hbits.le hnormal.full,
    unitsOfMagnitude_eq (by omega) (hnormal.full.imp_right (by omega))]
  dsimp only
  ring

/-- and starts halfway from the pattern before. -/
theorem interval_lower (m : Nat) :
    (interval (m + 1)).lower = 2 * (unitsOfMagnitude m + unitsOfMagnitude (m + 1)) := by
  obtain ⟨e, r, hnormal, hm⟩ := exists_normal (m + 1)
  have hbits := hnormal.bits
  rw [hm, interval_eq hnormal, unitsOfMagnitude_eq hbits.le hnormal.full]
  dsimp only
  split
  · next hstart =>
    obtain ⟨rfl, he⟩ := hstart
    obtain ⟨k, rfl⟩ : ∃ k, e = k + 1 := ⟨e - 1, by omega⟩
    obtain rfl : m = k * 2 ^ 52 + (2 ^ 53 - 1) := by omega
    rw [unitsOfMagnitude_eq (by decide) (.inr (by decide)), Nat.pow_succ]
    omega
  · next hstart =>
    obtain ⟨q, rfl⟩ : ∃ q, r = q + 1 := ⟨r - 1, by rcases hnormal.full with h | h <;> omega⟩
    obtain rfl : m = e * 2 ^ 52 + q := by omega
    have hfull := hnormal.full
    have hnext : (q + 1) * 2 ^ e = q * 2 ^ e + 2 ^ e := Nat.succ_mul q (2 ^ e)
    rw [unitsOfMagnitude_eq (by omega) (by omega)]
    generalize 2 ^ e = unit at *
    omega

/-! ## Nearness -/

section

variable {m n : Nat} {q : ℚ}

theorem Interval.Has.bounds {iv : Interval} (h : iv.Has q) :
    iv.lower ≤ q ∧ q ≤ iv.upper ∧ (iv.closed = false → iv.lower < q ∧ q < iv.upper) := by
  unfold Interval.Has at h
  cases hc : iv.closed with
  | true =>
    rw [hc, if_pos rfl] at h
    exact ⟨h.1, h.2, nofun⟩
  | false =>
    rw [hc, if_neg Bool.false_ne_true] at h
    exact ⟨h.1.le, h.2.le, fun _ => h⟩

theorem abs_sub_le_of_mid {a b : ℚ} (hab : a ≤ b) (hmid : a + b ≤ 2 * q) : |q - b| ≤ |q - a| := by
  refine (abs_le.2 ⟨?_, ?_⟩).trans (le_abs_self _) <;> linarith

theorem abs_sub_lt_of_mid {a b : ℚ} (hab : a < b) (hmid : a + b < 2 * q) : |q - b| < |q - a| := by
  refine (abs_lt.2 ⟨?_, ?_⟩).trans_le (le_abs_self _) <;> linarith

theorem abs_sub_le_of_before {a b : ℚ} (hab : a ≤ b) (hmid : 2 * q ≤ a + b) : |q - a| ≤ |q - b| := by
  rw [abs_sub_comm q b]
  refine (abs_le.2 ⟨?_, ?_⟩).trans (le_abs_self _) <;> linarith

theorem abs_sub_lt_of_before {a b : ℚ} (hab : a < b) (hmid : 2 * q < a + b) : |q - a| < |q - b| := by
  rw [abs_sub_comm q b]
  refine (abs_lt.2 ⟨?_, ?_⟩).trans_le (le_abs_self _) <;> linarith

/-- What a pattern is worth; infinity as the power of two after the largest finite double. -/
def patternValue (m : Nat) : ℚ := unitsOfMagnitude m / unitsPerOne

/-- A pattern is nearest to a rational among all patterns up to infinity, and even if another one is as
near. -/
structure IsNearest (m : Nat) (q : ℚ) : Prop where
  le : m ≤ infinityMagnitude
  nearest : ∀ n ≤ infinityMagnitude, |q - patternValue m| ≤ |q - patternValue n|
  even : ∀ n ≤ infinityMagnitude, n ≠ m → |q - patternValue m| = |q - patternValue n| → m % 2 = 0

theorem patternValue_lt : patternValue m < patternValue n ↔ m < n := by
  have hU : (0 : ℚ) < unitsPerOne := by exact_mod_cast unitsPerOne_pos
  rw [patternValue, patternValue, div_lt_div_iff_of_pos_right hU, Nat.cast_lt,
    unitsOfMagnitude_strictMono.lt_iff_lt]

theorem patternValue_le : patternValue m ≤ patternValue n ↔ m ≤ n := by
  rw [← not_lt, patternValue_lt, not_lt]

/-- What an interval has lies between the middles to the patterns around it, and off them if the pattern is
odd. -/
theorem mid_of_has (h : (interval m).Has (q * (4 * unitsPerOne))) :
    (∀ k, m = k + 1 → patternValue k + patternValue m ≤ 2 * q ∧
      (m % 2 = 1 → patternValue k + patternValue m < 2 * q)) ∧
    2 * q ≤ patternValue m + patternValue (m + 1) ∧
      (m % 2 = 1 → 2 * q < patternValue m + patternValue (m + 1)) := by
  have hU : (0 : ℚ) < unitsPerOne := by exact_mod_cast unitsPerOne_pos
  have hunits (n : Nat) : (unitsOfMagnitude n : ℚ) = patternValue n * unitsPerOne := by
    rw [patternValue, div_mul_cancel₀ _ hU.ne']
  have hmid (i j : Nat) : ((2 * (unitsOfMagnitude i + unitsOfMagnitude j) : Nat) : ℚ) =
      (patternValue i + patternValue j) * (2 * unitsPerOne) := by
    push_cast
    rw [hunits, hunits]
    ring
  have hquarters : q * (4 * unitsPerOne) = 2 * q * (2 * unitsPerOne) := by ring
  have h2U : (0 : ℚ) < 2 * unitsPerOne := by linarith
  obtain ⟨hlow, hhigh, hopen⟩ := h.bounds
  have hclosed (hodd : m % 2 = 1) : (interval m).closed = false := by
    rw [interval]
    simp [hodd]
  rw [interval_upper, hmid, hquarters] at hhigh hopen
  refine ⟨fun k hk => ?_, le_of_mul_le_mul_right hhigh h2U, fun hodd =>
    lt_of_mul_lt_mul_right (hopen (hclosed hodd)).2 h2U.le⟩
  subst hk
  rw [interval_lower, hmid, hquarters] at hlow
  rw [interval_lower, hmid] at hopen
  exact ⟨le_of_mul_le_mul_right hlow h2U, fun hodd =>
    lt_of_mul_lt_mul_right (hopen (hclosed hodd)).1 h2U.le⟩

/-- The pattern in whose interval a rational lies is nearest to it. -/
theorem nearest_of_has (h : (interval m).Has (q * (4 * unitsPerOne))) (n : Nat) :
    |q - patternValue m| ≤ |q - patternValue n| ∧
      (n ≠ m → |q - patternValue m| = |q - patternValue n| → m % 2 = 0) := by
  obtain ⟨hlow, hhigh, hopen⟩ := mid_of_has h
  rcases Nat.lt_trichotomy n m with hlt | rfl | hgt
  · obtain ⟨k, rfl⟩ : ∃ k, m = k + 1 := ⟨m - 1, by omega⟩
    obtain ⟨hmid, hodd⟩ := hlow k rfl
    have hle : patternValue n ≤ patternValue k := patternValue_le.2 (by omega)
    have hlt' := patternValue_lt.2 hlt
    refine ⟨abs_sub_le_of_mid hlt'.le (by linarith), fun _ heq => ?_⟩
    by_contra hne
    have := hodd (by omega)
    exact (abs_sub_lt_of_mid hlt' (by linarith)).ne heq
  · exact ⟨le_rfl, fun hne => absurd rfl hne⟩
  · have hle : patternValue (m + 1) ≤ patternValue n := patternValue_le.2 hgt
    have hlt' := patternValue_lt.2 hgt
    refine ⟨abs_sub_le_of_before hlt'.le (by linarith), fun _ heq => ?_⟩
    by_contra hne
    have := hopen (by omega)
    exact (abs_sub_lt_of_before hlt' (by linarith)).ne heq

theorem IsNearest.unique (hm : IsNearest m q) (hn : IsNearest n q) : m = n := by
  by_contra hne
  have heq := le_antisymm (hm.nearest n hn.le) (hn.nearest m hm.le)
  have heven := hm.even n hn.le (Ne.symm hne) heq
  have heven' := hn.even m hm.le hne heq.symm
  -- Both are even, so an odd pattern stands between them, and it is nearer.
  wlog hlt : m < n generalizing m n
  · exact this hn hm (Ne.symm hne) heq.symm heven' heven (by omega)
  · have hbetween := hm.nearest (m + 1) (by have := hn.le; omega)
    have hlow := patternValue_lt.2 (show m < m + 1 by omega)
    have hhigh := patternValue_lt.2 (show m + 1 < n by omega)
    rcases abs_eq_abs.1 heq with h | h
    · linarith
    · rcases abs_cases (q - patternValue m) with ⟨h1, h2⟩ | ⟨h1, h2⟩ <;>
        rcases abs_cases (q - patternValue (m + 1)) with ⟨h3, h4⟩ | ⟨h3, h4⟩ <;> linarith

end

/-! ## Rounding is to the nearest -/

theorem roundUnits_isNearest (num : Nat) {den : Nat} (hden : 0 < den) :
    IsNearest (roundUnits num den) (num / (den * unitsPerOne)) := by
  obtain ⟨m, hround, hholds⟩ := exists_holds num hden
  have hU : (0 : ℚ) < unitsPerOne := by exact_mod_cast unitsPerOne_pos
  have hd : (0 : ℚ) < den := by exact_mod_cast hden
  have hscale : (4 * num / den : ℚ) = num / (den * unitsPerOne) * (4 * unitsPerOne) := by
    field_simp
  have hhas := (Interval.holds_iff hden).1 hholds
  rw [hscale] at hhas
  rw [hround]
  rcases Nat.lt_or_ge infinityMagnitude m with hlarge | hle
  · rw [Nat.min_eq_right hlarge.le]
    obtain ⟨k, rfl⟩ : ∃ k, m = k + 1 := ⟨m - 1, by omega⟩
    have hmid := ((mid_of_has hhas).1 k rfl).1
    have hk := patternValue_le.2 (show infinityMagnitude ≤ k by omega)
    have hk' := patternValue_lt.2 hlarge
    have hbeyond (n : Nat) (hn : n ≤ infinityMagnitude) :=
      patternValue_le.2 hn
    refine ⟨le_rfl, fun n hn => abs_sub_le_of_mid (hbeyond n hn) (by have := hbeyond n hn; linarith),
      fun n hn hne heq => absurd heq (abs_sub_lt_of_mid (patternValue_lt.2 (by omega)) ?_).ne⟩
    have := hbeyond n hn
    linarith
  · rw [Nat.min_eq_left hle]
    exact ⟨hle, fun n _ => (nearest_of_has hhas n).1, fun n _ => (nearest_of_has hhas n).2⟩

theorem ofDecimal_isNearest (n : Nat) (e : Int) : IsNearest (ofDecimal n e) (n * 10 ^ e) := by
  have hU : (0 : ℚ) < unitsPerOne := by exact_mod_cast unitsPerOne_pos
  unfold ofDecimal
  split
  · next he =>
    have h := roundUnits_isNearest (n * 10 ^ e.toNat * unitsPerOne) Nat.one_pos
    have hvalue : ((n * 10 ^ e.toNat * unitsPerOne : Nat) : ℚ) / ((1 : Nat) * unitsPerOne) =
        n * 10 ^ e := by
      rw [ten_zpow_of_nonneg he]
      push_cast
      field_simp
    rwa [hvalue] at h
  · next he =>
    have hpow : 0 < 10 ^ (-e).toNat := Nat.pow_pos (by decide)
    have h := roundUnits_isNearest (n * unitsPerOne) hpow
    have hvalue : ((n * unitsPerOne : Nat) : ℚ) / ((10 ^ (-e).toNat : Nat) * unitsPerOne) =
        n * 10 ^ e := by
      rw [ten_zpow_of_neg he]
      push_cast
      field_simp
    rwa [hvalue] at h

theorem ofInt_isNearest (n : Nat) : ∃ m, IsNearest m n ∧ ofInt n = ofMagnitude false m := by
  have hU : (0 : ℚ) < unitsPerOne := by exact_mod_cast unitsPerOne_pos
  have h := roundUnits_isNearest (n * unitsPerOne) Nat.one_pos
  have hvalue : ((n * unitsPerOne : Nat) : ℚ) / ((1 : Nat) * unitsPerOne) = n := by
    push_cast
    field_simp
  rw [hvalue] at h
  refine ⟨_, h, ?_⟩
  have hsign : (if ((n : Int) * unitsPerOne) = 0 then false else decide ((n : Int) * unitsPerOne < 0)) =
      false := by
    split
    · rfl
    · exact decide_eq_false (Int.not_lt.2 (Int.mul_nonneg (Int.natCast_nonneg n) (Int.natCast_nonneg _)))
  rw [ofInt, ofSignedUnits, hsign, Int.natAbs_mul, Int.natAbs_natCast, Int.natAbs_natCast]

end RegisterJit.Double
