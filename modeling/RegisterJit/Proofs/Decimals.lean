import Mathlib.Algebra.Order.Field.Power
import Mathlib.Algebra.Order.Field.Rat
import Mathlib.Algebra.Order.Ring.Rat
import Mathlib.Tactic.FieldSimp
import Mathlib.Tactic.Linarith
import Mathlib.Tactic.NormNum
import RegisterJit.Proofs.Digits
import RegisterJit.Proofs.Rounding

/-!
# Shortest decimals

A decimal is rounded to a finite double if, and only if, it lies in the interval of the double. The grids of
one digit, two digits and so on are searched for a point of the interval; on the grid of seventeen digits one
of the two neighbours of the double lies in it, and a decimal in the interval that had fewer digits than the
first hit would have been a hit before.

`Has` says that a decimal lies in the interval of a pattern, in quarters of a unit so that the middle between
two patterns is whole. `ofDecimal_eq_iff` is the fact about rounding, `digitsOn?_of_has` that a grid is searched
completely, `digitsOn?_seventeen` that the last grid has a hit, and `searchDigits_spec` that the first hit
counts. `shortestDigits_spec` collects what is known of the digits: they stand for the double, there are no
fewer that do, and the last of them is not zero. `Nearest` adds that they are as close as possible, and
`NumberLayouts` that their layout is read back.
-/

namespace RegisterJit.Double

/-! ## Decimals as rationals -/

theorem ten_zpow_pos (e : Int) : (0 : ℚ) < 10 ^ e := zpow_pos (by norm_num) e

theorem ten_zpow_of_nonneg {e : Int} (h : 0 ≤ e) : (10 : ℚ) ^ e = ((10 ^ e.toNat : Nat) : ℚ) := by
  obtain ⟨k, rfl⟩ := Int.eq_ofNat_of_zero_le h
  simp

theorem ten_zpow_of_neg {e : Int} (h : ¬ 0 ≤ e) : (10 : ℚ) ^ e = 1 / ((10 ^ (-e).toNat : Nat) : ℚ) := by
  obtain ⟨k, hk⟩ := Int.eq_ofNat_of_zero_le (show 0 ≤ -e by omega)
  obtain rfl : e = -(k : Int) := by omega
  simp

def quarters (n : Nat) (exponent : Int) : ℚ := n * 10 ^ exponent * (4 * unitsPerOne)

theorem four_units_pos : (0 : ℚ) < 4 * unitsPerOne := by
  have : (0 : ℚ) < unitsPerOne := by exact_mod_cast unitsPerOne_pos
  linarith

theorem quarters_pos {n : Nat} (h : 0 < n) (e : Int) : 0 < quarters n e := by
  have hn : (0 : ℚ) < n := by exact_mod_cast h
  exact mul_pos (mul_pos hn (ten_zpow_pos e)) four_units_pos

theorem quarters_mono {a b : Nat} (h : a ≤ b) (e : Int) : quarters a e ≤ quarters b e := by
  have hab : (a : ℚ) ≤ b := by exact_mod_cast h
  exact mul_le_mul_of_nonneg_right (mul_le_mul_of_nonneg_right hab (ten_zpow_pos e).le)
    four_units_pos.le

theorem quarters_lt {a b : Nat} (h : a < b) (e : Int) : quarters a e < quarters b e := by
  have hab : (a : ℚ) < b := by exact_mod_cast h
  exact mul_lt_mul_of_pos_right (mul_lt_mul_of_pos_right hab (ten_zpow_pos e)) four_units_pos

theorem lt_of_quarters_lt {a b : Nat} {e : Int} (h : quarters a e < quarters b e) : a < b :=
  Nat.lt_of_not_le fun hle => h.not_ge (quarters_mono hle e)

theorem quarters_shift (n z : Nat) (e : Int) : quarters (n * 10 ^ z) e = quarters n (e + z) := by
  rw [quarters, quarters, zpow_add₀ (by norm_num), zpow_natCast]
  push_cast
  ring

/-! ## Intervals of rationals -/

namespace Interval

/-- A number of quarters lies in an interval. -/
def Has (iv : Interval) (q : ℚ) : Prop :=
  if iv.closed then iv.lower ≤ q ∧ q ≤ iv.upper else iv.lower < q ∧ q < iv.upper

variable {iv : Interval}

theorem Has.between {p q r : ℚ} (hp : iv.Has p) (hr : iv.Has r) (hpq : p ≤ q) (hqr : q ≤ r) :
    iv.Has q := by
  unfold Has at hp hr ⊢
  split
  · rw [if_pos ‹_›] at hp hr
    exact ⟨hp.1.trans hpq, hqr.trans hr.2⟩
  · rw [if_neg ‹_›] at hp hr
    exact ⟨hp.1.trans_le hpq, hqr.trans_lt hr.2⟩

theorem has_of_lt {q : ℚ} (hlow : iv.lower < q) (hhigh : q < iv.upper) : iv.Has q := by
  unfold Has
  split
  · exact ⟨hlow.le, hhigh.le⟩
  · exact ⟨hlow, hhigh⟩

theorem holds_iff {num den : Nat} (hden : 0 < den) :
    iv.Holds num den ↔ iv.Has (4 * num / den) := by
  have hd : (0 : ℚ) < den := by exact_mod_cast hden
  unfold Holds Has
  split
  · rw [le_div_iff₀ hd, div_le_iff₀ hd]
    exact_mod_cast Iff.rfl
  · rw [lt_div_iff₀ hd, div_lt_iff₀ hd]
    exact_mod_cast Iff.rfl

theorem contains_iff {n : Nat} {e : Int} : iv.contains n e = true ↔ iv.Has (quarters n e) := by
  unfold contains Has quarters
  by_cases he : 0 ≤ e
  · rw [if_pos he, ten_zpow_of_nonneg he]
    simp only [Bool.ite_eq_true_distrib, Bool.and_eq_true, decide_eq_true_eq, Nat.mul_one]
    split <;> exact_mod_cast Iff.rfl
  · have hd : (0 : ℚ) < ((10 ^ (-e).toNat : Nat) : ℚ) := by positivity
    rw [if_neg he, ten_zpow_of_neg he, mul_one_div, div_mul_eq_mul_div]
    simp only [Bool.ite_eq_true_distrib, Bool.and_eq_true, decide_eq_true_eq]
    rw [le_div_iff₀ hd, div_le_iff₀ hd, lt_div_iff₀ hd, div_lt_iff₀ hd]
    split <;> exact_mod_cast Iff.rfl

end Interval

/-- A decimal is rounded to a finite pattern if it lies in the interval of the pattern. -/
theorem ofDecimal_eq_iff {m : Nat} (hm : m < infinityMagnitude) {n : Nat} {e : Int} :
    ofDecimal n e = m ↔ (interval m).Has (quarters n e) := by
  have hround {num den : Nat} (hden : 0 < den) :
      roundUnits num den = m ↔ (interval m).Has (4 * num / den) :=
    ⟨fun h => (Interval.holds_iff hden).1 (holds_of_roundUnits hm hden h),
      fun h => roundUnits_of_holds hm hden ((Interval.holds_iff hden).2 h)⟩
  unfold ofDecimal quarters
  by_cases he : 0 ≤ e
  · rw [if_pos he, hround Nat.one_pos, ten_zpow_of_nonneg he]
    push_cast
    rw [div_one, show (4 : ℚ) * (n * 10 ^ e.toNat * unitsPerOne) =
      n * 10 ^ e.toNat * (4 * unitsPerOne) by ring]
  · rw [if_neg he, hround (by positivity), ten_zpow_of_neg he]
    push_cast
    rw [show (4 : ℚ) * (n * unitsPerOne) / 10 ^ (-e).toNat =
      n * (1 / 10 ^ (-e).toNat) * (4 * unitsPerOne) by ring]

/-! ## The place of the point -/

theorem quarters_one_sub (a b : Nat) : quarters 1 (a - b) = (10 ^ a * (4 * unitsPerOne) : Nat) / (10 ^ b : Nat) := by
  rw [quarters, zpow_sub₀ (by norm_num), zpow_natCast, zpow_natCast]
  push_cast
  ring

theorem quarters_one_sub_le_iff {a b x : Nat} :
    quarters 1 (a - b) ≤ x ↔ 10 ^ a * (4 * unitsPerOne) ≤ x * 10 ^ b := by
  rw [quarters_one_sub, div_le_iff₀ (by exact_mod_cast Nat.pow_pos (by decide))]
  exact_mod_cast Iff.rfl

theorem lt_quarters_one_sub_iff {a b x : Nat} :
    x < quarters 1 (a - b) ↔ x * 10 ^ b < 10 ^ a * (4 * unitsPerOne) := by
  rw [quarters_one_sub, lt_div_iff₀ (by exact_mod_cast Nat.pow_pos (by decide))]
  exact_mod_cast Iff.rfl

section

variable {num den fuel : Nat} {p : Int} (hden : den = 4 * unitsPerOne)
include hden

theorem lt_quarters_iff :
    (if 0 ≤ p then num < den * 10 ^ p.toNat else num * 10 ^ (-p).toNat < den) ↔
      (num : ℚ) < quarters 1 p := by
  rw [quarters, Nat.cast_one, one_mul, show (4 * unitsPerOne : ℚ) = den by rw [hden]; push_cast; rfl]
  split
  · rw [ten_zpow_of_nonneg ‹_›, mul_comm]
    exact_mod_cast Iff.rfl
  · have hd : (0 : ℚ) < ((10 ^ (-p).toNat : Nat) : ℚ) := by positivity
    rw [ten_zpow_of_neg ‹_›, div_mul_eq_mul_div, one_mul, lt_div_iff₀ hd]
    exact_mod_cast Iff.rfl

theorem pointFrom_spec (hlow : quarters 1 (p - 1) ≤ num) (hhigh : num < quarters 1 (p + fuel)) :
    quarters 1 (pointFrom num den fuel p - 1) ≤ num ∧ num < quarters 1 (pointFrom num den fuel p) ∧
      p ≤ pointFrom num den fuel p ∧ pointFrom num den fuel p ≤ p + fuel := by
  induction fuel generalizing p with
  | zero =>
    rw [pointFrom]
    exact ⟨hlow, by simpa using hhigh, le_rfl, by simp⟩
  | succ fuel ih =>
    by_cases hbelow : (num : ℚ) < quarters 1 p
    · rw [pointFrom, if_pos ((lt_quarters_iff hden).2 hbelow)]
      exact ⟨hlow, hbelow, le_rfl, by omega⟩
    · have hnext : quarters 1 (p + 1 - 1) ≤ num := by
        rw [Int.add_sub_cancel]
        exact not_lt.1 hbelow
      obtain ⟨h1, h2, h3, h4⟩ := ih (p := p + 1) hnext
        (by rwa [show p + 1 + (fuel : Int) = p + (fuel + 1 : Nat) by omega])
      rw [pointFrom, if_neg (mt (lt_quarters_iff hden).1 hbelow)]
      exact ⟨h1, h2, by omega, by omega⟩

end

/-- The estimate from the binary exponent is below the decimal exponent, by less than five. -/
theorem estimate_bounds : ∀ l < 2098,
    10 ^ ((l * 30103 + 69378) / 100000) * unitsPerOne ≤ 2 ^ l * 10 ^ 326 ∧
      2 ^ (l + 1) * 10 ^ 321 ≤ 10 ^ ((l * 30103 + 69378) / 100000) * unitsPerOne := by
  -- Short ranges are decided faster than one long one.
  have hall : ∀ k < 42, ∀ i < 50,
      10 ^ (((50 * k + i) * 30103 + 69378) / 100000) * unitsPerOne ≤ 2 ^ (50 * k + i) * 10 ^ 326 ∧
        2 ^ (50 * k + i + 1) * 10 ^ 321 ≤
          10 ^ (((50 * k + i) * 30103 + 69378) / 100000) * unitsPerOne := by
    decide +kernel
  intro l hl
  have h := hall (l / 50) (Nat.div_lt_of_lt_mul (by omega)) (l % 50) (Nat.mod_lt _ (by decide))
  rwa [Nat.div_add_mod] at h

theorem fdiv_estimate (l : Nat) :
    Int.fdiv (((l : Int) - 1074) * 30103) 100000 - 1 = ((l * 30103 + 69378) / 100000 : Nat) - 325 := by
  rw [Int.fdiv_eq_ediv_of_nonneg _ (by decide)]
  omega

theorem estimate_spec {u : Nat} (hpos : 0 < u) (hlog : u.log2 < 2098) :
    quarters 1 (Int.fdiv (((u.log2 : Int) - 1074) * 30103) 100000 - 1 - 1) ≤ (4 * u : Nat) ∧
      ((4 * u : Nat) : ℚ) < quarters 1 (Int.fdiv (((u.log2 : Int) - 1074) * 30103) 100000 - 1 + (4 : Nat)) := by
  have hself := Nat.log2_self_le hpos.ne'
  have hnext := Nat.lt_log2_self (n := u)
  have hbounds := estimate_bounds u.log2 hlog
  rw [fdiv_estimate]
  generalize (u.log2 * 30103 + 69378) / 100000 = Q at hbounds
  rw [show (Q : Int) - 325 - 1 = Q - (326 : Nat) by omega, show (Q : Int) - 325 + (4 : Nat) = Q - (321 : Nat) by omega,
    quarters_one_sub_le_iff, lt_quarters_one_sub_iff]
  obtain ⟨hlow, hhigh⟩ := hbounds
  constructor
  · rw [Nat.mul_left_comm, Nat.mul_assoc]
    exact Nat.mul_le_mul_left 4 (hlow.trans (Nat.mul_le_mul_right _ hself))
  · rw [Nat.mul_left_comm, Nat.mul_assoc]
    have hT : 0 < 10 ^ 321 := by positivity
    exact Nat.mul_lt_mul_of_pos_left ((Nat.mul_lt_mul_of_pos_right hnext hT).trans_le hhigh) (by decide)

/-! ## Neighbours on a grid -/

theorem quarters_eq (n : Nat) (e : Int) : quarters n e = n * quarters 1 e := by
  rw [quarters, quarters, Nat.cast_one, one_mul, mul_assoc]

/-- A number of quarters and the step of a grid, both scaled to be whole. -/
theorem exists_scale (v : Nat) (e : Int) {num den : Nat}
    (h : (if 0 ≤ e then (v, 4 * unitsPerOne * 10 ^ e.toNat)
      else (v * 10 ^ (-e).toNat, 4 * unitsPerOne)) = (num, den)) :
    ∃ scale : ℚ, 0 < scale ∧ (num : ℚ) = v * scale ∧ (den : ℚ) = quarters 1 e * scale := by
  unfold quarters
  generalize unitsPerOne = units at h ⊢
  split at h
  · cases h
    refine ⟨1, one_pos, (mul_one _).symm, ?_⟩
    rw [ten_zpow_of_nonneg ‹_›]
    push_cast
    ring
  · cases h
    refine ⟨((10 ^ (-e).toNat : Nat) : ℚ), by positivity, by push_cast; rfl, ?_⟩
    rw [ten_zpow_of_neg ‹_›]
    push_cast
    field_simp

/-- The neighbours of a number on a grid: they lie on both sides of it, and if there is a hit, it is one of
them. -/
theorem digitsOn?_cases (iv : Interval) (point : Int) (count : Nat) :
    ∃ lo, quarters lo (point - count) ≤ iv.value ∧ iv.value < quarters (lo + 1) (point - count) ∧
      ((digitsOn? iv point count = none ∧ ¬ iv.Has (quarters lo (point - count)) ∧
          ¬ iv.Has (quarters (lo + 1) (point - count))) ∨
        ∃ n, digitsOn? iv point count = some (n, point - count) ∧ (n = lo ∨ n = lo + 1) ∧
          iv.Has (quarters n (point - count))) := by
  unfold digitsOn?
  dsimp only
  generalize point - (count : Int) = e
  obtain ⟨⟨num, den⟩, hpair⟩ : ∃ pair, (if 0 ≤ e then (iv.value, 4 * unitsPerOne * 10 ^ e.toNat)
      else (iv.value * 10 ^ (-e).toNat, 4 * unitsPerOne)) = pair := ⟨_, rfl⟩
  obtain ⟨scale, hscale, hnum, hden⟩ := exists_scale iv.value e hpair
  rw [hpair]
  dsimp only
  have hstep : 0 < quarters 1 e := quarters_pos Nat.one_pos e
  have hpos : 0 < den := by
    have : (0 : ℚ) < den := hden ▸ mul_pos hstep hscale
    exact_mod_cast this
  have hround : divRoundEven num den = num / den ∨ divRoundEven num den = num / den + 1 := by
    unfold divRoundEven
    dsimp only
    split_ifs <;> simp
  have hlow : ((num / den : Nat) : ℚ) * den ≤ num := by exact_mod_cast Nat.div_mul_le_self num den
  have hhigh : (num : ℚ) < ((num / den + 1 : Nat) : ℚ) * den := by
    exact_mod_cast Nat.lt_mul_of_div_lt (Nat.lt_succ_self _) hpos
  refine ⟨num / den, ?_, ?_, ?_⟩
  · rw [hnum, hden, ← mul_assoc] at hlow
    rw [quarters_eq]
    exact le_of_mul_le_mul_right hlow hscale
  · rw [hnum, hden, ← mul_assoc] at hhigh
    rw [quarters_eq]
    exact lt_of_mul_lt_mul_right hhigh hscale.le
  · split
    · rename_i hhit
      exact .inr ⟨_, rfl, hround, Interval.contains_iff.1 hhit⟩
    split
    · rename_i hhit
      exact .inr ⟨_, rfl, .inl rfl, Interval.contains_iff.1 hhit.2⟩
    split
    · rename_i hhit
      exact .inr ⟨_, rfl, .inr rfl, Interval.contains_iff.1 hhit⟩
    · rename_i hmiss hmiss' hmiss''
      rw [Interval.contains_iff] at hmiss hmiss' hmiss''
      refine .inl ⟨rfl, fun hlo => ?_, hmiss''⟩
      exact hmiss' ⟨fun heq => hmiss (heq ▸ hlo), hlo⟩

/-! ## The grid of seventeen digits -/

variable {m : Nat}

theorem exists_quarters (hpos : 0 < m) :
    ∃ step : Nat, 0 < step ∧ 0 < (interval m).lower ∧ (interval m).value < 2 ^ 55 * step ∧
      (interval m).upper = (interval m).value + 2 * step ∧
      ((interval m).value = (interval m).lower + 2 * step ∨
        (interval m).value = (interval m).lower + step ∧ (interval m).value = 2 ^ 54 * step) := by
  obtain ⟨e, r, hnormal, rfl⟩ := exists_normal m
  have hbits := hnormal.bits
  have hstep := Nat.two_pow_pos e
  have hr : 0 < r := by
    rcases hnormal.full with rfl | hfull <;> omega
  have hone : 1 * 2 ^ e ≤ r * 2 ^ e := Nat.mul_le_mul_right _ hr
  have hlt : r * 2 ^ e < 2 ^ 53 * 2 ^ e := Nat.mul_lt_mul_of_pos_right hbits hstep
  rw [interval_eq hnormal]
  refine ⟨2 ^ e, hstep, ?_, ?_, rfl, ?_⟩ <;> dsimp only
  · split <;> omega
  · omega
  · split
    · rename_i hstart
      rw [hstart.1]
      exact .inr ⟨by omega, by omega⟩
    · exact .inl (by omega)

/-- What differs from the number by no more than half a step of the grid of seventeen digits lies in the
interval. -/
theorem has_of_near (hpos : 0 < m) {q step : ℚ} (hstep : step * 10 ^ 16 ≤ (interval m).value)
    (hlow : (interval m).value ≤ q + step / 2) (hhigh : q ≤ (interval m).value + step / 2) :
    (interval m).Has q := by
  obtain ⟨P, hP, -, hvalue, hupper, hlower⟩ := exists_quarters hpos
  have hP' : (0 : ℚ) < P := by exact_mod_cast hP
  have hvalue' : ((interval m).value : ℚ) < 2 ^ 55 * P := by exact_mod_cast hvalue
  have hupper' : ((interval m).upper : ℚ) = (interval m).value + 2 * P := by exact_mod_cast hupper
  refine Interval.has_of_lt ?_ ?_
  · rcases hlower with hlower | ⟨hlower, hstart⟩
    · have hlower' : ((interval m).value : ℚ) = (interval m).lower + 2 * P := by exact_mod_cast hlower
      linarith
    · have hlower' : ((interval m).value : ℚ) = (interval m).lower + P := by exact_mod_cast hlower
      have hstart' : ((interval m).value : ℚ) = 2 ^ 54 * P := by exact_mod_cast hstart
      linarith
  · linarith

theorem pos_of_has (hpos : 0 < m) {n : Nat} {e : Int} (h : (interval m).Has (quarters n e)) : 0 < n := by
  obtain ⟨-, -, hlower, -⟩ := exists_quarters hpos
  have hlower' : (0 : ℚ) < (interval m).lower := by exact_mod_cast hlower
  refine Nat.pos_of_ne_zero ?_
  rintro rfl
  rw [quarters_eq, Nat.cast_zero, zero_mul, Interval.Has] at h
  split at h <;> linarith

theorem has_value (hpos : 0 < m) : (interval m).Has (interval m).value := by
  refine has_of_near hpos (show (0 : ℚ) * 10 ^ 16 ≤ _ by simp) ?_ ?_ <;> simp

theorem digitsOn?_seventeen (hpos : 0 < m) {point : Int}
    (hpoint : quarters 1 (point - 1) ≤ (interval m).value) :
    digitsOn? (interval m) point 17 ≠ none := by
  intro hnone
  obtain ⟨lo, hlow, hhigh, hcase⟩ := digitsOn?_cases (interval m) point 17
  generalize he : point - ((17 : Nat) : Int) = e at hlow hhigh hcase
  have hstep : quarters 1 e * 10 ^ 16 ≤ (interval m).value := by
    refine le_of_eq_of_le ?_ hpoint
    rw [show point - 1 = e + (16 : Nat) by omega, ← quarters_shift, quarters_eq (1 * 10 ^ 16), mul_comm]
    norm_num
  have hpos' := quarters_pos Nat.one_pos e
  have hnext : quarters (lo + 1) e = quarters lo e + quarters 1 e := by
    rw [quarters_eq, quarters_eq lo]
    push_cast
    ring
  rcases hcase with ⟨-, hmiss, hmiss'⟩ | ⟨n, hsome, -⟩
  · rcases le_total ((interval m).value : ℚ) (quarters lo e + quarters 1 e / 2) with hnear | hfar
    · exact hmiss (has_of_near hpos hstep hnear (by linarith))
    · exact hmiss' (has_of_near hpos hstep (by linarith) (by linarith))
  · rw [hnone] at hsome
    cases hsome

/-! ## The search -/

theorem searchDigits_spec {iv : Interval} {point : Int} {fuel count last : Nat} (hcount : count ≤ last)
    (hfuel : last < count + fuel) (hlast : digitsOn? iv point last ≠ none) :
    ∃ first, count ≤ first ∧ first ≤ last ∧
      digitsOn? iv point first = some (searchDigits iv point fuel count) ∧
      ∀ c, count ≤ c → c < first → digitsOn? iv point c = none := by
  induction fuel generalizing count with
  | zero => omega
  | succ fuel ih =>
    rw [searchDigits]
    cases hhit : digitsOn? iv point count with
    | some hit => exact ⟨count, le_rfl, hcount, hhit, fun c h h' => absurd h' h.not_gt⟩
    | none =>
      have hlt : count < last := lt_of_le_of_ne hcount fun heq => hlast (heq ▸ hhit)
      obtain ⟨first, hle, hle', hfirst, hmiss⟩ := ih hlt (by omega)
      refine ⟨first, by omega, hle', hfirst, fun c h h' => ?_⟩
      rcases Nat.eq_or_lt_of_le h with rfl | hgt
      · exact hhit
      · exact hmiss c hgt h'

/-- A decimal in the interval that has fewer than so many digits is a hit on the grid of so many digits. -/
theorem digitsOn?_of_has (hpos : 0 < m) {point : Int} (hlow : quarters 1 (point - 1) ≤ (interval m).value)
    {n k : Nat} {e : Int} (hn : n < 10 ^ k) (hk : 0 < k)
    (h : (interval m).Has (quarters n e)) : digitsOn? (interval m) point k ≠ none := by
  intro hnone
  obtain ⟨lo, hlo, hhi, ⟨-, hmiss, hmiss'⟩ | ⟨n, hsome, -⟩⟩ := digitsOn?_cases (interval m) point k
  · have hvalue := has_value hpos
    -- neither side has room for the decimal: its grid is at least as coarse, or it is too small
    rcases le_or_gt (point - (k : Int)) e with hcoarse | hfine
    · obtain ⟨z, rfl⟩ : ∃ z : Nat, e = point - k + z := ⟨(e - (point - k)).toNat, by omega⟩
      rw [← quarters_shift] at h
      rcases Nat.lt_or_ge lo (n * 10 ^ z) with hgt | hle
      · exact hmiss' (hvalue.between h hhi.le (quarters_mono hgt _))
      · exact hmiss (h.between hvalue (quarters_mono hle _) hlo)
    · have hsmall : quarters n e ≤ quarters (10 ^ (k - 1)) (point - k) := by
        rw [← Nat.one_mul (10 ^ (k - 1)), quarters_shift]
        refine (quarters_lt hn e).le.trans ?_
        rw [← Nat.one_mul (10 ^ k), quarters_shift, quarters, quarters]
        refine mul_le_mul_of_nonneg_right (mul_le_mul_of_nonneg_left ?_ (by simp)) four_units_pos.le
        exact zpow_le_zpow_right₀ (by norm_num) (by omega)
      have hlarge : 10 ^ (k - 1) ≤ lo := by
        by_contra hless
        have hnext := quarters_mono (show lo + 1 ≤ 10 ^ (k - 1) by omega) (point - k)
        rw [← Nat.one_mul (10 ^ (k - 1)), quarters_shift,
          show point - (k : Int) + (k - 1 : Nat) = point - 1 by omega] at hnext
        exact absurd (hhi.trans_le (hnext.trans hlow)) (lt_irrefl _)
      exact hmiss (h.between hvalue (hsmall.trans (quarters_mono hlarge _)) hlo)
  · rw [hnone] at hsome
    cases hsome

/-! ## Shortest digits -/

/-- Digits stand for a pattern: they are decimal digits, the first is not zero, their decimal is rounded to the
pattern, and every decimal that is has as many digits or more. -/
structure Shortest (m : Nat) (d : Digits) : Prop where
  digit : ∀ a ∈ d.digits, a < 10
  first : ∃ a rest, d.digits = a :: rest ∧ a ≠ 0
  reads : ofDecimal (numberOf d.digits) (d.point - d.digits.length) = m
  fewest : ∀ n e k, ofDecimal n e = m → n < 10 ^ k → d.digits.length ≤ k
  bounded : d.point.natAbs < 1000

theorem log2_unitsOfMagnitude_lt (hfinite : m < infinityMagnitude) (hpos : 0 < m) :
    (unitsOfMagnitude m).log2 < 2098 := by
  obtain ⟨e, r, hnormal, rfl⟩ := exists_normal m
  have hbits := hnormal.bits
  have hfull := hnormal.full
  have hr : 0 < r := by omega
  rw [infinityMagnitude] at hfinite
  rw [unitsOfMagnitude_eq hbits.le hfull]
  have hlt : r * 2 ^ e < 2 ^ (53 + e) := by
    rw [Nat.pow_add]
    exact Nat.mul_lt_mul_of_pos_right hbits (Nat.two_pow_pos e)
  have := (Nat.log2_lt (Nat.mul_pos hr (Nat.two_pow_pos e)).ne').2 hlt
  omega

theorem stripped_spec {n : Nat} (hn : 0 < n) (e : Int) :
    (∃ a rest, stripped (decimalDigits n) = a :: rest ∧ a ≠ 0) ∧
      quarters (numberOf (stripped (decimalDigits n)))
        (e + (decimalDigits n).length - (stripped (decimalDigits n)).length) = quarters n e := by
  obtain ⟨z, hz⟩ := exists_stripped (decimalDigits n)
  obtain ⟨a, rest, hcons, ha⟩ := exists_decimalDigits_cons hn
  constructor
  · cases hs : stripped (decimalDigits n) with
    | nil =>
      rw [hs, List.nil_append, hcons] at hz
      exact absurd (List.eq_of_mem_replicate (hz ▸ List.mem_cons_self)) ha
    | cons b rest' =>
      rw [hs, hcons, List.cons_append, List.cons.injEq] at hz
      exact ⟨b, rest', rfl, hz.1 ▸ ha⟩
  · have hlength := congrArg List.length hz
    have hnumber := congrArg numberOf hz
    rw [List.length_append, List.length_replicate] at hlength
    rw [numberOf_decimalDigits, numberOf_append, numberOf_zeros, List.length_replicate, Nat.add_zero]
      at hnumber
    rw [show e + ((decimalDigits n).length : Int) - (stripped (decimalDigits n)).length = e + z by omega,
      ← quarters_shift, ← hnumber]

/-- The digits of a positive finite double stand for it. -/
theorem shortestDigits_spec {x : Double} (hpos : 0 < x.magnitude) (hfinite : x.magnitude < infinityMagnitude) :
    Shortest x.magnitude x.shortestDigits := by
  rw [shortestDigits]
  dsimp only
  rw [if_neg hpos.ne']
  generalize x.magnitude = m at hpos hfinite
  have hvalue : (interval m).value = 4 * unitsOfMagnitude m := rfl
  have hunits : 0 < unitsOfMagnitude m := by
    refine Nat.pos_of_ne_zero fun h0 => hpos.ne' ?_
    exact unitsOfMagnitude_inj hfinite (by decide) (h0.trans rfl)
  obtain ⟨hlow, hhigh⟩ := estimate_spec hunits (log2_unitsOfMagnitude_lt hfinite hpos)
  have hestimate := fdiv_estimate (unitsOfMagnitude m).log2
  have hlog := log2_unitsOfMagnitude_lt hfinite hpos
  rw [← hvalue] at hlow hhigh
  obtain ⟨hpoint, hpoint', hge, hle⟩ := pointFrom_spec rfl hlow hhigh
  generalize pointFrom _ _ 4 _ = point at hpoint hpoint' hge hle ⊢
  have hlast := digitsOn?_seventeen hpos hpoint
  obtain ⟨first, hfirst, hfirst', hhit, hmiss⟩ :=
    searchDigits_spec (show 1 ≤ 17 by decide) (show 17 < 1 + 18 by decide) hlast
  generalize searchDigits (interval m) point 18 1 = hit at hhit ⊢
  obtain ⟨lo, hlo, hlo', ⟨hnone, -⟩ | ⟨n, hsome, hn, hhas⟩⟩ := digitsOn?_cases (interval m) point first
  · rw [hnone] at hhit
    cases hhit
  · obtain rfl : (n, point - (first : Int)) = hit := Option.some.inj (hsome.symm.trans hhit)
    have hnpos := pos_of_has hpos hhas
    have hnle : n ≤ 10 ^ first := by
      have hltone : quarters lo (point - first) < quarters (1 * 10 ^ first) (point - first) := by
        rw [quarters_shift, Int.sub_add_cancel]
        exact hlo.trans_lt hpoint'
      have := lt_of_quarters_lt hltone
      omega
    obtain ⟨hcons, hquarters⟩ := stripped_spec hnpos (point - first)
    dsimp only
    constructor
    · exact fun a ha => lt_of_mem_decimalDigits ((List.rdropWhile_prefix _ _).subset ha)
    · exact hcons
    · refine (ofDecimal_eq_iff hfinite).2 ?_
      dsimp only
      exact hquarters ▸ hhas
    · intro n' e k hreads hlt
      have hhas' := (ofDecimal_eq_iff hfinite).1 hreads
      refine (length_stripped_le hnle hfirst).trans ?_
      by_contra hless
      have hk : 0 < k := by
        refine Nat.pos_of_ne_zero ?_
        rintro rfl
        exact absurd (pos_of_has hpos hhas') (by omega)
      exact digitsOn?_of_has hpos hpoint hlt hk hhas' (hmiss k hk (by omega))
    · have hlength : (decimalDigits n).length ≤ first + 1 :=
        length_decimalDigits_le (hnle.trans_lt (Nat.pow_lt_pow_succ (by decide))) (Nat.succ_pos _)
      dsimp only
      omega

end RegisterJit.Double
