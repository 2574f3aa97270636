import Mathlib.Data.List.DropRight
import Mathlib.Tactic.Common
import Mathlib.Tactic.Ring
import RegisterJit.Number.Shortest

/-!
# Decimal digits

The digits of a number give the number back. They are as few as its size allows, the first is not zero, and
zeros at the end can be taken away for a power of ten.

`numberOf` is the number that digits stand for and `decimalDigits_numberOf` that writing is its inverse on
digits that start with no zero. `Text.ofNat` and its relatives are written with these digits, so facts about
numerals, such as how long they are and that different numbers have different ones, come from here. `stripped`
takes zeros away at the end, which is what the search for shortest decimals and the layout of numbers do with
the digits that they have found.
-/

namespace RegisterJit.Double

def numberOf (ds : List Nat) : Nat := ds.foldl (fun n d => n * 10 + d) 0

theorem foldl_digits (acc : Nat) (ds : List Nat) :
    ds.foldl (fun n d => n * 10 + d) acc = acc * 10 ^ ds.length + numberOf ds := by
  induction ds generalizing acc with
  | nil => simp [numberOf]
  | cons d rest ih =>
    rw [numberOf, List.foldl_cons, List.foldl_cons, ih, ih (0 * 10 + d), List.length_cons, Nat.pow_succ]
    ring

theorem numberOf_cons (d : Nat) (ds : List Nat) :
    numberOf (d :: ds) = d * 10 ^ ds.length + numberOf ds := by
  rw [numberOf, List.foldl_cons, foldl_digits, Nat.zero_mul, Nat.zero_add]

theorem numberOf_append (ds ds' : List Nat) :
    numberOf (ds ++ ds') = numberOf ds * 10 ^ ds'.length + numberOf ds' := by
  rw [numberOf, List.foldl_append, foldl_digits]
  rfl

theorem numberOf_lt {ds : List Nat} (h : ∀ d ∈ ds, d < 10) : numberOf ds < 10 ^ ds.length := by
  induction ds with
  | nil => exact Nat.one_pos
  | cons d ds ih =>
    obtain ⟨hd, hds⟩ := List.forall_mem_cons.1 h
    have hmul := Nat.mul_le_mul_right (10 ^ ds.length) (Nat.succ_le_of_lt hd)
    have hrest := ih hds
    rw [Nat.succ_mul] at hmul
    rw [numberOf_cons, List.length_cons, Nat.pow_succ]
    omega

theorem numberOf_zeros (z : Nat) : numberOf (List.replicate z 0) = 0 := by
  induction z with
  | zero => rfl
  | succ z ih => rw [List.replicate_succ', numberOf_append, ih]; rfl

theorem toNat_digitChar {d : Nat} (h : d < 10) : (Nat.digitChar d).toNat - 48 = d := by
  have hall (d : Fin 10) : (Nat.digitChar d.val).toNat - 48 = d.val := by
    revert d
    decide +kernel
  exact hall ⟨d, h⟩

theorem decimalDigits_of_lt {n : Nat} (h : n < 10) : decimalDigits n = [n] := by
  rw [decimalDigits, Nat.toDigits_of_lt_base h, List.map_singleton, toNat_digitChar h]

theorem decimalDigits_of_le {n : Nat} (h : 10 ≤ n) :
    decimalDigits n = decimalDigits (n / 10) ++ [n % 10] := by
  rw [decimalDigits, Nat.toDigits_of_base_le (by decide) h, List.map_append, List.map_singleton,
    toNat_digitChar (Nat.mod_lt _ (by decide))]
  rfl

theorem numberOf_decimalDigits (n : Nat) : numberOf (decimalDigits n) = n := by
  induction n using Nat.strongRecOn with
  | ind n ih =>
    rcases Nat.lt_or_ge n 10 with hn | hn
    · rw [decimalDigits_of_lt hn]
      simp [numberOf]
    · rw [decimalDigits_of_le hn, numberOf_append, ih (n / 10) (by omega)]
      simp only [numberOf, List.length_singleton, List.foldl_cons, List.foldl_nil]
      omega

theorem lt_of_mem_decimalDigits {n d : Nat} (h : d ∈ decimalDigits n) : d < 10 := by
  induction n using Nat.strongRecOn with
  | ind n ih =>
    rcases Nat.lt_or_ge n 10 with hn | hn
    · rw [decimalDigits_of_lt hn, List.mem_singleton] at h
      exact h ▸ hn
    · rw [decimalDigits_of_le hn, List.mem_append, List.mem_singleton] at h
      rcases h with h | rfl
      · exact ih (n / 10) (by omega) h
      · exact Nat.mod_lt _ (by decide)

theorem exists_decimalDigits_cons {n : Nat} (h : 0 < n) :
    ∃ d rest, decimalDigits n = d :: rest ∧ d ≠ 0 := by
  induction n using Nat.strongRecOn with
  | ind n ih =>
    rcases Nat.lt_or_ge n 10 with hn | hn
    · exact ⟨n, [], decimalDigits_of_lt hn, h.ne'⟩
    · obtain ⟨d, rest, heq, hd⟩ := ih (n / 10) (by omega) (by omega)
      exact ⟨d, rest ++ [n % 10], by rw [decimalDigits_of_le hn, heq, List.cons_append], hd⟩

theorem length_decimalDigits_le {n k : Nat} (h : n < 10 ^ k) (hk : 0 < k) :
    (decimalDigits n).length ≤ k := by
  induction n using Nat.strongRecOn generalizing k with
  | ind n ih =>
    rcases Nat.lt_or_ge n 10 with hn | hn
    · rw [decimalDigits_of_lt hn]
      exact hk
    · obtain ⟨k, rfl⟩ : ∃ k', k = k' + 1 := ⟨k - 1, by omega⟩
      rw [Nat.pow_succ] at h
      have hk' : 0 < k := by
        refine Nat.pos_of_ne_zero ?_
        rintro rfl
        omega
      have := ih (n / 10) (by omega) (k := k) (by omega) hk'
      rw [decimalDigits_of_le hn, List.length_append, List.length_singleton]
      omega

theorem pow_le_numberOf {d : Nat} (hd : d ≠ 0) (rest : List Nat) :
    10 ^ rest.length ≤ numberOf (d :: rest) := by
  rw [numberOf_cons]
  exact (Nat.le_mul_of_pos_left _ (Nat.pos_of_ne_zero hd)).trans (Nat.le_add_right _ _)

/-- Digits that do not begin with a zero, but for zero itself, are those of their number. -/
theorem decimalDigits_numberOf {d : Nat} {rest : List Nat} (hdigit : ∀ a ∈ d :: rest, a < 10)
    (hfirst : d = 0 → rest = []) : decimalDigits (numberOf (d :: rest)) = d :: rest := by
  induction rest using List.reverseRecOn with
  | nil =>
    rw [show numberOf [d] = d by simp [numberOf]]
    exact decimalDigits_of_lt (hdigit d List.mem_cons_self)
  | append_singleton rest a ih =>
    have ha : a < 10 := hdigit a (by simp)
    have hd : d ≠ 0 := fun h0 => List.append_ne_nil_of_right_ne_nil _ (List.cons_ne_nil a []) (hfirst h0)
    have hpos : 0 < numberOf (d :: rest) :=
      (Nat.pow_pos (by decide)).trans_le (pow_le_numberOf hd rest)
    have hsplit : numberOf (d :: (rest ++ [a])) = numberOf (d :: rest) * 10 + a := by
      rw [← List.cons_append, numberOf_append]
      simp [numberOf]
    have hprefix : ∀ b ∈ d :: rest, b < 10 := fun b hb =>
      hdigit b (List.cons_append ▸ List.mem_append_left [a] hb)
    rw [hsplit, decimalDigits_of_le (by omega),
      show (numberOf (d :: rest) * 10 + a) / 10 = numberOf (d :: rest) by omega,
      show (numberOf (d :: rest) * 10 + a) % 10 = a by omega, ih hprefix fun h0 => absurd h0 hd,
      List.cons_append]

/-! ## Zeros at the end -/

def stripped (ds : List Nat) : List Nat := ds.rdropWhile (· == 0)

theorem exists_stripped (ds : List Nat) : ∃ z, ds = stripped ds ++ List.replicate z 0 := by
  refine ⟨(ds.rtakeWhile (· == 0)).length, ?_⟩
  have hzero : ∀ d ∈ ds.rtakeWhile (· == 0), d = 0 := fun d hd =>
    beq_iff_eq.1 (List.mem_rtakeWhile_imp (p := (· == 0)) hd)
  rw [← List.eq_replicate_iff.2 ⟨rfl, hzero⟩]
  exact List.rdropWhile_append_rtakeWhile.symm

theorem length_stripped_le {n k : Nat} (h : n ≤ 10 ^ k) (hk : 0 < k) :
    (stripped (decimalDigits n)).length ≤ k := by
  rcases Nat.lt_or_eq_of_le h with hlt | rfl
  · exact (List.rdropWhile_prefix _ _).length_le.trans (length_decimalDigits_le hlt hk)
  · obtain ⟨j, rfl⟩ : ∃ j, k = j + 1 := ⟨k - 1, by omega⟩
    have hten : 10 ≤ 10 ^ (j + 1) := Nat.le_self_pow hk.ne' 10
    have hdiv : 10 ^ (j + 1) / 10 = 10 ^ j := by rw [Nat.pow_succ, Nat.mul_div_cancel _ (by decide)]
    have hmod : 10 ^ (j + 1) % 10 = 0 := by rw [Nat.pow_succ, Nat.mul_mod_left]
    rw [decimalDigits_of_le hten, hdiv, hmod, stripped, List.rdropWhile_concat_pos _ _ _ rfl]
    refine (List.rdropWhile_prefix _ _).length_le.trans (length_decimalDigits_le ?_ (Nat.succ_pos j))
    exact Nat.pow_lt_pow_succ (by decide)

end RegisterJit.Double
