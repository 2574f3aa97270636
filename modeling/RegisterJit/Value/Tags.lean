import RegisterJit.Value

/-!
# Tags

What the tags of a word say about its number, and which tags the words have that the constructors of values
build.

Emitted code looks at tags only, and the host at values. Each test of tags is shown here to be a
test of the classes of built values, and `Proofs.Forks` carries this to the instructions. `Built`
lists the words that constructors of values give, since of other words nothing is claimed.
-/

namespace RegisterJit

/-! ## Masks -/

theorem Nat.and_shifted (n s k : Nat) : n &&& (2 ^ k - 1) * 2 ^ s = n / 2 ^ s % 2 ^ k * 2 ^ s := by
  refine Nat.eq_of_testBit_eq fun i => ?_
  simp only [Nat.testBit_and, Nat.testBit_mul_two_pow, Nat.testBit_two_pow_sub_one,
    Nat.testBit_mod_two_pow, Nat.testBit_div_two_pow]
  by_cases hlow : s ≤ i
  · simp [hlow, Bool.and_comm]
  · simp [hlow]

theorem UInt64.and_or_distrib (a b c : UInt64) : a &&& (b ||| c) = a &&& b ||| a &&& c := by
  rw [← UInt64.toNat_inj]
  simp only [UInt64.toNat_and, UInt64.toNat_or, Nat.and_or_distrib_left]

namespace Value

section

variable (w : UInt64)

theorem toNat_and_numberMask : (w &&& numberMask).toNat = w.toNat / 2 ^ 48 * 2 ^ 48 := by
  have hlt := w.toNat_lt
  rw [UInt64.toNat_and, show numberMask.toNat = (2 ^ 16 - 1) * 2 ^ 48 from rfl, Nat.and_shifted]
  omega

theorem toNat_and_low : (w &&& 0xf).toNat = w.toNat % 16 := by
  rw [UInt64.toNat_and]
  exact Nat.and_two_pow_sub_one_eq_mod _ 4

theorem toNat_and_other : (w &&& tagOther).toNat = w.toNat / 2 % 2 * 2 := by
  rw [UInt64.toNat_and]
  exact Nat.and_shifted _ 1 1

theorem toNat_and_notOne : (w &&& ~~~(1 : UInt64)).toNat = w.toNat / 2 * 2 := by
  have hlt := w.toNat_lt
  rw [UInt64.toNat_and, show (~~~(1 : UInt64)).toNat = (2 ^ 63 - 1) * 2 ^ 1 from rfl, Nat.and_shifted]
  omega

theorem and_notUndefined_eq : w &&& ~~~tagUndefined = 2 ↔ w = 2 ∨ w = 10 := by
  constructor
  · intro h
    have hsplit : w = (w &&& ~~~tagUndefined) ||| (w &&& tagUndefined) := by
      rw [← UInt64.and_or_distrib]
      simp
    have hbit : (w &&& tagUndefined).toNat = w.toNat / 8 % 2 * 8 := by
      rw [UInt64.toNat_and]
      exact Nat.and_shifted _ 3 1
    rw [hsplit, h]
    rcases Nat.mod_two_eq_zero_or_one (w.toNat / 8) with h0 | h1
    · left
      rw [h0] at hbit
      rw [UInt64.toNat_inj.1 (hbit.trans (show _ = (0 : UInt64).toNat from rfl))]
      rfl
    · right
      rw [h1] at hbit
      rw [UInt64.toNat_inj.1 (hbit.trans (show _ = (8 : UInt64).toNat from rfl))]
      rfl
  · rintro (rfl | rfl) <;> rfl

end

/-! ## Classes -/

variable {v : Value}

theorem isInt32_iff : v.isInt32 ↔ 2 ^ 64 - 2 ^ 48 ≤ v.word.toNat := by
  rw [isInt32, decide_eq_true_eq, UInt64.le_iff_toNat_le]
  rfl

theorem isNumber_iff : v.isNumber ↔ 2 ^ 48 ≤ v.word.toNat := by
  rw [isNumber, bne_iff_ne, ne_eq, ← UInt64.toNat_inj, toNat_and_numberMask]
  change ¬ _ = 0 ↔ _
  omega

theorem isBool_iff : v.isBool ↔ v.word.toNat = 6 ∨ v.word.toNat = 7 := by
  rw [isBool, beq_iff_eq, ← UInt64.toNat_inj, toNat_and_notOne]
  change _ = 6 ↔ _
  omega

theorem isNullOrUndefined_iff :
    v.isNullOrUndefined ↔ v.word.toNat = 2 ∨ v.word.toNat = 10 := by
  rw [isNullOrUndefined, beq_iff_eq]
  refine (and_notUndefined_eq v.word).trans (or_congr ?_ ?_)
  · exact UInt64.toNat_inj.symm
  · exact UInt64.toNat_inj.symm

theorem eq_empty_iff : v = empty ↔ v.word.toNat = 0 := by
  obtain ⟨w⟩ := v
  rw [empty, mk.injEq, ← UInt64.toNat_inj]
  rfl

theorem isEmpty_iff : v.isEmpty ↔ v.word.toNat = 0 := by
  rw [isEmpty, beq_iff_eq, eq_empty_iff]

theorem isCell_iff : v.isCell ↔
    v.word.toNat < 2 ^ 48 ∧ v.word.toNat / 2 % 2 = 0 ∧ v.word.toNat ≠ 0 := by
  rw [isCell, Bool.and_eq_true, bne_iff_ne, ne_eq, eq_empty_iff, beq_iff_eq, tagMask, UInt64.and_or_distrib,
    UInt64.or_eq_zero_iff, ← UInt64.toNat_inj, ← UInt64.toNat_inj, toNat_and_numberMask,
    toNat_and_other]
  change (_ = 0 ∧ _ = 0) ∧ _ ↔ _
  omega

theorem isObject_iff : v.isObject ↔
    v.word.toNat < 2 ^ 48 ∧ v.word.toNat % 16 = 0 ∧ v.word.toNat ≠ 0 := by
  rw [isObject, Bool.and_eq_true, isCell_iff, beq_iff_eq, ← UInt64.toNat_inj, toNat_and_low]
  change _ ∧ _ = 0 ↔ _
  omega

theorem isString_iff : v.isString ↔ v.word.toNat < 2 ^ 48 ∧ v.word.toNat % 16 = 8 := by
  rw [isString, Bool.and_eq_true, isCell_iff, beq_iff_eq, ← UInt64.toNat_inj, toNat_and_low]
  change _ ∧ _ = 8 ↔ _
  omega

/-! ## Words that are built -/

theorem toNat_int32 (i : UInt32) : (int32 i).word.toNat = 2 ^ 64 - 2 ^ 48 + i.toNat := by
  have hlt := i.toNat_lt
  rw [int32, UInt64.toNat_or, UInt32.toNat_toUInt64]
  exact (Nat.two_pow_add_eq_or_of_lt (i := 48) (show i.toNat < 2 ^ 48 by omega) (2 ^ 16 - 1)).symm

/-- Boxed doubles are above what is no number and below integers. -/
theorem toNat_double (x : Double) :
    2 ^ 48 ≤ (double x).word.toNat ∧ (double x).word.toNat < 2 ^ 64 - 2 ^ 48 := by
  have hbits : (if x.isNaN then Double.nan else x).bits.toNat ≤ 0xfff0000000000000 := by
    split
    · decide
    · rename_i hnan
      rw [Double.isNaN, decide_eq_true_eq, Nat.not_lt, Double.magnitude] at hnan
      have hlt := x.bits.toNat_lt
      simp only [Double.infinityMagnitude] at hnan
      omega
  rw [double, UInt64.toNat_add, show doubleOffset.toNat = 2 ^ 48 from rfl]
  omega

theorem toNat_object (handle : UInt32) : (object handle).word.toNat = 16 * handle.toNat := by
  have hlt := handle.toNat_lt
  have hcount : (4 : UInt64).toNat % 64 = 4 := rfl
  rw [object, UInt64.toNat_shiftLeft, UInt32.toNat_toUInt64, Nat.shiftLeft_eq, hcount]
  omega

theorem toNat_string (handle : UInt32) : (string handle).word.toNat = 16 * handle.toNat + 8 := by
  have hobject := toNat_object handle
  rw [string, UInt64.toNat_or]
  change (object handle).word.toNat ||| 8 = _
  rw [hobject]
  exact (Nat.two_pow_add_eq_or_of_lt (i := 4) (by decide) handle.toNat).symm

theorem toInt32_int32 (i : UInt32) : (int32 i).toInt32 = signed32 i := by
  have hword := toNat_int32 i
  have hlow : (int32 i).toUInt32 = i := by
    rw [← UInt32.toNat_inj, toUInt32, UInt64.toNat_toUInt32]
    have := i.toNat_lt
    omega
  rw [toInt32, hlow]

/-- The words that the constructors of values build. -/
inductive Built : Value → Prop
  | int32 (i : UInt32) : Built (int32 i)
  | double (x : Double) : Built (double x)
  | bool (b : Bool) : Built (ofBool b)
  | null : Built null
  | undefined : Built undefined
  | empty : Built empty
  | object (handle : UInt32) : Built (object handle)
  | string (handle : UInt32) : Built (string handle)

end Value

end RegisterJit
