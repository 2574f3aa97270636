import RegisterJit.Proofs.Conditions
import RegisterJit.Proofs.Forks
import RegisterJit.Proofs.Integers

/-!
# Inline paths

The code of an operator on integers, between the check that they are and the call of the stub. It computes in
registers and jumps to one of two labels: to the end with a boxed result in the accumulator, or to the call.

The processor computes with words and sets flags. For each 32-bit instruction the flag on which inline paths branch
is set exactly if the signed result does not fit (`overflow_bits`), and the low half of the word is the result
otherwise. Division has its operand in two registers, which `dividend_eq` joins; the sign of a zero is decided by
the signs of the operands.

`Carries` describes a stretch of symbolic code by what it does to a processor: it computes, reaches a state of
which something is known, and goes on or jumps to a label. Stretches are put together by following one after the
other, and `Carries.gate` is for those that test and leave. The pieces that box a result are described once,
since every operator ends with them: an integer that fits, a double, or a result that overflowed and is computed
again in 64 bits. `Arithmetic` does the operators one group after the other with these lemmas.
-/

namespace RegisterJit

open X86 (Reg Cond Instr Label Cpu Width)

/-! ## Signed numbers -/

def FitsInt32 (i : Int) : Prop := -(2 ^ 31) ≤ i ∧ i < 2 ^ 31

instance (i : Int) : Decidable (FitsInt32 i) := inferInstanceAs (Decidable (_ ∧ _))

theorem signed32_eq (u : UInt32) :
    signed32 u = if u.toNat < 2 ^ 31 then (u.toNat : Int) else u.toNat - 2 ^ 32 := by
  have hcond : signed32 u = if 2 * u.toNat < 2 ^ 32 then (u.toNat : Int) else u.toNat - 2 ^ 32 :=
    BitVec.toInt_eq_toNat_cond ..
  rw [hcond]
  split <;> split <;> omega

theorem fitsInt32_signed32 (u : UInt32) : FitsInt32 (signed32 u) := by
  have hlt := u.toNat_lt
  rw [FitsInt32, signed32_eq]
  split <;> omega

theorem ofInt_signed32 (u : UInt32) : UInt32.ofInt (signed32 u) = u := by
  have hlt := u.toNat_lt
  rw [← UInt32.toNat_inj, UInt32.ofInt, UInt32.toNat_ofNat', signed32_eq]
  split <;> omega

theorem signed32_ofInt {i : Int} (h : FitsInt32 i) : signed32 (UInt32.ofInt i) = i := by
  obtain ⟨hlow, hhigh⟩ := h
  rw [signed32_eq, UInt32.ofInt, UInt32.toNat_ofNat']
  split <;> omega

theorem signed32_inj {u v : UInt32} : signed32 u = signed32 v ↔ u = v :=
  ⟨fun h => by rw [← ofInt_signed32 u, h, ofInt_signed32], fun h => h ▸ rfl⟩

theorem signed32_eq_zero {u : UInt32} : signed32 u = 0 ↔ u = 0 := signed32_inj (v := 0)

theorem add_eq_ofInt (u v : UInt32) : u + v = UInt32.ofInt (signed32 u + signed32 v) := by
  rw [UInt32.ofInt_add, ofInt_signed32, ofInt_signed32]

theorem sub_eq_ofInt (u v : UInt32) : u - v = UInt32.ofInt (signed32 u - signed32 v) := by
  rw [Int.sub_eq_add_neg, UInt32.ofInt_add, UInt32.ofInt_neg, ofInt_signed32, ofInt_signed32,
    UInt32.sub_eq_add_neg]

theorem FitsInt32.tdiv {i j : Int} (hi : FitsInt32 i) (hzero : j ≠ 0) (hminus : j ≠ -1) : FitsInt32 (i.tdiv j) := by
  obtain ⟨hlow, hhigh⟩ := hi
  by_cases hone : j = 1
  · rw [hone, Int.tdiv_one]
    exact ⟨hlow, hhigh⟩
  have hquotient : (i.tdiv j).natAbs ≤ i.natAbs / 2 := by
    rw [Int.natAbs_tdiv]
    exact Nat.div_le_div_left (by omega) Nat.two_pos
  exact ⟨by omega, by omega⟩

theorem FitsInt32.tmod {j : Int} (hj : FitsInt32 j) (hzero : j ≠ 0) (i : Int) : FitsInt32 (i.tmod j) := by
  obtain ⟨hlow, hhigh⟩ := hj
  have hlt : (i.tmod j).natAbs < j.natAbs := by
    rw [Int.natAbs_tmod]
    exact Nat.mod_lt _ (Int.natAbs_pos.2 hzero)
  exact ⟨by omega, by omega⟩

theorem toNat_and_31 (v : UInt32) : (v &&& 31).toNat < 32 := by
  rw [UInt32.toNat_and]
  exact Nat.lt_of_le_of_lt Nat.and_le_right (by decide)

theorem shiftRight_eq_ofInt (u v : UInt32) : (u.toInt32 >>> (v &&& 31).toInt32).toUInt32 =
    UInt32.ofInt (signed32 u >>> (v &&& 31).toNat) := by
  have hcount : ∀ n < 32, ((UInt32.ofNat n).toInt32.toBitVec.smod 32).toNat = n := by decide
  have hsmod : ((v &&& 31).toInt32.toBitVec.smod 32).toNat = (v &&& 31).toNat := by
    have := hcount _ (toNat_and_31 v)
    rwa [UInt32.ofNat_toNat] at this
  have hshift : signed32 (u.toInt32 >>> (v &&& 31).toInt32).toUInt32 = signed32 u >>> (v &&& 31).toNat := by
    change (u.toInt32 >>> (v &&& 31).toInt32).toBitVec.toInt = _
    rw [Int32.toBitVec_shiftRight, BitVec.sshiftRight', hsmod, BitVec.toInt_sshiftRight]
    rfl
  rw [← hshift, ofInt_signed32]

namespace X86

/-! ## Words -/

namespace Width

theorem clip_w32 (x : UInt64) : clip .w32 x = x.toUInt32.toUInt64 := by
  rw [← UInt64.toNat_inj, toNat_clip_w32, UInt32.toNat_toUInt64, UInt64.toNat_toUInt32]

theorem isNegative_toUInt64 (u : UInt32) : isNegative .w32 u.toUInt64 = decide (signed32 u < 0) := by
  have hlt := u.toNat_lt
  rw [isNegative_w32, UInt32.toNat_toUInt64, testBit_31 hlt, decide_eq_decide, signed32_eq]
  split <;> omega

theorem signed32_or_neg {u v : UInt32} : signed32 (u ||| v) < 0 ↔ signed32 u < 0 ∨ signed32 v < 0 := by
  have hor : isNegative .w32 (u ||| v).toUInt64 =
      (isNegative .w32 u.toUInt64 || isNegative .w32 v.toUInt64) := by
    simp only [isNegative_w32, UInt32.toNat_toUInt64, UInt32.toNat_or, Nat.testBit_or]
  rwa [isNegative_toUInt64, isNegative_toUInt64, isNegative_toUInt64, Bool.eq_iff_iff, Bool.or_eq_true,
    decide_eq_true_eq, decide_eq_true_eq, decide_eq_true_eq] at hor

theorem toInt_w32 (x : UInt64) : toInt .w32 x = signed32 x.toUInt32 := rfl

theorem toUInt32_ofInt (i : Int) : (UInt64.ofInt i).toUInt32 = UInt32.ofInt i := by
  rw [← UInt32.toNat_inj, UInt64.toNat_toUInt32, UInt64.ofInt, UInt64.toNat_ofNat', UInt32.ofInt,
    UInt32.toNat_ofNat']
  omega

theorem ofInt_w32 (i : Int) : ofInt .w32 i = (UInt32.ofInt i).toUInt64 := by
  rw [ofInt, clip_w32, toUInt32_ofInt]

theorem toInt_w64_ofInt {i : Int} (hlow : -(2 ^ 63) ≤ i) (hhigh : i < 2 ^ 63) :
    toInt .w64 (UInt64.ofInt i) = i := by
  have hcond : toInt .w64 (UInt64.ofInt i) = if 2 * (UInt64.ofInt i).toNat < 2 ^ 64
      then ((UInt64.ofInt i).toNat : Int) else (UInt64.ofInt i).toNat - 2 ^ 64 :=
    BitVec.toInt_eq_toNat_cond ..
  rw [hcond, UInt64.ofInt, UInt64.toNat_ofNat']
  split <;> omega

theorem toInt_w64_toUInt64 (u : UInt32) : toInt .w64 u.toUInt64 = u.toNat := by
  have hlt := u.toNat_lt
  have hword : u.toUInt64 = UInt64.ofInt u.toNat := by
    rw [← UInt64.toNat_inj, UInt32.toNat_toUInt64, UInt64.ofInt, UInt64.toNat_ofNat']
    omega
  rw [hword, toInt_w64_ofInt (by omega) (by omega)]

theorem signExtend (u : UInt32) : u.toInt32.toInt64.toUInt64 = UInt64.ofInt (signed32 u) := by
  have hlt := u.toNat_lt
  have hint : u.toInt32.toInt64.toInt = signed32 u := Int32.toInt_toInt64 _
  have hcond : u.toInt32.toInt64.toInt = if 2 * u.toInt32.toInt64.toUInt64.toNat < 2 ^ 64
      then (u.toInt32.toInt64.toUInt64.toNat : Int) else u.toInt32.toInt64.toUInt64.toNat - 2 ^ 64 :=
    BitVec.toInt_eq_toNat_cond ..
  have hword := u.toInt32.toInt64.toUInt64.toNat_lt
  rw [← UInt64.toNat_inj, UInt64.ofInt, UInt64.toNat_ofNat', ← hint, hcond]
  split <;> omega

/-- The dividend of a division: an integer of 32 bits between whose halves its sign has been spread. -/
theorem dividend_eq (u : UInt32) :
    (if isNegative .w32 u.toUInt64 then (0xffffffff : UInt64) else 0) <<< 32 ||| u.toUInt64 =
      UInt64.ofInt (signed32 u) := by
  have hlt := u.toNat_lt
  have hor (h : UInt64) (hh : h.toNat < 2 ^ 32) :
      (h <<< 32 ||| u.toUInt64).toNat = h.toNat * 2 ^ 32 + u.toNat := by
    have hshift : (h <<< 32).toNat = 2 ^ 32 * h.toNat := by
      rw [UInt64.toNat_shiftLeft, Nat.shiftLeft_eq]
      change h.toNat * 2 ^ 32 % 2 ^ 64 = _
      omega
    rw [UInt64.toNat_or, hshift, UInt32.toNat_toUInt64, ← Nat.two_pow_add_eq_or_of_lt hlt, Nat.mul_comm]
  rw [isNegative_toUInt64, ← UInt64.toNat_inj, UInt64.ofInt, UInt64.toNat_ofNat', signed32_eq]
  by_cases hsmall : u.toNat < 2 ^ 31
  · rw [if_pos hsmall, if_neg (by simp), hor _ (by decide)]
    change 0 * 2 ^ 32 + _ = _
    omega
  · rw [if_neg hsmall, if_pos (decide_eq_true (by omega)), hor _ (by decide)]
    change 4294967295 * 2 ^ 32 + _ = _
    omega

end Width

/-! ## Flags -/

namespace Flags

theorem zero_toUInt64 (u : UInt32) : (u.toUInt64 == 0) = decide (signed32 u = 0) := by
  rw [Bool.eq_iff_iff, beq_iff_eq, decide_eq_true_eq, signed32_eq_zero, ← UInt32.toUInt64_inj]
  rfl

/-- The top bit of a combination of three words of 32 bits. -/
theorem overflow_bits {x y z : UInt32} :
    Width.isNegative .w32 ((x.toUInt64 ^^^ y.toUInt64) &&& (x.toUInt64 ^^^ z.toUInt64)) = true ↔
      ¬ (signed32 x < 0 ↔ signed32 y < 0) ∧ ¬ (signed32 x < 0 ↔ signed32 z < 0) := by
  rw [← UInt32.toUInt64_xor, ← UInt32.toUInt64_xor, ← UInt32.toUInt64_and, Width.isNegative_w32,
    UInt32.toNat_toUInt64, UInt32.toNat_and, UInt32.toNat_xor, UInt32.toNat_xor, Nat.testBit_and,
    Nat.testBit_xor, Nat.testBit_xor, testBit_31 x.toNat_lt, testBit_31 y.toNat_lt,
    testBit_31 z.toNat_lt, Bool.and_eq_true, Bool.xor_iff_ne, Bool.xor_iff_ne, ne_eq, ne_eq,
    decide_eq_decide, decide_eq_decide, signed32_eq, signed32_eq, signed32_eq]
  have := x.toNat_lt
  have := y.toNat_lt
  have := z.toNat_lt
  split <;> split <;> split <;> omega

theorem overflow_ofSum (u v : UInt32) :
    (ofSum .w32 u.toUInt64 v.toUInt64 (u + v).toUInt64).overflow =
      decide (¬ FitsInt32 (signed32 u + signed32 v)) := by
  have hu := u.toNat_lt
  have hv := v.toNat_lt
  have hr := UInt32.toNat_add u v
  rw [Bool.eq_iff_iff, decide_eq_true_eq]
  change Width.isNegative .w32 ((u.toUInt64 ^^^ (u + v).toUInt64) &&& (v.toUInt64 ^^^ (u + v).toUInt64)) =
    true ↔ _
  rw [UInt64.xor_comm, UInt64.xor_comm v.toUInt64, overflow_bits, FitsInt32, signed32_eq, signed32_eq,
    signed32_eq]
  split <;> split <;> split <;> omega

theorem overflow_ofDifference (u v : UInt32) :
    (ofDifference .w32 u.toUInt64 v.toUInt64 (u - v).toUInt64).overflow =
      decide (¬ FitsInt32 (signed32 u - signed32 v)) := by
  have hu := u.toNat_lt
  have hv := v.toNat_lt
  have hr := UInt32.toNat_sub u v
  rw [Bool.eq_iff_iff, decide_eq_true_eq]
  change Width.isNegative .w32 ((u.toUInt64 ^^^ v.toUInt64) &&& (u.toUInt64 ^^^ (u - v).toUInt64)) =
    true ↔ _
  rw [overflow_bits, FitsInt32, signed32_eq, signed32_eq, signed32_eq]
  split <;> split <;> split <;> omega

end Flags

end X86

/-! ## Instructions -/

namespace X86.Cpu

variable (c : Cpu)

theorem effect_add (w : Width) (dst src : Reg) :
    c.effect (.alu .add w dst src) = some ((c.setReg dst (w.clip (w.clip (c.reg dst) + w.clip (c.reg src)))).setFlags
      (.ofSum w (w.clip (c.reg dst)) (w.clip (c.reg src)) (w.clip (w.clip (c.reg dst) + w.clip (c.reg src))))) := rfl

theorem effect_addImm (w : Width) (dst : Reg) (imm : Int32) :
    c.effect (.aluImm .add w dst imm) = some ((c.setReg dst (w.clip (w.clip (c.reg dst) +
      w.clip (displacementWord imm)))).setFlags (.ofSum w (w.clip (c.reg dst)) (w.clip (displacementWord imm))
        (w.clip (w.clip (c.reg dst) + w.clip (displacementWord imm))))) := rfl

theorem effect_sub (w : Width) (dst src : Reg) :
    c.effect (.alu .sub w dst src) = some ((c.setReg dst (w.clip (w.clip (c.reg dst) - w.clip (c.reg src)))).setFlags
      (.ofDifference w (w.clip (c.reg dst)) (w.clip (c.reg src))
        (w.clip (w.clip (c.reg dst) - w.clip (c.reg src))))) := rfl

theorem effect_or (w : Width) (dst src : Reg) :
    c.effect (.alu .or w dst src) = some ((c.setReg dst (w.clip (c.reg dst) ||| w.clip (c.reg src))).setFlags
      (.ofBits w (w.clip (c.reg dst) ||| w.clip (c.reg src)))) := rfl

theorem effect_xor (w : Width) (dst src : Reg) :
    c.effect (.alu .xor w dst src) = some ((c.setReg dst (w.clip (c.reg dst) ^^^ w.clip (c.reg src))).setFlags
      (.ofBits w (w.clip (c.reg dst) ^^^ w.clip (c.reg src)))) := rfl

theorem effect_movsxd (dst src : Reg) :
    c.effect (.movsxd dst src) = some (c.setReg dst (UInt64.ofInt (signed32 (c.reg src).toUInt32))) := by
  rw [← Width.signExtend]
  rfl

theorem effect_cvtsi2sd (dst : X86.Xmm) (src : Reg) : c.effect (.cvtsi2sd dst src) =
    some (c.setXmm dst (Double.ofInt (Width.toInt .w64 (c.reg src))).bits) := rfl

theorem effect_movqFrom (dst : Reg) (x : X86.Xmm) (w : UInt64) :
    (c.setXmm x w).effect (.movqFrom dst x) = some ((c.setXmm x w).setReg dst w) :=
  congrArg (fun w' => some ((c.setXmm x w).setReg dst w')) (Vector.getElem_set_self ..)

theorem computes_setXmm (x : X86.Xmm) (w : UInt64) : c.Computes (c.setXmm x w) := ⟨rfl, fun _ _ => rfl⟩

end X86.Cpu

/-! ## Stretches of code -/

namespace Piece

/-- A stretch of code computes, and then runs off its end or jumps to a label. -/
def Carries (word : Label → UInt64) (ps : List Piece) (c : Cpu) (jump : Option Label) (Q : Cpu → Prop) : Prop :=
  ∃ d, c.Computes d ∧ Q d ∧ ∀ rest, follow word none (ps ++ rest) c = follow word jump rest d

variable {word : Label → UInt64} {c d : Cpu} {jump : Option Label} {l : Label} {Q R : Cpu → Prop}
  {ps qs : List Piece}

theorem Carries.nil (h : Q c) : Carries word [] c none Q := ⟨c, .refl c, h, fun _ => rfl⟩

theorem Carries.mono (h : Carries word ps c jump Q) (hQ : ∀ d, c.Computes d → Q d → R d) :
    Carries word ps c jump R := by
  obtain ⟨d, hd, hq, hfollow⟩ := h
  exact ⟨d, hd, hQ d hd hq, hfollow⟩

theorem Carries.append (h : Carries word ps c none Q)
    (h' : ∀ d, c.Computes d → Q d → Carries word qs d jump R) : Carries word (ps ++ qs) c jump R := by
  obtain ⟨d, hd, hq, hfollow⟩ := h
  obtain ⟨e, he, hr, hfollow'⟩ := h' d hd hq
  refine ⟨e, hd.trans he, hr, fun rest => ?_⟩
  rw [List.append_assoc, hfollow, hfollow']

theorem Carries.instr {i : Instr} (hi : i.straight = true) (he : c.effect i = some d) (hd : c.Computes d)
    (h : Carries word ps d jump Q) : Carries word (.instr i :: ps) c jump Q := by
  obtain ⟨e, hcomputes, hq, hfollow⟩ := h
  refine ⟨e, hd.trans hcomputes, hq, fun rest => ?_⟩
  rw [List.cons_append, follow_instr, hi, he]
  exact hfollow rest

theorem Carries.bind (h : Carries word ps c jump Q) : Carries word (.bind l :: ps) c jump Q := h

theorem Carries.jmp (h : Q c) : Carries word [.jmp l] c (some l) Q := ⟨c, .refl c, h, fun _ => rfl⟩

theorem Carries.stay {cond : Cond} (hcond : cond.holds c.flags = false) (h : Carries word ps c jump Q) :
    Carries word (.jcc cond l :: ps) c jump Q := by
  obtain ⟨e, he, hq, hfollow⟩ := h
  refine ⟨e, he, hq, fun rest => ?_⟩
  rw [List.cons_append, follow_jcc, hcond, if_neg Bool.false_ne_true, hfollow]

theorem Carries.skip (h : Carries word ps c (some l) Q) (hl : .bind l ∉ qs) :
    Carries word (ps ++ qs) c (some l) Q := by
  obtain ⟨d, hd, hq, hfollow⟩ := h
  refine ⟨d, hd, hq, fun rest => ?_⟩
  rw [List.append_assoc, hfollow]
  clear hfollow
  induction qs with
  | nil => rfl
  | cons p qs ih =>
    rw [List.mem_cons, not_or] at hl
    rw [List.cons_append, follow, if_neg, ih hl.2]
    intro hp
    cases p <;> cases hp
    exact hl.1 rfl

/-- A check that may leave the operands to the stub, before the rest of an inline path. -/
theorem Carries.gate {a leaves : Bool} {slow done : Label}
    (h : Carries word ps c (if a then some slow else none) Q) (hl : .bind slow ∉ qs)
    (hleave : a = true → leaves = true)
    (hstay : a = false → ∀ d, c.Computes d → Q d →
      Carries word qs d (some (if leaves then slow else done)) fun e => leaves = false → R e) :
    Carries word (ps ++ qs) c (some (if leaves then slow else done)) fun e => leaves = false → R e := by
  cases a with
  | false => exact h.append (hstay rfl)
  | true =>
    obtain rfl := hleave rfl
    exact (h.mono fun _ _ _ h => nomatch h).skip hl

theorem Carries.finish {leaves : Bool} {slow done : Label} (hleaves : leaves = false)
    (h : Carries word ps c (some done) Q) :
    Carries word ps c (some (if leaves then slow else done)) fun d => leaves = false → Q d := by
  subst hleaves
  exact h.mono fun _ _ hq _ => hq

theorem Carries.leave {cond : Cond} (hcond : cond.holds c.flags = true) (hl : .bind l ∉ ps) (h : Q c) :
    Carries word (.jcc cond l :: ps) c (some l) Q := by
  have hjump : Carries word [.jcc cond l] c (some l) Q := by
    refine ⟨c, .refl c, h, fun rest => ?_⟩
    rw [List.cons_append, follow_jcc, hcond, if_pos rfl, List.nil_append]
  exact hjump.skip hl

theorem Carries.land {cond : Cond} (hcond : cond.holds c.flags = true) (qs : List Piece) (hl : .bind l ∉ qs)
    (h : Carries word ps c jump Q) : Carries word (.jcc cond l :: (qs ++ .bind l :: ps)) c jump Q := by
  obtain ⟨d, hd, hq, hfollow⟩ := h
  refine ⟨d, hd, hq, fun rest => ?_⟩
  rw [List.cons_append, follow_jcc, hcond, if_pos rfl, List.append_assoc, List.cons_append,
    follow_jump_append word l hl, hfollow]

end Piece

/-! ## Boxed results -/

namespace Value

theorem word_int32 (u : UInt32) : (int32 u).word = numberMask ||| u.toUInt64 := rfl

theorem toUInt32_word_int32 (u : UInt32) : (int32 u).word.toUInt32 = u := by
  rw [word_int32, UInt64.toUInt32_or, UInt32.toUInt32_toUInt64, show numberMask.toUInt32 = 0 from rfl,
    UInt32.zero_or]

theorem number_ofInt_fits {i : Int} (h : FitsInt32 i) : number (Double.ofInt i) = int32 (UInt32.ofInt i) := by
  obtain ⟨hlow, hhigh⟩ := h
  rw [number_ofInt (by omega), if_pos ⟨hlow, hhigh⟩]
  rfl

theorem number_ofInt_signed32 (u : UInt32) : number (Double.ofInt (signed32 u)) = int32 u := by
  rw [number_ofInt_fits (fitsInt32_signed32 u), ofInt_signed32]

theorem number_ofInt_not_fits {i : Int} (h : ¬ FitsInt32 i) :
    number (Double.ofInt i) = double (Double.ofInt i) := by
  by_cases hsmall : i.natAbs < 2 ^ 53
  · rw [number_ofInt hsmall]
    exact if_neg h
  · exact number_ofInt_large (by omega)

theorem word_double_ofInt (i : Int) :
    (double (Double.ofInt i)).word = (Double.ofInt i).bits + doubleOffset := by
  have hlt : Double.roundUnits (i * Double.unitsPerOne).natAbs 1 ≤ Double.infinityMagnitude :=
    Nat.min_le_right _ _
  have hnan : (Double.ofInt i).isNaN = Bool.false := by
    rw [Double.isNaN, Double.ofInt, Double.ofSignedUnits,
      Double.magnitude_ofMagnitude _ (hlt.trans_lt (by decide))]
    exact decide_eq_false (by omega)
  rw [double, hnan]
  rfl

end Value

namespace Emit

/-- The pieces that box the 32-bit result in the accumulator. -/
def boxPieces (done : Label) : List Piece := [.instr (.alu .or .w64 .rax maskReg), .jmp done]

/-- The pieces that box a 64-bit result as a double. -/
def boxDoublePieces (src : Reg) (done : Label) : List Piece :=
  [.instr (.cvtsi2sd .x0 src), .instr (.movqFrom .rax .x0), .instr (.movImm64 .rcx Value.doubleOffset),
    .instr (.alu .add .w64 .rax .rcx), .jmp done]

/-- The pieces of 32-bit arithmetic on the accumulator with a result in `rcx`. What overflows is done again in
64 bits. -/
def overflowPieces (narrow : Instr) (checks wide : List Piece) (overflow done : Label) : List Piece :=
  .instr (.mov .w32 .rcx .rax) :: .instr narrow :: .jcc .o overflow :: (checks ++
    .instr (.mov .w32 .rax .rcx) :: (boxPieces done ++ .bind overflow :: .instr (.movsxd .rcx .rax) ::
      (wide ++ boxDoublePieces .rcx done)))

end Emit

namespace Piece

open X86.Cpu

variable {word : Label → UInt64} {c : Cpu} {done : Label} {u : UInt32}

theorem carries_boxPieces (hmask : c.reg maskReg = Value.numberMask) (hrax : c.reg .rax = u.toUInt64) :
    Carries word (Emit.boxPieces done) c (some done) fun d => d.reg .rax = (Value.int32 u).word := by
  refine .instr rfl (effect_or ..) (((Computes.refl c).setReg (by decide) _).setFlags _) (.jmp ?_)
  rw [reg_setFlags, reg_setReg_self, X86.Width.clip_w64, X86.Width.clip_w64, hmask, hrax, UInt64.or_comm]
  rfl

theorem carries_boxDoublePieces {src : Reg} {i : Int} (hsrc : Width.toInt .w64 (c.reg src) = i) :
    Carries word (Emit.boxDoublePieces src done) c (some done)
      fun d => d.reg .rax = (Value.double (Double.ofInt i)).word := by
  refine .instr rfl (effect_cvtsi2sd ..) (computes_setXmm ..) <|
    .instr rfl (effect_movqFrom ..) (computes_setReg _ (by decide) _) <|
    .instr rfl (effect_movImm64 ..) (computes_setReg _ (by decide) _) <|
    .instr rfl (effect_add ..) (((Computes.refl _).setReg (by decide) _).setFlags _) (.jmp ?_)
  rw [reg_setFlags, reg_setReg_self, reg_setReg_self, reg_setReg_of_ne _ _ (by decide), reg_setReg_self, hsrc,
    Value.word_double_ofInt]
  rfl

end Piece

end RegisterJit
