import RegisterJit.Proofs.Inline

/-!
# Inline arithmetic

Where the inline path of every operator on integers goes, and what is in the accumulator there.

`Carries` says of a stretch of pieces what `Piece.follow` does with it: it runs to the end and leaves the
accumulator and the operands in a certain state, or control leaves for the stub. There is one lemma for each
group of operators: the 32-bit operators that are done again in 64 bits when they overflow, division and
remainder, shifts, the bitwise operators, comparisons, and the unary operators and steps. `carries_inlinePieces`
and `carries_unaryPieces` put them together: what an inline path computes is `arithmetic?` of the two integers,
or nothing at all, and then it has left for the stub with its operands untouched. `IntegerStubs` compares that
function with what the stubs do.
-/

namespace RegisterJit

open X86 (Reg Cond Instr Label Cpu Width)
open X86.Cpu

/-! ## Operators on integers -/

namespace BinaryOp

/-- The exact result of an addition, a subtraction or a multiplication. -/
def exact (op : BinaryOp) (i j : Int) : Int :=
  match op with
  | .add => i + j
  | .subtract => i - j
  | _ => i * j

/-- Whether an operator leaves two integers to its stub. -/
def leaves (op : BinaryOp) (i j : Int) : Bool :=
  match op with
  | .multiply => i * j = 0 ∧ (i < 0 ∨ j < 0)
  | .divide => j = 0 ∨ j = -1 ∨ (i = 0 ∧ j < 0) ∨ ¬ j ∣ i
  | .modulo => i < 0 ∨ j ≤ 0
  | _ => false

/-- Whether an operator has an inline path for integers. -/
def inline : BinaryOp → Bool
  | .instanceOf | .memberOf => false
  | _ => true

/-- What the inline path of an operator makes of two integers. -/
def onIntegers (op : BinaryOp) (u v : UInt32) : Value :=
  match op with
  | .add | .subtract | .multiply => .number (.ofInt (op.exact (signed32 u) (signed32 v)))
  | .divide => .int32 (.ofInt ((signed32 u).tdiv (signed32 v)))
  | .modulo => .int32 (.ofInt (signed32 u % signed32 v))
  | .shiftLeft => .int32 (u <<< (v &&& 31))
  | .shiftRight => .ofInt (signed32 u >>> (v &&& 31).toNat)
  | .shiftRightLogical => .number (.ofInt (u >>> (v &&& 31)).toNat)
  | .bitAnd => .int32 (u &&& v)
  | .bitXor => .int32 (u ^^^ v)
  | .bitOr => .int32 (u ||| v)
  | .compare k => .ofBool (k.holds (signed32 u) (signed32 v))
  | .instanceOf | .memberOf => .empty

end BinaryOp

namespace Stub

/-- Whether the operator of a stub has an inline path for integers. -/
def inline : Stub → Bool
  | .unaryNegative | .unaryBitNot | .increment | .decrement => true
  | _ => false

def leaves (s : Stub) (i : Int) : Bool := s = .unaryNegative ∧ (i = 0 ∨ i = -2 ^ 31)

/-- What the inline path of an operator makes of an integer. Numbers pass through conversions. -/
def onInteger (s : Stub) (u : UInt32) : Value :=
  match s with
  | .unaryNegative => .int32 (.ofInt (-signed32 u))
  | .unaryBitNot => .int32 (~~~u)
  | .increment => .number (.ofInt (signed32 u + 1))
  | .decrement => .number (.ofInt (signed32 u + -1))
  | _ => .int32 u

end Stub

namespace X86

theorem Width.clip_toUInt64 (u : UInt32) : Width.clip .w32 u.toUInt64 = u.toUInt64 := by
  rw [Width.clip_w32, UInt32.toUInt32_toUInt64]

theorem Flags.tested {x : UInt64} {u : UInt32} (hx : x.toUInt32 = u) :
    (Flags.ofBits .w32 (Width.clip .w32 (x &&& x))).zero = decide (signed32 u = 0) ∧
      (Flags.ofBits .w32 (Width.clip .w32 (x &&& x))).sign = decide (signed32 u < 0) := by
  rw [UInt64.and_self, Width.clip_w32, hx, zero_ofBits, sign_ofBits]
  exact ⟨zero_toUInt64 u, Width.isNegative_toUInt64 u⟩

namespace Cpu

variable {c : Cpu} {u v : UInt32}

theorem effect_add32 {dst src : Reg} (hu : (c.reg dst).toUInt32 = u) (hv : (c.reg src).toUInt32 = v) :
    c.effect (.alu .add .w32 dst src) = some ((c.setReg dst (u + v).toUInt64).setFlags
      (.ofSum .w32 u.toUInt64 v.toUInt64 (u + v).toUInt64)) := by
  rw [effect_add, Width.clip_w32 (c.reg dst), Width.clip_w32 (c.reg src), hu, hv, Width.clip_w32,
    UInt64.toUInt32_add, UInt32.toUInt32_toUInt64, UInt32.toUInt32_toUInt64]

theorem effect_addImm32 {dst : Reg} {imm : Int32} (hu : (c.reg dst).toUInt32 = u)
    (hv : (displacementWord imm).toUInt32 = v) :
    c.effect (.aluImm .add .w32 dst imm) = some ((c.setReg dst (u + v).toUInt64).setFlags
      (.ofSum .w32 u.toUInt64 v.toUInt64 (u + v).toUInt64)) := by
  rw [effect_addImm, Width.clip_w32 (c.reg dst), Width.clip_w32 (displacementWord imm), hu, hv, Width.clip_w32,
    UInt64.toUInt32_add, UInt32.toUInt32_toUInt64, UInt32.toUInt32_toUInt64]

theorem effect_sub32 {dst src : Reg} (hu : (c.reg dst).toUInt32 = u) (hv : (c.reg src).toUInt32 = v) :
    c.effect (.alu .sub .w32 dst src) = some ((c.setReg dst (u - v).toUInt64).setFlags
      (.ofDifference .w32 u.toUInt64 v.toUInt64 (u - v).toUInt64)) := by
  rw [effect_sub, Width.clip_w32 (c.reg dst), Width.clip_w32 (c.reg src), hu, hv, Width.clip_w32,
    UInt64.toUInt32_sub, UInt32.toUInt32_toUInt64, UInt32.toUInt32_toUInt64]

theorem effect_imul32 {dst src : Reg} (hu : (c.reg dst).toUInt32 = u) (hv : (c.reg src).toUInt32 = v) :
    ∃ f, c.effect (.imul .w32 dst src) = some ((c.setReg dst
        (UInt32.ofInt (signed32 u * signed32 v)).toUInt64).setFlags f) ∧
      f.overflow = decide (¬ FitsInt32 (signed32 u * signed32 v)) := by
  have hproduct : c.effect (.imul .w32 dst src) = some (c.multiply .w32 dst src) := rfl
  rw [hproduct, multiply, Width.toInt_w32, Width.toInt_w32, hu, hv, Width.ofInt_w32, Width.toInt_w32,
    UInt32.toUInt32_toUInt64]
  refine ⟨_, rfl, ?_⟩
  rw [Bool.eq_iff_iff, bne_iff_ne, decide_eq_true_eq]
  exact not_congr ⟨fun h => h ▸ fitsInt32_signed32 _, signed32_ofInt⟩

theorem effect_neg32 {dst : Reg} (hu : (c.reg dst).toUInt32 = u) :
    c.effect (.neg32 dst) = some ((c.setReg dst (-u).toUInt64).setFlags
      (.ofDifference .w32 0 u.toUInt64 (-u).toUInt64)) := by
  have hneg : Width.clip .w32 (0 - u.toUInt64) = (-u).toUInt64 := by
    rw [Width.clip_w32, UInt64.zero_sub, UInt64.toUInt32_neg, UInt32.toUInt32_toUInt64]
  change some ((c.setReg dst (Width.clip .w32 (0 - Width.clip .w32 (c.reg dst)))).setFlags (.ofDifference .w32 0
    (Width.clip .w32 (c.reg dst)) (Width.clip .w32 (0 - Width.clip .w32 (c.reg dst))))) = _
  rw [Width.clip_w32 (c.reg dst), hu, hneg]

theorem effect_not32 {dst : Reg} (hu : (c.reg dst).toUInt32 = u) :
    c.effect (.not32 dst) = some (c.setReg dst (~~~u).toUInt64) := by
  have hnot : Width.clip .w32 (~~~c.reg dst) = (~~~u).toUInt64 := by
    rw [Width.clip_w32, UInt64.toUInt32_not, hu]
  exact congrArg (fun x => some (c.setReg dst x)) hnot

theorem effect_narrow (op : BinaryOp) {dst src : Reg} (hu : (c.reg dst).toUInt32 = u)
    (hv : (c.reg src).toUInt32 = v) :
    ∃ f, c.effect (Emit.arithInstr op .w32 dst src) = some ((c.setReg dst
        (UInt32.ofInt (op.exact (signed32 u) (signed32 v))).toUInt64).setFlags f) ∧
      f.overflow = decide (¬ FitsInt32 (op.exact (signed32 u) (signed32 v))) := by
  cases op with
  | add =>
    refine ⟨_, effect_add32 hu hv |>.trans ?_, Flags.overflow_ofSum u v⟩
    rw [add_eq_ofInt]
    rfl
  | subtract =>
    refine ⟨_, effect_sub32 hu hv |>.trans ?_, Flags.overflow_ofDifference u v⟩
    rw [sub_eq_ofInt]
    rfl
  | _ => exact effect_imul32 hu hv

theorem effect_shift32 (op : ShiftOp) (hu : (c.reg .rax).toUInt32 = u) (hv : (c.reg .rcx).toUInt32 = v) :
    ∃ f, c.effect (.shift32 op .rax) = some ((c.setReg .rax (match op with
      | .shl => u <<< (v &&& 31)
      | .shr => u >>> (v &&& 31)
      | .sar => UInt32.ofInt (signed32 u >>> (v &&& 31).toNat)).toUInt64).setFlags f) := by
  change ∃ f, some (c.shift op .rax) = _
  rw [← shiftRight_eq_ofInt]
  unfold X86.Cpu.shift
  rw [hu, hv]
  cases op
  all_goals
    dsimp only
    split
    · exact ⟨c.flags, rfl⟩
    · exact ⟨_, rfl⟩

theorem toInt_w64_fits {i : Int} (h : FitsInt32 i) : Width.toInt .w64 (UInt64.ofInt i) = i :=
  Width.toInt_w64_ofInt (by have := h.1; omega) (by have := h.2; omega)

theorem effect_wide (op : BinaryOp) {dst src : Reg} {i j : Int} (hi : FitsInt32 i) (hj : FitsInt32 j)
    (hdst : c.reg dst = UInt64.ofInt i) (hsrc : c.reg src = UInt64.ofInt j) :
    ∃ f, c.effect (Emit.arithInstr op .w64 dst src) =
      some ((c.setReg dst (UInt64.ofInt (op.exact i j))).setFlags f) := by
  have hproduct : ∃ f, c.multiply .w64 dst src = (c.setReg dst (UInt64.ofInt (i * j))).setFlags f := by
    rw [multiply, hdst, hsrc, toInt_w64_fits hi, toInt_w64_fits hj]
    exact ⟨_, rfl⟩
  have hdifference : UInt64.ofInt i - UInt64.ofInt j = UInt64.ofInt (i - j) := by
    rw [UInt64.sub_eq_add_neg, ← UInt64.ofInt_neg, ← UInt64.ofInt_add, ← Int.sub_eq_add_neg]
  cases op with
  | add =>
    change ∃ f, c.effect (.alu .add .w64 dst src) = _
    rw [effect_add, Width.clip_w64, Width.clip_w64, Width.clip_w64, hdst, hsrc, ← UInt64.ofInt_add]
    exact ⟨_, rfl⟩
  | subtract =>
    change ∃ f, c.effect (.alu .sub .w64 dst src) = _
    rw [effect_sub, Width.clip_w64, Width.clip_w64, Width.clip_w64, hdst, hsrc, hdifference]
    exact ⟨_, rfl⟩
  | _ => exact hproduct.imp fun f hf => congrArg some hf

theorem toInt_exact (op : BinaryOp) {i j : Int} (hi : FitsInt32 i) (hj : FitsInt32 j) :
    Width.toInt .w64 (UInt64.ofInt (op.exact i j)) = op.exact i j := by
  obtain ⟨hi, hi'⟩ := hi
  obtain ⟨hj, hj'⟩ := hj
  have hproduct : (i * j).natAbs ≤ 2 ^ 31 * 2 ^ 31 := by
    rw [Int.natAbs_mul]
    exact Nat.mul_le_mul (by omega) (by omega)
  refine Width.toInt_w64_ofInt ?_ ?_ <;> cases op <;> simp only [BinaryOp.exact] <;> omega

end Cpu

end X86

/-! ## Steps -/

theorem UInt64.or_and_distrib (a b c : UInt64) : a ||| b &&& c = (a ||| b) &&& (a ||| c) := by
  rw [← UInt64.toNat_inj]
  simp only [UInt64.toNat_and, UInt64.toNat_or, Nat.or_and_distrib_left]

namespace Piece

variable {word : Label → UInt64} {c : Cpu} {jump : Option Label} {l : Label} {Q : Cpu → Prop} {ps : List Piece}
  {u v : UInt32}

theorem Carries.mov32 {dst src : Reg} (hdst : ∀ q ∈ Machine.roleRegs, dst.slot ≠ q.slot)
    (hu : (c.reg src).toUInt32 = u) (h : Carries word ps (c.setReg dst u.toUInt64) jump Q) :
    Carries word (.instr (.mov .w32 dst src) :: ps) c jump Q := by
  refine .instr rfl (effect_mov ..) (computes_setReg _ hdst _) ?_
  rwa [Width.clip_w32, hu]

theorem Carries.test32 {r : Reg} (hu : (c.reg r).toUInt32 = u)
    (h : ∀ f : X86.Flags, f.zero = decide (signed32 u = 0) → f.sign = decide (signed32 u < 0) →
      f.overflow = false → Carries word ps (c.setFlags f) jump Q) :
    Carries word (.instr (.test .w32 r r) :: ps) c jump Q := by
  obtain ⟨hzero, hsign⟩ := X86.Flags.tested hu
  exact .instr rfl (effect_test ..) (computes_setFlags _ _) (h _ hzero hsign rfl)

theorem Carries.cmpImm32 {r : Reg} {imm : Int32} (hu : (c.reg r).toUInt32 = u)
    (h : ∀ f : X86.Flags, f.zero = decide (signed32 u = signed32 (X86.displacementWord imm).toUInt32) →
      Carries word ps (c.setFlags f) jump Q) :
    Carries word (.instr (.aluImm .cmp .w32 r imm) :: ps) c jump Q := by
  have hzero := (X86.Flags.compared_order (c.reg r) (X86.displacementWord imm)).1
  rw [hu] at hzero
  exact .instr rfl (effect_cmpImm ..) (computes_setFlags _ _) (h _ hzero)

theorem Carries.divide (hu : (c.reg .rax).toUInt32 = u) (hv : (c.reg .rcx).toUInt32 = v)
    (hzero : signed32 v ≠ 0) (hfits : FitsInt32 ((signed32 u).tdiv (signed32 v)))
    (h : ∀ d, c.Computes d → d.reg .rax = (UInt32.ofInt ((signed32 u).tdiv (signed32 v))).toUInt64 →
      d.reg .rdx = (UInt32.ofInt ((signed32 u).tmod (signed32 v))).toUInt64 → Carries word ps d jump Q) :
    Carries word (.instr .cdq :: .instr (.idiv32 .rcx) :: ps) c jump Q := by
  have hcdq : c.effect .cdq =
      some (c.setReg .rdx (if Width.isNegative .w32 u.toUInt64 then 0xffffffff else 0)) := by
    have hsign : Width.isNegative .w32 (c.reg .rax) = Width.isNegative .w32 u.toUInt64 := by
      rw [Width.isNegative_w32, Width.isNegative_w32, ← hu, UInt32.toNat_toUInt64, UInt64.toNat_toUInt32,
        Nat.testBit_mod_two_pow, decide_eq_true (by decide : 31 < 32), Bool.true_and]
    rw [← hsign]
    rfl
  refine .instr rfl hcdq (computes_setReg _ (by decide) _) ?_
  generalize hd : c.setReg .rdx (if Width.isNegative .w32 u.toUInt64 then 0xffffffff else 0) = d
  have hc : c.Computes d := hd ▸ computes_setReg _ (by decide) _
  have hrdx : d.reg .rdx = if Width.isNegative .w32 u.toUInt64 then 0xffffffff else 0 := by
    rw [← hd, reg_setReg_self]
  have hhigh : (d.reg .rdx).toUInt32.toUInt64 = if Width.isNegative .w32 u.toUInt64 then 0xffffffff else 0 := by
    rw [hrdx]
    split <;> rfl
  have hdivide : d.effect (.idiv32 .rcx) =
      some ((d.setReg .rax (UInt32.ofInt ((signed32 u).tdiv (signed32 v))).toUInt64).setReg .rdx
        (UInt32.ofInt ((signed32 u).tmod (signed32 v))).toUInt64) := by
    have hrax : (d.reg .rax).toUInt32 = u := by rw [← hd, reg_setReg_of_ne _ _ (by decide), hu]
    have hrcx : (d.reg .rcx).toUInt32 = v := by rw [← hd, reg_setReg_of_ne _ _ (by decide), hv]
    have hdividend := Width.dividend_eq u
    rw [← hhigh] at hdividend
    change d.divide .rcx = _
    rw [Cpu.divide, Width.toInt_w32, hrax, hrcx, hdividend, toInt_w64_fits (fitsInt32_signed32 u), if_neg hzero]
    dsimp only
    rw [if_neg (by have := hfits.1; have := hfits.2; omega), Width.ofInt_w32, Width.ofInt_w32]
  refine .instr rfl hdivide (((Computes.refl d).setReg (by decide) _).setReg (by decide) _) (h _ ?_ ?_ ?_)
  · exact (hc.setReg (by decide) _).setReg (by decide) _
  · rw [reg_setReg_of_ne _ _ (by decide), reg_setReg_self]
  · rw [reg_setReg_self]

end Piece

namespace Emit

/-- The pieces that leave zero and another integer to the stub. -/
def refusePieces (r : Reg) (imm : Int32) (slow : Label) : List Piece :=
  [.instr (.test .w32 r r), .jcc .e slow, .instr (.aluImm .cmp .w32 r imm), .jcc .e slow]

/-- The pieces that leave a zero product with a negative factor to the stub. -/
def productPieces (slow nonzero : Label) : List Piece :=
  [.instr (.test .w32 .rcx .rcx), .jcc .ne nonzero, .instr (.mov .w32 .r8 .rax),
    .instr (.alu .or .w32 .r8 .rdx), .jcc .s slow, .bind nonzero]

/-- The pieces that leave zero by a negative number to the stub. -/
def quotientPieces (slow nonzero : Label) : List Piece :=
  [.instr (.test .w32 .rax .rax), .jcc .ne nonzero, .instr (.test .w32 .rcx .rcx), .jcc .s slow, .bind nonzero]

end Emit

namespace Piece

variable {word : Label → UInt64} {c : Cpu} {u v : UInt32} {slow nonzero : Label}

theorem carries_refusePieces {r : Reg} (imm : Int32) (hu : (c.reg r).toUInt32 = u) :
    Carries word (Emit.refusePieces r imm slow) c (if decide (signed32 u = 0) ||
        decide (signed32 u = signed32 (X86.displacementWord imm).toUInt32) then some slow else none)
      fun d => ∃ f, d = c.setFlags f := by
  refine .test32 hu fun f hzero _ _ => ?_
  by_cases h0 : signed32 u = 0
  · rw [decide_eq_true h0] at hzero ⊢
    exact .leave hzero (by simp) ⟨f, rfl⟩
  rw [decide_eq_false h0] at hzero ⊢
  refine .stay hzero (.cmpImm32 hu fun g hequal => ?_)
  by_cases h1 : signed32 u = signed32 (X86.displacementWord imm).toUInt32
  · rw [decide_eq_true h1] at hequal ⊢
    exact .leave hequal (by simp) ⟨g, rfl⟩
  · rw [decide_eq_false h1] at hequal ⊢
    exact .stay hequal (.nil ⟨g, rfl⟩)

theorem carries_quotientPieces (hu : (c.reg .rax).toUInt32 = u) (hv : (c.reg .rcx).toUInt32 = v)
    (hlabel : slow ≠ nonzero) :
    Carries word (Emit.quotientPieces slow nonzero) c
      (if decide (signed32 u = 0) && decide (signed32 v < 0) then some slow else none)
      fun d => ∃ f, d = c.setFlags f := by
  refine .test32 hu fun f hzero _ _ => ?_
  by_cases h0 : signed32 u = 0
  · rw [decide_eq_true h0] at hzero ⊢
    refine .stay (by rw [X86.holds_ne, flags_setFlags, hzero]; rfl) (.test32 hv fun g _ hsign _ => ?_)
    by_cases hneg : signed32 v < 0
    · rw [decide_eq_true hneg] at hsign ⊢
      exact .leave hsign (by simp [hlabel]) ⟨g, rfl⟩
    · rw [decide_eq_false hneg] at hsign ⊢
      exact .stay hsign (.bind (.nil ⟨g, rfl⟩))
  · rw [decide_eq_false h0] at hzero ⊢
    have htaken : Cond.ne.holds (c.setFlags f).flags = true := by rw [X86.holds_ne, flags_setFlags, hzero]; rfl
    exact .land htaken [_, _] (by simp) (.nil ⟨f, rfl⟩)

theorem carries_productPieces {r : UInt32} (hr : (c.reg .rcx).toUInt32 = r) (hu : (c.reg .rax).toUInt32 = u)
    (hv : (c.reg .rdx).toUInt32 = v) (hlabel : slow ≠ nonzero) :
    Carries word (Emit.productPieces slow nonzero) c
      (if decide (signed32 r = 0) && decide (signed32 u < 0 ∨ signed32 v < 0) then some slow else none)
      fun d => d.reg .rcx = c.reg .rcx := by
  refine .test32 hr fun f hzero _ _ => ?_
  by_cases h0 : signed32 r = 0
  · rw [decide_eq_true h0] at hzero ⊢
    refine .stay (by rw [X86.holds_ne, flags_setFlags, hzero]; rfl) (.mov32 (by decide) hu ?_)
    refine .instr rfl (effect_or ..) (((Computes.refl _).setReg (by decide) _).setFlags _) ?_
    have hsign : Cond.s.holds (X86.Flags.ofBits .w32 (Width.clip .w32 (((c.setFlags f).setReg .r8
        u.toUInt64).reg .r8) ||| Width.clip .w32 (((c.setFlags f).setReg .r8 u.toUInt64).reg .rdx))) =
        decide (signed32 u < 0 ∨ signed32 v < 0) := by
      rw [reg_setReg_self, reg_setReg_of_ne _ _ (by decide), reg_setFlags, Width.clip_toUInt64, Width.clip_w32, hv,
        ← UInt32.toUInt64_or, X86.holds_s, X86.Flags.sign_ofBits, Width.isNegative_toUInt64]
      exact decide_eq_decide.2 Width.signed32_or_neg
    by_cases hneg : signed32 u < 0 ∨ signed32 v < 0
    · rw [decide_eq_true hneg] at hsign ⊢
      exact .leave hsign (by simp [hlabel]) (by simp [reg_setReg])
    · rw [decide_eq_false hneg] at hsign ⊢
      exact .stay hsign (.bind (.nil (by simp [reg_setReg])))
  · rw [decide_eq_false h0] at hzero ⊢
    have htaken : Cond.ne.holds (c.setFlags f).flags = true := by rw [X86.holds_ne, flags_setFlags, hzero]; rfl
    exact .land htaken [_, _, _] (by simp) (.nil rfl)

/-- 32-bit arithmetic that is done again in 64 bits when it overflows. -/
theorem carries_overflowPieces (leaves : Bool) (slow : Label) {narrow : Instr} {checks wide : List Piece}
    {overflow done : Label} {i : Int} (hmask : c.reg maskReg = Value.numberMask) (hu : (c.reg .rax).toUInt32 = u)
    (hstraight : narrow.straight = true)
    (hnarrow : ∃ f, (c.setReg .rcx u.toUInt64).effect narrow =
        some (((c.setReg .rcx u.toUInt64).setReg .rcx (UInt32.ofInt i).toUInt64).setFlags f) ∧
      f.overflow = decide (¬ FitsInt32 i))
    (hchecks : FitsInt32 i → ∀ d, d.reg .rcx = (UInt32.ofInt i).toUInt64 → d.reg .rax = c.reg .rax →
      d.reg .rdx = c.reg .rdx → Carries word checks d (if leaves then some slow else none)
        fun e => e.reg .rcx = d.reg .rcx)
    (hwide : ∀ d, d.reg .rcx = UInt64.ofInt (signed32 u) → d.reg .rdx = c.reg .rdx →
      Carries word wide d none fun e => Width.toInt .w64 (e.reg .rcx) = i)
    (hleaves : leaves = true → FitsInt32 i) (hbinds : ∀ l, .bind l ∉ wide) (hslow : slow ≠ overflow)
    (hdone : done ≠ overflow) (hoverflow : .bind overflow ∉ checks) :
    Carries word (Emit.overflowPieces narrow checks wide overflow done) c
      (some (if leaves then slow else done))
      fun d => leaves = false → d.reg .rax = (Value.number (Double.ofInt i)).word := by
  obtain ⟨f, hnarrow, hflag⟩ := hnarrow
  refine .mov32 (by decide) hu (.instr hstraight hnarrow (((Computes.refl _).setReg (by decide) _).setFlags f) ?_)
  have hrcx : (((c.setReg .rcx u.toUInt64).setReg .rcx (UInt32.ofInt i).toUInt64).setFlags f).reg .rcx =
      (UInt32.ofInt i).toUInt64 := by simp
  have hkept {r : Reg} (hr : Reg.rcx.slot ≠ r.slot) :
      (((c.setReg .rcx u.toUInt64).setReg .rcx (UInt32.ofInt i).toUInt64).setFlags f).reg r = c.reg r := by
    rw [reg_setFlags, reg_setReg_of_ne _ _ hr, reg_setReg_of_ne _ _ hr]
  have hholds : Cond.o.holds (((c.setReg .rcx u.toUInt64).setReg .rcx
      (UInt32.ofInt i).toUInt64).setFlags f).flags = decide (¬ FitsInt32 i) := hflag
  generalize ((c.setReg .rcx u.toUInt64).setReg .rcx (UInt32.ofInt i).toUInt64).setFlags f = d at *
  have hrax := hkept (r := .rax) (by decide)
  by_cases hfits : FitsInt32 i
  · refine .stay (hholds.trans (decide_eq_false (not_not_intro hfits))) ?_
    refine .gate (hchecks hfits d hrcx hrax (hkept (by decide))) ?_ id ?_
    · simp [Emit.boxPieces, Emit.boxDoublePieces, hslow, hbinds]
    · intro hleaves e he hq
      have hlow : (e.reg .rcx).toUInt32 = UInt32.ofInt i := by rw [hq, hrcx, UInt32.toUInt32_toUInt64]
      refine .mov32 (by decide) hlow ?_
      refine .finish hleaves (.skip ((carries_boxPieces ?_ (reg_setReg_self ..)).mono fun x _ hx => ?_) ?_)
      · rw [reg_setReg_of_ne _ _ (by decide), he.kept maskReg (by decide), hkept (by decide), hmask]
      · rw [hx, Value.number_ofInt_fits hfits]
      · simp [Emit.boxDoublePieces, hdone, hbinds]
  · refine .finish (Bool.eq_false_iff.2 fun h => hfits (hleaves h)) ?_
    have hassoc (rest : List Piece) : checks ++ .instr (.mov .w32 .rax .rcx) :: (Emit.boxPieces done ++
        .bind overflow :: rest) =
        (checks ++ .instr (.mov .w32 .rax .rcx) :: Emit.boxPieces done) ++ .bind overflow :: rest := by simp
    rw [hassoc]
    refine .land (hholds.trans (decide_eq_true hfits)) _ (by simp [hoverflow, Emit.boxPieces]) ?_
    refine .instr rfl (effect_movsxd ..) (computes_setReg _ (by decide) _) ?_
    refine (hwide _ ?_ ?_).append fun e _ hq => (carries_boxDoublePieces hq).mono fun x _ hx => ?_
    · rw [reg_setReg_self, hrax, hu]
    · rw [reg_setReg_of_ne _ _ (by decide), hkept (by decide)]
    · rw [hx, Value.number_ofInt_not_fits hfits]

end Piece

namespace Emit

/-- The pieces of addition, subtraction and multiplication of integers. -/
def arithPieces (op : BinaryOp) (base : Label) : List Piece :=
  overflowPieces (arithInstr op .w32 .rcx .rdx) (if op = .multiply then productPieces base (base + 3) else [])
    [.instr (.movsxd .rdx .rdx), .instr (arithInstr op .w64 .rcx .rdx)] (base + 1) (base + 2)

def dividePieces (base : Label) : List Piece :=
  .instr (.mov .w32 .rcx .rdx) :: (refusePieces .rcx (-1) base ++ (quotientPieces base (base + 1) ++
    .instr .cdq :: .instr (.idiv32 .rcx) :: .instr (.test .w32 .rdx .rdx) :: .jcc .ne base ::
      boxPieces (base + 2)))

def moduloPieces (base : Label) : List Piece :=
  .instr (.test .w32 .rax .rax) :: .jcc .s base :: .instr (.test .w32 .rdx .rdx) :: .jcc .le base ::
    .instr (.mov .w32 .rcx .rdx) :: .instr .cdq :: .instr (.idiv32 .rcx) :: .instr (.mov .w32 .rax .rdx) ::
      boxPieces (base + 1)

def shiftPieces (op : BinaryOp) (base : Label) : List Piece :=
  .instr (.mov .w32 .rcx .rdx) :: .instr (shiftInstr op) ::
    ((if op = .shiftRightLogical then .instr (.test .w32 .rax .rax) :: .jcc .ns (base + 2) ::
      (boxDoublePieces .rax (base + 1) ++ [.bind (base + 2)]) else []) ++ boxPieces (base + 1))

def bitwisePieces (op : BinaryOp) (base : Label) : List Piece :=
  match op with
  | .bitAnd => [.instr (.alu .and .w64 .rax .rdx), .jmp (base + 1)]
  | .bitOr => [.instr (.alu .or .w64 .rax .rdx), .jmp (base + 1)]
  | _ => .instr (.alu .xor .w32 .rax .rdx) :: boxPieces (base + 1)

def negatePieces (base : Label) : List Piece :=
  refusePieces .rax Int32.minValue base ++ .instr (.neg32 .rax) :: boxPieces (base + 1)

def bitNotPieces (base : Label) : List Piece := .instr (.not32 .rax) :: boxPieces (base + 1)

def stepPieces (delta : Int32) (base : Label) : List Piece :=
  overflowPieces (.aluImm .add .w32 .rcx delta) [] [.instr (.aluImm .add .w64 .rcx delta)] (base + 2) (base + 1)

end Emit

namespace Piece

variable {word : Label → UInt64} {c : Cpu} {u v : UInt32} (base : Label)
  (hmask : c.reg maskReg = Value.numberMask)

section

variable (hu : (c.reg .rax).toUInt32 = u) (hv : (c.reg .rdx).toUInt32 = v)

include hmask hu hv

theorem carries_arithPieces {op : BinaryOp} (hop : op = .add ∨ op = .subtract ∨ op = .multiply) :
    Carries word (Emit.arithPieces op base) c
      (some (if op.leaves (signed32 u) (signed32 v) then base else base + 2))
      fun d => op.leaves (signed32 u) (signed32 v) = false →
        d.reg .rax = (Value.number (Double.ofInt (op.exact (signed32 u) (signed32 v)))).word := by
  have hi := fitsInt32_signed32 u
  have hj := fitsInt32_signed32 v
  refine carries_overflowPieces _ base hmask hu ?_ ?_ ?_ ?_ ?_ ?_ ?_ ?_ ?_
  · rcases hop with rfl | rfl | rfl <;> rfl
  · exact effect_narrow op (by simp) (by rw [reg_setReg_of_ne _ _ (by decide), hv])
  · intro hfits d hrcx hrax hrdx
    rcases hop with rfl | rfl | rfl
    · exact .nil rfl
    · exact .nil rfl
    have hproduct : Carries word (Emit.productPieces base (base + 3)) d _ _ :=
      carries_productPieces (u := u) (v := v) (by rw [hrcx, UInt32.toUInt32_toUInt64]) (by rw [hrax, hu])
        (by rw [hrdx, hv]) (by simp)
    rwa [signed32_ofInt hfits, ← Bool.decide_and] at hproduct
  · intro d hrcx hrdx
    have hrdx : (d.reg .rdx).toUInt32 = v := hrdx ▸ hv
    refine .instr rfl (effect_movsxd ..) (computes_setReg _ (by decide) _) ?_
    rw [hrdx]
    have hrcx' : (d.setReg .rdx (UInt64.ofInt (signed32 v))).reg .rcx = UInt64.ofInt (signed32 u) := by
      rw [reg_setReg_of_ne _ _ (by decide), hrcx]
    obtain ⟨f, hwide⟩ := effect_wide op hi hj hrcx' (reg_setReg_self ..)
    refine .instr ?_ hwide (((Computes.refl _).setReg (by decide) _).setFlags f) (.nil ?_)
    · rcases hop with rfl | rfl | rfl <;> rfl
    · rw [reg_setFlags, reg_setReg_self, toInt_exact op hi hj]
  · intro hleaves
    rcases hop with rfl | rfl | rfl
    · cases hleaves
    · cases hleaves
    · rw [show BinaryOp.multiply.exact (signed32 u) (signed32 v) = 0 from (of_decide_eq_true hleaves).1]
      decide
  · simp
  · simp
  · simp
  · split <;> simp [Emit.productPieces]

theorem carries_dividePieces :
    Carries word (Emit.dividePieces base) c
      (some (if BinaryOp.divide.leaves (signed32 u) (signed32 v) then base else base + 2))
      fun d => BinaryOp.divide.leaves (signed32 u) (signed32 v) = false →
        d.reg .rax = (Value.int32 (UInt32.ofInt ((signed32 u).tdiv (signed32 v)))).word := by
  have hfinite := fitsInt32_signed32 u
  have hleaves : BinaryOp.divide.leaves (signed32 u) (signed32 v) = decide (signed32 v = 0 ∨ signed32 v = -1 ∨
    (signed32 u = 0 ∧ signed32 v < 0) ∨ ¬ signed32 v ∣ signed32 u) := rfl
  generalize BinaryOp.divide.leaves (signed32 u) (signed32 v) = leaves at *
  refine .mov32 (by decide) hv ?_
  have hrcx : ((c.setReg .rcx v.toUInt64).reg .rcx).toUInt32 = v := by simp
  have hrax : ((c.setReg .rcx v.toUInt64).reg .rax).toUInt32 = u := by
    rw [reg_setReg_of_ne _ _ (by decide), hu]
  have hmask' : (c.setReg .rcx v.toUInt64).reg maskReg = Value.numberMask := by
    rw [reg_setReg_of_ne _ _ (by decide), hmask]
  generalize c.setReg .rcx v.toUInt64 = d at *
  refine .gate (carries_refusePieces (-1) hrcx) (by simp [Emit.quotientPieces, Emit.boxPieces]) ?_ ?_
  · intro ha
    rw [Bool.or_eq_true, decide_eq_true_eq, decide_eq_true_eq] at ha
    exact hleaves.trans (decide_eq_true (ha.elim .inl fun h => .inr (.inl h)))
  rintro ha d' hd' ⟨f, rfl⟩
  rw [Bool.or_eq_false_iff, decide_eq_false_iff_not, decide_eq_false_iff_not] at ha
  obtain ⟨hzero, hminus⟩ := ha
  refine .gate (carries_quotientPieces hrax hrcx (by simp)) (by simp [Emit.boxPieces]) ?_ ?_
  · intro ha
    rw [← Bool.decide_and, decide_eq_true_eq] at ha
    exact hleaves.trans (decide_eq_true (.inr (.inr (.inl ha))))
  rintro ha d'' hd'' ⟨g, rfl⟩
  rw [← Bool.decide_and, decide_eq_false_iff_not] at ha
  have hfits := hfinite.tdiv hzero hminus
  refine .divide hrax hrcx hzero hfits fun e he hquotient hremainder => ?_
  refine .test32 (u := UInt32.ofInt ((signed32 u).tmod (signed32 v))) (by simp [hremainder]) fun f' hf _ _ => ?_
  rw [signed32_ofInt ((fitsInt32_signed32 v).tmod hzero _)] at hf
  have hinexact : Cond.ne.holds (e.setFlags f').flags = decide (¬ signed32 v ∣ signed32 u) := by
    rw [X86.holds_ne, flags_setFlags, hf, ← decide_not, decide_eq_decide, Int.dvd_iff_tmod_eq_zero]
  by_cases hdvd : signed32 v ∣ signed32 u
  · rw [decide_eq_false (not_not_intro hdvd)] at hinexact
    refine .stay hinexact (.finish (hleaves.trans (decide_eq_false (by tauto))) (carries_boxPieces ?_ hquotient))
    rw [reg_setFlags, he.kept maskReg (by decide), hd''.kept maskReg (by decide), hd'.kept maskReg (by decide),
      hmask']
  · rw [decide_eq_true hdvd] at hinexact
    obtain rfl : leaves = true := hleaves.trans (decide_eq_true (by tauto))
    exact .leave hinexact (by simp [Emit.boxPieces]) nofun

theorem carries_moduloPieces :
    Carries word (Emit.moduloPieces base) c
      (some (if BinaryOp.modulo.leaves (signed32 u) (signed32 v) then base else base + 1))
      fun d => BinaryOp.modulo.leaves (signed32 u) (signed32 v) = false →
        d.reg .rax = (Value.int32 (UInt32.ofInt (signed32 u % signed32 v))).word := by
  have hleaves : BinaryOp.modulo.leaves (signed32 u) (signed32 v) = decide (signed32 u < 0 ∨ signed32 v ≤ 0) := rfl
  generalize BinaryOp.modulo.leaves (signed32 u) (signed32 v) = leaves at *
  refine .test32 hu fun f _ hsign _ => ?_
  by_cases hneg : signed32 u < 0
  · obtain rfl : leaves = true := hleaves.trans (decide_eq_true (.inl hneg))
    exact .leave (hsign.trans (decide_eq_true hneg)) (by simp [Emit.boxPieces]) nofun
  refine .stay (hsign.trans (decide_eq_false hneg)) (.test32 hv fun g hzero hsign' hoverflow => ?_)
  have hle : Cond.le.holds ((c.setFlags f).setFlags g).flags = decide (signed32 v ≤ 0) := by
    rw [X86.holds_le, flags_setFlags, hzero, hsign', hoverflow, Bool.bne_false, ← Bool.decide_or, decide_eq_decide]
    omega
  by_cases hdivisor : signed32 v ≤ 0
  · obtain rfl : leaves = true := hleaves.trans (decide_eq_true (.inr hdivisor))
    exact .leave (hle.trans (decide_eq_true hdivisor)) (by simp [Emit.boxPieces]) nofun
  refine .stay (hle.trans (decide_eq_false hdivisor)) (.mov32 (by decide) hv ?_)
  have hzero : signed32 v ≠ 0 := by omega
  have hremainder : (signed32 u).tmod (signed32 v) = signed32 u % signed32 v :=
    Int.tmod_eq_emod_of_nonneg (by omega)
  refine .divide (u := u) (v := v) (by rw [reg_setReg_of_ne _ _ (by decide)]; exact hu) (by simp) hzero
    ((fitsInt32_signed32 u).tdiv hzero (by omega)) fun d hd _ hrdx => ?_
  refine .mov32 (by decide) (u := UInt32.ofInt (signed32 u % signed32 v)) (by simp [hrdx, hremainder]) ?_
  refine .finish (hleaves.trans (decide_eq_false (by omega))) (carries_boxPieces ?_ (reg_setReg_self ..))
  rw [reg_setReg_of_ne _ _ (by decide), hd.kept maskReg (by decide), reg_setReg_of_ne _ _ (by decide)]
  exact hmask

theorem carries_shiftPieces {op : BinaryOp} (hop : op = .shiftLeft ∨ op = .shiftRight ∨ op = .shiftRightLogical) :
    Carries word (Emit.shiftPieces op base) c (some (base + 1)) fun d => d.reg .rax =
      (match op with
        | .shiftLeft => Value.int32 (u <<< (v &&& 31))
        | .shiftRight => Value.ofInt (signed32 u >>> (v &&& 31).toNat)
        | _ => Value.number (Double.ofInt (u >>> (v &&& 31)).toNat)).word := by
  refine .mov32 (by decide) hv ?_
  have hrax : ((c.setReg .rcx v.toUInt64).reg .rax).toUInt32 = u := by
    rw [reg_setReg_of_ne _ _ (by decide), hu]
  have hrcx : ((c.setReg .rcx v.toUInt64).reg .rcx).toUInt32 = v := by simp
  have hmask' (x : UInt64) (f : X86.Flags) :
      (((c.setReg .rcx v.toUInt64).setReg .rax x).setFlags f).reg maskReg = Value.numberMask := by
    rw [reg_setFlags, reg_setReg_of_ne _ _ (by decide), reg_setReg_of_ne _ _ (by decide), hmask]
  rcases hop with rfl | rfl | rfl
  · obtain ⟨f, hshift⟩ := effect_shift32 .shl hrax hrcx
    exact .instr rfl hshift (((Computes.refl _).setReg (by decide) _).setFlags f)
      (carries_boxPieces (hmask' _ f) (reg_setReg_self ..))
  · obtain ⟨f, hshift⟩ := effect_shift32 .sar hrax hrcx
    exact .instr rfl hshift (((Computes.refl _).setReg (by decide) _).setFlags f)
      (carries_boxPieces (hmask' _ f) (reg_setReg_self ..))
  obtain ⟨f, hshift⟩ := effect_shift32 .shr hrax hrcx
  refine .instr rfl hshift (((Computes.refl _).setReg (by decide) _).setFlags f) ?_
  specialize hmask' (u >>> (v &&& 31)).toUInt64 f
  dsimp only
  generalize u >>> (v &&& 31) = r at *
  generalize hd : ((c.setReg .rcx v.toUInt64).setReg .rax r.toUInt64).setFlags f = d at *
  have hr : d.reg .rax = r.toUInt64 := by rw [← hd, reg_setFlags, reg_setReg_self]
  have hlt := r.toNat_lt
  refine .test32 (u := r) (by rw [hr, UInt32.toUInt32_toUInt64]) fun g _ hsign _ => ?_
  rw [signed32_eq] at hsign
  by_cases hbig : r.toNat < 2 ^ 31
  · have hvalue : Value.number (Double.ofInt r.toNat) = Value.int32 r := by
      rw [← Value.number_ofInt_signed32, signed32_eq, if_pos hbig]
    rw [hvalue]
    refine .land ?_ (Emit.boxDoublePieces .rax (base + 1)) (by simp [Emit.boxDoublePieces])
      (carries_boxPieces (by rw [reg_setFlags, hmask']) hr)
    rw [X86.holds_ns, flags_setFlags, hsign, if_pos hbig, decide_eq_false (by omega)]
    rfl
  · have hvalue : Value.number (Double.ofInt r.toNat) = Value.double (Double.ofInt r.toNat) :=
      Value.number_ofInt_not_fits fun h => hbig (by have := h.2; omega)
    have hbox : Carries word (Emit.boxDoublePieces .rax (base + 1)) (d.setFlags g) (some (base + 1))
        fun e => e.reg .rax = (Value.double (Double.ofInt r.toNat)).word :=
      carries_boxDoublePieces (by rw [reg_setFlags, hr, Width.toInt_w64_toUInt64])
    rw [hvalue]
    refine .stay ?_ (hbox.skip (by simp [Emit.boxPieces]))
    rw [X86.holds_ns, flags_setFlags, hsign, if_neg hbig, decide_eq_true (by omega)]
    rfl

end

section

variable (hu : c.reg .rax = (Value.int32 u).word)

include hmask hu

theorem carries_bitwisePieces {op : BinaryOp} (hop : op = .bitAnd ∨ op = .bitXor ∨ op = .bitOr)
    (hv : c.reg .rdx = (Value.int32 v).word) :
    Carries word (Emit.bitwisePieces op base) c (some (base + 1)) fun d => d.reg .rax =
      (match op with
        | .bitAnd => Value.int32 (u &&& v)
        | .bitXor => Value.int32 (u ^^^ v)
        | _ => Value.int32 (u ||| v)).word := by
  have hdistrib (m a b : UInt64) : (m ||| a) ||| (m ||| b) = m ||| (a ||| b) := by ac_rfl
  rcases hop with rfl | rfl | rfl
  · refine .instr rfl (effect_and ..) (((Computes.refl c).setReg (by decide) _).setFlags _) (.jmp ?_)
    rw [reg_setFlags, reg_setReg_self, Width.clip_w64, Width.clip_w64, hu, hv]
    dsimp only
    rw [Value.word_int32, Value.word_int32, Value.word_int32, UInt32.toUInt64_and, UInt64.or_and_distrib]
  · refine .instr rfl (effect_xor ..) (((Computes.refl c).setReg (by decide) _).setFlags _)
      (carries_boxPieces ?_ ?_)
    · rw [reg_setFlags, reg_setReg_of_ne _ _ (by decide), hmask]
    · rw [reg_setFlags, reg_setReg_self, hu, hv, Width.clip_w32, Width.clip_w32, Value.toUInt32_word_int32,
        Value.toUInt32_word_int32, UInt32.toUInt64_xor]
  · refine .instr rfl (effect_or ..) (((Computes.refl c).setReg (by decide) _).setFlags _) (.jmp ?_)
    rw [reg_setFlags, reg_setReg_self, Width.clip_w64, Width.clip_w64, hu, hv]
    dsimp only
    rw [Value.word_int32, Value.word_int32, Value.word_int32, UInt32.toUInt64_or, hdistrib]

theorem carries_negatePieces :
    Carries word (Emit.negatePieces base) c
      (some (if decide (signed32 u = 0 ∨ signed32 u = -2 ^ 31) then base else base + 1))
      fun d => decide (signed32 u = 0 ∨ signed32 u = -2 ^ 31) = false →
        d.reg .rax = (Value.int32 (UInt32.ofInt (-signed32 u))).word := by
  have hlow : (c.reg .rax).toUInt32 = u := by rw [hu, Value.toUInt32_word_int32]
  refine .gate (carries_refusePieces Int32.minValue hlow) (by simp [Emit.boxPieces]) ?_ ?_
  · intro ha
    rw [← Bool.decide_or] at ha
    exact ha
  rintro ha d hd ⟨f, rfl⟩
  rw [← Bool.decide_or] at ha
  refine .instr rfl (effect_neg32 hlow) (((Computes.refl _).setReg (by decide) _).setFlags _)
    (.finish ha (carries_boxPieces ?_ ?_))
  · rw [reg_setFlags, reg_setReg_of_ne _ _ (by decide), reg_setFlags, hmask]
  · rw [reg_setFlags, reg_setReg_self, UInt32.ofInt_neg, ofInt_signed32]

theorem carries_bitNotPieces :
    Carries word (Emit.bitNotPieces base) c (some (base + 1))
      fun d => d.reg .rax = (Value.int32 (~~~u)).word := by
  have hlow : (c.reg .rax).toUInt32 = u := by rw [hu, Value.toUInt32_word_int32]
  refine .instr rfl (effect_not32 hlow) ((Computes.refl _).setReg (by decide) _) (carries_boxPieces ?_ ?_)
  · rw [reg_setReg_of_ne _ _ (by decide), hmask]
  · rw [reg_setReg_self]

theorem carries_stepPieces {delta : Int32} {k : Int} (hk : FitsInt32 k)
    (hdelta : X86.displacementWord delta = UInt64.ofInt k) :
    Carries word (Emit.stepPieces delta base) c (some (base + 1))
      fun d => d.reg .rax = (Value.number (Double.ofInt (signed32 u + k))).word := by
  have hlow : (c.reg .rax).toUInt32 = u := by rw [hu, Value.toUInt32_word_int32]
  have hi := fitsInt32_signed32 u
  have hrcx : ((c.setReg .rcx u.toUInt64).reg .rcx).toUInt32 = u := by simp
  have himm : (X86.displacementWord delta).toUInt32 = UInt32.ofInt k := by rw [hdelta, Width.toUInt32_ofInt]
  have hnarrow := effect_addImm32 hrcx himm
  have hoverflow := X86.Flags.overflow_ofSum u (UInt32.ofInt k)
  rw [add_eq_ofInt, signed32_ofInt hk] at hnarrow hoverflow
  refine (carries_overflowPieces false base hmask hlow rfl ⟨_, hnarrow, hoverflow⟩ (fun _ d _ _ _ => .nil rfl)
    ?_ nofun (by simp) (by simp) (by simp) (by simp)).mono fun d _ h => h rfl
  intro d hrcx _
  refine .instr rfl (effect_addImm ..) (((Computes.refl _).setReg (by decide) _).setFlags _) (.nil ?_)
  rw [reg_setFlags, reg_setReg_self, Width.clip_w64, Width.clip_w64, Width.clip_w64, hrcx, hdelta,
    ← UInt64.ofInt_add]
  exact toInt_exact .add hi hk

end

end Piece

/-! ## All operators -/

namespace Emit

def orderPieces (k : Comparison) (base : Label) : List Piece :=
  [.instr (.alu .cmp .w32 .rax .rdx), .instr (.setcc (comparisonCond k) .rax), .instr (.movzx8 .rax .rax),
    .instr (.aluImm .or .w64 .rax 6), .jmp (base + 1)]

/-- The pieces of an operator on two integers. The first new label is that of the call of the stub. -/
def inlinePieces (op : BinaryOp) (base : Label) : List Piece :=
  match op with
  | .add | .subtract | .multiply => arithPieces op base
  | .divide => dividePieces base
  | .modulo => moduloPieces base
  | .shiftLeft | .shiftRight | .shiftRightLogical => shiftPieces op base
  | .bitAnd | .bitXor | .bitOr => bitwisePieces op base
  | .compare k => orderPieces k base
  | .instanceOf | .memberOf => []

/-- The label after the call of the stub of an operator. -/
def inlineEnd (op : BinaryOp) (base : Label) : Label :=
  match op with
  | .add | .subtract | .multiply | .divide => base + 2
  | _ => base + 1

/-- The pieces of an operator on an integer. -/
def unaryPieces (s : Stub) (base : Label) : List Piece :=
  match s with
  | .unaryNegative => negatePieces base
  | .unaryBitNot => bitNotPieces base
  | .increment => stepPieces 1 base
  | .decrement => stepPieces (-1) base
  | _ => []

end Emit

namespace Piece

variable {word : Label → UInt64} {c : Cpu} {u v : UInt32} (base : Label)

theorem carries_orderPieces (k : Comparison) (hu : (c.reg .rax).toUInt32 = u) (hv : (c.reg .rdx).toUInt32 = v) :
    Carries word (Emit.orderPieces k base) c (some (base + 1))
      fun d => d.reg .rax = (Value.ofBool (k.holds (signed32 u) (signed32 v))).word := by
  have hholds := holds_comparisonCond k (c.reg .rax) (c.reg .rdx)
  rw [hu, hv] at hholds
  refine .instr rfl (effect_cmp ..) (computes_setFlags _ _) <|
    .instr rfl (effect_setcc ..) (computes_setReg _ (by decide) _) <|
    .instr rfl (effect_movzx8 ..) (computes_setReg _ (by decide) _) <|
    .instr rfl (effect_orImm ..) (((Computes.refl _).setReg (by decide) _).setFlags _) (.jmp ?_)
  rw [X86.Flags.compared] at hholds
  simp only [reg_setFlags, reg_setReg_self, flags_setFlags, hholds, Width.clip_w64]
  exact ofBool_of_octet ..

/-- The inline path of an operator leaves two integers to the stub or ends with the result. -/
theorem carries_inlinePieces {op : BinaryOp} (hop : op.inline = true) (hmask : c.reg maskReg = Value.numberMask)
    (hu : c.reg .rax = (Value.int32 u).word) (hv : c.reg .rdx = (Value.int32 v).word) :
    Carries word (Emit.inlinePieces op base) c
      (some (if op.leaves (signed32 u) (signed32 v) then base else Emit.inlineEnd op base))
      fun d => op.leaves (signed32 u) (signed32 v) = false → d.reg .rax = (op.onIntegers u v).word := by
  have hrax : (c.reg .rax).toUInt32 = u := by rw [hu, Value.toUInt32_word_int32]
  have hrdx : (c.reg .rdx).toUInt32 = v := by rw [hv, Value.toUInt32_word_int32]
  cases op with
  | add => exact carries_arithPieces base hmask hrax hrdx (.inl rfl)
  | subtract => exact carries_arithPieces base hmask hrax hrdx (.inr (.inl rfl))
  | multiply => exact carries_arithPieces base hmask hrax hrdx (.inr (.inr rfl))
  | divide => exact carries_dividePieces base hmask hrax hrdx
  | modulo => exact carries_moduloPieces base hmask hrax hrdx
  | shiftLeft => exact .finish rfl (carries_shiftPieces base hmask hrax hrdx (.inl rfl))
  | shiftRight => exact .finish rfl (carries_shiftPieces base hmask hrax hrdx (.inr (.inl rfl)))
  | shiftRightLogical => exact .finish rfl (carries_shiftPieces base hmask hrax hrdx (.inr (.inr rfl)))
  | bitAnd => exact .finish rfl (carries_bitwisePieces base hmask hu (.inl rfl) hv)
  | bitXor => exact .finish rfl (carries_bitwisePieces base hmask hu (.inr (.inl rfl)) hv)
  | bitOr => exact .finish rfl (carries_bitwisePieces base hmask hu (.inr (.inr rfl)) hv)
  | compare k => exact .finish rfl (carries_orderPieces base k hrax hrdx)
  | instanceOf | memberOf => cases hop

/-- The inline path of an operator leaves an integer to the stub or ends with the result. -/
theorem carries_unaryPieces {s : Stub} (hs : s.inline = true) (hmask : c.reg maskReg = Value.numberMask)
    (hu : c.reg .rax = (Value.int32 u).word) :
    Carries word (Emit.unaryPieces s base) c (some (if s.leaves (signed32 u) then base else base + 1))
      fun d => s.leaves (signed32 u) = false → d.reg .rax = (s.onInteger u).word := by
  have hone : FitsInt32 1 ∧ FitsInt32 (-1) := by decide
  cases s
  case unaryNegative =>
    have hleaves : Stub.unaryNegative.leaves (signed32 u) = decide (signed32 u = 0 ∨ signed32 u = -2 ^ 31) :=
      decide_eq_decide.2 (and_iff_right rfl)
    rw [hleaves]
    exact carries_negatePieces base hmask hu
  case unaryBitNot => exact .finish rfl (carries_bitNotPieces base hmask hu)
  case increment => exact .finish rfl (carries_stepPieces base hmask hu hone.1 rfl)
  case decrement => exact .finish rfl (carries_stepPieces base hmask hu hone.2 rfl)
  all_goals cases hs

end Piece

end RegisterJit
