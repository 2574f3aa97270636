import RegisterJit.Proofs.Conditions

/-!
# Forks

How code that decides on a condition is followed: it goes to a label or runs off its end, or it stops to ask a
stub and then decides on the truth that the stub answers with.

The two shapes of code that decides are a jump on a condition that flags already hold, and a call of a stub
followed by a comparison of its answer with the word for true. `follow_condition_shown` and
`follow_condition_asked` are the two for a truth, `follow_branch_integers` and `follow_compare_integers` those
for a comparison that is told inline, and `follow_operands` says when it is: both operands have the tag of
integers.

A test of the emitters masks a word, compares and jumps, and what it finds out is the class of the value. `Tests`
says that it forks on a property of the value that the word is, and `TestsAgree` lists the tests that emitters
write: integers, numbers, booleans, and the values that are null or undefined. These proofs are about bits:
`and_kind_eq` finds the kind of a value behind its tag. `Decisions` turns forks into runs, `Inline` starts with
the test for integers, and `Branching` uses the tests of jumps.
-/

namespace RegisterJit

open X86 (Reg Cond Instr Label Cpu)

@[simp] theorem X86.Cpu.setFlags_setFlags (c : Cpu) (f g : X86.Flags) :
    (c.setFlags f).setFlags g = c.setFlags g := rfl

theorem ofBool_of_octet (w : UInt64) (t : Bool) :
    ((w &&& ~~~(0xff : UInt64) ||| if t then 1 else 0) &&& 0xff) ||| 6 = (Value.ofBool t).word := by
  have hzero : (0xff : UInt64) &&& (w &&& ~~~(0xff : UInt64)) = 0 := by
    rw [UInt64.and_comm, UInt64.and_assoc, show ~~~(0xff : UInt64) &&& 0xff = 0 from rfl, UInt64.and_zero]
  rw [UInt64.and_comm, UInt64.and_or_distrib, hzero, UInt64.zero_or]
  cases t <;> rfl

namespace Piece

variable (word : Label → UInt64) {c : Cpu}

/-- A jump to a label, or none. -/
def Exit.fork (taken : Bool) (l : Label) (c : Cpu) : Exit := if taken then .goes l c else .falls c

theorem follow_guard (r : Reg) (slow : Label) (rest : List Piece)
    (hmask : c.reg maskReg = Value.numberMask) :
    ∃ f, follow word none (.instr (.alu .cmp .w64 r maskReg) :: .jcc .b slow :: rest) c =
      follow word (if (⟨c.reg r⟩ : Value).isInt32 then none else some slow) rest (c.setFlags f) := by
  simp only [follow_instr, X86.Instr.straight, X86.Cpu.effect_cmp, follow_jcc, X86.holds_b,
    X86.Cpu.flags_setFlags, X86.Flags.carry_ofDifference, X86.Width.clip_w64, hmask, Value.isInt32,
    ← UInt64.not_lt, decide_not, Bool.not_eq_true', decide_eq_false_iff_not, decide_eq_true_eq]
  split_ifs
  all_goals exact ⟨_, rfl⟩

theorem follow_guardPieces (slow : Label) (rest : List Piece)
    (hmask : c.reg maskReg = Value.numberMask) :
    ∃ f, follow word none (Emit.guardPieces slow ++ rest) c = follow word
      (if (⟨c.reg .rax⟩ : Value).isInt32 && (⟨c.reg .rdx⟩ : Value).isInt32 then none else some slow)
      rest (c.setFlags f) := by
  obtain ⟨f, hf⟩ := follow_guard word .rax slow
    (.instr (.alu .cmp .w64 .rdx maskReg) :: .jcc .b slow :: rest) hmask
  obtain ⟨g, hg⟩ := follow_guard word .rdx slow rest
    (show (c.setFlags f).reg maskReg = _ from hmask)
  rw [X86.Cpu.reg_setFlags, X86.Cpu.setFlags_setFlags] at hg
  rw [Emit.guardPieces, List.cons_append, List.cons_append, List.cons_append, List.cons_append,
    List.nil_append, hf]
  cases (⟨c.reg .rax⟩ : Value).isInt32 with
  | false => exact ⟨f, rfl⟩
  | true => exact ⟨g, hg⟩

theorem follow_jump_append (l : Label) {ps : List Piece} (h : .bind l ∉ ps) (rest : List Piece) :
    follow word (some l) (ps ++ .bind l :: rest) c = follow word none rest c := by
  induction ps with
  | nil => simp
  | cons p ps ih =>
    rw [List.mem_cons, not_or] at h
    rw [List.cons_append, follow, if_neg, ih h.2]
    intro hp
    cases p <;> cases hp
    exact h.1 rfl

theorem follow_slowPieces (thunk : Label) (op : BinaryOp) {left right : Int32} {a b : UInt64}
    (rest : List Piece) (ha : c.read (c.reg frameReg + X86.displacementWord left) = a)
    (hb : c.read (c.reg frameReg + X86.displacementWord right) = b) :
    (follow word none (Emit.slowPieces thunk op left right ++ rest) c).Stops (.call thunk :: rest)
      fun d => c.Computes d ∧ d.reg .rdi = c.reg contextReg ∧
        d.reg .rax = (Stub.binary op).number.toUInt64 ∧ d.reg .rsi = a ∧ d.reg .rdx = b := by
  simp [Emit.slowPieces, Emit.askPieces, X86.Cpu.computes_iff, Machine.roleRegs, X86.Cpu.reg_setReg,
    ha, hb]

/-! ### Conditional jumps -/

section

variable {cached r : Register} {p : Piece} {v : Value} {target next : Label} (thunk : Label)
  (sense : Bool) (hp : Fetches cached .rax r p) (hv : c.Operand cached r v)
  (hmask : c.reg maskReg = Value.numberMask)

theorem follow_jump_answerPieces (hfresh : target ≠ next) (t : Bool) :
    follow word (some (if t = sense then target else next)) (Emit.answerPieces sense target next) c =
      .fork (t = sense) target c := by
  cases sense <;> cases t <;> simp [Emit.answerPieces, Exit.fork, hfresh.symm]

theorem follow_answerPieces (hfresh : target ≠ next) {t : Bool}
    (hrax : c.reg .rax = (Value.ofBool t).word) :
    ∃ f, follow word none (Emit.answerPieces sense target next) c =
      .fork (t = sense) target (c.setFlags f) := by
  have h7 : X86.displacementWord 7 = 7 := rfl
  have hzero : (X86.Flags.ofDifference .w64 (c.reg .rax) 7 (c.reg .rax - 7)).zero = t := by
    rw [X86.Flags.zero_ofDifference64, hrax]
    cases t <;> rfl
  cases sense <;> cases t <;>
    simp [Emit.answerPieces, Exit.fork, hfresh.symm, h7, hzero]

include hp hv hmask

theorem follow_condition_shown (hfresh : target ≠ next) {t : Bool} (ht : v.shownTruth? = some t) :
    ∃ d, c.Computes d ∧ follow word none (p :: Emit.conditionPieces thunk sense target next) c =
      .fork (t = sense) target d := by
  obtain ⟨d, hd, -, hfollow⟩ := follow_truthPieces word (if sense then target else next)
    (if sense then next else target) (.instr (.mov .w64 .rsi .rax) ::
      (Emit.askPieces thunk .toBoolean ++ Emit.answerPieces sense target next))
    (show (c.setReg .rax v.word).reg maskReg = _ by simp [X86.Cpu.reg_setReg, hmask])
  rw [X86.Cpu.reg_setReg_self, ht, Option.map_some] at hfollow
  refine ⟨d, (X86.Cpu.computes_setReg c (by decide) _).trans hd, ?_⟩
  rw [hp.follow hv, Emit.conditionPieces, hfollow, ← follow_jump_answerPieces word sense hfresh t]
  cases sense <;> cases t <;> rfl

theorem follow_condition_asked (target next : Label) (hnone : v.shownTruth? = none) :
    (follow word none (p :: Emit.conditionPieces thunk sense target next) c).Stops
      (.call thunk :: Emit.answerPieces sense target next) fun d => c.Computes d ∧
        d.reg .rdi = c.reg contextReg ∧ d.reg .rax = Stub.toBoolean.number.toUInt64 ∧
          d.reg .rsi = v.word := by
  obtain ⟨d, hd, hrax, hfollow⟩ := follow_truthPieces word (if sense then target else next)
    (if sense then next else target) (.instr (.mov .w64 .rsi .rax) ::
      (Emit.askPieces thunk .toBoolean ++ Emit.answerPieces sense target next))
    (show (c.setReg .rax v.word).reg maskReg = _ by simp [X86.Cpu.reg_setReg, hmask])
  rw [X86.Cpu.reg_setReg_self] at hrax hfollow
  rw [hnone, Option.map_none] at hfollow
  have hc := (X86.Cpu.computes_setReg c (r := .rax) (by decide) v.word).trans hd
  rw [hp.follow hv, Emit.conditionPieces, hfollow]
  simp [Emit.askPieces, X86.Cpu.reg_setReg, hrax, hc.kept contextReg (by decide)]
  exact ((hc.setReg (by decide) _).setReg (by decide) _).setReg (by decide) _

end

/-! ### Comparisons -/

section

variable {cached lhs rhs : Register} {p q : Piece} {a b : Value} {left right : Int32} (thunk : Label)
  (sense : Bool) (k : Comparison) {target slow next : Label}
  (hpq : FetchesPair cached lhs rhs p q) (ha : c.Operand cached lhs a) (hb : c.Operand cached rhs b)
  (hleft : Frame.registerOffset? lhs = some left) (hright : Frame.registerOffset? rhs = some right)
  (hmask : c.reg maskReg = Value.numberMask)

include hpq ha hb hmask

theorem follow_operands (slow : Label) (rest : List Piece) :
    ∃ d, c.Computes d ∧ d.reg .rax = a.word ∧ d.reg .rdx = b.word ∧
      follow word none (p :: q :: (Emit.guardPieces slow ++ rest)) c =
        follow word (if a.isInt32 && b.isInt32 then none else some slow) rest d := by
  obtain ⟨f, hf⟩ := follow_guardPieces word slow rest
    (show ((c.setReg .rax a.word).setReg .rdx b.word).reg maskReg = _ by
      simp [X86.Cpu.reg_setReg, hmask])
  simp only [X86.Cpu.reg_setReg_self, X86.Cpu.reg_setReg_of_ne _ _ (show Reg.rdx.slot ≠ Reg.rax.slot by decide)] at hf
  refine ⟨_, (((X86.Cpu.Computes.refl c).setReg (by decide) _).setReg (by decide) _).setFlags f, ?_, ?_,
    (hpq.follow ha hb).trans hf⟩
  all_goals simp [X86.Cpu.reg_setReg]

/-- A comparison of integers. -/
theorem follow_compare_integers (left right : Int32) (hint : (a.isInt32 && b.isInt32) = true) (hslow : slow ≠ next)
    (rest : List Piece) :
    ∃ d, c.Computes d ∧ d.reg .rax = (Value.ofBool (k.holds a.toInt32 b.toInt32)).word ∧
      follow word none (p :: q ::
        (Emit.comparePieces thunk k left right slow next ++ .bind next :: rest)) c =
        follow word none rest d := by
  rw [Emit.comparePieces, List.append_assoc]
  obtain ⟨d, hd, hrax, hrdx, hfollow⟩ := follow_operands word hpq ha hb hmask slow _
  rw [hfollow, if_pos hint]
  have h6 : X86.displacementWord 6 = 6 := rfl
  have hholds := holds_comparisonCond k a.word b.word
  rw [X86.Flags.compared] at hholds
  have hrest : ∃ e, d.Computes e ∧ e.reg .rax = (Value.ofBool (k.holds a.toInt32 b.toInt32)).word ∧
      follow word none (.instr (.alu .cmp .w32 .rax .rdx) ::
        .instr (.setcc (Emit.comparisonCond k) .rax) :: .instr (.movzx8 .rax .rax) ::
        .instr (.aluImm .or .w64 .rax 6) :: .jmp next :: .bind slow ::
        (Emit.slowPieces thunk (.compare k) left right ++ .bind next :: rest)) d =
        follow word none rest e := by
    simp only [follow_instr, X86.Instr.straight, X86.Cpu.effect_cmp, X86.Cpu.effect_setcc,
      X86.Cpu.effect_movzx8, X86.Cpu.effect_orImm, follow_jmp, follow_jump_bind, if_neg hslow,
      Emit.slowPieces, Emit.askPieces, List.cons_append, List.nil_append, follow_jump_instr,
      follow_jump_call, if_true]
    refine ⟨_, ?_, ?_, rfl⟩
    · exact ((((X86.Cpu.computes_setFlags d _).setReg (by decide) _).setReg (by decide) _).setReg
        (by decide) _).setFlags _
    · simp only [X86.Cpu.reg_setFlags, X86.Cpu.reg_setReg_self, X86.Cpu.flags_setFlags, hrax, hrdx, hholds,
        X86.Width.clip_w64, h6]
      exact ofBool_of_octet ..
  obtain ⟨e, he, htruth, hfollow⟩ := hrest
  exact ⟨e, hd.trans he, htruth, hfollow⟩

theorem follow_branch_integers (left right : Int32) (hint : (a.isInt32 && b.isInt32) = true) (hslow : slow ≠ next)
    (htarget : target ≠ next) (hfresh : target ≠ slow) :
    ∃ d, c.Computes d ∧ follow word none (p :: q ::
        Emit.branchPieces thunk sense k left right target slow next) c =
      .fork (k.holds a.toInt32 b.toInt32 = sense) target d := by
  rw [Emit.branchPieces]
  obtain ⟨d, hd, hrax, hrdx, hfollow⟩ := follow_operands word hpq ha hb hmask slow _
  rw [hfollow, if_pos hint]
  have hholds : (Emit.branchCond sense k).holds (X86.Flags.compared a.word b.word) =
      decide (k.holds a.toInt32 b.toInt32 = sense) := by
    have hcond := holds_comparisonCond k a.word b.word
    cases sense with
    | true => rw [Emit.branchCond, if_pos rfl, hcond, Bool.decide_eq_true]; rfl
    | false =>
      rw [Emit.branchCond, if_neg Bool.false_ne_true, X86.holds_invert (known_comparisonCond k), hcond,
        Bool.decide_eq_false]
      rfl
  rw [X86.Flags.compared] at hholds
  refine ⟨_, hd.setFlags (X86.Flags.compared a.word b.word), ?_⟩
  simp only [follow_instr, X86.Instr.straight, X86.Cpu.effect_cmp, follow_jcc, follow_jmp,
    X86.Cpu.flags_setFlags, hrax, hrdx, hholds, follow_jump_jmp, follow_jump_bind,
    Emit.slowPieces, Emit.askPieces, Emit.verdictPieces, List.cons_append, List.nil_append,
    follow_jump_instr, follow_jump_call, follow_jump_jcc, follow_nil, follow_nil_jump, if_neg hslow,
    if_neg htarget.symm, if_neg hfresh.symm, if_true]
  rfl

include hleft hright

/-- When an operand is no integer, the stub is asked. -/
theorem follow_asked (hint : ¬(a.isInt32 && b.isInt32) = true) (slow : Label) (inline : List Piece)
    (hinline : .bind slow ∉ inline) (rest : List Piece) :
    (follow word none (p :: q :: (Emit.guardPieces slow ++ (inline ++
        .bind slow :: (Emit.slowPieces thunk (.compare k) left right ++ rest)))) c).Stops
      (.call thunk :: rest) fun d => c.Computes d ∧ d.reg .rdi = c.reg contextReg ∧
        d.reg .rax = (Stub.binary (.compare k)).number.toUInt64 ∧ d.reg .rsi = a.word ∧
        d.reg .rdx = b.word := by
  obtain ⟨d, hd, -, -, hfollow⟩ := follow_operands word hpq ha hb hmask slow _
  rw [hfollow, if_neg hint, follow_jump_append word slow hinline]
  have hread (x : Int32) : d.read (d.reg frameReg + X86.displacementWord x) =
      c.read (c.reg frameReg + X86.displacementWord x) := by
    rw [hd.read, hd.kept frameReg (by decide)]
  obtain ⟨e, hstops, he, hdi, hrax, hsi, hdx⟩ := follow_slowPieces word thunk (.compare k) rest
    ((hread left).trans (ha.slot _ hleft)) ((hread right).trans (hb.slot _ hright))
  exact ⟨e, hstops, hd.trans he, hdi.trans (hd.kept _ (by decide)), hrax, hsi, hdx⟩

end

theorem follow_verdictPieces (sense : Bool) {target next : Label} (hfresh : target ≠ next) {t : Bool}
    (hrax : c.reg .rax = (Value.ofBool t).word) :
    ∃ f, follow word none (Emit.verdictPieces sense target next) c =
      .fork (t = sense) target (c.setFlags f) := by
  have h7 : X86.displacementWord 7 = 7 := rfl
  have hzero : (X86.Flags.ofDifference .w64 (c.reg .rax) 7 (c.reg .rax - 7)).zero = t := by
    rw [X86.Flags.zero_ofDifference64, hrax]
    cases t <;> rfl
  cases sense <;> cases t <;> simp [Emit.verdictPieces, Exit.fork, hfresh.symm, h7, hzero]

end Piece

/-! ## Tests of tags -/

namespace Value

/-- The bits that tell what kind of handle a word is show that it is one, too. -/
theorem and_kind_eq (w : UInt64) {kind : UInt64} (hkind : kind.toNat < 16) :
    w &&& (numberMask ||| 0xf) = kind ↔ w.toNat < 2 ^ 48 ∧ w.toNat % 16 = kind.toNat := by
  have hhigh := toNat_and_numberMask w
  have hlow := toNat_and_low w
  have hsum : (w &&& (numberMask ||| 0xf)).toNat = w.toNat / 2 ^ 48 * 2 ^ 48 + w.toNat % 16 := by
    rw [UInt64.and_or_distrib, UInt64.toNat_or, hhigh, hlow, Nat.mul_comm]
    exact (Nat.two_pow_add_eq_or_of_lt (i := 48) (show w.toNat % 16 < 2 ^ 48 by omega) _).symm
  rw [← UInt64.toNat_inj, hsum]
  omega

theorem isString_iff_and (v : Value) : v.isString = Bool.true ↔ v.word &&& (numberMask ||| 0xf) = 8 := by
  rw [isString_iff, and_kind_eq v.word (by decide)]
  rfl

theorem isObject_iff_and (v : Value) :
    v.isObject = Bool.true ↔ v.word ≠ 0 ∧ v.word &&& (numberMask ||| 0xf) = 0 := by
  have hzero : v.word ≠ 0 ↔ v.word.toNat ≠ 0 := not_congr UInt64.toNat_inj.symm
  rw [isObject_iff, and_kind_eq v.word (by decide), hzero]
  change _ ↔ _ ∧ _ ∧ _ = 0
  omega

end Value

namespace Emit

variable {site : Site} {e : Emitter}

def Writes (x : Emit Unit) (site : Site) (e : Emitter) (Q : List Piece → Prop) : Prop :=
  x.Ensures site e fun _ e' => ∃ ps, e'.pieces.toList = e.pieces.toList ++ ps ∧ Q ps

/-- Code that looks at the word in a register: it goes to a label if the word passes the test. -/
def Tests (r : Reg) (l : Label) (test : Value → Bool) (ps : List Piece) : Prop :=
  ∀ (word : Label → UInt64) (c : Cpu), c.reg maskReg = Value.numberMask →
    ∃ d, c.Computes d ∧ Piece.follow word none ps c = .fork (test ⟨c.reg r⟩) l d

/-- Code that looks at a register of the frame: it runs to its end if the value passes the test, and asks a
stub otherwise. -/
def Passes (site : Site) (cached src : Register) (test : Value → Bool) (ps : List Piece) : Prop :=
  ∀ (word : Label → UInt64) (c : Cpu) (v : Value), c.Operand cached src v →
    c.reg maskReg = Value.numberMask →
      if test v then ∃ d, Piece.follow word none ps c = .falls d
      else ∃ rest d, Piece.follow word none ps c = .stops (.call site.stubThunk :: rest) d

theorem guardInt32_tests (r : Reg) (slow : Label) :
    (guardInt32 r slow).Writes site e (Tests r slow fun v => !v.isInt32) := by
  simp only [Writes, guardInt32, ensures_bind, ensures_instr, ensures_jcc, Emitter.write_write]
  refine ⟨_, toList_pieces_write _, fun word c hmask => ?_⟩
  obtain ⟨f, hf⟩ := Piece.follow_guard word r slow [] hmask
  refine ⟨_, X86.Cpu.computes_setFlags c f, hf.trans ?_⟩
  cases hint : (⟨c.reg r⟩ : Value).isInt32 <;> simp [hint, Piece.Exit.fork]

theorem jumpIfObject_tests {r : Reg} (hr : Reg.rcx.slot ≠ r.slot) {yes : Label} (hyes : yes ≠ e.labels) :
    (jumpIfObject r yes).Writes site e (Tests r yes Value.isObject) := by
  simp only [Writes, jumpIfObject, ensures_bind, ensures_newLabel, ensures_instr, ensures_jcc, ensures_label,
    Emitter.write_write]
  refine ⟨_, toList_pieces_write _, fun word c hmask => ?_⟩
  have hcx : ¬(1 : Fin 16) = r.slot := hr
  have htest : (⟨c.reg r⟩ : Value).isObject =
      (!(c.reg r == 0) && c.reg r &&& (Value.numberMask ||| 0xf) == 0) := by
    rw [Bool.eq_iff_iff, Value.isObject_iff_and]
    simp
  rw [htest]
  by_cases hzero : c.reg r = 0
  · refine ⟨_, X86.Cpu.computes_setFlags c (.ofBits .w64 0), ?_⟩
    simp [hzero, Piece.Exit.fork]
  · refine ⟨_, ((X86.Cpu.computes_setFlags c (.ofBits .w64 (c.reg r))).setReg (r := .rcx) (by decide)
      (Value.numberMask ||| 0xf)).setFlags (.ofBits .w64 (c.reg r &&& (Value.numberMask ||| 0xf))), ?_⟩
    by_cases hkind : c.reg r &&& (Value.numberMask ||| 0xf) = 0
    · simp [hzero, hkind, hyes.symm, Piece.Exit.fork, X86.Cpu.reg_setReg, hcx]
    · simp [hzero, hkind, Piece.Exit.fork, X86.Cpu.reg_setReg, hcx]

theorem compareNullish_tests (r : Reg) :
    (compareNullish r).Writes site e fun ps => ∀ (word : Label → UInt64) (c : Cpu),
      ∃ d, c.Computes d ∧ Piece.follow word none ps c = .falls d ∧
        Cond.e.holds d.flags = (⟨c.reg r⟩ : Value).isNullOrUndefined := by
  rw [Writes, compareNullish, ensures_instrs]
  refine ⟨_, toList_pieces_write _, fun word c => ?_⟩
  have h9 : X86.displacementWord (-9) = ~~~Value.tagUndefined := rfl
  have h2 : X86.displacementWord 2 = 2 := rfl
  have htest : (⟨c.reg r⟩ : Value).isNullOrUndefined = (c.reg r &&& ~~~Value.tagUndefined == 2) := rfl
  simp only [List.map_cons, List.map_nil, Piece.follow_instr, X86.Instr.straight, X86.Cpu.effect_mov,
    X86.Cpu.effect_andImm, X86.Cpu.effect_cmpImm, Piece.follow_nil, X86.Width.clip_w64,
    X86.Cpu.reg_setReg_self, X86.Cpu.reg_setFlags, h9, h2, htest]
  refine ⟨_, ?_, rfl, ?_⟩
  · exact (((((X86.Cpu.Computes.refl c).setReg (by decide) _).setReg (by decide) _).setFlags _).setFlags _)
  · rw [X86.holds_e, X86.Cpu.flags_setFlags, X86.Flags.zero_ofDifference64]

theorem toNumber_passes (s : Stub) (dst src : Register) :
    (toNumber s dst src).Writes site e (Passes site e.cached src Value.isNumber) := by
  unfold Writes toNumber
  simp only [ensures_bind, ensures_newLabel]
  refine ensures_fetch fun p hp => ?_
  simp only [ensures_instr, ensures_jcc, ensures_callStub, ensures_label, ensures_storeResult,
    Emitter.write_write, Emitter.believe_write]
  intro d hd
  refine ⟨_, toList_pieces_write _, fun word c v hv hmask => ?_⟩
  rw [List.cons_append, List.cons_append, hp.follow hv]
  have htest : v.isNumber = (v.word &&& Value.numberMask != 0) := rfl
  cases hnumber : v.isNumber <;> rw [htest] at hnumber <;> simp_all [X86.Cpu.reg_setReg]

theorem not_passes (dst src : Register) :
    (Emit.not dst src).Writes site e (Passes site e.cached src Value.isBool) := by
  unfold Writes Emit.not
  simp only [ensures_bind, ensures_newLabel]
  refine ensures_fetch fun p hp => ?_
  simp only [ensures_bind, ensures_instr, ensures_instrs, ensures_jcc, ensures_jmp, ensures_callStub, ensures_label,
    ensures_reload, finishSlow, ensures_storeResult, Emitter.write_write, Emitter.believe_write]
  intro o ho d hd
  refine ⟨_, toList_pieces_write _, fun word c v hv hmask => ?_⟩
  rw [List.cons_append, List.cons_append, hp.follow hv]
  have htest : v.isBool = (v.word &&& ~~~(1 : UInt64) == 6) := rfl
  have h6 : X86.displacementWord 6 = 6 := rfl
  have h2 : X86.displacementWord (-2) = ~~~(1 : UInt64) := rfl
  have hequal : (X86.Flags.ofDifference .w64 6 6 0).zero = true := rfl
  cases hbool : v.isBool <;> rw [htest] at hbool <;>
    simp_all [X86.Cpu.reg_setReg, X86.Flags.zero_ofDifference64]

theorem toPrimitiveString_passes (dst src : Register) :
    (toPrimitiveString dst src).Writes site e (Passes site e.cached src Value.isString) := by
  unfold Writes toPrimitiveString
  simp only [ensures_bind, ensures_newLabel]
  refine ensures_fetch fun p hp => ?_
  simp only [ensures_instr, ensures_instrs, ensures_jcc, ensures_callStub, ensures_label,
    ensures_storeResult, Emitter.write_write, Emitter.believe_write]
  intro d hd
  refine ⟨_, toList_pieces_write _, fun word c v hv hmask => ?_⟩
  rw [List.cons_append, List.cons_append, hp.follow hv]
  have htest : v.isString = ((Value.numberMask ||| 0xf) &&& v.word == 8) := by
    rw [Bool.eq_iff_iff, Value.isString_iff_and, beq_iff_eq, UInt64.and_comm]
  have h8 : X86.displacementWord 8 = 8 := rfl
  have hequal : (X86.Flags.ofDifference .w64 8 8 0).zero = true := rfl
  cases hstring : v.isString <;> rw [htest] at hstring <;>
    simp_all [X86.Cpu.reg_setReg, X86.Flags.zero_ofDifference64]

/-- The inline tests of tags agree with the classes of values, whatever word they look at. -/
structure TestsAgree (site : Site) (e : Emitter) : Prop where
  int32 : ∀ r slow, (guardInt32 r slow).Writes site e (Tests r slow fun v => !v.isInt32)
  number : ∀ s dst src, (toNumber s dst src).Writes site e (Passes site e.cached src Value.isNumber)
  boolean : ∀ dst src, (Emit.not dst src).Writes site e (Passes site e.cached src Value.isBool)
  nullish : ∀ r, (compareNullish r).Writes site e fun ps => ∀ (word : Label → UInt64) (c : Cpu),
    ∃ d, c.Computes d ∧ Piece.follow word none ps c = .falls d ∧
      Cond.e.holds d.flags = (⟨c.reg r⟩ : Value).isNullOrUndefined
  object : ∀ r yes, Reg.rcx.slot ≠ r.slot → yes ≠ e.labels →
    (jumpIfObject r yes).Writes site e (Tests r yes Value.isObject)
  string : ∀ dst src,
    (toPrimitiveString dst src).Writes site e (Passes site e.cached src Value.isString)

theorem testsAgree (site : Site) (e : Emitter) : TestsAgree site e :=
  ⟨guardInt32_tests, toNumber_passes, not_passes, compareNullish_tests,
    fun _ _ hr hyes => jumpIfObject_tests hr hyes, toPrimitiveString_passes⟩

end Emit

end RegisterJit
