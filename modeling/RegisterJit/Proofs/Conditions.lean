import RegisterJit.Proofs.Operands
import RegisterJit.Proofs.Proceeding
import RegisterJit.Value.Tags

/-!
# Conditions

The truth of most values shows in their words, and integers are compared by subtracting them. This says what
the code for both finds out, as a way through symbolic code.

A flag is set by a subtraction, and what the condition codes say about the flags is what an order says about the
integers: `signed_less` is the fact about flags, `holds_comparisonCond` the one for all eight comparisons.
`Value.shownTruth?` is the truth that can be told from a word without looking at the heap, and
`Built.shownTruth?_eq_none` for which values there is none: doubles, strings, objects and the empty value. The
pieces that test for it are listed here as definitions, so that `Forks` can follow them and `Inline` can use the
facts about flags for arithmetic.
-/

namespace RegisterJit

open X86 (Reg Cond Instr Label Cpu)

/-! ## Order of integers -/

def Comparison.holds (c : Comparison) (i j : Int) : Bool :=
  match c with
  | .lt => i < j
  | .lte => i ≤ j
  | .gt => j < i
  | .gte => j ≤ i
  | .eq | .strictEq => i = j
  | .ne | .strictNe => i ≠ j

namespace X86

theorem Width.isNegative_w32 (x : UInt64) : Width.isNegative .w32 x = x.toNat.testBit 31 := by
  have hbit : (x &&& 0x80000000).toNat = x.toNat / 2 ^ 31 % 2 * 2 ^ 31 := by
    rw [UInt64.toNat_and]
    exact Nat.and_shifted _ 31 1
  rw [Width.isNegative, Nat.testBit_eq_decide_div_mod_eq, Bool.eq_iff_iff, bne_iff_ne,
    decide_eq_true_eq, ne_eq, ← UInt64.toNat_inj, hbit]
  change ¬ _ = 0 ↔ _
  omega

theorem Width.toNat_clip_w32 (x : UInt64) : (Width.clip .w32 x).toNat = x.toNat % 2 ^ 32 := by
  rw [Width.clip, UInt64.toNat_and]
  exact Nat.and_two_pow_sub_one_eq_mod _ 32

theorem testBit_31 {n : Nat} (h : n < 2 ^ 32) : n.testBit 31 = decide (2 ^ 31 ≤ n) := by
  rw [Nat.testBit_eq_decide_div_mod_eq, decide_eq_decide]
  omega

theorem signed32_toUInt32 (x : UInt64) :
    signed32 x.toUInt32 = if 2 ^ 31 ≤ (Width.clip .w32 x).toNat
      then ((Width.clip .w32 x).toNat : Int) - 2 ^ 32 else ((Width.clip .w32 x).toNat : Int) := by
  have hnat : x.toUInt32.toBitVec.toNat = x.toNat % 2 ^ 32 := UInt64.toNat_toUInt32 x
  rw [signed32, BitVec.toInt_eq_toNat_cond, hnat, Width.toNat_clip_w32]
  split <;> split <;> omega

/-- The sign of a difference modulo `2 ^ 32` and its overflow tell the order of signed numbers. -/
theorem signed_less {i j k : Nat} (hi : i < 2 ^ 32) (hj : j < 2 ^ 32) (hk : k < 2 ^ 32)
    (h : k + j = i ∨ k + j = i + 2 ^ 32) :
    (decide (2 ^ 31 ≤ k) != ((decide (2 ^ 31 ≤ i) ^^ decide (2 ^ 31 ≤ j)) &&
      (decide (2 ^ 31 ≤ i) ^^ decide (2 ^ 31 ≤ k)))) =
    decide ((if 2 ^ 31 ≤ i then (i : Int) - 2 ^ 32 else (i : Int)) <
      if 2 ^ 31 ≤ j then (j : Int) - 2 ^ 32 else (j : Int)) := by
  by_cases h1 : 2 ^ 31 ≤ i <;> by_cases h2 : 2 ^ 31 ≤ j <;> by_cases h3 : 2 ^ 31 ≤ k <;>
    simp only [h1, h2, h3, decide_true, decide_false, if_true, if_false]
  all_goals simp
  all_goals omega

namespace Flags

/-- The flags after a comparison of the low halves of two words. -/
def compared (a b : UInt64) : Flags :=
  .ofDifference .w32 (Width.clip .w32 a) (Width.clip .w32 b)
    (Width.clip .w32 (Width.clip .w32 a - Width.clip .w32 b))

theorem compared_order (a b : UInt64) :
    (compared a b).zero = decide (signed32 a.toUInt32 = signed32 b.toUInt32) ∧
      ((compared a b).sign != (compared a b).overflow) =
        decide (signed32 a.toUInt32 < signed32 b.toUInt32) := by
  have ha := Width.toNat_clip_w32 a
  have hb := Width.toNat_clip_w32 b
  have hr := Width.toNat_clip_w32 (Width.clip .w32 a - Width.clip .w32 b)
  rw [signed32_toUInt32, signed32_toUInt32, compared]
  rw [UInt64.toNat_sub] at hr
  generalize Width.clip .w32 a = x at *
  generalize Width.clip .w32 b = y at *
  generalize Width.clip .w32 (x - y) = r at *
  have hx : x.toNat < 2 ^ 32 := by omega
  have hy : y.toNat < 2 ^ 32 := by omega
  have hlt : r.toNat < 2 ^ 32 := by omega
  have hdifference : r.toNat + y.toNat = x.toNat ∨ r.toNat + y.toNat = x.toNat + 2 ^ 32 := by omega
  constructor
  · change (r == 0) = _
    rw [Bool.eq_iff_iff, beq_iff_eq, decide_eq_true_eq, ← UInt64.toNat_inj]
    change r.toNat = 0 ↔ _
    split <;> split <;> omega
  · change (Width.isNegative .w32 r != Width.isNegative .w32 ((x ^^^ y) &&& (x ^^^ r))) = _
    simp only [Width.isNegative_w32, UInt64.toNat_and, UInt64.toNat_xor, Nat.testBit_and,
      Nat.testBit_xor, testBit_31 hx, testBit_31 hy, testBit_31 hlt]
    exact signed_less hx hy hlt hdifference

end Flags

end X86

/-- The condition of a comparison says after a comparison of two integers what it says about them. -/
theorem holds_comparisonCond (c : Comparison) (a b : UInt64) :
    (Emit.comparisonCond c).holds (X86.Flags.compared a b) =
      c.holds (signed32 a.toUInt32) (signed32 b.toUInt32) := by
  obtain ⟨hzero, hless⟩ := X86.Flags.compared_order a b
  cases c <;>
    simp only [Emit.comparisonCond, Comparison.holds, X86.holds_l, X86.holds_le, X86.holds_g,
      X86.holds_ge, X86.holds_e, X86.holds_ne, hzero, hless, ← Bool.decide_or, ← decide_not,
      decide_eq_decide]
  all_goals omega

theorem known_comparisonCond (c : Comparison) : (Emit.comparisonCond c).known = true := by
  cases c <;> rfl

/-! ## Computing -/

namespace X86.Cpu

/-- Nothing has been written, and the registers with a fixed role are as they were. -/
structure Computes (c d : Cpu) : Prop where
  memory : d.memory = c.memory
  kept : ∀ r ∈ Machine.roleRegs, d.reg r = c.reg r

theorem computes_iff {c d : Cpu} :
    c.Computes d ↔ d.memory = c.memory ∧ ∀ r ∈ Machine.roleRegs, d.reg r = c.reg r :=
  ⟨fun h => ⟨h.memory, h.kept⟩, fun h => ⟨h.1, h.2⟩⟩

theorem Computes.refl (c : Cpu) : c.Computes c := ⟨rfl, fun _ _ => rfl⟩

theorem Computes.trans {c d e : Cpu} (h : c.Computes d) (h' : d.Computes e) : c.Computes e :=
  ⟨h'.memory.trans h.memory, fun r hr => (h'.kept r hr).trans (h.kept r hr)⟩

theorem computes_setFlags (c : Cpu) (f : Flags) : c.Computes (c.setFlags f) := ⟨rfl, fun _ _ => rfl⟩

theorem computes_setReg (c : Cpu) {r : Reg} (hr : ∀ q ∈ Machine.roleRegs, r.slot ≠ q.slot)
    (x : UInt64) : c.Computes (c.setReg r x) :=
  ⟨rfl, fun q hq => reg_setReg_of_ne c x (hr q hq)⟩

theorem Computes.setReg {c d : Cpu} (h : c.Computes d) {r : Reg}
    (hr : ∀ q ∈ Machine.roleRegs, r.slot ≠ q.slot) (x : UInt64) : c.Computes (d.setReg r x) :=
  h.trans (computes_setReg d hr x)

theorem Computes.setFlags {c d : Cpu} (h : c.Computes d) (f : Flags) : c.Computes (d.setFlags f) :=
  h.trans (computes_setFlags d f)

theorem Computes.read {c d : Cpu} (h : c.Computes d) (a : UInt64) : d.read a = c.read a := by
  rw [Cpu.read, Cpu.read, h.memory]

end X86.Cpu

/-! ## Truth that shows -/

namespace Value

/-- The truth of a value if its word shows it. -/
def shownTruth? (v : Value) : Option Bool :=
  if v.isBool then some v.toBool
  else if v.isInt32 then some (v.word != numberMask)
  else if v.isNullOrUndefined then some Bool.false
  else none

/-- The order in which code looks at a word for its truth. -/
theorem shownTruth?_eq (w : UInt64) :
    shownTruth? ⟨w⟩ = if w = 6 then some Bool.false else if w = 7 then some Bool.true
      else if w = numberMask then some Bool.false
      else if numberMask ≤ w ∧ ¬w = numberMask then some Bool.true
      else if w &&& ~~~tagUndefined = 2 then some Bool.false else none := by
  have hbool : (⟨w⟩ : Value).isBool = Bool.true ↔ w = 6 ∨ w = 7 := by
    rw [isBool_iff, ← UInt64.toNat_inj, ← UInt64.toNat_inj]
    rfl
  have hint : (⟨w⟩ : Value).isInt32 = Bool.true ↔ numberMask ≤ w := decide_eq_true_iff
  have hnullish : (⟨w⟩ : Value).isNullOrUndefined = Bool.true ↔ w &&& ~~~tagUndefined = 2 := by
    rw [isNullOrUndefined, beq_iff_eq]
    rfl
  unfold shownTruth?
  by_cases h6 : w = 6
  · subst h6
    rfl
  by_cases h7 : w = 7
  · subst h7
    rfl
  rw [if_neg (by rw [hbool]; exact fun h => h.elim h6 h7), if_neg h6, if_neg h7]
  by_cases hmask : w = numberMask
  · subst hmask
    rfl
  by_cases habove : numberMask ≤ w
  · rw [if_pos (hint.2 habove), if_neg hmask, if_pos ⟨habove, hmask⟩, bne_iff_ne.2 hmask]
  · have hnot : ¬(numberMask ≤ w ∧ ¬w = numberMask) := fun h => habove h.1
    rw [if_neg (mt hint.1 habove), if_neg hmask, if_neg hnot]
    simp only [hnullish]

theorem Built.shape {v : Value} (hv : v.Built) : 2 ^ 48 ≤ v.word.toNat ∨ v.word.toNat = 6 ∨
    v.word.toNat = 7 ∨ v.word.toNat = 2 ∨ v.word.toNat = 10 ∨ v.word.toNat % 8 = 0 := by
  cases hv with
  | int32 i => have := toNat_int32 i; omega
  | double x => exact .inl (toNat_double x).1
  | bool b => cases b <;> decide
  | null | undefined | empty => decide
  | object handle => have := toNat_object handle; omega
  | string handle => have := toNat_string handle; omega

/-- A built word does not show its truth if it is a double, a string, an object or empty. -/
theorem Built.shownTruth?_eq_none {v : Value} (hv : v.Built) :
    v.shownTruth? = none ↔ v.isDouble ∨ v.isString ∨ v.isObject ∨ v.isEmpty := by
  have hshape := hv.shape
  have hnone : v.shownTruth? = none ↔ ¬v.isBool ∧ ¬v.isInt32 ∧ ¬v.isNullOrUndefined := by
    unfold shownTruth?
    split_ifs <;> simp_all
  rw [hnone, isDouble, Bool.and_eq_true, Bool.not_eq_true', ← Bool.not_eq_true, isBool_iff, isInt32_iff,
    isNullOrUndefined_iff, isNumber_iff, isString_iff, isObject_iff, isEmpty_iff]
  omega

theorem Built.int32_of_isInt32 {v : Value} (hv : v.Built) (h : v.isInt32) : ∃ i, v = Value.int32 i := by
  rw [isInt32_iff] at h
  cases hv with
  | int32 i => exact ⟨i, rfl⟩
  | double x => have := toNat_double x; omega
  | bool b => cases b <;> exact absurd h (by decide)
  | null | undefined | empty => exact absurd h (by decide)
  | object handle => have := toNat_object handle; have := handle.toNat_lt; omega
  | string handle => have := toNat_string handle; have := handle.toNat_lt; omega

theorem Built.toBoolean {v : Value} (hv : v.Built) {t : Bool} (h : v.shownTruth? = some t)
    (heap : Heap) : heap.toBoolean v = t := by
  unfold shownTruth? at h
  unfold Heap.toBoolean
  by_cases hbool : v.isBool
  · rw [if_pos hbool] at h ⊢
    exact Option.some.inj h
  rw [if_neg hbool] at h ⊢
  by_cases hint : v.isInt32
  · rw [if_pos hint] at h ⊢
    obtain rfl := Option.some.inj h
    obtain ⟨i, rfl⟩ := hv.int32_of_isInt32 hint
    have hword := toNat_int32 i
    rw [toInt32_int32, Bool.eq_iff_iff, bne_iff_ne, bne_iff_ne, ne_eq, ne_eq, ← UInt64.toNat_inj, hword]
    have hzero : signed32 i = 0 ↔ i.toNat = 0 := by
      rw [signed32, ← BitVec.toInt_zero, BitVec.toInt_inj, ← BitVec.toNat_inj]
      rfl
    rw [hzero]
    change ¬_ ↔ ¬_ = 2 ^ 64 - 2 ^ 48
    omega
  rw [if_neg hint] at h ⊢
  by_cases hnullish : v.isNullOrUndefined
  · rw [if_pos hnullish] at h
    obtain rfl := Option.some.inj h
    rw [isNullOrUndefined_iff] at hnullish
    have hnumber : ¬v.isNumber := by rw [isNumber_iff]; omega
    have hstring : ¬v.isString := by rw [isString_iff]; omega
    have hobject : ¬v.isObject := by rw [isObject_iff]; omega
    rw [if_neg hnumber, if_neg hstring]
    exact Bool.eq_false_iff.2 hobject
  · rw [if_neg hnullish] at h
    cases h

end Value

namespace Emit

/-- The pieces that decide on a truth that shows. -/
def truthPieces (truthy falsy : Label) : List Piece :=
  [.instr (.aluImm .cmp .w64 .rax 6), .jcc .e falsy, .instr (.aluImm .cmp .w64 .rax 7),
    .jcc .e truthy, .instr (.alu .cmp .w64 .rax maskReg), .jcc .e falsy, .jcc .a truthy,
    .instr (.mov .w64 .rcx .rax), .instr (.aluImm .and .w64 .rcx (-9)),
    .instr (.aluImm .cmp .w64 .rcx 2), .jcc .e falsy]

end Emit

namespace Piece

variable (word : Label → UInt64) {c : Cpu}

theorem follow_truthPieces (truthy falsy : Label) (rest : List Piece)
    (hmask : c.reg maskReg = Value.numberMask) :
    ∃ d, c.Computes d ∧ d.reg .rax = c.reg .rax ∧
      follow word none (Emit.truthPieces truthy falsy ++ rest) c =
        follow word ((Value.shownTruth? ⟨c.reg .rax⟩).map fun t => if t then truthy else falsy) rest d := by
  have h6 : X86.displacementWord 6 = 6 := rfl
  have h7 : X86.displacementWord 7 = 7 := rfl
  have h9 : X86.displacementWord (-9) = ~~~Value.tagUndefined := rfl
  have h2 : X86.displacementWord 2 = 2 := rfl
  rw [Value.shownTruth?_eq]
  generalize hw : c.reg .rax = w
  simp [Emit.truthPieces, X86.Flags.zero_ofDifference64, h6, h7, h9, h2, hw, hmask]
  split_ifs
  all_goals
    refine ⟨_, ⟨?_, ?_⟩, ?_, rfl⟩
    · rfl
    · simp [Machine.roleRegs, X86.Cpu.reg_setReg]
    · simp [X86.Cpu.reg_setReg, hw]

end Piece

namespace Emit

/-- The pieces that call a stub whose arguments are in place. -/
def askPieces (thunk : Label) (s : Stub) : List Piece :=
  [.instr (.mov .w64 .rdi contextReg), .instr (.movImm32 .rax s.number), .call thunk]

/-- The pieces that decide on the truth that a stub answers with. -/
def answerPieces (sense : Bool) (target next : Label) : List Piece :=
  .instr (.aluImm .cmp .w64 .rax 7) ::
    if sense then [.jcc .e target, .bind next] else [.jcc .e next, .jmp target, .bind next]

/-- The pieces of a conditional jump after its operand. -/
def conditionPieces (thunk : Label) (sense : Bool) (target next : Label) : List Piece :=
  truthPieces (if sense then target else next) (if sense then next else target) ++
    .instr (.mov .w64 .rsi .rax) :: (askPieces thunk .toBoolean ++ answerPieces sense target next)

theorem known_conditionPieces (thunk : Label) (sense : Bool) (target next : Label) :
    ∀ p ∈ conditionPieces thunk sense target next, p.known = true := by
  cases sense <;>
    simp [conditionPieces, truthPieces, askPieces, answerPieces]

/-- The pieces that check that both operands are integers. -/
def guardPieces (slow : Label) : List Piece :=
  [.instr (.alu .cmp .w64 .rax maskReg), .jcc .b slow, .instr (.alu .cmp .w64 .rdx maskReg),
    .jcc .b slow]

/-- The pieces that ask for an operator on two registers of the frame. -/
def slowPieces (thunk : Label) (op : BinaryOp) (left right : Int32) : List Piece :=
  .instr (.load .rsi frameReg left) :: .instr (.load .rdx frameReg right) ::
    askPieces thunk (.binary op)

/-- The pieces of a comparison after its operands, up to the call of the stub. -/
def comparePieces (thunk : Label) (c : Comparison) (left right : Int32) (slow done : Label) :
    List Piece :=
  guardPieces slow ++ .instr (.alu .cmp .w32 .rax .rdx) :: .instr (.setcc (comparisonCond c) .rax) ::
    .instr (.movzx8 .rax .rax) :: .instr (.aluImm .or .w64 .rax 6) :: .jmp done :: .bind slow ::
    slowPieces thunk (.compare c) left right

theorem known_comparePieces (thunk : Label) (c : Comparison) (left right : Int32) (slow done : Label) :
    ∀ p ∈ comparePieces thunk c left right slow done, p.known = true := by
  simp [comparePieces, guardPieces, slowPieces, askPieces, known_comparisonCond]

def branchCond (sense : Bool) (c : Comparison) : Cond :=
  if sense then comparisonCond c else (comparisonCond c).invert

/-- The pieces that jump when a stub has answered with `sense`. -/
def verdictPieces (sense : Bool) (target next : Label) : List Piece :=
  [.instr (.aluImm .cmp .w64 .rax 7), .jcc (if sense then .e else .ne) target, .bind next]

/-- The pieces of a comparison and a jump after its operands. -/
def branchPieces (thunk : Label) (sense : Bool) (c : Comparison) (left right : Int32)
    (target slow next : Label) : List Piece :=
  guardPieces slow ++ .instr (.alu .cmp .w32 .rax .rdx) :: .jcc (branchCond sense c) target ::
    .jmp next :: .bind slow :: (slowPieces thunk (.compare c) left right ++
      verdictPieces sense target next)

theorem known_branchPieces (thunk : Label) (sense : Bool) (c : Comparison) (left right : Int32)
    (target slow next : Label) :
    ∀ p ∈ branchPieces thunk sense c left right target slow next, p.known = true := by
  have hcond : (branchCond sense c).known = true := by cases sense <;> cases c <;> rfl
  cases sense <;>
    simp [branchPieces, guardPieces, slowPieces, askPieces, verdictPieces, hcond]

section

variable {site : Site} {e : Emitter}

omit site in
theorem toList_pieces_write (ps : List Piece) :
    (e.write ps).pieces.toList = e.pieces.toList ++ ps := by
  rw [Emitter.write, Array.toList_append]

theorem ensures_conditionalJump (r : Register) {target : Label} (sense : Bool)
    (hfresh : target ≠ e.labels) :
    (conditionalJump r target sense).Ensures site e fun _ e' =>
      ∃ p, Piece.Fetches e.cached .rax r p ∧ e'.pieces.toList = e.pieces.toList ++
        p :: conditionPieces site.stubThunk sense target e.labels := by
  unfold conditionalJump
  simp only [ensures_bind, ensures_newLabel]
  refine ensures_fetch fun p hp => ?_
  cases sense <;> simp [hfresh, compareNullish]
  all_goals exact ⟨p, hp, toList_pieces_write _⟩

theorem ensures_compare (c : Comparison) (dst lhs rhs : Register) :
    (compare c dst lhs rhs).Ensures site e fun _ e' =>
      ∃ p q left right d, Piece.FetchesPair e.cached lhs rhs p q ∧
        Frame.registerOffset? lhs = some left ∧ Frame.registerOffset? rhs = some right ∧
        Frame.registerOffset? dst = some d ∧ e'.pieces.toList = e.pieces.toList ++
          p :: q :: (comparePieces site.stubThunk c left right e.labels (e.labels + 1) ++
            [.bind (e.labels + 1), .instr (.store frameReg d .rax)]) := by
  unfold compare integerPair
  simp only [ensures_bind, ensures_newLabel]
  refine ensures_fetchPair fun p q k hpq => ?_
  simp [guardInt32, finishSlow, binarySlow]
  intro left hleft right hright d hd
  exact ⟨p, q, hpq, left, hleft, right, hright, d, hd, toList_pieces_write _⟩

theorem ensures_compareBranch (sense : Bool) (c : Comparison) (lhs rhs : Register) (target : Label) :
    (compareBranch sense c lhs rhs target).Ensures site e fun _ e' =>
      ∃ p q left right, Piece.FetchesPair e.cached lhs rhs p q ∧
        Frame.registerOffset? lhs = some left ∧ Frame.registerOffset? rhs = some right ∧
        e'.pieces.toList = e.pieces.toList ++
          p :: q :: branchPieces site.stubThunk sense c left right target e.labels (e.labels + 1) := by
  unfold compareBranch integerPair
  simp only [ensures_bind, ensures_newLabel]
  refine ensures_fetchPair fun p q k hpq => ?_
  simp [guardInt32, binarySlow]
  intro left hleft right hright
  exact ⟨p, q, hpq, left, hleft, right, hright, toList_pieces_write _⟩

end

end Emit

end RegisterJit
