import RegisterJit.Proofs.Emission

/-!
# What each emitter writes

For every emitter: from a state in which nothing has been written for the instruction and the
compiler's belief about the accumulator is right, it succeeds on registers that have a place in the
frame and on indices within their tables, and what it has written is complete in the sense of
`Emitter.Done`.

The emitters come in groups: operators, loads and variables, members, environments, and control flow. Most of
them are a few steps of `Emission` in a row, with the operands loaded first and the result stored at the end,
and what a group has in common is a lemma with the rest as a parameter. `Start` is the state before an
instruction, `Compiles` what is shown of an emitter, and `Site.Outside` that jumps go to labels that others
bind. The last section goes through all opcodes. `Blocks` takes the result as the only fact about emitters that
it needs.
-/

namespace RegisterJit

open X86 (Reg Cond Instr Label)

/-- A register with a place in the frame that may be written. -/
def Register.Slot (W : Int32 → Prop) (r : Register) : Prop :=
  ∃ d, Frame.registerOffset? r = some d ∧ W d

/-- The labels that instructions of a code may refer to besides their own. -/
def Site.Outside (site : Site) (l : Label) : Prop :=
  l = Session.stubThunk ∨ ∃ t ∈ site.jumps, t.label = l

@[simp] theorem Site.outside_stubThunk (site : Site) : site.Outside Session.stubThunk := .inl rfl

namespace Emit

/-- Where the compiler starts on an instruction; `k` is what the accumulator is known to hold. -/
structure Start (Λ : Label → Note) (site : Site) (e : Emitter) (k : Content) : Prop where
  pieces : e.pieces = #[]
  upcoming : e.upcoming = Register.invalid
  trusts : e.Trusts k
  thunk : site.stubThunk = Session.stubThunk
  targets : ∀ t ∈ site.jumps, Λ t.label = .any

variable {Λ : Label → Note} {W : Int32 → Prop} {site : Site} {e : Emitter} {k : Content}

theorem Start.good (h : Start Λ site e k) (W : Int32 → Prop) :
    e.Good Λ W site.Outside ⟨.body, k⟩ e.labels ⟨.body, k⟩ [] e.labels where
  leads := by rw [h.pieces]; rfl
  binds := by rw [h.pieces]; rfl
  labels := rfl
  low := Nat.le_refl _
  targets := by rw [h.pieces]; simp
  tight := by rw [h.pieces]; rfl

/-- An emitter succeeds and writes a whole instruction. -/
def Compiles (m : Emit Unit) (Λ : Label → Note) (W : Int32 → Prop) (site : Site) (e : Emitter)
    (k : Content) : Prop :=
  m.Yields site e fun _ e' => e'.Done Λ W site.Outside ⟨.body, k⟩ e.labels e'.upcoming

attribute [local simp] integerPair guardInt32 finishSlow binarySlow boxInt32 boxDouble Nat.add_assoc

@[simp] theorem known_comparisonCond (c : Comparison) : (comparisonCond c).known = true := by
  cases c <;> rfl

@[simp] theorem known_branchCond (sense : Bool) (c : Comparison) :
    (if sense = true then comparisonCond c else (comparisonCond c).invert).known = true := by
  cases sense <;> cases c <;> rfl

@[simp] theorem known_truthCond (sense : Bool) :
    (if sense = true then X86.Cond.e else X86.Cond.ne).known = true := by
  cases sense <;> rfl

@[simp] theorem leads_arithInstr (op : BinaryOp) (w : X86.Width) {ps : List Piece} {b : Note} :
    Piece.Leads Λ W ⟨.body, k⟩ (.instr (arithInstr op w .rcx .rdx) :: ps) b ↔
      Piece.Leads Λ W ⟨.body, k.after (arithInstr op w .rcx .rdx)⟩ ps b := by
  apply Piece.leads_quiet
  unfold arithInstr
  split <;> rfl

@[simp] theorem leads_shiftInstr (op : BinaryOp) {ps : List Piece} {b : Note} :
    Piece.Leads Λ W ⟨.body, k⟩ (.instr (shiftInstr op) :: ps) b ↔
      Piece.Leads Λ W ⟨.body, k.after (shiftInstr op)⟩ ps b := by
  apply Piece.leads_quiet
  unfold shiftInstr
  split <;> rfl

variable (h : Start Λ site e k)
include h

/-! ## Operators -/

section

variable {dst lhs rhs src : Register}

theorem binaryStub_compiles (op : BinaryOp) (hd : dst.Slot W) (hl : lhs.Slot W) (hr : rhs.Slot W) :
    (binaryStub op dst lhs rhs).Compiles Λ W site e k := by
  obtain ⟨dd, hd, hW⟩ := hd
  obtain ⟨dl, hl, -⟩ := hl
  obtain ⟨dr, hr, -⟩ := hr
  simp only [Compiles, binaryStub, yields_bind]
  refine (load_scratch (h.good W) h.trusts hl (by simp) (by decide)).mono fun _ e₁ h₁ => ?_
  refine (load_scratch h₁.1 h₁.2.1 hr (by simp) (by decide)).mono fun _ e₂ h₂ => ?_
  simp [hd, h.thunk]
  exact h₂.1.result hd [] (by simp [hW]) (by simp) (by simp) rfl (by decide)

section

variable (hΛ : ∀ l, e.labels ≤ l → Λ l = .any)
include hΛ

theorem arith_compiles (op : BinaryOp) (hd : dst.Slot W) (hl : lhs.Slot W) (hr : rhs.Slot W) :
    (arith op dst lhs rhs).Compiles Λ W site e k := by
  obtain ⟨dd, hd, hW⟩ := hd
  obtain ⟨dl, hl, -⟩ := hl
  obtain ⟨dr, hr, -⟩ := hr
  simp [Compiles, arith]
  refine (loadPair_good ((h.good W).alloc 3) h.trusts hl hr).mono fun _ e₁ h₁ => ?_
  by_cases ho : op = .multiply
  · simp [ho, hl, hr, hd, h.thunk, h₁.1.labels]
    exact (h₁.1.alloc 1).result hd [3, 1, 0, 2] (by simp [hΛ, hW]) (by simp) (by simp) rfl
      (by decide)
  · simp [ho, hl, hr, hd, h.thunk]
    exact h₁.1.result hd [1, 0, 2] (by simp [hΛ, hW]) (by simp) (by simp) rfl (by decide)

theorem divide_compiles (hd : dst.Slot W) (hl : lhs.Slot W) (hr : rhs.Slot W) :
    (divide dst lhs rhs).Compiles Λ W site e k := by
  obtain ⟨dd, hd, hW⟩ := hd
  obtain ⟨dl, hl, -⟩ := hl
  obtain ⟨dr, hr, -⟩ := hr
  simp [Compiles, divide]
  refine (loadPair_good ((h.good W).alloc 3) h.trusts hl hr).mono fun _ e₁ h₁ => ?_
  simp [hl, hr, hd, h.thunk]
  exact h₁.1.result hd [1, 0, 2] (by simp [hΛ, hW]) (by simp) (by simp) rfl (by decide)

theorem modulo_compiles (hd : dst.Slot W) (hl : lhs.Slot W) (hr : rhs.Slot W) :
    (modulo dst lhs rhs).Compiles Λ W site e k := by
  obtain ⟨dd, hd, hW⟩ := hd
  obtain ⟨dl, hl, -⟩ := hl
  obtain ⟨dr, hr, -⟩ := hr
  simp [Compiles, modulo]
  refine (loadPair_good ((h.good W).alloc 2) h.trusts hl hr).mono fun _ e₁ h₁ => ?_
  simp [hl, hr, hd, h.thunk]
  exact h₁.1.result hd [0, 1] (by simp [hΛ, hW]) (by simp) (by simp) rfl (by decide)

theorem shift_compiles (op : BinaryOp) (hd : dst.Slot W) (hl : lhs.Slot W) (hr : rhs.Slot W) :
    (shift op dst lhs rhs).Compiles Λ W site e k := by
  obtain ⟨dd, hd, hW⟩ := hd
  obtain ⟨dl, hl, -⟩ := hl
  obtain ⟨dr, hr, -⟩ := hr
  simp [Compiles, shift]
  refine (loadPair_good ((h.good W).alloc 2) h.trusts hl hr).mono fun _ e₁ h₁ => ?_
  by_cases ho : op = .shiftRightLogical
  · simp [ho, hl, hr, hd, h.thunk, h₁.1.labels]
    exact (h₁.1.alloc 1).result hd [2, 0, 1] (by simp [hΛ, hW]) (by simp) (by simp) rfl
      (by decide)
  · simp [ho, hl, hr, hd, h.thunk]
    exact h₁.1.result hd [0, 1] (by simp [hΛ, hW]) (by simp) (by simp) rfl (by decide)

theorem bitwise_compiles (op : BinaryOp) (hd : dst.Slot W) (hl : lhs.Slot W) (hr : rhs.Slot W) :
    (bitwise op dst lhs rhs).Compiles Λ W site e k := by
  obtain ⟨dd, hd, hW⟩ := hd
  obtain ⟨dl, hl, -⟩ := hl
  obtain ⟨dr, hr, -⟩ := hr
  simp [Compiles, bitwise]
  refine (loadPair_good ((h.good W).alloc 2) h.trusts hl hr).mono fun _ e₁ h₁ => ?_
  split
  all_goals
    simp [hl, hr, hd, h.thunk]
    exact h₁.1.result hd [0, 1] (by simp [hΛ, hW]) (by simp) (by simp) rfl (by decide)

theorem compare_compiles (c : Comparison) (hd : dst.Slot W) (hl : lhs.Slot W) (hr : rhs.Slot W) :
    (compare c dst lhs rhs).Compiles Λ W site e k := by
  obtain ⟨dd, hd, hW⟩ := hd
  obtain ⟨dl, hl, -⟩ := hl
  obtain ⟨dr, hr, -⟩ := hr
  simp [Compiles, compare]
  refine (loadPair_good ((h.good W).alloc 2) h.trusts hl hr).mono fun _ e₁ h₁ => ?_
  simp [hl, hr, hd, h.thunk]
  exact h₁.1.result hd [0, 1] (by simp [hΛ, hW]) (by simp) (by simp) rfl (by decide)

theorem binary_compiles (op : BinaryOp) (hd : dst.Slot W) (hl : lhs.Slot W) (hr : rhs.Slot W) :
    (binary op dst lhs rhs).Compiles Λ W site e k := by
  unfold binary
  split
  · exact arith_compiles h hΛ _ hd hl hr
  · exact arith_compiles h hΛ _ hd hl hr
  · exact arith_compiles h hΛ _ hd hl hr
  · exact divide_compiles h hΛ hd hl hr
  · exact modulo_compiles h hΛ hd hl hr
  · exact shift_compiles h hΛ _ hd hl hr
  · exact shift_compiles h hΛ _ hd hl hr
  · exact shift_compiles h hΛ _ hd hl hr
  · exact bitwise_compiles h hΛ _ hd hl hr
  · exact bitwise_compiles h hΛ _ hd hl hr
  · exact bitwise_compiles h hΛ _ hd hl hr
  · exact compare_compiles h hΛ _ hd hl hr
  · exact binaryStub_compiles h _ hd hl hr
  · exact binaryStub_compiles h _ hd hl hr

theorem compareBranch_compiles (sense : Bool) (c : Comparison) (hl : lhs.Slot W) (hr : rhs.Slot W)
    {t : JumpTarget} (ht : t ∈ site.jumps) :
    (compareBranch sense c lhs rhs t.label).Compiles Λ W site e k := by
  obtain ⟨dl, hl, -⟩ := hl
  obtain ⟨dr, hr, -⟩ := hr
  have hto : site.Outside t.label := .inr ⟨t, ht, rfl⟩
  simp [Compiles, compareBranch]
  refine (loadPair_good ((h.good W).alloc 2) h.trusts hl hr).mono fun _ e₁ h₁ => ?_
  have hup : e₁.upcoming = Register.invalid := h₁.2.trans h.upcoming
  simp [hl, hr, h.thunk, hup]
  exact h₁.1.effect rfl [0, 1] (by simp [hΛ, h.targets t ht]; rfl) (by simp [hto]) (by simp) rfl (by decide)

theorem toNumber_compiles {s : Stub} (hm : s.makesCalls = false) (hd : dst.Slot W) (hs : src.Slot W) :
    (toNumber s dst src).Compiles Λ W site e k := by
  obtain ⟨dd, hd, hW⟩ := hd
  obtain ⟨ds, hs, -⟩ := hs
  simp [Compiles, toNumber]
  refine (load_accumulator ((h.good W).alloc 1) h.trusts hs).mono fun _ e₁ h₁ => ?_
  simp [hd, h.thunk]
  exact h₁.1.result hd [0] (by simp [hΛ, hW, hm, -Stub.makesCalls]) (by simp) (by simp) rfl (by decide)

theorem negate_compiles (hd : dst.Slot W) (hs : src.Slot W) :
    (negate dst src).Compiles Λ W site e k := by
  obtain ⟨dd, hd, hW⟩ := hd
  obtain ⟨ds, hs, -⟩ := hs
  simp [Compiles, negate]
  refine (load_accumulator ((h.good W).alloc 2) h.trusts hs).mono fun _ e₁ h₁ => ?_
  simp [hs, hd, h.thunk]
  exact h₁.1.result hd [0, 1] (by simp [hΛ, hW]) (by simp) (by simp) rfl (by decide)

theorem not_compiles (hd : dst.Slot W) (hs : src.Slot W) :
    (not dst src).Compiles Λ W site e k := by
  obtain ⟨dd, hd, hW⟩ := hd
  obtain ⟨ds, hs, -⟩ := hs
  simp [Compiles, not]
  refine (load_accumulator ((h.good W).alloc 2) h.trusts hs).mono fun _ e₁ h₁ => ?_
  simp [hs, hd, h.thunk]
  exact h₁.1.result hd [0, 1] (by simp [hΛ, hW]) (by simp) (by simp) rfl (by decide)

theorem bitNot_compiles (hd : dst.Slot W) (hs : src.Slot W) :
    (bitNot dst src).Compiles Λ W site e k := by
  obtain ⟨dd, hd, hW⟩ := hd
  obtain ⟨ds, hs, -⟩ := hs
  simp [Compiles, bitNot]
  refine (load_accumulator ((h.good W).alloc 2) h.trusts hs).mono fun _ e₁ h₁ => ?_
  simp [hs, hd, h.thunk]
  exact h₁.1.result hd [0, 1] (by simp [hΛ, hW]) (by simp) (by simp) rfl (by decide)

theorem stepInPlace_compiles (s : Step) (hd : dst.Slot W) :
    (stepInPlace s dst).Compiles Λ W site e k := by
  obtain ⟨dd, hd, hW⟩ := hd
  simp [Compiles, stepInPlace, addDelta]
  refine (load_accumulator ((h.good W).alloc 2) h.trusts hd).mono fun _ e₁ h₁ => ?_
  simp [hd, h.thunk, h₁.1.labels]
  refine (h₁.1.alloc 1).result hd [2, 0, 1] ?_ (by simp) (by simp) rfl (by decide)
  cases hs : s.decrement <;> simp [stepStub, hs, hΛ, hW]

theorem stepKeeping_compiles (s : Step) (hd : dst.Slot W) (hs : src.Slot W) :
    (stepKeeping s dst src).Compiles Λ W site e k := by
  unfold stepKeeping
  split
  · exact toNumber_compiles h hΛ rfl hd hs
  obtain ⟨dd, hd, hWd⟩ := hd
  obtain ⟨ds, hs, hWs⟩ := hs
  simp [Compiles, addDelta]
  refine (load_accumulator ((h.good W).alloc 2) h.trusts hs).mono fun _ e₁ h₁ => ?_
  simp [hs, hd, h.thunk, h₁.1.labels]
  refine (h₁.1.alloc 1).result hs [2, 0, 1] ?_ (by simp) (by simp) rfl (by decide)
  cases ho : s.decrement <;> simp [stepStub, ho, hΛ, hWd, hWs]

theorem toPrimitiveString_compiles (hd : dst.Slot W) (hs : src.Slot W) :
    (toPrimitiveString dst src).Compiles Λ W site e k := by
  obtain ⟨dd, hd, hW⟩ := hd
  obtain ⟨ds, hs, -⟩ := hs
  simp [Compiles, toPrimitiveString]
  refine (load_accumulator ((h.good W).alloc 1) h.trusts hs).mono fun _ e₁ h₁ => ?_
  simp [hd, h.thunk]
  exact h₁.1.result hd [0] (by simp [hΛ, hW]) (by simp) (by simp) rfl (by decide)

end

theorem unaryStub_compiles {s : Stub} (hm : s.makesCalls = false) (hd : dst.Slot W)
    (hs : src.Slot W) : (unaryStub s dst src).Compiles Λ W site e k := by
  obtain ⟨dd, hd, hW⟩ := hd
  obtain ⟨ds, hs, -⟩ := hs
  simp only [Compiles, unaryStub, yields_bind]
  refine (load_scratch (h.good W) h.trusts hs (by simp) (by decide)).mono fun _ e₁ h₁ => ?_
  simp [hd, h.thunk]
  exact h₁.1.result hd [] (by simp [hW, hm, -Stub.makesCalls]) (by simp) (by simp) rfl (by decide)

theorem concat_compiles {start : Register} (hd : dst.Slot W) (hs : start.Slot W) (count : UInt32) :
    (concat dst start count).Compiles Λ W site e k := by
  obtain ⟨dd, hd, hW⟩ := hd
  obtain ⟨ds, hs, -⟩ := hs
  simp [Compiles, concat, hs, hd, h.thunk]
  exact (h.good W).result hd [] (by simp [hW]) (by simp) (by simp) rfl (by decide)

end

/-! ## Loads, variables and members -/

section

variable {dst src r : Register}

theorem move_compiles (hd : dst.Slot W) (hs : src.Slot W) :
    (move dst src).Compiles Λ W site e k := by
  obtain ⟨dd, hd, hW⟩ := hd
  obtain ⟨ds, hs, -⟩ := hs
  simp only [Compiles, move, yields_bind]
  refine (load_accumulator (h.good W) h.trusts hs).mono fun _ e₁ h₁ => ?_
  simp [hd]
  exact h₁.1.result hd [] (by simp [hW]) (by simp) (by simp) rfl (by decide)

theorem loadImmediate_compiles (i : Immediate) (hd : dst.Slot W) :
    (loadImmediate i dst).Compiles Λ W site e k := by
  obtain ⟨dd, hd, hW⟩ := hd
  simp [Compiles, loadImmediate]
  split
  all_goals
    simp [hd]
    exact (h.good W).result hd [] (by simp [hW]) (by simp) (by simp) rfl (by decide)

theorem loadInt32_compiles (i : Int32) (hd : dst.Slot W) :
    (loadInt32 dst i).Compiles Λ W site e k := by
  obtain ⟨dd, hd, hW⟩ := hd
  simp [Compiles, loadInt32, hd]
  exact (h.good W).result hd [] (by simp [hW]) (by simp) (by simp) rfl (by decide)

theorem loadConst_compiles {i : UInt32} (hi : i.toNat < site.unit.pool.size) (hd : dst.Slot W) :
    (loadConst dst i).Compiles Λ W site e k := by
  obtain ⟨dd, hd, hW⟩ := hd
  simp [Compiles, loadConst, yields_constant hi, hd]
  exact (h.good W).result hd [] (by simp [hW]) (by simp) (by simp) rfl (by decide)

theorem loadCallee_compiles (hd : dst.Slot W) : (loadCallee dst).Compiles Λ W site e k := by
  obtain ⟨dd, hd, hW⟩ := hd
  simp [Compiles, loadCallee, hd]
  exact (h.good W).result hd [] (by simp [hW]) (by simp) (by simp) rfl (by decide)

theorem loadArguments_compiles (hd : dst.Slot W) : (loadArguments dst).Compiles Λ W site e k := by
  obtain ⟨dd, hd, hW⟩ := hd
  simp [Compiles, loadArguments, hd, h.thunk]
  exact (h.good W).result hd [] (by simp [hW]) (by simp) (by simp) rfl (by decide)

theorem loadFunction_compiles {i : UInt32} (hi : i.toNat < site.unit.code.codes.length)
    (hd : dst.Slot W) : (loadFunction dst i).Compiles Λ W site e k := by
  obtain ⟨dd, hd, hW⟩ := hd
  simp [Compiles, loadFunction, Nat.not_le.2 hi, hd, h.thunk]
  exact (h.good W).result hd [] (by simp [hW]) (by simp) (by simp) rfl (by decide)

theorem loadRegExp_compiles {i j : UInt32} (hi : i.toNat < site.unit.pool.size)
    (hj : j.toNat < site.unit.pool.size) (hd : dst.Slot W) :
    (loadRegExp dst i j).Compiles Λ W site e k := by
  obtain ⟨dd, hd, hW⟩ := hd
  simp [Compiles, loadRegExp, yields_constant hi, yields_constant hj, hd, h.thunk]
  exact (h.good W).result hd [] (by simp [hW]) (by simp) (by simp) rfl (by decide)

theorem loadArray_compiles (size : UInt32) (hd : dst.Slot W) :
    (loadArray dst size).Compiles Λ W site e k := by
  obtain ⟨dd, hd, hW⟩ := hd
  simp [Compiles, loadArray, hd, h.thunk]
  exact (h.good W).result hd [] (by simp [hW]) (by simp) (by simp) rfl (by decide)

theorem loadObject_compiles (hd : dst.Slot W) : (loadObject dst).Compiles Λ W site e k := by
  obtain ⟨dd, hd, hW⟩ := hd
  simp [Compiles, loadObject, hd, h.thunk]
  exact (h.good W).result hd [] (by simp [hW]) (by simp) (by simp) rfl (by decide)

theorem initVectorElement_compiles {array start : Register} (ha : array.Slot W)
    (hs : start.Slot W) (index count : UInt32) :
    (initVectorElement array start index count).Compiles Λ W site e k := by
  obtain ⟨da, ha, -⟩ := ha
  obtain ⟨ds, hs, -⟩ := hs
  simp only [Compiles, initVectorElement, yields_bind]
  refine (load_scratch (h.good W) h.trusts ha (by simp) (by decide)).mono fun _ e₁ h₁ => ?_
  simp [hs, h.thunk]
  exact h₁.1.effect (h₁.2.2.trans h.upcoming) [] (by simp; rfl) (by simp) (by simp) rfl (by decide)

theorem initSparseElement_compiles {array : Register} (ha : array.Slot W) (index : UInt32)
    (hs : src.Slot W) : (initSparseElement array index src).Compiles Λ W site e k := by
  obtain ⟨da, ha, -⟩ := ha
  obtain ⟨ds, hs, -⟩ := hs
  simp only [Compiles, initSparseElement, yields_bind]
  refine (load_scratch (h.good W) h.trusts ha (by simp) (by decide)).mono fun _ e₁ h₁ => ?_
  rw [yields_immediate]
  have hq := h₁.1.quiet (i := .movImm32 .rdx index) rfl rfl (by decide)
  refine (load_scratch hq h₁.2.1 hs (by simp) (by decide)).mono fun _ e₂ h₂ => ?_
  simp [h.thunk]
  exact h₂.1.effect (h₂.2.2.trans (h₁.2.2.trans h.upcoming)) [] (by simp; rfl) (by simp) (by simp)
    rfl (by decide)

theorem storeObject_compiles (part : PropertyPart) {object item : Register} (ho : object.Slot W)
    (hi : item.Slot W) (merged : UInt32) {name : UInt32}
    (hn : name.toNat < site.unit.code.names.size) :
    (storeObject part object item merged name).Compiles Λ W site e k := by
  obtain ⟨da, ho, -⟩ := ho
  obtain ⟨ds, hi, -⟩ := hi
  simp only [Compiles, storeObject, yields_bind]
  refine (load_scratch (h.good W) h.trusts ho (by simp) (by decide)).mono fun _ e₁ h₁ => ?_
  rw [yields_symbol hn]
  have hq := h₁.1.value .rdx rfl (by decide) (codeReference site.unit.id name)
  refine (load_scratch hq h₁.2.1 hi (by simp) (by decide)).mono fun _ e₂ h₂ => ?_
  simp [h.thunk]
  exact h₂.1.effect (h₂.2.2.trans (h₁.2.2.trans h.upcoming)) [] (by simp; rfl) (by simp) (by simp)
    rfl (by decide)

theorem nameStub_compiles {s : Stub} (hm : s.makesCalls = false) {name : UInt32}
    (hn : name.toNat < site.unit.code.names.size) (hd : dst.Slot W) :
    (nameStub s dst name).Compiles Λ W site e k := by
  obtain ⟨dd, hd, hW⟩ := hd
  simp [Compiles, nameStub, hn, hd, h.thunk]
  exact (h.good W).result hd [] (by simp [hW, hm, -Stub.makesCalls]) (by simp) (by simp) rfl
    (by decide)

theorem frameNameStub_compiles {s : Stub} (hm : s.makesCalls = false) {name : UInt32}
    (hn : name.toNat < site.unit.code.names.size) (hd : dst.Slot W) :
    (frameNameStub s dst name).Compiles Λ W site e k := by
  obtain ⟨dd, hd, hW⟩ := hd
  simp [Compiles, frameNameStub, hn, hd, h.thunk]
  exact (h.good W).result hd [] (by simp [hW, hm, -Stub.makesCalls]) (by simp) (by simp) rfl
    (by decide)

theorem global_compiles (a : VariableAccess) (hr : r.Slot W) {name : UInt32}
    (hn : name.toNat < site.unit.code.names.size) :
    (global a r name).Compiles Λ W site e k := by
  cases a with
  | delete => exact nameStub_compiles h rfl hn hr
  | typeof => exact nameStub_compiles h rfl hn hr
  | load =>
    obtain ⟨d, hr, hW⟩ := hr
    simp [Compiles, global, hn, hr, h.thunk]
    exact (h.good W).result hr [] (by simp [hW]) (by simp) (by simp) rfl (by decide)
  | step s =>
    obtain ⟨d, hr, hW⟩ := hr
    simp [Compiles, global, stepMode, hn, hr, h.thunk]
    exact (h.good W).result hr [] (by simp [hW]) (by simp) (by simp) rfl (by decide)
  | store =>
    obtain ⟨d, hr, -⟩ := hr
    simp only [Compiles, global, yields_bind]
    rw [yields_symbol hn]
    have hq := (h.good W).value .rsi rfl (by decide) (codeReference site.unit.id name)
    refine (load_scratch hq h.trusts hr (by simp) (by decide)).mono fun _ e₁ h₁ => ?_
    simp [h.thunk]
    exact h₁.1.effect (h₁.2.2.trans h.upcoming) [] (by simp; rfl) (by simp) (by simp) rfl
      (by decide)

theorem heapStub_compiles {s : Stub} (hm : s.makesCalls = false) {name : UInt32}
    (hn : name.toNat < site.unit.code.names.size) (hd : dst.Slot W) (offset nest : UInt32) :
    (heapStub s dst name offset nest).Compiles Λ W site e k := by
  obtain ⟨dd, hd, hW⟩ := hd
  simp [Compiles, heapStub, hn, hd, h.thunk]
  exact (h.good W).result hd [] (by simp [hW, hm, -Stub.makesCalls]) (by simp) (by simp) rfl
    (by decide)

theorem heap_compiles (a : VariableAccess) (hr : r.Slot W) {name : UInt32}
    (hn : name.toNat < site.unit.code.names.size) (offset nest : UInt32) :
    (heap a r name offset nest).Compiles Λ W site e k := by
  cases a with
  | load => exact heapStub_compiles h rfl hn hr offset nest
  | typeof => exact heapStub_compiles h rfl hn hr offset nest
  | delete => exact loadImmediate_compiles h .false hr
  | step s =>
    obtain ⟨d, hr, hW⟩ := hr
    simp [Compiles, heap, stepMode, hr, h.thunk]
    exact (h.good W).result hr [] (by simp [hW]) (by simp) (by simp) rfl (by decide)
  | store =>
    obtain ⟨d, hr, -⟩ := hr
    simp only [Compiles, heap, yields_bind]
    rw [yields_frame]
    have hq := (h.good W).quiet (i := .mov .w64 .rsi frameReg) rfl rfl (by decide)
    refine (load_scratch hq h.trusts hr (by simp) (by decide)).mono fun _ e₁ h₁ => ?_
    simp [h.thunk]
    exact h₁.1.effect (h₁.2.2.trans h.upcoming) [] (by simp; rfl) (by simp) (by simp) rfl
      (by decide)

theorem dynamic_compiles (a : VariableAccess) (hr : r.Slot W) {name : UInt32}
    (hn : name.toNat < site.unit.code.names.size) :
    (dynamic a r name).Compiles Λ W site e k := by
  cases a with
  | load => exact frameNameStub_compiles h rfl hn hr
  | delete => exact frameNameStub_compiles h rfl hn hr
  | typeof => exact frameNameStub_compiles h rfl hn hr
  | step s =>
    obtain ⟨d, hr, hW⟩ := hr
    simp [Compiles, dynamic, stepMode, hn, hr, h.thunk]
    exact (h.good W).result hr [] (by simp [hW]) (by simp) (by simp) rfl (by decide)
  | store =>
    obtain ⟨d, hr, -⟩ := hr
    simp only [Compiles, dynamic, yields_bind]
    rw [yields_frame, yields_symbol hn]
    have hq := ((h.good W).quiet (i := .mov .w64 .rsi frameReg) rfl rfl (by decide)).value
      .rdx rfl (by decide) (codeReference site.unit.id name)
    refine (load_scratch hq h.trusts hr (by simp) (by decide)).mono fun _ e₁ h₁ => ?_
    simp [h.thunk]
    exact h₁.1.effect (h₁.2.2.trans h.upcoming) [] (by simp; rfl) (by simp) (by simp) rfl
      (by decide)

theorem coercible_good (hΛ : Λ e.labels = ⟨.body, k⟩) {base : Register} (hb : base.Slot W) :
    (coercible base).Yields site e fun _ e' =>
      e'.Good Λ W site.Outside ⟨.body, k⟩ e.labels ⟨.body, k⟩ [e.labels] (e.labels + 1) ∧
        e'.Trusts k ∧ e'.upcoming = Register.invalid := by
  obtain ⟨d, hb, -⟩ := hb
  simp only [coercible, yields_bind]
  refine (load_scratch (h.good W) h.trusts hb (by simp) (by decide)).mono fun _ e₁ h₁ => ?_
  simp [callStubNoReturn, compareNullish, h.thunk, h₁.1.labels]
  refine ⟨?_, h₁.2.1, h₁.2.2.trans h.upcoming⟩
  have hg := (h₁.1.alloc 1).write [.instr (.mov .w64 .rcx .rsi),
    .instr (.aluImm .and .w64 .rcx (-9)), .instr (.aluImm .cmp .w64 .rcx 2), .jcc .ne e.labels,
    .instr (.mov .w64 .rdi contextReg), .instr (.movImm32 .rax Stub.raiseNotCoercible.number),
    .call Session.stubThunk, .instr .ud2, .bind e.labels] (b := ⟨.body, k⟩) ?_ (by simp)
  · exact hg.congr rfl hg.labels.symm
  · have hk (i : Instr) (hw : i.writes = [.rcx] ∨ i.writes = []) : k.after i = k := by
      refine Content.after_of_kept fun hm => ?_
      rcases hw with hw | hw <;> rw [hw] at hm
      · exact absurd (List.mem_singleton.1 hm) (by decide)
      · cases hm
    simp [hΛ, hk]

theorem prop_compiles (a : MemberAccess) (hΛ : Λ e.labels = ⟨.body, k⟩) {base : Register}
    (hr : r.Slot W) (hb : base.Slot W) {name : UInt32}
    (hn : name.toNat < site.unit.code.names.size) :
    (prop a r base name).Compiles Λ W site e k := by
  obtain ⟨d, hr, hW⟩ := hr
  simp only [Compiles, prop, yields_bind]
  refine (coercible_good h hΛ hb).mono fun _ e₁ h₁ => ?_
  rw [yields_symbol hn]
  have hq := h₁.1.value .rdx rfl (by decide) (codeReference site.unit.id name)
  cases a with
  | load | delete | step =>
    simp [stepMode, hr, h.thunk]
    exact h₁.1.result hr [0] (by simp [hW]) (by simp) (by simp) rfl (by decide)
  | store =>
    simp only [yields_bind]
    refine (load_scratch hq h₁.2.1 hr (by simp) (by decide)).mono fun _ e₂ h₂ => ?_
    simp [h.thunk]
    exact h₂.1.effect (h₂.2.2.trans h₁.2.2) [0] (by simp; rfl) (by simp) (by simp) rfl (by decide)

theorem element_compiles (a : MemberAccess) (hΛ : Λ e.labels = ⟨.body, k⟩) {base index : Register}
    (hr : r.Slot W) (hb : base.Slot W) (hi : index.Slot W) :
    (element a r base index).Compiles Λ W site e k := by
  obtain ⟨d, hr, hW⟩ := hr
  obtain ⟨di, hi, -⟩ := hi
  simp only [Compiles, element, yields_bind]
  refine (coercible_good h hΛ hb).mono fun _ e₁ h₁ => ?_
  refine (load_scratch h₁.1 h₁.2.1 hi (by simp) (by decide)).mono fun _ e₂ h₂ => ?_
  cases a with
  | load | delete | step =>
    simp [stepMode, hr, h.thunk]
    exact h₂.1.result hr [0] (by simp [hW]) (by simp) (by simp) rfl (by decide)
  | store =>
    simp only [yields_bind]
    refine (load_scratch h₂.1 h₂.2.1 hr (by simp) (by decide)).mono fun _ e₃ h₃ => ?_
    simp [h.thunk]
    exact h₃.1.effect (h₃.2.2.trans (h₂.2.2.trans h₁.2.2)) [0] (by simp; rfl) (by simp) (by simp)
      rfl (by decide)

/-! ## Environments -/

theorem buildEnv_compiles (size mutableStart : UInt32) :
    (buildEnv size mutableStart).Compiles Λ W site e k := by
  simp [Compiles, buildEnv, h.thunk]
  exact (h.good W).effect h.upcoming [] (by simp; rfl) (by simp) (by simp) rfl (by decide)

theorem instantiate_compiles (isVariable configurable : Bool) {name : UInt32}
    (hn : name.toNat < site.unit.code.names.size) :
    (instantiate isVariable name configurable).Compiles Λ W site e k := by
  simp [Compiles, instantiate, hn, h.thunk]
  exact (h.good W).effect h.upcoming [] (by simp; rfl) (by simp) (by simp) rfl (by decide)

theorem initializeHeapImmutable_compiles (hs : src.Slot W) (offset : UInt32) :
    (initializeHeapImmutable src offset).Compiles Λ W site e k := by
  obtain ⟨d, hs, -⟩ := hs
  simp only [Compiles, initializeHeapImmutable, yields_bind]
  rw [yields_frame]
  have hq := (h.good W).quiet (i := .mov .w64 .rsi frameReg) rfl rfl (by decide)
  refine (load_scratch hq h.trusts hs (by simp) (by decide)).mono fun _ e₁ h₁ => ?_
  simp [h.thunk]
  exact h₁.1.effect (h₁.2.2.trans h.upcoming) [] (by simp; rfl) (by simp) (by simp) rfl (by decide)

theorem withSetup_compiles (hs : src.Slot W) : (withSetup src).Compiles Λ W site e k := by
  obtain ⟨d, hs, -⟩ := hs
  simp only [Compiles, withSetup, yields_bind]
  rw [yields_frame]
  have hq := (h.good W).quiet (i := .mov .w64 .rsi frameReg) rfl rfl (by decide)
  refine (load_scratch hq h.trusts hs (by simp) (by decide)).mono fun _ e₁ h₁ => ?_
  simp [h.thunk]
  exact h₁.1.effect (h₁.2.2.trans h.upcoming) [] (by simp; rfl) (by simp) (by simp) rfl (by decide)

theorem popEnv_compiles : popEnv.Compiles Λ W site e k := by
  simp [Compiles, popEnv, h.thunk]
  exact (h.good W).effect h.upcoming [] (by simp; rfl) (by simp) (by simp) rfl (by decide)

theorem debugger_compiles : (callStub .debugger).Compiles Λ W site e k := by
  simp [Compiles, h.thunk]
  exact (h.good W).effect h.upcoming [] (by simp; rfl) (by simp) (by simp) rfl (by decide)

theorem raiseReference_compiles : (callStubNoReturn .raiseReference).Compiles Λ W site e k := by
  simp [Compiles, callStubNoReturn, h.thunk]
  exact (h.good W).stop [] (by simp) (by simp) (by simp) rfl (by decide)

theorem raiseImmutable_compiles {name : UInt32} (hn : name.toNat < site.unit.code.names.size) :
    Compiles (do symbol .rsi name; callStubNoReturn .raiseImmutable) Λ W site e k := by
  simp [Compiles, callStubNoReturn, hn, h.thunk]
  exact (h.good W).stop [] (by simp) (by simp) (by simp) rfl (by decide)

theorem throw_compiles (hs : src.Slot W) :
    Compiles (do load .rsi src; callStubNoReturn .throw) Λ W site e k := by
  obtain ⟨d, hs, -⟩ := hs
  simp only [Compiles, yields_bind]
  refine (load_scratch (h.good W) h.trusts hs (by simp) (by decide)).mono fun _ e₁ h₁ => ?_
  simp [callStubNoReturn, h.thunk]
  exact h₁.1.stop [] (by simp) (by simp) (by simp) rfl (by decide)

end

/-! ## Control flow -/

section

variable {r dst : Register} {t : JumpTarget} (ht : t ∈ site.jumps)
include ht

theorem jump_compiles : (jmp t.label).Compiles Λ W site e k := by
  have hto : site.Outside t.label := .inr ⟨t, ht, rfl⟩
  simp [Compiles]
  exact (h.good W).stop [] (by simp [h.targets t ht]) (by simp [hto]) (by simp) rfl (by decide)

theorem conditionalJump_compiles (hΛ : ∀ l, e.labels ≤ l → Λ l = .any) (sense : Bool)
    (hr : r.Slot W) (hne : t.label ≠ e.labels) :
    (conditionalJump r t.label sense).Compiles Λ W site e k := by
  obtain ⟨d, hr, -⟩ := hr
  have hto : site.Outside t.label := .inr ⟨t, ht, rfl⟩
  have hta : Λ t.label = .any := h.targets t ht
  simp [Compiles, conditionalJump]
  refine (load_accumulator ((h.good W).alloc 1) h.trusts hr).mono fun _ e₁ h₁ => ?_
  have hup : e₁.upcoming = Register.invalid := h₁.2.2.trans h.upcoming
  cases sense
  · simp [compareNullish, h.thunk, hne]
    exact h₁.1.effect hup [0] (by simp [hΛ, hta]; rfl) (by simp [hto]) (by simp) rfl (by decide)
  · simp [compareNullish, h.thunk]
    exact h₁.1.effect hup [0] (by simp [hΛ, hta]; rfl) (by simp [hto]) (by simp) rfl (by decide)

theorem jumpSubroutine_compiles (hΛ : ∀ l, e.labels ≤ l → Λ l = .any) {jump flag : Register}
    (hj : jump.Slot W) (hf : flag.Slot W) :
    (jumpSubroutine jump flag t.label).Compiles Λ W site e k := by
  obtain ⟨dj, hj, hWj⟩ := hj
  obtain ⟨df, hf, hWf⟩ := hf
  have hto : site.Outside t.label := .inr ⟨t, ht, rfl⟩
  have hta : Λ t.label = .any := h.targets t ht
  simp [Compiles, jumpSubroutine, hj, hf]
  exact ((h.good W).alloc 1).effect h.upcoming [0] (by simp [hΛ, hta, hWj, hWf]; rfl) (by simp [hto]) (by simp)
    rfl (by decide)

theorem forInSetup_compiles {iterator enumerable : Register} (hi : iterator.Slot W)
    (he : enumerable.Slot W) : (forInSetup iterator enumerable t.label).Compiles Λ W site e k := by
  obtain ⟨di, hi, hW⟩ := hi
  obtain ⟨de, he, -⟩ := he
  have hto : site.Outside t.label := .inr ⟨t, ht, rfl⟩
  simp only [Compiles, forInSetup, yields_bind]
  refine (load_accumulator (h.good W) h.trusts he).mono fun _ e₁ h₁ => ?_
  simp [compareNullish, hi, h.thunk]
  exact h₁.1.result hi [] (by simp [hW, h.targets t ht]) (by simp [hto]) (by simp) rfl (by decide)

theorem forInEnumerate_compiles {iterator : Register} (hd : dst.Slot W) (hi : iterator.Slot W) :
    (forInEnumerate dst iterator t.label).Compiles Λ W site e k := by
  obtain ⟨dd, hd, hW⟩ := hd
  obtain ⟨di, hi, -⟩ := hi
  have hto : site.Outside t.label := .inr ⟨t, ht, rfl⟩
  simp only [Compiles, forInEnumerate, yields_bind]
  refine (load_scratch (h.good W) h.trusts hi (by simp) (by decide)).mono fun _ e₁ h₁ => ?_
  simp [hd, h.thunk]
  exact h₁.1.result hd [] (by simp [hW, h.targets t ht]) (by simp [hto]) (by simp) rfl (by decide)

omit ht

theorem forInLeave_compiles {iterator : Register} (hi : iterator.Slot W) :
    (forInLeave iterator).Compiles Λ W site e k := by
  obtain ⟨d, hi, -⟩ := hi
  simp only [Compiles, forInLeave, yields_bind]
  refine (load_scratch (h.good W) h.trusts hi (by simp) (by decide)).mono fun _ e₁ h₁ => ?_
  simp [h.thunk]
  exact h₁.1.effect (h₁.2.2.trans h.upcoming) [] (by simp; rfl) (by simp) (by simp) rfl (by decide)

theorem returnSubroutine_compiles (hΛ : ∀ l, e.labels ≤ l → Λ l = .any) {jump flag : Register}
    (hj : jump.Slot W) (hf : flag.Slot W) :
    (returnSubroutine jump flag).Compiles Λ W site e k := by
  obtain ⟨dj, hj, -⟩ := hj
  obtain ⟨df, hf, -⟩ := hf
  simp [Compiles, returnSubroutine, callStubNoReturn, hj, hf, h.thunk]
  exact ((h.good W).alloc 1).stop [0] (by simp [hΛ]) (by simp) (by simp) rfl (by decide)

theorem return_compiles (hr : r.Slot W) :
    Compiles (do load .rax r; returnAccumulator) Λ W site e k := by
  obtain ⟨d, hr, -⟩ := hr
  simp only [Compiles, yields_bind]
  refine (load_accumulator (h.good W) h.trusts hr).mono fun _ e₁ h₁ => ?_
  simp [returnAccumulator]
  exact h₁.1.stop [] (by simp) (by simp) (by simp) rfl (by decide)

theorem prepareDynamicCall_compiles {receiver : Register} (hd : dst.Slot W) (hr : receiver.Slot W)
    {name : UInt32} (hn : name.toNat < site.unit.code.names.size) :
    (prepareDynamicCall dst receiver name).Compiles Λ W site e k := by
  obtain ⟨dd, hd, hW⟩ := hd
  obtain ⟨dr, hr, -⟩ := hr
  simp [Compiles, prepareDynamicCall, hn, hd, hr, h.thunk]
  exact (h.good W).result hd [] (by simp [hW]) (by simp) (by simp) rfl (by decide)

theorem callShaped_compiles {s : Stub} (hm : s.makesCalls = true)
    (hΛ₀ : Λ e.labels = ⟨.accepted, .unknown⟩) (hΛ : ∀ l, e.labels < l → Λ l = .any)
    {callee start : Register} (hd : dst.Slot W) (hc : callee.Slot W) (hs : start.Slot W)
    (argc : UInt32) : (callShaped s dst callee start argc).Compiles Λ W site e k := by
  obtain ⟨dd, hd, hW⟩ := hd
  obtain ⟨dc, hc, -⟩ := hc
  obtain ⟨ds, hs, -⟩ := hs
  simp [Compiles, callShaped]
  refine (load_scratch ((h.good W).alloc 2) h.trusts hc (by simp) (by decide)).mono
    fun _ e₁ h₁ => ?_
  by_cases hcon : s = .construct
  · simp [jumpIfObject, hcon, hd, hs, h.thunk, h₁.1.labels]
    refine (h₁.1.alloc 2).result hd [0, 3, 2, 1] ?_ (by simp) (by simp) rfl (by decide)
    simp [hΛ₀, hΛ, hW]
  · simp [hcon, hd, hs, h.thunk]
    refine h₁.1.result hd [0, 1] ?_ (by simp) (by simp) rfl (by decide)
    simp [hΛ₀, hΛ, hW, hm, -Stub.makesCalls]

end

/-! ## Every instruction -/

omit h

/-- The note of a label that an instruction allocates. -/
def labelNote (op : Opcode) (k : Content) : Nat → Note
  | 0 =>
    match op with
    | .prop _ | .element _ => ⟨.body, k⟩
    | .call | .construct | .eval => ⟨.accepted, .unknown⟩
    | _ => .any
  | _ => .any

/-- The operands of an instruction refer to what is there. -/
structure Fits (W : Int32 → Prop) (site : Site) (ins : Instruction) : Prop where
  register : ∀ i, ins.opcode.format[i]? = some .register → (ins.reg i).Slot W
  packed : ∀ i, ins.opcode.format[i]? = some .packed →
    (Word.unpack (ins.operand i)).1.Slot W ∧ (Word.unpack (ins.operand i)).2.1.Slot W
  constant : ∀ i, ins.opcode.format[i]? = some .constant →
    (ins.u32 i).toNat < site.unit.pool.size
  name : ∀ i, ins.opcode.format[i]? = some .name →
    (ins.u32 i).toNat < site.unit.code.names.size
  code : ∀ i, ins.opcode.format[i]? = some .code →
    (ins.u32 i).toNat < site.unit.code.codes.length
  jump : ∀ t, ins.target? = some t → ∃ j, site.jumps.find? t = some j

theorem Fits.target {ins : Instruction} (hf : Fits W site ins) {t : UInt32}
    (ht : ins.target? = some t) :
    ∃ j ∈ site.jumps, ∀ Q, (jumpLabel ins).Yields site e Q ↔ Q j.label e := by
  obtain ⟨j, hj⟩ := hf.jump t ht
  refine ⟨j, List.mem_of_find?_eq_some hj, fun Q => ?_⟩
  simp [jumpLabel, targetLabel, ht, hj]

theorem nop_compiles (h : Start Λ site e k) :
    (modify fun e => { e with upcoming := e.cached } : Emit Unit).Compiles Λ W site e k := by
  rw [Compiles, yields_modify]
  refine ⟨⟨.body, k⟩, [], (h.good W).congr rfl rfl, .refl _, .inr ⟨rfl, h.trusts⟩⟩

theorem instruction_compiles (h : Start Λ site e k) {ins : Instruction} (hf : Fits W site ins)
    (hΛ : ∀ i, Λ (e.labels + i) = labelNote ins.opcode k i)
    (hlow : ∀ t ∈ site.jumps, t.label < e.labels) :
    (instruction ins).Compiles Λ W site e k := by
  have hany (h₀ : labelNote ins.opcode k 0 = .any) : ∀ l : Nat, e.labels ≤ l → Λ l = .any := by
    intro l hl
    obtain ⟨i, rfl⟩ := Nat.exists_eq_add_of_le hl
    rw [hΛ]
    cases i with
    | zero => exact h₀
    | succ i => rfl
  have hfirst : Λ e.labels = labelNote ins.opcode k 0 := hΛ 0
  have hlater : ∀ l : Nat, e.labels < l → Λ l = .any := by
    intro l hl
    obtain ⟨i, rfl⟩ := Nat.exists_eq_add_of_lt hl
    exact hΛ (i + 1)
  obtain ⟨offset, op, words⟩ := ins
  have r := hf.register
  have u := hf.name
  cases op with
  | nop => exact nop_compiles h
  | move => exact move_compiles h (r 0 rfl) (r 1 rfl)
  | loadImmediate i => exact loadImmediate_compiles h i (r 0 rfl)
  | loadInt32 => exact loadInt32_compiles h _ (r 0 rfl)
  | loadConst => exact loadConst_compiles h (hf.constant 1 rfl) (r 0 rfl)
  | loadCallee => exact loadCallee_compiles h (r 0 rfl)
  | loadArguments => exact loadArguments_compiles h (r 0 rfl)
  | loadFunction => exact loadFunction_compiles h (hf.code 1 rfl) (r 0 rfl)
  | loadRegExp =>
    exact loadRegExp_compiles h (hf.constant 1 rfl) (hf.constant 2 rfl) (r 0 rfl)
  | loadArray => exact loadArray_compiles h _ (r 0 rfl)
  | initVectorElement =>
    exact initVectorElement_compiles h (hf.packed 0 rfl).1 (hf.packed 0 rfl).2 _ _
  | initSparseElement => exact initSparseElement_compiles h (r 0 rfl) _ (r 2 rfl)
  | loadObject => exact loadObject_compiles h (r 0 rfl)
  | storeObject part =>
    exact storeObject_compiles h part (hf.packed 0 rfl).1 (hf.packed 0 rfl).2 _ (u 1 rfl)
  | global a => exact global_compiles h a (r 0 rfl) (u 1 rfl)
  | heap a =>
    cases a with
    | load => exact heap_compiles h .load (r 0 rfl) (u 1 rfl) _ _
    | store => exact heap_compiles h .store (r 0 rfl) (u 1 rfl) _ _
    | delete => exact loadImmediate_compiles h .false (r 0 rfl)
    | typeof => exact heap_compiles h .typeof (r 0 rfl) (u 1 rfl) _ _
    | step s => exact heap_compiles h (.step s) (r 0 rfl) (u 1 rfl) _ _
  | dynamic a => exact dynamic_compiles h a (r 0 rfl) (u 1 rfl)
  | prop a =>
    cases a with
    | store => exact prop_compiles h .store hfirst (r 2 rfl) (r 0 rfl) (u 1 rfl)
    | load => exact prop_compiles h .load hfirst (r 0 rfl) (r 1 rfl) (u 2 rfl)
    | delete => exact prop_compiles h .delete hfirst (r 0 rfl) (r 1 rfl) (u 2 rfl)
    | step s => exact prop_compiles h (.step s) hfirst (r 0 rfl) (r 1 rfl) (u 2 rfl)
  | element a =>
    cases a with
    | store => exact element_compiles h .store hfirst (r 2 rfl) (r 0 rfl) (r 1 rfl)
    | load => exact element_compiles h .load hfirst (r 0 rfl) (r 1 rfl) (r 2 rfl)
    | delete => exact element_compiles h .delete hfirst (r 0 rfl) (r 1 rfl) (r 2 rfl)
    | step s => exact element_compiles h (.step s) hfirst (r 0 rfl) (r 1 rfl) (r 2 rfl)
  | binary op => exact binary_compiles h (hany rfl) op (r 0 rfl) (r 1 rfl) (r 2 rfl)
  | branch sense c =>
    obtain ⟨j, hj, hyields⟩ := hf.target (e := e) rfl
    exact yields_bind.2 ((hyields _).2
      (compareBranch_compiles h (hany rfl) sense c (r 0 rfl) (r 1 rfl) hj))
  | unaryPositive => exact toNumber_compiles h (hany rfl) rfl (r 0 rfl) (r 1 rfl)
  | unaryNegative => exact negate_compiles h (hany rfl) (r 0 rfl) (r 1 rfl)
  | unaryNot => exact not_compiles h (hany rfl) (r 0 rfl) (r 1 rfl)
  | unaryBitNot => exact bitNot_compiles h (hany rfl) (r 0 rfl) (r 1 rfl)
  | typeof => exact unaryStub_compiles h rfl (r 0 rfl) (r 1 rfl)
  | step s =>
    change (if s.keepsOld then stepKeeping s _ _ else stepInPlace s _).Compiles Λ W site e k
    obtain ⟨decrement, keepsOld⟩ := s
    cases keepsOld with
    | false =>
      rw [if_neg Bool.false_ne_true]
      exact stepInPlace_compiles h (hany rfl) _ (r 0 rfl)
    | true =>
      rw [if_pos rfl]
      exact stepKeeping_compiles h (hany rfl) _ (r 0 rfl) (r 1 rfl)
  | toNumber => exact toNumber_compiles h (hany rfl) rfl (r 0 rfl) (r 1 rfl)
  | toPrimitiveString => exact toPrimitiveString_compiles h (hany rfl) (r 0 rfl) (r 1 rfl)
  | concat => exact concat_compiles h (r 0 rfl) (r 1 rfl) _
  | raiseReference => exact raiseReference_compiles h
  | raiseImmutable => exact raiseImmutable_compiles h (u 0 rfl)
  | throw => exact throw_compiles h (r 0 rfl)
  | debugger => exact debugger_compiles h
  | tryCatchSetup => exact frameNameStub_compiles h rfl (u 1 rfl) (r 0 rfl)
  | buildEnv => exact buildEnv_compiles h _ _
  | instantiateDeclaration => exact instantiate_compiles h _ _ (u 0 rfl)
  | instantiateVariable => exact instantiate_compiles h _ _ (u 0 rfl)
  | initializeHeapImmutable => exact initializeHeapImmutable_compiles h (r 0 rfl) _
  | withSetup => exact withSetup_compiles h (r 0 rfl)
  | popEnv => exact popEnv_compiles h
  | jumpBy =>
    obtain ⟨j, hj, hyields⟩ := hf.target (e := e) rfl
    exact yields_bind.2 ((hyields _).2 (jump_compiles h hj))
  | jumpSubroutine =>
    obtain ⟨j, hj, hyields⟩ := hf.target (e := e) rfl
    exact yields_bind.2 ((hyields _).2
      (jumpSubroutine_compiles h hj (hany rfl) (r 0 rfl) (r 1 rfl)))
  | returnSubroutine => exact returnSubroutine_compiles h (hany rfl) (r 0 rfl) (r 1 rfl)
  | jumpIf sense =>
    obtain ⟨j, hj, hyields⟩ := hf.target (e := e) rfl
    exact yields_bind.2 ((hyields _).2
      (conditionalJump_compiles h hj (hany rfl) sense (r 0 rfl) (Nat.ne_of_lt (hlow j hj))))
  | forInSetup =>
    obtain ⟨j, hj, hyields⟩ := hf.target (e := e) rfl
    exact yields_bind.2 ((hyields _).2 (forInSetup_compiles h hj (r 0 rfl) (r 1 rfl)))
  | forInEnumerate =>
    obtain ⟨j, hj, hyields⟩ := hf.target (e := e) rfl
    exact yields_bind.2 ((hyields _).2 (forInEnumerate_compiles h hj (r 0 rfl) (r 1 rfl)))
  | forInLeave => exact forInLeave_compiles h (r 0 rfl)
  | call | construct | eval =>
    exact callShaped_compiles h rfl hfirst hlater (r 0 rfl) (r 1 rfl) (r 2 rfl) _
  | prepareDynamicCall =>
    exact prepareDynamicCall_compiles h (r 0 rfl) (r 1 rfl) (u 2 rfl)
  | «return» => exact return_compiles h (r 0 rfl)

end RegisterJit.Emit
