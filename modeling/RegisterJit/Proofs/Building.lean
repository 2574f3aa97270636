import Mathlib.Data.List.Forall2
import RegisterJit.Bytecode.Builder
import RegisterJit.Proofs.Acceptance

/-!
# Codes that builders make

While a code is built, its words spell the opcodes emitted so far, labels are bound at boundaries,
and everything that is to be filled in later is an operand. The finished code has the same shape.

`Builder.Sound` is the invariant, with one lemma for each request: emitting an instruction with operands of the
right kinds, binding a label, entering a literal, a name, a handler or a nested code. `Sound.build` gets from it
that the finished code is `Code.Formed`: its words spell opcodes, jumps go to boundaries, operands refer to what
the tables hold, and handlers have their ranges. `Code.Formed.sound` carries this to the tree of nested codes.
Parsing, the reading of images and scanning all rest on it: codes that come out of a builder need no second
check, and `Program` shows that they compile.
-/

namespace RegisterJit

open RegisterJit.Stream (Spells Boundary IsOperand placed extent)

theorem Word.reg_ofRegister (r : Register) : Word.reg (Word.ofRegister r) = r := by
  simp [Word.reg, Word.ofRegister, Word.ofInt32, Word.i32]

/-- A kind of constant with a meaning. -/
def Constant.Meaningful (k : Constant) : Prop :=
  k.kind = kindNumber ∨ k.kind = kindString ∨ k.kind = kindUndefined ∨ k.kind = kindNull ∨
    k.kind = kindBool

/-- A handler of a known kind, whose registers are there if its kind has any. -/
def Handler.Complete (h : Handler) : Prop :=
  h.kind = kindCatch ∨
    h.kind = kindFinally ∧ h.jump ≠ Register.invalid ∧ h.flag ≠ Register.invalid

def Stream.Registers (ops : List Opcode) (data : Array Word) : Prop :=
  ∀ s p, IsOperand ops s p .register → Word.reg (data.getD p 0) ≠ Register.invalid

/-- One finished code, without those nested in it. -/
structure Code.Formed (c : Code) (ops : List Opcode) : Prop where
  spells : Spells ops c.data
  registers : Stream.Registers ops c.data
  start : ∀ h ∈ c.handlers, ∃ n, Boundary ops n ∧ h.start = n.toUInt32
  stop : ∀ h ∈ c.handlers, ∃ n, Boundary ops n ∧ h.stop = n.toUInt32
  complete : ∀ h ∈ c.handlers, h.Complete
  constants : ∀ k ∈ c.constants, k.Meaningful
  valid : c.validateOne = .ok ()

/-- A finished program: no code is absent, and every one is formed. -/
def Code.Sound (c : Code) : Prop := ∀ x ∈ c.walk, ∃ d ops, x = some d ∧ d.Formed ops

theorem Code.walk_eq (c : Code) : c.walk = some c :: Code.walkAll c.codes := by
  obtain ⟨_, _, _, _, _, _, _, _, _⟩ := c
  rw [Code.walk]

theorem Code.walkAll_sound {codes : List (Option Code)}
    (h : ∀ x ∈ codes, ∃ c : Code, x = some c ∧ c.Sound) :
    ∀ x ∈ Code.walkAll codes, ∃ d ops, x = some d ∧ Code.Formed d ops := by
  induction codes with
  | nil => simp [Code.walkAll]
  | cons first codes ih =>
    obtain ⟨c, rfl, hc⟩ := h first (List.mem_cons_self ..)
    intro x hx
    rw [Code.walkAll, List.mem_append] at hx
    rcases hx with hx | hx
    · exact hc x hx
    · exact ih (fun y hy => h y (List.mem_cons_of_mem _ hy)) x hx

/-- A program is sound if its outermost code is formed and the nested ones are sound. -/
theorem Code.Formed.sound {c : Code} {ops : List Opcode} (h : c.Formed ops)
    (hcodes : ∀ x ∈ c.codes, ∃ d : Code, x = some d ∧ d.Sound) : c.Sound := by
  intro x hx
  rw [Code.walk_eq, List.mem_cons] at hx
  rcases hx with rfl | hx
  · exact ⟨c, ops, rfl, h⟩
  · exact Code.walkAll_sound hcodes x hx

theorem Stream.Registers.set {ops : List Opcode} {data : Array Word} (h : Registers ops data)
    {s p : Nat} {kind : OperandKind} (hp : IsOperand ops s p kind) (hk : kind ≠ .register) (w : Word)
    (hlt : p < data.size) : Registers ops (data.set p w) := by
  intro s' p' hp'
  have hne : p ≠ p' := by
    rintro rfl
    exact hk (hp.unique hp').2
  rw [Array.getD_eq_getD_getElem?, Array.getElem?_set_ne _ hne, ← Array.getD_eq_getD_getElem?]
  exact h s' p' hp'

namespace Builder

/-- What a builder gives out as a label. -/
def HasLabel (b : Builder) (l : Int) : Prop := 0 ≤ l ∧ l.toNat < b.labels.size

/-- What holds of a builder whose emitted opcodes are `ops`. -/
structure Sound (b : Builder) (ops : List Opcode) : Prop where
  spells : Spells ops b.code.data
  registers : Stream.Registers ops b.code.data
  labels : ∀ (l n : Nat), b.labels[l]? = some (some n) → Boundary ops n
  fixups : ∀ f ∈ b.fixups, (∃ s, IsOperand ops s f.place .jump) ∧ b.HasLabel f.label
  complete : ∀ h ∈ b.code.handlers, h.Complete
  constants : ∀ k ∈ b.code.constants, k.Meaningful
  codes : ∀ x ∈ b.code.codes, ∃ c, x = some c ∧ c.Sound
  failure : ∀ e, b.failure = some e → ∃ l, e = .boundTwice l

variable {b : Builder} {ops : List Opcode}

theorem Sound.offset_eq (h : b.Sound ops) : b.offset = extent ops := h.spells.size

theorem new_sound (name : Text) : (new name).Sound [] where
  spells := Stream.spells_empty
  registers := by
    rintro s p ⟨op, i, hp, -⟩
    cases hp
  labels := by simp [new]
  fixups := by simp [new]
  complete := by simp [new, Code.ofName]
  constants := by simp [new, Code.ofName]
  codes := by simp [new, Code.ofName]
  failure := by simp [new]

theorem HasLabel.lt {l : Int} (h : b.HasLabel l) : l < b.labels.size := by
  obtain ⟨h0, h1⟩ := h
  omega

theorem Sound.newLabel (h : b.Sound ops) :
    b.newLabel.2.Sound ops ∧ b.newLabel.2.HasLabel b.newLabel.1 ∧
      ∀ l, b.HasLabel l → b.newLabel.2.HasLabel l := by
  have hmono : ∀ l, b.HasLabel l → b.newLabel.2.HasLabel l := by
    rintro l ⟨h0, h1⟩
    exact ⟨h0, by simp only [Builder.newLabel, Array.size_push]; omega⟩
  refine ⟨{ h with labels := ?_, fixups := ?_ }, ?_, hmono⟩
  · intro l n hl
    simp only [Builder.newLabel, Array.getElem?_push] at hl
    split at hl
    · cases hl
    · exact h.labels l n hl
  · intro f hf
    exact ⟨(h.fixups f hf).1, hmono _ (h.fixups f hf).2⟩
  · exact ⟨by simp [Builder.newLabel], by simp [Builder.newLabel]⟩

theorem place?_of_hasLabel {l : Int} (h : b.HasLabel l) :
    ∃ place, b.place? l = some place ∧ b.labels[l.toNat]? = some place := by
  have hlt := h.2
  refine ⟨b.labels[l.toNat], ?_, Array.getElem?_eq_getElem hlt⟩
  rw [place?, if_pos h.1, Array.getElem?_eq_getElem hlt]

theorem Sound.fail (h : b.Sound ops) (l : Int) : (b.fail (.boundTwice l)).Sound ops := by
  refine { h with failure := ?_ }
  intro e he
  simp only [Builder.fail] at he
  cases hf : b.failure with
  | none =>
    rw [hf] at he
    exact ⟨l, (Option.some.inj he).symm⟩
  | some e' =>
    rw [hf] at he
    exact Option.some.inj he ▸ h.failure e' hf

theorem Sound.bind (h : b.Sound ops) {l : Int} (hl : b.HasLabel l) :
    ∃ b', b.bind? l = some b' ∧ b'.Sound ops ∧ b'.labels.size = b.labels.size ∧
      b'.code = b.code := by
  obtain ⟨place, hp, hget⟩ := place?_of_hasLabel hl
  rw [bind?, hp]
  cases place with
  | some n => exact ⟨_, rfl, h.fail l, rfl, rfl⟩
  | none =>
    refine ⟨_, rfl, { h with labels := ?_, fixups := ?_ }, by simp, rfl⟩
    · intro k n hk
      simp only [Array.getElem?_setIfInBounds] at hk
      split at hk
      · split at hk
        · cases hk
          rw [h.offset_eq]
          exact Stream.boundary_extent ops
        · cases hk
      · exact h.labels k n hk
    · intro f hf
      have := h.fixups f hf
      exact ⟨this.1, this.2.1, by simpa using this.2.2⟩

theorem Sound.name (h : b.Sound ops) (t : Text) :
    (b.name t).2.Sound ops ∧ (b.name t).2.labels = b.labels ∧
      (b.name t).2.code.codes = b.code.codes ∧ (b.name t).2.code.data = b.code.data := by
  rw [Builder.name]
  split
  · exact ⟨h, rfl, rfl, rfl⟩
  · exact ⟨{ h with }, rfl, rfl, rfl⟩

theorem Sound.constant (h : b.Sound ops) {k : Constant} (hk : k.Meaningful) :
    (b.constant k).2.Sound ops ∧ (b.constant k).2.labels = b.labels ∧
      (b.constant k).2.code.codes = b.code.codes ∧ (b.constant k).2.code.data = b.code.data := by
  rw [Builder.constant]
  split
  · exact ⟨h, rfl, rfl, rfl⟩
  · refine ⟨{ h with constants := ?_ }, rfl, rfl, rfl⟩
    intro k' hk'
    rcases Array.mem_push.1 hk' with hk' | rfl
    · exact h.constants k' hk'
    · exact hk

theorem Sound.child (h : b.Sound ops) {c : Code} (hc : c.Sound) : (b.child c).2.Sound ops := by
  refine { h with codes := ?_ }
  intro x hx
  rcases List.mem_append.1 hx with hx | hx
  · exact h.codes x hx
  · exact ⟨c, List.mem_singleton.1 hx, hc⟩

theorem Sound.handler (h : b.Sound ops) {kind : UInt8} {start stop : Int} {level : UInt32}
    {jump flag : Register}
    (hc : Handler.Complete ⟨kind, UInt32.ofInt start, UInt32.ofInt stop, level, jump, flag⟩) :
    (b.handler kind start stop level jump flag).Sound ops := by
  refine { h with complete := ?_ }
  intro h' hh'
  rcases Array.mem_push.1 hh' with hh' | rfl
  · exact h.complete h' hh'
  · exact hc

/-! ## Instructions -/

/-- An operand of the kind that is wanted. -/
def Accepts (b : Builder) : OperandKind → BuilderOperand → Prop
  | .register, .register r => r ≠ Register.invalid
  | .jump, .label l => b.HasLabel l
  | .packed, .packed .. => True
  | .register, _ | .jump, _ | .packed, _ => False
  | _, _ => True

/-- A builder with more words and more jumps to fill in. -/
def extend (b : Builder) (ws : List Word) (jumps : List Fixup) : Builder :=
  { b with
    code := { b.code with data := b.code.data ++ ws.toArray }
    fixups := b.fixups ++ jumps.toArray }

theorem pushOperand_ok {kind : OperandKind} {o : BuilderOperand} (h : b.Accepts kind o)
    (start : Nat) :
    ∃ w jumps, b.pushOperand start kind o = .ok (b.extend [w] jumps) ∧
      (kind = .register → Word.reg w ≠ Register.invalid) ∧
      ∀ f ∈ jumps, kind = .jump ∧ f.place = b.offset ∧ b.HasLabel f.label := by
  cases kind <;> cases o <;> simp only [Accepts] at h
  case register.register r =>
    refine ⟨Word.ofRegister r, [], by simp [pushOperand, extend, push], fun _ => ?_, by simp⟩
    rw [Word.reg_ofRegister]
    exact h
  case jump.label l =>
    refine ⟨0, [⟨b.offset, start, l⟩], by simp [pushOperand, extend, push], by simp, ?_⟩
    intro f hf
    rw [List.mem_singleton] at hf
    subst hf
    exact ⟨rfl, rfl, h⟩
  case packed.packed x y c =>
    exact ⟨Word.pack x y c, [], by simp [pushOperand, extend, push], by simp, by simp⟩
  all_goals exact ⟨_, [], by simp only [pushOperand, extend, push]; simp; rfl, by simp, by simp⟩

theorem accepts_extend {ws : List Word} {jumps : List Fixup} {kind : OperandKind}
    {o : BuilderOperand} (h : b.Accepts kind o) : (b.extend ws jumps).Accepts kind o := by
  cases kind <;> cases o <;> exact h

theorem pushOperands_ok {kos : List (OperandKind × BuilderOperand)}
    (h : ∀ ko ∈ kos, b.Accepts ko.1 ko.2) (op : Opcode) (start index : Nat) :
    ∃ ws jumps, b.pushOperands op start index kos = b.extend ws jumps ∧ ws.length = kos.length ∧
      (∀ (i : Nat) o w, kos[i]? = some (.register, o) → ws[i]? = some w →
        Word.reg w ≠ Register.invalid) ∧
      ∀ f ∈ jumps, (∃ i o, kos[i]? = some (.jump, o) ∧ f.place = b.offset + i) ∧
        b.HasLabel f.label := by
  induction kos generalizing b index with
  | nil =>
    have hnil : b = b.extend [] [] := by
      obtain ⟨⟨_, _, _, _, _, _, _, _, _⟩, _, _, _⟩ := b
      simp [extend]
    exact ⟨[], [], hnil, rfl, by simp, by simp⟩
  | cons ko kos ih =>
    obtain ⟨kind, o⟩ := ko
    obtain ⟨w, first, hpush, hreg, hfirst⟩ := pushOperand_ok (h _ (List.mem_cons_self ..)) start
    obtain ⟨ws, rest, heq, hlen, hregs, hrest⟩ := ih (b := b.extend [w] first)
      (fun ko hko => accepts_extend (h ko (List.mem_cons_of_mem _ hko))) (index + 1)
    refine ⟨w :: ws, first ++ rest, ?_, by simp [hlen], ?_, ?_⟩
    · rw [pushOperands, hpush]
      simp only [heq]
      simp [extend]
    · intro i o' w' hi hw
      cases i with
      | zero =>
        simp only [List.getElem?_cons_zero, Option.some.injEq, Prod.mk.injEq] at hi hw
        exact hw ▸ hreg hi.1
      | succ i => exact hregs i o' w' hi hw
    · intro f hf
      rcases List.mem_append.1 hf with hf | hf
      · obtain ⟨rfl, hplace, hl⟩ := hfirst f hf
        exact ⟨⟨0, o, rfl, hplace⟩, hl⟩
      · obtain ⟨⟨i, o', hi, hplace⟩, hl⟩ := hrest f hf
        refine ⟨⟨i + 1, o', hi, ?_⟩, hl⟩
        simp only [hplace, offset, extend, Array.size_append, List.size_toArray, List.length_singleton]
        omega

theorem Sound.emit (h : b.Sound ops) {op : Opcode} {os : List BuilderOperand}
    (hos : List.Forall₂ b.Accepts op.format os) :
    (b.emit op os).Sound (ops ++ [op]) ∧ (b.emit op os).labels = b.labels ∧
      (b.emit op os).code.codes = b.code.codes := by
  have hlen : os.length = op.format.length := hos.length_eq.symm
  have hall : ∀ ko ∈ op.format.zip os, (b.push (Word.ofOpcode op)).Accepts ko.1 ko.2 := by
    intro ko hko
    have hacc : b.Accepts ko.1 ko.2 := (List.forall₂_iff_zip.1 hos).2 hko
    obtain ⟨kind, o⟩ := ko
    cases kind <;> cases o <;> exact hacc
  obtain ⟨ws, jumps, heq, hws, hregs, hjumps⟩ := pushOperands_ok hall op b.offset 0
  have hzip : (op.format.zip os).length = op.format.length := by
    rw [List.length_zip, hlen, Nat.min_self]
  have hemit : b.emit op os = (b.push (Word.ofOpcode op)).extend ws jumps := by
    rw [Builder.emit, if_pos hlen, heq]
  rw [hemit]
  refine ⟨{ h with spells := ?_, registers := ?_, labels := ?_, fixups := ?_ }, rfl, rfl⟩
  · exact h.spells.append op (hws.trans hzip)
  · intro s p hp
    simp only [extend, push, Array.getD_eq_getD_getElem?]
    rcases Stream.isOperand_append_iff.1 hp with hp | ⟨rfl, i, hi, rfl⟩
    · have hlt : p < b.code.data.size := h.spells.size ▸ hp.lt_extent
      rw [Array.getElem?_append_left (by simp; omega), Array.getElem?_push_lt hlt,
        ← Array.getElem?_eq_getElem hlt, ← Array.getD_eq_getD_getElem?]
      exact h.registers s p hp
    · -- A register of the new instruction.
      obtain ⟨hlt, -⟩ := List.getElem?_eq_some_iff.1 hi
      have hget : (op.format.zip os)[i]? = some (.register, os[i]) :=
        List.getElem?_zip_eq_some.2 ⟨hi, List.getElem?_eq_getElem (hlen ▸ hlt)⟩
      have hw : ws[i]? = some ws[i] := List.getElem?_eq_getElem (by omega)
      rw [Array.getElem?_append_right (by simp [h.spells.size]), Array.size_push, h.spells.size,
        Nat.add_sub_cancel_left, List.getElem?_toArray, hw]
      exact hregs i _ _ hget hw
  · intro l n hl
    exact (h.labels l n hl).append op
  · intro f hf
    rcases Array.mem_append.1 hf with hf | hf
    · obtain ⟨⟨s, hs⟩, hl⟩ := h.fixups f hf
      exact ⟨⟨s, hs.append _⟩, hl⟩
    · obtain ⟨⟨i, o, hi, hplace⟩, hl⟩ := hjumps f (by simpa using hf)
      refine ⟨⟨extent ops, Stream.isOperand_append_iff.2 (.inr ⟨rfl, i, ?_, ?_⟩)⟩, hl⟩
      · exact (List.getElem?_zip_eq_some.1 hi).1
      · rw [hplace, ← h.spells.size]
        simp [offset, push]

/-! ## Finishing -/

theorem resolve_of_hasLabel (h : b.Sound ops) {l : Int} (hl : b.HasLabel l) :
    (∃ n, b.resolve l = .ok n ∧ Boundary ops n) ∨ b.resolve l = .error (.neverBound l) := by
  obtain ⟨place, hp, hget⟩ := place?_of_hasLabel hl
  rw [resolve, if_neg (by have := hl.lt; omega), hp]
  cases place with
  | none => exact .inr rfl
  | some n => exact .inl ⟨n, rfl, h.labels _ _ hget⟩

theorem resolve_nat (h : b.Sound ops) (l : Nat) :
    (∃ n, b.resolve l = .ok n ∧ Boundary ops n) ∨ b.resolve l = .error (.neverBound l) := by
  by_cases hl : l < b.labels.size
  · exact resolve_of_hasLabel h ⟨Int.natCast_nonneg l, hl⟩
  · rw [resolve, if_pos (by omega)]
    exact .inr rfl

/-- Jumps are filled in, or one goes to a label that is never bound. -/
theorem patchJumps_spells (h : b.Sound ops) {fs : List Fixup}
    (hfs : ∀ f ∈ fs, (∃ s, IsOperand ops s f.place .jump) ∧ b.HasLabel f.label)
    {data : Array Word} (hd : Spells ops data) (hr : Stream.Registers ops data) :
    (∃ data', b.patchJumps fs data = .ok data' ∧ Spells ops data' ∧ Stream.Registers ops data') ∨
      ∃ l, b.patchJumps fs data = .error (.neverBound l) := by
  induction fs generalizing data with
  | nil => exact .inl ⟨data, rfl, hd, hr⟩
  | cons f fs ih =>
    obtain ⟨⟨s, hs⟩, hl⟩ := hfs f (List.mem_cons_self ..)
    have hlt : f.place < data.size := hd.size ▸ hs.lt_extent
    rcases resolve_of_hasLabel h hl with ⟨n, hn, -⟩ | hn
    · have hrest := ih (fun f hf => hfs f (List.mem_cons_of_mem _ hf))
        (hd.set hs (Word.ofInt32 (Int32.ofInt ((n : Int) - f.start))) hlt)
        (hr.set hs (by decide) _ hlt)
      simpa only [patchJumps, hn, bind, Except.bind, hlt, dif_pos] using hrest
    · exact .inr ⟨f.label, by simp only [patchJumps, hn, bind, Except.bind]⟩

theorem placeHandler_boundaries (h : b.Sound ops) (hd : Handler) :
    (∃ hd', b.placeHandler hd = .ok hd' ∧ (∃ n, Boundary ops n ∧ hd'.start = n.toUInt32) ∧
      (∃ n, Boundary ops n ∧ hd'.stop = n.toUInt32) ∧ (hd.Complete → hd'.Complete)) ∨
      ∃ l, b.placeHandler hd = .error (.neverBound l) := by
  rcases resolve_nat h hd.start.toNat with ⟨n, hn, hbn⟩ | hn
  · rcases resolve_nat h hd.stop.toNat with ⟨m, hm, hbm⟩ | hm
    · refine .inl ⟨{ hd with start := n.toUInt32, stop := m.toUInt32 }, ?_, ⟨n, hbn, rfl⟩,
        ⟨m, hbm, rfl⟩, id⟩
      simp only [placeHandler, hn, hm, bind, Except.bind]
      rfl
    · exact .inr ⟨hd.stop.toNat, by simp only [placeHandler, hn, hm, bind, Except.bind]⟩
  · exact .inr ⟨hd.start.toNat, by simp only [placeHandler, hn, bind, Except.bind]⟩

theorem mapM_placeHandler (h : b.Sound ops) {hs : List Handler} (hc : ∀ hd ∈ hs, hd.Complete) :
    (∃ hs', hs.mapM b.placeHandler = .ok hs' ∧ ∀ hd ∈ hs',
      (∃ n, Boundary ops n ∧ hd.start = n.toUInt32) ∧
        (∃ n, Boundary ops n ∧ hd.stop = n.toUInt32) ∧ hd.Complete) ∨
      ∃ l, hs.mapM b.placeHandler = .error (.neverBound l) := by
  induction hs with
  | nil => exact .inl ⟨[], rfl, by simp⟩
  | cons hd hs ih =>
    rw [List.mapM_cons]
    rcases placeHandler_boundaries h hd with ⟨hd', heq, hstart, hstop, hcomplete⟩ | ⟨l, heq⟩
    · rcases ih fun x hx => hc x (List.mem_cons_of_mem _ hx) with ⟨hs', hrest, hall⟩ | ⟨l, hrest⟩
      · refine .inl ⟨hd' :: hs', ?_, ?_⟩
        · simp only [heq, hrest, bind, Except.bind]
          rfl
        · intro x hx
          rcases List.mem_cons.1 hx with rfl | hx
          · exact ⟨hstart, hstop, hcomplete (hc hd (List.mem_cons_self ..))⟩
          · exact hall x hx
      · exact .inr ⟨l, by simp only [heq, hrest, bind, Except.bind]⟩
    · exact .inr ⟨l, by simp only [heq, bind, Except.bind]⟩

/-- A finished code is formed; what can go wrong is never a fault of the builder itself. -/
theorem Sound.build (h : b.Sound ops) :
    (∃ c, b.build = .ok c ∧ c.Formed ops ∧ c.codes = b.code.codes) ∨
      ∃ e, b.build = .error e ∧ e ≠ .noSuchLabel ∧ e ≠ .noSuchWord := by
  cases hf : b.failure with
  | some e =>
    obtain ⟨l, rfl⟩ := h.failure e hf
    refine .inr ⟨.boundTwice l, ?_, by simp, by simp⟩
    simp only [Builder.build, hf]
    rfl
  | none =>
    rcases patchJumps_spells h (fun f hf => h.fixups f (Array.mem_toList_iff.1 hf)) h.spells
      h.registers with ⟨data, hdata, hspells, hregs⟩ | ⟨l, hdata⟩
    · rcases mapM_placeHandler h (fun hd hd' => h.complete hd (Array.mem_toList_iff.1 hd')) with
        ⟨hs, hhs, hall⟩ | ⟨l, hhs⟩
      · cases hv : Code.validateOne { b.code with data := data, handlers := hs.toArray } with
        | error d =>
          refine .inr ⟨.defective d, ?_, by simp, by simp⟩
          simp only [Builder.build, hf, hdata, Array.mapM_eq_mapM_toList, hhs, Bind.bind, Except.bind]
          simp only [Functor.map, Except.map, hv, Except.mapError]
        | ok u =>
          refine .inl ⟨{ b.code with data := data, handlers := hs.toArray }, ?_, ?_, rfl⟩
          · simp only [Builder.build, hf, hdata, Array.mapM_eq_mapM_toList, hhs, Bind.bind, Except.bind]
            simp only [Functor.map, Except.map, hv, Except.mapError, pure, Except.pure]
          · exact ⟨hspells, hregs, fun x hx => (hall x (by simpa using hx)).1,
              fun x hx => (hall x (by simpa using hx)).2.1,
              fun x hx => (hall x (by simpa using hx)).2.2, h.constants, hv⟩
      · refine .inr ⟨.neverBound l, ?_, by simp, by simp⟩
        simp only [Builder.build, hf, hdata, Array.mapM_eq_mapM_toList, hhs, Bind.bind, Except.bind]
        rfl
    · refine .inr ⟨.neverBound l, ?_, by simp, by simp⟩
      simp only [Builder.build, hf, hdata, Bind.bind, Except.bind]

end Builder

end RegisterJit
