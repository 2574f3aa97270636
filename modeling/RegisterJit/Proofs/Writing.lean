import RegisterJit.Proofs.Emission

/-!
# What emitters have written

An emitter of any code may fail. `Emit.Ensures` says what is known once it has succeeded; it unfolds
along the emitter, so what was written for an instruction can be read off.

`Emit.Ensures` is a postcondition of emitters for the case that they succeed. It has a rule for each step of an
emitter and for each test on operands, tagged for `simp`, so unfolding an emitter leaves the pieces that it
writes and what it has looked at. `Emission` proves that emitters of formed codes do succeed; here nothing is
assumed, and codes that are not formed are treated as well. `References`, `Bindings` and `Operands` are what is
read off in this way.
-/

namespace RegisterJit

open X86 (Reg Cond Instr Label)

/-- If an emitter succeeds, its result and what it has written are as told. -/
def Emit.Ensures {α : Type} (m : Emit α) (site : Site) (e : Emitter) (Q : α → Emitter → Prop) :
    Prop :=
  ∀ a e', m site e = .ok a e' → Q a e'

namespace Emit

variable {α β : Type} {site : Site} {e : Emitter}

theorem ensures_of_eq {m : Emit α} {a : α} {e' : Emitter} (h : m site e = .ok a e')
    {Q : α → Emitter → Prop} : m.Ensures site e Q ↔ Q a e' := by
  constructor
  · exact fun hm => hm a e' h
  · intro hq b e'' h'
    rw [h] at h'
    cases h'
    exact hq

/-! ## Steps -/

@[simp] theorem ensures_pure {a : α} {Q : α → Emitter → Prop} :
    (pure a : Emit α).Ensures site e Q ↔ Q a e :=
  ensures_of_eq (show (pure a : Emit α) site e = .ok a e from rfl)

@[simp] theorem ensures_bind {m : Emit α} {f : α → Emit β} {Q : β → Emitter → Prop} :
    (m >>= f).Ensures site e Q ↔ m.Ensures site e fun a e' => (f a).Ensures site e' Q := by
  have hrun : (m >>= f) site e = EStateM.bind (m site) (fun a => f a site) e := rfl
  constructor
  · intro h a e' hm b e'' hf
    refine h b e'' ?_
    rw [hrun, EStateM.bind, hm]
    exact hf
  · intro h b e'' hf
    rw [hrun, EStateM.bind] at hf
    cases hm : m site e with
    | ok a e' =>
      rw [hm] at hf
      exact h a e' hm b e'' hf
    | error i e' => rw [hm] at hf; cases hf

@[simp] theorem ensures_throw {i : Invariant} {Q : α → Emitter → Prop} :
    (throw i : Emit α).Ensures site e Q :=
  fun _ _ h => nomatch h

@[simp] theorem ensures_ite {c : Prop} [Decidable c] {m m' : Emit α} {Q : α → Emitter → Prop} :
    (if c then m else m').Ensures site e Q ↔
      (c → m.Ensures site e Q) ∧ (¬c → m'.Ensures site e Q) := by
  by_cases hc : c <;> simp [hc]

@[simp] theorem ensures_read {Q : Site → Emitter → Prop} :
    (read : Emit Site).Ensures site e Q ↔ Q site e :=
  ensures_of_eq (show (read : Emit Site) site e = .ok site e from rfl)

@[simp] theorem ensures_get {Q : Emitter → Emitter → Prop} :
    (get : Emit Emitter).Ensures site e Q ↔ Q e e :=
  ensures_of_eq (show (get : Emit Emitter) site e = .ok e e from rfl)

@[simp] theorem ensures_modify {f : Emitter → Emitter} {Q : Unit → Emitter → Prop} :
    (modify f : Emit Unit).Ensures site e Q ↔ Q () (f e) :=
  ensures_of_eq (show (modify f : Emit Unit) site e = .ok () (f e) from rfl)

@[simp] theorem ensures_newLabel {Q : Label → Emitter → Prop} :
    newLabel.Ensures site e Q ↔ Q e.labels (e.alloc 1) :=
  ensures_of_eq (show newLabel site e = .ok e.labels (e.alloc 1) from rfl)

@[simp] theorem ensures_piece {p : Piece} {Q : Unit → Emitter → Prop} :
    (piece p).Ensures site e Q ↔ Q () (e.write [p]) := by
  rw [piece, ensures_modify, Emitter.write, Array.push_eq_append]

@[simp] theorem ensures_instr {i : Instr} {Q : Unit → Emitter → Prop} :
    (instr i).Ensures site e Q ↔ Q () (e.write [.instr i]) := ensures_piece

@[simp] theorem ensures_jmp {l : Label} {Q : Unit → Emitter → Prop} :
    (jmp l).Ensures site e Q ↔ Q () (e.write [.jmp l]) := ensures_piece

@[simp] theorem ensures_jcc {c : Cond} {l : Label} {Q : Unit → Emitter → Prop} :
    (jcc c l).Ensures site e Q ↔ Q () (e.write [.jcc c l]) := ensures_piece

@[simp] theorem ensures_call {l : Label} {Q : Unit → Emitter → Prop} :
    (call l).Ensures site e Q ↔ Q () (e.write [.call l]) := ensures_piece

@[simp] theorem ensures_label {l : Label} {Q : Unit → Emitter → Prop} :
    (Emit.bind l).Ensures site e Q ↔ Q () (e.write [.bind l]) := ensures_piece

@[simp] theorem ensures_instrs {is : List Instr} {Q : Unit → Emitter → Prop} :
    (instrs is).Ensures site e Q ↔ Q () (e.write (is.map .instr)) := by
  have hrun : (instrs is).Yields site e fun _ e' => e' = e.write (is.map .instr) :=
    yields_instrs.2 rfl
  obtain ⟨a, e', h, rfl⟩ := hrun
  exact ensures_of_eq h

/-! ## Registers and tables -/

@[simp] theorem ensures_registerOffset {r : Register} {Q : Int32 → Emitter → Prop} :
    (registerOffset r).Ensures site e Q ↔ ∀ d, Frame.registerOffset? r = some d → Q d e := by
  rw [registerOffset]
  cases Frame.registerOffset? r <;> simp

@[simp] theorem ensures_targetLabel {target : UInt32} {Q : Label → Emitter → Prop} :
    (targetLabel target).Ensures site e Q ↔
      ∀ t, site.jumps.find? target = some t → Q t.label e := by
  simp only [targetLabel, codeName, ensures_bind, ensures_read]
  cases site.jumps.find? target <;> simp

@[simp] theorem ensures_isStrict {Q : Bool → Emitter → Prop} :
    isStrict.Ensures site e Q ↔ Q site.unit.code.strict e := by
  simp only [isStrict, ensures_bind, ensures_read, ensures_pure]

@[simp] theorem ensures_constant {k : UInt32} {Q : Value → Emitter → Prop} :
    (constant k).Ensures site e Q ↔ ∀ v, site.unit.pool[k.toNat]? = some v → Q v e := by
  simp only [constant, ensures_bind, ensures_read]
  cases site.unit.pool[k.toNat]? <;> simp

@[simp] theorem ensures_symbol {dst : Reg} {index : UInt32} {Q : Unit → Emitter → Prop} :
    (symbol dst index).Ensures site e Q ↔ (index.toNat < site.unit.code.names.size →
      Q () (e.write [.instr (.movValue dst (codeReference site.unit.id index))])) := by
  simp [symbol]

/-! ## Operands -/

@[simp] theorem ensures_load {dst : Reg} {r : Register} {Q : Unit → Emitter → Prop} :
    (load dst r).Ensures site e Q ↔ (r = e.cached → Q () (e.write [.kept dst r])) ∧
      (r ≠ e.cached → ∀ d, Frame.registerOffset? r = some d →
        Q () (if dst = .rax then (e.write [.instr (.load dst frameReg d)]).believe r
          else e.write [.instr (.load dst frameReg d)])) := by
  by_cases hdst : dst = .rax <;> simp [load, hdst, Emitter.believe]

@[simp] theorem ensures_store {r : Register} {src : Reg} {Q : Unit → Emitter → Prop} :
    (store r src).Ensures site e Q ↔ ∀ d, Frame.registerOffset? r = some d →
      Q () (e.write [.instr (.store frameReg d src)]) := by
  simp [store]

@[simp] theorem ensures_storeResult {r : Register} {Q : Unit → Emitter → Prop} :
    (storeResult r).Ensures site e Q ↔ ∀ d, Frame.registerOffset? r = some d →
      Q () ((e.write [.instr (.store frameReg d .rax)]).expect r) := by
  simp [storeResult, Emitter.expect]

@[simp] theorem ensures_reload {dst : Reg} {r : Register} {Q : Unit → Emitter → Prop} :
    (reload dst r).Ensures site e Q ↔ ∀ d, Frame.registerOffset? r = some d →
      Q () (e.write [.instr (.load dst frameReg d)]) := by
  simp [reload]

@[simp] theorem ensures_registerAddress {dst : Reg} {r : Register} {Q : Unit → Emitter → Prop} :
    (registerAddress dst r).Ensures site e Q ↔ ∀ d, Frame.registerOffset? r = some d →
      Q () (e.write [.instr (.lea dst frameReg d)]) := by
  simp [registerAddress]

@[simp] theorem ensures_immediate {dst : Reg} {n : UInt32} {Q : Unit → Emitter → Prop} :
    (immediate dst n).Ensures site e Q ↔ Q () (e.write [.instr (.movImm32 dst n)]) := ensures_instr

@[simp] theorem ensures_frame {dst : Reg} {Q : Unit → Emitter → Prop} :
    (frame dst).Ensures site e Q ↔ Q () (e.write [.instr (.mov .w64 dst frameReg)]) := ensures_instr

@[simp] theorem ensures_instructionPointer {dst : Reg} {Q : Unit → Emitter → Prop} :
    (instructionPointer dst).Ensures site e Q ↔
      Q () (e.write [.instr (.movValue dst (codeReference site.unit.id site.offset))]) := by
  simp [instructionPointer]

@[simp] theorem ensures_callStub {s : Stub} {Q : Unit → Emitter → Prop} :
    (callStub s).Ensures site e Q ↔
      Q () ((e.write [.instr (.mov .w64 .rdi contextReg),
        .instr (.movImm32 .rax s.number), .call site.stubThunk]).believe .invalid) := by
  simp [callStub, Emitter.believe]

/-- The pieces that check the base of a member access. -/
def checkPieces (site : Site) (ok : Label) : List Piece :=
  [.instr (.mov .w64 .rcx .rsi), .instr (.aluImm .and .w64 .rcx (-9)),
    .instr (.aluImm .cmp .w64 .rcx 2), .jcc .ne ok, .instr (.mov .w64 .rdi contextReg),
    .instr (.movImm32 .rax Stub.raiseNotCoercible.number), .call site.stubThunk, .instr .ud2, .bind ok]

@[simp] theorem ensures_coercible {base : Register} {Q : Unit → Emitter → Prop} :
    (coercible base).Ensures site e Q ↔
      (base = e.cached → Q () (((e.alloc 1).write
        (.kept .rsi base :: checkPieces site e.labels)).believe e.cached)) ∧
      (base ≠ e.cached → ∀ d, Frame.registerOffset? base = some d → Q () (((e.alloc 1).write
        (.instr (.load .rsi frameReg d) :: checkPieces site e.labels)).believe e.cached)) := by
  simp +decide [coercible, compareNullish, callStubNoReturn, checkPieces, Emitter.write,
    Emitter.alloc, Emitter.believe]

end Emit

end RegisterJit
