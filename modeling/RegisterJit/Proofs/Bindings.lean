import RegisterJit.Proofs.Writing

/-!
# Labels that instructions bind

Whatever an instruction is compiled to, it binds none but its own labels: those that were allocated for
it. Labels of jump targets are bound where blocks begin. And whenever it calls a stub, it has just loaded the
context and the number of the stub.

For every emitter there is one statement, `Tidy`: the labels that it binds are among those that it allocated, and
its calls are `Piece.Primed`. They are put together by `tidy_instruction` for the instruction as a whole, by cases
on the opcode. `Sessions` needs it for labels of different instructions: they are allocated one after the other, so
an instruction that binds its own labels only can bind none of another one, and no label of a session is bound
twice. Unlike `Emission` this assumes nothing about operands,
so it holds of codes that fail to compile, too, up to the point where they fail.
-/

namespace RegisterJit

open X86 (Reg Cond Instr Label)

namespace Piece

/-- Whenever a stub is called, the context has been loaded just before, and then the number of the stub. -/
def Primed (ps : List Piece) : Prop :=
  ∀ before l after, ps = before ++ .call l :: after → ∃ front n,
    before = front ++ [.instr (.mov .w64 .rdi contextReg), .instr (.movImm32 .rax n)]

theorem primed_of_not_call {ps : List Piece} (h : ∀ l, .call l ∉ ps) : Primed ps := by
  rintro before l after rfl
  exact absurd (by simp) (h l)

theorem Primed.append {ps qs : List Piece} (hp : Primed ps) (hq : Primed qs) : Primed (ps ++ qs) := by
  intro before l after heq
  rcases List.append_eq_append_iff.1 heq with ⟨mid, rfl, hmid⟩ | ⟨mid, hmid, hrest⟩
  · obtain ⟨front, n, rfl⟩ := hq mid l after hmid
    exact ⟨ps ++ front, n, (List.append_assoc ..).symm⟩
  · cases mid with
    | nil =>
      obtain ⟨front, n, hnil⟩ := hq [] l after hrest.symm
      simp at hnil
    | cons q mid =>
      cases hrest
      exact hp before l mid hmid

end Piece

namespace Emit

variable {α β : Type} {site : Site} {n : Nat}

/-- An emitter that succeeds binds no label before the `n`-th, if those were allocated before. -/
def Tidy (n : Nat) (site : Site) (m : Emit α) : Prop :=
  ∀ e : Emitter, n ≤ e.labels → m.Ensures site e fun _ e' => n ≤ e'.labels ∧
    ∃ ps : List Piece, e'.pieces = e.pieces ++ ps.toArray ∧ (∀ l : Nat, l ∈ Piece.binds ps → n ≤ l) ∧
      Piece.Primed ps

namespace Tidy

theorem bind {m : Emit α} {f : α → Emit β} (hm : Tidy n site m) (hf : ∀ a, Tidy n site (f a)) :
    Tidy n site (m >>= f) := by
  intro e he
  rw [ensures_bind]
  intro a e₁ hrun
  obtain ⟨he₁, ps, hps, hall, hprimed⟩ := hm e he a e₁ hrun
  intro b e₂ hrun'
  obtain ⟨he₂, ps', hps', hall', hprimed'⟩ := hf a e₁ he₁ b e₂ hrun'
  refine ⟨he₂, ps ++ ps', by rw [hps', hps]; simp, fun l hl => ?_, hprimed.append hprimed'⟩
  rw [Piece.binds_append] at hl
  exact (List.mem_append.1 hl).elim (hall l) (hall' l)

theorem quiet {m : Emit α} (h : ∀ e, m.Ensures site e fun _ e' =>
    e.labels ≤ e'.labels ∧ e'.pieces = e.pieces) : Tidy n site m := by
  intro e he a e' hrun
  obtain ⟨hle, hpieces⟩ := h e a e' hrun
  exact ⟨Nat.le_trans he hle, [], by simp [hpieces], fun l hl => (nomatch hl), Piece.primed_of_not_call (by simp)⟩

theorem newLabel {f : Label → Emit β} (hf : ∀ l : Nat, n ≤ l → Tidy n site (f l)) :
    Tidy n site (newLabel >>= f) := by
  intro e he
  rw [ensures_bind, ensures_newLabel]
  exact hf e.labels he (e.alloc 1) (Nat.le_add_right_of_le he)

theorem pure (a : α) : Tidy n site (Pure.pure a) := quiet fun e => by simp

theorem throw (i : Invariant) : Tidy n site (MonadExcept.throw i : Emit α) := quiet fun e => by simp

theorem read : Tidy n site (MonadReader.read : Emit Site) := quiet fun e => by simp

theorem get : Tidy n site (MonadState.get : Emit Emitter) := quiet fun e => by simp

theorem believe (r : Register) : Tidy n site (modify fun e => e.believe r) :=
  quiet fun e => by simp [Emitter.believe]

theorem expect (f : Emitter → Register) : Tidy n site (modify fun e => e.expect (f e)) :=
  quiet fun e => by simp [Emitter.expect]

theorem registerOffset (r : Register) : Tidy n site (registerOffset r) := quiet fun e => by simp

theorem constant (k : UInt32) : Tidy n site (constant k) := quiet fun e => by simp

theorem targetLabel (target : UInt32) : Tidy n site (targetLabel target) := quiet fun e => by simp

theorem isStrict : Tidy n site isStrict := quiet fun e => by simp

theorem ite {c : Prop} [Decidable c] {m m' : Emit α} (hm : Tidy n site m) (hm' : Tidy n site m') :
    Tidy n site (if c then m else m') := by
  split
  · exact hm
  · exact hm'

theorem piece {p : Piece} (hp : p.bound? = none) (hcall : ∀ l, p ≠ .call l) : Tidy n site (piece p) := by
  intro e he
  rw [ensures_piece]
  refine ⟨he, [p], rfl, fun l hl => ?_, Piece.primed_of_not_call fun l hl => hcall l (List.mem_singleton.1 hl).symm⟩
  rw [Piece.binds, List.filterMap_cons, hp] at hl
  cases hl

theorem instr (i : Instr) : Tidy n site (instr i) := piece rfl nofun

theorem address (dst : Reg) (l : Label) : Tidy n site (Emit.piece (.address dst l)) := piece rfl nofun

theorem align (k : Nat) : Tidy n site (Emit.piece (.align k)) := piece rfl nofun

theorem kept (dst : Reg) (r : Register) : Tidy n site (Emit.piece (.kept dst r)) := piece rfl nofun

theorem jmp (l : Label) : Tidy n site (jmp l) := piece rfl nofun

theorem jcc (c : Cond) (l : Label) : Tidy n site (jcc c l) := piece rfl nofun

theorem label {l : Nat} (hl : n ≤ l) : Tidy n site (Emit.bind l) := by
  intro e he
  rw [ensures_label]
  refine ⟨he, [.bind l], rfl, fun l' hl' => ?_, Piece.primed_of_not_call (by simp)⟩
  obtain rfl := List.mem_singleton.1 hl'
  exact hl

theorem instrs (is : List Instr) : Tidy n site (instrs is) := by
  induction is with
  | nil => exact pure ()
  | cons i is ih => exact bind (instr i) fun _ => ih

theorem load (dst : Reg) (r : Register) : Tidy n site (load dst r) :=
  .bind .get fun _ => .ite (.kept _ _) <| .bind (.registerOffset r) fun _ =>
    .bind (.instr _) fun _ => .ite (.believe r) (.pure ())

theorem reload (dst : Reg) (r : Register) : Tidy n site (reload dst r) :=
  .bind (.registerOffset r) fun _ => .instr _

theorem store (r : Register) (src : Reg) : Tidy n site (store r src) :=
  .bind (.registerOffset r) fun _ => .instr _

theorem storeResult (r : Register) : Tidy n site (storeResult r) :=
  .bind (.store r .rax) fun _ => .expect fun _ => r

theorem registerAddress (dst : Reg) (r : Register) : Tidy n site (registerAddress dst r) :=
  .bind (.registerOffset r) fun _ => .instr _

theorem loadPair (lhs rhs : Register) : Tidy n site (loadPair lhs rhs) :=
  .bind .get fun _ => .ite (.bind (.kept _ _) fun _ => .load _ _)
    (.bind (.load _ _) fun _ => .load _ _)

theorem callStub (s : Stub) : Tidy n site (callStub s) := by
  intro e he
  rw [ensures_callStub]
  refine ⟨he, _, rfl, by simp, fun before l after heq => ⟨[], s.number, ?_⟩⟩
  rcases before with _ | ⟨p, _ | ⟨q, _ | ⟨r, before⟩⟩⟩ <;> simp at heq ⊢
  exact ⟨heq.1.symm, heq.2.1.symm⟩

theorem guardInt32 (r : Reg) (slow : Label) : Tidy n site (guardInt32 r slow) :=
  .bind (.instr _) fun _ => .jcc _ _

theorem integerPair (lhs rhs : Register) (slow : Label) : Tidy n site (integerPair lhs rhs slow) :=
  .bind (.loadPair _ _) fun _ => .bind (.guardInt32 _ _) fun _ => .guardInt32 _ _

theorem binarySlow (op : BinaryOp) (lhs rhs : Register) : Tidy n site (binarySlow op lhs rhs) :=
  .bind (.reload _ _) fun _ => .bind (.reload _ _) fun _ => .callStub _

theorem finishSlow {path : Emit Unit} (hpath : Tidy n site path) {slow done : Nat} (hslow : n ≤ slow)
    (hdone : n ≤ done) (dst : Register) : Tidy n site (finishSlow slow done path dst) :=
  .bind (.label hslow) fun _ => .bind hpath fun _ => .bind (.label hdone) fun _ => .storeResult dst

theorem symbol (dst : Reg) (index : UInt32) : Tidy n site (symbol dst index) :=
  .bind .read fun _ => .ite (.bind (.throw _) fun _ => .instr _) (.instr _)

theorem instructionPointer (dst : Reg) : Tidy n site (instructionPointer dst) :=
  .bind .read fun _ => .instr _

theorem stepMode (dst : Reg) (s : Step) : Tidy n site (stepMode dst s) :=
  .bind .isStrict fun _ => .instr _

theorem coercible (base : Register) : Tidy n site (coercible base) :=
  .bind (.load _ _) fun _ => .bind .get fun e => .newLabel fun _ hok => .bind (.instrs _) fun _ =>
    .bind (.jcc _ _) fun _ => .bind (.bind (.callStub _) fun _ => .instr _) fun _ =>
    .bind (.label hok) fun _ => .believe e.cached

end Tidy

theorem tidy_binary (op : BinaryOp) (dst lhs rhs : Register) : Tidy n site (binary op dst lhs rhs) := by
  cases op
  all_goals
    simp only [binary, arith, divide, modulo, shift, bitwise, compare, binaryStub, boxInt32, boxDouble]
    repeat' with_reducible first
      | assumption | intro _ _ | intro _ | apply Tidy.newLabel | apply Tidy.instr | apply Tidy.instrs
      | apply Tidy.jcc | apply Tidy.jmp | apply Tidy.label | apply Tidy.load
      | apply Tidy.integerPair | apply Tidy.finishSlow | apply Tidy.binarySlow
      | apply Tidy.storeResult | apply Tidy.callStub | apply Tidy.ite | apply Tidy.bind

theorem tidy_global (a : VariableAccess) (r : Register) (name : UInt32) :
    Tidy n site (global a r name) := by
  cases a
  all_goals
    simp only [global, nameStub]
    repeat' with_reducible first
      | intro _ | apply Tidy.symbol | apply Tidy.instructionPointer | apply Tidy.load
      | apply Tidy.stepMode | apply Tidy.isStrict | apply Tidy.storeResult
      | apply Tidy.callStub | apply Tidy.bind

theorem tidy_heap (a : VariableAccess) (r : Register) (name offset nest : UInt32) :
    Tidy n site (heap a r name offset nest) := by
  cases a
  all_goals
    simp only [heap, heapStub, loadImmediate, frame, immediate]
    repeat' with_reducible first
      | intro _ | apply Tidy.symbol | apply Tidy.instr | apply Tidy.load | apply Tidy.stepMode
      | apply Tidy.storeResult | apply Tidy.callStub | apply Tidy.ite | apply Tidy.bind

theorem tidy_dynamic (a : VariableAccess) (r : Register) (name : UInt32) :
    Tidy n site (dynamic a r name) := by
  cases a
  all_goals
    simp only [dynamic, frameNameStub, frame]
    repeat' with_reducible first
      | intro _ | apply Tidy.symbol | apply Tidy.instr | apply Tidy.load | apply Tidy.stepMode
      | apply Tidy.isStrict | apply Tidy.storeResult | apply Tidy.callStub | apply Tidy.bind

theorem tidy_prop (a : MemberAccess) (r base : Register) (name : UInt32) :
    Tidy n site (prop a r base name) := by
  cases a
  all_goals
    simp only [prop]
    repeat' with_reducible first
      | intro _ | apply Tidy.coercible | apply Tidy.symbol | apply Tidy.instructionPointer
      | apply Tidy.load | apply Tidy.stepMode | apply Tidy.isStrict | apply Tidy.storeResult
      | apply Tidy.callStub | apply Tidy.bind

theorem tidy_element (a : MemberAccess) (r base index : Register) :
    Tidy n site (element a r base index) := by
  cases a
  all_goals
    simp only [element]
    repeat' with_reducible first
      | intro _ | apply Tidy.coercible | apply Tidy.load | apply Tidy.stepMode
      | apply Tidy.isStrict | apply Tidy.storeResult | apply Tidy.callStub | apply Tidy.bind

theorem tidy_instruction (ins : Instruction) : Tidy n site (instruction ins) := by
  unfold instruction
  dsimp only
  split
  case h_1 => exact .expect Emitter.cached
  case h_22 => exact tidy_binary _ _ _ _
  case h_15 => exact tidy_global _ _ _
  case h_16 => exact tidy_heap _ _ _ _ _
  case h_17 => exact tidy_dynamic _ _ _
  case h_18 => exact tidy_prop _ _ _ _
  case h_19 => exact tidy_prop _ _ _ _
  case h_20 | h_21 => exact tidy_element _ _ _ _
  case h_36 => exact .callStub _
  all_goals
    simp only [move, loadImmediate, loadInt32, loadConst, loadCallee, loadArguments, loadFunction,
      loadRegExp, loadArray, initVectorElement, initSparseElement, loadObject, storeObject,
      tryCatchSetup, frameNameStub, buildEnv, instantiate, initializeHeapImmutable, withSetup,
      popEnv, compareBranch, toNumber, negate, Emit.not, bitNot, unaryStub, addDelta, stepInPlace,
      stepKeeping, toPrimitiveString, concat, conditionalJump, jumpSubroutine, returnSubroutine,
      forInSetup, forInEnumerate, forInLeave, callShaped, jumpIfObject, prepareDynamicCall,
      returnAccumulator, boxInt32, boxDouble, compareNullish, callStubNoReturn, immediate, frame,
      jumpLabel]
    repeat' with_reducible first
      | assumption | intro _ _ | intro _ | apply Tidy.newLabel | apply Tidy.instr
      | apply Tidy.instrs | apply Tidy.jcc | apply Tidy.jmp | apply Tidy.label
      | apply Tidy.load | apply Tidy.reload | apply Tidy.store | apply Tidy.integerPair
      | apply Tidy.guardInt32 | apply Tidy.finishSlow | apply Tidy.binarySlow
      | apply Tidy.storeResult | apply Tidy.callStub | apply Tidy.ite | apply Tidy.bind
      | apply Tidy.constant | apply Tidy.registerAddress | apply Tidy.targetLabel
      | apply Tidy.pure | apply Tidy.throw | apply Tidy.read | apply Tidy.address
      | apply Tidy.align | apply Tidy.symbol | apply Tidy.instructionPointer

end Emit

end RegisterJit
