import RegisterJit.Proofs.Branching
import RegisterJit.Proofs.IntegerStubs

/-!
# Operators on integers

Runs of compiled code at operators. Operators on integers are done inline, or by a stub when the inline path
leaves the integers to it.

`finishPieces`, `binaryPieces` and the other definitions here are the code of operators cut at the points where
it may leave for a stub. `ensures_finishBinary` and `ensures_finishUnary` say that the emitters write these
pieces, `follow_result` that the result is then put where it belongs. `Answer` says how a result comes about:
inline, or by asking a stub with certain arguments. `answers_finish` and `answers_binary` determine it from
whether the inline path leaves. `Shortcuts` makes a statement about runs of the code from this.
-/

namespace RegisterJit

open X86 (Reg Cond Instr Label Cpu)

@[simp] theorem Emitter.pieces_alloc (e : Emitter) (count : Nat) : (e.alloc count).pieces = e.pieces := rfl

/-! ## What is written for an operator -/

namespace Emit

/-- The pieces after an inline path: the call of the stub, and the result put into its register. -/
def finishPieces (call : List Piece) (slow done : Label) (d : Int32) : List Piece :=
  .bind slow :: (call ++ [.bind done, .instr (.store frameReg d .rax)])

/-- The pieces of a binary operator after its operands. -/
def binaryPieces (thunk : Label) (op : BinaryOp) (left right d : Int32) (base : Label) : List Piece :=
  guardPieces base ++ (inlinePieces op base ++
    finishPieces (slowPieces thunk op left right) base (inlineEnd op base) d)

/-- The pieces that check that the operand is an integer. -/
def checkInt32Pieces (slow : Label) : List Piece := [.instr (.alu .cmp .w64 .rax maskReg), .jcc .b slow]

/-- The pieces that ask for an operator on a register of the frame. -/
def slowUnaryPieces (thunk : Label) (s : Stub) (o : Int32) : List Piece :=
  .instr (.load .rsi frameReg o) :: askPieces thunk s

/-- The pieces of a unary operator after its operand. -/
def unaryOpPieces (thunk : Label) (s : Stub) (o d : Int32) (base : Label) : List Piece :=
  checkInt32Pieces base ++ (unaryPieces s base ++
    finishPieces (slowUnaryPieces thunk s o) base (base + 1) d)

/-- The pieces that step a register and keep its number in another. -/
def keepingPieces (thunk : Label) (s : Step) (o d : Int32) (base : Label) : List Piece :=
  checkInt32Pieces base ++ .instr (.store frameReg d .rax) :: (unaryPieces (stepStub s) base ++
    finishPieces (slowUnaryPieces thunk .toNumber o ++ .instr (.store frameReg d .rax) ::
      .instr (.mov .w64 .rsi .rax) :: askPieces thunk (stepStub s)) base (base + 1) o)

/-- The pieces of a conversion to a number after its operand. -/
def toNumberPieces (thunk : Label) (s : Stub) (d : Int32) (base : Label) : List Piece :=
  .instr (.test .w64 .rax maskReg) :: .jcc .ne base :: .instr (.mov .w64 .rsi .rax) ::
    (askPieces thunk s ++ [.bind base, .instr (.store frameReg d .rax)])

theorem known_binaryPieces (thunk : Label) (op : BinaryOp) (left right d : Int32) (base : Label) :
    ∀ p ∈ binaryPieces thunk op left right d base, p.known = true := by
  refine List.all_eq_true.1 ?_
  cases op with
  | compare k => cases k <;> rfl
  | _ => rfl

theorem known_unaryOpPieces (thunk : Label) (s : Stub) (o d : Int32) (base : Label) :
    ∀ p ∈ unaryOpPieces thunk s o d base, p.known = true := by
  refine List.all_eq_true.1 ?_
  cases s <;> rfl

theorem known_toNumberPieces (thunk : Label) (s : Stub) (d : Int32) (base : Label) :
    ∀ p ∈ toNumberPieces thunk s d base, p.known = true := List.all_eq_true.1 rfl

theorem known_keepingPieces (thunk : Label) (s : Step) (o d : Int32) (base : Label) :
    ∀ p ∈ keepingPieces thunk s o d base, p.known = true := by
  refine List.all_eq_true.1 ?_
  obtain ⟨decrement, keepsOld⟩ := s
  cases decrement <;> rfl

theorem stepStub_inline (s : Step) (u : UInt32) :
    (stepStub s).inline = true ∧ (stepStub s).leaves (signed32 u) = false := by
  unfold stepStub
  cases s.decrement <;> exact ⟨rfl, rfl⟩

section

variable {site : Site} {e : Emitter} (dst src lhs rhs : Register)

@[simp] theorem ensures_boxInt32 {r : Reg} {Q : Unit → Emitter → Prop} :
    (boxInt32 r).Ensures site e Q ↔ Q () (e.write [.instr (.alu .or .w64 r maskReg)]) := ensures_instr

@[simp] theorem ensures_boxDouble {r : Reg} {Q : Unit → Emitter → Prop} :
    (boxDouble r).Ensures site e Q ↔ Q () (e.write [.instr (.cvtsi2sd .x0 r), .instr (.movqFrom .rax .x0),
      .instr (.movImm64 .rcx Value.doubleOffset), .instr (.alu .add .w64 .rax .rcx)]) := ensures_instrs

@[simp] theorem ensures_guardInt32 {r : Reg} {slow : Label} {Q : Unit → Emitter → Prop} :
    (guardInt32 r slow).Ensures site e Q ↔ Q () (e.write [.instr (.alu .cmp .w64 r maskReg), .jcc .b slow]) := by
  simp only [guardInt32, ↓ensures_bind, ↓ensures_instr, ↓ensures_jcc, Emitter.write_write, List.cons_append,
    List.nil_append]

/-- The call of the stub of a binary operator, and its result. -/
theorem ensures_finishBinary {op : BinaryOp} {slow done : Label} {Q : Unit → Emitter → Prop} :
    (finishSlow slow done (binarySlow op lhs rhs) dst).Ensures site e Q ↔
      ∀ left, Frame.registerOffset? lhs = some left → ∀ right, Frame.registerOffset? rhs = some right →
      ∀ d, Frame.registerOffset? dst = some d → Q () (((e.write
        (finishPieces (slowPieces site.stubThunk op left right) slow done d)).believe .invalid).expect dst) := by
  simp only [finishSlow, binarySlow, ↓ensures_bind, ↓ensures_label, ↓ensures_reload, ↓ensures_callStub,
    ↓ensures_storeResult, Emitter.write_write, Emitter.believe_write, finishPieces, slowPieces, askPieces,
    List.cons_append, List.nil_append]

theorem ensures_binary {op : BinaryOp} (hop : op.inline = true) :
    (binary op dst lhs rhs).Ensures site e fun _ e' =>
      ∃ p q left right d, Piece.FetchesPair e.cached lhs rhs p q ∧
        Frame.registerOffset? lhs = some left ∧ Frame.registerOffset? rhs = some right ∧
        Frame.registerOffset? dst = some d ∧ e'.pieces.toList = e.pieces.toList ++
          p :: q :: binaryPieces site.stubThunk op left right d e.labels := by
  cases op
  case instanceOf => cases hop
  case memberOf => cases hop
  all_goals
    simp only [binary, arith, divide, modulo, shift, bitwise, compare, integerPair, ↓ensures_bind, ↓ensures_newLabel]
    refine ensures_fetchPair fun p q k hpq => ?_
    simp only [↓ensures_bind, ↓ensures_newLabel, ↓ensures_guardInt32, ↓ensures_instr, ↓ensures_instrs, ↓ensures_jcc,
      ↓ensures_jmp, ↓ensures_label, ↓ensures_boxInt32, ↓ensures_boxDouble, ↓ensures_finishBinary, ↓reduceIte,
      reduceCtorEq, Emitter.write_write, Emitter.believe_write, Emitter.believe_alloc, Emitter.write_alloc]
    intro left hleft right hright d hd
    refine ⟨p, q, left, right, d, hpq, hleft, hright, hd, (toList_pieces_write _).trans ?_⟩
    simp only [binaryPieces, guardPieces, inlinePieces, inlineEnd, arithPieces, overflowPieces, productPieces,
      boxPieces, boxDoublePieces, dividePieces, refusePieces, quotientPieces, moduloPieces, shiftPieces, bitwisePieces,
      orderPieces, Emitter.labels_alloc, Emitter.labels_write, Emitter.labels_believe,
      Emitter.pieces_alloc, ↓reduceIte, reduceCtorEq, List.map_cons, List.map_nil, List.cons_append,
      List.nil_append, Nat.add_assoc, Nat.reduceAdd]

/-- The call of the stub of a unary operator, and its result. -/
theorem ensures_finishUnary {s : Stub} {slow done : Label} {Q : Unit → Emitter → Prop} :
    (finishSlow slow done (do reload .rsi src; callStub s) dst).Ensures site e Q ↔
      ∀ o, Frame.registerOffset? src = some o → ∀ d, Frame.registerOffset? dst = some d →
        Q () (((e.write (finishPieces (slowUnaryPieces site.stubThunk s o) slow done d)).believe .invalid).expect
          dst) := by
  simp only [finishSlow, ↓ensures_bind, ↓ensures_label, ↓ensures_reload, ↓ensures_callStub,
    ↓ensures_storeResult, Emitter.write_write, Emitter.believe_write, finishPieces, slowUnaryPieces, askPieces,
    List.cons_append, List.nil_append]

def Unary (s : Stub) (dst src : Register) (site : Site) (e e' : Emitter) : Prop :=
  ∃ p o d, Piece.Fetches e.cached .rax src p ∧ Frame.registerOffset? src = some o ∧
    Frame.registerOffset? dst = some d ∧
    e'.pieces.toList = e.pieces.toList ++ p :: unaryOpPieces site.stubThunk s o d e.labels

theorem ensures_negate : (negate dst src).Ensures site e fun _ e' => Unary .unaryNegative dst src site e e' := by
  simp only [negate, ↓ensures_bind, ↓ensures_newLabel]
  refine ensures_fetch fun p hp => ?_
  simp only [↓ensures_guardInt32, ↓ensures_instr, ↓ensures_jcc, ↓ensures_jmp, ↓ensures_boxInt32, ↓ensures_finishUnary,
    Emitter.write_write, Emitter.believe_write]
  intro o ho d hd
  refine ⟨p, o, d, hp, ho, hd, (toList_pieces_write _).trans ?_⟩
  simp only [unaryOpPieces, checkInt32Pieces, unaryPieces, negatePieces, refusePieces, boxPieces, Emitter.labels_alloc,
    Emitter.pieces_alloc, List.cons_append, List.nil_append]

theorem ensures_bitNot : (bitNot dst src).Ensures site e fun _ e' => Unary .unaryBitNot dst src site e e' := by
  simp only [bitNot, ↓ensures_bind, ↓ensures_newLabel]
  refine ensures_fetch fun p hp => ?_
  simp only [↓ensures_guardInt32, ↓ensures_instr, ↓ensures_jmp, ↓ensures_boxInt32, ↓ensures_finishUnary,
    Emitter.write_write, Emitter.believe_write]
  intro o ho d hd
  refine ⟨p, o, d, hp, ho, hd, (toList_pieces_write _).trans ?_⟩
  simp only [unaryOpPieces, checkInt32Pieces, unaryPieces, bitNotPieces, boxPieces, Emitter.labels_alloc,
    Emitter.pieces_alloc, List.cons_append, List.nil_append]

theorem ensures_addDelta {s : Step} {base : Label} (hbase : e.labels = base + 2) {Q : Unit → Emitter → Prop} :
    (addDelta (stepDelta s) (base + 1)).Ensures site e Q ↔
      Q () ((e.alloc 1).write (unaryPieces (stepStub s) base)) := by
  have hpieces : unaryPieces (stepStub s) base = stepPieces (stepDelta s) base := by
    unfold stepStub stepDelta
    cases s.decrement <;> rfl
  simp only [hpieces, stepPieces, overflowPieces, boxPieces, boxDoublePieces, addDelta, hbase, ↓ensures_bind,
    ↓ensures_newLabel, ↓ensures_instr, ↓ensures_jcc, ↓ensures_jmp, ↓ensures_label, ↓ensures_boxInt32,
    ↓ensures_boxDouble, Emitter.write_write, List.cons_append, List.nil_append]

theorem ensures_stepInPlace (s : Step) (r : Register) :
    (stepInPlace s r).Ensures site e fun _ e' => Unary (stepStub s) r r site e e' := by
  simp only [stepInPlace, ↓ensures_bind, ↓ensures_newLabel]
  refine ensures_fetch fun p hp => ?_
  have hlabels : (e.alloc 1).labels = e.labels + 1 := rfl
  rw [hlabels, ensures_guardInt32, ensures_addDelta (by rfl), ensures_finishUnary]
  intro o ho d hd
  refine ⟨p, o, d, hp, ho, hd, ?_⟩
  simp only [Emitter.write_write, Emitter.believe_write, Emitter.believe_alloc, Emitter.write_alloc, unaryOpPieces,
    checkInt32Pieces, List.cons_append, List.nil_append]
  exact toList_pieces_write _

theorem ensures_toNumber (s : Stub) : (toNumber s dst src).Ensures site e fun _ e' =>
    ∃ p d, Piece.Fetches e.cached .rax src p ∧ Frame.registerOffset? dst = some d ∧
      e'.pieces.toList = e.pieces.toList ++ p :: toNumberPieces site.stubThunk s d e.labels := by
  simp only [toNumber, ↓ensures_bind, ↓ensures_newLabel]
  refine ensures_fetch fun p hp => ?_
  simp only [↓ensures_instr, ↓ensures_jcc, ↓ensures_label, ↓ensures_callStub, ↓ensures_storeResult,
    Emitter.write_write, Emitter.believe_write, List.cons_append, List.nil_append]
  intro d hd
  exact ⟨p, d, hp, hd, toList_pieces_write _⟩

theorem ensures_stepKeeping (s : Step) (hne : dst ≠ src) : (stepKeeping s dst src).Ensures site e fun _ e' =>
    ∃ p o d, Piece.Fetches e.cached .rax src p ∧ Frame.registerOffset? src = some o ∧
      Frame.registerOffset? dst = some d ∧
      e'.pieces.toList = e.pieces.toList ++ p :: keepingPieces site.stubThunk s o d e.labels := by
  rw [stepKeeping, if_neg hne]
  simp only [↓ensures_bind, ↓ensures_newLabel]
  refine ensures_fetch fun p hp => ?_
  have hlabels : (e.alloc 1).labels = e.labels + 1 := rfl
  rw [hlabels, ensures_guardInt32, ensures_store]
  intro d hd
  rw [ensures_addDelta (by rfl)]
  simp only [finishSlow, ↓ensures_bind, ↓ensures_label, ↓ensures_reload, ↓ensures_callStub, ↓ensures_store,
    ↓ensures_instr, ↓ensures_storeResult]
  intro o ho d' hd' o' ho'
  obtain rfl : d = d' := Option.some.inj (hd.symm.trans hd')
  obtain rfl : o = o' := Option.some.inj (ho.symm.trans ho')
  refine ⟨p, o, d, hp, ho, hd, ?_⟩
  simp only [Emitter.write_write, Emitter.believe_write, Emitter.believe_alloc, Emitter.write_alloc, keepingPieces,
    finishPieces, slowUnaryPieces, askPieces, checkInt32Pieces, List.cons_append, List.nil_append, List.append_assoc]
  exact toList_pieces_write _

end

end Emit

/-! ## How a result comes about -/

/-- How an operator gets at its result: inline, or by asking a stub with these arguments. -/
inductive Answer
  | inline (v : Value)
  | asked (s : Stub) (args : List Value)

namespace Answer

def calls : Answer → List (Stub × List UInt64)
  | .inline _ => []
  | .asked s args => [(s, args.map Value.word)]

end Answer

/-- How an operator gets at its result on two integers. -/
def BinaryOp.answer (op : BinaryOp) (u v : UInt32) : Answer :=
  if op.leaves (signed32 u) (signed32 v) then .asked (.binary op) [.int32 u, .int32 v]
  else .inline (op.onIntegers u v)

/-- How an operator gets at its result on an integer. -/
def Stub.answer (s : Stub) (u : UInt32) : Answer :=
  if s.leaves (signed32 u) then .asked s [.int32 u] else .inline (s.onInteger u)

namespace Piece

variable {word : Label → UInt64} {thunk : Label} {c : Cpu} {ps : List Piece} {o : Int32}

/-- Code puts a result into a register of the frame, once it has computed it or a stub has answered with it. -/
def Answers (word : Label → UInt64) (thunk : Label) (ps : List Piece) (c : Cpu) (o : Int32) (a : Answer) : Prop :=
  match a with
  | .inline v => ∃ d, c.Computes d ∧ d.reg .rax = v.word ∧ follow word none ps c =
      .falls (d.write (d.reg frameReg + X86.displacementWord o) (d.reg .rax))
  | .asked s args => ∃ done, (follow word none ps c).Stops
      [.call thunk, .bind done, .instr (.store frameReg o .rax)] fun d => c.Computes d ∧
        d.reg .rdi = c.reg contextReg ∧ d.reg .rax = s.number.toUInt64 ∧
        [d.reg .rsi, d.reg .rdx, d.reg .rcx, d.reg .r8, d.reg .r9].take s.arity = args.map Value.word

theorem Answers.of_follow {a : Answer} {d : Cpu} {qs : List Piece} (hd : c.Computes d)
    (hfollow : follow word none ps c = follow word none qs d) (h : Answers word thunk qs d o a) :
    Answers word thunk ps c o a := by
  cases a with
  | inline v =>
    obtain ⟨e, he, hrax, hfalls⟩ := h
    exact ⟨e, hd.trans he, hrax, hfollow.trans hfalls⟩
  | asked s args =>
    obtain ⟨done, e, hstops, he, hdi, hrax, hargs⟩ := h
    exact ⟨done, e, hfollow.trans hstops, hd.trans he, hdi.trans (hd.kept _ (by decide)), hrax, hargs⟩

/-- The end of a label's stretch puts the accumulator into a register of the frame. -/
theorem follow_result (word : Label → UInt64) (done : Label) (d : Cpu) :
    follow word none [.bind done, .instr (.store frameReg o .rax)] d =
      .falls (d.write (d.reg frameReg + X86.displacementWord o) (d.reg .rax)) := by simp

/-- An inline path, and the call of a stub to which it may leave its operands. -/
theorem answers_finish {leaves : Bool} {slow done : Label} {call : List Piece} {s : Stub} {args : List Value}
    {v : Value} (hpath : Carries word ps c (some (if leaves then slow else done))
      fun d => leaves = false → d.reg .rax = v.word)
    (hslow : slow ≠ done) (hcall : .bind done ∉ call)
    (hasks : leaves = true → ∀ d, c.Computes d → ∀ rest, (follow word none (call ++ rest) d).Stops (.call thunk :: rest)
      fun e => d.Computes e ∧ e.reg .rdi = d.reg contextReg ∧ e.reg .rax = s.number.toUInt64 ∧
        [e.reg .rsi, e.reg .rdx, e.reg .rcx, e.reg .r8, e.reg .r9].take s.arity = args.map Value.word) :
    Answers word thunk (ps ++ Emit.finishPieces call slow done o) c o
      (if leaves then .asked s args else .inline v) := by
  obtain ⟨d, hd, hq, hfollow⟩ := hpath
  cases leaves with
  | true =>
    obtain ⟨e, hstops, he, hdi, hrax, hargs⟩ := hasks rfl d hd [.bind done, .instr (.store frameReg o .rax)]
    refine ⟨done, e, ?_, hd.trans he, hdi.trans (hd.kept _ (by decide)), hrax, hargs⟩
    rw [hfollow, Emit.finishPieces, if_pos rfl, follow_jump_bind, if_pos rfl, hstops]
  | false =>
    refine ⟨d, hd, hq rfl, ?_⟩
    rw [hfollow, Emit.finishPieces, if_neg Bool.false_ne_true, ← List.cons_append,
      follow_jump_append word done (by simp [hcall, hslow.symm])]
    exact follow_result word done d

theorem inlineEnd_ne (op : BinaryOp) (base : Label) : base ≠ Emit.inlineEnd op base := by
  cases op <;> simp [Emit.inlineEnd]

/-- The code of a binary operator on integers. -/
theorem answers_binary {op : BinaryOp} {cached lhs rhs : Register} {p q : Piece} {u v : UInt32}
    {left right : Int32} (hop : op.inline = true) (hpq : FetchesPair cached lhs rhs p q)
    (ha : c.Operand cached lhs (.int32 u)) (hb : c.Operand cached rhs (.int32 v))
    (hleft : Frame.registerOffset? lhs = some left) (hright : Frame.registerOffset? rhs = some right)
    (hmask : c.reg maskReg = Value.numberMask) (base : Label) :
    Answers word thunk (p :: q :: Emit.binaryPieces thunk op left right o base) c o (op.answer u v) := by
  obtain ⟨d, hd, hrax, hrdx, hfollow⟩ := follow_operands word hpq ha hb hmask base (Emit.inlinePieces op base ++
    Emit.finishPieces (Emit.slowPieces thunk op left right) base (Emit.inlineEnd op base) o)
  rw [Value.isInt32_int32, Value.isInt32_int32, Bool.and_self, if_pos rfl] at hfollow
  refine .of_follow hd hfollow (answers_finish (carries_inlinePieces base hop ?_ hrax hrdx)
    (inlineEnd_ne op base) ?_ fun _ e he rest => ?_)
  · rw [hd.kept maskReg (by decide), hmask]
  · simp [Emit.slowPieces, Emit.askPieces]
  · have hread (x : Int32) : e.read (e.reg frameReg + X86.displacementWord x) =
        c.read (c.reg frameReg + X86.displacementWord x) := by
      rw [(hd.trans he).read, (hd.trans he).kept frameReg (by decide)]
    obtain ⟨x, hstops, hx, hdi, hnumber, hsi, hdx⟩ := follow_slowPieces word thunk op rest
      ((hread left).trans (ha.slot _ hleft)) ((hread right).trans (hb.slot _ hright))
    refine ⟨x, hstops, hx, hdi, hnumber, ?_⟩
    rw [hsi, hdx]
    rfl

section

variable {cached src : Register} {p : Piece} {u : UInt32} (hp : Fetches cached .rax src p)
  (hv : c.Operand cached src (.int32 u)) (hmask : c.reg maskReg = Value.numberMask)

include hp hv hmask

theorem follow_integer (word : Label → UInt64) (slow : Label) (rest : List Piece) :
    ∃ d, c.Computes d ∧ d.reg .rax = (Value.int32 u).word ∧
    follow word none (p :: (Emit.checkInt32Pieces slow ++ rest)) c = follow word none rest d := by
  obtain ⟨f, hf⟩ := follow_guard word .rax slow rest
    (show (c.setReg .rax (Value.int32 u).word).reg maskReg = _ by simp [X86.Cpu.reg_setReg, hmask])
  rw [X86.Cpu.reg_setReg_self, show (⟨(Value.int32 u).word⟩ : Value).isInt32 = true from Value.isInt32_int32 u,
    if_pos rfl] at hf
  refine ⟨_, ((X86.Cpu.Computes.refl c).setReg (by decide) _).setFlags f, ?_, (hp.follow hv).trans hf⟩
  rw [X86.Cpu.reg_setFlags, X86.Cpu.reg_setReg_self]

theorem answers_unary {s : Stub} {x : Int32} (hs : s.inline = true) (hx : Frame.registerOffset? src = some x)
    (base : Label) :
    Answers word thunk (p :: Emit.unaryOpPieces thunk s x o base) c o (s.answer u) := by
  obtain ⟨d, hd, hrax, hfollow⟩ := follow_integer hp hv hmask word base (Emit.unaryPieces s base ++
    Emit.finishPieces (Emit.slowUnaryPieces thunk s x) base (base + 1) o)
  refine .of_follow hd hfollow (answers_finish (carries_unaryPieces base hs ?_ hrax) (by simp) ?_
    fun _ e he rest => ?_)
  · rw [hd.kept maskReg (by decide), hmask]
  · simp [Emit.slowUnaryPieces, Emit.askPieces]
  · have hread : e.read (e.reg frameReg + X86.displacementWord x) = (Value.int32 u).word := by
      rw [(hd.trans he).read, (hd.trans he).kept frameReg (by decide), hv.slot _ hx]
    have harity : s.arity = 1 := by cases s <;> first | rfl | cases hs
    simp [Emit.slowUnaryPieces, Emit.askPieces, X86.Cpu.computes_iff, Machine.roleRegs, X86.Cpu.reg_setReg, hread,
      harity]

theorem answers_toNumber (s : Stub) (base : Label) :
    Answers word thunk (p :: Emit.toNumberPieces thunk s o base) c o (Stub.toNumber.answer u) := by
  have hnumber : (Value.int32 u).word &&& Value.numberMask ≠ 0 := bne_iff_ne.1 (Value.isNumber_int32 u)
  have hpath : Carries word (.instr (.test .w64 .rax maskReg) :: .jcc .ne base :: .instr (.mov .w64 .rsi .rax) ::
      Emit.askPieces thunk s) (c.setReg .rax (Value.int32 u).word) (some base)
      fun d => d.reg .rax = (Value.int32 u).word := by
    refine .instr rfl (X86.Cpu.effect_test ..) (X86.Cpu.computes_setFlags _ _) (.leave ?_ (by simp [Emit.askPieces]) ?_)
    · simp [X86.Cpu.reg_setReg, hmask, hnumber]
    · simp [X86.Cpu.reg_setReg]
  obtain ⟨d, hd, hrax, hfollow⟩ := hpath
  refine .of_follow (X86.Cpu.computes_setReg _ (by decide) _) (hp.follow hv) ⟨d, hd, hrax, ?_⟩
  have hend := hfollow [.bind base, .instr (.store frameReg o .rax)]
  rw [follow_jump_bind, if_pos rfl] at hend
  exact hend.trans (follow_result word base d)

/-- The code that steps a register and keeps its number in another. -/
theorem follow_keepingPieces (s : Step) (x o : Int32) (base : Label) : ∃ d e, c.Computes d ∧
    d.reg .rax = (Value.int32 u).word ∧
    (d.write (d.reg frameReg + X86.displacementWord o) (d.reg .rax)).Computes e ∧
    e.reg .rax = ((Emit.stepStub s).onInteger u).word ∧
    follow word none (p :: Emit.keepingPieces thunk s x o base) c =
      .falls (e.write (e.reg frameReg + X86.displacementWord x) (e.reg .rax)) := by
  obtain ⟨d, hd, hrax, hfollow⟩ := follow_integer hp hv hmask word base
    (.instr (.store frameReg o .rax) :: (Emit.unaryPieces (Emit.stepStub s) base ++ Emit.finishPieces
      (Emit.slowUnaryPieces thunk .toNumber x ++ .instr (.store frameReg o .rax) ::
        .instr (.mov .w64 .rsi .rax) :: Emit.askPieces thunk (Emit.stepStub s)) base (base + 1) x))
  have hinline := Emit.stepStub_inline s u
  have hpath : Carries word (Emit.unaryPieces (Emit.stepStub s) base)
      (d.write (d.reg frameReg + X86.displacementWord o) (d.reg .rax)) _ _ :=
    carries_unaryPieces base hinline.1 (by rw [X86.Cpu.reg_write, hd.kept maskReg (by decide), hmask]) hrax
  rw [hinline.2, if_neg Bool.false_ne_true] at hpath
  obtain ⟨e, he, hresult, hfollow'⟩ := hpath
  refine ⟨d, e, hd, hrax, he, hresult rfl, hfollow.trans ?_⟩
  have hstore : follow word none (.instr (.store frameReg o .rax) :: (Emit.unaryPieces (Emit.stepStub s) base ++
      Emit.finishPieces (Emit.slowUnaryPieces thunk .toNumber x ++ .instr (.store frameReg o .rax) ::
        .instr (.mov .w64 .rsi .rax) :: Emit.askPieces thunk (Emit.stepStub s)) base (base + 1) x)) d = _ :=
    hfollow' _
  rw [hstore, Emit.finishPieces, ← List.cons_append,
    follow_jump_append word (base + 1) (by simp [Emit.slowUnaryPieces, Emit.askPieces])]
  exact follow_result word (base + 1) e

end

end Piece

end RegisterJit
