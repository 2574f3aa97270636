import RegisterJit.Proofs.Finally
import RegisterJit.Proofs.Operators

/-!
# Shortcuts

The code of an operator leaves in its destination what its stub computes for the same integers, whether it asks
the stub or not.

The paths of an operator were compared with its stub for one stretch of code (`Operators`); here the statement
is about runs. `Obtains` says how a machine comes to a result: by itself, or by leaving with certain arguments
and coming back with the value that the host gives. `Performs` says the same of a world in which the host serves
stubs as it does, with the result in the destination at the end. There is one lemma for binary operators, one
for unary ones and one for steps that keep the old value, and `shortcuts_agree` has the three for all pairs of
integers of 32 bits.
-/

namespace RegisterJit

open X86 (Reg Cond Instr Label Cpu)

/-! ## Results -/

namespace Machine

theorem Works.trans {m m' m'' : Machine} (h : m.Works m') (h' : m'.Works m'') : m.Works m'' := by
  obtain ⟨-, hbase, -, hcontext⟩ := h.regions
  refine ⟨?_, fun r hr => (h'.kept r hr).trans (h.kept r hr), fun a ha => ?_⟩
  · rw [h'.same, h.same]
    rfl
  · refine (h'.memory a ?_).trans (h.memory a ha)
    rwa [OnRegisterStack, Beyond, hcontext, hbase]

/-- Compiled code comes to a state that depends on a result, which it gets at as told. When it asks a stub, it
comes there after every answer of a host that has left alone what suspended code relies on. -/
def Obtains (m : Machine) (a : Answer) (Q : Value → Machine → Prop) : Prop :=
  match a with
  | .inline v => m.Comes (Q v)
  | .asked stub args => m.Comes fun m' => m'.Asks stub (args.map Value.word) ∧
      ∀ m'' v r1, m'.Preserves m'' → (m''.resume v.word r1).Comes (Q v)

theorem obtains_inline {m : Machine} {v : Value} {Q : Value → Machine → Prop} :
    m.Obtains (.inline v) Q ↔ m.Comes (Q v) := Iff.rfl

theorem obtains_asked {m : Machine} {stub : Stub} {args : List Value} {Q : Value → Machine → Prop} :
    m.Obtains (.asked stub args) Q ↔ m.Comes fun m' => m'.Asks stub (args.map Value.word) ∧
      ∀ m'' v r1, m'.Preserves m'' → (m''.resume v.word r1).Comes (Q v) := Iff.rfl

end Machine

namespace Session.Stands

variable {m : Machine} {s : Session} {image : Image} {c : CompiledUnit} {ins : Instruction}
  {span : Span} {jumps : JumpTable} {b : Block} {front back : List Piece}
  (hst : s.Stands c ins span jumps b front back)

include hst

/-- Code that puts a result into a register of the frame is run. -/
theorem obtains (h : m.Running s image) (hknown : ∀ p ∈ b.body, p.known = true)
    (hrip : m.cpu.rip = image.address (Piece.endFrom 0 front)) {a : Answer} {r : Register} {o : Int32}
    (ho : Frame.registerOffset? r = some o) (hr : m.HasRegister (m.cpu.reg frameReg) r)
    (hanswers : Piece.Answers (s.word image) Session.stubThunk b.body m.cpu o a) :
    m.Obtains a fun v m' => m'.Reaches s image c ins.next.toUInt32 ∧ ∀ cached, m'.cpu.Operand cached r v := by
  have hslot := hr.slot o ho
  cases a with
  | inline v =>
    obtain ⟨d, hd, hrax, hfollow⟩ := hanswers
    have hworks := Machine.Works.of_write hd hslot (d.reg .rax)
    rw [← hd.kept frameReg (by decide)] at hworks
    obtain ⟨x, hgoes, hreaches⟩ := hst.falls h [] (List.nil_append _).symm hknown
      (by rw [List.append_nil]; exact hrip) hfollow hworks
    exact ⟨_, hgoes.goes, hreaches, fun cached => Machine.Reaches.operand_of_write ho hrax x⟩
  | asked stub args =>
    obtain ⟨done, hstops⟩ := hanswers
    obtain ⟨d, x, mid, hargs, hgoes, hasks, hmid, hresumes⟩ := hst.asks h hknown hrip hstops
    refine ⟨x, hgoes, by rwa [hargs] at hasks, fun m' v r1 hkeeps => ?_⟩
    obtain ⟨hrunning, hrip', hrax, hcontext, hbase, hrole⟩ := hresumes m' v.word r1 hkeeps
    generalize m'.resume v.word r1 = n at *
    have hknown' : ∀ q ∈ [Piece.bind done, .instr (.store frameReg o .rax)], q.known = true :=
      fun q hq => hknown q (hmid ▸ List.mem_append_right _ hq)
    have hslot' : n.OnRegisterStack (n.cpu.reg frameReg + X86.displacementWord o) := by
      rw [hrole frameReg (by decide), Machine.OnRegisterStack, Machine.Beyond, hcontext, hbase]
      exact hslot
    obtain ⟨y, hgoes', hreaches⟩ := hst.falls hrunning mid hmid hknown' hrip' (Piece.follow_result _ done _)
      (.of_write (.refl _) hslot' _)
    exact ⟨_, hgoes'.goes, hreaches, fun cached => Machine.Reaches.operand_of_write ho hrax y⟩

/-! ### The code of the operators -/

theorem binary_body {op : BinaryOp} (hinline : op.inline = true) (hop : ins.opcode = .binary op) :
    ∃ p q left right d, Piece.FetchesPair span.event.cached (ins.reg 1) (ins.reg 2) p q ∧
      Frame.registerOffset? (ins.reg 1) = some left ∧ Frame.registerOffset? (ins.reg 2) = some right ∧
      Frame.registerOffset? (ins.reg 0) = some d ∧
      b.body = p :: q :: Emit.binaryPieces Session.stubThunk op left right d b.base := by
  refine hst.emitted.body (Q := fun body => ∃ p q left right d,
    Piece.FetchesPair span.event.cached (ins.reg 1) (ins.reg 2) p q ∧
      Frame.registerOffset? (ins.reg 1) = some left ∧ Frame.registerOffset? (ins.reg 2) = some right ∧
      Frame.registerOffset? (ins.reg 0) = some d ∧
      body = p :: q :: Emit.binaryPieces Session.stubThunk op left right d b.base) ?_
  rw [hst.instruction, Emit.instruction, hop]
  intro r e' hrun
  obtain ⟨p, q, left, right, d, hpq, hrest⟩ :=
    Emit.ensures_binary (ins.reg 0) (ins.reg 1) (ins.reg 2) hinline r e' hrun
  exact ⟨p, q, left, right, d, hst.cached ▸ hpq, hrest⟩

/-- The code of a unary operator whose emitter is known. -/
theorem unary_body {stub : Stub} {dst src : Register} {emit : Emit Unit}
    (hins : Emit.instruction ins = emit)
    (hemit : ∀ site e, emit.Ensures site e fun _ e' => Emit.Unary stub dst src site e e') :
    ∃ p o d, Piece.Fetches span.event.cached .rax src p ∧ Frame.registerOffset? src = some o ∧
      Frame.registerOffset? dst = some d ∧
      b.body = p :: Emit.unaryOpPieces Session.stubThunk stub o d b.base := by
  refine hst.emitted.body (Q := fun body => ∃ p o d, Piece.Fetches span.event.cached .rax src p ∧
    Frame.registerOffset? src = some o ∧ Frame.registerOffset? dst = some d ∧
      body = p :: Emit.unaryOpPieces Session.stubThunk stub o d b.base) ?_
  rw [hst.instruction, hins]
  intro r e' hrun
  obtain ⟨p, o, d, hp, hrest⟩ := hemit _ _ r e' hrun
  exact ⟨p, o, d, hst.cached ▸ hp, hrest⟩

end Session.Stands

/-! ## Operators -/

namespace Machine.Reaches

variable {m : Machine} {s : Session} {image : Image} {c : CompiledUnit} {ins : Instruction}
  {span : Span} {u v : UInt32} (h : m.Reaches s image c ins.offset.toUInt32) (ht : s.Translates c ins span)

include h ht

/-- A binary operator on integers. -/
theorem binary {op : BinaryOp} (hinline : op.inline = true) (hop : ins.opcode = .binary op)
    (ha : m.cpu.Operand span.event.cached (ins.reg 1) (.int32 u))
    (hb : m.cpu.Operand span.event.cached (ins.reg 2) (.int32 v))
    (hdst : m.HasRegister (m.cpu.reg frameReg) (ins.reg 0)) :
    m.Obtains (op.answer u v) fun value m' => m'.Reaches s image c ins.next.toUInt32 ∧
      ∀ cached, m'.cpu.Operand cached (ins.reg 0) value := by
  obtain ⟨jumps, b, front, back, hst, hrip⟩ := h.stands ht
  obtain ⟨p, q, left, right, d, hpq, hleft, hright, hd, hbody⟩ := hst.binary_body hinline hop
  have hknown : ∀ p ∈ b.body, p.known = true := by
    rw [hbody]
    exact List.forall_mem_cons.2 ⟨hpq.known.1,
      List.forall_mem_cons.2 ⟨hpq.known.2, Emit.known_binaryPieces _ _ _ _ _ _⟩⟩
  refine hst.obtains h.running hknown hrip hd hdst ?_
  rw [hbody]
  exact Piece.answers_binary hinline hpq ha hb hleft hright h.running.mask b.base

/-- A unary operator on an integer. -/
theorem unary {stub : Stub} {dst src : Register} {emit : Emit Unit} (hinline : stub.inline = true)
    (hins : Emit.instruction ins = emit)
    (hemit : ∀ site e, emit.Ensures site e fun _ e' => Emit.Unary stub dst src site e e')
    (ha : m.cpu.Operand span.event.cached src (.int32 u)) (hdst : m.HasRegister (m.cpu.reg frameReg) dst) :
    m.Obtains (stub.answer u) fun value m' => m'.Reaches s image c ins.next.toUInt32 ∧
      ∀ cached, m'.cpu.Operand cached dst value := by
  obtain ⟨jumps, b, front, back, hst, hrip⟩ := h.stands ht
  obtain ⟨p, o, d, hp, ho, hd, hbody⟩ := hst.unary_body hins hemit
  have hknown : ∀ p ∈ b.body, p.known = true := by
    rw [hbody]
    exact List.forall_mem_cons.2 ⟨hp.known rfl, Emit.known_unaryOpPieces _ _ _ _ _⟩
  refine hst.obtains h.running hknown hrip hd hdst ?_
  rw [hbody]
  exact Piece.answers_unary hp ha h.running.mask hinline ho b.base

/-- A step that keeps the number of a register in the same register. -/
theorem keeping_same {step : Step} (hkeeps : step.keepsOld = true) (hop : ins.opcode = .step step)
    (hsame : ins.reg 0 = ins.reg 1) (ha : m.cpu.Operand span.event.cached (ins.reg 1) (.int32 u))
    (hdst : m.HasRegister (m.cpu.reg frameReg) (ins.reg 0)) :
    m.Obtains (Stub.toNumber.answer u) fun value m' => m'.Reaches s image c ins.next.toUInt32 ∧
      ∀ cached, m'.cpu.Operand cached (ins.reg 0) value := by
  obtain ⟨jumps, b, front, back, hst, hrip⟩ := h.stands ht
  have hcode : ∃ p d, Piece.Fetches span.event.cached .rax (ins.reg 1) p ∧
      Frame.registerOffset? (ins.reg 0) = some d ∧
      b.body = p :: Emit.toNumberPieces Session.stubThunk .toNumber d b.base := by
    refine hst.emitted.body (Q := fun body => ∃ p d, Piece.Fetches span.event.cached .rax (ins.reg 1) p ∧
      Frame.registerOffset? (ins.reg 0) = some d ∧
      body = p :: Emit.toNumberPieces Session.stubThunk .toNumber d b.base) ?_
    rw [hst.instruction, Emit.instruction, hop]
    dsimp only
    rw [if_pos hkeeps, Emit.stepKeeping, if_pos hsame]
    intro r e' hrun
    obtain ⟨p, d, hp, hrest⟩ := Emit.ensures_toNumber (ins.reg 0) (ins.reg 1) .toNumber r e' hrun
    exact ⟨p, d, hst.cached ▸ hp, hrest⟩
  obtain ⟨p, d, hp, hd, hbody⟩ := hcode
  have hknown : ∀ p ∈ b.body, p.known = true := by
    rw [hbody]
    exact List.forall_mem_cons.2 ⟨hp.known rfl, Emit.known_toNumberPieces _ _ _ _⟩
  refine hst.obtains h.running hknown hrip hd hdst ?_
  rw [hbody]
  exact Piece.answers_toNumber hp ha h.running.mask .toNumber b.base

/-- A step that keeps the number of a register in another. -/
theorem keeping {step : Step} (hkeeps : step.keepsOld = true) (hop : ins.opcode = .step step)
    (hne : ins.reg 0 ≠ ins.reg 1) (ha : m.cpu.Operand span.event.cached (ins.reg 1) (.int32 u))
    (hdst : m.HasRegister (m.cpu.reg frameReg) (ins.reg 0))
    (hsrc : m.HasRegister (m.cpu.reg frameReg) (ins.reg 1)) :
    m.Comes fun m' => m'.Reaches s image c ins.next.toUInt32 ∧ m'.Holds (ins.reg 0) (Value.int32 u).word ∧
      m'.Holds (ins.reg 1) ((Emit.stepStub step).onInteger u).word := by
  obtain ⟨jumps, b, front, back, hst, hrip⟩ := h.stands ht
  have hcode : ∃ p o d, Piece.Fetches span.event.cached .rax (ins.reg 1) p ∧
      Frame.registerOffset? (ins.reg 1) = some o ∧ Frame.registerOffset? (ins.reg 0) = some d ∧
      b.body = p :: Emit.keepingPieces Session.stubThunk step o d b.base := by
    refine hst.emitted.body (Q := fun body => ∃ p o d, Piece.Fetches span.event.cached .rax (ins.reg 1) p ∧
      Frame.registerOffset? (ins.reg 1) = some o ∧ Frame.registerOffset? (ins.reg 0) = some d ∧
      body = p :: Emit.keepingPieces Session.stubThunk step o d b.base) ?_
    rw [hst.instruction, Emit.instruction, hop]
    dsimp only
    rw [if_pos hkeeps]
    intro r e' hrun
    obtain ⟨p, o, d, hp, hrest⟩ := Emit.ensures_stepKeeping (ins.reg 0) (ins.reg 1) step hne r e' hrun
    exact ⟨p, o, d, hst.cached ▸ hp, hrest⟩
  obtain ⟨p, o, d, hp, ho, hd, hbody⟩ := hcode
  have hknown : ∀ p ∈ b.body, p.known = true := by
    rw [hbody]
    exact List.forall_mem_cons.2 ⟨hp.known rfl, Emit.known_keepingPieces _ _ _ _ _⟩
  obtain ⟨x, y, hx, hold, hy, hnew, hfollow⟩ : ∃ x y, m.cpu.Computes x ∧ _ ∧ _ ∧ _ ∧
      Piece.follow (s.word image) none (p :: Emit.keepingPieces Session.stubThunk step o d b.base) m.cpu = _ :=
    Piece.follow_keepingPieces hp ha h.running.mask step o d b.base
  have hframe : x.reg frameReg = m.cpu.reg frameReg := hx.kept frameReg (by decide)
  have hframe' : y.reg frameReg = m.cpu.reg frameReg := (hy.kept frameReg (by decide)).trans hframe
  rw [hframe, hold] at hy
  rw [hframe', hnew, ← hbody] at hfollow
  have hfirst := Works.of_write hx (hdst.slot d hd) (Value.int32 u).word
  have hslot : (m.withCpu (x.write (m.cpu.reg frameReg + X86.displacementWord d) (Value.int32 u).word)).OnRegisterStack
      (m.cpu.reg frameReg + X86.displacementWord o) := hsrc.slot o ho
  obtain ⟨a, hgoes, hreaches⟩ := hst.falls h.running [] (List.nil_append _).symm hknown
    (by rw [List.append_nil]; exact hrip) hfollow (hfirst.trans (.of_write hy hslot _))
  have hread (a' : UInt64) : (m.withCpu ((y.write (m.cpu.reg frameReg + X86.displacementWord o)
      ((Emit.stepStub step).onInteger u).word).jump a)).readWord a' =
        if m.cpu.reg frameReg + X86.displacementWord o = a' then ((Emit.stepStub step).onInteger u).word
        else if m.cpu.reg frameReg + X86.displacementWord d = a' then (Value.int32 u).word else x.read a' := by
    rw [readWord, withCpu_cpu, X86.Cpu.read_jump, X86.Cpu.read_write, hy.read, X86.Cpu.read_write]
  refine ⟨_, hgoes.goes, hreaches, ⟨d, hd, ?_⟩, o, ho, ?_⟩
  · refine (congrArg (readWord _) (congrArg (· + _) hframe')).trans ((hread _).trans ?_)
    rw [if_neg (hdst.slot_ne hsrc hne hd ho).symm, if_pos rfl]
  · refine (congrArg (readWord _) (congrArg (· + _) hframe')).trans ((hread _).trans ?_)
    rw [if_pos rfl]

end Machine.Reaches

/-! ## Runs -/

namespace Run

variable (ev : Evaluator) {p : Machine.PendingStub} {u v : UInt32} {value : Value}

theorem serves_binary {op : BinaryOp} (h : ∀ w, binary ev op (.int32 u) (.int32 v) w = .ok value w)
    (hp : p.words.take (Stub.binary op).arity = [Value.int32 u, Value.int32 v].map Value.word) (w : World) :
    serves ev (.binary op) p w = .ok (value.word, 0) w := by
  obtain ⟨ha, hrest⟩ := List.cons.inj hp
  obtain ⟨hb, -⟩ := List.cons.inj hrest
  change EStateM.bind (binary ev op ⟨p.a⟩ ⟨p.b⟩) _ w = _
  rw [ha, hb, EStateM.bind, h]
  rfl

theorem serves_unary {s : Stub} (hs : s.inline = true) (h : ∀ w, unaryStub ev s (.int32 u) w = .ok value w)
    (hp : p.words.take s.arity = [Value.int32 u].map Value.word) (w : World) :
    serves ev s p w = .ok (value.word, 0) w := by
  have hserves : serves ev s p = do return ((← unaryStub ev s ⟨p.a⟩).word, 0) := by
    cases s <;> first | rfl | cases hs
  have harity : s.arity = 1 := by cases s <;> first | rfl | cases hs
  rw [harity] at hp
  obtain ⟨ha, -⟩ := List.cons.inj hp
  rw [hserves]
  change EStateM.bind (unaryStub ev s ⟨p.a⟩) _ w = _
  rw [ha, EStateM.bind, h]
  rfl

end Run

namespace World

/-- A run asks for stubs, leaves results in registers of the frame, and comes to the next instruction. -/
def Performs (w : World) (s : Session) (image : Image) (c : CompiledUnit) (ins : Instruction)
    (calls : List (Stub × List UInt64)) (results : List (Register × Value)) : Prop :=
  ∃ w', Runs Run.onMachine w calls w' ∧ w'.machine.Reaches s image c ins.next.toUInt32 ∧
    ∀ p ∈ results, w'.machine.Holds p.1 p.2.word

variable {w : World} {s : Session} {image : Image} {c : CompiledUnit} {ins : Instruction}

/-- A run obtains a result. -/
theorem performs {a : Answer} {frame : UInt64} {r : Register} {x : Value} (hr : w.machine.HasRegister frame r)
    (h : w.machine.Obtains a fun v m => m.Reaches s image c ins.next.toUInt32 ∧ ∀ cached, m.cpu.Operand cached r v)
    (hinline : ∀ v, a = .inline v → v = x)
    (hasked : ∀ stub args, a = .asked stub args → ∀ (p : Machine.PendingStub) (w' : World),
      p.words.take stub.arity = args.map Value.word →
        Run.serves Run.onMachine stub p w' = .ok (x.word, 0) w') :
    w.Performs s image c ins a.calls [(r, x)] := by
  obtain ⟨o, ho⟩ := hr.exists_offset
  have hholds {m : Machine} (hm : ∀ cached, m.cpu.Operand cached r x) : ∀ p ∈ [(r, x)], m.Holds p.1 p.2.word :=
    List.forall_mem_singleton.2 ⟨o, ho, (hm r).slot o ho⟩
  cases a with
  | inline v =>
    obtain rfl := hinline v rfl
    obtain ⟨w', hruns, -, hreaches, hoperand⟩ := Runs.of_comes Run.onMachine (Machine.obtains_inline.1 h)
    exact ⟨w', hruns, hreaches, hholds hoperand⟩
  | asked stub args =>
    obtain ⟨w', hruns, -, hasks, hresumes⟩ := Runs.of_comes Run.onMachine (Machine.obtains_asked.1 h)
    have hserves := hasked stub args rfl w'.machine.pendingStub (w'.counts stub) hasks.args
    obtain ⟨w₂, hruns₂, -, hreaches, hoperand⟩ := Runs.of_comes Run.onMachine
      (w := (w'.counts stub).withMachine (w'.machine.resume x.word 0)) (hresumes w'.machine x 0 (.refl _))
    exact ⟨w₂, hruns.trans (.stub hasks hserves hruns₂), hreaches, hholds hoperand⟩

/-- A run at a binary operator on integers. -/
theorem performs_binary {op : BinaryOp} {u v : UInt32} {frame : UInt64} {r : Register} {value : Value}
    (hr : w.machine.HasRegister frame r) (h : w.machine.Obtains (op.answer u v) fun v m =>
      m.Reaches s image c ins.next.toUInt32 ∧ ∀ cached, m.cpu.Operand cached r v)
    (hvalue : ∀ w, Run.binary Run.onMachine op (.int32 u) (.int32 v) w = .ok value w)
    (hinline : op.leaves (signed32 u) (signed32 v) = false → value = op.onIntegers u v) :
    w.Performs s image c ins (if op.leaves (signed32 u) (signed32 v) then
      [(.binary op, [(Value.int32 u).word, (Value.int32 v).word])] else []) [(r, value)] := by
  have hperforms := performs (x := value) hr h
  unfold BinaryOp.answer at hperforms
  cases hleaves : op.leaves (signed32 u) (signed32 v) with
  | true =>
    rw [hleaves] at hperforms
    refine hperforms nofun fun stub args heq p w' hp => ?_
    cases heq
    exact Run.serves_binary _ hvalue hp w'
  | false =>
    rw [hleaves] at hperforms
    refine hperforms (fun v heq => ?_) nofun
    cases heq
    exact (hinline hleaves).symm

/-- A run at a unary operator on an integer. -/
theorem performs_unary {stub : Stub} {u : UInt32} {frame : UInt64} {r : Register} {value : Value}
    (hr : w.machine.HasRegister frame r) (h : w.machine.Obtains (stub.answer u) fun v m =>
      m.Reaches s image c ins.next.toUInt32 ∧ ∀ cached, m.cpu.Operand cached r v)
    (hstub : stub.inline = true ∨ stub = .toNumber)
    (hvalue : ∀ ev w, Run.unaryStub ev stub (.int32 u) w = .ok value w)
    (hinline : stub.leaves (signed32 u) = false → value = stub.onInteger u) :
    w.Performs s image c ins (if stub.leaves (signed32 u) then [(stub, [(Value.int32 u).word])] else [])
      [(r, value)] := by
  have hperforms := performs (x := value) hr h
  unfold Stub.answer at hperforms
  cases hleaves : stub.leaves (signed32 u) with
  | true =>
    rw [hleaves] at hperforms
    refine hperforms nofun fun stub' args heq p w' hp => ?_
    cases heq
    have hs : stub.inline = true := hstub.resolve_right fun h => by
      rw [h] at hleaves
      cases hleaves
    exact Run.serves_unary _ hs (hvalue _) hp w'
  | false =>
    rw [hleaves] at hperforms
    refine hperforms (fun v heq => ?_) nofun
    cases heq
    exact (hinline hleaves).symm

end World

/-- Operators on integers. Compiled code leaves in the destination of an operator on two integers or one what the
stub of the operator computes for them, and comes to the next instruction. It asks the stub exactly for a zero
product with a negative factor, for a division that has no quotient among the integers or may have a negative zero
as one, for a remainder of a negative number or by one that is not positive, and for the negation of zero and of the
least integer. A step that keeps the number of a register leaves that in one register and the next number in the
other, or only the number if both are the same. -/
theorem shortcuts_agree (s : Session) (image : Image) (c : CompiledUnit) (w : World) (ins : Instruction) (span : Span)
    (u v : UInt32) (hreaches : w.machine.Reaches s image c ins.offset.toUInt32) (ht : s.Translates c ins span) :
    (∀ op : BinaryOp, op.inline = true → ins.opcode = .binary op →
      w.machine.cpu.Operand span.event.cached (ins.reg 1) (.int32 u) →
      w.machine.cpu.Operand span.event.cached (ins.reg 2) (.int32 v) →
      w.machine.HasRegister (w.machine.cpu.reg frameReg) (ins.reg 0) →
        ∃ value, Run.binary Run.onMachine op (.int32 u) (.int32 v) w = .ok value w ∧
          w.Performs s image c ins (if op.leaves (signed32 u) (signed32 v) then
            [(.binary op, [(Value.int32 u).word, (Value.int32 v).word])] else []) [(ins.reg 0, value)]) ∧
    (∀ stub : Stub, (ins.opcode = .unaryNegative ∧ stub = .unaryNegative ∨
        ins.opcode = .unaryBitNot ∧ stub = .unaryBitNot) →
      w.machine.cpu.Operand span.event.cached (ins.reg 1) (.int32 u) →
      w.machine.HasRegister (w.machine.cpu.reg frameReg) (ins.reg 0) →
        ∃ value, Run.unaryStub Run.onMachine stub (.int32 u) w = .ok value w ∧
          w.Performs s image c ins (if stub.leaves (signed32 u) then [(stub, [(Value.int32 u).word])] else [])
            [(ins.reg 0, value)]) ∧
    (∀ step : Step, ins.opcode = .step step → step.keepsOld = false →
      w.machine.cpu.Operand span.event.cached (ins.reg 0) (.int32 u) →
      w.machine.HasRegister (w.machine.cpu.reg frameReg) (ins.reg 0) →
        ∃ value, Run.unaryStub Run.onMachine (Emit.stepStub step) (.int32 u) w = .ok value w ∧
          w.Performs s image c ins [] [(ins.reg 0, value)]) ∧
    ∀ step : Step, ins.opcode = .step step → step.keepsOld = true →
      w.machine.cpu.Operand span.event.cached (ins.reg 1) (.int32 u) →
      w.machine.HasRegister (w.machine.cpu.reg frameReg) (ins.reg 0) →
      w.machine.HasRegister (w.machine.cpu.reg frameReg) (ins.reg 1) →
        ∃ old new, Run.unaryStub Run.onMachine .toNumber (.int32 u) w = .ok old w ∧
          Run.unaryStub Run.onMachine (Emit.stepStub step) (.int32 u) w = .ok new w ∧
          w.Performs s image c ins [] (if ins.reg 0 = ins.reg 1 then [(ins.reg 0, old)]
            else [(ins.reg 0, old), (ins.reg 1, new)]) := by
  refine ⟨fun op hinline hop ha hb hdst => ?_, fun stub hstub ha hdst => ?_, fun step hop hkeeps ha hdst => ?_,
    fun step hop hkeeps ha hdst hsrc => ?_⟩
  · obtain ⟨value, hvalue, hshort⟩ := Run.binary_integers u v hinline
    exact ⟨value, hvalue w, World.performs_binary hdst (hreaches.binary ht hinline hop ha hb hdst) hvalue hshort⟩
  · have hinline : stub.inline = true := by rcases hstub with ⟨-, rfl⟩ | ⟨-, rfl⟩ <;> rfl
    obtain ⟨value, hvalue, hshort⟩ := Run.unary_integer u (.inl hinline)
    refine ⟨value, hvalue _ w, World.performs_unary hdst ?_ (.inl hinline) hvalue hshort⟩
    rcases hstub with ⟨hop, rfl⟩ | ⟨hop, rfl⟩
    · exact hreaches.unary ht rfl (by rw [Emit.instruction, hop]) (fun _ _ => Emit.ensures_negate _ _) ha hdst
    · exact hreaches.unary ht rfl (by rw [Emit.instruction, hop]) (fun _ _ => Emit.ensures_bitNot _ _) ha hdst
  · obtain ⟨hinline, hleaves⟩ := Emit.stepStub_inline step u
    obtain ⟨value, hvalue, hshort⟩ := Run.unary_integer u (.inl hinline)
    have hins : Emit.instruction ins = Emit.stepInPlace step (ins.reg 0) := by
      rw [Emit.instruction, hop]
      exact if_neg (by rw [hkeeps]; exact Bool.false_ne_true)
    have hperforms := World.performs_unary hdst
      (hreaches.unary ht hinline hins (fun _ _ => Emit.ensures_stepInPlace _ _) ha hdst) (.inl hinline) hvalue hshort
    rw [hleaves] at hperforms
    exact ⟨value, hvalue _ w, hperforms⟩
  · obtain ⟨hinline, hleaves⟩ := Emit.stepStub_inline step u
    obtain ⟨old, hold, hshort⟩ := Run.unary_integer u (.inr rfl)
    obtain ⟨new, hnew, hshort'⟩ := Run.unary_integer u (.inl hinline)
    refine ⟨old, new, hold _ w, hnew _ w, ?_⟩
    by_cases hsame : ins.reg 0 = ins.reg 1
    · rw [if_pos hsame]
      exact World.performs_unary hdst (hreaches.keeping_same ht hkeeps hop hsame ha hdst) (.inr rfl) hold hshort
    · obtain rfl : old = .int32 u := hshort rfl
      obtain rfl := hshort' hleaves
      rw [if_neg hsame]
      obtain ⟨w', hruns, -, hnext, hdst', hsrc'⟩ := World.Runs.of_comes Run.onMachine
        (hreaches.keeping ht hkeeps hop hsame ha hdst hsrc)
      exact ⟨w', hruns, hnext, List.forall_mem_cons.2 ⟨hdst', List.forall_mem_singleton.2 hsrc'⟩⟩

/-- A machine that has come to the code for an offset with one value in the registers of its frame and in the
accumulator. -/
theorem Machine.exists_operands {img : LoadedImage} {s : Session} {image : Image} {c : CompiledUnit}
    {offset : UInt32} {place : Nat} (h : Loaded #[img] s image) (hstarts : s.Starts c offset place) (v : Value) :
    ∃ m : Machine, m.Reaches s image c offset ∧ ∀ r, r = .ofNat 0 ∨ r = .ofNat 1 →
      m.HasRegister (m.cpu.reg frameReg) r ∧ ∀ cached, m.cpu.Operand cached r v := by
  have hrunning := poised_running img (image.address place) h
  have hregister (r : Register) (hr : r = .ofNat 0 ∨ r = .ofNat 1) :=
    poised_hasRegister img (image.address place) hr
  have hrip : (poised img (image.address place)).cpu.rip = image.address place := rfl
  obtain ⟨-, -, -, hframe, -⟩ := poised_regs img (image.address place)
  rw [hframe] at hregister
  generalize poised img (image.address place) = m at *
  have hd := X86.Cpu.computes_setReg m.cpu (r := .rax) (by decide) v.word
  have hworks := Works.of_write_write hd ((hregister _ (.inl rfl)).slot 72 rfl)
    ((hregister _ (.inr rfl)).slot 80 rfl) v.word v.word
  refine ⟨_, ⟨hrunning.works hworks, place, hstarts, hrip⟩, fun r hr => ?_⟩
  have hframe' := (hworks.kept frameReg (by decide)).trans hframe
  obtain ⟨hlow, hhigh, hslot⟩ := hregister r hr
  rw [hframe']
  refine ⟨⟨hlow, hhigh, hslot⟩, fun cached => ⟨fun d hd => ?_, fun _ => X86.Cpu.reg_setReg_self ..⟩⟩
  rw [hframe', withCpu_cpu, X86.Cpu.read_write, X86.Cpu.read_write]
  rcases hr with rfl | rfl
  · obtain rfl : 72 = d := Option.some.inj hd
    rw [if_pos rfl, ite_self]
  · obtain rfl : 80 = d := Option.some.inj hd
    rw [if_pos rfl]

/-- A unit whose code divides, negates and steps its registers. -/
def dividingUnit : CodeUnit :=
  let r := Word.ofRegister
  ⟨0, 0, { Code.ofName [] with
    registerCount := 2
    data := #[Word.ofOpcode (.binary .divide), r (.ofNat 1), r (.ofNat 0), r (.ofNat 1),
      Word.ofOpcode .unaryNegative, r (.ofNat 1), r (.ofNat 0), Word.ofOpcode (.step ⟨false, false⟩), r (.ofNat 0),
      Word.ofOpcode (.step ⟨true, true⟩), r (.ofNat 1), r (.ofNat 0), Word.ofOpcode .return, r (.ofNat 0)] }, #[]⟩

/-- Whether instructions are a division, a negation and two steps of its registers. -/
def dividesAndSteps : List Instruction → Bool
  | [divide, negate, step, keep, _] =>
    decide ((divide.opcode = .binary .divide ∧ divide.reg 0 = .ofNat 1 ∧ divide.reg 1 = .ofNat 0 ∧
      divide.reg 2 = .ofNat 1) ∧
    (negate.opcode = .unaryNegative ∧ negate.reg 0 = .ofNat 1 ∧ negate.reg 1 = .ofNat 0) ∧
    (step.opcode = .step ⟨false, false⟩ ∧ step.reg 0 = .ofNat 0) ∧
    keep.opcode = .step ⟨true, true⟩ ∧ keep.reg 0 = .ofNat 1 ∧ keep.reg 1 = .ofNat 0)
  | _ => false

-- One evaluation of the compiled unit serves all facts.
theorem dividingUnit_facts : dividingUnit.linksAlone = true ∧ ∃ divide negate step keep last : Instruction,
    Stream.instructions dividingUnit.code.data = [divide, negate, step, keep, last] ∧
      (divide.opcode = .binary .divide ∧ divide.reg 0 = .ofNat 1 ∧ divide.reg 1 = .ofNat 0 ∧
        divide.reg 2 = .ofNat 1) ∧
      (negate.opcode = .unaryNegative ∧ negate.reg 0 = .ofNat 1 ∧ negate.reg 1 = .ofNat 0) ∧
      (step.opcode = .step ⟨false, false⟩ ∧ step.reg 0 = .ofNat 0) ∧
      keep.opcode = .step ⟨true, true⟩ ∧ keep.reg 0 = .ofNat 1 ∧ keep.reg 1 = .ofNat 0 := by
  have hrun : (dividingUnit.piecesLinkAlone &&
      dividesAndSteps (Stream.instructions dividingUnit.code.data)) = true := by decide +kernel
  rw [Bool.and_eq_true, dividesAndSteps.eq_def] at hrun
  obtain ⟨hlinks, hrun⟩ := hrun
  refine ⟨CodeUnit.linksAlone_of_pieces hlinks, ?_⟩
  split at hrun
  · rename_i divide negate step keep last hlist
    exact ⟨divide, negate, step, keep, last, hlist, of_decide_eq_true hrun⟩
  · cases hrun

theorem shortcuts_agree_dividing :
    ∃ (s : Session) (image : Image) (c : CompiledUnit) (divide negate step keep : Instruction) (w w' w'' w₃ : World)
      (quotient negative next old new : Value),
      c.unit = dividingUnit ∧
      (Run.binary Run.onMachine .divide (.int32 0xffffffff) (.int32 0xffffffff) w = .ok quotient w ∧
        w.Performs s image c divide [(.binary .divide, [(Value.int32 0xffffffff).word, (Value.int32 0xffffffff).word])]
          [(.ofNat 1, quotient)]) ∧
      (Run.unaryStub Run.onMachine .unaryNegative (.int32 0xffffffff) w' = .ok negative w' ∧
        w'.Performs s image c negate [] [(.ofNat 1, negative)]) ∧
      (Run.unaryStub Run.onMachine .increment (.int32 0xffffffff) w'' = .ok next w'' ∧
        w''.Performs s image c step [] [(.ofNat 0, next)]) ∧
      Run.unaryStub Run.onMachine .toNumber (.int32 0xffffffff) w₃ = .ok old w₃ ∧
        Run.unaryStub Run.onMachine .decrement (.int32 0xffffffff) w₃ = .ok new w₃ ∧
        w₃.Performs s image c keep [] [(.ofNat 1, old), (.ofNat 0, new)] := by
  obtain ⟨hlinks, divide, negate, step, keep, last, hlist, ⟨hdivide, hdst, hleft, hright⟩,
    ⟨hnegate, hdst', hsrc'⟩, ⟨hstep, hdst''⟩, hkeep, hdst₃, hsrc₃⟩ := dividingUnit_facts
  obtain ⟨s, image, c, hplaced, hloaded, -, hc, hunit⟩ := CodeUnit.exists_image hlinks
  obtain ⟨parts, hparts⟩ := hplaced.placed
  have hworld (ins : Instruction) (h : ins ∈ [divide, negate, step, keep, last]) :
      ∃ (w : World) (span : Span), w.machine.Reaches s image c ins.offset.toUInt32 ∧ s.Translates c ins span ∧
        ∀ r, r = .ofNat 0 ∨ r = .ofNat 1 → w.machine.HasRegister (w.machine.cpu.reg frameReg) r ∧
          ∀ cached, w.machine.cpu.Operand cached r (.int32 0xffffffff) := by
    obtain ⟨span, ht⟩ := hparts.translates hc (by rw [hunit, hlist]; exact h)
    obtain ⟨jumps, b, front, back, hst⟩ := hparts.stands ht
    obtain ⟨m, hreaches, hoperands⟩ := Machine.exists_operands hloaded hst.here (.int32 0xffffffff)
    exact ⟨⟨Realm.bare, m, #[], #[]⟩, span, hreaches, ht, hoperands⟩
  obtain ⟨w, span, hreaches, ht, hoperands⟩ := hworld divide (by simp)
  obtain ⟨w', span', hreaches', ht', hoperands'⟩ := hworld negate (by simp)
  obtain ⟨w'', span'', hreaches'', ht'', hoperands''⟩ := hworld step (by simp)
  obtain ⟨w₃, span₃, hreaches₃, ht₃, hoperands₃⟩ := hworld keep (by simp)
  obtain ⟨hbinary, -⟩ := shortcuts_agree s image c w divide span 0xffffffff 0xffffffff hreaches ht
  obtain ⟨-, hunary, -⟩ := shortcuts_agree s image c w' negate span' 0xffffffff 0 hreaches' ht'
  obtain ⟨-, -, hplain, -⟩ := shortcuts_agree s image c w'' step span'' 0xffffffff 0 hreaches'' ht''
  obtain ⟨-, -, -, hkeeping⟩ := shortcuts_agree s image c w₃ keep span₃ 0xffffffff 0 hreaches₃ ht₃
  obtain ⟨quotient, hquotient⟩ := hbinary .divide rfl hdivide ((hoperands _ (.inl hleft)).2 _)
    ((hoperands _ (.inr hright)).2 _) (hoperands _ (.inr hdst)).1
  obtain ⟨negative, hnegative⟩ := hunary .unaryNegative (.inl ⟨hnegate, rfl⟩) ((hoperands' _ (.inl hsrc')).2 _)
    (hoperands' _ (.inr hdst')).1
  obtain ⟨next, hnext⟩ := hplain _ hstep rfl ((hoperands'' _ (.inl hdst'')).2 _) (hoperands'' _ (.inl hdst'')).1
  obtain ⟨old, new, hkept⟩ := hkeeping _ hkeep rfl ((hoperands₃ _ (.inl hsrc₃)).2 _) (hoperands₃ _ (.inr hdst₃)).1
    (hoperands₃ _ (.inl hsrc₃)).1
  have hleaves : BinaryOp.divide.leaves (signed32 0xffffffff) (signed32 0xffffffff) = true ∧
      Stub.unaryNegative.leaves (signed32 0xffffffff) = false := by decide
  rw [hleaves.1, if_pos rfl, hdst] at hquotient
  rw [hleaves.2, if_neg Bool.false_ne_true, hdst'] at hnegative
  rw [hdst''] at hnext
  rw [if_neg (by rw [hdst₃, hsrc₃]; decide), hdst₃, hsrc₃] at hkept
  exact ⟨s, image, c, divide, negate, step, keep, w, w', w'', w₃, quotient, negative, next, old, new, hunit,
    hquotient, hnegative, hnext, hkept⟩

end RegisterJit
