import RegisterJit.Proofs.Forks

/-!
# Decisions

Where compiled code goes that decides on a condition: to the target of a jump or to what follows it, after it
has found a truth out inline or has asked a stub for it.

`Machine.Reaches` says that control is at the code for an offset, `Machine.Comes` that code runs on until
something holds. `Decides` is the shape of a branch: the truth is known, or it is asked for by a stub call with
certain arguments and then known, whatever else the host did, as long as it left alone what suspended code
relies on. `Reaches.condition`, `Reaches.branch` and `Reaches.compare_condition` are the three ways to write a
condition. They follow from `Forks` by running the pieces on the processor, with `falls` for the end of an
instruction and the jump table for its target. `Branching` reads them in a world.
-/

namespace RegisterJit

open X86 (Reg Cond Instr Label Cpu)

/-! ## What is written for an instruction -/

theorem Block.Emitted.body {u : CodeUnit} {jumps : JumpTable} {b : Block} (hb : b.Emitted u jumps)
    {Q : List Piece → Prop} (h : (Emit.instruction b.ins).Ensures (Block.site u jumps b.ins)
      ⟨#[], b.base, b.cached, Register.invalid⟩ fun _ e => Q e.pieces.toList) : Q b.body := by
  obtain ⟨r, hr⟩ := hb
  exact h _ _ hr

/-! ## Decisions -/

/-- How a truth is found out: inline, or by asking a stub with these arguments. -/
inductive Decision
  | known (truth : Bool)
  | asked (s : Stub) (args : List Value)

namespace Value

/-- How a conditional jump finds the truth of a value out. -/
def decision (v : Value) : Decision :=
  match v.shownTruth? with
  | some t => .known t
  | none => .asked .toBoolean [v]

end Value

/-- How a comparison of two values is found out. -/
def Comparison.decision (k : Comparison) (a b : Value) : Decision :=
  if a.isInt32 && b.isInt32 then .known (k.holds a.toInt32 b.toInt32)
  else .asked (.binary (.compare k)) [a, b]

namespace Machine

/-- Compiled code comes to a state. -/
def Comes (m : Machine) (Q : Machine → Prop) : Prop :=
  ∃ x, Cpu.Goes m.images m.cpu x ∧ Q (m.withCpu x)

/-- Compiled code comes to a state without a jump to an address in a register. -/
def Arrives (m : Machine) (Q : Machine → Prop) : Prop :=
  ∃ x, m.cpu.Passes m.images Cpu.Direct x ∧ Q (m.withCpu x)

theorem Arrives.comes {m : Machine} {Q : Machine → Prop} (h : m.Arrives Q) : m.Comes Q :=
  h.imp fun _ hx => ⟨hx.1.goes, hx.2⟩

/-- Compiled code comes to a state that depends on a truth, which it finds out as told. When it asks a stub,
it comes there after every answer of a host that has left alone what suspended code relies on. -/
def Decides (m : Machine) (d : Decision) (Q : Bool → Machine → Prop) : Prop :=
  match d with
  | .known t => m.Comes (Q t)
  | .asked stub args => m.Comes fun m' => m'.Asks stub (args.map Value.word) ∧
      ∀ m'' t r1, m'.Preserves m'' → (m''.resume (Value.ofBool t).word r1).Comes (Q t)

@[simp] theorem decides_known {m : Machine} {t : Bool} {Q : Bool → Machine → Prop} :
    m.Decides (.known t) Q ↔ m.Comes (Q t) := Iff.rfl

@[simp] theorem decides_asked {m : Machine} {stub : Stub} {args : List Value}
    {Q : Bool → Machine → Prop} : m.Decides (.asked stub args) Q ↔
      m.Comes fun m' => m'.Asks stub (args.map Value.word) ∧
        ∀ m'' t r1, m'.Preserves m'' → (m''.resume (Value.ofBool t).word r1).Comes (Q t) := Iff.rfl

theorem Comes.trans {m : Machine} {Q Q' : Machine → Prop} (h : m.Comes Q)
    (h' : ∀ m', Q m' → m'.Comes Q') : m.Comes Q' := by
  obtain ⟨x, hgoes, hq⟩ := h
  obtain ⟨y, hgoes', hq'⟩ := h' _ hq
  exact ⟨y, hgoes.trans hgoes', hq'⟩

theorem Decides.next {m : Machine} {d : Decision} {Q Q' : Bool → Machine → Prop} (h : m.Decides d Q)
    (h' : ∀ t m', Q t m' → m'.Comes (Q' t)) : m.Decides d Q' := by
  cases d with
  | known t => exact Comes.trans h (h' t)
  | asked stub args =>
    obtain ⟨x, hgoes, hasks, hq⟩ := h
    exact ⟨x, hgoes, hasks, fun m'' t r1 hkeeps => (hq m'' t r1 hkeeps).trans (h' t)⟩

end Machine

namespace Machine

variable {m : Machine} {s : Session} {image : Image} {c : CompiledUnit}

/-- Control is at the start of the code for an offset of a unit. -/
structure Reaches (m : Machine) (s : Session) (image : Image) (c : CompiledUnit) (offset : UInt32) :
    Prop where
  running : m.Running s image
  starts : ∃ place, s.Starts c offset place ∧ m.cpu.rip = image.address place

theorem Works.of_write {d : Cpu} (h : m.cpu.Computes d) {a : UInt64} (ha : m.OnRegisterStack a)
    (w : UInt64) : m.Works (m.withCpu (d.write a w)) := by
  refine ⟨rfl, h.kept, fun a' ha' => ?_⟩
  have hne : a ≠ a' := fun heq => ha' (heq ▸ ha)
  exact ((X86.Cpu.read_write ..).trans (if_neg hne)).trans (h.read a')

theorem Works.of_computes {d : Cpu} (h : m.cpu.Computes d) : m.Works (m.withCpu d) :=
  ⟨rfl, h.kept, fun a _ => h.read a⟩

theorem Reaches.stands {ins : Instruction} {span : Span} (h : m.Reaches s image c ins.offset.toUInt32)
    (ht : s.Translates c ins span) : ∃ jumps b front back,
      s.Stands c ins span jumps b front back ∧ m.cpu.rip = image.address (Piece.endFrom 0 front) := by
  obtain ⟨parts, hplaced⟩ := h.running.loaded.placed
  obtain ⟨jumps, b, front, back, hst⟩ := hplaced.stands ht
  obtain ⟨place, hstarts, hrip⟩ := h.starts
  refine ⟨jumps, b, front, back, hst, ?_⟩
  rw [hrip, ← hstarts.instruction span ht.recorded ht.key ht.offset, hst.start]

end Machine

namespace Session.Stands

variable {m : Machine} {s : Session} {image : Image} {c : CompiledUnit} {ins : Instruction}
  {span : Span} {jumps : JumpTable} {b : Block} {front back : List Piece}
  (hst : s.Stands c ins span jumps b front back) (h : m.Running s image)

include hst h

theorem falls (pre : List Piece) {ps : List Piece} (hbody : b.body = pre ++ ps) (hknown : ∀ p ∈ ps, p.known = true)
    (hrip : m.cpu.rip = image.address (Piece.endFrom 0 (front ++ pre))) {d : Cpu}
    (hfollow : Piece.follow (s.word image) none ps m.cpu = .falls d) (hworks : m.Works (m.withCpu d)) :
    ∃ a, m.cpu.Passes m.images Cpu.Direct (d.jump a) ∧
      (m.withCpu (d.jump a)).Reaches s image c ins.next.toUInt32 := by
  have hpieces : s.pieces.toList = (front ++ pre) ++ (ps ++ back) := by rw [hst.pieces, hbody]; simp
  obtain ⟨a, ha, hgoes, hrunning⟩ := h.falls hpieces hknown hrip hfollow hworks
  refine ⟨a, hgoes, hrunning, _, hst.next, ?_⟩
  rw [hst.stop, hbody, ← List.append_assoc]
  exact ha

/-- Code goes one of two ways at the end of an instruction. -/
theorem forks (pre : List Piece) {ps : List Piece} (hbody : b.body = pre ++ ps) (hknown : ∀ p ∈ ps, p.known = true)
    (hrip : m.cpu.rip = image.address (Piece.endFrom 0 (front ++ pre))) {d : Cpu} {taken : Bool}
    {target : UInt32} {t : JumpTarget} (ht : jumps.find? target = some t)
    (hjump : ∃ cond, .jcc cond t.label ∈ b.body)
    (hfollow : Piece.follow (s.word image) none ps m.cpu = .fork taken t.label d)
    (hworks : m.Works (m.withCpu d)) :
    ∃ a, Cpu.Goes m.images m.cpu (d.jump a) ∧
      (m.withCpu (d.jump a)).Reaches s image c (if taken then target else ins.next.toUInt32) := by
  cases taken with
  | false =>
    obtain ⟨a, hgoes, hreaches⟩ := hst.falls h pre hbody hknown hrip hfollow hworks
    exact ⟨a, hgoes.goes, hreaches⟩
  | true =>
    have hpieces : s.pieces.toList = (front ++ pre) ++ (ps ++ back) := by
      rw [hst.pieces, hbody]
      simp
    obtain ⟨cond, hcond⟩ := hjump
    obtain ⟨before, after, hsplit⟩ := List.append_of_mem hcond
    have hpieces' : s.pieces.toList = (front ++ before) ++ .jcc cond t.label :: (after ++ back) := by
      rw [hst.pieces, hsplit]
      simp
    have hbound : t.label ∈ s.binds := h.loaded.label_mem_binds hpieces' (j := ⟨_, t.label⟩) rfl
    obtain ⟨a, ha, hgoes, hrunning⟩ := h.goes hpieces hknown hrip hfollow hworks
    exact ⟨a, hgoes.goes, hrunning, _, hst.label target t ht hbound, ha⟩

/-- Code asks a stub, and goes on after the call when it is answered. -/
theorem asks (hknown : ∀ p ∈ b.body, p.known = true)
    (hrip : m.cpu.rip = image.address (Piece.endFrom 0 front)) {stub : Stub} {rest : List Piece}
    {args : Cpu → Prop} (hfollow : (Piece.follow (s.word image) none b.body m.cpu).Stops
      (.call Session.stubThunk :: rest) fun d => m.cpu.Computes d ∧ d.reg .rdi = m.cpu.reg contextReg ∧
        d.reg .rax = stub.number.toUInt64 ∧ args d) :
    ∃ d x mid, args d ∧ Cpu.Goes m.images m.cpu x ∧
      (m.withCpu x).Asks stub
        ([d.reg .rsi, d.reg .rdx, d.reg .rcx, d.reg .r8, d.reg .r9].take stub.arity) ∧
      b.body = mid ++ rest ∧ ∀ m' r0 r1, (m.withCpu x).Preserves m' →
        (m'.resume r0 r1).Running s image ∧
        (m'.resume r0 r1).cpu.rip = image.address (Piece.endFrom 0 (front ++ mid)) ∧
        (m'.resume r0 r1).cpu.reg .rax = r0 ∧
        (m'.resume r0 r1).context = m.context ∧ (m'.resume r0 r1).nativeBase = m.nativeBase ∧
        ∀ r ∈ Machine.roleRegs, (m'.resume r0 r1).cpu.reg r = m.cpu.reg r := by
  obtain ⟨d, hstops, hd, hdi, hrax, hargs⟩ := hfollow
  have hdi : d.reg .rdi = m.context := hdi.trans h.context
  obtain ⟨mid, x, a, hmid, hgoes, hrunning, hleft, hasks⟩ := h.asks hst.pieces hknown hrip hstops
    (.of_computes hd) hdi hrax
  refine ⟨d, x, mid ++ [.call Session.stubThunk], hargs, hgoes, hasks, by rw [hmid]; simp, ?_⟩
  intro m' r0 r1 hkeeps
  obtain ⟨hrunning', hrip', hr0, -, hrole, -⟩ := hleft.resumes hrunning hkeeps r0 r1
  refine ⟨hrunning', ?_, hr0, ?_, ?_, fun r hr => (hrole r hr).trans (hd.kept r hr)⟩
  · rw [hrip', List.append_assoc]
  · obtain ⟨d', hd'⟩ := m'.resume_same r0 r1
    rw [hd']
    exact hkeeps.context
  · obtain ⟨d', hd'⟩ := m'.resume_same r0 r1
    rw [hd']
    exact hkeeps.nativeBase

end Session.Stands

/-! ## Conditional jumps -/

namespace Session.Stands

variable {m : Machine} {s : Session} {image : Image} {c : CompiledUnit} {ins : Instruction}
  {span : Span} {jumps : JumpTable} {b : Block} {front back : List Piece}
  (hst : s.Stands c ins span jumps b front back)

include hst

theorem condition_body {sense : Bool} {target : UInt32} (hop : ins.opcode = .jumpIf sense)
    (htarget : ins.target? = some target) :
    ∃ t p, jumps.find? target = some t ∧ Piece.Fetches span.event.cached .rax (ins.reg 0) p ∧
      t.label ≠ b.base ∧
      b.body = p :: Emit.conditionPieces Session.stubThunk sense t.label b.base := by
  refine hst.emitted.body (Q := fun body => ∃ t p, jumps.find? target = some t ∧
    Piece.Fetches span.event.cached .rax (ins.reg 0) p ∧ t.label ≠ b.base ∧
    body = p :: Emit.conditionPieces Session.stubThunk sense t.label b.base) ?_
  rw [hst.instruction, Emit.instruction, hop, Emit.jumpLabel, htarget]
  rw [Emit.ensures_bind, Option.getD_some, Emit.ensures_targetLabel]
  intro t ht
  have hfresh : t.label ≠ b.base := Nat.ne_of_lt (hst.fresh t (List.mem_of_find?_eq_some ht))
  intro r e' hrun
  obtain ⟨p, hp, hpieces⟩ := Emit.ensures_conditionalJump (ins.reg 0) sense hfresh r e' hrun
  exact ⟨t, p, ht, hst.cached ▸ hp, hfresh, hpieces⟩

end Session.Stands

namespace Machine.Reaches

variable {m : Machine} {s : Session} {image : Image} {c : CompiledUnit} {ins : Instruction}
  {span : Span} {sense : Bool} {target : UInt32} {v : Value}

theorem condition (h : m.Reaches s image c ins.offset.toUInt32) (ht : s.Translates c ins span)
    (hop : ins.opcode = .jumpIf sense) (htarget : ins.target? = some target)
    (hv : m.cpu.Operand span.event.cached (ins.reg 0) v) :
    m.Decides v.decision fun t m' =>
      m'.Reaches s image c (if t = sense then target else ins.next.toUInt32) := by
  obtain ⟨jumps, b, front, back, hst, hrip⟩ := h.stands ht
  obtain ⟨t, p, hfind, hp, hfresh, hbody⟩ := hst.condition_body hop htarget
  have hknown : ∀ q ∈ b.body, q.known = true := by
    rw [hbody]
    exact List.forall_mem_cons.2 ⟨hp.known rfl, Emit.known_conditionPieces _ _ _ _⟩
  have hjump : ∃ cond, .jcc cond t.label ∈ b.body :=
    ⟨.e, by cases sense <;> simp [hbody, Emit.conditionPieces, Emit.truthPieces]⟩
  have hmask := h.running.mask
  unfold Value.decision
  cases hshown : v.shownTruth? with
  | some truth =>
    obtain ⟨d, hd, hfollow⟩ := Piece.follow_condition_shown (s.word image) Session.stubThunk sense hp hv
      hmask hfresh hshown
    rw [← hbody] at hfollow
    obtain ⟨a, hgoes, hreaches⟩ := hst.forks h.running [] (List.nil_append _).symm hknown
      (by rw [List.append_nil]; exact hrip) hfind hjump hfollow (.of_computes hd)
    refine ⟨_, hgoes, ?_⟩
    simpa using hreaches
  | none =>
    have hstops := Piece.follow_condition_asked (s.word image) Session.stubThunk sense hp hv hmask
      t.label b.base hshown
    rw [← hbody] at hstops
    obtain ⟨d, x, mid, hsi, hgoes, hasks, hmid, hresumes⟩ := hst.asks h.running hknown hrip hstops
    refine ⟨x, hgoes, ?_, fun m' truth r1 hkeeps => ?_⟩
    · rw [hsi] at hasks
      exact hasks
    · obtain ⟨hrunning, hrip', hrax, -⟩ := hresumes m' _ r1 hkeeps
      obtain ⟨f, hfollow⟩ := Piece.follow_answerPieces (s.word image) sense hfresh hrax
      have hknown' : ∀ q ∈ Emit.answerPieces sense t.label b.base, q.known = true := fun q hq =>
        hknown q (hmid ▸ List.mem_append_right _ hq)
      obtain ⟨a, hgoes', hreaches⟩ := hst.forks hrunning mid hmid hknown' hrip' hfind hjump hfollow
        (.of_computes (X86.Cpu.computes_setFlags _ f))
      exact ⟨_, hgoes', by simpa using hreaches⟩

end Machine.Reaches

/-! ## Comparisons -/

namespace Session.Stands

variable {s : Session} {c : CompiledUnit} {ins : Instruction} {span : Span} {jumps : JumpTable}
  {b : Block} {front back : List Piece} {k : Comparison}
  (hst : s.Stands c ins span jumps b front back)

include hst

/-- The code of a comparison. -/
theorem compare_body (hop : ins.opcode = .binary (.compare k)) :
    ∃ p q left right d, Piece.FetchesPair span.event.cached (ins.reg 1) (ins.reg 2) p q ∧
      Frame.registerOffset? (ins.reg 1) = some left ∧ Frame.registerOffset? (ins.reg 2) = some right ∧
      Frame.registerOffset? (ins.reg 0) = some d ∧
      b.body = p :: q :: (Emit.comparePieces Session.stubThunk k left right b.base (b.base + 1) ++
        [.bind (b.base + 1), .instr (.store frameReg d .rax)]) := by
  refine hst.emitted.body (Q := fun body => ∃ p q left right d,
    Piece.FetchesPair span.event.cached (ins.reg 1) (ins.reg 2) p q ∧
      Frame.registerOffset? (ins.reg 1) = some left ∧ Frame.registerOffset? (ins.reg 2) = some right ∧
      Frame.registerOffset? (ins.reg 0) = some d ∧
      body = p :: q :: (Emit.comparePieces Session.stubThunk k left right b.base (b.base + 1) ++
        [.bind (b.base + 1), .instr (.store frameReg d .rax)])) ?_
  rw [hst.instruction, Emit.instruction, hop]
  intro r e' hrun
  obtain ⟨p, q, left, right, d, hpq, hrest⟩ :=
    Emit.ensures_compare k (ins.reg 0) (ins.reg 1) (ins.reg 2) r e' hrun
  exact ⟨p, q, left, right, d, hst.cached ▸ hpq, hrest⟩

/-- The code of a comparison and a jump. -/
theorem branch_body {sense : Bool} {target : UInt32} (hop : ins.opcode = .branch sense k)
    (htarget : ins.target? = some target) :
    ∃ t p q left right, jumps.find? target = some t ∧
      Piece.FetchesPair span.event.cached (ins.reg 0) (ins.reg 1) p q ∧
      Frame.registerOffset? (ins.reg 0) = some left ∧ Frame.registerOffset? (ins.reg 1) = some right ∧
      t.label < b.base ∧ b.body = p :: q :: Emit.branchPieces Session.stubThunk sense k left right
        t.label b.base (b.base + 1) := by
  refine hst.emitted.body (Q := fun body => ∃ t p q left right, jumps.find? target = some t ∧
    Piece.FetchesPair span.event.cached (ins.reg 0) (ins.reg 1) p q ∧
      Frame.registerOffset? (ins.reg 0) = some left ∧ Frame.registerOffset? (ins.reg 1) = some right ∧
      t.label < b.base ∧ body = p :: q :: Emit.branchPieces Session.stubThunk sense k left right
        t.label b.base (b.base + 1)) ?_
  rw [hst.instruction, Emit.instruction, hop, Emit.jumpLabel, htarget]
  rw [Emit.ensures_bind, Option.getD_some, Emit.ensures_targetLabel]
  intro t ht r e' hrun
  obtain ⟨p, q, left, right, hpq, hleft, hright, hpieces⟩ :=
    Emit.ensures_compareBranch sense k (ins.reg 0) (ins.reg 1) t.label r e' hrun
  exact ⟨t, p, q, left, right, ht, hst.cached ▸ hpq, hleft, hright,
    hst.fresh t (List.mem_of_find?_eq_some ht), hpieces⟩

end Session.Stands

namespace Machine.Reaches

variable {m : Machine} {s : Session} {image : Image} {c : CompiledUnit} {ins : Instruction}
  {span : Span} {k : Comparison} {a b : Value}

/-- A comparison and a jump goes where the comparison says. -/
theorem branch {sense : Bool} {target : UInt32} (h : m.Reaches s image c ins.offset.toUInt32)
    (ht : s.Translates c ins span) (hop : ins.opcode = .branch sense k)
    (htarget : ins.target? = some target) (ha : m.cpu.Operand span.event.cached (ins.reg 0) a)
    (hb : m.cpu.Operand span.event.cached (ins.reg 1) b) :
    m.Decides (k.decision a b) fun t m' =>
      m'.Reaches s image c (if t = sense then target else ins.next.toUInt32) := by
  obtain ⟨jumps, blk, front, back, hst, hrip⟩ := h.stands ht
  obtain ⟨t, p, q, left, right, hfind, hpq, hleft, hright, hfresh, hbody⟩ := hst.branch_body hop htarget
  have hslow : t.label ≠ blk.base := Nat.ne_of_lt hfresh
  have hnext : t.label ≠ blk.base + 1 := Nat.ne_of_lt (Nat.lt_succ_of_lt hfresh)
  have hne : blk.base ≠ blk.base + 1 := Nat.ne_of_lt (Nat.lt_succ_self _)
  have hknown : ∀ p ∈ blk.body, p.known = true := by
    rw [hbody]
    exact List.forall_mem_cons.2 ⟨hpq.known.1,
      List.forall_mem_cons.2 ⟨hpq.known.2, Emit.known_branchPieces _ _ _ _ _ _ _ _⟩⟩
  have hjump : ∃ cond, .jcc cond t.label ∈ blk.body :=
    ⟨Emit.branchCond sense k, by simp [hbody, Emit.branchPieces]⟩
  have hmask := h.running.mask
  unfold Comparison.decision
  by_cases hint : (a.isInt32 && b.isInt32) = true
  · rw [if_pos hint]
    obtain ⟨d, hd, hfollow⟩ := Piece.follow_branch_integers (s.word image) Session.stubThunk sense k hpq
      ha hb hmask left right hint hne hnext hslow
    rw [← hbody] at hfollow
    obtain ⟨x, hgoes, hreaches⟩ := hst.forks h.running [] (List.nil_append _).symm hknown
      (by rw [List.append_nil]; exact hrip) hfind hjump hfollow (.of_computes hd)
    exact ⟨_, hgoes, by simpa using hreaches⟩
  · rw [if_neg hint]
    have hstops := Piece.follow_asked (s.word image) Session.stubThunk k hpq ha hb hleft hright hmask hint
      blk.base [.instr (.alu .cmp .w32 .rax .rdx), .jcc (Emit.branchCond sense k) t.label,
        .jmp (blk.base + 1)] (by simp)
      (Emit.verdictPieces sense t.label (blk.base + 1))
    change (Piece.follow _ none (p :: q :: Emit.branchPieces _ _ _ _ _ _ _ _) _).Stops _ _ at hstops
    rw [← hbody] at hstops
    obtain ⟨d, x, mid, ⟨hsi, hdx⟩, hgoes, hasks, hmid, hresumes⟩ := hst.asks h.running hknown hrip hstops
    refine ⟨x, hgoes, ?_, fun m' truth r1 hkeeps => ?_⟩
    · rw [hsi, hdx] at hasks
      exact hasks
    · obtain ⟨hrunning, hrip', hrax, -⟩ := hresumes m' _ r1 hkeeps
      obtain ⟨f, hfollow⟩ := Piece.follow_verdictPieces (s.word image) sense hnext hrax
      have hknown' : ∀ q ∈ Emit.verdictPieces sense t.label (blk.base + 1), q.known = true :=
        fun q hq => hknown q (hmid ▸ List.mem_append_right _ hq)
      obtain ⟨y, hgoes', hreaches⟩ := hst.forks hrunning mid hmid hknown' hrip' hfind hjump hfollow
        (.of_computes (X86.Cpu.computes_setFlags _ f))
      exact ⟨_, hgoes', by simpa using hreaches⟩

/-- A slot that was written from the accumulator holds what it was given, and so does the accumulator. -/
theorem operand_of_write {d : Cpu} {r cached : Register} {o : Int32} {v : Value}
    (ho : Frame.registerOffset? r = some o) (hrax : d.reg .rax = v.word) (x : UInt64) :
    ((d.write (d.reg frameReg + X86.displacementWord o) (d.reg .rax)).jump x).Operand cached r v := by
  refine ⟨fun o' ho' => ?_, fun _ => hrax⟩
  obtain rfl : o = o' := Option.some.inj (ho.symm.trans ho')
  rw [X86.Cpu.read_jump, X86.Cpu.reg_jump, X86.Cpu.reg_write, X86.Cpu.read_write_self, hrax]

/-- A comparison leaves its truth in its destination. -/
theorem compare (h : m.Reaches s image c ins.offset.toUInt32) (ht : s.Translates c ins span)
    (hop : ins.opcode = .binary (.compare k)) (ha : m.cpu.Operand span.event.cached (ins.reg 1) a)
    (hb : m.cpu.Operand span.event.cached (ins.reg 2) b)
    (hdst : ∀ o, Frame.registerOffset? (ins.reg 0) = some o →
      m.OnRegisterStack (m.cpu.reg frameReg + X86.displacementWord o)) :
    m.Decides (k.decision a b) fun t m' => m'.Reaches s image c ins.next.toUInt32 ∧
      ∀ cached, m'.cpu.Operand cached (ins.reg 0) (Value.ofBool t) := by
  obtain ⟨jumps, blk, front, back, hst, hrip⟩ := h.stands ht
  obtain ⟨p, q, left, right, o, hpq, hleft, hright, ho, hbody⟩ := hst.compare_body hop
  have hne : blk.base ≠ blk.base + 1 := Nat.ne_of_lt (Nat.lt_succ_self _)
  have hknown : ∀ p ∈ blk.body, p.known = true := by
    rw [hbody]
    refine List.forall_mem_cons.2 ⟨hpq.known.1, List.forall_mem_cons.2 ⟨hpq.known.2, fun q hq => ?_⟩⟩
    rcases List.mem_append.1 hq with hq | hq
    · exact Emit.known_comparePieces _ _ _ _ _ _ q hq
    · simp only [List.mem_cons, List.not_mem_nil, or_false] at hq
      rcases hq with rfl | rfl <;> rfl
  have hmask := h.running.mask
  have hslot := hdst o ho
  have hstore (d : Cpu) : Piece.follow (s.word image) none
      [.bind (blk.base + 1), .instr (.store frameReg o .rax)] d =
        .falls (d.write (d.reg frameReg + X86.displacementWord o) (d.reg .rax)) := by simp
  unfold Comparison.decision
  by_cases hint : (a.isInt32 && b.isInt32) = true
  · rw [if_pos hint]
    obtain ⟨d, hd, hrax, hfollow⟩ := Piece.follow_compare_integers (s.word image) Session.stubThunk k hpq
      ha hb hmask left right hint hne [.instr (.store frameReg o .rax)]
    rw [← hbody] at hfollow
    have hwritten := hfollow.trans (hstore d)
    have hworks := Machine.Works.of_write hd hslot (d.reg .rax)
    rw [← hd.kept frameReg (by decide)] at hworks
    obtain ⟨x, hgoes, hreaches⟩ := hst.falls h.running [] (List.nil_append _).symm hknown
      (by rw [List.append_nil]; exact hrip) hwritten hworks
    exact ⟨_, hgoes.goes, hreaches, fun cached => operand_of_write ho hrax x⟩
  · rw [if_neg hint]
    have hstops := Piece.follow_asked (s.word image) Session.stubThunk k hpq ha hb hleft hright hmask hint
      blk.base [.instr (.alu .cmp .w32 .rax .rdx), .instr (.setcc (Emit.comparisonCond k) .rax),
        .instr (.movzx8 .rax .rax), .instr (.aluImm .or .w64 .rax 6), .jmp (blk.base + 1)] (by simp)
      [.bind (blk.base + 1), .instr (.store frameReg o .rax)]
    change (Piece.follow _ none (p :: q :: (Emit.comparePieces _ _ _ _ _ _ ++ _)) _).Stops _ _ at hstops
    rw [← hbody] at hstops
    obtain ⟨d, x, mid, ⟨hsi, hdx⟩, hgoes, hasks, hmid, hresumes⟩ := hst.asks h.running hknown hrip hstops
    refine ⟨x, hgoes, ?_, fun m' truth r1 hkeeps => ?_⟩
    · rw [hsi, hdx] at hasks
      exact hasks
    · obtain ⟨hrunning, hrip', hrax, hcontext, hbase, hrole⟩ :=
        hresumes m' (Value.ofBool truth).word r1 hkeeps
      generalize m'.resume (Value.ofBool truth).word r1 = n at *
      have hknown' : ∀ q ∈ [Piece.bind (blk.base + 1), .instr (.store frameReg o .rax)], q.known = true :=
        fun q hq => hknown q (hmid ▸ List.mem_append_right _ hq)
      have hslot' : n.OnRegisterStack (n.cpu.reg frameReg + X86.displacementWord o) := by
        rw [hrole frameReg (by decide), Machine.OnRegisterStack, Machine.Beyond, hcontext, hbase]
        exact hslot
      obtain ⟨y, hgoes', hreaches⟩ := hst.falls hrunning mid hmid hknown' hrip' (hstore _)
        (.of_write (.refl _) hslot' _)
      exact ⟨_, hgoes'.goes, hreaches, fun cached => operand_of_write ho hrax y⟩

/-- A comparison and then a conditional jump on its destination decide like the comparison and jump in
one. -/
theorem compare_condition {jump : Instruction} {span' : Span} {sense : Bool} {target : UInt32}
    (h : m.Reaches s image c ins.offset.toUInt32) (ht : s.Translates c ins span)
    (ht' : s.Translates c jump span') (hop : ins.opcode = .binary (.compare k))
    (hop' : jump.opcode = .jumpIf sense) (htarget : jump.target? = some target)
    (hnext : jump.offset = ins.next) (hreg : jump.reg 0 = ins.reg 0)
    (ha : m.cpu.Operand span.event.cached (ins.reg 1) a)
    (hb : m.cpu.Operand span.event.cached (ins.reg 2) b)
    (hdst : ∀ o, Frame.registerOffset? (ins.reg 0) = some o →
      m.OnRegisterStack (m.cpu.reg frameReg + X86.displacementWord o)) :
    m.Decides (k.decision a b) fun t m' =>
      m'.Reaches s image c (if t = sense then target else jump.next.toUInt32) := by
  refine (h.compare ht hop ha hb hdst).next fun t m' ⟨hreaches, hoperand⟩ => ?_
  rw [← hnext] at hreaches
  have hjump := hreaches.condition ht' hop' htarget (hreg ▸ hoperand _)
  have hknown : (Value.ofBool t).decision = .known t := by cases t <;> rfl
  rwa [hknown] at hjump

end Machine.Reaches

end RegisterJit
