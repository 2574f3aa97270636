import RegisterJit.Proofs.Blocks
import RegisterJit.Proofs.Layout

/-!
# Compiling sound programs

Compiling a sound code succeeds, and the session then holds the code's blocks: `Part` describes the
symbolic code of one unit, `Session.Holds` that of a session. The labels of a unit are an interval of
their own, each bound once, so nothing is bound twice and no jump is left open.

The proof follows the recursion of the compiler. `instruction_ok` compiles one instruction to a block,
`splitBlock_ok` and `emit_ok` deal with the label that leads it, `instructions_ok` with all instructions of a
code, and `unit_ok` adds prologue and ending and gives the `Part` of the unit. `Session.Holds` is what a session
knows about its parts, and `compile_holds` that a program of formed codes extends it. All steps succeed: there
is no assertion of emitters, of the label table or of the assembler that a formed code can break. `Linking` goes
on from here.
-/

namespace RegisterJit

open X86 (Label Assembler)
open RegisterJit.Stream (Boundary Spells placed extent instructionAt)

namespace Session

/-! ## Growing sessions -/

/-- A session to which pieces, spans and links of handlers have been added. -/
structure Grows (s s' : Session) (ps : List Piece) (spans : List Span)
    (links : List HandlerLink) : Prop where
  pieces : s'.pieces.toList = s.pieces.toList ++ ps
  spans : s'.spans.toList = s.spans.toList ++ spans
  links : s'.handlerLinks = links.reverse ++ s.handlerLinks
  entries : s'.entries = s.entries
  programs : s'.programs = s.programs
  linked : s'.linked = s.linked

variable {s s' s'' : Session} {ps qs : List Piece} {spans spans' : List Span}
  {links links' : List HandlerLink}

theorem Grows.refl (s : Session) : s.Grows s [] [] [] := by
  constructor <;> simp

theorem Grows.trans (h : s.Grows s' ps spans links) (h' : s'.Grows s'' qs spans' links') :
    s.Grows s'' (ps ++ qs) (spans ++ spans') (links ++ links') where
  pieces := by rw [h'.pieces, h.pieces, List.append_assoc]
  spans := by rw [h'.spans, h.spans, List.append_assoc]
  links := by rw [h'.links, h.links, List.reverse_append, List.append_assoc]
  entries := h'.entries.trans h.entries
  programs := h'.programs.trans h.programs
  linked := h'.linked.trans h.linked

theorem Extends.grows (h : s.Extends s' ps) : s.Grows s' ps [] [] := by
  obtain ⟨hp, heq⟩ := h
  refine ⟨hp, ?_, ?_, ?_, ?_, ?_⟩ <;> rw [heq] <;> simp

theorem Grows.binds (h : s.Grows s' ps spans links) : s'.binds = s.binds ++ Piece.binds ps := by
  rw [Session.binds, h.pieces, Piece.binds_append, Session.binds]

theorem Grows.size (h : s.Grows s' ps spans links) :
    s'.pieces.size = s.pieces.size + ps.length := by
  rw [← Array.length_toList, h.pieces, List.length_append, Array.length_toList]

theorem putAll_ok (h : s.Laid) (ps : List Piece)
    (hknown : ∀ l : Nat, l ∈ Piece.binds ps → l < s.asm.labels.size ∧ l ∉ s.binds)
    (hnodup : (Piece.binds ps).Nodup) :
    ∃ s', Build.putAll ps s = .ok () s' ∧ s'.Laid ∧ s.Extends s' ps ∧
      s'.asm.labels.size = s.asm.labels.size := by
  induction ps generalizing s with
  | nil => exact ⟨s, rfl, h, ⟨by simp, rfl⟩, rfl⟩
  | cons p ps ih =>
    have hput : ∃ s₁, Build.put p s = .ok () s₁ ∧ s₁.Laid ∧ s.Extends s₁ [p] ∧
        s₁.asm.labels.size = s.asm.labels.size := by
      cases hp : p.bound? with
      | none => exact put_piece h hp
      | some l =>
        cases p <;> cases hp
        exact put_bind h (hknown l (by simp)).1 (hknown l (by simp)).2
    obtain ⟨s₁, hs₁, hlaid, hext, hsize⟩ := hput
    have hsplit : Piece.binds (p :: ps) = Piece.binds [p] ++ Piece.binds ps :=
      Piece.binds_append [p] ps
    rw [hsplit, List.nodup_append] at hnodup
    obtain ⟨s₂, hs₂, hlaid₂, hext₂, hsize₂⟩ := ih hlaid (fun l hl => by
      have hk := hknown l (by rw [hsplit]; exact List.mem_append_right _ hl)
      refine ⟨hsize ▸ hk.1, ?_⟩
      rw [hext.binds, List.mem_append, not_or]
      exact ⟨hk.2, fun hl' => hnodup.2.2 l hl' l hl rfl⟩) hnodup.2.1
    refine ⟨s₂, ?_, hlaid₂, hext.trans hext₂, hsize₂.trans hsize⟩
    change EStateM.bind (Build.put p) (fun _ => Build.putAll ps) s = _
    rw [EStateM.bind, hs₁]
    exact hs₂

/-- Appending what an emitter wrote whose labels are its own. -/
theorem emit_ok (h : s.Laid) {site : Site} {cached : Register} {body : Emit Unit} {e : Emitter}
    (hrun : body site ⟨#[], s.asm.labels.size, cached, Register.invalid⟩ = .ok () e)
    (hlabels : s.asm.labels.size ≤ e.labels)
    (hbinds : ∀ l : Nat, l ∈ Piece.binds e.pieces.toList → s.asm.labels.size ≤ l ∧ l < e.labels)
    (hnodup : (Piece.binds e.pieces.toList).Nodup) :
    ∃ s', Build.emit site cached body s = .ok e.upcoming s' ∧ s'.Laid ∧
      s.Grows s' e.pieces.toList [] [] ∧ s'.asm.labels.size = e.labels := by
  have hsize : (s.asm.reserve (e.labels - s.asm.labels.size)).labels.size = e.labels := by
    rw [JumpTable.size_reserve]
    omega
  obtain ⟨s', hs', hlaid, hext, hsize'⟩ := putAll_ok
    (h.reserve (e.labels - s.asm.labels.size)) e.pieces.toList (fun l hl => by
      refine ⟨by rw [hsize]; exact (hbinds l hl).2, fun hl' => ?_⟩
      have hlt := h.lt_of_mem_binds hl'
      have := (hbinds l hl).1
      omega) hnodup
  refine ⟨s', ?_, hlaid, ?_, hsize'.trans hsize⟩
  · have hkeep : Build.keep e s = .ok () s' := hs'
    rw [Build.emit_of_ok hrun]
    change EStateM.bind (Build.keep e) (fun _ => pure e.upcoming) s = _
    rw [EStateM.bind, hkeep]
    rfl
  · have := hext.grows
    exact ⟨this.pieces, this.spans, this.links, this.entries, this.programs, this.linked⟩

/-! ## Blocks -/

/-- The link of a handler's boundary at a jump target. -/
def linkAt (key : Nat) (offset : UInt32) (place : Nat) : Option JumpTarget → List HandlerLink
  | some t => if t.handled then [⟨key, offset, place⟩] else []
  | none => []

/-- A target's label is bound where its offset is reached. -/
theorem splitBlock_ok (h : s.Laid) (site : Site) (cached : Register)
    (hfree : ∀ t, site.jumps.find? site.offset = some t →
      t.label < s.asm.labels.size ∧ t.label ∉ s.binds) :
    ∃ s', Build.splitBlock site cached s =
        .ok (if (site.jumps.find? site.offset).isSome then Register.invalid else cached) s' ∧
      s'.Laid ∧
      s.Grows s' (JumpTarget.lead (site.jumps.find? site.offset)) []
        (linkAt site.unit.key site.offset s.size (site.jumps.find? site.offset)) ∧
      s'.asm.labels.size = s.asm.labels.size := by
  unfold Build.splitBlock
  cases ht : site.jumps.find? site.offset with
  | none => exact ⟨s, rfl, h, Grows.refl s, rfl⟩
  | some t =>
    obtain ⟨hlt, hnot⟩ := hfree t ht
    obtain ⟨s₁, hs₁, hlaid, hext, hsize⟩ := put_bind h hlt hnot
    have hplace : s₁.size = s.size := by
      rw [hlaid.size_eq, h.size_eq, hext.1, Piece.endFrom_append]
      rfl
    have hgrows := hext.grows
    by_cases hh : t.handled = true
    · refine ⟨{ s₁ with handlerLinks :=
        ⟨site.unit.key, site.offset, s₁.size⟩ :: s₁.handlerLinks }, ?_, ?_, ?_, hsize⟩
      · change EStateM.bind (Build.put (.bind t.label)) _ s = _
        rw [EStateM.bind, hs₁]
        simp only [hh, if_true]
        rfl
      · exact hlaid.congr rfl rfl rfl
      · refine ⟨hgrows.pieces, hgrows.spans, ?_, hgrows.entries, hgrows.programs, hgrows.linked⟩
        simp only [linkAt, hh, if_true, hplace, hgrows.links]
        rfl
    · refine ⟨s₁, ?_, hlaid, ?_, hsize⟩
      · change EStateM.bind (Build.put (.bind t.label)) _ s = _
        rw [EStateM.bind, hs₁]
        simp only [hh]
        rfl
      · simp only [linkAt, hh]
        exact hgrows

end Session

namespace Block

/-- The spans of blocks that start at piece `i`. -/
def spansFrom (u : CodeUnit) (i : Nat) : List Block → List Span
  | [] => []
  | b :: rest =>
    ⟨u.key, b.event u, i + (JumpTarget.lead b.target).length, i + b.pieces.length⟩ ::
      spansFrom u (i + b.pieces.length) rest

/-- The links of handlers' boundaries in blocks that start at byte `pos`. -/
def linksFrom (u : CodeUnit) (pos : Nat) : List Block → List HandlerLink
  | [] => []
  | b :: rest =>
    Session.linkAt u.key b.ins.offset.toUInt32 pos b.target ++
      linksFrom u (Piece.endFrom pos b.pieces) rest

def code (blocks : List Block) : List Piece := blocks.flatMap pieces

end Block

namespace Session

variable {s : Session}

/-- Compiling one instruction adds its block. -/
theorem instruction_ok (h : s.Laid) {u : CodeUnit} {jumps : JumpTable} {ins : Instruction}
    (hf : Emit.Fits (fun _ => True) (Block.site u jumps ins) ins)
    (hlow : ∀ t ∈ jumps, t.label < s.asm.labels.size) (r : Register)
    (hfree : ∀ t, jumps.find? ins.offset.toUInt32 = some t → t.label ∉ s.binds) :
    ∃ (b : Block) (s' : Session),
      Build.instruction (Block.site u jumps ins) r ins s = .ok b.upcoming s' ∧
      Block.Of u jumps r s.asm.labels.size ins b ∧ s'.Laid ∧
      s.Grows s' b.pieces
        [⟨u.key, b.event u, s.pieces.size + (JumpTarget.lead b.target).length,
          s.pieces.size + b.pieces.length⟩]
        (linkAt u.key ins.offset.toUInt32 s.size b.target) ∧
      s'.asm.labels.size = s.asm.labels.size + b.count := by
  obtain ⟨s₁, hs₁, hlaid₁, hgrows₁, hsize₁⟩ := splitBlock_ok h (Block.site u jumps ins) r
    fun t ht => ⟨hlow t (JumpTable.mem_of_find? ht).1, hfree t ht⟩
  have htarget : (Block.site u jumps ins).jumps.find? (Block.site u jumps ins).offset =
      jumps.find? ins.offset.toUInt32 := rfl
  rw [htarget] at hs₁ hgrows₁
  generalize hr' : (if (jumps.find? ins.offset.toUInt32).isSome then Register.invalid else r) = r'
    at hs₁
  -- What the emitter writes, and that it ends.
  obtain ⟨e, hrun, a, offs, hgood, hperm, -⟩ := Emit.instruction_done hf hlow r'
    (Emit.localNotes_add ins.opcode (Content.of r') s.asm.labels.size)
    fun t ht => Emit.localNotes_of_lt _ _ (hlow t ht)
  let b : Block := ⟨ins, jumps.find? ins.offset.toUInt32, r', s.asm.labels.size, offs.length,
    e.pieces.toList, e.upcoming⟩
  have hb : b.Emitted u jumps := by
    refine ⟨e.cached, hrun.trans ?_⟩
    obtain ⟨pieces, labels, cached, upcoming⟩ := e
    cases hgood.labels
    rfl
  obtain ⟨hnodup, hmem⟩ := hb.binds hf hlow
  -- The trace is pushed before the emitter runs, the span after it.
  let s₂ : Session := { s₁ with trace := s₁.trace.push (b.event u) }
  have hlaid₂ : s₂.Laid := hlaid₁.congr rfl rfl rfl
  have hsize₂ : s₂.asm.labels.size = s.asm.labels.size := hsize₁
  rw [← hsize₂] at hrun
  obtain ⟨s₃, hs₃, hlaid₃, hgrows₃, hsize₃⟩ := emit_ok hlaid₂ hrun
    (by rw [hsize₂, hgood.labels]; exact Nat.le_add_right _ _)
    (fun l hl => by
      rw [hsize₂, hgood.labels]
      exact (hmem l).1 hl) hnodup
  let s₄ : Session := { s₃ with
    spans := s₃.spans.push ⟨u.key, b.event u, s₂.pieces.size, s₃.pieces.size⟩ }
  have hsize₄ : s₁.pieces.size = s.pieces.size + (JumpTarget.lead b.target).length := hgrows₁.size
  have hsize₅ : s₃.pieces.size = s.pieces.size + b.pieces.length := by
    rw [hgrows₃.size]
    change s₁.pieces.size + _ = _
    rw [hsize₄, Block.pieces, List.length_append, Nat.add_assoc]
  refine ⟨b, s₄, ?_, ⟨rfl, rfl, hr'.symm, rfl, hb⟩, ?_, ?_, ?_⟩
  · change EStateM.bind (Build.splitBlock (Block.site u jumps ins) r) _ s = _
    rw [EStateM.bind, hs₁]
    change EStateM.bind (Build.emit (Block.site u jumps ins) r' (Emit.instruction ins)) _ s₂ = _
    rw [EStateM.bind, hs₃]
    rfl
  · exact hlaid₃.congr rfl rfl rfl
  · refine ⟨?_, ?_, ?_, ?_, ?_, ?_⟩
    · change s₃.pieces.toList = _
      rw [hgrows₃.pieces]
      change s₁.pieces.toList ++ _ = _
      rw [hgrows₁.pieces, List.append_assoc]
      rfl
    · change (s₃.spans.push _).toList = _
      rw [Array.toList_push, hgrows₃.spans]
      change s₁.spans.toList ++ [] ++ _ = _
      rw [hgrows₁.spans, List.append_nil, List.append_nil, ← hsize₄, ← hsize₅]
    · exact (hgrows₃.links).trans hgrows₁.links
    · exact hgrows₃.entries.trans hgrows₁.entries
    · exact hgrows₃.programs.trans hgrows₁.programs
    · exact hgrows₃.linked.trans hgrows₁.linked
  · change s₃.asm.labels.size = _
    rw [hsize₃, hgood.labels]

theorem toNat_toUInt32 {n : Nat} (h : n < 2 ^ 32) : n.toUInt32.toNat = n := by
  rw [Nat.toUInt32_eq, UInt32.toNat_ofNat_of_lt']
  exact h

theorem mem_lead {target : Option JumpTarget} {q : Piece} :
    q ∈ JumpTarget.lead target ↔ ∃ t, target = some t ∧ q = .bind t.label := by
  cases target <;> simp [JumpTarget.lead]

/-- Compiling instructions adds their blocks. The targets from the offset of the first one on must
not be bound before, and those after the last one are not bound afterwards. -/
theorem instructions_ok (h : s.Laid) {u : CodeUnit} {jumps : JumpTable} {low high : Nat}
    (hfresh : jumps.Fresh low high) (hhigh : high ≤ s.asm.labels.size) (data : Array Word)
    (pos : Nat) (ops : List Opcode) (hsmall : pos + extent ops < 2 ^ 32)
    (hf : ∀ ins ∈ (placed pos ops).map (instructionAt data),
      Emit.Fits (fun _ => True) (Block.site u jumps ins) ins) (r : Register)
    (hfree : ∀ t ∈ jumps, pos ≤ t.offset.toNat → t.label ∉ s.binds) :
    ∃ (blocks : List Block) (s' : Session),
      Build.instructions u jumps r ((placed pos ops).map (instructionAt data)) s = .ok () s' ∧
      Block.Run u jumps r s.asm.labels.size ((placed pos ops).map (instructionAt data)) blocks ∧
      s'.Laid ∧
      s.Grows s' (Block.code blocks) (Block.spansFrom u s.pieces.size blocks)
        (Block.linksFrom u s.size blocks) ∧
      s'.asm.labels.size = s.asm.labels.size + Block.labels blocks ∧
      ∀ t ∈ jumps, pos + extent ops ≤ t.offset.toNat → t.label ∉ s'.binds := by
  induction ops generalizing s pos r with
  | nil => exact ⟨[], s, rfl, rfl, h, Grows.refl s, rfl, hfree⟩
  | cons op ops ih =>
    rw [extent] at hsmall
    have hlow : ∀ t ∈ jumps, t.label < s.asm.labels.size :=
      fun t ht => Nat.lt_of_lt_of_le (hfresh.high t ht) hhigh
    have hpos : pos.toUInt32.toNat = pos := toNat_toUInt32 (by omega)
    simp only [placed, List.map_cons] at hf ⊢
    obtain ⟨b, s₁, hs₁, hof, hlaid₁, hgrows₁, hsize₁⟩ := instruction_ok h
      (hf _ (List.mem_cons_self ..)) hlow r fun t ht => by
        obtain ⟨hmem, hoff⟩ := JumpTable.mem_of_find? ht
        exact hfree t hmem (by rw [hoff]; exact Nat.le_of_eq hpos.symm)
    have hbody := (hof.emitted.binds (by rw [hof.instruction]; exact hf _ (List.mem_cons_self ..))
      (by rw [hof.base]; exact hlow)).2
    -- A label bound by the block is that of its own offset or one of its own.
    have hfree₁ : ∀ t ∈ jumps, pos + op.length ≤ t.offset.toNat → t.label ∉ s₁.binds := by
      intro t ht hge
      have hlen := op.length_pos
      rw [hgrows₁.binds, List.mem_append, not_or, Block.pieces, Piece.binds_append,
        List.mem_append, not_or]
      refine ⟨hfree t ht (by omega), fun hl => ?_, fun hl => ?_⟩
      · obtain ⟨t₀, ht₀, hq⟩ := mem_lead.1 (Piece.mem_binds.1 hl)
        have heq : t₀.label = t.label := (Piece.bind.inj hq).symm
        rw [hof.target] at ht₀
        obtain ⟨hmem, hoff⟩ := JumpTable.mem_of_find? ht₀
        obtain rfl := hfresh.labels t₀ hmem t ht heq
        rw [hoff] at hge
        change pos + op.length ≤ pos.toUInt32.toNat at hge
        omega
      · have := ((hbody t.label).1 hl).1
        rw [hof.base] at this
        exact absurd (hlow t ht) (Nat.not_lt.2 this)
    obtain ⟨blocks, s₂, hs₂, hrun, hlaid₂, hgrows₂, hsize₂, hfree₂⟩ := ih hlaid₁
      (Nat.le_trans hhigh (by omega)) (pos + op.length) (by omega)
      (fun ins hins => hf ins (List.mem_cons_of_mem _ hins)) b.upcoming hfree₁
    refine ⟨b :: blocks, s₂, ?_, ⟨b, blocks, rfl, hof, by rwa [← hsize₁]⟩, hlaid₂, ?_, ?_, ?_⟩
    · change EStateM.bind (Build.instruction (Block.site u jumps (instructionAt data (pos, op))) r
        (instructionAt data (pos, op))) _ s = _
      rw [EStateM.bind, hs₁]
      exact hs₂
    · have hbytes : s₁.size = Piece.endFrom s.size b.pieces := by
        rw [hlaid₁.size_eq, hgrows₁.pieces, Piece.endFrom_append, ← h.size_eq]
      have := hgrows₁.trans hgrows₂
      rw [hgrows₁.size, hbytes] at this
      rw [Block.linksFrom, hof.instruction]
      exact this
    · rw [hsize₂, hsize₁, Block.labels, Block.labels, List.map_cons, List.sum_cons, Nat.add_assoc]
    · intro t ht hge
      rw [extent] at hge
      exact hfree₂ t ht (by omega)

end Session

/-! ## Units -/

namespace Session

variable {s s' s'' : Session} {ps : List Piece}

theorem endFrom_size (h : s.Laid) (h' : s'.Laid) (hp : s'.pieces.toList = s.pieces.toList ++ ps) :
    s'.size = Piece.endFrom s.size ps := by
  rw [h'.size_eq, hp, Piece.endFrom_append, ← h.size_eq]

/-- The code of a function that runs off its end. -/
def epilogueCode : List X86.Instr :=
  [.movImm32 .rax Value.undefined.word.toUInt32, .load .rcx frameReg Frame.argumentBase,
    .store contextReg Context.stackPointer .rcx, .pop .rcx, .ret]

theorem epilogue_eq (site : Site) (n : Nat) :
    Build.epilogue site ⟨#[], n, Register.invalid, Register.invalid⟩ =
      .ok () ⟨(epilogueCode.map Piece.instr).toArray, n, Register.invalid, Register.invalid⟩ := rfl

end Session

/-- The compiled code of a unit. -/
structure Part where
  unit : CodeUnit
  jumps : JumpTable
  /-- The label of its entry. -/
  entry : Nat
  blocks : List Block

namespace Part

def prologue (p : Part) : List Piece := [.align 16, .bind p.entry, .instr (.push frameReg)]

/-- The pieces before the end of the unit is reached. -/
def front (p : Part) : List Piece := p.prologue ++ Block.code p.blocks

def last (p : Part) : UInt32 := p.unit.code.data.size.toUInt32

def ending (p : Part) : List Piece :=
  JumpTarget.lead (p.jumps.find? p.last) ++ Session.epilogueCode.map .instr

def pieces (p : Part) : List Piece := p.front ++ p.ending

def limit (p : Part) : Nat := p.entry + 1 + Block.labels p.blocks

/-- The spans of a unit whose pieces start at piece `i`. -/
def spansAt (i : Nat) (p : Part) : List Span :=
  Block.spansFrom p.unit (i + p.prologue.length) p.blocks

/-- The links of handlers' boundaries of a unit that starts at byte `pos`. -/
def linksAt (pos : Nat) (p : Part) : List HandlerLink :=
  Block.linksFrom p.unit (Piece.endFrom pos p.prologue) p.blocks ++
    Session.linkAt p.unit.key p.last (Piece.endFrom pos p.front) (p.jumps.find? p.last)

/-- A part as the compiler builds it for a formed code, with labels from `low` on. -/
structure Built (low : Nat) (p : Part) (ops : List Opcode) : Prop where
  formed : p.unit.code.Formed ops
  small : p.unit.code.data.size < 2 ^ 31
  pool : p.unit.pool.size = p.unit.code.constants.size
  above : low ≤ p.entry
  scanned : Scan.Complete p.unit.code ops low p.entry p.jumps
  run : Block.Run p.unit p.jumps Register.invalid (p.entry + 1)
    (Stream.instructions p.unit.code.data) p.blocks

end Part

namespace Part

def code (parts : List Part) : List Piece := parts.flatMap pieces

/-- The spans of units whose pieces start at piece `i`. -/
def spansFrom (i : Nat) : List Part → List Span
  | [] => []
  | p :: rest => p.spansAt i ++ spansFrom (i + p.pieces.length) rest

/-- The links of handlers' boundaries of units that start at byte `pos`. -/
def linksFrom (pos : Nat) : List Part → List HandlerLink
  | [] => []
  | p :: rest => p.linksAt pos ++ linksFrom (Piece.endFrom pos p.pieces) rest

/-- Units that start at byte `pos`, with the ends of their code. -/
def programsFrom (pos : Nat) : List Part → List CompiledUnit
  | [] => []
  | p :: rest => ⟨p.unit, Piece.endFrom pos p.pieces⟩ :: programsFrom (Piece.endFrom pos p.pieces) rest

section

variable (i pos : Nat) (before after : List Part)

theorem code_append : code (before ++ after) = code before ++ code after := List.flatMap_append

theorem spansFrom_append :
    spansFrom i (before ++ after) =
      spansFrom i before ++ spansFrom (i + (code before).length) after := by
  induction before generalizing i with
  | nil => rfl
  | cons p before ih =>
    rw [List.cons_append, spansFrom, spansFrom, ih, List.append_assoc, code, code,
      List.flatMap_cons, List.length_append, Nat.add_assoc]

theorem linksFrom_append :
    linksFrom pos (before ++ after) =
      linksFrom pos before ++ linksFrom (Piece.endFrom pos (code before)) after := by
  induction before generalizing pos with
  | nil => rfl
  | cons p before ih =>
    rw [List.cons_append, linksFrom, linksFrom, ih, List.append_assoc, code, code,
      List.flatMap_cons, Piece.endFrom_append]

theorem programsFrom_append :
    programsFrom pos (before ++ after) =
      programsFrom pos before ++ programsFrom (Piece.endFrom pos (code before)) after := by
  induction before generalizing pos with
  | nil => rfl
  | cons p before ih =>
    rw [List.cons_append, programsFrom, programsFrom, ih, code, code, List.flatMap_cons,
      Piece.endFrom_append, List.cons_append]

end

/-- Parts whose labels follow one another, from `low` on. -/
def Chain : Nat → List Part → Prop
  | _, [] => True
  | low, p :: rest => (∃ ops, p.Built low ops) ∧ Chain p.limit rest

end Part

namespace Session

variable {s s' : Session}

/-- What a session gains by compiling units. -/
structure Gains (s s' : Session) (parts : List Part) : Prop where
  pieces : s'.pieces.toList = s.pieces.toList ++ Part.code parts
  spans : s'.spans.toList = s.spans.toList ++ Part.spansFrom s.pieces.size parts
  links : s'.handlerLinks = (Part.linksFrom s.size parts).reverse ++ s.handlerLinks
  entries : s'.entries = (parts.map fun p => (p.unit.key, p.entry)).reverse ++ s.entries
  programs : s'.programs.toList = s.programs.toList ++ Part.programsFrom s.size parts

theorem scan_ok (h : s.Laid) {c : Code} {ops : List Opcode} (hc : c.Formed ops)
    (hsmall : c.data.size < 2 ^ 31) :
    ∃ (jumps : JumpTable) (s' : Session), Build.scan c s = .ok jumps s' ∧ s'.Laid ∧
      s.Extends s' [] ∧ Scan.Complete c ops s.asm.labels.size s'.asm.labels.size jumps ∧
      s.asm.labels.size ≤ s'.asm.labels.size := by
  obtain ⟨jumps, count, htargets, hcomplete⟩ := Scan.targets_complete hc hsmall s.asm
  refine ⟨jumps, { s with asm := s.asm.reserve count }, ?_, h.reserve count, ⟨by simp, rfl⟩, ?_, ?_⟩
  · exact Build.scan_of_ok htargets
  · change Scan.Complete c ops s.asm.labels.size (s.asm.reserve count).labels.size jumps
    rwa [JumpTable.size_reserve]
  · change s.asm.labels.size ≤ (s.asm.reserve count).labels.size
    rw [JumpTable.size_reserve]
    omega

theorem openUnit_ok (h : s.Laid) (u : CodeUnit) :
    ∃ s' : Session, Build.openUnit u s = .ok () s' ∧ s'.Laid ∧
      s'.asm.labels.size = s.asm.labels.size + 1 ∧
      s'.entries = (u.key, s.asm.labels.size) :: s.entries ∧
      s.Extends { s' with entries := s.entries }
        [.align 16, .bind s.asm.labels.size, .instr (.push frameReg)] := by
  have hsize : (s.asm.reserve 1).labels.size = s.asm.labels.size + 1 := JumpTable.size_reserve _ _
  obtain ⟨s₁, hs₁, hlaid, hext, hlabels⟩ := putAll_ok (h.reserve 1)
    [.align 16, .bind s.asm.labels.size, .instr (.push frameReg)] (fun l hl => by
      have hl : l = s.asm.labels.size := by simpa using hl
      subst hl
      exact ⟨by rw [hsize]; omega, fun hmem => Nat.lt_irrefl _ (h.lt_of_mem_binds hmem)⟩)
    (by simp)
  refine ⟨{ s₁ with entries := (u.key, s.asm.labels.size) :: s₁.entries }, ?_,
    hlaid.congr rfl rfl rfl, hlabels.trans hsize, ?_, hext.1, ?_⟩
  · change EStateM.bind (Build.putAll [.align 16, .bind s.asm.labels.size, .instr (.push frameReg)])
      _ { s with asm := s.asm.reserve 1 } = _
    rw [EStateM.bind, hs₁]
    rfl
  · change _ :: s₁.entries = _
    rw [hext.2]
  · obtain ⟨hpieces, heq⟩ := hext
    rw [heq]

end Session

namespace Session

variable {s s' : Session}

theorem gains_part {s₁ s₂ s₃ s₅ : Session} (p : Part) (h : s.Laid) (h₂ : s₂.Laid) (h₃ : s₃.Laid)
    (h₅ : s₅.Laid) (hscan : s.Extends s₁ [])
    (hopen : s₁.Extends { s₂ with entries := s₁.entries } p.prologue)
    (hentries : s₂.entries = (p.unit.key, p.entry) :: s₁.entries)
    (hblocks : s₂.Grows s₃ (Block.code p.blocks)
      (Block.spansFrom p.unit s₂.pieces.size p.blocks) (Block.linksFrom p.unit s₂.size p.blocks))
    (hending : s₃.Grows s₅ p.ending []
      (linkAt p.unit.key p.last s₃.size (p.jumps.find? p.last))) :
    s.Gains { s₅ with programs := s₅.programs.push ⟨p.unit, s₅.size⟩ } [p] := by
  have hbefore := (hscan.trans hopen).grows
  have hafter := hblocks.trans hending
  have hpieces₂ : s₂.pieces.toList = s.pieces.toList ++ p.prologue := hbefore.pieces
  have hpieces₃ : s₃.pieces.toList = s.pieces.toList ++ p.front := by
    rw [hblocks.pieces, hpieces₂, Part.front, List.append_assoc]
  have hpieces₅ : s₅.pieces.toList = s.pieces.toList ++ p.pieces := by
    rw [hending.pieces, hpieces₃, Part.pieces, List.append_assoc]
  have hcount : s₂.pieces.size = s.pieces.size + p.prologue.length := by
    rw [← Array.length_toList, hpieces₂, List.length_append, Array.length_toList]
  constructor
  · change s₅.pieces.toList = _
    rw [hpieces₅, Part.code, List.flatMap_singleton]
  · change s₅.spans.toList = _
    rw [hafter.spans, hcount, show s₂.spans.toList = _ from hbefore.spans]
    simp only [List.append_nil, Part.spansFrom, Part.spansAt]
  · change s₅.handlerLinks = _
    rw [hafter.links, endFrom_size h h₂ hpieces₂, endFrom_size h h₃ hpieces₃,
      show s₂.handlerLinks = _ from hbefore.links]
    simp only [List.append_nil, List.reverse_nil, List.nil_append, Part.linksFrom, Part.linksAt]
  · change s₅.entries = _
    rw [hafter.entries, hentries, hscan.grows.entries]
    rfl
  · change (s₅.programs.push _).toList = _
    rw [Array.toList_push, hafter.programs, show s₂.programs = _ from hbefore.programs,
      endFrom_size h h₅ hpieces₅]
    rfl

/-- Compiling a unit adds its part. -/
theorem unit_ok (h : s.Laid) {u : CodeUnit} {ops : List Opcode} (hc : u.code.Formed ops)
    (hsmall : u.code.data.size < 2 ^ 31) (hpool : u.pool.size = u.code.constants.size)
    (hkey : ∀ e ∈ s.entries, e.1 ≠ u.key) :
    ∃ (p : Part) (s' : Session), Build.unit u s = .ok () s' ∧ p.unit = u ∧
      p.Built s.asm.labels.size ops ∧ s'.Laid ∧ s.Gains s' [p] ∧ s'.asm.labels.size = p.limit ∧
      s'.linked = s.linked := by
  have hnew : s.entries.any (fun e => e.1 == u.key) = false := by
    rw [List.any_eq_false]
    exact fun e he => by simpa using hkey e he
  have hext : extent ops = u.code.data.size := hc.spells.size.symm
  -- Its labels: first those of its jump targets, then that of its entry.
  obtain ⟨jumps, s₁, hs₁, hlaid₁, hext₁, hscan, hle⟩ := scan_ok h hc hsmall
  obtain ⟨s₂, hs₂, hlaid₂, hlabels₂, hentries, hext₂⟩ := openUnit_ok hlaid₁ u
  have hbinds₂ : s₂.binds = s.binds ++ [s₁.asm.labels.size] := (hext₁.trans hext₂).binds
  have hfree : ∀ t ∈ jumps, t.label ∉ s₂.binds := by
    intro t ht
    rw [hbinds₂, List.mem_append, not_or, List.mem_singleton]
    have hlow := hscan.fresh.low t ht
    have hhigh := hscan.fresh.high t ht
    exact ⟨fun hmem => Nat.not_lt.2 hlow (h.lt_of_mem_binds hmem), Nat.ne_of_lt hhigh⟩
  -- The blocks.
  have hins : Stream.instructions u.code.data = (placed 0 ops).map (instructionAt u.code.data) :=
    hc.spells.instructions_eq
  obtain ⟨blocks, s₃, hs₃, hrun, hlaid₃, hgrows₃, hlabels₃, hfree₃⟩ := instructions_ok hlaid₂ (u := u)
    hscan.fresh (by omega) u.code.data 0 ops (by omega)
    (fun ins hmem => by
      rw [← hins] at hmem
      exact hc.fits hmem rfl hpool hscan fun r hr =>
        Register.slot_of_ne_invalid (hc.ne_invalid hmem hr))
    Register.invalid fun t ht _ => hfree t ht
  -- The end.
  let p : Part := ⟨u, jumps, s₁.asm.labels.size, blocks⟩
  have hlast : p.last.toNat = u.code.data.size :=
    toNat_toUInt32 (show u.code.data.size < 2 ^ 32 by omega)
  let site : Site := ⟨u, jumps, stubThunk, p.last⟩
  obtain ⟨s₄, hs₄, hlaid₄, hgrows₄, hlabels₄⟩ := splitBlock_ok hlaid₃ site Register.invalid
    fun t ht => by
      obtain ⟨hmem, hoff⟩ := JumpTable.mem_of_find? ht
      refine ⟨Nat.lt_of_lt_of_le (hscan.fresh.high t hmem) (by omega), hfree₃ t hmem ?_⟩
      rw [hoff]
      change _ ≤ p.last.toNat
      omega
  obtain ⟨s₅, hs₅, hlaid₅, hgrows₅, hlabels₅⟩ := emit_ok hlaid₄ (epilogue_eq site s₄.asm.labels.size)
    (Nat.le_refl _) (by simp [epilogueCode]) (by simp [epilogueCode])
  have hbefore := (hext₁.trans hext₂).grows
  have hafter := hgrows₃.trans (hgrows₄.trans hgrows₅)
  refine ⟨p, { s₅ with programs := s₅.programs.push ⟨u, s₅.size⟩ }, ?_, rfl, ?_, ?_, ?_, ?_,
    hafter.linked.trans hbefore.linked⟩
  · unfold Build.unit
    change (if s.entries.any (fun e => e.1 == u.key) = true then (_ : Build Unit) else _) s = _
    rw [hnew, if_neg Bool.false_ne_true]
    change EStateM.bind (Build.scan u.code) _ s = _
    rw [EStateM.bind, hs₁]
    change EStateM.bind (Build.openUnit u) _ s₁ = _
    rw [EStateM.bind, hs₂, hins]
    change EStateM.bind (Build.instructions u jumps Register.invalid _) _ s₂ = _
    rw [EStateM.bind, hs₃]
    change EStateM.bind (Build.splitBlock site Register.invalid) _ s₃ = _
    rw [EStateM.bind, hs₄]
    change EStateM.bind (Build.emit site Register.invalid Build.epilogue) _ s₄ = _
    rw [EStateM.bind, hs₅]
    rfl
  · refine ⟨hc, hsmall, hpool, hle, hscan, ?_⟩
    rw [← hlabels₂, hins]
    exact hrun
  · exact hlaid₅.congr rfl rfl rfl
  · have hending := hgrows₄.trans hgrows₅
    rw [List.append_nil, List.append_nil] at hending
    exact gains_part p h hlaid₂ hlaid₃ hlaid₅ hext₁ hext₂ hentries hgrows₃ hending
  · rw [Part.limit]
    change s₅.asm.labels.size = s₁.asm.labels.size + 1 + Block.labels blocks
    rw [hlabels₅, hlabels₄, hlabels₃, hlabels₂]

end Session

/-- A unit of a formed code whose literals have become values. -/
structure CodeUnit.Ready (u : CodeUnit) : Prop where
  formed : ∃ ops, u.code.Formed ops
  small : u.code.data.size < 2 ^ 31
  pool : u.pool.size = u.code.constants.size

namespace Session

variable {s s' s'' : Session}

theorem Gains.refl (s : Session) : s.Gains s [] := by
  constructor <;> simp [Part.code, Part.spansFrom, Part.linksFrom, Part.programsFrom]

theorem Gains.append (h : s.Laid) (h' : s'.Laid) {before after : List Part}
    (hbefore : s.Gains s' before) (hafter : s'.Gains s'' after) :
    s.Gains s'' (before ++ after) where
  pieces := by rw [hafter.pieces, hbefore.pieces, List.append_assoc, Part.code_append]
  spans := by
    have hcount : s'.pieces.size = s.pieces.size + (Part.code before).length := by
      rw [← Array.length_toList, hbefore.pieces, List.length_append, Array.length_toList]
    rw [hafter.spans, hbefore.spans, hcount, List.append_assoc, Part.spansFrom_append]
  links := by
    rw [hafter.links, hbefore.links, endFrom_size h h' hbefore.pieces, Part.linksFrom_append,
      List.reverse_append, List.append_assoc]
  entries := by
    rw [hafter.entries, hbefore.entries, List.map_append, List.reverse_append, List.append_assoc]
  programs := by
    rw [hafter.programs, hbefore.programs, endFrom_size h h' hbefore.pieces,
      Part.programsFrom_append, List.append_assoc]

theorem units_ok (h : s.Laid) {us : List CodeUnit} (hready : ∀ u ∈ us, u.Ready)
    (hkeys : (us.map CodeUnit.key).Nodup) (hnew : ∀ u ∈ us, ∀ e ∈ s.entries, e.1 ≠ u.key) :
    ∃ (parts : List Part) (s' : Session), Build.units (us.map some) s = .ok () s' ∧
      parts.map Part.unit = us ∧ Part.Chain s.asm.labels.size parts ∧ s'.Laid ∧
      s.Gains s' parts ∧ s'.linked = s.linked := by
  induction us generalizing s with
  | nil => exact ⟨[], s, rfl, rfl, trivial, h, Gains.refl s, rfl⟩
  | cons u us ih =>
    obtain ⟨⟨ops, hformed⟩, hsmall, hpool⟩ := hready u (List.mem_cons_self ..)
    obtain ⟨p, s₁, hs₁, rfl, hbuilt, hlaid₁, hgains₁, hlabels₁, hlinked₁⟩ :=
      unit_ok h hformed hsmall hpool (hnew _ (List.mem_cons_self ..))
    rw [List.map_cons, List.nodup_cons] at hkeys
    obtain ⟨parts, s₂, hs₂, hunits, hchain, hlaid₂, hgains₂, hlinked₂⟩ := ih hlaid₁
      (fun v hv => hready v (List.mem_cons_of_mem _ hv)) hkeys.2 (fun v hv e he => by
        rw [hgains₁.entries] at he
        rcases List.mem_cons.1 he with rfl | he
        · exact fun heq => hkeys.1 (List.mem_map.2 ⟨v, hv, heq.symm⟩)
        · exact hnew v (List.mem_cons_of_mem _ hv) e he)
    refine ⟨p :: parts, s₂, ?_, by rw [List.map_cons, hunits], ⟨⟨ops, hbuilt⟩, ?_⟩, hlaid₂,
      hgains₁.append h hlaid₁ hgains₂, hlinked₂.trans hlinked₁⟩
    · change EStateM.bind (Build.unit p.unit) _ s = _
      rw [EStateM.bind, hs₁]
      exact hs₂
    · rwa [← hlabels₁]

/-- A session whose buffer consists of compiled units. -/
structure Comprises (s : Session) (parts : List Part) : Prop where
  laid : s.Laid
  gains : start.Gains s parts
  keys : (parts.map fun p => p.unit.key).Nodup

/-- A session that has compiled units of formed codes. -/
structure Holds (s : Session) (parts : List Part) : Prop extends Comprises s parts where
  chain : Part.Chain start.asm.labels.size parts

/-- Units of formed codes compile. -/
theorem compile_holds {us : List CodeUnit} (hready : ∀ u ∈ us, u.Ready)
    (hkeys : (us.map CodeUnit.key).Nodup) :
    ∃ (parts : List Part) (s : Session), start.compile (us.map some) = (.ok (), s) ∧
      parts.map Part.unit = us ∧ s.Holds parts ∧ s.linked = false := by
  obtain ⟨parts, s, hs, hunits, hchain, hlaid, hgains, hlinked⟩ :=
    units_ok start_laid hready hkeys fun _ _ _ he => nomatch he
  refine ⟨parts, s, ?_, hunits, ⟨⟨hlaid, hgains, ?_⟩, hchain⟩, hlinked⟩
  · have hrun : (Build.program (us.map some)).run start = .ok () s := hs
    rw [compile, hrun]
  · rw [← hunits, List.map_map] at hkeys
    exact hkeys

end Session

end RegisterJit
