import RegisterJit.Bytecode.Parser
import RegisterJit.Proofs.Decoding
import RegisterJit.Proofs.Finish
import RegisterJit.Proofs.Sessions

/-!
# Relocation

What linking does to the buffer of any session whose programs compiled: it fills in the displacements
of jumps and the words of resume addresses, which are fields that do not overlap, and leaves every
other byte alone. The displacements do not depend on where the code is placed. Entries and the ranges
of handlers are the places at which their labels and the emission of their instructions stand.

`Linked` is what is known of a session whose link succeeded: every label that is referred to is bound, and the
buffer is filled in by `finished`. Fields of different sites do not overlap, since the pieces that have them do
not; so reading a field gives what was put there, and reading elsewhere what was there before. `PlacedAs` tells
where a unit is, `Relocates` what became of the bytes. `Compiled.link_relocates` states both, and that two
images of a session differ in the words of resume addresses only, for each session that any number of
compilations leave.
-/

namespace RegisterJit

open X86 (Label Jump Assembler)

/-! ## What a successful link needs -/

theorem X86.Assembler.placed_of_resolveJumps {a : Assembler} {js : List Jump}
    {code code' : Array UInt8} (h : a.resolveJumps js code = .ok code') :
    ∀ j ∈ js, ∃ place, a.place? j.label = some place := by
  induction js generalizing code with
  | nil => simp
  | cons j js ih =>
    rw [resolveJumps] at h
    cases hp : a.place? j.label with
    | none => rw [hp] at h; cases h
    | some place =>
      rw [hp] at h
      exact List.forall_mem_cons.2 ⟨⟨place, hp⟩, ih h⟩

namespace Session

variable {s : Session}

theorem place?_of_address {base a : UInt64} {l : Label} (h : s.address base l = .ok a) :
    ∃ place, s.asm.place? l = some place ∧ a = base + place.toUInt64 := by
  rw [address, Assembler.labelOffset] at h
  rw [Assembler.place?, Array.getD_eq_getD_getElem?]
  cases hl : s.asm.labels[l]? with
  | none => rw [hl] at h; cases h
  | some place =>
    rw [hl] at h
    cases place with
    | none => cases h
    | some place =>
      cases h
      exact ⟨place, rfl, rfl⟩

theorem placed_of_fillAddresses {base : UInt64} {es : List (Nat × Label)}
    {code code' : Array UInt8} (h : s.fillAddresses base es code = .ok code') :
    ∀ e ∈ es, ∃ place, s.asm.place? e.2 = some place := by
  induction es generalizing code with
  | nil => simp
  | cons e es ih =>
    obtain ⟨site, l⟩ := e
    rw [fillAddresses] at h
    cases ha : s.address base l with
    | error i => rw [ha] at h; cases h
    | ok a =>
      rw [ha] at h
      obtain ⟨place, hp, -⟩ := place?_of_address ha
      exact List.forall_mem_cons.2 ⟨⟨place, hp⟩, ih h⟩

theorem Laid.mem_binds (h : s.Laid) {l : Label} {place : Nat} (hp : s.asm.place? l = some place) :
    l ∈ s.binds := by
  by_contra hnot
  have hnone := (@Piece.placeFrom_eq_none_iff l 0 s.pieces.toList).2 hnot
  rw [← h.labels, hp] at hnone
  cases hnone

theorem link_of_boundary {u : CodeUnit} {isStart : Bool} {offset : UInt32} {place : Nat}
    (h : s.boundary u isStart offset = .ok place) :
    ∃ link ∈ s.handlerLinks, link.key = u.key ∧ link.offset = offset ∧ link.place = place := by
  rw [boundary] at h
  cases hf : s.handlerLinks.find? fun l => l.key == u.key && l.offset == offset with
  | none => rw [hf] at h; cases h
  | some link =>
    rw [hf] at h
    cases h
    have hpred := List.find?_some hf
    simp only [Bool.and_eq_true, beq_iff_eq] at hpred
    exact ⟨link, List.mem_of_find?_eq_some hf, hpred.1, hpred.2, rfl⟩

/-- The range that was published for a handler. -/
def Ranges (s : Session) (base : UInt64) (u : CodeUnit) (h : Handler) (range : UInt64 × UInt64) :
    Prop :=
  ∃ first last, s.boundary u true h.start = .ok first ∧ s.boundary u false h.stop = .ok last ∧
    range = (base + first.toUInt64, base + last.toUInt64)

theorem forall₂_of_handlerRanges {base : UInt64} {u : CodeUnit} {hs : List Handler}
    {ranges ranges' : Array (UInt64 × UInt64)}
    (h : s.handlerRanges base u hs ranges = (.ok (), ranges')) :
    ∃ rs, ranges'.toList = ranges.toList ++ rs ∧ List.Forall₂ (s.Ranges base u) hs rs := by
  induction hs generalizing ranges with
  | nil =>
    cases h
    exact ⟨[], (List.append_nil _).symm, .nil⟩
  | cons hd hs ih =>
    rw [handlerRanges] at h
    cases hfirst : s.boundary u true hd.start with
    | error i => rw [hfirst] at h; cases h
    | ok first =>
      cases hlast : s.boundary u false hd.stop with
      | error i => rw [hfirst, hlast] at h; cases h
      | ok last =>
        rw [hfirst, hlast] at h
        obtain ⟨rs, hrs, hall⟩ := ih h
        refine ⟨_ :: rs, ?_, .cons ⟨first, last, hfirst, hlast, rfl⟩ hall⟩
        rw [hrs, Array.toList_push, List.append_assoc]
        rfl

/-- What was published for a compiled unit. -/
structure Publishes (s : Session) (base : UInt64) (c : CompiledUnit) (q : PlacedUnit) : Prop where
  unit : q.unit = c.unit
  entry : s.address base (s.entryLabel c.unit) = .ok q.entry
  stop : q.stop = base + c.stop.toUInt64
  handlers : List.Forall₂ (s.Ranges base c.unit) c.unit.code.handlers.toList q.handlers.toList

theorem forall₂_of_publish {base : UInt64} {cs : List CompiledUnit} {placed placed' : Array PlacedUnit}
    (h : s.publish base cs placed = (.ok (), placed')) :
    ∃ qs, placed'.toList = placed.toList ++ qs ∧ List.Forall₂ (s.Publishes base) cs qs := by
  induction cs generalizing placed with
  | nil =>
    cases h
    exact ⟨[], (List.append_nil _).symm, .nil⟩
  | cons c cs ih =>
    rw [publish] at h
    cases hentry : s.address base (s.entryLabel c.unit) with
    | error i => rw [hentry] at h; cases h
    | ok entry =>
      cases hranges : s.handlerRanges base c.unit c.unit.code.handlers.toList #[] with
      | mk result ranges =>
        rw [hentry, hranges] at h
        cases result with
        | error i => cases h
        | ok u =>
          obtain ⟨rs, hrs, hall⟩ := forall₂_of_handlerRanges hranges
          obtain ⟨qs, hqs, hpublished⟩ := ih h
          obtain rfl : ranges.toList = rs := hrs
          let q : PlacedUnit := ⟨c.unit, entry, base + c.stop.toUInt64, ranges⟩
          have hq : s.Publishes base c q := ⟨rfl, hentry, rfl, hall⟩
          refine ⟨q :: qs, ?_, .cons hq hpublished⟩
          rw [hqs, Array.toList_push, List.append_assoc]
          rfl

theorem of_place {base : UInt64} {code : Array UInt8} {image : Image} {placed : Array PlacedUnit}
    (h : s.place base code = (.ok image, placed)) :
    image.base = base ∧ s.address base entryThunk = .ok image.entryThunk ∧
      s.address base stubThunk = .ok image.stubThunk ∧
      s.address base returnSite = .ok image.returnSite ∧
      s.fillAddresses base s.addresses.toList code = .ok image.code ∧
      s.publish base s.programs.toList #[] = (.ok (), image.programs) := by
  rw [place] at h
  cases hentry : s.address base entryThunk with
  | error i => rw [hentry] at h; cases h
  | ok entry =>
    cases hstub : s.address base stubThunk with
    | error i => rw [hentry, hstub] at h; cases h
    | ok stub =>
      cases hreturn : s.address base returnSite with
      | error i => rw [hentry, hstub, hreturn] at h; cases h
      | ok returned =>
        rw [hentry, hstub, hreturn] at h
        cases hfill : s.fillAddresses base s.addresses.toList code with
        | error i => rw [hfill] at h; cases h
        | ok filled =>
          rw [hfill] at h
          cases hpublish : s.publish base s.programs.toList #[] with
          | mk result placed' =>
            rw [hpublish] at h
            cases result with
            | error i => cases h
            | ok u =>
              cases h
              exact ⟨rfl, rfl, rfl, rfl, rfl, rfl⟩

/-- A session that was linked: every label it refers to is bound, and the image is its finished code. -/
structure Linked (s : Session) (image : Image) : Prop where
  jumps : ∀ j ∈ s.asm.jumps.toList, j.label ∈ s.binds
  sites : ∀ e ∈ s.addresses.toList, e.2 ∈ s.binds
  entryThunk : s.address image.base entryThunk = .ok image.entryThunk
  stubThunk : s.address image.base stubThunk = .ok image.stubThunk
  returnSite : s.address image.base returnSite = .ok image.returnSite
  code : image.code.toList = s.finished image.base
  programs : List.Forall₂ (s.Publishes image.base) s.programs.toList image.programs.toList

theorem Laid.linked (h : s.Laid) {α : Type} {allocator : α}
    {allocate : α → Int → Except AllocationError UInt64 × α} {image : Image}
    (hlink : (s.link allocator allocate).result = .ok image) :
    (allocate allocator s.size).1 = .ok image.base ∧ s.Linked image := by
  rw [link] at hlink
  split at hlink
  · cases hlink
  cases hresolve : s.asm.resolve with
  | error j => rw [hresolve] at hlink; cases hlink
  | ok code =>
    have hjumps : ∀ j ∈ s.asm.jumps.toList, j.label ∈ s.binds := fun j hj => by
      obtain ⟨place, hp⟩ := Assembler.placed_of_resolveJumps hresolve j hj
      exact h.mem_binds hp
    rw [h.resolve_eq hjumps] at hresolve
    cases hresolve
    have hsize : s.resolved.toArray.size = s.size := h.length_resolved
    rw [h.resolve_eq hjumps] at hlink
    dsimp only at hlink
    rw [hsize] at hlink
    cases hallocate : allocate allocator s.size with
    | mk result allocator' =>
      rw [hallocate] at hlink
      cases result with
      | error cause => cases hlink
      | ok base =>
        dsimp only at hlink
        cases hplace : place { s with linked := true } base s.resolved.toArray with
        | mk result placed =>
          rw [hplace] at hlink
          cases result with
          | error i => cases hlink
          | ok image' =>
            cases hlink
            obtain ⟨rfl, hentry, hstub, hreturn, hfill, hpublish⟩ := of_place hplace
            have hsites : ∀ e ∈ s.addresses.toList, e.2 ∈ s.binds := fun e he => by
              obtain ⟨site, hp⟩ := placed_of_fillAddresses hfill e he
              exact h.mem_binds hp
            obtain ⟨qs, hqs, hall⟩ := forall₂_of_publish hpublish
            obtain rfl : image.programs.toList = qs := hqs
            have hlaid : Laid { s with linked := true } := h.congr rfl rfl rfl
            have hcode := hlaid.fillAddresses_eq hsites image.base
            rw [show resolved { s with linked := true } = s.resolved from rfl, hfill] at hcode
            exact ⟨rfl, hjumps, hsites, hentry, hstub, hreturn,
              congrArg Array.toList (Except.ok.inj hcode),
              hall.imp fun c q hq => ⟨hq.unit, hq.entry, hq.stop, hq.handlers⟩⟩

end Session

/-! ## Where instructions start -/

namespace Block

variable {u : CodeUnit}

theorem code_cons (b : Block) (blocks : List Block) : code (b :: blocks) = b.pieces ++ code blocks :=
  List.flatMap_cons

theorem mem_spansFrom {i : Nat} {blocks : List Block} {span : Span} :
    span ∈ spansFrom u i blocks ↔ ∃ before b after, blocks = before ++ b :: after ∧
      span = ⟨u.key, b.event u, i + (code before).length + (JumpTarget.lead b.target).length,
        i + (code before).length + b.pieces.length⟩ := by
  induction blocks generalizing i with
  | nil => simp [spansFrom]
  | cons b₀ blocks ih =>
    rw [spansFrom, List.mem_cons, ih]
    constructor
    · rintro (rfl | ⟨before, b, after, rfl, rfl⟩)
      · exact ⟨[], b₀, blocks, rfl, rfl⟩
      · refine ⟨b₀ :: before, b, after, rfl, ?_⟩
        rw [code_cons, List.length_append, ← Nat.add_assoc]
    · rintro ⟨_ | ⟨b₁, before⟩, b, after, heq, rfl⟩
      · cases heq
        exact .inl rfl
      · cases heq
        refine .inr ⟨before, b, after, rfl, ?_⟩
        rw [code_cons, List.length_append, ← Nat.add_assoc]

theorem mem_linksFrom {pos : Nat} {blocks : List Block} {link : HandlerLink} :
    link ∈ linksFrom u pos blocks ↔ ∃ before b after, blocks = before ++ b :: after ∧
      link ∈ Session.linkAt u.key b.ins.offset.toUInt32 (Piece.endFrom pos (code before))
        b.target := by
  induction blocks generalizing pos with
  | nil => simp [linksFrom]
  | cons b₀ blocks ih =>
    rw [linksFrom, List.mem_append, ih]
    constructor
    · rintro (h | ⟨before, b, after, rfl, h⟩)
      · exact ⟨[], b₀, blocks, rfl, h⟩
      · refine ⟨b₀ :: before, b, after, rfl, ?_⟩
        rwa [code, List.flatMap_cons, Piece.endFrom_append]
    · rintro ⟨_ | ⟨b₁, before⟩, b, after, heq, h⟩
      · cases heq
        exact .inl h
      · cases heq
        refine .inr ⟨before, b, after, rfl, ?_⟩
        rwa [code, List.flatMap_cons, Piece.endFrom_append] at h

theorem code_split (before : List Block) (b : Block) (after : List Block) :
    code (before ++ b :: after) =
      code before ++ (JumpTarget.lead b.target ++ (b.body ++ code after)) := by
  rw [code, List.flatMap_append, List.flatMap_cons, pieces, List.append_assoc]
  rfl

end Block

namespace Part

theorem mem_spansFrom {i : Nat} {parts : List Part} {span : Span} :
    span ∈ spansFrom i parts ↔ ∃ before p after, parts = before ++ p :: after ∧
      span ∈ p.spansAt (i + (code before).length) := by
  induction parts generalizing i with
  | nil => simp [spansFrom]
  | cons p₀ parts ih =>
    rw [spansFrom, List.mem_append, ih]
    constructor
    · rintro (h | ⟨before, p, after, rfl, h⟩)
      · exact ⟨[], p₀, parts, rfl, h⟩
      · refine ⟨p₀ :: before, p, after, rfl, ?_⟩
        rwa [code, List.flatMap_cons, List.length_append, ← Nat.add_assoc]
    · rintro ⟨_ | ⟨p₁, before⟩, p, after, heq, h⟩
      · cases heq
        exact .inl h
      · cases heq
        refine .inr ⟨before, p, after, rfl, ?_⟩
        rwa [code, List.flatMap_cons, List.length_append, ← Nat.add_assoc] at h

theorem mem_programsFrom {pos : Nat} {parts : List Part} {c : CompiledUnit} :
    c ∈ programsFrom pos parts ↔ ∃ before p after, parts = before ++ p :: after ∧
      c = ⟨p.unit, Piece.endFrom pos (code (before ++ [p]))⟩ := by
  induction parts generalizing pos with
  | nil => simp [programsFrom]
  | cons p₀ parts ih =>
    rw [programsFrom, List.mem_cons, ih]
    constructor
    · rintro (rfl | ⟨before, p, after, rfl, rfl⟩)
      · refine ⟨[], p₀, parts, rfl, ?_⟩
        rw [List.nil_append, code, List.flatMap_singleton]
      · refine ⟨p₀ :: before, p, after, rfl, ?_⟩
        rw [List.cons_append, code, code, List.flatMap_cons, Piece.endFrom_append]
    · rintro ⟨_ | ⟨p₁, before⟩, p, after, heq, rfl⟩
      · cases heq
        refine .inl ?_
        rw [List.nil_append, code, List.flatMap_singleton]
      · cases heq
        refine .inr ⟨before, p, after, rfl, ?_⟩
        rw [List.cons_append, code, code, List.flatMap_cons, Piece.endFrom_append]

end Part

namespace Session

variable {s : Session} {parts : List Part}

def byteOf (s : Session) (i : Nat) : Nat := Piece.endFrom 0 (s.pieces.toList.take i)

/-- Where the code for a word offset of a unit starts: the instruction at that offset or, at the end of
the unit, its epilogue. -/
structure Starts (s : Session) (c : CompiledUnit) (offset : UInt32) (place : Nat) : Prop where
  instruction : ∀ span ∈ s.spans.toList, span.key = c.unit.key → span.event.offset = offset →
    s.byteOf span.start = place
  reached : (∃ span ∈ s.spans.toList, span.key = c.unit.key ∧ span.event.offset = offset) ∨
    offset = c.unit.code.data.size.toUInt32 ∧ ∃ i, s.byteOf i = place ∧
      (s.pieces.toList.drop i).take epilogueCode.length = epilogueCode.map .instr ∧
      s.byteOf (i + epilogueCode.length) = c.stop

/-- The pieces before a block of a unit: those of the units compiled earlier and those of its blocks so
far. -/
def leading (before : List Part) (p : Part) (blocks : List Block) : List Piece :=
  thunkPieces ++ Part.code before ++ (p.prologue ++ Block.code blocks)

namespace Comprises

variable (h : s.Comprises parts)

include h

theorem pieces_block {before after : List Part} {p : Part} (hparts : parts = before ++ p :: after)
    {bs bs' : List Block} {b : Block} (hblocks : p.blocks = bs ++ b :: bs') :
    s.pieces.toList = leading before p bs ++ (JumpTarget.lead b.target ++ (b.body ++
      (Block.code bs' ++ (p.ending ++ Part.code after)))) := by
  rw [h.pieces, hparts, Part.code_append, leading]
  simp [Part.code, Part.pieces, Part.front, hblocks, Block.code_split]

theorem placeOf_target {before after : List Part} {p : Part} (hparts : parts = before ++ p :: after)
    {bs bs' : List Block} {b : Block} (hblocks : p.blocks = bs ++ b :: bs') {t : JumpTarget}
    (ht : b.target = some t) : s.placeOf t.label = Piece.endFrom 0 (leading before p bs) := by
  have hpieces := h.pieces_block hparts hblocks
  rw [ht] at hpieces
  exact h.laid.placeOf_eq hpieces

theorem block_of_span {span : Span} (hspan : span ∈ s.spans.toList) :
    ∃ before p after bs b bs', parts = before ++ p :: after ∧ p.blocks = bs ++ b :: bs' ∧
      span.key = p.unit.key ∧ span.event = b.event p.unit ∧
      s.pieces.toList.take span.start = leading before p bs ++ JumpTarget.lead b.target ∧
      s.pieces.toList.take span.stop = leading before p (bs ++ [b]) := by
  have hspans : s.spans.toList = Part.spansFrom start.pieces.size parts := h.gains.spans
  rw [hspans, Part.mem_spansFrom] at hspan
  obtain ⟨before, p, after, hparts, hspan⟩ := hspan
  obtain ⟨bs, b, bs', hblocks, rfl⟩ := Block.mem_spansFrom.1 hspan
  have hlength : (leading before p bs).length = start.pieces.size + (Part.code before).length +
      p.prologue.length + (Block.code bs).length := by
    rw [leading, List.length_append, List.length_append, List.length_append, ← Nat.add_assoc]
    rfl
  have hsnoc : leading before p (bs ++ [b]) = leading before p bs ++ b.pieces := by
    rw [leading, leading, Block.code, List.flatMap_append, List.flatMap_singleton]
    simp [Block.code]
  have hpieces := h.pieces_block hparts hblocks
  refine ⟨before, p, after, bs, b, bs', hparts, hblocks, rfl, rfl, ?_, ?_⟩
  · rw [hpieces, ← List.append_assoc]
    exact List.take_left' (by rw [List.length_append, hlength])
  · rw [hpieces, hsnoc, ← List.append_assoc, ← List.append_assoc,
      List.append_assoc _ (JumpTarget.lead _)]
    exact List.take_left' (by rw [List.length_append, hlength]; rfl)

/-- The boundaries that links describe. -/
theorem boundary_of_link (hshapes : ∀ p ∈ parts, p.Shaped) {link : HandlerLink}
    (hlink : link ∈ s.handlerLinks) :
    ∃ before p after, parts = before ++ p :: after ∧ link.key = p.unit.key ∧
      ∃ t, p.jumps.find? link.offset = some t ∧
        ((∃ bs b bs', p.blocks = bs ++ b :: bs' ∧ link.offset = b.ins.offset.toUInt32 ∧
            b.target = some t ∧ link.place = Piece.endFrom 0 (leading before p bs)) ∨
          link.offset = p.last ∧ link.place = Piece.endFrom 0 (leading before p p.blocks)) := by
  rw [h.links, List.mem_reverse, Part.mem_linksFrom] at hlink
  obtain ⟨before, p, after, hparts, hlink⟩ := hlink
  have hshaped := hshapes p (by rw [hparts]; simp)
  have horigin (ps : List Piece) : Piece.endFrom (Piece.endFrom start.size (Part.code before)) ps =
      Piece.endFrom 0 (thunkPieces ++ Part.code before ++ ps) := by
    rw [Piece.endFrom_append, ← origin_eq]
    rfl
  rcases List.mem_append.1 hlink with hlink | hlink
  · obtain ⟨bs, b, bs', hblocks, hlink⟩ := Block.mem_linksFrom.1 hlink
    obtain ⟨⟨t, ht, -⟩, rfl⟩ := mem_linkAt.1 hlink
    have htarget := hshaped.targets b (by rw [hblocks]; simp)
    refine ⟨before, p, after, hparts, rfl, t, htarget.symm.trans ht,
      .inl ⟨bs, b, bs', hblocks, rfl, ht, ?_⟩⟩
    change Piece.endFrom (Piece.endFrom _ p.prologue) (Block.code bs) = _
    rw [← Piece.endFrom_append, horigin]
    rfl
  · obtain ⟨⟨t, ht, -⟩, rfl⟩ := mem_linkAt.1 hlink
    exact ⟨before, p, after, hparts, rfl, t, ht, .inr ⟨rfl, horigin p.front⟩⟩

/-- The pieces of the ending of a unit and those before it. -/
theorem pieces_ending {before after : List Part} {p : Part}
    (hparts : parts = before ++ p :: after) :
    s.pieces.toList = leading before p p.blocks ++ (JumpTarget.lead (p.jumps.find? p.last) ++
      (epilogueCode.map .instr ++ Part.code after)) := by
  rw [h.pieces, hparts, Part.code_append, leading]
  simp [Part.code, Part.pieces, Part.front, Part.ending]

theorem part_of_program {c : CompiledUnit} (hc : c ∈ s.programs.toList) :
    ∃ before p after, parts = before ++ p :: after ∧
      c = ⟨p.unit, Piece.endFrom start.size (Part.code (before ++ [p]))⟩ := by
  have hprograms : s.programs.toList = Part.programsFrom start.size parts := h.gains.programs
  rwa [hprograms, Part.mem_programsFrom] at hc

/-- Everything that starts at an offset with a label starts where the label stands. -/
theorem byteOf_span {before after : List Part} {p : Part} (hparts : parts = before ++ p :: after)
    (hshapes : ∀ p ∈ parts, p.Shaped) {offset : UInt32} {t : JumpTarget}
    (ht : p.jumps.find? offset = some t) {span : Span} (hspan : span ∈ s.spans.toList)
    (hkey : span.key = p.unit.key) (hoff : span.event.offset = offset) :
    s.byteOf span.start = s.placeOf t.label := by
  obtain ⟨before', p', after', bs, b, bs', hparts', hblocks, hkey', hevent, htake, -⟩ :=
    h.block_of_span hspan
  have hp : p ∈ parts := by rw [hparts]; simp
  have hp' : p' ∈ parts := by rw [hparts']; simp
  obtain rfl := h.eq_of_key hp hp' (hkey'.symm.trans hkey)
  have htarget : b.target = some t := by
    rw [(hshapes p' hp').targets b (by rw [hblocks]; simp), ← ht, ← hoff, hevent]
    rfl
  rw [byteOf, htake, h.placeOf_target hparts' hblocks htarget, htarget, Piece.endFrom_append]
  rfl

theorem starts_of_link (hshapes : ∀ p ∈ parts, p.Shaped) {link : HandlerLink}
    (hlink : link ∈ s.handlerLinks) {c : CompiledUnit} (hc : c ∈ s.programs.toList)
    (hkey : link.key = c.unit.key) : s.Starts c link.offset link.place := by
  obtain ⟨before, p, after, hparts, hp, t, ht, hat⟩ := h.boundary_of_link hshapes hlink
  obtain ⟨before', p', after', hparts', rfl⟩ := h.part_of_program hc
  obtain rfl := h.eq_of_key (by rw [hparts']; simp) (by rw [hparts]; simp) (hp.symm.trans hkey)
  obtain rfl := h.before_unique hparts hparts'
  rcases hat with ⟨bs, b, bs', hblocks, hoff, htarget, hplace⟩ | ⟨hoff, hplace⟩
  · have hlabel := h.placeOf_target hparts hblocks htarget
    refine ⟨fun span hspan hkey' hoff' => ?_, .inl ?_⟩
    · rw [h.byteOf_span hparts hshapes ht hspan hkey' hoff', hlabel, hplace]
    · have hspans : s.spans.toList = Part.spansFrom start.pieces.size parts := h.gains.spans
      have hspan := Block.mem_spansFrom (u := p.unit)
        (i := start.pieces.size + (Part.code before).length + p.prologue.length).2
        ⟨bs, b, bs', hblocks, rfl⟩
      have hmem := Part.mem_spansFrom (i := start.pieces.size).2 ⟨before, p, after, hparts, hspan⟩
      rw [← hspans] at hmem
      exact ⟨_, hmem, rfl, hoff.symm⟩
  · have hending := h.pieces_ending hparts
    rw [← hoff, ht] at hending
    have hlabel := h.laid.placeOf_eq hending
    refine ⟨fun span hspan hkey' hoff' => ?_, .inr ⟨hoff, ?_⟩⟩
    · rw [h.byteOf_span hparts hshapes ht hspan hkey' hoff', hlabel, hplace]
    · let front := leading before p p.blocks ++ [.bind t.label]
      have hfront : s.pieces.toList = front ++ (epilogueCode.map .instr ++ Part.code after) := by
        rw [hending, List.append_assoc]
        rfl
      refine ⟨front.length, ?_, ?_, ?_⟩
      · rw [byteOf, hfront, List.take_left, hplace, Piece.endFrom_append]
        rfl
      · rw [hfront, List.drop_left, List.take_left' (List.length_map _)]
      · have htake : s.pieces.toList.take (front.length + epilogueCode.length) =
            thunkPieces ++ Part.code (before ++ [p]) := by
          rw [hfront, ← List.append_assoc, List.take_left' (by rw [List.length_append, List.length_map])]
          simp [front, leading, Part.code, Part.pieces, Part.front, Part.ending, ← hoff, ht,
            JumpTarget.lead]
        rw [byteOf, htake, ← origin_eq]
        rfl

end Comprises

/-! ## Relocated images -/

/-- The place at which a label was bound. -/
structure BoundAt (s : Session) (l : Label) (place : Nat) : Prop where
  bound : s.asm.place? l = some place
  piece : ∃ before after, s.pieces.toList = before ++ .bind l :: after ∧
    place = Piece.endFrom 0 before

def fields (s : Session) : List PatchedField :=
  s.asm.jumps.toList.map Jump.field ++ s.addresses.toList.map siteField

/-- What is published for a unit in code placed at `base`. -/
structure PlacedAs (s : Session) (base : UInt64) (c : CompiledUnit) (q : PlacedUnit) : Prop where
  unit : q.unit = c.unit
  entry : ∃ place, s.BoundAt (s.entryLabel c.unit) place ∧ place % 16 = 0 ∧
    q.entry = base + place.toUInt64
  aligned : base.toNat % 16 = 0 → q.entry.toNat % 16 = 0
  handlers : List.Forall₂ (fun h range => ∃ first last, s.Starts c h.start first ∧
      s.Starts c h.stop last ∧ range = (base + first.toUInt64, base + last.toUInt64))
    c.unit.code.handlers.toList q.handlers.toList

/-- An image that is the buffer of a session, relocated. -/
structure Relocates (s : Session) (image : Image) : Prop where
  laid : s.Laid
  size : image.code.size = s.size
  jumps : s.size < 2 ^ 31 → ∀ before p after j, s.pieces.toList = before ++ p :: after →
    p.jump? (Piece.endFrom 0 before) = some j →
    ∃ target rel rest, s.BoundAt j.label target ∧
      X86.readImm32 (image.code.toList.drop j.place) = some (rel, rest) ∧
      (j.place : Int) + 4 + rel.toInt32.toInt = target
  words : ∀ before p after e, s.pieces.toList = before ++ p :: after →
    p.site? (Piece.endFrom 0 before) = some e →
    ∃ target rest, s.BoundAt e.2 target ∧ X86.readImm64 (image.code.toList.drop e.1) =
      some ((Value.ofAddress (image.base + target.toUInt64)).word, rest)
  inside : ∀ f ∈ s.fields, f.1 + f.2 ≤ s.size
  disjoint : s.fields.Pairwise PatchedField.Apart
  kept : ∀ i, (∀ f ∈ s.fields, PatchedField.Misses i f) → image.code[i]? = s.asm.bytes[i]?
  programs : List.Forall₂ (s.PlacedAs image.base) s.programs.toList image.programs.toList

theorem Laid.boundAt (h : s.Laid) {l : Nat} (hl : l ∈ s.binds) : s.BoundAt l (s.placeOf l) := by
  obtain ⟨before, after, hpieces⟩ := List.append_of_mem (Piece.mem_binds.1 hl)
  exact ⟨h.place?_eq hl, before, after, hpieces, h.placeOf_eq hpieces⟩

theorem Laid.fields_perm (h : s.Laid) : s.fields.Perm (Piece.fieldsFrom 0 s.pieces.toList) := by
  rw [fields, h.jumps, h.sites]
  exact Piece.fieldsFrom_perm 0 s.pieces.toList

theorem Laid.placeOf_le (h : s.Laid) {l : Nat} (hl : l ∈ s.binds) : s.placeOf l ≤ s.size := by
  obtain ⟨-, before, after, hpieces, hplace⟩ := h.boundAt hl
  rw [h.size_eq, hpieces, Piece.endFrom_append, hplace]
  exact Piece.le_endFrom _ _

theorem displacement_exact {place : Label → Nat} {pos l n : Nat} (hn : n < 2 ^ 31) (hpos : pos ≤ n)
    (hl : place l ≤ n) :
    (pos : Int) + (Piece.displacement place pos l).toUInt32.toInt32.toInt = place l := by
  rw [Int32.toInt32_toUInt32, Piece.displacement, Int32.toInt_ofInt_of_le (by omega) (by omega)]
  omega

theorem endFrom_align_mod (pos : Nat) {n : Nat} (hn : 0 < n) :
    Piece.endFrom pos [.align n] % n = 0 := by
  have hend : Piece.endFrom pos [.align n] = pos + (n - pos % n) % n := by
    simp [Piece.endFrom, Piece.size, Piece.encode]
  rw [hend]
  rcases Nat.eq_zero_or_pos (pos % n) with h | h
  · rw [h, Nat.sub_zero, Nat.mod_self, Nat.add_zero, h]
  · have hlt := Nat.mod_lt pos hn
    have hdiv := Nat.div_add_mod pos n
    rw [Nat.mod_eq_of_lt (a := n - pos % n) (by omega),
      show pos + (n - pos % n) = n * (pos / n + 1) by rw [Nat.mul_add]; omega]
    exact Nat.mul_mod_right _ _

theorem toNat_add_mod {base : UInt64} {place : Nat} (hbase : base.toNat % 16 = 0)
    (hplace : place % 16 = 0) : (base + place.toUInt64).toNat % 16 = 0 := by
  rw [UInt64.toNat_add, Nat.toUInt64_eq, UInt64.toNat_ofNat']
  omega

theorem Linked.placedAs {s : Session} {parts : List Part} {image : Image} (h : s.Comprises parts)
    (hshapes : ∀ p ∈ parts, p.Shaped) (hlinked : s.Linked image) :
    List.Forall₂ (s.PlacedAs image.base) s.programs.toList image.programs.toList := by
  have hall := (List.forall₂_and_left _ _).2 ⟨fun c (hc : c ∈ s.programs.toList) => hc, hlinked.programs⟩
  refine hall.imp fun c q ⟨hc, hq⟩ => ?_
  obtain ⟨before, p, after, hparts, hp⟩ := h.part_of_program hc
  have hmem : p ∈ parts := by rw [hparts]; simp
  have hentry : s.address image.base (s.entryLabel c.unit) = .ok q.entry := hq.entry
  have hunit : c.unit = p.unit := by rw [hp]
  have hplace := h.placeOf_entry hparts
  rw [hunit, h.entryLabel_eq hmem, h.laid.address_eq (h.entry_mem_binds hmem)] at hentry
  have hmod : s.placeOf p.entry % 16 = 0 := by
    rw [hplace]
    exact endFrom_align_mod _ (by decide)
  have heq : q.entry = image.base + (s.placeOf p.entry).toUInt64 := (Except.ok.inj hentry).symm
  refine ⟨hq.unit, ⟨s.placeOf p.entry, ?_, hmod, heq⟩, fun hbase => ?_, hq.handlers.imp ?_⟩
  · rw [hunit, h.entryLabel_eq hmem]
    exact h.laid.boundAt (h.entry_mem_binds hmem)
  · rw [heq]
    exact toNat_add_mod hbase hmod
  · rintro hd range ⟨first, last, hfirst, hlast, rfl⟩
    obtain ⟨l, hl, hkey, hoff, rfl⟩ := link_of_boundary hfirst
    obtain ⟨l', hl', hkey', hoff', rfl⟩ := link_of_boundary hlast
    exact ⟨_, _, hoff ▸ h.starts_of_link hshapes hl hc hkey,
      hoff' ▸ h.starts_of_link hshapes hl' hc hkey', rfl⟩

theorem Linked.relocates {s : Session} {parts : List Part} {image : Image} (h : s.Comprises parts)
    (hshapes : ∀ p ∈ parts, p.Shaped) (hlinked : s.Linked image) : s.Relocates image where
  laid := h.laid
  size := by
    rw [← Array.length_toList, hlinked.code, finished]
    have := Piece.length_bytesFrom (Piece.displacement s.placeOf)
      (fun l => (Value.ofAddress (image.base + (s.placeOf l).toUInt64)).word) 0 s.pieces.toList
    rw [h.laid.size_eq]
    omega
  jumps hsmall before p after j hpieces hj := by
    have hmem : j ∈ s.asm.jumps.toList := by
      rw [h.laid.jumps, hpieces]
      exact Piece.jump_mem hj
    have hbound := hlinked.jumps j hmem
    obtain ⟨rest, hdrop⟩ := @Piece.drop_jump (Piece.displacement s.placeOf)
      (fun l => (Value.ofAddress (image.base + (s.placeOf l).toUInt64)).word) before after _ _ hj
    rw [← hpieces, ← finished, ← hlinked.code] at hdrop
    refine ⟨s.placeOf j.label, _, rest, h.laid.boundAt hbound,
      by rw [hdrop, X86.readImm32_append], ?_⟩
    have hfield : j.field ∈ s.fields := List.mem_append_left _ (List.mem_map_of_mem hmem)
    have hplace : j.place + 4 ≤ Piece.endFrom 0 s.pieces.toList :=
      (Piece.fieldsFrom_bounds (h.laid.fields_perm.mem_iff.1 hfield)).2
    rw [← h.laid.size_eq] at hplace
    exact displacement_exact hsmall hplace (h.laid.placeOf_le hbound)
  words before p after e hpieces he := by
    have hmem : e ∈ s.addresses.toList := by
      rw [h.laid.sites, hpieces]
      exact Piece.site_mem he
    obtain ⟨rest, hdrop⟩ := @Piece.drop_site (Piece.displacement s.placeOf)
      (fun l => (Value.ofAddress (image.base + (s.placeOf l).toUInt64)).word) before after _ _ he
    rw [← hpieces, ← finished, ← hlinked.code] at hdrop
    exact ⟨s.placeOf e.2, rest, h.laid.boundAt (hlinked.sites e hmem),
      by rw [hdrop, X86.readImm64_append]⟩
  inside f hf := by
    have := Piece.fieldsFrom_bounds (h.laid.fields_perm.mem_iff.1 hf)
    rw [h.laid.size_eq]
    exact this.2
  disjoint :=
    (h.laid.fields_perm.pairwise_iff PatchedField.Apart.symm).2 (Piece.fieldsFrom_pairwise 0 _)
  kept i hi := by
    have hsame := (Piece.bytesFrom_rel (fun _ _ => 0) (Piece.displacement s.placeOf) (fun _ => 0) 0
      s.pieces.toList).trans (Piece.bytesFrom_word (Piece.displacement s.placeOf) (fun _ => 0)
        (fun l => (Value.ofAddress (image.base + (s.placeOf l).toUInt64)).word) 0 s.pieces.toList)
    rw [Piece.bytesFrom_empty, ← h.laid.bytes, ← h.laid.jumps, ← h.laid.sites, ← finished,
      ← hlinked.code] at hsame
    have := hsame.bytes i (by rwa [Nat.zero_add])
    rwa [Array.getElem?_toList, Array.getElem?_toList, eq_comm] at this
  programs := hlinked.placedAs h hshapes

/-- Code placed elsewhere differs in its resume addresses only. -/
theorem Linked.same {s : Session} {image image' : Image} (h : s.Laid) (hlinked : s.Linked image)
    (hlinked' : s.Linked image') :
    image.code.size = image'.code.size ∧
      ∀ i, (∀ e ∈ s.addresses.toList, PatchedField.Misses i (siteField e)) →
        image.code[i]? = image'.code[i]? := by
  have hsame := Piece.bytesFrom_word (Piece.displacement s.placeOf)
    (fun l => (Value.ofAddress (image.base + (s.placeOf l).toUInt64)).word)
    (fun l => (Value.ofAddress (image'.base + (s.placeOf l).toUInt64)).word) 0 s.pieces.toList
  rw [← h.sites, ← finished, ← finished, ← hlinked.code, ← hlinked'.code] at hsame
  refine ⟨hsame.length, fun i hi => ?_⟩
  have := hsame.bytes i fun f hf => by
    obtain ⟨e, he, rfl⟩ := List.mem_map.1 hf
    rw [Nat.zero_add]
    exact hi e he
  rwa [Array.getElem?_toList, Array.getElem?_toList] at this

theorem Compiled.unique {programs : List (List (Option CodeUnit))} {s s' : Session}
    (h : Compiled programs s) (h' : Compiled programs s') : s = s' := by
  induction h generalizing s' with
  | fresh =>
    generalize hp : ([] : List (List (Option CodeUnit))) = ps at h'
    cases h' with
    | fresh => rfl
    | compile => simp at hp
  | @compile programs s t codes before ok ih =>
    generalize hp : programs ++ [codes] = ps at h'
    cases h' with
    | fresh => simp at hp
    | compile before' ok' =>
      obtain ⟨rfl, hcodes⟩ := List.append_inj' hp rfl
      cases hcodes
      obtain rfl := ih before'
      exact (Prod.mk.inj (ok.symm.trans ok')).2

/-- When the programs of a session compiled and it was linked, its image is its buffer, relocated; and
linking a session that compiled the same programs at another place gives the same bytes but for the
words of resume addresses. -/
theorem Compiled.link_relocates {programs : List (List (Option CodeUnit))} {s : Session}
    (h : Compiled programs s) {α : Type} {allocator : α}
    {allocate : α → Int → Except AllocationError UInt64 × α} {image : Image}
    (hlink : (s.link allocator allocate).result = .ok image) :
    (allocate allocator s.size).1 = .ok image.base ∧
      s.programs.toList.map (fun c => some c.unit) = programs.flatten ∧ s.Relocates image ∧
      ∀ {s' : Session} {β : Type} {allocator' : β}
        {allocate' : β → Int → Except AllocationError UInt64 × β} {image' : Image},
        Compiled programs s' → (s'.link allocator' allocate').result = .ok image' →
        image.code.size = image'.code.size ∧
          ∀ i, (∀ e ∈ s.addresses.toList, PatchedField.Misses i (siteField e)) →
            image.code[i]? = image'.code[i]? := by
  obtain ⟨parts, hunits, hcomp, hshapes, -⟩ := h.comprises
  obtain ⟨hbase, hlinked⟩ := hcomp.laid.linked hlink
  refine ⟨hbase, ?_, hlinked.relocates hcomp hshapes, fun h' hlink' => ?_⟩
  · have hprograms : s.programs.toList = Part.programsFrom start.size parts := hcomp.gains.programs
    rw [hunits, hprograms]
    generalize start.size = pos
    clear hunits hcomp hshapes hlinked hprograms
    induction parts generalizing pos with
    | nil => rfl
    | cons p parts ih => rw [Part.programsFrom, List.map_cons, List.map_cons, ih]
  · obtain rfl := h.unique h'
    exact hlinked.same hcomp.laid (hcomp.laid.linked hlink').2

/-- A code with a jump over a region that is left through its final block. -/
def leavingText : Text := Text.ofString
  "function main
  try:
    LOAD_UNDEFINED r0
    IF_FALSE r0, fin
    JUMP_SUBROUTINE r2, r3, fin
    RETURN r0
  fin:
    RETURN_SUBROUTINE r2, r3
    .finally try, fin, jump=r2, flag=r3
  end"

def leavingUnit : CodeUnit :=
  ⟨0, 0, (Listing.parse leavingText).toOption.getD (Code.ofName []), #[]⟩

theorem Compiled.link_relocates_leaving :
    ∃ (s : Session) (image image' : Image), Compiled [[some leavingUnit]] s ∧
      (s.link () fun a _ => (.ok 0x10000, a)).result = .ok image ∧
      (s.link () fun a _ => (.ok 0x20000, a)).result = .ok image' ∧ s.size < 2 ^ 31 ∧
      s.asm.jumps.size = 11 ∧ s.addresses.size = 1 ∧ s.Relocates image ∧
      image.code.size = image'.code.size ∧
      ∀ i, (∀ e ∈ s.addresses.toList, PatchedField.Misses i (siteField e)) →
        image.code[i]? = image'.code[i]? := by
  have hrun : (match start.compile [some leavingUnit] with
      | (.ok _, s) => (s.link () fun a _ => (.ok 0x10000, a)).result.isOk &&
          (s.link () fun a _ => (.ok 0x20000, a)).result.isOk && decide (s.size < 2 ^ 31) &&
          s.asm.jumps.size == 11 && s.addresses.size == 1
      | (.error _, _) => false) = true := by decide +kernel
  cases hcompile : start.compile [some leavingUnit] with
  | mk result s =>
    rw [hcompile] at hrun
    cases result with
    | error i => cases hrun
    | ok u =>
      have hcompiled : Compiled [[some leavingUnit]] s := Compiled.fresh.compile hcompile
      simp only [Bool.and_eq_true, decide_eq_true_eq, beq_iff_eq] at hrun
      obtain ⟨⟨⟨⟨hok, hok'⟩, hsmall⟩, hjumps⟩, haddresses⟩ := hrun
      cases hlink : (s.link () fun a _ => (.ok 0x10000, a)).result with
      | error e => rw [hlink] at hok; cases hok
      | ok image =>
        cases hlink' : (s.link () fun a _ => (.ok 0x20000, a)).result with
        | error e => rw [hlink'] at hok'; cases hok'
        | ok image' =>
          obtain ⟨-, -, hrelocates, hsame⟩ := hcompiled.link_relocates hlink
          exact ⟨s, image, image', hcompiled, hlink, hlink', hsmall, hjumps, haddresses,
            hrelocates, hsame hcompiled hlink'⟩

end Session

end RegisterJit
