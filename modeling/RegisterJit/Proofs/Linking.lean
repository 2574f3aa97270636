import Mathlib.Data.List.TakeWhile
import RegisterJit.Proofs.Compilation
import RegisterJit.Proofs.Finish

/-!
# Linking compiled units

Whatever a compiled unit refers to is bound: the thunk of stubs, its own labels, and its jump targets,
which are all reached because they are boundaries of instructions. So linking resolves every jump, and
every boundary of a handler has been noted. `Part.place` is where a word offset ends up in the code.

A compiled unit is a list of parts, one for each instruction, and `Part.place` gives the place at which the code
for a word offset starts. `boundary` says that every boundary of an instruction has such a place, and
`place_of_mem_linksFrom` that what a jump refers to is one of these. So none of the ways in which a link can
fail over a label or a handler is open, and `publish_eq` computes what is published. `imageAt` is the image that
results. `Program` concludes that texts that are accepted link, and `Sessions` uses the places for codes of any
kind.
-/

namespace RegisterJit

open X86 (Label Assembler)
open RegisterJit.Stream (Boundary Spells placed extent instructionAt)

namespace Block

variable {u : CodeUnit} {jumps : JumpTable} {r : Register} {n : Nat} {is : List Instruction}
  {blocks : List Block}

theorem Run.map_ins (h : Run u jumps r n is blocks) : blocks.map ins = is := by
  induction is generalizing r n blocks with
  | nil => rw [show blocks = [] from h]; rfl
  | cons ins is ih =>
    obtain ⟨b, rest, rfl, hof, hrest⟩ := h
    rw [List.map_cons, ih hrest, hof.instruction]

theorem Run.of_mem (h : Run u jumps r n is blocks) {b : Block} (hb : b ∈ blocks) :
    ∃ r' n', n ≤ n' ∧ Of u jumps r' n' b.ins b := by
  induction is generalizing r n blocks with
  | nil =>
    rw [show blocks = [] from h] at hb
    cases hb
  | cons ins is ih =>
    obtain ⟨b₀, rest, rfl, hof, hrest⟩ := h
    rcases List.mem_cons.1 hb with rfl | hb
    · exact ⟨r, n, Nat.le_refl n, hof.instruction ▸ hof⟩
    · obtain ⟨r', n', hle, hof'⟩ := ih hrest hb
      exact ⟨r', n', Nat.le_trans (Nat.le_add_right ..) hle, hof'⟩

end Block

theorem Part.mem_pieces {p : Part} {b : Block} (hb : b ∈ p.blocks) {q : Piece} (hq : q ∈ b.pieces) :
    q ∈ p.pieces := by
  rw [Part.pieces, Part.front]
  exact List.mem_append_left _ (List.mem_append_right _ (List.mem_flatMap.2 ⟨b, hb, hq⟩))

namespace Part.Built

variable {p : Part} {low : Nat} {ops : List Opcode} (h : p.Built low ops) {b : Block}

include h

theorem map_ins : p.blocks.map Block.ins = Stream.instructions p.unit.code.data := h.run.map_ins

theorem mem_instructions (hb : b ∈ p.blocks) : b.ins ∈ Stream.instructions p.unit.code.data := by
  rw [← h.map_ins]
  exact List.mem_map_of_mem hb

theorem map_offset : p.blocks.map (fun b => b.ins.offset) = (placed 0 ops).map Prod.fst := by
  have hins := h.map_ins
  rw [h.formed.spells.instructions_eq] at hins
  have := congrArg (List.map Instruction.offset) hins
  rw [List.map_map, List.map_map] at this
  exact this

theorem fits (hb : b ∈ p.blocks) {W : Int32 → Prop} (hW : ∀ r, b.ins.Names r → r.Slot W) :
    Emit.Fits W (Block.site p.unit p.jumps b.ins) b.ins :=
  h.formed.fits (h.mem_instructions hb) rfl h.pool h.scanned hW

theorem fits_any (hb : b ∈ p.blocks) :
    Emit.Fits (fun _ => True) (Block.site p.unit p.jumps b.ins) b.ins :=
  h.fits hb fun _ hr =>
    Register.slot_of_ne_invalid (h.formed.ne_invalid (h.mem_instructions hb) hr)

theorem label_lt (hb : b ∈ p.blocks) : ∀ t ∈ p.jumps, t.label < b.base := by
  intro t ht
  obtain ⟨r, n, hle, hof⟩ := h.run.of_mem hb
  rw [hof.base]
  exact Nat.lt_of_lt_of_le (h.scanned.fresh.high t ht) (by omega)

theorem emitted (hb : b ∈ p.blocks) : b.Emitted p.unit p.jumps := by
  obtain ⟨r, n, hle, hof⟩ := h.run.of_mem hb
  exact hof.emitted

theorem target (hb : b ∈ p.blocks) : b.target = p.jumps.find? b.ins.offset.toUInt32 := by
  obtain ⟨r, n, hle, hof⟩ := h.run.of_mem hb
  exact hof.target

theorem toNat_last : p.last.toNat = p.unit.code.data.size := by
  have := h.small
  exact Session.toNat_toUInt32 (by omega)

/-- A boundary is the start of a block or the end. -/
theorem boundary {n : Nat} (hn : Boundary ops n) :
    (∃ b ∈ p.blocks, b.ins.offset = n) ∨ n = p.unit.code.data.size := by
  rcases hn with ⟨op, hop⟩ | rfl
  · have hmem : n ∈ (placed 0 ops).map Prod.fst := List.mem_map_of_mem hop
    rw [← h.map_offset, List.mem_map] at hmem
    exact .inl hmem
  · exact .inr h.formed.spells.size.symm

theorem label_mem_binds {t : JumpTarget} (ht : t ∈ p.jumps) : t.label ∈ Piece.binds p.pieces := by
  have hfind := h.scanned.fresh.find? ht
  rw [Piece.mem_binds]
  rcases h.boundary (h.scanned.boundary t ht) with ⟨b, hb, hoff⟩ | hoff
  · have htarget : b.target = some t := by
      rw [h.target hb, hoff, Nat.toUInt32_eq, UInt32.ofNat_toNat, hfind]
    exact Part.mem_pieces hb (List.mem_append_left _ (Session.mem_lead.2 ⟨t, htarget, rfl⟩))
  · have hlast : p.last = t.offset := UInt32.toNat_inj.1 (h.toNat_last.trans hoff.symm)
    refine List.mem_append_right _ (List.mem_append_left _ (Session.mem_lead.2 ⟨t, ?_, rfl⟩))
    rw [hlast, hfind]

theorem target_mem_binds {l : Nat} (hl : l ∈ Piece.targets p.pieces) :
    l = Session.stubThunk ∨ l ∈ Piece.binds p.pieces := by
  rw [Piece.targets, List.mem_filterMap] at hl
  obtain ⟨q, hq, hql⟩ := hl
  rw [Part.pieces, Part.front, List.append_assoc, List.mem_append, List.mem_append] at hq
  rcases hq with hq | hq | hq
  · simp only [Part.prologue, List.mem_cons, List.not_mem_nil, or_false] at hq
    rcases hq with rfl | rfl | rfl <;> cases hql
  · obtain ⟨b, hb, hq⟩ := List.mem_flatMap.1 hq
    rcases List.mem_append.1 hq with hq | hq
    · obtain ⟨t, -, rfl⟩ := Session.mem_lead.1 hq
      cases hql
    · have hmem : l ∈ Piece.targets b.body := List.mem_filterMap.2 ⟨q, hq, hql⟩
      rcases (h.emitted hb).targets (h.fits_any hb) (h.label_lt hb) hmem with hl | ⟨t, ht, rfl⟩ | hl
      · exact .inl hl
      · exact .inr (h.label_mem_binds ht)
      · refine .inr (Piece.mem_binds.2 (Part.mem_pieces hb (List.mem_append_right _ ?_)))
        exact Piece.mem_binds.1 hl
  · rcases List.mem_append.1 hq with hq | hq
    · obtain ⟨t, -, rfl⟩ := Session.mem_lead.1 hq
      cases hql
    · obtain ⟨i, hi, rfl⟩ := List.mem_map.1 hq
      cases hql

end Part.Built

/-! ## Places of offsets -/

namespace Stream

theorem pairwise_placed (pos : Nat) (ops : List Opcode) :
    ((placed pos ops).map Prod.fst).Pairwise (· < ·) := by
  induction ops generalizing pos with
  | nil => exact List.Pairwise.nil
  | cons op ops ih =>
    rw [placed, List.map_cons, List.pairwise_cons]
    refine ⟨fun n hn => ?_, ih _⟩
    obtain ⟨⟨s, op'⟩, hmem, rfl⟩ := List.mem_map.1 hn
    have := (bounds_of_mem_placed hmem).1
    have := op.length_pos
    omega

end Stream

theorem Session.mem_linkAt {key place : Nat} {offset : UInt32} {target : Option JumpTarget}
    {link : HandlerLink} :
    link ∈ Session.linkAt key offset place target ↔
      (∃ t, target = some t ∧ t.handled = true) ∧ link = ⟨key, offset, place⟩ := by
  cases target with
  | none => simp [linkAt]
  | some t => by_cases ht : t.handled = true <;> simp [linkAt, ht]

namespace Block

variable {u : CodeUnit} {blocks : List Block}

/-- The links in blocks are at the places of their offsets. -/
theorem place_of_mem_linksFrom (hsorted : (blocks.map fun b => b.ins.offset).Pairwise (· < ·))
    (hsmall : ∀ b ∈ blocks, b.ins.offset < 2 ^ 32) {pos : Nat} {link : HandlerLink}
    (hl : link ∈ linksFrom u pos blocks) :
    link.key = u.key ∧ (∃ b ∈ blocks, link.offset.toNat = b.ins.offset) ∧
      link.place =
        Piece.endFrom pos (code (blocks.takeWhile fun b => b.ins.offset < link.offset.toNat)) := by
  induction blocks generalizing pos with
  | nil => cases hl
  | cons b rest ih =>
    rw [List.map_cons, List.pairwise_cons] at hsorted
    rw [linksFrom, List.mem_append] at hl
    rcases hl with hl | hl
    · obtain ⟨-, rfl⟩ := Session.mem_linkAt.1 hl
      have hoff : b.ins.offset.toUInt32.toNat = b.ins.offset :=
        Session.toNat_toUInt32 (hsmall b (List.mem_cons_self ..))
      refine ⟨rfl, ⟨b, List.mem_cons_self .., hoff⟩, ?_⟩
      rw [List.takeWhile_cons_of_neg (by rw [hoff]; simp)]
      rfl
    · obtain ⟨hkey, ⟨b', hb', hoff⟩, hplace⟩ := ih hsorted.2
        (fun b' hb' => hsmall b' (List.mem_cons_of_mem _ hb')) hl
      have hlt : b.ins.offset < b'.ins.offset := hsorted.1 _ (List.mem_map_of_mem hb')
      refine ⟨hkey, ⟨b', List.mem_cons_of_mem _ hb', hoff⟩, ?_⟩
      rw [List.takeWhile_cons_of_pos (by rw [hoff]; simpa using hlt), hplace, code, code,
        List.flatMap_cons, Piece.endFrom_append]

theorem exists_link {b : Block} (hb : b ∈ blocks) {t : JumpTarget} (ht : b.target = some t)
    (hh : t.handled = true) (pos : Nat) :
    ∃ link ∈ linksFrom u pos blocks, link.offset = b.ins.offset.toUInt32 := by
  induction blocks generalizing pos with
  | nil => cases hb
  | cons b₀ rest ih =>
    rw [linksFrom]
    rcases List.mem_cons.1 hb with rfl | hb
    · exact ⟨_, List.mem_append_left _ (Session.mem_linkAt.2 ⟨⟨t, ht, hh⟩, rfl⟩), rfl⟩
    · obtain ⟨link, hl, hoff⟩ := ih hb (Piece.endFrom pos b₀.pieces)
      exact ⟨link, List.mem_append_right _ hl, hoff⟩

end Block

/-- The place of a word offset in a unit that starts at byte `pos`. -/
def Part.place (pos : Nat) (p : Part) (n : Nat) : Nat :=
  Piece.endFrom pos
    (p.prologue ++ Block.code (p.blocks.takeWhile fun b => b.ins.offset < n))

namespace Part.Built

variable {p : Part} {low : Nat} {ops : List Opcode} (h : p.Built low ops) {pos : Nat}

include h

theorem offset_lt {b : Block} (hb : b ∈ p.blocks) : b.ins.offset < p.unit.code.data.size := by
  have hmem : b.ins.offset ∈ p.blocks.map fun b => b.ins.offset := List.mem_map_of_mem hb
  rw [h.map_offset] at hmem
  obtain ⟨⟨s, op⟩, hp, heq⟩ := List.mem_map.1 hmem
  have := h.formed.spells.fits hp
  have := op.length_pos
  change s = b.ins.offset at heq
  omega

theorem sorted : (p.blocks.map fun b => b.ins.offset).Pairwise (· < ·) := by
  rw [h.map_offset]
  exact Stream.pairwise_placed 0 ops

theorem place_of_mem_linksAt {link : HandlerLink} (hl : link ∈ p.linksAt pos) :
    link.key = p.unit.key ∧ link.place = p.place pos link.offset.toNat := by
  have hsmall := h.small
  rcases List.mem_append.1 hl with hl | hl
  · obtain ⟨hkey, -, hplace⟩ := Block.place_of_mem_linksFrom h.sorted
      (fun b hb => by have := h.offset_lt hb; omega) hl
    exact ⟨hkey, by rw [hplace, Part.place, Piece.endFrom_append]⟩
  · obtain ⟨-, rfl⟩ := Session.mem_linkAt.1 hl
    refine ⟨rfl, ?_⟩
    have hall : p.blocks.takeWhile (fun b => b.ins.offset < p.last.toNat) = p.blocks := by
      rw [List.takeWhile_eq_self_iff, h.toNat_last]
      exact fun b hb => by simpa using h.offset_lt hb
    rw [Part.place, hall]
    rfl

theorem exists_link {offset : UInt32} {t : JumpTarget} (ht : p.jumps.find? offset = some t)
    (hh : t.handled = true) (pos : Nat) : ∃ link ∈ p.linksAt pos, link.offset = offset := by
  obtain ⟨hmem, rfl⟩ := JumpTable.mem_of_find? ht
  rcases h.boundary (h.scanned.boundary t hmem) with ⟨b, hb, hoff⟩ | hoff
  · have hoff' : b.ins.offset.toUInt32 = t.offset := by
      rw [hoff, Nat.toUInt32_eq, UInt32.ofNat_toNat]
    obtain ⟨link, hl, heq⟩ := Block.exists_link (u := p.unit) hb
      (by rw [h.target hb, hoff', ht]) hh (Piece.endFrom pos p.prologue)
    exact ⟨link, List.mem_append_left _ hl, heq.trans hoff'⟩
  · have hlast : p.last = t.offset := UInt32.toNat_inj.1 (h.toNat_last.trans hoff.symm)
    rw [← hlast] at ht ⊢
    exact ⟨_, List.mem_append_right _ (Session.mem_linkAt.2 ⟨⟨t, ht, hh⟩, rfl⟩), rfl⟩

end Part.Built

namespace Part

theorem mem_linksFrom {pos : Nat} {parts : List Part} {link : HandlerLink} :
    link ∈ linksFrom pos parts ↔ ∃ before p after, parts = before ++ p :: after ∧
      link ∈ p.linksAt (Piece.endFrom pos (code before)) := by
  induction parts generalizing pos with
  | nil => simp [linksFrom]
  | cons p₀ parts ih =>
    rw [linksFrom, List.mem_append, ih]
    constructor
    · rintro (hl | ⟨before, p, after, rfl, hl⟩)
      · exact ⟨[], p₀, parts, rfl, hl⟩
      · refine ⟨p₀ :: before, p, after, rfl, ?_⟩
        rwa [code, List.flatMap_cons, Piece.endFrom_append]
    · rintro ⟨_ | ⟨p₁, before⟩, p, after, heq, hl⟩
      · cases heq
        exact .inl hl
      · cases heq
        refine .inr ⟨before, p, after, rfl, ?_⟩
        rwa [code, List.flatMap_cons, Piece.endFrom_append] at hl

theorem Chain.built {low : Nat} {parts : List Part} (h : Chain low parts) {p : Part}
    (hp : p ∈ parts) : ∃ low ops, p.Built low ops := by
  induction parts generalizing low with
  | nil => cases hp
  | cons p₀ parts ih =>
    rcases List.mem_cons.1 hp with rfl | hp
    · exact ⟨low, h.1⟩
    · exact ih h.2 hp

end Part

/-! ## Placed code -/

namespace Part

/-- The native range of a handler of a unit that starts at byte `pos` of code placed at `base`. -/
def range (base : UInt64) (pos : Nat) (p : Part) (h : Handler) : UInt64 × UInt64 :=
  (base + (p.place pos h.start.toNat).toUInt64, base + (p.place pos h.stop.toNat).toUInt64)

/-- A unit that starts at byte `pos` of code placed at `base`. -/
def publishedAt (base : UInt64) (pos : Nat) (p : Part) : PlacedUnit :=
  ⟨p.unit, base + (Piece.endFrom pos [.align 16]).toUInt64,
    base + (Piece.endFrom pos p.pieces).toUInt64,
    (p.unit.code.handlers.toList.map (p.range base pos)).toArray⟩

/-- Units that start at byte `pos` of code placed at `base`. -/
def publishedFrom (base : UInt64) (pos : Nat) : List Part → List PlacedUnit
  | [] => []
  | p :: rest => p.publishedAt base pos :: publishedFrom base (Piece.endFrom pos p.pieces) rest

end Part

namespace Piece

theorem placeFrom_bind {l : Nat} {ps qs : List Piece} (h : (binds (ps ++ .bind l :: qs)).Nodup)
    (pos : Nat) : placeFrom l pos (ps ++ .bind l :: qs) = some (endFrom pos ps) := by
  have hnot : l ∉ binds ps := by
    rw [binds_append, binds_bind, List.nodup_append] at h
    exact fun hl => h.2.2 l hl l (List.mem_cons_self ..) rfl
  rw [placeFrom_append, placeFrom_eq_none_iff.2 hnot, placeFrom]
  simp [bound?]

end Piece

namespace Session

variable {s : Session} {parts : List Part}

/-- The byte at which a unit starts that is compiled after those of `before`. -/
def origin (before : List Part) : Nat := Piece.endFrom start.size (Part.code before)

theorem origin_eq (before : List Part) :
    origin before = Piece.endFrom 0 (thunkPieces ++ Part.code before) := by
  rw [origin, Piece.endFrom_append]
  exact congrArg (Piece.endFrom · _) start_laid.size_eq

theorem origin_snoc (before : List Part) (p : Part) :
    origin (before ++ [p]) = Piece.endFrom (origin before) p.pieces := by
  rw [origin, Part.code_append, Piece.endFrom_append]
  exact congrArg _ (List.flatMap_singleton ..)

def placeOf (s : Session) (l : Label) : Nat := (Piece.placeFrom l 0 s.pieces.toList).getD 0

theorem Laid.place?_eq (h : s.Laid) {l : Nat} (hl : l ∈ s.binds) :
    s.asm.place? l = some (s.placeOf l) := by
  obtain ⟨place, hp⟩ := Piece.exists_placeFrom 0 hl
  rw [h.labels, placeOf, hp]
  rfl

theorem Laid.address_eq (h : s.Laid) {l : Nat} (hl : l ∈ s.binds) (base : UInt64) :
    s.address base l = .ok (base + (s.placeOf l).toUInt64) := by
  have hp := h.place?_eq hl
  have hget : s.asm.labels[l]? = some (some (s.placeOf l)) := by
    rw [Assembler.place?, Array.getD_eq_getD_getElem?] at hp
    cases hg : s.asm.labels[l]? with
    | none => rw [hg] at hp; cases hp
    | some place => rw [hg] at hp; rw [show place = _ from hp]
  rw [address, Assembler.labelOffset, hget]

theorem Laid.placeOf_eq (h : s.Laid) {l : Nat} {ps qs : List Piece}
    (hp : s.pieces.toList = ps ++ .bind l :: qs) : s.placeOf l = Piece.endFrom 0 ps := by
  have hnodup := h.nodup
  rw [binds, hp] at hnodup
  rw [placeOf, hp, Piece.placeFrom_bind hnodup]
  rfl

namespace Comprises

variable (h : s.Comprises parts)

include h

theorem pieces : s.pieces.toList = thunkPieces ++ Part.code parts := h.gains.pieces

theorem eq_of_key {p p' : Part} (hp : p ∈ parts) (hp' : p' ∈ parts)
    (hkey : p'.unit.key = p.unit.key) : p' = p :=
  List.inj_on_of_nodup_map h.keys hp' hp hkey

theorem before_unique {before before' after after' : List Part} {p : Part}
    (hparts : parts = before ++ p :: after) (hparts' : parts = before' ++ p :: after') :
    before = before' := by
  have hnodup : parts.Nodup := List.Nodup.of_map _ h.keys
  rw [hparts, List.nodup_append, List.nodup_cons] at hnodup
  rw [hparts'] at hparts
  refine ((List.append_cons_inj_of_notMem ?_ hnodup.2.1.1).1 hparts.symm).1
  exact fun hp => hnodup.2.2 p hp p (List.mem_cons_self ..) rfl

theorem links : s.handlerLinks = (Part.linksFrom start.size parts).reverse := by
  rw [h.gains.links]
  exact List.append_nil _

theorem entryLabel_eq {p : Part} (hp : p ∈ parts) : s.entryLabel p.unit = p.entry := by
  have hentries : s.entries = (parts.map fun p => (p.unit.key, p.entry)).reverse := by
    rw [h.gains.entries]
    exact List.append_nil _
  have hfind : s.entries.find? (fun e => e.1 == p.unit.key) = some (p.unit.key, p.entry) := by
    cases hf : s.entries.find? (fun e => e.1 == p.unit.key) with
    | none =>
      have hmem : (p.unit.key, p.entry) ∈ s.entries := by
        rw [hentries, List.mem_reverse]
        exact List.mem_map.2 ⟨p, hp, rfl⟩
      simpa using List.find?_eq_none.1 hf _ hmem
    | some e =>
      have hmem := List.mem_of_find?_eq_some hf
      rw [hentries, List.mem_reverse] at hmem
      obtain ⟨p', hp', rfl⟩ := List.mem_map.1 hmem
      have hkey : p'.unit.key = p.unit.key := by simpa using List.find?_some hf
      rw [h.eq_of_key hp hp' hkey]
  rw [entryLabel, hfind]

theorem pieces_entry {before after : List Part} {p : Part} (hparts : parts = before ++ p :: after) :
    s.pieces.toList = (thunkPieces ++ Part.code before ++ [.align 16]) ++
      .bind p.entry :: (.instr (.push frameReg) :: (Block.code p.blocks ++ p.ending) ++
        Part.code after) := by
  rw [h.pieces, hparts, Part.code_append]
  simp [Part.code, Part.pieces, Part.front, Part.prologue]

theorem entry_mem_binds {p : Part} (hp : p ∈ parts) : p.entry ∈ s.binds := by
  obtain ⟨before, after, hparts⟩ := List.append_of_mem hp
  rw [binds, Piece.mem_binds, h.pieces_entry hparts]
  simp

theorem placeOf_entry {before after : List Part} {p : Part} (hparts : parts = before ++ p :: after) :
    s.placeOf p.entry = Piece.endFrom (origin before) [.align 16] := by
  rw [h.laid.placeOf_eq (h.pieces_entry hparts), Piece.endFrom_append, ← origin_eq]

end Comprises

namespace Holds

variable (h : s.Holds parts)

include h

theorem target_mem_binds {l : Nat} (hl : l ∈ Piece.targets s.pieces.toList) : l ∈ s.binds := by
  rw [binds, h.pieces, Piece.binds_append, List.mem_append]
  rw [h.pieces, Piece.targets_append, List.mem_append] at hl
  rcases hl with hl | hl
  · have hnone : Piece.targets thunkPieces = [] := by decide +kernel
    rw [hnone] at hl
    cases hl
  · obtain ⟨q, hq, hql⟩ := List.mem_filterMap.1 hl
    obtain ⟨p, hp, hq⟩ := List.mem_flatMap.1 hq
    obtain ⟨low, ops, hbuilt⟩ := h.chain.built hp
    rcases hbuilt.target_mem_binds (List.mem_filterMap.2 ⟨q, hq, hql⟩) with rfl | hmem
    · left
      decide +kernel
    · right
      rw [Piece.mem_binds] at hmem ⊢
      exact List.mem_flatMap.2 ⟨p, hp, hmem⟩

theorem boundary_eq {before after : List Part} {p : Part} (hparts : parts = before ++ p :: after)
    {offset : UInt32} {t : JumpTarget} (ht : p.jumps.find? offset = some t) (hh : t.handled = true)
    (isStart : Bool) :
    s.boundary p.unit isStart offset =
      .ok (p.place (origin before) offset.toNat) := by
  have hp : p ∈ parts := by rw [hparts]; simp
  obtain ⟨low, ops, hbuilt⟩ := h.chain.built hp
  rw [boundary]
  cases hf : s.handlerLinks.find? fun l => l.key == p.unit.key && l.offset == offset with
  | none =>
    obtain ⟨link, hl, hoff⟩ :=
      hbuilt.exists_link ht hh (origin before)
    have hmem : link ∈ s.handlerLinks := by
      rw [h.links, List.mem_reverse, Part.mem_linksFrom]
      exact ⟨before, p, after, hparts, hl⟩
    have := List.find?_eq_none.1 hf link hmem
    simp [hoff, (hbuilt.place_of_mem_linksAt hl).1] at this
  | some link =>
    have hmem := List.mem_of_find?_eq_some hf
    have hpred := List.find?_some hf
    simp only [Bool.and_eq_true, beq_iff_eq] at hpred
    rw [h.links, List.mem_reverse, Part.mem_linksFrom] at hmem
    obtain ⟨before', p', after', hparts', hl⟩ := hmem
    have hp' : p' ∈ parts := by rw [hparts']; simp
    obtain ⟨low', ops', hbuilt'⟩ := h.chain.built hp'
    obtain ⟨hkey, hplace⟩ := hbuilt'.place_of_mem_linksAt hl
    obtain rfl := h.eq_of_key hp hp' (hkey.symm.trans hpred.1)
    obtain rfl := h.before_unique hparts hparts'
    rw [← hpred.2]
    exact congrArg Except.ok hplace

theorem handlerRanges_eq {before after : List Part} {p : Part}
    (hparts : parts = before ++ p :: after) (base : UInt64) (hs : List Handler)
    (hhs : ∀ hd ∈ hs, hd ∈ p.unit.code.handlers) (ranges : Array (UInt64 × UInt64)) :
    s.handlerRanges base p.unit hs ranges =
      (.ok (), ranges ++ (hs.map (p.range base (origin before))).toArray) := by
  induction hs generalizing ranges with
  | nil => simp [handlerRanges]
  | cons hd hs ih =>
    obtain ⟨low, ops, hbuilt⟩ := h.chain.built (p := p) (by rw [hparts]; simp)
    obtain ⟨t, t', ht, hth, ht', hth'⟩ :=
      hbuilt.scanned.handlers hd (hhs hd (List.mem_cons_self ..))
    rw [handlerRanges, h.boundary_eq hparts ht hth, h.boundary_eq hparts ht' hth']
    dsimp only
    rw [ih fun hd' hmem => hhs hd' (List.mem_cons_of_mem _ hmem)]
    simp [Part.range]

/-- All units are published. -/
theorem publish_eq (base : UInt64) {before after : List Part} (hparts : parts = before ++ after)
    (placed : Array PlacedUnit) :
    s.publish base
        (Part.programsFrom (origin before) after) placed =
      (.ok (), placed ++ (Part.publishedFrom base
        (origin before) after).toArray) := by
  induction after generalizing before placed with
  | nil => simp [Part.programsFrom, Part.publishedFrom, publish]
  | cons p after ih =>
    have hp : p ∈ parts := by rw [hparts]; simp
    have hrest := @ih (before ++ [p]) (by rw [hparts]; simp)
    rw [origin_snoc] at hrest
    have hranges := h.handlerRanges_eq hparts base p.unit.code.handlers.toList
      (fun hd hmem => Array.mem_toList_iff.1 hmem) #[]
    rw [Part.programsFrom, publish, h.entryLabel_eq hp,
      h.laid.address_eq (h.entry_mem_binds hp) base, h.placeOf_entry hparts, hranges]
    dsimp only
    rw [hrest, Part.publishedFrom, Part.publishedAt]
    simp

end Holds

/-- The code of a session placed at `base`. -/
def finished (s : Session) (base : UInt64) : List UInt8 :=
  Piece.bytesFrom (Piece.displacement s.placeOf)
    (fun l => (Value.ofAddress (base + (s.placeOf l).toUInt64)).word) 0 s.pieces.toList

def resolved (s : Session) : List UInt8 :=
  Piece.bytesFrom (Piece.displacement s.placeOf) (fun _ => 0) 0 s.pieces.toList

theorem Laid.bytes_eq (h : s.Laid) :
    s.asm.bytes = (Piece.bytesFrom (fun _ _ => 0) (fun _ => 0) 0 s.pieces.toList).toArray := by
  rw [Piece.bytesFrom_empty, ← h.bytes, Array.toArray_toList]

theorem Laid.length_resolved (h : s.Laid) : s.resolved.length = s.size := by
  have := Piece.length_bytesFrom (Piece.displacement s.placeOf) (fun _ => 0) 0 s.pieces.toList
  rwa [← h.size_eq, Nat.zero_add] at this

theorem Laid.resolve_eq (h : s.Laid) (hbound : ∀ j ∈ s.asm.jumps.toList, j.label ∈ s.binds) :
    s.asm.resolve = .ok s.resolved.toArray := by
  have hjumps : ∀ j ∈ Piece.jumpsFrom 0 s.pieces.toList,
      s.asm.place? j.label = some (s.placeOf j.label) := fun j hj =>
    h.place?_eq (hbound j (by rwa [h.jumps]))
  have hresolve := @Piece.resolveJumps_ok s.asm (fun _ => 0) s.placeOf _ _ hjumps [] rfl
  rwa [← h.jumps, List.nil_append, List.nil_append, ← h.bytes_eq] at hresolve

theorem Laid.fillAddresses_eq (h : s.Laid) (hbound : ∀ e ∈ s.addresses.toList, e.2 ∈ s.binds)
    (base : UInt64) :
    s.fillAddresses base s.addresses.toList s.resolved.toArray = .ok (s.finished base).toArray := by
  have hsites : ∀ e ∈ Piece.sitesFrom 0 s.pieces.toList,
      s.address base e.2 = .ok (base + (s.placeOf e.2).toUInt64) := fun e he =>
    h.address_eq (hbound e (by rwa [h.sites])) base
  have hfill := @fillAddresses_ok s base (Piece.displacement s.placeOf) s.placeOf _ _ hsites [] rfl
  rwa [← h.sites, List.nil_append, List.nil_append] at hfill

/-- The image of the units of a session placed at `base`. -/
def imageAt (s : Session) (parts : List Part) (base : UInt64) : Image where
  base := base
  code := (s.finished base).toArray
  entryThunk := base + (s.placeOf entryThunk).toUInt64
  stubThunk := base + (s.placeOf stubThunk).toUInt64
  returnSite := base + (s.placeOf returnSite).toUInt64
  programs := (Part.publishedFrom base start.size parts).toArray

theorem Comprises.mark (h : s.Comprises parts) : Comprises { s with linked := true } parts :=
  ⟨h.laid.congr rfl rfl rfl, ⟨h.gains.pieces, h.gains.spans, h.gains.links, h.gains.entries,
    h.gains.programs⟩, h.keys⟩

theorem Holds.mark (h : s.Holds parts) : Holds { s with linked := true } parts :=
  ⟨h.toComprises.mark, h.chain⟩

theorem Holds.place_eq (h : s.Holds parts) (base : UInt64) :
    s.place base s.resolved.toArray =
      (.ok (s.imageAt parts base), (Part.publishedFrom base start.size parts).toArray) := by
  have hfill := h.laid.fillAddresses_eq (fun e he => h.target_mem_binds
    (Piece.label_mem_targets_of_mem_sitesFrom (by rwa [← h.laid.sites]))) base
  have hpublish := @publish_eq _ _ h base [] parts rfl #[]
  have hthunk (l : Nat) (hl : l ∈ Piece.binds thunkPieces) :
      s.address base l = .ok (base + (s.placeOf l).toUInt64) := by
    refine h.laid.address_eq ?_ base
    rw [binds, h.pieces, Piece.binds_append]
    exact List.mem_append_left _ hl
  have hprograms : s.programs.toList = Part.programsFrom start.size parts := by
    rw [h.gains.programs]
    rfl
  simp only [place, hthunk entryThunk (by decide +kernel), hthunk stubThunk (by decide +kernel),
    hthunk returnSite (by decide +kernel), hfill, hprograms]
  dsimp only [bind, Except.bind, pure, Except.pure]
  rw [show s.publish base (Part.programsFrom start.size parts) #[] = _ from hpublish]
  rw [Array.empty_append]
  rfl

theorem Holds.link_eq (h : s.Holds parts) (hlinked : s.linked = false) {α : Type} (allocator : α)
    (allocate : α → Int → Except AllocationError UInt64 × α) {base : UInt64}
    (hbase : (allocate allocator s.size).1 = .ok base) :
    (s.link allocator allocate).result = .ok (s.imageAt parts base) := by
  have hresolve := h.laid.resolve_eq fun j hj => h.target_mem_binds
    (Piece.label_mem_targets_of_mem_jumpsFrom (by rwa [← h.laid.jumps]))
  have hsize : s.resolved.toArray.size = s.size := h.laid.length_resolved
  rw [link, if_neg (by rw [hlinked]; exact Bool.false_ne_true), hresolve]
  dsimp only
  rw [hsize]
  cases hallocate : allocate allocator s.size with
  | mk result allocator' =>
    rw [hallocate] at hbase
    obtain rfl : result = .ok base := hbase
    have hplace := h.mark.place_eq base
    dsimp only at hplace ⊢
    rw [show s.resolved = resolved { s with linked := true } from rfl, hplace]
    rfl

end Session

end RegisterJit
