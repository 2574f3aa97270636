import RegisterJit.Proofs.Coverage

/-!
# The code of an instruction

Where an instruction of a unit is in the symbolic code of a session: its span holds what its emitter wrote,
labels of jump targets stand where the code for their offsets starts, and the end of the code is where
the code for the next offset starts.

`Translates` relates an instruction of a unit to the span that the session recorded for it, and `Stands`
describes the code there: which block it is, the pieces before and after it, and the places at which it starts
and ends. `starts_at` and `starts_of_target` turn offsets of instructions and of jump targets into places of the
symbolic code, so that following a jump arrives at the code of the target. Everything that is said about what an
instruction does at run time begins with `Stands` and follows the body of its block (`Proceeding`).
-/

namespace RegisterJit

open X86 (Reg Instr Label)

/-! ## Instructions in a row -/

namespace Stream

/-- Instructions follow one another without gaps, and the last one of a stream without a fault ends with
it. -/
theorem readFrom_next {data : Array Word} (pos : Nat) (hwhole : (readFrom data pos).2 = none)
    (hpos : pos ≤ data.size) :
    (((readFrom data pos).1[0]?).map Instruction.offset).getD data.size = pos ∧
      ∀ k ins, (readFrom data pos).1[k]? = some ins →
        ((((readFrom data pos).1[k + 1]?).map Instruction.offset).getD data.size) = ins.next := by
  induction pos using readFrom.induct data with
  | case1 pos hlt fault hread =>
    rw [readFrom, dif_pos hlt, hread] at hwhole
    cases hwhole
  | case2 pos hlt ins hread ih =>
    have hins : ins.offset = pos ∧ ins.next ≤ data.size := by
      unfold readOne at hread
      dsimp only at hread
      split at hread
      · cases hread
      · split at hread
        · cases hread
        · rename_i hfits
          cases hread
          exact ⟨rfl, Nat.le_of_not_lt hfits⟩
    have hnext : ins.next = pos + ins.opcode.length := by rw [Instruction.next, hins.1]
    rw [readFrom, dif_pos hlt, hread] at hwhole ⊢
    obtain ⟨hfirst, hrest⟩ := ih hwhole (hnext ▸ hins.2)
    refine ⟨hins.1, fun k i hk => ?_⟩
    cases k with
    | zero =>
      cases hk
      rw [hnext]
      exact hfirst
    | succ k => exact hrest k i hk
  | case3 pos hlt =>
    rw [readFrom, dif_neg hlt]
    exact ⟨Nat.le_antisymm (Nat.le_of_not_lt hlt) hpos, fun k i hk => by cases hk⟩

end Stream

namespace Part

variable {p : Part}

theorem Shaped.offsetAt_succ (h : p.Shaped) {k : Nat} {b : Block} (hb : p.blocks[k]? = some b) :
    p.offsetAt (k + 1) = b.ins.next := by
  have hins : (Stream.instructions p.unit.code.data)[k]? = some b.ins := by
    rw [← h.blocks, List.getElem?_map, hb]
    rfl
  have hnext := (Stream.readFrom_next 0 h.whole (Nat.zero_le _)).2 k b.ins hins
  change ((((Stream.instructions p.unit.code.data)[k + 1]?).map Instruction.offset).getD _) = _ at hnext
  rw [← h.blocks, List.getElem?_map, Option.map_map] at hnext
  exact hnext

end Part

namespace Session

variable {s : Session} {parts : List Part} {image : Image}

/-! ## Places of boundaries -/

namespace Comprises

variable (h : s.Comprises parts)

include h

/-- The end of the code of a unit starts where its last block ends. -/
theorem starts_at (hshapes : ∀ p ∈ parts, p.Shaped) {before after : List Part} {p : Part}
    (hparts : parts = before ++ p :: after) (hsmall : p.unit.code.data.size < 2 ^ 32) {k : Nat}
    (hk : k ≤ p.blocks.length) :
    s.Starts ⟨p.unit, Piece.endFrom start.size (Part.code (before ++ [p]))⟩ (p.offsetAt k).toUInt32
      (placeAt before p k) := by
  have hp : p ∈ parts := by rw [hparts]; simp
  have hshaped := hshapes p hp
  have hbound (i : Nat) (hi : i ≤ p.blocks.length) : p.offsetAt i < 2 ^ 32 := by
    have hle : p.offsetAt i ≤ p.offsetAt p.blocks.length :=
      (hshaped.offsetAt_le_iff hi (Nat.le_refl _)).2 hi
    rw [Part.offsetAt_length] at hle
    omega
  -- An offset belongs to one boundary only.
  have hunique {i : Nat} (hi : i ≤ p.blocks.length)
      (heq : (p.offsetAt i).toUInt32 = (p.offsetAt k).toUInt32) : i = k := by
    have hoffset := congrArg UInt32.toNat heq
    rw [toNat_toUInt32 (hbound i hi), toNat_toUInt32 (hbound k hk)] at hoffset
    exact Nat.le_antisymm ((hshaped.offsetAt_le_iff hi hk).1 (Nat.le_of_eq hoffset))
      ((hshaped.offsetAt_le_iff hk hi).1 (Nat.le_of_eq hoffset.symm))
  refine ⟨fun span hspan hkey hoffset => ?_, ?_⟩
  · obtain ⟨before', p', after', i, hparts', hi, hkey', hoffset', hstart, -⟩ := h.index_of_span hspan
    obtain rfl : p = p' := h.eq_of_key (by rw [hparts']; simp) hp (hkey.symm.trans hkey')
    obtain rfl := h.before_unique hparts hparts'
    rw [hstart, hunique (Nat.le_of_lt hi) (hoffset'.symm.trans hoffset)]
  rcases Nat.lt_or_eq_of_le hk with hlt | rfl
  · have hb : p.blocks[k]? = some p.blocks[k] := List.getElem?_eq_getElem hlt
    have hspans : s.spans.toList = Part.spansFrom start.pieces.size parts := h.gains.spans
    have hspan := Block.mem_spansFrom (u := p.unit)
      (i := start.pieces.size + (Part.code before).length + p.prologue.length).2
      ⟨p.blocks.take k, p.blocks[k], p.blocks.drop (k + 1),
        show p.blocks = p.blocks.take k ++ p.blocks[k] :: p.blocks.drop (k + 1) by simp, rfl⟩
    have hmem := Part.mem_spansFrom (i := start.pieces.size).2 ⟨before, p, after, hparts, hspan⟩
    rw [← hspans] at hmem
    exact .inl ⟨_, hmem, rfl, by rw [Part.offsetAt_of_lt hb]; rfl⟩
  · -- The label at the end, if there is one, takes no place.
    let front := leading before p p.blocks ++ JumpTarget.lead (p.jumps.find? p.last)
    have hfront : s.pieces.toList = front ++ (epilogueCode.map .instr ++ Part.code after) := by
      rw [h.pieces_ending hparts, List.append_assoc]
    have hlead (pos : Nat) : Piece.endFrom pos (JumpTarget.lead (p.jumps.find? p.last)) = pos := by
      cases p.jumps.find? p.last <;> rfl
    refine .inr ⟨by rw [Part.offsetAt_length], front.length, ?_, ?_, ?_⟩
    · rw [byteOf, hfront, List.take_left, Piece.endFrom_append, hlead, placeAt, List.take_length]
    · rw [hfront, List.drop_left, List.take_left' (List.length_map _)]
    · have htake : s.pieces.toList.take (front.length + epilogueCode.length) =
          thunkPieces ++ Part.code (before ++ [p]) := by
        rw [hfront, ← List.append_assoc, List.take_left' (by rw [List.length_append, List.length_map])]
        simp [front, leading, Part.code, Part.pieces, Part.front, Part.ending]
      rw [byteOf, htake, ← origin_eq]
      rfl

/-- A label of a jump target stands where the code for its offset starts. -/
theorem starts_of_target (hshapes : ∀ p ∈ parts, p.Shaped) {high : Nat}
    (hranked : Part.Ranked start.asm.labels.size parts high) {before after : List Part} {p : Part}
    (hparts : parts = before ++ p :: after) (hsmall : p.unit.code.data.size < 2 ^ 32)
    {target : UInt32} {t : JumpTarget} (ht : p.jumps.find? target = some t) {l : Nat}
    (hl : l ∈ s.binds) (heq : l = t.label) :
    s.Starts ⟨p.unit, Piece.endFrom start.size (Part.code (before ++ [p]))⟩ target
      (s.placeOf l) := by
  subst heq
  have hp : p ∈ parts := by rw [hparts]; simp
  have hshaped := hshapes p hp
  have hmem : t ∈ p.jumps := List.mem_of_find?_eq_some ht
  have htarget : t.offset = target := by
    have := List.find?_some ht
    simpa using this
  -- No other part binds the label.
  have hown : t.label ∈ Piece.binds p.pieces := by
    rw [hparts] at hranked
    obtain ⟨m, hbefore, m', hm, hwithin, hafter⟩ := Part.ranked_append.1 hranked
    obtain ⟨hlow, hhigh⟩ := hwithin.jumps t hmem
    have hthunks : ∀ l : Nat, l ∈ Piece.binds thunkPieces → l < start.asm.labels.size := by decide
    have hcode : Part.code (p :: after) = p.pieces ++ Part.code after := List.flatMap_cons
    rw [binds, h.pieces, hparts, Part.code_append, Piece.binds_append, Piece.binds_append, hcode,
      Piece.binds_append] at hl
    rcases List.mem_append.1 hl with hl | hl
    · have := hthunks _ hl
      have := hbefore.le
      omega
    rcases List.mem_append.1 hl with hl | hl
    · have := (hbefore.binds hl).2
      omega
    rcases List.mem_append.1 hl with hl | hl
    · exact hl
    · exact absurd hhigh (Nat.not_lt.2 (hafter.binds hl).1)
  rcases hshaped.mem_binds hown with hentry | ⟨b, hb, hbase⟩ | ⟨offset, t', ht', hlabel, hat⟩
  · exact absurd hentry (Nat.ne_of_lt (hshaped.entry t hmem))
  · exact absurd hbase (Nat.not_le.2 (hshaped.fresh b hb t hmem))
  have hoffset' : t'.offset = offset := by
    have := List.find?_some ht'
    simpa using this
  have hoffset : offset = target := by
    rw [← hoffset', ← htarget]
    exact hshaped.offset t' (List.mem_of_find?_eq_some ht') t hmem hlabel
  subst hoffset
  obtain rfl : t = t' := Option.some.inj (ht.symm.trans ht')
  rcases hat with ⟨b, hb, hoff⟩ | hlast
  · obtain ⟨bs, bs', hblocks⟩ := List.append_of_mem hb
    have hk : p.blocks[bs.length]? = some b := by
      rw [hblocks, List.getElem?_append_right (Nat.le_refl _), Nat.sub_self]
      rfl
    have hplace := h.placeOf_target hparts hblocks (t := t) (by rw [hshaped.targets b hb, hoff, ht])
    have hstarts := h.starts_at hshapes hparts hsmall (k := bs.length) (by rw [hblocks]; simp)
    rw [Part.offsetAt_of_lt hk, hoff, placeAt, hblocks, List.take_left, ← hplace] at hstarts
    exact hstarts
  · have hending := h.pieces_ending hparts
    rw [← hlast, ht] at hending
    have hplace := h.laid.placeOf_eq hending
    have hstarts := h.starts_at hshapes hparts hsmall (Nat.le_refl _)
    rw [Part.offsetAt_length, placeAt, List.take_length, ← hplace] at hstarts
    rw [hlast]
    exact hstarts

end Comprises

/-! ## Sites of instructions -/

/-- A span holds the code of an instruction of a unit. -/
structure Translates (s : Session) (c : CompiledUnit) (ins : Instruction) (span : Span) : Prop where
  unit : c ∈ s.programs.toList
  instruction : ins ∈ Stream.instructions c.unit.code.data
  recorded : span ∈ s.spans.toList
  key : span.key = c.unit.key
  offset : span.event.offset = ins.offset.toUInt32

/-- The code of an instruction with what stands around it. -/
structure Stands (s : Session) (c : CompiledUnit) (ins : Instruction) (span : Span)
    (jumps : JumpTable) (b : Block) (front back : List Piece) : Prop where
  instruction : b.ins = ins
  cached : b.cached = span.event.cached
  emitted : b.Emitted c.unit jumps
  fresh : ∀ t ∈ jumps, t.label < b.base
  pieces : s.pieces.toList = front ++ (b.body ++ back)
  start : s.byteOf span.start = Piece.endFrom 0 front
  stop : s.byteOf span.stop = Piece.endFrom 0 (front ++ b.body)
  label : ∀ target t, jumps.find? target = some t → t.label ∈ s.binds →
    s.Starts c target (s.placeOf t.label)
  here : s.Starts c ins.offset.toUInt32 (s.byteOf span.start)
  next : s.Starts c ins.next.toUInt32 (s.byteOf span.stop)

theorem Placed.stands (h : s.Placed parts image) {c : CompiledUnit} {ins : Instruction} {span : Span}
    (ht : s.Translates c ins span) : ∃ jumps b front back, s.Stands c ins span jumps b front back := by
  obtain ⟨before, p, after, hparts, rfl⟩ := h.comprises.part_of_program ht.unit
  obtain ⟨before', p', after', bs, b, bs', hparts', hblocks, hkey, hevent, hstart, hstop⟩ :=
    h.comprises.block_of_span ht.recorded
  have hp : p ∈ parts := by rw [hparts]; simp
  obtain rfl : p = p' :=
    h.comprises.eq_of_key (by rw [hparts']; simp) hp (ht.key.symm.trans hkey)
  obtain rfl := h.comprises.before_unique hparts hparts'
  obtain rfl : after = after' := by
    rw [hparts] at hparts'
    simpa using hparts'
  have hshaped := h.shaped p hp
  have hsmall := h.small p hp
  have hb : b ∈ p.blocks := by rw [hblocks]; simp
  have hk : p.blocks[bs.length]? = some b := by
    rw [hblocks, List.getElem?_append_right (Nat.le_refl _), Nat.sub_self]
    rfl
  -- The offset determines the instruction.
  have hins : b.ins = ins := by
    have hsorted := (Stream.readFrom_sorted p.unit.code.data 0).2
    have hlt := fun i hi => ((Stream.readFrom_sorted p.unit.code.data 0).1 i hi).2
    have hmem : b.ins ∈ Stream.instructions p.unit.code.data := by
      rw [← hshaped.blocks]
      exact List.mem_map_of_mem hb
    have hoffset : b.ins.offset = ins.offset := by
      have heq : b.ins.offset.toUInt32 = ins.offset.toUInt32 := by
        rw [← ht.offset, hevent]
        rfl
      have hnat := congrArg UInt32.toNat heq
      rwa [toNat_toUInt32 (Nat.lt_trans (hlt _ hmem) hsmall),
        toNat_toUInt32 (Nat.lt_trans (hlt _ ht.instruction) hsmall)] at hnat
    refine List.inj_on_of_nodup_map ?_ hmem ht.instruction hoffset
    exact List.pairwise_map.2 (hsorted.imp fun h => Nat.ne_of_lt h)
  obtain ⟨high, hranked⟩ := h.ranked
  let front := leading before p bs ++ JumpTarget.lead b.target
  have hend : s.byteOf span.stop = placeAt before p (bs.length + 1) := by
    have hsnoc : p.blocks.take (bs.length + 1) = bs ++ [b] := by
      rw [hblocks, List.take_append, List.take_of_length_le (by omega)]
      simp
    rw [byteOf, hstop, placeAt, hsnoc]
  refine ⟨p.jumps, b, front, Block.code bs' ++ (p.ending ++ Part.code after), hins, ?_, hshaped.emitted b hb,
    hshaped.fresh b hb, ?_, ?_, ?_,
    fun target t htarget hl => h.comprises.starts_of_target h.shaped hranked hparts hsmall htarget hl rfl, ?_, ?_⟩
  · rw [hevent]
    rfl
  · rw [h.comprises.pieces_block hparts hblocks, ← List.append_assoc]
  · rw [byteOf, hstart]
  · rw [byteOf, hstop]
    congr 1
    simp [front, leading, Block.code, Block.pieces]
  · have hstarts := h.comprises.starts_at h.shaped hparts hsmall
      (show bs.length ≤ p.blocks.length by rw [hblocks]; simp)
    rw [Part.offsetAt_of_lt hk, hins] at hstarts
    rwa [← hstarts.instruction span ht.recorded ht.key ht.offset] at hstarts
  · have hstarts := h.comprises.starts_at h.shaped hparts hsmall
      (show bs.length + 1 ≤ p.blocks.length by rw [hblocks]; simp)
    rwa [hshaped.offsetAt_succ hk, hins, ← hend] at hstarts

theorem Placed.translates (h : s.Placed parts image) {c : CompiledUnit} (hc : c ∈ s.programs.toList)
    {ins : Instruction} (hins : ins ∈ Stream.instructions c.unit.code.data) :
    ∃ span, s.Translates c ins span := by
  obtain ⟨before, p, after, hparts, rfl⟩ := h.comprises.part_of_program hc
  have hp : p ∈ parts := by rw [hparts]; simp
  have hblock := hins
  rw [← (h.shaped p hp).blocks] at hblock
  obtain ⟨b, hb, rfl⟩ := List.mem_map.1 hblock
  obtain ⟨bs, bs', hblocks⟩ := List.append_of_mem hb
  have hspans : s.spans.toList = Part.spansFrom start.pieces.size parts := h.comprises.gains.spans
  have hspan := Block.mem_spansFrom (u := p.unit)
    (i := start.pieces.size + (Part.code before).length + p.prologue.length).2
    ⟨bs, b, bs', hblocks, rfl⟩
  have hmem := Part.mem_spansFrom (i := start.pieces.size).2 ⟨before, p, after, hparts, hspan⟩
  rw [← hspans] at hmem
  exact ⟨_, hc, hins, hmem, rfl, rfl⟩

end Session

end RegisterJit
