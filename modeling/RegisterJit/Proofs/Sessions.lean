import RegisterJit.Proofs.Bindings
import RegisterJit.Proofs.Linking
import RegisterJit.Proofs.References

/-!
# Sessions that compile

What a successful compilation leaves in a session, for any codes at all: the buffer is laid out from
the blocks of the units, and the records of entries, handlers and programs point into it. Nothing is
assumed about the codes; that a label was bound once, or an operand in range, is known because the
compilation succeeded.

`Shaped` says of a part of a session that its blocks are those of its code and that its labels are used as they
should, and `Ranked` that the labels of parts lie in ranges one after the other. `instruction_laid`,
`instructions_laid`, `unit_laid` and `units_laid` follow the compiler from one instruction to a program: if it
succeeds, what it appended are the blocks. `Compiled.comprises` is the invariant for sessions that any number of
programs were compiled in. `Relocation` links such sessions, `Displacements` fills them in without linking.
-/

namespace RegisterJit

open X86 (Label Assembler)

namespace Session

variable {s s' s'' : Session}

theorem build_bind {α β : Type} {x : Build α} {f : α → Build β} {b : β}
    (h : (x >>= f) s = .ok b s'') : ∃ a s', x s = .ok a s' ∧ f a s' = .ok b s'' := by
  change EStateM.bind x f s = _ at h
  rw [EStateM.bind] at h
  cases hx : x s with
  | ok a s' =>
    rw [hx] at h
    exact ⟨a, s', rfl, h⟩
  | error e s' => rw [hx] at h; cases h

theorem put_laid (h : s.Laid) {p : Piece} (hs : Build.put p s = .ok () s') :
    s'.Laid ∧ s.Extends s' [p] ∧ s'.asm.labels.size = s.asm.labels.size := by
  cases hp : p.bound? with
  | none =>
    obtain ⟨t, ht, hput⟩ := put_piece h hp
    rw [hs] at ht
    cases ht
    exact hput
  | some l =>
    cases p <;> cases hp
    -- The label was allocated and not bound, or the step would have failed.
    cases hget : s.asm.labels[l]? with
    | none => simp [Build.put, Assembler.put, Assembler.bind, hget] at hs
    | some place =>
      cases place with
      | some place => simp [Build.put, Assembler.put, Assembler.bind, hget] at hs
      | none =>
        have hlt : l < s.asm.labels.size := (Array.getElem?_eq_some_iff.1 hget).1
        have hfree : l ∉ s.binds := by
          rw [binds, ← Piece.placeFrom_eq_none_iff, ← h.labels, Assembler.place?,
            Array.getD_eq_getD_getElem?, hget]
          rfl
        obtain ⟨t, ht, hput⟩ := put_bind h hlt hfree
        rw [hs] at ht
        cases ht
        exact hput

theorem putAll_laid (h : s.Laid) {ps : List Piece} (hs : Build.putAll ps s = .ok () s') :
    s'.Laid ∧ s.Extends s' ps ∧ s'.asm.labels.size = s.asm.labels.size := by
  induction ps generalizing s with
  | nil =>
    cases hs
    exact ⟨h, ⟨by simp, rfl⟩, rfl⟩
  | cons p ps ih =>
    obtain ⟨⟨⟩, s₁, hs₁, hs₂⟩ := build_bind hs
    obtain ⟨hlaid₁, hext₁, hlabels₁⟩ := put_laid h hs₁
    obtain ⟨hlaid₂, hext₂, hlabels₂⟩ := ih hlaid₁ hs₂
    exact ⟨hlaid₂, hext₁.trans hext₂, hlabels₂.trans hlabels₁⟩

theorem emit_laid (h : s.Laid) {site : Site} {cached r : Register} {body : Emit Unit}
    (hs : Build.emit site cached body s = .ok r s') :
    ∃ e, body site ⟨#[], s.asm.labels.size, cached, Register.invalid⟩ = .ok () e ∧
      r = e.upcoming ∧ s'.Laid ∧ s.Grows s' e.pieces.toList [] [] ∧
      s.asm.labels.size ≤ s'.asm.labels.size := by
  cases hrun : body site ⟨#[], s.asm.labels.size, cached, Register.invalid⟩ with
  | error i e =>
    rw [Build.emit_of_error hrun] at hs
    obtain ⟨⟨⟩, s₁, -, hthrow⟩ := build_bind hs
    cases hthrow
  | ok u e =>
    rw [Build.emit_of_ok hrun] at hs
    obtain ⟨⟨⟩, s₁, hkeep, hpure⟩ := build_bind hs
    cases hpure
    obtain ⟨hlaid, hext, hlabels⟩ := putAll_laid (h.reserve (e.labels - s.asm.labels.size)) hkeep
    have hgrows := hext.grows
    refine ⟨e, rfl, rfl, hlaid, ⟨hgrows.pieces, hgrows.spans, hgrows.links, hgrows.entries,
      hgrows.programs, hgrows.linked⟩, ?_⟩
    rw [hlabels, JumpTable.size_reserve]
    exact Nat.le_add_right ..

theorem splitBlock_laid (h : s.Laid) {site : Site} {cached r : Register}
    (hs : Build.splitBlock site cached s = .ok r s') :
    r = (if (site.jumps.find? site.offset).isSome then Register.invalid else cached) ∧ s'.Laid ∧
      s.Grows s' (JumpTarget.lead (site.jumps.find? site.offset)) []
        (linkAt site.unit.key site.offset s.size (site.jumps.find? site.offset)) ∧
      s'.asm.labels.size = s.asm.labels.size := by
  unfold Build.splitBlock at hs
  cases ht : site.jumps.find? site.offset with
  | none =>
    rw [ht] at hs
    cases hs
    exact ⟨rfl, h, Grows.refl s, rfl⟩
  | some t =>
    rw [ht] at hs
    obtain ⟨⟨⟩, s₁, hs₁, hs₂⟩ := build_bind hs
    obtain ⟨hlaid, hext, hlabels⟩ := put_laid h hs₁
    have hplace : s₁.size = s.size := by
      rw [hlaid.size_eq, h.size_eq, hext.1, Piece.endFrom_append]
      rfl
    have hgrows := hext.grows
    by_cases hh : t.handled = true
    · simp only [hh, if_true] at hs₂
      cases hs₂
      refine ⟨rfl, hlaid.congr rfl rfl rfl, ⟨hgrows.pieces, hgrows.spans, ?_, hgrows.entries,
        hgrows.programs, hgrows.linked⟩, hlabels⟩
      simp only [linkAt, hh, if_true]
      rw [← hplace, hgrows.links]
      rfl
    · simp only [hh, Bool.false_eq_true, if_false] at hs₂
      cases hs₂
      refine ⟨rfl, hlaid, ?_, hlabels⟩
      simp only [linkAt, hh]
      exact hgrows

/-- Compiling one instruction adds a block. -/
theorem instruction_laid (h : s.Laid) {u : CodeUnit} {jumps : JumpTable} {ins : Instruction}
    {r r' : Register} (hs : Build.instruction (Block.site u jumps ins) r ins s = .ok r' s') :
    ∃ b : Block, b.ins = ins ∧ b.target = jumps.find? ins.offset.toUInt32 ∧ b.Emitted u jumps ∧
      s.asm.labels.size ≤ b.base ∧ s.asm.labels.size ≤ s'.asm.labels.size ∧ s'.Laid ∧ s.Grows s' b.pieces
        [⟨u.key, b.event u, s.pieces.size + (JumpTarget.lead b.target).length,
          s.pieces.size + b.pieces.length⟩]
        (linkAt u.key ins.offset.toUInt32 s.size b.target) := by
  unfold Build.instruction at hs
  obtain ⟨r₁, s₁, hs₁, hs⟩ := build_bind hs
  obtain ⟨-, hlaid₁, hgrows₁, hlabels₁⟩ := splitBlock_laid h hs₁
  obtain ⟨⟨⟩, s₂, hs₂, hs⟩ := build_bind hs
  obtain ⟨trace, rfl⟩ : ∃ trace, s₂ = { s₁ with trace := trace } := by cases hs₂; exact ⟨_, rfl⟩
  have hlaid₂ : Laid { s₁ with trace := trace } := hlaid₁.congr rfl rfl rfl
  obtain ⟨_, _, hget, hs⟩ := build_bind hs
  cases hget
  obtain ⟨r₃, s₃, hs₃, hs⟩ := build_bind hs
  obtain ⟨⟨⟩, _, hpush, hs⟩ := build_bind hs
  cases hpush
  cases hs
  obtain ⟨e, hrun, -, hlaid₃, hgrows₃, hlabels₃⟩ := emit_laid hlaid₂ hs₃
  let base := s₁.asm.labels.size
  let b : Block :=
    ⟨ins, jumps.find? ins.offset.toUInt32, r₁, base, e.labels - base, e.pieces.toList, e.upcoming⟩
  have hemitted : b.Emitted u jumps := by
    have hlabels : base + (e.labels - base) = e.labels :=
      Nat.add_sub_cancel' (Emit.hands_instruction rfl _ _ hrun).1
    refine ⟨e.cached, hrun.trans ?_⟩
    rw [hlabels]
  have hstart : s₁.pieces.size = s.pieces.size + (JumpTarget.lead b.target).length := hgrows₁.size
  have hstop : s₃.pieces.size = s.pieces.size + b.pieces.length := by
    rw [hgrows₃.size]
    change s₁.pieces.size + _ = _
    rw [hstart, Block.pieces, List.length_append, Nat.add_assoc]
  refine ⟨b, rfl, rfl, hemitted, Nat.le_of_eq hlabels₁.symm,
    Nat.le_trans (Nat.le_of_eq hlabels₁.symm) hlabels₃, hlaid₃.congr rfl rfl rfl,
    ⟨?_, ?_, hgrows₃.links.trans hgrows₁.links,
    hgrows₃.entries.trans hgrows₁.entries, hgrows₃.programs.trans hgrows₁.programs,
    hgrows₃.linked.trans hgrows₁.linked⟩⟩
  · rw [Block.pieces, ← List.append_assoc]
    refine hgrows₃.pieces.trans ?_
    exact congrArg (· ++ e.pieces.toList) hgrows₁.pieces
  · change (s₃.spans.push _).toList = _
    rw [Array.toList_push, hgrows₃.spans]
    change s₁.spans.toList ++ [] ++ _ = _
    rw [hgrows₁.spans, List.append_nil, List.append_nil, ← hstop, ← hstart]
    rfl

/-- Compiling instructions adds their blocks. -/
theorem instructions_laid (h : s.Laid) {u : CodeUnit} {jumps : JumpTable} {is : List Instruction}
    {r : Register} (hs : Build.instructions u jumps r is s = .ok () s') :
    ∃ blocks : List Block, blocks.map Block.ins = is ∧
      (∀ b ∈ blocks, b.target = jumps.find? b.ins.offset.toUInt32 ∧ b.Emitted u jumps ∧
        s.asm.labels.size ≤ b.base) ∧ s'.Laid ∧
      s.Grows s' (Block.code blocks) (Block.spansFrom u s.pieces.size blocks)
        (Block.linksFrom u s.size blocks) := by
  induction is generalizing s r with
  | nil =>
    cases hs
    exact ⟨[], rfl, by simp, h, Grows.refl _⟩
  | cons ins is ih =>
    obtain ⟨r₁, s₁, hs₁, hs₂⟩ := build_bind hs
    obtain ⟨b, hins, htarget, hemitted, hbase, hlabels, hlaid₁, hgrows₁⟩ := instruction_laid h hs₁
    obtain ⟨blocks, hmap, htargets, hlaid₂, hgrows₂⟩ := ih hlaid₁ hs₂
    have hsize : s₁.size = Piece.endFrom s.size b.pieces :=
      endFrom_size h hlaid₁ hgrows₁.pieces
    refine ⟨b :: blocks, by rw [List.map_cons, hins, hmap],
      List.forall_mem_cons.2 ⟨⟨by rw [htarget, hins], hemitted, hbase⟩, fun b hb =>
        ⟨(htargets b hb).1, (htargets b hb).2.1, Nat.le_trans hlabels (htargets b hb).2.2⟩⟩,
      hlaid₂, ?_⟩
    have hgrows := hgrows₁.trans hgrows₂
    rw [hgrows₁.size, hsize] at hgrows
    rw [Block.linksFrom, hins]
    exact hgrows

end Session

/-! ## Scanning any code -/

namespace JumpTable

theorem register_labels (table : JumpTable) (asm : Assembler) (offset : UInt32) (handled : Bool) :
    ∃ count, (table.register asm offset handled).2 = asm.reserve count := by
  unfold register
  split
  · split
    · exact ⟨0, by simp [Assembler.reserve]⟩
    · exact ⟨1, by rw [newLabel_eq]⟩
  · exact ⟨1, by rw [newLabel_eq]⟩

/-- The labels of a table were allocated, from the `low`-th on, and those of different offsets differ. -/
structure Allocated (table : JumpTable) (low : Nat) (asm : Assembler) : Prop where
  start : low ≤ asm.labels.size
  low : ∀ t ∈ table, low ≤ t.label
  high : ∀ t ∈ table, t.label < asm.labels.size
  offset : ∀ t ∈ table, ∀ t' ∈ table, t.label = t'.label → t.offset = t'.offset

theorem register_allocated {table : JumpTable} {low : Nat} {asm : Assembler}
    (h : table.Allocated low asm) (offset : UInt32) (handled : Bool) :
    (table.register asm offset handled).1.Allocated low (table.register asm offset handled).2 := by
  have hnew : (asm.newLabel).2.labels.size = asm.labels.size + 1 := Array.size_push ..
  let fresh : JumpTarget := ⟨offset, (asm.newLabel).1, handled⟩
  -- Whatever is in the new table is in the old one, or has the new label.
  have hgrown {table' : JumpTable} (hmem : ∀ t ∈ table', t ∈ table ∨ t = fresh) :
      table'.Allocated low (asm.newLabel).2 := by
    have hlabel : fresh.label = asm.labels.size := rfl
    have hne {t : JumpTarget} (ht : t ∈ table) : t.label ≠ fresh.label := by
      rw [hlabel]
      exact Nat.ne_of_lt (h.high t ht)
    constructor
    · rw [hnew]
      exact Nat.le_succ_of_le h.start
    · intro t ht
      rcases hmem t ht with ht | rfl
      · exact h.low t ht
      · exact h.start
    · intro t ht
      rw [hnew]
      rcases hmem t ht with ht | rfl
      · exact Nat.lt_succ_of_lt (h.high t ht)
      · exact Nat.lt_succ_self _
    · intro t ht t' ht' heq
      rcases hmem t ht with ht | rfl <;> rcases hmem t' ht' with ht' | rfl
      · exact h.offset t ht t' ht' heq
      · exact absurd heq (hne ht)
      · exact absurd heq.symm (hne ht')
      · rfl
  unfold register
  split
  · split
    · exact h
    · refine hgrown fun t ht => ?_
      obtain ⟨t', ht', rfl⟩ := List.mem_map.1 ht
      split
      · exact .inr rfl
      · exact .inl ht'
  · refine hgrown fun t ht => ?_
    rcases List.mem_append.1 ht with ht | ht
    · exact .inl ht
    · exact .inr (List.mem_singleton.1 ht)

end JumpTable

namespace Scan

theorem jumps_allocated {c : Code} {is : List Instruction} {table : JumpTable} {low : Nat}
    {asm : Assembler} (h : table.Allocated low asm) {found : JumpTable}
    (hfound : (jumps c is table asm).1 = .ok found) :
    found.Allocated low (jumps c is table asm).2 := by
  induction is generalizing table asm with
  | nil =>
    cases hfound
    exact h
  | cons ins is ih =>
    rw [jumps] at hfound ⊢
    split at hfound
    · exact ih h hfound
    · split at hfound
      · cases hfound
      · rename_i hinside
        rw [if_neg hinside]
        exact ih (JumpTable.register_allocated h _ _) hfound

theorem handlers_allocated {c : Code} {hs : List Handler} {table : JumpTable} {low : Nat}
    {asm : Assembler} (h : table.Allocated low asm) {found : JumpTable}
    (hfound : (handlers c hs table asm).1 = .ok found) :
    found.Allocated low (handlers c hs table asm).2 := by
  induction hs generalizing table asm with
  | nil =>
    cases hfound
    exact h
  | cons hd hs ih =>
    rw [handlers] at hfound ⊢
    split at hfound
    · cases hfound
    · rename_i hinside
      rw [if_neg hinside]
      exact ih (JumpTable.register_allocated (JumpTable.register_allocated h _ _) _ _) hfound

/-- Scanning reads all of a code, and the labels of jump targets are those that it allocated. -/
theorem targets_allocated {c : Code} {asm : Assembler} {found : JumpTable}
    (hfound : (targets c asm).1 = .ok found) :
    (Stream.read c.data).2 = none ∧ found.Allocated asm.labels.size (targets c asm).2 := by
  have hnil : JumpTable.Allocated [] asm.labels.size asm :=
    ⟨Nat.le_refl _, by simp, by simp, by simp⟩
  have hjumps (table : JumpTable) (asm' : Assembler)
      (heq : jumps c (Stream.read c.data).1 [] asm = (.ok table, asm')) :
      table.Allocated asm.labels.size asm' := by
    have hresult : table.Allocated asm.labels.size (jumps c (Stream.read c.data).1 [] asm).2 :=
      jumps_allocated hnil (congrArg Prod.fst heq)
    rwa [heq] at hresult
  rw [targets] at hfound ⊢
  dsimp only at hfound ⊢
  split at hfound
  · cases hfound
  · rename_i table asm' heq
    split at hfound
    · cases hfound
    · rename_i hfault
      exact ⟨hfault, handlers_allocated (hjumps table asm' heq) hfound⟩

theorem jumps_labels (c : Code) (is : List Instruction) (table : JumpTable) (asm : Assembler) :
    ∃ count, (jumps c is table asm).2 = asm.reserve count := by
  induction is generalizing table asm with
  | nil => exact ⟨0, by simp [jumps, Assembler.reserve]⟩
  | cons ins is ih =>
    rw [jumps]
    split
    · exact ih table asm
    · split
      · exact ⟨0, by simp [Assembler.reserve]⟩
      · rename_i target _ _
        obtain ⟨m, hm⟩ := table.register_labels asm target false
        obtain ⟨n, hn⟩ := ih (table.register asm target false).1 (table.register asm target false).2
        exact ⟨m + n, by rw [← reserve_reserve, ← hm]; exact hn⟩

theorem handlers_labels (c : Code) (hs : List Handler) (table : JumpTable) (asm : Assembler) :
    ∃ count, (handlers c hs table asm).2 = asm.reserve count := by
  induction hs generalizing table asm with
  | nil => exact ⟨0, by simp [handlers, Assembler.reserve]⟩
  | cons h hs ih =>
    rw [handlers]
    split
    · exact ⟨0, by simp [Assembler.reserve]⟩
    · obtain ⟨k, hk⟩ := table.register_labels asm h.start true
      set first := table.register asm h.start true
      obtain ⟨m, hm⟩ := first.1.register_labels first.2 h.stop true
      obtain ⟨n, hn⟩ := ih (first.1.register first.2 h.stop true).1
        (first.1.register first.2 h.stop true).2
      exact ⟨k + (m + n), by rw [← reserve_reserve, ← reserve_reserve, ← hk, ← hm]; exact hn⟩

theorem targets_labels (c : Code) (asm : Assembler) :
    ∃ count, (targets c asm).2 = asm.reserve count := by
  rw [targets]
  obtain ⟨m, hm⟩ := jumps_labels c (Stream.read c.data).1 [] asm
  dsimp only
  split
  · rename_i heq
    rw [heq] at hm
    exact ⟨m, hm⟩
  · rename_i table asm' heq
    rw [heq] at hm
    split
    · exact ⟨m, hm⟩
    · obtain ⟨n, hn⟩ := handlers_labels c c.handlers.toList table asm'
      exact ⟨m + n, by rw [hn, show asm' = _ from hm, reserve_reserve]⟩

end Scan

/-! ## Units -/

namespace Part

/-- The blocks of a part are those of its instructions, led by the labels of its table. -/
structure Shaped (p : Part) : Prop where
  whole : (Stream.read p.unit.code.data).2 = none
  blocks : p.blocks.map Block.ins = Stream.instructions p.unit.code.data
  targets : ∀ b ∈ p.blocks, b.target = p.jumps.find? b.ins.offset.toUInt32
  emitted : ∀ b ∈ p.blocks, b.Emitted p.unit p.jumps
  fresh : ∀ b ∈ p.blocks, ∀ t ∈ p.jumps, t.label < b.base
  entry : ∀ t ∈ p.jumps, t.label < p.entry
  offset : ∀ t ∈ p.jumps, ∀ t' ∈ p.jumps, t.label = t'.label → t.offset = t'.offset

/-- The labels that a part binds: its entry, labels of its blocks, and those of its table where the code
for their offsets starts. -/
theorem Shaped.mem_binds {p : Part} (h : p.Shaped) {l : Nat} (hl : l ∈ Piece.binds p.pieces) :
    l = p.entry ∨ (∃ b ∈ p.blocks, b.base ≤ l) ∨
      ∃ offset t, p.jumps.find? offset = some t ∧ t.label = l ∧
        ((∃ b ∈ p.blocks, b.ins.offset.toUInt32 = offset) ∨ offset = p.last) := by
  have hlead {target : Option JumpTarget} (hmem : Piece.bind l ∈ JumpTarget.lead target) :
      ∃ t, target = some t ∧ t.label = l := by
    obtain ⟨t, ht, heq⟩ := Session.mem_lead.1 hmem
    exact ⟨t, ht, (Piece.bind.inj heq).symm⟩
  rw [Piece.mem_binds, pieces, front, List.mem_append, List.mem_append] at hl
  rcases hl with (hl | hl) | hl
  · refine .inl ?_
    simpa [prologue] using hl
  · refine .inr ?_
    obtain ⟨b, hb, hl⟩ := List.mem_flatMap.1 hl
    rcases List.mem_append.1 hl with hl | hl
    · obtain ⟨t, ht, hlabel⟩ := hlead hl
      exact .inr ⟨_, t, (h.targets b hb).symm.trans ht, hlabel, .inl ⟨b, hb, rfl⟩⟩
    · obtain ⟨c, hrun⟩ := h.emitted b hb
      obtain ⟨-, ps, hps, hall, -⟩ := Emit.tidy_instruction b.ins _ (Nat.le_refl b.base) _ _ hrun
      obtain rfl : b.body = ps := by simpa using hps
      exact .inl ⟨b, hb, hall l (Piece.mem_binds.2 hl)⟩
  · rcases List.mem_append.1 hl with hl | hl
    · obtain ⟨t, ht, hlabel⟩ := hlead hl
      exact .inr (.inr ⟨_, t, ht, hlabel, .inr rfl⟩)
    · obtain ⟨i, -, heq⟩ := List.mem_map.1 hl
      cases heq

/-- The labels of a part lie in a range. -/
structure Within (low high : Nat) (p : Part) : Prop where
  jumps : ∀ t ∈ p.jumps, low ≤ t.label ∧ t.label < high
  binds : ∀ l : Nat, l ∈ Piece.binds p.pieces → low ≤ l ∧ l < high

/-- The labels of parts lie in ranges one after the other. -/
def Ranked : Nat → List Part → Nat → Prop
  | low, [], high => low ≤ high
  | low, p :: rest, high => ∃ mid, low ≤ mid ∧ p.Within low mid ∧ Ranked mid rest high

theorem Ranked.le {low high : Nat} {parts : List Part} (h : Ranked low parts high) : low ≤ high := by
  induction parts generalizing low with
  | nil => exact h
  | cons p parts ih =>
    obtain ⟨mid, hmid, -, hrest⟩ := h
    exact Nat.le_trans hmid (ih hrest)

theorem ranked_append {low high : Nat} {parts parts' : List Part} :
    Ranked low (parts ++ parts') high ↔ ∃ mid, Ranked low parts mid ∧ Ranked mid parts' high := by
  induction parts generalizing low with
  | nil =>
    constructor
    · exact fun h => ⟨low, Nat.le_refl _, h⟩
    · rintro ⟨mid, hmid, hrest⟩
      cases parts' with
      | nil => exact Nat.le_trans hmid hrest
      | cons p parts' =>
        obtain ⟨m, hm, hp, hafter⟩ := hrest
        exact ⟨m, Nat.le_trans hmid hm,
          ⟨fun t ht => ⟨Nat.le_trans hmid (hp.jumps t ht).1, (hp.jumps t ht).2⟩,
            fun l hl => ⟨Nat.le_trans hmid (hp.binds l hl).1, (hp.binds l hl).2⟩⟩, hafter⟩
  | cons p parts ih =>
    simp only [List.cons_append, Ranked, ih]
    constructor
    · rintro ⟨m, hm, hp, mid, hparts, hrest⟩
      exact ⟨mid, ⟨m, hm, hp, hparts⟩, hrest⟩
    · rintro ⟨mid, ⟨m, hm, hp, hparts⟩, hrest⟩
      exact ⟨m, hm, hp, mid, hparts, hrest⟩

theorem Ranked.binds {low high : Nat} {parts : List Part} (h : Ranked low parts high) {l : Nat}
    (hl : l ∈ Piece.binds (Part.code parts)) : low ≤ l ∧ l < high := by
  induction parts generalizing low with
  | nil => cases hl
  | cons p parts ih =>
    obtain ⟨mid, hmid, hp, hrest⟩ := h
    rw [Part.code, List.flatMap_cons, Piece.binds_append] at hl
    rcases List.mem_append.1 hl with hl | hl
    · have := hp.binds l hl
      have := hrest.le
      omega
    · have := ih hrest hl
      omega

end Part

namespace Session

variable {s s' s'' : Session}

theorem scan_laid (h : s.Laid) {c : Code} {jumps : JumpTable} (hs : Build.scan c s = .ok jumps s') :
    s'.Laid ∧ s.Extends s' [] ∧ (Stream.read c.data).2 = none ∧
      jumps.Allocated s.asm.labels.size s'.asm := by
  obtain ⟨count, hcount⟩ := Scan.targets_labels c s.asm
  rcases htargets : Scan.targets c s.asm with ⟨result, asm⟩
  rw [htargets] at hcount
  obtain rfl : asm = s.asm.reserve count := hcount
  cases result with
  | error i =>
    rw [Build.scan_of_error htargets] at hs
    cases hs
  | ok table =>
    rw [Build.scan_of_ok htargets] at hs
    cases hs
    refine ⟨h.reserve count, ⟨by simp, rfl⟩, ?_⟩
    have hallocated := Scan.targets_allocated (congrArg Prod.fst htargets)
    rwa [htargets] at hallocated

/-- Compiling a unit adds a part. -/
theorem unit_laid (h : s.Laid) {u : CodeUnit} (hs : Build.unit u s = .ok () s') :
    ∃ p : Part, p.unit = u ∧ p.Shaped ∧ (∀ e ∈ s.entries, e.1 ≠ u.key) ∧ s'.Laid ∧
      s.Gains s' [p] ∧ s'.linked = s.linked ∧ s.asm.labels.size ≤ s'.asm.labels.size ∧
      p.Within s.asm.labels.size s'.asm.labels.size := by
  unfold Build.unit at hs
  obtain ⟨_, _, hs₀, hs⟩ := build_bind hs
  cases hs₀
  split at hs
  · obtain ⟨_, _, hthrow, -⟩ := build_bind hs
    cases hthrow
  rename_i hnew
  obtain ⟨jumps, s₁, hs₁, hs⟩ := build_bind hs
  obtain ⟨hlaid₁, hext₁, hwhole, hallocated⟩ := scan_laid h hs₁
  obtain ⟨⟨⟩, s₂, hs₂, hs⟩ := build_bind hs
  obtain ⟨t, ht, hlaid₂, hlabels₂, hentries, hext₂⟩ := openUnit_ok hlaid₁ u
  rw [hs₂] at ht
  cases ht
  obtain ⟨⟨⟩, s₃, hs₃, hs⟩ := build_bind hs
  obtain ⟨blocks, hblocks, htargets, hlaid₃, hgrows₃⟩ := instructions_laid hlaid₂ hs₃
  obtain ⟨r₄, s₄, hs₄, hs⟩ := build_bind hs
  obtain ⟨-, hlaid₄, hgrows₄, -⟩ := splitBlock_laid hlaid₃ hs₄
  obtain ⟨r₅, s₅, hs₅, hs⟩ := build_bind hs
  obtain ⟨e, he, -, hlaid₅, hgrows₅, -⟩ := emit_laid hlaid₄ hs₅
  rw [epilogue_eq] at he
  cases he
  cases hs
  let p : Part := ⟨u, jumps, s₁.asm.labels.size, blocks⟩
  have hbefore := (hext₁.trans hext₂).grows
  have hafter := hgrows₃.trans (hgrows₄.trans hgrows₅)
  have hgains : s.Gains { s₅ with programs := s₅.programs.push ⟨p.unit, s₅.size⟩ } [p] := by
    have hending := hgrows₄.trans hgrows₅
    rw [List.append_nil, List.append_nil] at hending
    exact gains_part p h hlaid₂ hlaid₃ hlaid₅ hext₁ hext₂ hentries hgrows₃ hending
  have hlow : s.asm.labels.size ≤ s₁.asm.labels.size := hallocated.start
  have hbase {b : Block} (hb : b ∈ blocks) : s₁.asm.labels.size + 1 ≤ b.base := by
    rw [← hlabels₂]
    exact (htargets b hb).2.2
  have hshaped : p.Shaped := by
    refine ⟨hwhole, hblocks, fun b hb => (htargets b hb).1, fun b hb => (htargets b hb).2.1,
      fun b hb t ht => ?_, hallocated.high, hallocated.offset⟩
    exact Nat.lt_of_lt_of_le (hallocated.high t ht) (Nat.le_of_succ_le (hbase hb))
  have hbound {l : Nat} (hl : l ∈ Piece.binds p.pieces) : l < s₅.asm.labels.size := by
    refine hlaid₅.lt_of_mem_binds ?_
    have hpieces : s₅.pieces.toList = s.pieces.toList ++ Part.code [p] := hgains.pieces
    rw [binds, hpieces, Piece.binds_append, Part.code, List.flatMap_singleton]
    exact List.mem_append_right _ hl
  have hentry : p.entry < s₅.asm.labels.size := hbound (Piece.mem_binds.2 (by simp [Part.pieces,
    Part.front, Part.prologue]))
  refine ⟨p, rfl, hshaped, fun e he => ?_, hlaid₅.congr rfl rfl rfl, hgains,
    hafter.linked.trans hbefore.linked, Nat.le_trans hlow (Nat.le_of_lt hentry),
    fun t ht => ⟨hallocated.low t ht, Nat.lt_trans (hallocated.high t ht) hentry⟩,
    fun l hl => ⟨?_, hbound hl⟩⟩
  · simp only [Bool.not_eq_true, List.any_eq_false, beq_iff_eq] at hnew
    exact hnew e he
  · rcases hshaped.mem_binds hl with rfl | ⟨b, hb, hl⟩ | ⟨offset, t, ht, rfl, -⟩
    · exact hlow
    · exact Nat.le_trans (Nat.le_trans hlow (Nat.le_succ _)) (Nat.le_trans (hbase hb) hl)
    · exact hallocated.low t (List.mem_of_find?_eq_some ht)

/-- Compiling units adds their parts. -/
theorem units_laid (h : s.Laid) {us : List (Option CodeUnit)}
    (hs : Build.units us s = .ok () s') :
    ∃ parts : List Part, us = parts.map (fun p => some p.unit) ∧ (∀ p ∈ parts, p.Shaped) ∧
      (parts.map fun p => p.unit.key).Nodup ∧ (∀ p ∈ parts, ∀ e ∈ s.entries, e.1 ≠ p.unit.key) ∧
      s'.Laid ∧ s.Gains s' parts ∧ s'.linked = s.linked ∧
      Part.Ranked s.asm.labels.size parts s'.asm.labels.size := by
  induction us generalizing s with
  | nil =>
    cases hs
    exact ⟨[], rfl, by simp, List.nodup_nil, by simp, h, Gains.refl _, rfl, Nat.le_refl _⟩
  | cons u us ih =>
    cases u with
    | none => cases hs
    | some u =>
      obtain ⟨⟨⟩, s₁, hs₁, hs₂⟩ := build_bind hs
      obtain ⟨p, rfl, hshaped, hnew, hlaid₁, hgains₁, hlinked₁, hle, hwithin⟩ := unit_laid h hs₁
      obtain ⟨parts, rfl, hshapes, hkeys, hnews, hlaid₂, hgains₂, hlinked₂, hranked⟩ := ih hlaid₁ hs₂
      have hentries : s₁.entries = (p.unit.key, p.entry) :: s.entries := hgains₁.entries
      rw [hentries] at hnews
      refine ⟨p :: parts, rfl, List.forall_mem_cons.2 ⟨hshaped, hshapes⟩, ?_,
        List.forall_mem_cons.2 ⟨hnew, fun q hq e he => hnews q hq e (List.mem_cons_of_mem _ he)⟩,
        hlaid₂, hgains₁.append h hlaid₁ hgains₂, hlinked₂.trans hlinked₁,
        ⟨_, hle, hwithin, hranked⟩⟩
      rw [List.map_cons, List.nodup_cons]
      refine ⟨fun hmem => ?_, hkeys⟩
      obtain ⟨q, hq, hkey⟩ := List.mem_map.1 hmem
      exact hnews q hq _ (List.mem_cons_self ..) hkey.symm

theorem units_of_compile {codes : List (Option CodeUnit)} (h : s.compile codes = (.ok (), s')) :
    Build.units codes s = .ok () s' := by
  rw [compile, EStateM.run, Build.program, Build.get_bind] at h
  dsimp only at h
  by_cases hl : s.linked = true
  · rw [if_pos hl] at h
    cases h
  · rw [if_neg hl] at h
    cases hrun : Build.units codes s with
    | ok u t =>
      rw [hrun] at h
      cases h
      rfl
    | error i t => rw [hrun] at h; cases h

/-- Sessions in which programs have been compiled one after another, none of them in vain. -/
inductive Compiled : List (List (Option CodeUnit)) → Session → Prop
  | fresh : Compiled [] start
  | compile {programs : List (List (Option CodeUnit))} {s s' : Session}
      {codes : List (Option CodeUnit)} (before : Compiled programs s)
      (ok : s.compile codes = (.ok (), s')) : Compiled (programs ++ [codes]) s'

/-- The buffer of such a session consists of the units of its programs. -/
theorem Compiled.comprises {programs : List (List (Option CodeUnit))} (h : Compiled programs s) :
    ∃ parts : List Part, programs.flatten = parts.map (fun p => some p.unit) ∧
      s.Comprises parts ∧ (∀ p ∈ parts, p.Shaped) ∧ s.linked = false ∧
      Part.Ranked start.asm.labels.size parts s.asm.labels.size := by
  induction h with
  | fresh =>
    exact ⟨[], rfl, ⟨start_laid, Gains.refl start, List.nodup_nil⟩, by simp, rfl, Nat.le_refl _⟩
  | @compile programs s s' codes _ ok ih =>
    obtain ⟨before, hbefore, hcomp, hshapes, hlinked, hranked⟩ := ih
    obtain ⟨after, rfl, hshapes', hkeys, hnews, hlaid, hgains, hlinked', hranked'⟩ :=
      units_laid hcomp.laid (units_of_compile ok)
    have hentries : s.entries = (before.map fun p => (p.unit.key, p.entry)).reverse :=
      hcomp.gains.entries.trans (List.append_nil _)
    refine ⟨before ++ after, by simp [hbefore],
      ⟨hlaid, hcomp.gains.append start_laid hcomp.laid hgains, ?_⟩, ?_, hlinked'.trans hlinked,
      Part.ranked_append.2 ⟨_, hranked, hranked'⟩⟩
    · rw [List.map_append, List.nodup_append]
      refine ⟨hcomp.keys, hkeys, fun k hk k' hk' heq => ?_⟩
      obtain ⟨p, hp, rfl⟩ := List.mem_map.1 hk
      obtain ⟨q, hq, rfl⟩ := List.mem_map.1 hk'
      refine hnews q hq (p.unit.key, p.entry) ?_ heq
      rw [hentries, List.mem_reverse]
      exact List.mem_map.2 ⟨p, hp, rfl⟩
    · intro p hp
      rcases List.mem_append.1 hp with hp | hp
      · exact hshapes p hp
      · exact hshapes' p hp

end Session

end RegisterJit
