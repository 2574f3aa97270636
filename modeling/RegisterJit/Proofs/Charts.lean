import RegisterJit.Proofs.Leaving
import RegisterJit.Proofs.Sites

/-!
# Charts

What is known before every piece of a unit, in one list. `Emission` notes for each block of a unit, with labels
of its own, how what is known changes from piece to piece. Here the labels of all blocks get their notes
together, and the lists of the blocks are put in a row, with those of the prologue and of the epilogue around
them.

`Piece.Flows` says of pieces with a note before each that every piece is admitted where it stands and leads to
something that suits the next note. What suits a note may know more than it: before a jump target nothing is
known but that a function is under way, while the code that runs into it may know what the accumulator holds.
`Block.labelNotes` looks a label up in the block that allocated it, and `Part.labelNotes` adds the labels that a
unit allocates before its blocks: that of its entry and those of its jump targets. `Built.leads` takes the note
of one block over to these labels, and `Built.flows` is the result for all pieces of a unit: `Part.chart` flows.
`Spots` reads the chart at a place, and the modules after it go along it while the processor executes the code.
-/

namespace RegisterJit

open X86 (Reg Instr Label)

namespace Note

theorem Fits.trans {a b c : Note} (h : a.Fits b) (h' : b.Fits c) : a.Fits c := by
  rcases h with h | ⟨hphase, hcontent⟩
  · exact .inl h
  rcases h' with h' | ⟨hphase', hcontent'⟩
  · exact .inl (hphase.trans h')
  refine .inr ⟨hphase.trans hphase', ?_⟩
  rcases hcontent' with hc | hc
  · exact .inl hc
  · rcases hcontent with hb | hb
    · exact .inl (hc ▸ hb)
    · exact .inr (hb.trans hc)

theorem Ends.fits_of {a : Note} {r : Register} (h : a.Ends r) : a.Fits ⟨.body, Content.of r⟩ := by
  rcases h with h | ⟨hphase, hcontent⟩
  · exact .inl h
  refine .inr ⟨hphase, ?_⟩
  by_cases hr : r = Register.invalid
  · subst hr
    exact .inl rfl
  · obtain ⟨d, hd, hcontent⟩ := hcontent hr
    refine .inr ?_
    rw [hcontent, Content.of, hd]

theorem Ends.fits_any {a : Note} {r : Register} (h : a.Ends r) : a.Fits any :=
  h.fits_of.trans (body_fits_any _)

theorem Fits.ends {a b : Note} {r : Register} (h : a.Fits b) (hb : b.Ends r) : a.Ends r := by
  rcases h with h | ⟨hphase, hcontent⟩
  · exact .inl h
  rcases hb with hb | ⟨hbody, hslot⟩
  · exact .inl (hphase.trans hb)
  refine .inr ⟨hphase.trans hbody, fun hr => ?_⟩
  obtain ⟨d, hd, hbd⟩ := hslot hr
  rcases hcontent with hc | hc
  · rw [hc] at hbd
    cases hbd
  · exact ⟨d, hd, hc.trans hbd⟩

end Note

namespace Piece

variable {Λ Λ' : Label → Note} {W : Int32 → Prop} {a b e : Note} {ps qs : List Piece}
  {as bs : List Note}

/-- The notes before pieces that stand in a row from the note `a` on. -/
def notes (Λ : Label → Note) : Note → List Piece → List Note
  | _, [] => []
  | a, p :: ps => a :: notes Λ (p.next Λ a) ps

/-- Pieces with a note before each: the piece is admitted there, and what it leads to suits the note
before the next one, which for the last is `e`. -/
def Flows (Λ : Label → Note) (W : Int32 → Prop) : List Piece → List Note → Note → Prop
  | [], [], _ => True
  | p :: ps, a :: as, e =>
    p.Admits Λ W a ∧ (p.next Λ a).Fits (as.headD e) ∧ Flows Λ W ps as e
  | _, _, _ => False

theorem Flows.append (h : Flows Λ W ps as (bs.headD e)) (h' : Flows Λ W qs bs e) :
    Flows Λ W (ps ++ qs) (as ++ bs) e := by
  induction ps generalizing as with
  | nil =>
    cases as with
    | nil => exact h'
    | cons a as => exact h.elim
  | cons p ps ih =>
    cases as with
    | nil => exact h.elim
    | cons a as =>
      refine ⟨h.1, ?_, ih h.2.2⟩
      cases as with
      | nil => exact h.2.1
      | cons b as => exact h.2.1

theorem Leads.flows (h : Leads Λ W a ps b) (hb : b.Fits e) : Flows Λ W ps (notes Λ a ps) e := by
  induction ps generalizing a with
  | nil => trivial
  | cons p ps ih =>
    refine ⟨h.1, ?_, ih h.2⟩
    cases ps with
    | nil =>
      obtain rfl : p.next Λ a = b := h.2
      exact hb
    | cons q ps => exact .inr ⟨rfl, .inr rfl⟩

theorem Leads.drop (h : Leads Λ W a ps b) {k : Nat} (hk : k < ps.length) (e : Note) :
    Leads Λ W ((notes Λ a ps).getD k e) (ps.drop k) b := by
  induction ps generalizing a k with
  | nil => cases hk
  | cons p ps ih =>
    cases k with
    | zero => exact h
    | succ k => exact ih h.2 (Nat.lt_of_succ_lt_succ hk)

theorem Flows.length_eq (h : Flows Λ W ps as e) : as.length = ps.length := by
  induction ps generalizing as with
  | nil =>
    cases as with
    | nil => rfl
    | cons a as => exact h.elim
  | cons p ps ih =>
    cases as with
    | nil => exact h.elim
    | cons a as => rw [List.length_cons, List.length_cons, ih h.2.2]

theorem Flows.get (h : Flows Λ W ps as e) {i : Nat} {p : Piece} (hp : ps[i]? = some p) :
    p.Admits Λ W (as.getD i e) ∧ (p.next Λ (as.getD i e)).Fits (as.getD (i + 1) e) := by
  induction ps generalizing as i with
  | nil => cases hp
  | cons q ps ih =>
    cases as with
    | nil => exact h.elim
    | cons a as =>
      cases i with
      | zero =>
        cases hp
        refine ⟨h.1, ?_⟩
        have hnext := h.2.1
        cases as with
        | nil => exact hnext
        | cons b as => exact hnext
      | succ i => exact ih h.2.2 hp

theorem leads_congr (h : ∀ l : Nat, l ∈ targets ps ∨ l ∈ binds ps → Λ l = Λ' l) :
    Leads Λ W a ps b ↔ Leads Λ' W a ps b := by
  induction ps generalizing a with
  | nil => rfl
  | cons p ps ih =>
    have hrest : ∀ l : Nat, l ∈ targets ps ∨ l ∈ binds ps → Λ l = Λ' l := fun l hl => h l (by
      cases p <;> simp at hl ⊢ <;> tauto)
    have hhere : p.Admits Λ W a = p.Admits Λ' W a ∧ p.next Λ a = p.next Λ' a := by
      cases p with
      | jmp l => simp [Admits, next, h l (by simp)]
      | jcc c l => simp [Admits, next, h l (by simp)]
      | address dst l => simp [Admits, next, h l (by simp)]
      | bind l => simp [Admits, next, h l (by simp)]
      | _ => exact ⟨rfl, rfl⟩
    rw [Leads, Leads, hhere.1, hhere.2]
    exact and_congr_right fun _ => ih hrest

end Piece

/-! ## The notes of a unit -/

namespace Block

/-- The notes of the labels that blocks allocate; the rest have notes of their own. -/
def labelNotes (rest : Label → Note) : List Block → Label → Note
  | [], l => rest l
  | b :: bs, l =>
    if b.base ≤ l ∧ ¬ b.base + b.count ≤ l then Emit.localNotes b.ins.opcode (Content.of b.cached) b.base l
    else labelNotes rest bs l

/-- The notes before the pieces of a block. -/
def chart (Λ : Label → Note) (b : Block) : List Note :=
  (JumpTarget.lead b.target).map (fun _ => .any) ++
    Piece.notes Λ ⟨.body, Content.of b.cached⟩ b.body

section

variable {u : CodeUnit} {jumps : JumpTable} {r : Register} {n : Nat} {is : List Instruction}
  {blocks : List Block} {rest : Label → Note}

theorem labelNotes_of_lt (h : Run u jumps r n is blocks) {l : Nat} (hl : l < n) :
    labelNotes rest blocks l = rest l := by
  induction is generalizing r n blocks with
  | nil =>
    rw [show blocks = [] from h]
    rfl
  | cons ins is ih =>
    obtain ⟨b, bs, rfl, hof, hrest⟩ := h
    rw [labelNotes, if_neg (by rw [hof.base]; omega)]
    exact ih hrest (Nat.lt_add_right _ hl)

theorem labelNotes_of_mem (h : Run u jumps r n is blocks) {b : Block} (hb : b ∈ blocks) {l : Nat}
    (hlow : b.base ≤ l) (hhigh : l < b.base + b.count) :
    labelNotes rest blocks l = Emit.localNotes b.ins.opcode (Content.of b.cached) b.base l := by
  induction is generalizing r n blocks with
  | nil =>
    rw [show blocks = [] from h] at hb
    cases hb
  | cons ins is ih =>
    obtain ⟨b₀, bs, rfl, hof, hrest⟩ := h
    rw [labelNotes]
    rcases List.mem_cons.1 hb with rfl | hb
    · rw [if_pos ⟨hlow, Nat.not_le.2 hhigh⟩]
    · obtain ⟨r', n', hle, hof'⟩ := hrest.of_mem hb
      rw [if_neg (by rw [hof.base]; rw [hof'.base] at hlow; omega)]
      exact ih hrest hb

theorem Run.flows {Λ : Label → Note} {W : Int32 → Prop} (h : Run u jumps r n is blocks)
    (hleads : ∀ b ∈ blocks, ∃ a,
      Piece.Leads Λ W ⟨.body, Content.of b.cached⟩ b.body a ∧ a.Ends b.upcoming)
    (htargets : ∀ b ∈ blocks, ∀ t, b.target = some t → Λ t.label = .any) :
    Piece.Flows Λ W (code blocks) (blocks.flatMap (chart Λ)) .any ∧
      ∀ a : Note, a.Ends r → a.Fits ((blocks.flatMap (chart Λ)).headD .any) := by
  induction is generalizing r n blocks with
  | nil =>
    rw [show blocks = [] from h]
    exact ⟨trivial, fun a ha => ha.fits_any⟩
  | cons ins is ih =>
    obtain ⟨b, bs, rfl, hof, hrest⟩ := h
    obtain ⟨hflows, hhead⟩ := ih hrest (fun b hb => hleads b (List.mem_cons_of_mem _ hb))
      fun b hb => htargets b (List.mem_cons_of_mem _ hb)
    obtain ⟨a, ha, hends⟩ := hleads b (List.mem_cons_self ..)
    have hbody := ha.flows (hhead a hends)
    -- What is before a block that writes nothing is before the next one.
    have hstart : Note.Fits ⟨.body, Content.of b.cached⟩
        ((Piece.notes Λ ⟨.body, Content.of b.cached⟩ b.body ++ bs.flatMap (chart Λ)).headD .any) := by
      cases hbody' : b.body with
      | nil =>
        rw [hbody'] at ha
        obtain rfl : _ = a := ha
        exact hhead _ hends
      | cons q qs => exact Note.fits_self _
    have hlist : (b :: bs).flatMap (chart Λ) = (JumpTarget.lead b.target).map (fun _ => .any) ++
        (Piece.notes Λ ⟨.body, Content.of b.cached⟩ b.body ++ bs.flatMap (chart Λ)) := by
      rw [List.flatMap_cons, chart, List.append_assoc]
    have hcode : code (b :: bs) = JumpTarget.lead b.target ++ (b.body ++ code bs) := by
      rw [code, List.flatMap_cons, pieces, List.append_assoc]
      rfl
    have hcached := hof.cached
    rw [hlist, hcode]
    cases ht : b.target with
    | none =>
      rw [ht] at hcached
      exact ⟨hbody.append hflows, fun a ha => (show a.Fits ⟨.body, Content.of b.cached⟩ from
        hcached ▸ ha.fits_of).trans hstart⟩
    | some t =>
      rw [ht] at hcached
      have hnote := htargets b (List.mem_cons_self ..) t ht
      refine ⟨?_, fun a ha => ha.fits_any⟩
      refine ⟨?_, ?_, hbody.append hflows⟩
      · change Note.any.Fits (Λ t.label)
        rw [hnote]
        exact Note.fits_self _
      · change (Λ t.label).Fits _
        rw [hnote]
        exact Note.Fits.trans (by rw [hcached]; exact Note.fits_self _) hstart

end

end Block

/-- The displacements of the registers that the instructions of a unit name. -/
def CodeUnit.Names (u : CodeUnit) (d : Int32) : Prop :=
  ∃ ins ∈ Stream.instructions u.code.data, ∃ r, ins.Names r ∧ Frame.registerOffset? r = some d

namespace Part

def entryNote : Note := ⟨.entry, .unknown⟩

/-- The notes of the labels of a unit. Nothing in the body of a function fits the note of the thunk, so no
jump goes there. -/
def labelNotes (p : Part) : Label → Note :=
  Block.labelNotes (fun l => if l = p.entry ∨ l = Session.stubThunk then entryNote else .any) p.blocks

/-- The notes before the pieces of a unit. -/
def chart (p : Part) : List Note :=
  [.never, entryNote, entryNote] ++ p.blocks.flatMap (Block.chart p.labelNotes) ++
    ((JumpTarget.lead (p.jumps.find? p.last)).map (fun _ => .any) ++
      Piece.notes p.labelNotes .any (Session.epilogueCode.map .instr))

/-- What is known before a piece of a unit. -/
def noteAt (p : Part) (i : Nat) : Note := p.chart.getD i .never

namespace Built

variable {p : Part} {low : Nat} {ops : List Opcode} (h : p.Built low ops)

include h

theorem labelNotes_entry : p.labelNotes p.entry = entryNote := by
  rw [labelNotes, Block.labelNotes_of_lt h.run (Nat.lt_succ_self _), if_pos (.inl rfl)]

theorem labelNotes_thunk (hlow : Session.stubThunk < low) :
    p.labelNotes Session.stubThunk = entryNote := by
  have hlt : Session.stubThunk < p.entry := Nat.lt_of_lt_of_le hlow h.above
  rw [labelNotes, Block.labelNotes_of_lt h.run (Nat.lt_succ_of_lt hlt), if_pos (.inr rfl)]

theorem labelNotes_target (hlow : Session.stubThunk < low) {t : JumpTarget} (ht : t ∈ p.jumps) :
    p.labelNotes t.label = .any := by
  have hlt := h.scanned.fresh.high t ht
  have hge : Session.stubThunk < t.label := Nat.lt_of_lt_of_le hlow (h.scanned.fresh.low t ht)
  rw [labelNotes, Block.labelNotes_of_lt h.run (Nat.lt_succ_of_lt hlt),
    if_neg (not_or.2 ⟨Nat.ne_of_lt hlt, (Nat.ne_of_lt hge).symm⟩)]

/-- A block leads from what the accumulator holds before it to what it is taken to hold after it. -/
theorem leads (hlow : Session.stubThunk < low) {b : Block}
    (hb : b ∈ p.blocks) : ∃ a,
      Piece.Leads p.labelNotes p.unit.Names ⟨.body, Content.of b.cached⟩ b.body a ∧ a.Ends b.upcoming ∧
      Piece.tight true b.body = true := by
  have hins := h.mem_instructions hb
  have hslots : ∀ r, b.ins.Names r → r.Slot p.unit.Names := by
    intro r hr
    obtain ⟨d, hd, -⟩ := Register.slot_of_ne_invalid (h.formed.ne_invalid hins hr)
    exact ⟨d, hd, b.ins, hins, r, hr, hd⟩
  have hlabel := h.label_lt hb
  have hthunk : Session.stubThunk < p.entry := Nat.lt_of_lt_of_le hlow h.above
  obtain ⟨r, n, hn, hof⟩ := h.run.of_mem hb
  have hbase : p.entry < b.base := by
    rw [hof.base]
    exact hn
  let own (l : Label) : Note := if l = Session.stubThunk then entryNote
    else Emit.localNotes b.ins.opcode (Content.of b.cached) b.base l
  have hown' {l : Nat} (hl : Session.stubThunk < l) :
      own l = Emit.localNotes b.ins.opcode (Content.of b.cached) b.base l := if_neg (Nat.ne_of_gt hl)
  obtain ⟨a, offs, hleads, hends, htight, hbinds, hperm, htargets⟩ := (h.emitted hb).done (Λ := own)
    (h.fits hb hslots) hlabel
    (fun i => (hown' (Nat.lt_of_lt_of_le (hthunk.trans hbase) (Nat.le_add_right _ _))).trans
      (Emit.localNotes_add b.ins.opcode (Content.of b.cached) b.base i))
    fun t ht => (hown' (Nat.lt_of_lt_of_le hlow (h.scanned.fresh.low t ht))).trans
      (Emit.localNotes_of_lt _ _ (hlabel t ht))
  refine ⟨a, (Piece.leads_congr fun l hl => ?_).2 hleads, hends, htight⟩
  -- A label of its own, or one from before: that of a target or of the thunk.
  have hown (l : Nat) (hl : b.base ≤ l ∧ l < b.base + b.count) : p.labelNotes l = own l :=
    (Block.labelNotes_of_mem h.run hb hl.1 hl.2).trans
      (hown' (Nat.lt_of_lt_of_le (hthunk.trans hbase) hl.1)).symm
  rcases hl with hl | hl
  · rcases htargets l hl with (rfl | ⟨t, ht, rfl⟩) | hl
    · exact (h.labelNotes_thunk hlow).trans (if_pos rfl).symm
    · exact (h.labelNotes_target hlow ht).trans
        ((hown' (Nat.lt_of_lt_of_le hlow (h.scanned.fresh.low t ht))).trans
          (Emit.localNotes_of_lt _ _ (hlabel t ht))).symm
    · exact hown l hl
  · rw [hbinds, List.mem_map] at hl
    obtain ⟨i, hi, rfl⟩ := hl
    have := List.mem_range.1 (hperm.mem_iff.1 hi)
    exact hown _ ⟨by omega, by omega⟩

theorem flows (hlow : Session.stubThunk < low) :
    Piece.Flows p.labelNotes p.unit.Names p.pieces p.chart .never := by
  obtain ⟨hblocks, hhead⟩ := h.run.flows (Λ := p.labelNotes) (W := p.unit.Names)
    (fun b hb => (h.leads hlow hb).imp fun a ha => ⟨ha.1, ha.2.1⟩) fun b hb t ht => by
      rw [h.target hb] at ht
      exact h.labelNotes_target hlow (JumpTable.mem_of_find? ht).1
  have hepilogue : Piece.Leads p.labelNotes p.unit.Names .any (Session.epilogueCode.map .instr) .never := by
    simp [Session.epilogueCode]
  have hending : Piece.Flows p.labelNotes p.unit.Names p.ending
      ((JumpTarget.lead (p.jumps.find? p.last)).map (fun _ => .any) ++
        Piece.notes p.labelNotes .any (Session.epilogueCode.map .instr)) .never := by
    rw [ending]
    cases ht : p.jumps.find? p.last with
    | none => exact hepilogue.flows (Note.fits_self _)
    | some t =>
      have hnote := h.labelNotes_target hlow (JumpTable.mem_of_find? ht).1
      refine ⟨?_, ?_, hepilogue.flows (Note.fits_self _)⟩
      · change Note.any.Fits (p.labelNotes t.label)
        rw [hnote]
        exact Note.fits_self _
      · change (p.labelNotes t.label).Fits .any
        rw [hnote]
        exact Note.fits_self _
  -- The notes of the ending start with nothing known.
  have hfirst : ((JumpTarget.lead (p.jumps.find? p.last)).map (fun _ => Note.any) ++
      Piece.notes p.labelNotes .any (Session.epilogueCode.map .instr)).headD .never = .any := by
    cases p.jumps.find? p.last <;> rfl
  rw [pieces, front, chart, List.append_assoc, List.append_assoc]
  have hrest := hblocks
  rw [← hfirst] at hrest
  refine Piece.Flows.append ?_ (hrest.append hending)
  have hentry : p.labelNotes p.entry = entryNote := h.labelNotes_entry
  refine ⟨rfl, .inl rfl, ?_, ?_, rfl, ?_, trivial⟩
  · change entryNote.Fits (p.labelNotes p.entry)
    rw [hentry]
    exact Note.fits_self _
  · change (p.labelNotes p.entry).Fits entryNote
    rw [hentry]
    exact Note.fits_self _
  · change Note.any.Fits _
    have hany := hhead .any (.inr ⟨rfl, fun hne => absurd rfl hne⟩)
    cases hflat : p.blocks.flatMap (Block.chart p.labelNotes) with
    | nil =>
      rw [List.nil_append, List.headD_nil, hfirst]
      exact Note.fits_self _
    | cons a as =>
      rw [hflat] at hany
      exact hany

theorem admits (hlow : Session.stubThunk < low) {i : Nat} {q : Piece} (hq : p.pieces[i]? = some q) :
    q.Admits p.labelNotes p.unit.Names (p.noteAt i) ∧ (q.next p.labelNotes (p.noteAt i)).Fits (p.noteAt (i + 1)) :=
  (h.flows hlow).get hq

theorem length_chart (hlow : Session.stubThunk < low) : p.chart.length = p.pieces.length :=
  (h.flows hlow).length_eq

theorem primed : Piece.Primed p.pieces := by
  have hlead (t : Option JumpTarget) : Piece.Primed (JumpTarget.lead t) :=
    Piece.primed_of_not_call fun l hl => by
      obtain ⟨t, -, heq⟩ := Session.mem_lead.1 hl
      cases heq
  have hblocks : Piece.Primed (Block.code p.blocks) := by
    have hbody : ∀ b ∈ p.blocks, Piece.Primed b.body := fun b hb => by
      obtain ⟨c, hrun⟩ := h.emitted hb
      obtain ⟨-, ps, hps, -, hprimed⟩ := Emit.tidy_instruction b.ins _ (Nat.le_refl b.base) _ _ hrun
      obtain rfl : b.body = ps := by simpa using hps
      exact hprimed
    revert hbody
    induction p.blocks with
    | nil => exact fun _ => Piece.primed_of_not_call (by simp [Block.code])
    | cons b bs ih =>
      intro hbody
      exact ((hlead b.target).append (hbody b (List.mem_cons_self ..))).append
        (ih fun b hb => hbody b (List.mem_cons_of_mem _ hb))
  refine ((Piece.primed_of_not_call (by simp [prologue])).append hblocks).append ((hlead _).append ?_)
  exact Piece.primed_of_not_call (by simp)

end Built

end Part

end RegisterJit
