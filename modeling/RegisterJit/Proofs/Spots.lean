import RegisterJit.Proofs.Charts
import RegisterJit.Proofs.Program
import RegisterJit.Proofs.Subroutines

/-!
# Spots

The places in compiled code of which something is known: in front of a piece of a unit, or at the end of the unit.

`Lodged` is a program that was parsed, compiled and linked, and whose image is one of those of a machine; it has the
units that were compiled, with a chart for each (`Charts`). A `Spot` is an index into the pieces of one of its units.
It has an address and a note, and `Spot.admits` says what the chart says: the piece that stands there is admitted by
the note, and what it leads to suits the note of the next spot.

An address alone does not tell the spot, since pieces that bind a label or take an operand that is in place already
take no room. `Spot.unique` says that it does in front of pieces that take room. `Opens` relates a span, which is what
is recorded of the code of an instruction, to the spots of the instruction; with `note_start` and `note_kept` whoever
is at the address of the instruction, or of an operand that it takes from the accumulator, finds there what the
emitter took the accumulator to hold, although the piece that control is in front of may be a later one.

The last section has the places where control arrives otherwise than from the piece before: the entries of functions,
the ends of the regions of handlers, and the places that finally blocks come back to. Nothing is known there but
that a function is under way.
-/

namespace RegisterJit

open X86 (Reg Instr Label)

/-! ## Pieces that take no room -/

namespace Piece

/-- Pieces that take no room, in front of which nothing is bound, leave what is known alone. -/
theorem notes_getD_of_still {Λ : Label → Note} {ps : List Piece} {a e : Note} {k pos : Nat}
    (htight : tight true ps = true) (hk : k < ps.length) (hstill : endFrom pos (ps.take k) = pos) :
    (notes Λ a ps).getD k e = a := by
  induction ps generalizing a k with
  | nil => cases hk
  | cons p ps ih =>
    cases k with
    | zero => rfl
    | succ k =>
      have hsize : p.size pos = 0 := by
        have hle := le_endFrom (pos + p.size pos) (ps.take k)
        rw [List.take_succ_cons, endFrom] at hstill
        omega
      have hrest : endFrom pos (ps.take k) = pos := by
        rw [List.take_succ_cons, endFrom, hsize] at hstill
        exact hstill
      have hlt : k < ps.length := Nat.lt_of_succ_lt_succ hk
      cases p with
      | bind l => cases htight
      | align n => exact ih htight hlt hrest
      | kept dst r =>
        have hdst : dst = .rax := by
          by_contra hne
          rw [size, encode, if_neg hne] at hsize
          have := (X86.length_encode_bounds (.mov .w64 dst .rax)).1
          omega
        subst hdst
        exact ih htight hlt hrest
      | instr i =>
        have := (X86.length_encode_bounds i).1
        rw [size, encode] at hsize
        omega
      | jmp l => cases hsize
      | jcc c l => cases hsize
      | call l => cases hsize
      | address dst l =>
        have := (X86.length_encode_bounds (.movImm64 dst 0)).1
        rw [size, encode] at hsize
        omega

theorem tight_of_kept {ps : List Piece} {r : Register} {rest : List Piece} {fresh : Bool}
    (h : tight fresh (ps ++ .kept .rax r :: rest) = true) : tight true rest = true := by
  induction ps generalizing fresh with
  | nil => exact h
  | cons p ps ih =>
    cases p with
    | bind l =>
      simp only [List.cons_append, tight, Bool.and_eq_true] at h
      exact ih h.2
    | _ => exact ih h

theorem prefix_of_place {f g l : List Piece} {q : Piece} (hf : f ++ [q] <+: l) (hg : g <+: l)
    (hsize : 0 < q.size (endFrom 0 f)) (hplace : endFrom 0 f = endFrom 0 g) : g <+: f := by
  rcases List.prefix_or_prefix_of_prefix hg ((List.prefix_append f [q]).trans hf) with h | h
  · exact h
  rcases Nat.lt_or_ge f.length g.length with hlt | hge
  · have hnext : f ++ [q] <+: g := List.prefix_of_prefix_length_le hf hg (by rw [List.length_append]; exact hlt)
    have hle := endFrom_mono hnext 0
    rw [endFrom_append] at hle
    have : endFrom (endFrom 0 f) [q] = endFrom 0 f + q.size (endFrom 0 f) := rfl
    omega
  · obtain rfl := List.IsPrefix.eq_of_length h (Nat.le_antisymm h.length_le hge)
    exact List.prefix_rfl

end Piece

/-! ## Units as they are built -/

theorem Block.Run.le_labels {u : CodeUnit} {jumps : JumpTable} {r : Register} {n : Nat} {is : List Instruction}
    {blocks : List Block} (h : Run u jumps r n is blocks) {b : Block} (hb : b ∈ blocks) :
    b.base + b.count ≤ n + labels blocks := by
  induction is generalizing r n blocks with
  | nil =>
    obtain rfl : blocks = [] := h
    cases hb
  | cons ins is ih =>
    obtain ⟨b₀, rest, rfl, hof, hrest⟩ := h
    rw [labels, List.map_cons, List.sum_cons]
    rcases List.mem_cons.1 hb with rfl | hb
    · rw [hof.base]
      omega
    · have := ih hrest hb
      rw [labels] at this
      omega

namespace Part

theorem Built.shaped {p : Part} {low : Nat} {ops : List Opcode} (h : p.Built low ops) : p.Shaped where
  whole := by rw [h.formed.spells.read_eq]
  blocks := h.map_ins
  targets _ := h.target
  emitted _ := h.emitted
  fresh _ := h.label_lt
  entry := h.scanned.fresh.high
  offset t ht t' ht' heq := congrArg JumpTarget.offset (h.scanned.fresh.labels t ht t' ht' heq)

theorem Built.within {p : Part} {low : Nat} {ops : List Opcode} (h : p.Built low ops) : p.Within low p.limit := by
  have habove := h.above
  constructor
  · intro t ht
    have hhigh := h.scanned.fresh.high t ht
    exact ⟨h.scanned.fresh.low t ht, Nat.lt_of_lt_of_le hhigh (by rw [limit]; omega)⟩
  · have hlead {target : Option JumpTarget} (htarget : ∀ t, target = some t → t ∈ p.jumps) {l : Nat}
        (hl : Piece.bind l ∈ JumpTarget.lead target) : low ≤ l ∧ l < p.limit := by
      obtain ⟨t, rfl, heq⟩ := Session.mem_lead.1 hl
      obtain rfl : l = t.label := Piece.bind.inj heq
      have hhigh := h.scanned.fresh.high t (htarget t rfl)
      exact ⟨h.scanned.fresh.low t (htarget t rfl), Nat.lt_of_lt_of_le hhigh (by rw [limit]; omega)⟩
    intro l hl
    rw [Piece.mem_binds, pieces, front, List.mem_append, List.mem_append] at hl
    rcases hl with (hl | hl) | hl
    · obtain rfl : l = p.entry := by simpa [prologue] using hl
      exact ⟨habove, by rw [limit]; omega⟩
    · obtain ⟨b, hb, hl⟩ := List.mem_flatMap.1 hl
      rcases List.mem_append.1 hl with hl | hl
      · exact hlead (fun t ht => (JumpTable.mem_of_find? ((h.target hb).symm.trans ht)).1) hl
      · have hbound := ((h.emitted hb).binds (h.fits_any hb) (h.label_lt hb)).2 l |>.1 (Piece.mem_binds.2 hl)
        obtain ⟨r, n, hn, hof⟩ := h.run.of_mem hb
        have hlabels := h.run.le_labels hb
        have hbase := hof.base
        rw [limit]
        omega
    · rcases List.mem_append.1 hl with hl | hl
      · exact hlead (fun t ht => (JumpTable.mem_of_find? ht).1) hl
      · obtain ⟨i, -, heq⟩ := List.mem_map.1 hl
        cases heq

theorem Chain.ranked {low : Nat} {parts : List Part} (h : Chain low parts) :
    ∃ high, Ranked low parts high := by
  induction parts generalizing low with
  | nil => exact ⟨low, Nat.le_refl _⟩
  | cons p parts ih =>
    obtain ⟨⟨ops, hbuilt⟩, hrest⟩ := h
    obtain ⟨high, hranked⟩ := ih hrest
    exact ⟨high, p.limit, Nat.le_trans hbuilt.above (by rw [limit]; omega), hbuilt.within, hranked⟩

theorem Chain.above {low : Nat} {parts : List Part} (h : Chain low parts) {p : Part} (hp : p ∈ parts) :
    ∃ low' ops, low ≤ low' ∧ p.Built low' ops := by
  induction parts generalizing low with
  | nil => cases hp
  | cons p₀ parts ih =>
    rcases List.mem_cons.1 hp with rfl | hp
    · obtain ⟨ops, hbuilt⟩ := h.1
      exact ⟨low, ops, Nat.le_refl _, hbuilt⟩
    · obtain ⟨low', ops, hle, hbuilt⟩ := ih h.2 hp
      obtain ⟨ops₀, hbuilt₀⟩ := h.1
      exact ⟨low', ops, Nat.le_trans (Nat.le_trans hbuilt₀.above (by rw [limit]; omega)) hle, hbuilt⟩

end Part

theorem Session.Holds.placed {s : Session} {parts : List Part} {image : Image} (h : s.Holds parts)
    (hlinked : s.Linked image) (hroom : image.base.toNat + s.size < 2 ^ 64) : s.Placed parts image where
  comprises := h.toComprises
  shaped p hp := by
    obtain ⟨low, ops, hbuilt⟩ := h.chain.built hp
    exact hbuilt.shaped
  ranked := h.chain.ranked
  linked := hlinked
  small p hp := by
    obtain ⟨low, ops, hbuilt⟩ := h.chain.built hp
    exact Nat.lt_trans hbuilt.small (by decide)
  room := hroom

/-! ## Images of programs -/

/-- An image of a program among those of a machine. The program was compiled from the codes that a text gives and
linked. Displacements have 32 bits, so its code is shorter than `2 ^ 31` bytes. -/
structure Lodged (images : Array LoadedImage) where
  units : List CodeUnit
  parsed : ∃ source code, Listing.parse source = .ok code ∧ units.map (fun u => some u.code) = code.walk
  pools : ∀ u ∈ units, u.pool.size = u.code.constants.size
  small : ∀ u ∈ units, u.code.data.size < 2 ^ 31
  session : Session
  compiled : Session.start.compile (units.map some) = (.ok (), session)
  image : Image
  linked : ∃ (α : Type) (allocator : α) (allocate : α → Int → Except AllocationError UInt64 × α),
    (session.link allocator allocate).result = .ok image
  short : session.size < 2 ^ 31
  positive : 0 < image.base.toNat
  room : image.base.toNat + session.size < 2 ^ 64
  found : ∀ pc, image.contains pc = true →
    ∃ loaded : LoadedImage, images.find? (fun img => img.contains pc) = some loaded ∧ loaded.toImage = image

namespace Lodged

variable {images : Array LoadedImage}

/-- Programs have images of their own. -/
def Distinct (L : List (Lodged images)) : Prop := ∀ a ∈ L, ∀ b ∈ L, a.image = b.image → a = b

theorem distinct_singleton (y : Lodged images) : Distinct [y] := by
  intro a ha b hb _
  rw [List.mem_singleton.1 ha, List.mem_singleton.1 hb]

variable (x : Lodged images)

theorem ready : ∀ u ∈ x.units, u.Ready := by
  obtain ⟨source, code, hparse, hwalk⟩ := x.parsed
  intro u hu
  have hsound := Listing.parse_sound source
  rw [hparse] at hsound
  obtain ⟨ds, hds, hformed⟩ := Code.Sound.codes hsound
  refine ⟨hformed _ ?_, x.small u hu, x.pools u hu⟩
  have hmem : some u.code ∈ code.walk := hwalk ▸ List.mem_map_of_mem (f := fun u => some u.code) hu
  rw [hds] at hmem
  simpa using hmem

theorem exists_parts : ∃ parts, parts.map Part.unit = x.units ∧ x.session.Holds parts ∧
    x.session.Placed parts x.image := by
  have hcompiled : Session.Compiled [x.units.map some] x.session := Session.Compiled.fresh.compile x.compiled
  obtain ⟨parts', hunits, hcomprises, -⟩ := hcompiled.comprises
  obtain ⟨parts, s, hs, hmap, hholds, -⟩ := Session.compile_holds x.ready (by
    have hkeys := hcomprises.keys
    rw [List.flatten_singleton] at hunits
    rw [show (fun p : Part => some p.unit) = some ∘ Part.unit from rfl, ← List.map_map] at hunits
    rw [List.map_injective_iff.2 (Option.some_injective _) hunits, List.map_map]
    exact hkeys)
  obtain rfl : s = x.session := congrArg Prod.snd (hs.symm.trans x.compiled)
  obtain ⟨α, allocator, allocate, hlink⟩ := x.linked
  exact ⟨parts, hmap, hholds, hholds.placed (hholds.laid.linked hlink).2 x.room⟩

/-- The units of a program in the order in which they were compiled. -/
noncomputable def parts : List Part := x.exists_parts.choose

theorem parts_unit : x.parts.map Part.unit = x.units := x.exists_parts.choose_spec.1

theorem holds : x.session.Holds x.parts := x.exists_parts.choose_spec.2.1

theorem placed : x.session.Placed x.parts x.image := x.exists_parts.choose_spec.2.2

theorem built {p : Part} (hp : p ∈ x.parts) : ∃ low ops, Session.stubThunk < low ∧ p.Built low ops := by
  obtain ⟨low, ops, hlow, hbuilt⟩ := x.holds.chain.above hp
  exact ⟨low, ops, Nat.lt_of_lt_of_le (by decide +kernel) hlow, hbuilt⟩

theorem loaded : Loaded images x.session x.image :=
  ⟨⟨x.parts, x.placed⟩, x.short, x.positive, x.found⟩

theorem contains {place : Nat} (h : place < x.session.size) : x.image.contains (x.image.address place) = true := by
  have hsize := x.loaded.linked.size_eq x.loaded.laid
  simp only [Image.contains, Bool.and_eq_true, decide_eq_true_eq, UInt64.le_iff_toNat_le, UInt64.lt_iff_toNat_lt,
    x.loaded.toNat_address (Nat.le_of_lt h)]
  rw [hsize, show x.image.base + x.session.size.toUInt64 = x.image.address _ from rfl,
    x.loaded.toNat_address (Nat.le_refl _)]
  omega

end Lodged

/-! ## Spots -/

/-- Whether a piece may be one of the two before the call of a stub. -/
def Piece.primes : Piece → Bool
  | .instr (.mov _ dst _) => dst = .rdi
  | .instr (.movImm32 ..) => true
  | _ => false

/-- A place in the code of a unit: before one of its pieces, or at its end. -/
structure Spot (images : Array LoadedImage) where
  lodged : Lodged images
  before : List Part
  part : Part
  after : List Part
  split : lodged.parts = before ++ part :: after
  index : Nat

namespace Spot

variable {images : Array LoadedImage} (x : Spot images) {q : Piece}

/-- The pieces of the session before a spot. -/
def upTo : List Piece := Session.thunkPieces ++ (Part.code x.before ++ x.part.pieces.take x.index)

def place : Nat := Piece.endFrom 0 x.upTo

def address : UInt64 := x.lodged.image.address x.place

def note : Note := x.part.noteAt x.index

def piece? : Option Piece := x.part.pieces[x.index]?

/-- Another spot in the same unit. -/
def goto (i : Nat) : Spot images := { x with index := i }

def next : Spot images := x.goto (x.index + 1)

theorem part_mem : x.part ∈ x.lodged.parts := by
  rw [x.split]
  simp

theorem built : ∃ low ops, Session.stubThunk < low ∧ x.part.Built low ops := x.lodged.built x.part_mem

theorem pieces : x.lodged.session.pieces.toList = Session.thunkPieces ++ (Part.code x.before ++
    (x.part.pieces ++ Part.code x.after)) := by
  rw [x.lodged.holds.pieces, x.split, Part.code_append]
  rfl

theorem upTo_prefix : x.upTo <+: x.lodged.session.pieces.toList := by
  rw [x.pieces, upTo, List.prefix_append_right_inj, List.prefix_append_right_inj]
  exact (List.take_prefix _ _).trans (List.prefix_append _ _)

theorem pieces_eq (h : x.piece? = some q) :
    ∃ rest, x.lodged.session.pieces.toList = x.upTo ++ q :: rest := by
  obtain ⟨hlt, rfl⟩ := List.getElem?_eq_some_iff.1 h
  refine ⟨x.part.pieces.drop (x.index + 1) ++ Part.code x.after, ?_⟩
  rw [x.pieces, upTo, List.append_assoc, List.append_assoc, ← List.cons_append,
    List.getElem_cons_drop, ← List.append_assoc (List.take _ _), List.take_append_drop]

theorem upTo_next (h : x.piece? = some q) : x.next.upTo = x.upTo ++ [q] := by
  have htake : x.part.pieces.take (x.index + 1) = x.part.pieces.take x.index ++ [q] := by
    rw [List.take_add_one, show x.part.pieces[x.index]? = some q from h]
    rfl
  change Session.thunkPieces ++ (Part.code x.before ++ x.part.pieces.take (x.index + 1)) = _
  rw [htake, upTo]
  simp only [List.append_assoc]

theorem place_next (h : x.piece? = some q) : x.next.place = x.place + q.size x.place := by
  rw [place, x.upTo_next h, Piece.endFrom_append]
  rfl

theorem place_le : x.place ≤ x.lodged.session.size := by
  rw [x.lodged.loaded.laid.size_eq]
  exact Piece.endFrom_mono x.upTo_prefix 0

theorem toNat_address : x.address.toNat = x.lodged.image.base.toNat + x.place :=
  x.lodged.loaded.toNat_address x.place_le

theorem size_le_place : Session.start.size ≤ x.place := by
  rw [Session.start_laid.size_eq]
  exact Piece.endFrom_mono (List.prefix_append _ _) 0

theorem admits (h : x.piece? = some q) : q.Admits x.part.labelNotes x.part.unit.Names x.note ∧
    (q.next x.part.labelNotes x.note).Fits x.next.note := by
  obtain ⟨low, ops, hlow, hbuilt⟩ := x.built
  exact hbuilt.admits hlow h

theorem opening (h : x.index = 1) : x.note = Part.entryNote ∧ x.piece? = some (.bind x.part.entry) ∧
    x.next.piece? = some (.instr (.push frameReg)) := by
  have hnext : x.next.piece? = x.part.pieces[x.index + 1]? := rfl
  rw [hnext, note, Part.noteAt, piece?, h]
  exact ⟨rfl, rfl, rfl⟩

theorem note_of_none (h : x.piece? = none) : x.note = .never := by
  obtain ⟨low, ops, hlow, hbuilt⟩ := x.built
  have hle' : x.part.chart.length ≤ x.index := by
    rw [hbuilt.length_chart hlow]
    exact List.getElem?_eq_none_iff.1 h
  rw [note, Part.noteAt, List.getD_eq_getElem?_getD, List.getElem?_eq_none hle', Option.getD_none]

theorem exists_bind {l : Nat} (hl : l ∈ Piece.binds x.part.pieces) :
    ∃ j, (x.goto j).piece? = some (.bind l) ∧ x.lodged.session.placeOf l = (x.goto j).place := by
  obtain ⟨j, hj⟩ := List.mem_iff_getElem?.1 (Piece.mem_binds.1 hl)
  obtain ⟨rest, hrest⟩ := (x.goto j).pieces_eq (q := .bind l) hj
  exact ⟨j, hj, x.lodged.loaded.laid.placeOf_eq hrest⟩

/-- Labels that the code of a unit jumps to are bound in it. -/
theorem target_mem_binds (h : x.piece? = some q) {l : Nat} (hl : q.target? = some l) :
    l = Session.stubThunk ∨ l ∈ Piece.binds x.part.pieces := by
  obtain ⟨low, ops, hlow, hbuilt⟩ := x.built
  exact hbuilt.target_mem_binds (List.mem_filterMap.2 ⟨q, List.mem_of_getElem? h, hl⟩)

theorem labelNotes_thunk : x.part.labelNotes Session.stubThunk = Part.entryNote := by
  obtain ⟨low, ops, hlow, hbuilt⟩ := x.built
  exact hbuilt.labelNotes_thunk hlow

/-- The context has just been loaded for the call of a stub. -/
def Primed : Prop :=
  ∃ front, x.part.pieces.take x.index = front ++ [.instr (.mov .w64 .rdi contextReg)] ∨
    ∃ n, x.part.pieces.take x.index =
      front ++ [.instr (.mov .w64 .rdi contextReg), .instr (.movImm32 .rax n)]

theorem primed_of_call {l : Label} (h : x.piece? = some (.call l)) : x.Primed := by
  obtain ⟨low, ops, hlow, hbuilt⟩ := x.built
  obtain ⟨hlt, heq⟩ := List.getElem?_eq_some_iff.1 h
  have hsplit : x.part.pieces = x.part.pieces.take x.index ++ .call l :: x.part.pieces.drop (x.index + 1) := by
    rw [← heq, List.getElem_cons_drop, List.take_append_drop]
  obtain ⟨front, n, hfront⟩ := hbuilt.primed _ l _ hsplit
  exact ⟨front, .inr ⟨n, hfront⟩⟩

theorem primed_next (h : x.piece? = some q) (hprimed : x.next.Primed) :
    q = .instr (.mov .w64 .rdi contextReg) ∨ x.Primed ∧ ∃ n, q = .instr (.movImm32 .rax n) := by
  have htake : x.part.pieces.take x.next.index = x.part.pieces.take x.index ++ [q] := by
    change x.part.pieces.take (x.index + 1) = _
    rw [List.take_add_one, show x.part.pieces[x.index]? = some q from h]
    rfl
  obtain ⟨front, hfront | ⟨n, hfront⟩⟩ := hprimed
  all_goals rw [show x.next.part = x.part from rfl, htake] at hfront
  · exact .inl (List.append_inj_right' hfront rfl |> List.singleton_inj.1)
  · have hsplit : front ++ [.instr (.mov .w64 .rdi contextReg), .instr (.movImm32 .rax n)] =
        (front ++ [.instr (.mov .w64 .rdi contextReg)]) ++ [Piece.instr (.movImm32 .rax n)] := by simp
    rw [hsplit] at hfront
    obtain ⟨hleft, hright⟩ := List.append_inj' hfront rfl
    exact .inr ⟨⟨front, .inl hleft⟩, n, List.singleton_inj.1 hright⟩

theorem not_primed_next (hq : x.piece? = some q) (h : q.primes = false) : ¬ x.next.Primed := by
  intro hprimed
  rcases x.primed_next hq hprimed with heq | ⟨-, n, heq⟩
  all_goals
    rw [heq] at h
    cases h

/-! ### Spots with the same address -/

theorem index_unique {parts before before' after after' : List Part} {p p' : Part} {i j : Nat}
    (hparts : parts = before ++ p :: after) (hparts' : parts = before' ++ p' :: after')
    (hi : i < p.pieces.length) (hj : j < p'.pieces.length)
    (h : (Part.code before).length + i = (Part.code before').length + j) :
    before = before' ∧ p = p' ∧ after = after' ∧ i = j := by
  -- One list of units before would hold the other one with its unit.
  have hlength {b c : List Part} {p : Part} :
      (Part.code (b ++ p :: c)).length = (Part.code b).length + (p.pieces.length + (Part.code c).length) := by
    simp [Part.code]
  rcases List.append_eq_append_iff.1 (hparts.symm.trans hparts') with ⟨mid, rfl, hmid⟩ | ⟨mid, rfl, hmid⟩
  · cases mid with
    | nil =>
      cases hmid
      exact ⟨(List.append_nil _).symm, rfl, rfl, by simpa using h⟩
    | cons q mid =>
      cases hmid
      rw [hlength] at h
      omega
  · cases mid with
    | nil =>
      cases hmid
      exact ⟨List.append_nil _, rfl, rfl, by simpa using h⟩
    | cons q mid =>
      cases hmid
      rw [hlength] at h
      omega

/-- Before a piece that takes room, the address tells the spot. -/
theorem unique {L : List (Lodged images)} (hL : Lodged.Distinct L) {x y : Spot images} (hx : x.lodged ∈ L)
    (hy : y.lodged ∈ L) {q r : Piece} (hq : x.piece? = some q) (hr : y.piece? = some r)
    (hqs : 0 < q.size x.place) (hrs : 0 < r.size y.place) (h : x.address = y.address) : x = y := by
  have hlt (z : Spot images) {p : Piece} (hp : z.piece? = some p) (hs : 0 < p.size z.place) :
      z.place < z.lodged.session.size := by
    have hnext := z.next.place_le
    rw [z.place_next hp] at hnext
    exact Nat.lt_of_lt_of_le (Nat.lt_add_of_pos_right hs) hnext
  obtain ⟨img, hfound, himg⟩ := x.lodged.found _ (x.lodged.contains (hlt x hq hqs))
  obtain ⟨img', hfound', himg'⟩ := y.lodged.found _ (y.lodged.contains (hlt y hr hrs))
  rw [show x.lodged.image.address x.place = x.address from rfl, h] at hfound
  obtain rfl : img = img' := Option.some.inj (hfound.symm.trans hfound')
  have hlodged := hL _ hx _ hy (himg.symm.trans himg')
  have hplace : x.place = y.place := by
    have haddress := congrArg UInt64.toNat h
    rw [x.toNat_address, y.toNat_address, hlodged] at haddress
    exact Nat.add_left_cancel haddress
  have hxs := x.upTo_next hq ▸ x.next.upTo_prefix
  have hys := y.upTo_next hr ▸ y.next.upTo_prefix
  have hpx := x.upTo_prefix
  have hpy := y.upTo_prefix
  rw [show x.next.lodged = x.lodged from rfl, hlodged] at hxs
  rw [hlodged] at hpx
  have hupTo : x.upTo.length = y.upTo.length := Nat.le_antisymm
    (Piece.prefix_of_place hys hpx hrs hplace.symm).length_le (Piece.prefix_of_place hxs hpy hqs hplace).length_le
  have hi := (List.getElem?_eq_some_iff.1 hq).1
  have hj := (List.getElem?_eq_some_iff.1 hr).1
  obtain ⟨lodged, before, part, after, split, i⟩ := x
  obtain ⟨lodged', before', part', after', split', j⟩ := y
  obtain rfl : lodged = lodged' := hlodged
  dsimp only at hi hj
  simp only [upTo, List.length_append, List.length_take] at hupTo
  obtain ⟨rfl, rfl, rfl, rfl⟩ := index_unique split split' hi hj (by omega)
  rfl

end Spot

namespace Piece

theorem exists_sized {ps : List Piece} {pos : Nat} (h : pos < endFrom pos ps) :
    ∃ k q, ps[k]? = some q ∧ endFrom pos (ps.take k) = pos ∧ 0 < q.size pos := by
  induction ps with
  | nil => exact absurd h (Nat.lt_irrefl _)
  | cons p ps ih =>
    by_cases hp : p.size pos = 0
    · rw [endFrom, hp, Nat.add_zero] at h
      obtain ⟨k, q, hq, hstill, hsize⟩ := ih h
      refine ⟨k + 1, q, hq, ?_, hsize⟩
      rw [List.take_succ_cons, endFrom, hp, Nat.add_zero, hstill]
    · exact ⟨0, p, rfl, rfl, Nat.pos_of_ne_zero hp⟩

theorem notes_getD_after {Λ : Label → Note} (ps qs : List Piece) (q : Piece) (a e : Note) (k : Nat) :
    (notes Λ a (ps ++ q :: qs)).getD (ps.length + 1 + k) e =
      (notes Λ (q.next Λ ((notes Λ a (ps ++ q :: qs)).getD ps.length e)) qs).getD k e := by
  induction ps generalizing a with
  | nil =>
    rw [List.length_nil, Nat.zero_add, Nat.add_comm]
    rfl
  | cons p ps ih =>
    rw [List.length_cons, show ps.length + 1 + 1 + k = (ps.length + 1 + k) + 1 by omega]
    exact ih (p.next Λ a)

theorem length_notes {Λ : Label → Note} (a : Note) (ps : List Piece) : (notes Λ a ps).length = ps.length := by
  induction ps generalizing a with
  | nil => rfl
  | cons p ps ih => rw [notes, List.length_cons, ih, List.length_cons]

end Piece

theorem Block.length_chart (Λ : Label → Note) (b : Block) : (b.chart Λ).length = b.pieces.length := by
  rw [chart, pieces, List.length_append, List.length_append, List.length_map, Piece.length_notes]

namespace Spot

variable {images : Array LoadedImage} {x : Spot images}

theorem block_piece {bs bs' : List Block} {b : Block} (hblocks : x.part.blocks = bs ++ b :: bs')
    (hx : x.index = 3 + (Block.code bs).length + (JumpTarget.lead b.target).length) {k : Nat}
    (hk : k < b.body.length) : (x.goto (x.index + k)).piece? = some b.body[k] ∧
      (x.goto (x.index + k)).note =
        (Piece.notes x.part.labelNotes ⟨.body, Content.of b.cached⟩ b.body).getD k .never := by
  have hchart (blocks : List Block) : (blocks.flatMap (Block.chart x.part.labelNotes)).length =
      (Block.code blocks).length := by
    rw [Block.code, List.length_flatMap, List.length_flatMap]
    exact congrArg List.sum (List.map_congr_left fun b _ => b.length_chart _)
  obtain ⟨rest, hrest⟩ : ∃ rest, x.part.pieces = (x.part.prologue ++ (Block.code bs ++
      JumpTarget.lead b.target)) ++ (b.body ++ rest) := by
    rw [Part.pieces, Part.front, hblocks, Block.code_split]
    exact ⟨Block.code bs' ++ x.part.ending, by simp⟩
  obtain ⟨rest', hrest'⟩ : ∃ rest, x.part.chart = ([Note.never, Part.entryNote, Part.entryNote] ++
      (bs.flatMap (Block.chart x.part.labelNotes) ++ (JumpTarget.lead b.target).map fun _ => Note.any)) ++
        (Piece.notes x.part.labelNotes ⟨.body, Content.of b.cached⟩ b.body ++ rest) := by
    rw [Part.chart, hblocks, List.flatMap_append, List.flatMap_cons, Block.chart]
    exact ⟨_, by simp only [List.append_assoc]; rfl⟩
  have hlength : (x.part.prologue ++ (Block.code bs ++ JumpTarget.lead b.target)).length = x.index := by
    rw [hx, List.length_append, List.length_append, ← Nat.add_assoc]
    rfl
  have hlength' : ([Note.never, Part.entryNote, Part.entryNote] ++
      (bs.flatMap (Block.chart x.part.labelNotes) ++ (JumpTarget.lead b.target).map fun _ => Note.any)).length =
        x.index := by
    rw [hx, List.length_append, List.length_append, hchart, List.length_map, ← Nat.add_assoc]
    rfl
  constructor
  · change x.part.pieces[x.index + k]? = _
    rw [hrest, List.getElem?_append_right (by omega), List.getElem?_append_left (by omega), hlength,
      Nat.add_sub_cancel_left]
    exact List.getElem?_eq_getElem hk
  · change x.part.chart.getD (x.index + k) .never = _
    rw [hrest', List.getD_eq_getElem?_getD, List.getElem?_append_right (by omega),
      List.getElem?_append_left (by rw [Piece.length_notes]; omega), hlength', Nat.add_sub_cancel_left,
      ← List.getD_eq_getElem?_getD]

/-- A spot is where the code of an instruction starts. -/
structure Opens (x : Spot images) (span : Span) (b : Block) : Prop where
  block : b ∈ x.part.blocks
  event : span.event = b.event x.part.unit
  key : span.key = x.part.unit.key
  start : x.upTo = x.lodged.session.pieces.toList.take span.start
  stop : x.lodged.session.pieces.toList.take span.stop = x.upTo ++ b.body
  piece : ∀ k (hk : k < b.body.length), (x.goto (x.index + k)).piece? = some b.body[k]
  note : ∀ k < b.body.length, (x.goto (x.index + k)).note =
    (Piece.notes x.part.labelNotes ⟨.body, Content.of b.cached⟩ b.body).getD k .never

theorem exists_opens (y : Lodged images) {span : Span} (hspan : span ∈ y.session.spans.toList) :
    ∃ (x : Spot images) (b : Block), x.lodged = y ∧ x.Opens span b := by
  obtain ⟨before, p, after, bs, b, bs', hparts, hblocks, hkey, hevent, hstart, hstop⟩ :=
    y.holds.block_of_span hspan
  let x : Spot images := ⟨y, before, p, after, hparts,
    3 + (Block.code bs).length + (JumpTarget.lead b.target).length⟩
  have hpiece (k : Nat) (hk : k < b.body.length) := block_piece (x := x) hblocks rfl hk
  have hupTo : x.upTo = Session.leading before p bs ++ JumpTarget.lead b.target := by
    have hsplit : p.pieces = (p.prologue ++ (Block.code bs ++ JumpTarget.lead b.target)) ++
        (b.body ++ (Block.code bs' ++ p.ending)) := by
      rw [Part.pieces, Part.front, hblocks, Block.code_split]
      simp
    change Session.thunkPieces ++ (Part.code before ++ p.pieces.take _) = _
    rw [hsplit, List.take_left' (by rw [List.length_append, List.length_append, ← Nat.add_assoc]; rfl),
      Session.leading]
    simp only [List.append_assoc]
  refine ⟨x, b, rfl, ⟨?_, hevent, hkey, hupTo.trans hstart.symm, hstop.trans ?_, fun k hk => (hpiece k hk).1,
    fun k hk => (hpiece k hk).2⟩⟩
  · change b ∈ p.blocks
    rw [hblocks]
    simp
  · rw [hupTo, Session.leading, Session.leading, Block.code, List.flatMap_append, List.flatMap_singleton,
      Block.pieces]
    simp only [List.append_assoc]
    rfl

theorem upTo_add {span : Span} {b : Block} (h : x.Opens span b) {k : Nat} (hk : k ≤ b.body.length) :
    (x.goto (x.index + k)).upTo = x.upTo ++ b.body.take k := by
  induction k with
  | zero => simp [goto]
  | succ k ih =>
    have hlt : k < b.body.length := hk
    have hnext := (x.goto (x.index + k)).upTo_next (h.piece k hlt)
    rw [ih (Nat.le_of_lt hlt)] at hnext
    rw [List.take_add_one, List.getElem?_eq_getElem hlt]
    exact hnext.trans (List.append_assoc ..)

namespace Opens

variable {span : Span} {b : Block} (h : x.Opens span b)

include h

theorem leads : ∃ a, Piece.Leads x.part.labelNotes x.part.unit.Names ⟨.body, Content.of b.cached⟩ b.body a ∧
    a.Ends b.upcoming ∧ Piece.tight true b.body = true := by
  obtain ⟨low, ops, hlow, hbuilt⟩ := x.built
  exact hbuilt.leads hlow h.block

theorem byteOf_start : x.lodged.session.byteOf span.start = x.place := by
  rw [Session.byteOf, ← h.start]
  rfl

theorem byteOf_stop : x.lodged.session.byteOf span.stop = Piece.endFrom x.place b.body := by
  rw [Session.byteOf, h.stop, Piece.endFrom_append]
  rfl

theorem place_add {k : Nat} (hk : k ≤ b.body.length) :
    (x.goto (x.index + k)).place = Piece.endFrom x.place (b.body.take k) := by
  rw [place, upTo_add h hk, Piece.endFrom_append]
  rfl

theorem place_le {j : Nat} (hj : j < b.body.length) : x.place ≤ (x.goto (x.index + j)).place := by
  rw [h.place_add (Nat.le_of_lt hj)]
  exact Piece.le_endFrom _ _

/-- The pieces of an instruction are those between the bounds of its span. -/
theorem piece_at {n : Nat} {q : Piece} (hlow : span.start ≤ n) (hhigh : n < span.stop)
    (hq : x.lodged.session.pieces.toList[n]? = some q) : ∃ j, b.body[j]? = some q ∧
      x.lodged.session.byteOf n = (x.goto (x.index + j)).place ∧
        (x.lodged.session.pieces.toList.take span.stop).drop n = b.body.drop j := by
  have hlt := (List.getElem?_eq_some_iff.1 hq).1
  have hlength : x.upTo.length = span.start := by
    rw [h.start, List.length_take]
    omega
  have htake : x.lodged.session.pieces.toList.take n = x.upTo ++ b.body.take (n - span.start) := by
    rw [← Nat.min_eq_left (Nat.le_of_lt hhigh), ← List.take_take, h.stop, List.take_append, hlength,
      List.take_of_length_le (by omega), Nat.min_eq_left (Nat.le_of_lt hhigh)]
  have hbody : b.body[n - span.start]? = some q := by
    have hstop := congrArg (fun ps : List Piece => ps[n]?) h.stop
    rw [List.getElem?_take_of_lt hhigh, hq, List.getElem?_append_right (by omega), hlength] at hstop
    exact hstop.symm
  refine ⟨n - span.start, hbody, ?_, ?_⟩
  · rw [h.place_add (Nat.le_of_lt (List.getElem?_eq_some_iff.1 hbody).1), Session.byteOf, htake, Piece.endFrom_append]
    rfl
  · rw [h.stop, List.drop_append, List.drop_eq_nil_of_le (by omega), hlength]
    rfl

/-- Whoever is in front of a piece that takes room, at the address of a piece of the instruction that something
follows, is in front of the first such piece from there on. -/
theorem arrives {L : List (Lodged images)} (hL : Lodged.Distinct L) {y : Spot images}
    (hx : x.lodged ∈ L) (hy : y.lodged ∈ L) {q : Piece} (hq : y.piece? = some q) (hsize : 0 < q.size y.place)
    {j : Nat} (hj : j ≤ b.body.length)
    (hroom : (x.goto (x.index + j)).place < Piece.endFrom x.place b.body)
    (haddress : y.address = (x.goto (x.index + j)).address) :
    ∃ k, j + k < b.body.length ∧ y = x.goto (x.index + (j + k)) ∧
      Piece.endFrom (x.goto (x.index + j)).place ((b.body.drop j).take k) = (x.goto (x.index + j)).place := by
  have hend : Piece.endFrom x.place b.body = Piece.endFrom (x.goto (x.index + j)).place (b.body.drop j) := by
    rw [h.place_add hj, ← Piece.endFrom_append, List.take_append_drop]
  rw [hend] at hroom
  obtain ⟨k, r, hr, hstill, hsized⟩ := Piece.exists_sized hroom
  obtain ⟨hk, hr⟩ := List.getElem?_eq_some_iff.1 hr
  rw [List.length_drop] at hk
  have hlt : j + k < b.body.length := by omega
  have hplace : (x.goto (x.index + (j + k))).place = (x.goto (x.index + j)).place := by
    rw [h.place_add (Nat.le_of_lt hlt), List.take_add, Piece.endFrom_append, ← h.place_add hj, hstill]
  refine ⟨k, hlt, ?_, hstill⟩
  refine unique hL hy hx hq (h.piece _ hlt) hsize ?_ (haddress.trans ?_)
  · rw [hplace, show b.body[j + k] = r by rw [← hr, List.getElem_drop]]
    exact hsized
  · change _ = x.lodged.image.address _
    rw [hplace]
    rfl

/-- Where an instruction starts, the accumulator is known to hold what it is taken to hold. -/
theorem note_start {L : List (Lodged images)} (hL : Lodged.Distinct L)
    {y : Spot images} (hx : x.lodged ∈ L) (hy : y.lodged ∈ L) {q : Piece} (hq : y.piece? = some q)
    (hsize : 0 < q.size y.place) (hroom : x.place < Piece.endFrom x.place b.body)
    (haddress : y.address = x.address) : y.note = ⟨.body, Content.of b.cached⟩ := by
  obtain ⟨k, hk, rfl, hstill⟩ := h.arrives hL hx hy hq hsize (Nat.zero_le _) hroom haddress
  obtain ⟨a, -, -, htight⟩ := h.leads
  rw [Nat.zero_add] at hk
  rw [Nat.zero_add, h.note k hk]
  exact Piece.notes_getD_of_still htight hk hstill

/-- Where an operand is taken from the accumulator, that is known to hold the register. -/
theorem note_kept {L : List (Lodged images)} (hL : Lodged.Distinct L)
    {y : Spot images} (hx : x.lodged ∈ L) (hy : y.lodged ∈ L) {q : Piece} (hq : y.piece? = some q)
    (hsize : 0 < q.size y.place) {j : Nat} {dst : Reg} {r : Register} (hj : b.body[j]? = some (.kept dst r))
    (hroom : (x.goto (x.index + j)).place < Piece.endFrom x.place b.body)
    (haddress : y.address = (x.goto (x.index + j)).address) :
    y.note.phase = .body ∧ ∃ d, Frame.registerOffset? r = some d ∧ y.note.content = .slot d := by
  obtain ⟨hlt, hkept⟩ := List.getElem?_eq_some_iff.1 hj
  obtain ⟨a, -, -, htight⟩ := h.leads
  have hpiece := h.piece j hlt
  rw [hkept] at hpiece
  obtain ⟨hphase, -, d, hd, hcontent⟩ := ((x.goto (x.index + j)).admits hpiece).1
  obtain ⟨k, hk, rfl, hstill⟩ := h.arrives hL hx hy hq hsize (Nat.le_of_lt hlt) hroom haddress
  -- What is known does not change before the first piece that takes room.
  suffices hnote : (x.goto (x.index + (j + k))).note = (x.goto (x.index + j)).note by
    rw [hnote]
    exact ⟨hphase, d, hd, hcontent⟩
  cases k with
  | zero => rfl
  | succ k =>
    have hsplit : b.body = b.body.take j ++ .kept dst r :: b.body.drop (j + 1) := by
      rw [← hkept, List.getElem_cons_drop, List.take_append_drop]
    have hdrop : b.body.drop j = .kept dst r :: b.body.drop (j + 1) := by
      rw [← hkept, List.getElem_cons_drop]
    have hdst : dst = .rax := by
      by_contra hne
      have hpos := (X86.length_encode_bounds (.mov .w64 dst .rax)).1
      have hle := Piece.le_endFrom ((x.goto (x.index + j)).place + (Piece.kept dst r).size (x.goto (x.index + j)).place)
        ((b.body.drop (j + 1)).take k)
      rw [hdrop, List.take_succ_cons, Piece.endFrom] at hstill
      rw [Piece.size, Piece.encode, if_neg hne] at hle hstill
      omega
    subst hdst
    rw [hdrop, List.take_succ_cons, Piece.endFrom, show (Piece.kept .rax r).size _ = 0 from rfl,
      Nat.add_zero] at hstill
    have hlength : (b.body.take j).length = j := List.length_take_of_le (Nat.le_of_lt hlt)
    have hafter := Piece.notes_getD_after (Λ := x.part.labelNotes) (b.body.take j) (b.body.drop (j + 1))
      (.kept .rax r) ⟨.body, Content.of b.cached⟩ .never k
    rw [← hsplit, hlength, Nat.add_assoc, Nat.add_comm 1 k] at hafter
    rw [h.note _ hk, h.note _ hlt, hafter]
    rw [hsplit] at htight
    exact Piece.notes_getD_of_still (Piece.tight_of_kept htight) (by rw [List.length_drop]; omega) hstill

end Opens

end Spot

theorem Part.exists_pieces (p : Part) : ∃ ps, p.pieces = ps ++ [.instr .ret] := by
  obtain ⟨code, hcode⟩ : ∃ code, Session.epilogueCode = code ++ [.ret] := ⟨Session.epilogueCode.dropLast, rfl⟩
  refine ⟨p.front ++ (JumpTarget.lead (p.jumps.find? p.last) ++ code.map .instr), ?_⟩
  rw [Part.pieces, Part.ending, hcode]
  simp

namespace Spot

variable {images : Array LoadedImage} {x : Spot images} {q : Piece}

theorem place_lt (h : x.index < x.part.pieces.length) :
    x.place < Piece.endFrom 0 (Session.thunkPieces ++ (Part.code x.before ++ x.part.pieces)) := by
  obtain ⟨ps, hps⟩ := x.part.exists_pieces
  rw [hps, List.length_append, List.length_singleton] at h
  have hle : x.place ≤ Piece.endFrom 0 (Session.thunkPieces ++ (Part.code x.before ++ ps)) := by
    refine Piece.endFrom_mono ?_ 0
    rw [upTo, List.prefix_append_right_inj, List.prefix_append_right_inj, hps,
      List.take_append_of_le_length (by omega)]
    exact List.take_prefix ..
  rw [hps, ← List.append_assoc, ← List.append_assoc, Piece.endFrom_append, List.append_assoc]
  exact Nat.lt_of_le_of_lt hle (Nat.lt_add_of_pos_right (show 0 < Instr.ret.encode.length by decide))

theorem place_lt_size (h : x.index < x.part.pieces.length) : x.place < x.lodged.session.size := by
  refine Nat.lt_of_lt_of_le (place_lt h) ?_
  rw [x.lodged.loaded.laid.size_eq, x.pieces]
  exact Piece.endFrom_mono ⟨Part.code x.after, by simp only [List.append_assoc]⟩ 0

/-- A place in the code of a unit finds the unit. -/
theorem lookup (hlow : 1 ≤ x.index) (hhigh : x.index < x.part.pieces.length) :
    ∃ u, x.lodged.image.lookup x.address = some u ∧ u.unit = x.part.unit ∧
      List.Forall₂ (x.lodged.session.Ranges x.lodged.image.base x.part.unit) x.part.unit.code.handlers.toList
        u.handlers.toList := by
  have hplaced := x.lodged.placed
  suffices hplace : x.lodged.session.placeOf x.part.entry ≤ x.place ∧
      x.place < Piece.endFrom Session.start.size (Part.code (x.before ++ [x.part])) by
    obtain ⟨u, -, hunit, hranges, hlookup⟩ := hplaced.lookup_eq x.split hplace.1 hplace.2
    exact ⟨u, hlookup, hunit, hranges⟩
  have hcode : Session.thunkPieces ++ Part.code (x.before ++ [x.part]) =
      Session.thunkPieces ++ (Part.code x.before ++ x.part.pieces) := by simp [Part.code]
  rw [hplaced.comprises.placeOf_entry x.split, Session.origin_eq, ← Piece.endFrom_append,
    show Piece.endFrom Session.start.size _ = Session.origin (x.before ++ [x.part]) from rfl, Session.origin_eq, hcode]
  refine ⟨Piece.endFrom_mono ?_ 0, place_lt hhigh⟩
  rw [upTo, ← List.append_assoc, List.prefix_append_right_inj]
  exact List.take_prefix_take_left (l := x.part.pieces) hlow

end Spot

/-! ## Places that the host knows -/

theorem Part.pieces_split {p : Part} {bs bs' : List Block} (h : p.blocks = bs ++ bs') :
    p.pieces = (p.prologue ++ Block.code bs) ++ (Block.code bs' ++ p.ending) := by
  rw [Part.pieces, Part.front, h, Block.code, List.flatMap_append]
  simp only [List.append_assoc]
  rfl

/-- Where the code for an offset of a unit starts, the label of its jump target is bound. -/
theorem Part.Built.code_at {p : Part} {low : Nat} {ops : List Opcode} (h : p.Built low ops) {k : Nat}
    (hk : k ≤ p.blocks.length) : ∃ rest, Block.code (p.blocks.drop k) ++ p.ending =
      JumpTarget.lead (p.jumps.find? (p.offsetAt k).toUInt32) ++ rest := by
  cases hdrop : p.blocks.drop k with
  | nil =>
    have hlength : k = p.blocks.length := Nat.le_antisymm hk (List.drop_eq_nil_iff.1 hdrop)
    rw [hlength, Part.offsetAt_length]
    exact ⟨_, rfl⟩
  | cons b bs =>
    have hb : p.blocks[k]? = some b := by
      rw [← List.head?_drop, hdrop]
      rfl
    rw [Part.offsetAt_of_lt hb, ← h.target (List.mem_of_getElem? hb)]
    exact ⟨b.body ++ (Block.code bs ++ p.ending), by simp [Block.code, Block.pieces]⟩

namespace Lodged

variable {images : Array LoadedImage} (y : Lodged images)

theorem exists_entry {u : PlacedUnit} (hu : u ∈ y.image.programs) :
    ∃ x : Spot images, x.lodged = y ∧ x.part.unit = u.unit ∧ u.entry = x.address ∧ x.index = 1 ∧
      ¬ x.Primed := by
  have hplaced := y.placed
  obtain ⟨us, us', hus⟩ := List.append_of_mem (Array.mem_toList_iff.2 hu)
  have hall := hplaced.linked.programs
  rw [hus] at hall
  obtain ⟨cs, c, cs', hcs, hpublishes, -⟩ := forall₂_around hall.flip
  obtain ⟨before, p, after, hparts, rfl⟩ := hplaced.comprises.part_of_program (c := c) (by rw [hcs]; simp)
  have hp : p ∈ y.parts := by rw [hparts]; simp
  have hentry := hpublishes.entry
  rw [hplaced.comprises.entryLabel_eq hp, hplaced.comprises.laid.address_eq (hplaced.comprises.entry_mem_binds hp),
    hplaced.comprises.placeOf_entry hparts, Session.origin_eq, ← Piece.endFrom_append, List.append_assoc] at hentry
  refine ⟨⟨y, before, p, after, hparts, 1⟩, rfl, hpublishes.unit.symm, (Except.ok.inj hentry).symm, rfl, ?_⟩
  rintro ⟨front, hfront | ⟨n, hfront⟩⟩
  · cases (List.append_inj_right' (show [] ++ [Piece.align 16] = _ from hfront) rfl)
  · have hlength := congrArg List.length (show [Piece.align 16] = _ from hfront)
    rw [List.length_append, List.length_singleton, List.length_cons, List.length_singleton] at hlength
    omega

end Lodged

namespace Spot

variable {images : Array LoadedImage} {x : Spot images}

/-- An exception handler goes on where nothing is known but the frame. -/
theorem exists_stop {h : Handler} {range : UInt64 × UInt64} (hh : h ∈ x.part.unit.code.handlers.toList)
    (hrange : x.lodged.session.Ranges x.lodged.image.base x.part.unit h range) :
    ∃ j, range.2 = (x.goto j).address ∧ Note.any.Fits (x.goto j).note ∧ ¬ (x.goto j).Primed := by
  obtain ⟨low, ops, hlow, hbuilt⟩ := x.built
  obtain ⟨-, -, k, hk, -, hstop, rfl⟩ := hrange.bounds x.lodged.placed.comprises x.lodged.placed.shaped x.split
    (Nat.lt_trans hbuilt.small (by decide))
  obtain ⟨-, t, -, -, ht, -⟩ := hbuilt.scanned.handlers h (Array.mem_toList_iff.1 hh)
  -- The end of the region is a jump target.
  obtain ⟨rest, hrest⟩ := hbuilt.code_at hk
  rw [← hstop, Nat.toUInt32_eq, UInt32.ofNat_toNat, ht] at hrest
  have hpieces : x.part.pieces = (x.part.prologue ++ Block.code (x.part.blocks.take k)) ++ .bind t.label :: rest := by
    rw [Part.pieces_split (List.take_append_drop k x.part.blocks).symm, hrest]
    rfl
  obtain ⟨j, hj⟩ : ∃ j, (x.part.prologue ++ Block.code (x.part.blocks.take k)).length = j := ⟨_, rfl⟩
  have hbind : (x.goto j).piece? = some (.bind t.label) := by
    change x.part.pieces[j]? = _
    rw [hpieces, ← hj, List.getElem?_append_right (Nat.le_refl _), Nat.sub_self]
    rfl
  have hplace : Session.placeAt x.before x.part k = (x.goto j).place := by
    change _ = Piece.endFrom 0 (Session.thunkPieces ++ (Part.code x.before ++ x.part.pieces.take j))
    rw [hpieces, List.take_left' hj, ← List.append_assoc]
    rfl
  have hnext : (x.goto j).next.place = (x.goto j).place := (x.goto j).place_next hbind
  have hnote := ((x.goto j).admits hbind).2
  refine ⟨j + 1, ?_, ?_, (x.goto j).not_primed_next hbind rfl⟩
  · change _ = x.lodged.image.address (x.goto j).next.place
    rw [hnext, ← hplace]
    rfl
  · have hlabel : x.part.labelNotes t.label = .any := hbuilt.labelNotes_target hlow (JumpTable.mem_of_find? ht).1
    exact hlabel ▸ hnote

/-- Where a finally block comes back to, nothing is known but the frame. -/
theorem Opens.resume {span : Span} {b : Block} (h : x.Opens span b) (hop : b.ins.opcode = .jumpSubroutine) :
    x.lodged.session.byteOf span.stop = (x.goto (x.index + b.body.length)).place ∧
      Note.any.Fits (x.goto (x.index + b.body.length)).note ∧ ¬ (x.goto (x.index + b.body.length)).Primed := by
  obtain ⟨low, ops, hlow, hbuilt⟩ := x.built
  obtain ⟨t, j, f, -, -, -, hbody⟩ := (hbuilt.emitted h.block).enter_body hop
  refine ⟨by rw [h.byteOf_stop, h.place_add (Nat.le_refl _), List.take_length], ?_⟩
  have hlength : b.body.length = 6 + 1 := by rw [hbody]; rfl
  have hbind := h.piece 6 (by omega)
  have haddress := h.piece 0 (by omega)
  rw [show b.body[6] = .bind b.base by simp [hbody, Emit.enterPieces]] at hbind
  rw [show b.body[0] = .address .rax b.base by simp [hbody, Emit.enterPieces]] at haddress
  obtain ⟨-, hfits⟩ := (x.goto (x.index + 6)).admits hbind
  obtain ⟨⟨-, -, hany⟩, -⟩ := (x.goto (x.index + 0)).admits haddress
  rw [hlength]
  rw [Piece.next] at hfits
  exact ⟨hany ▸ hfits, not_primed_next _ hbind rfl⟩

end Spot

end RegisterJit
