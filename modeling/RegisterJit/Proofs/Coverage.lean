import RegisterJit.Machine.Run
import RegisterJit.Proofs.Relocation

/-!
# Handlers and the calls they cover

The native range of a handler holds the code of exactly the instructions in its region. A call that an
instruction makes returns to a place after it but within its unit, so the return address finds the
unit, and the address before it finds the handlers whose regions the instruction lies in.

Offsets of a code, places of pieces and addresses of an image are three ways to say where something is. `Bounds`
and `Ranges` relate offsets and places for handlers, `Code.handlerOf?` is the handler by the offset and `Placed`
what is known of a unit in an image. `call_inside` says which unit a return address finds, and `call_covered`
that the handler found by the address is the one that the offset has: the place just before a return address
still belongs to the instruction that made the call, and handlers begin and end between instructions. `Delivery`
follows exceptions with these two facts and knows nothing else about places.
-/

namespace RegisterJit

/-! ## Offsets of instructions -/

namespace Stream

theorem readFrom_sorted (data : Array Word) (pos : Nat) :
    (∀ ins ∈ (readFrom data pos).1, pos ≤ ins.offset ∧ ins.offset < data.size) ∧
      (readFrom data pos).1.Pairwise fun a b => a.offset < b.offset := by
  induction pos using readFrom.induct data with
  | case1 pos hpos fault hread =>
    rw [readFrom, dif_pos hpos, hread]
    exact ⟨by simp, .nil⟩
  | case2 pos hpos ins hread ih =>
    have hins : ins.offset = pos := by
      unfold readOne at hread
      dsimp only at hread
      split at hread
      · cases hread
      · split at hread
        · cases hread
        · cases hread
          rfl
    have hlen := ins.opcode.length_pos
    rw [readFrom, dif_pos hpos, hread]
    refine ⟨List.forall_mem_cons.2 ⟨by omega, fun i hi => ?_⟩,
      List.pairwise_cons.2 ⟨fun i hi => ?_, ih.2⟩⟩
    · have := ih.1 i hi
      omega
    · have := ih.1 i hi
      omega
  | case3 pos hpos =>
    rw [readFrom, dif_neg hpos]
    exact ⟨by simp, .nil⟩

end Stream

namespace Part

variable {p : Part}

theorem Shaped.offset_lt (h : p.Shaped) {b : Block} (hb : b ∈ p.blocks) :
    b.ins.offset < p.unit.code.data.size := by
  have hmem : b.ins ∈ p.blocks.map Block.ins := List.mem_map_of_mem hb
  rw [h.blocks] at hmem
  exact ((Stream.readFrom_sorted _ 0).1 _ hmem).2

theorem Shaped.sorted (h : p.Shaped) :
    (p.blocks.map fun b => b.ins.offset).Pairwise (· < ·) := by
  have hsorted := (Stream.readFrom_sorted p.unit.code.data 0).2
  change (Stream.instructions p.unit.code.data).Pairwise _ at hsorted
  rw [← h.blocks, List.pairwise_map] at hsorted
  rwa [List.pairwise_map]

/-- The word offset of a boundary of blocks: where the block after it starts, or the end. -/
def offsetAt (p : Part) (k : Nat) : Nat :=
  ((p.blocks[k]?).map fun b => b.ins.offset).getD p.unit.code.data.size

theorem offsetAt_of_lt {k : Nat} {b : Block} (hb : p.blocks[k]? = some b) :
    p.offsetAt k = b.ins.offset := by
  rw [offsetAt, hb]
  rfl

theorem offsetAt_length : p.offsetAt p.blocks.length = p.unit.code.data.size := by
  rw [offsetAt, List.getElem?_eq_none (Nat.le_refl _)]
  rfl

theorem Shaped.offsetAt_lt (h : p.Shaped) {j k : Nat} (hjk : j < k) (hk : k ≤ p.blocks.length) :
    p.offsetAt j < p.offsetAt k := by
  have hj : p.blocks[j]? = some p.blocks[j] := List.getElem?_eq_getElem (by omega)
  rw [offsetAt_of_lt hj]
  rcases Nat.lt_or_eq_of_le hk with hk | rfl
  · rw [offsetAt_of_lt (List.getElem?_eq_getElem hk)]
    have hsorted := h.sorted
    rw [List.pairwise_map, List.pairwise_iff_getElem] at hsorted
    exact hsorted j k _ hk hjk
  · rw [offsetAt_length]
    exact h.offset_lt (List.getElem_mem _)

theorem Shaped.offsetAt_le_iff (h : p.Shaped) {j k : Nat} (hj : j ≤ p.blocks.length)
    (hk : k ≤ p.blocks.length) : p.offsetAt j ≤ p.offsetAt k ↔ j ≤ k := by
  constructor
  · intro hle
    by_contra hlt
    have := h.offsetAt_lt (Nat.lt_of_not_le hlt) hj
    omega
  · intro hle
    rcases Nat.lt_or_eq_of_le hle with hlt | rfl
    · exact Nat.le_of_lt (h.offsetAt_lt hlt hk)
    · exact Nat.le_refl _

end Part

namespace Piece

def isCall : Piece → Bool
  | .call _ | .instr (.call _) | .instr (.callReg _) | .instr (.callMem ..) => true
  | _ => false

theorem size_pos_of_isCall {p : Piece} (h : p.isCall = true) (pos : Nat) : 0 < p.size pos := by
  rw [size]
  unfold isCall at h
  split at h
  · exact Nat.zero_lt_succ _
  · exact Nat.zero_lt_succ _
  · simp [encode, X86.Instr.encode]
  · simp [encode, X86.Instr.encode]
  · cases h

end Piece

/-! ## Places of boundaries -/

namespace Session

variable {s : Session} {parts : List Part}

/-- The place of a boundary of blocks of a unit. -/
def placeAt (before : List Part) (p : Part) (k : Nat) : Nat :=
  Piece.endFrom 0 (leading before p (p.blocks.take k))

theorem placeAt_mono (before : List Part) (p : Part) {j k : Nat} (h : j ≤ k) :
    placeAt before p j ≤ placeAt before p k := by
  refine Piece.endFrom_mono (List.prefix_append_right_inj _ |>.2 ?_) 0
  refine List.prefix_append_right_inj _ |>.2 ?_
  obtain ⟨n, rfl⟩ := Nat.exists_eq_add_of_le h
  rw [List.take_add, Block.code, Block.code, List.flatMap_append]
  exact List.prefix_append _ _

theorem byteOf_mono (s : Session) {i j : Nat} (h : i ≤ j) : s.byteOf i ≤ s.byteOf j :=
  Piece.endFrom_mono (List.take_prefix_take_left h) 0

theorem byteOf_succ {n : Nat} {q : Piece} (hq : s.pieces.toList[n]? = some q) :
    s.byteOf (n + 1) = s.byteOf n + q.size (s.byteOf n) := by
  rw [byteOf, List.take_add_one, hq, Option.toList_some, Piece.endFrom_append]
  rfl

theorem byteOf_lt_succ {n : Nat} {q : Piece} (hq : s.pieces.toList[n]? = some q)
    (hsize : ∀ pos, 0 < q.size pos) : s.byteOf n < s.byteOf (n + 1) := by
  rw [byteOf_succ hq]
  exact Nat.lt_add_of_pos_right (hsize _)

theorem lt_endFrom_epilogue (pos : Nat) :
    pos < Piece.endFrom pos (epilogueCode.map Piece.instr) := by
  refine Nat.lt_of_lt_of_le ?_ (Piece.le_endFrom _ (epilogueCode.map Piece.instr).tail)
  exact Nat.lt_add_of_pos_right
    (show 0 < (X86.Instr.movImm32 .rax Value.undefined.word.toUInt32).encode.length by decide)

namespace Comprises

variable (h : s.Comprises parts)

include h

theorem index_of_span {span : Span} (hspan : span ∈ s.spans.toList) :
    ∃ before p after k, parts = before ++ p :: after ∧ k < p.blocks.length ∧
      span.key = p.unit.key ∧ span.event.offset = (p.offsetAt k).toUInt32 ∧
      s.byteOf span.start = placeAt before p k ∧ s.byteOf span.stop = placeAt before p (k + 1) := by
  obtain ⟨before, p, after, bs, b, bs', hparts, hblocks, hkey, hevent, hstart, hstop⟩ :=
    h.block_of_span hspan
  have hb : p.blocks[bs.length]? = some b := by
    rw [hblocks, List.getElem?_append_right (Nat.le_refl _), Nat.sub_self]
    rfl
  refine ⟨before, p, after, bs.length, hparts, by rw [hblocks]; simp, hkey, ?_, ?_, ?_⟩
  · rw [hevent, Part.offsetAt_of_lt hb]
    rfl
  · rw [byteOf, hstart, placeAt, hblocks, List.take_left, Piece.endFrom_append]
    cases b.target <;> rfl
  · have hsnoc : p.blocks.take (bs.length + 1) = bs ++ [b] := by
      rw [hblocks, List.take_append, List.take_of_length_le (by omega)]
      simp
    rw [byteOf, hstop, placeAt, hsnoc]

theorem index_of_link (hshapes : ∀ p ∈ parts, p.Shaped) {before after : List Part} {p : Part}
    (hparts : parts = before ++ p :: after) (hsmall : p.unit.code.data.size < 2 ^ 32)
    {link : HandlerLink} (hlink : link ∈ s.handlerLinks) (hkey : link.key = p.unit.key) :
    ∃ k ≤ p.blocks.length, link.offset.toNat = p.offsetAt k ∧ link.place = placeAt before p k := by
  obtain ⟨before', p', after', hparts', hkey', t, -, hat⟩ := h.boundary_of_link hshapes hlink
  obtain rfl := h.eq_of_key (by rw [hparts']; simp) (by rw [hparts]; simp) (hkey.symm.trans hkey')
  obtain rfl := h.before_unique hparts hparts'
  have hshaped := hshapes p (by rw [hparts]; simp)
  rcases hat with ⟨bs, b, bs', hblocks, hoff, -, hplace⟩ | ⟨hoff, hplace⟩
  · have hb : p.blocks[bs.length]? = some b := by
      rw [hblocks, List.getElem?_append_right (Nat.le_refl _), Nat.sub_self]
      rfl
    have hlt := hshaped.offset_lt (b := b) (by rw [hblocks]; simp)
    refine ⟨bs.length, by rw [hblocks]; simp, ?_, ?_⟩
    · rw [Part.offsetAt_of_lt hb, hoff, toNat_toUInt32 (by omega)]
    · rw [hplace, placeAt, hblocks, List.take_left]
  · refine ⟨p.blocks.length, Nat.le_refl _, ?_, ?_⟩
    · rw [Part.offsetAt_length, hoff, Part.last, toNat_toUInt32 hsmall]
    · rw [hplace, placeAt, List.take_length]

theorem placeAt_lt_stop {before after : List Part} {p : Part} (hparts : parts = before ++ p :: after) :
    placeAt before p p.blocks.length < Piece.endFrom start.size (Part.code (before ++ [p])) ∧
      Piece.endFrom start.size (Part.code (before ++ [p])) ≤ s.size := by
  have hcode : thunkPieces ++ Part.code (before ++ [p]) = leading before p p.blocks ++ p.ending := by
    simp [leading, Part.code, Part.pieces, Part.front]
  have hstop : Piece.endFrom start.size (Part.code (before ++ [p])) =
      Piece.endFrom (placeAt before p p.blocks.length) p.ending := by
    change origin (before ++ [p]) = _
    rw [origin_eq, hcode, Piece.endFrom_append, placeAt, List.take_length]
  constructor
  · have hlead := Piece.le_endFrom (placeAt before p p.blocks.length)
      (JumpTarget.lead (p.jumps.find? p.last))
    rw [hstop, Part.ending, Piece.endFrom_append]
    exact Nat.lt_of_le_of_lt hlead (lt_endFrom_epilogue _)
  · change origin (before ++ [p]) ≤ _
    rw [origin_eq, h.laid.size_eq, h.pieces, hparts]
    exact Piece.endFrom_mono ⟨Part.code after, by simp [Part.code]⟩ 0

theorem placeOf_returnSite : s.placeOf returnSite ≤ start.size := by
  let first : List Piece := .bind entryThunk :: enterCode.map .instr
  obtain ⟨rest, hrest⟩ : ∃ rest, thunkPieces = first ++ .bind returnSite :: rest := ⟨_, rfl⟩
  have hpieces : s.pieces.toList = first ++ .bind returnSite :: (rest ++ Part.code parts) := by
    rw [h.pieces, hrest]
    simp
  have hsize : start.size = Piece.endFrom 0 thunkPieces := start_laid.size_eq
  rw [h.laid.placeOf_eq hpieces, hsize, hrest]
  exact Piece.endFrom_mono (List.prefix_append _ _) 0

theorem entry_le_placeAt {before after : List Part} {p : Part}
    (hparts : parts = before ++ p :: after) (k : Nat) :
    origin before ≤ s.placeOf p.entry ∧ s.placeOf p.entry ≤ placeAt before p k := by
  rw [h.placeOf_entry hparts]
  refine ⟨Piece.le_endFrom _ _, ?_⟩
  rw [origin_eq, ← Piece.endFrom_append, placeAt, leading]
  refine Piece.endFrom_mono ((List.prefix_append_right_inj _).2 ?_) 0
  exact ⟨.bind p.entry :: .instr (.push frameReg) :: Block.code (p.blocks.take k), rfl⟩

end Comprises

/-! ## Addresses -/

/-- In code that does not wrap around the address space, addresses are places after the base. -/
theorem toNat_add_place {base : UInt64} {n size : Nat} (hroom : base.toNat + size < 2 ^ 64)
    (hn : n ≤ size) : (base + n.toUInt64).toNat = base.toNat + n := by
  rw [UInt64.toNat_add, Nat.toUInt64_eq, UInt64.toNat_ofNat']
  omega

theorem add_place_sub_one {base : UInt64} {n : Nat} (hn : 0 < n) :
    base + n.toUInt64 - 1 = base + (n - 1).toUInt64 := by
  obtain ⟨m, rfl⟩ : ∃ m, n = m + 1 := ⟨n - 1, by omega⟩
  rw [Nat.add_sub_cancel, Nat.toUInt64_eq, Nat.toUInt64_eq, UInt64.ofNat_add, ← UInt64.add_assoc]
  exact UInt64.add_sub_cancel _ 1

end Session

/-! ## Handlers -/

/-- Whether a word offset lies in the region of a handler. -/
def Handler.covers (h : Handler) (offset : UInt32) : Bool := h.start ≤ offset && offset < h.stop

/-- The first handler of a code whose region a word offset lies in. -/
def Code.handlerOf? (c : Code) (offset : UInt32) : Option Handler :=
  c.handlers.toList.find? fun h => h.covers offset

/-- Searching a list together with another finds what searching it alone finds. -/
theorem find?_zip {α β : Type} {R : α → β → Prop} {f : α → Bool} {g : α × β → Bool} {xs : List α}
    {ys : List β} (hall : List.Forall₂ R xs ys) (hfg : ∀ x y, R x y → g (x, y) = f x) :
    (xs.find? f = none → (xs.zip ys).find? g = none) ∧
      ∀ x, xs.find? f = some x → ∃ y, R x y ∧ (xs.zip ys).find? g = some (x, y) := by
  induction hall with
  | nil => exact ⟨fun _ => rfl, fun x hx => by cases hx⟩
  | @cons x y xs ys hxy hall ih =>
    rw [List.zip_cons_cons, List.find?_cons, List.find?_cons, hfg x y hxy]
    cases hf : f x with
    | true =>
      refine ⟨fun h => (nomatch h), fun x' hx' => ?_⟩
      cases hx'
      exact ⟨y, hxy, rfl⟩
    | false => exact ih

theorem forall₂_around {α β : Type} {R : α → β → Prop} {before after : List α} {x : α} {ys : List β}
    (h : List.Forall₂ R (before ++ x :: after) ys) :
    ∃ before' y after', ys = before' ++ y :: after' ∧ R x y ∧
      ∀ y' ∈ before', ∃ x' ∈ before, R x' y' := by
  induction before generalizing ys with
  | nil =>
    obtain ⟨y, ys', hxy, -, rfl⟩ := List.forall₂_cons_left_iff.1 h
    exact ⟨[], y, ys', rfl, hxy, by simp⟩
  | cons z before ih =>
    obtain ⟨y, ys', hzy, hrest, rfl⟩ := List.forall₂_cons_left_iff.1 h
    obtain ⟨before', y', after', rfl, hxy, hbefore⟩ := ih hrest
    refine ⟨y :: before', y', after', rfl, hxy, List.forall_mem_cons.2 ⟨⟨z, by simp, hzy⟩, ?_⟩⟩
    intro w hw
    obtain ⟨x', hx', hw'⟩ := hbefore w hw
    exact ⟨x', List.mem_cons_of_mem _ hx', hw'⟩

namespace Session

variable {s : Session} {parts : List Part} {image : Image}

/-- The native range of a handler, by the indices of its boundaries. -/
def Bounds (base : UInt64) (before : List Part) (p : Part) (h : Handler) (range : UInt64 × UInt64) :
    Prop :=
  ∃ first ≤ p.blocks.length, ∃ last ≤ p.blocks.length, h.start.toNat = p.offsetAt first ∧
    h.stop.toNat = p.offsetAt last ∧
    range = (base + (placeAt before p first).toUInt64, base + (placeAt before p last).toUInt64)

/-- A range holds the places of an instruction if the instruction lies in the region. -/
theorem Bounds.contains {base : UInt64} {before : List Part} {p : Part} {h : Handler}
    {range : UInt64 × UInt64} (hb : Bounds base before p h range) (hshaped : p.Shaped)
    {size : Nat} (hroom : base.toNat + size < 2 ^ 64)
    (hsize : placeAt before p p.blocks.length ≤ size) {k : Nat} (hk : k < p.blocks.length)
    {x : Nat} (hfirst : placeAt before p k ≤ x) (hlast : x < placeAt before p (k + 1))
    {offset : UInt32} (hoffset : offset.toNat = p.offsetAt k) :
    (range.1 ≤ base + x.toUInt64 && base + x.toUInt64 < range.2) = h.covers offset := by
  obtain ⟨i, hi, j, hj, hstart, hstop, rfl⟩ := hb
  have hle (m : Nat) (hm : m ≤ p.blocks.length) : placeAt before p m ≤ size :=
    Nat.le_trans (placeAt_mono before p hm) hsize
  have hx : x ≤ size := by
    have := hle (k + 1) hk
    omega
  have hbelow : placeAt before p i ≤ x ↔ i ≤ k := by
    constructor
    · intro h'
      by_contra hlt
      have := placeAt_mono before p (show k + 1 ≤ i by omega)
      omega
    · intro h'
      have := placeAt_mono before p h'
      omega
  have habove : x < placeAt before p j ↔ k < j := by
    constructor
    · intro h'
      by_contra hlt
      have := placeAt_mono before p (show j ≤ k by omega)
      omega
    · intro h'
      have := placeAt_mono before p (show k + 1 ≤ j by omega)
      omega
  rw [Handler.covers, Bool.eq_iff_iff]
  simp only [Bool.and_eq_true, decide_eq_true_eq]
  rw [UInt64.le_iff_toNat_le, UInt64.lt_iff_toNat_lt, UInt32.le_iff_toNat_le,
    UInt32.lt_iff_toNat_lt, toNat_add_place hroom (hle i hi), toNat_add_place hroom hx,
    toNat_add_place hroom (hle j hj), hstart, hstop, hoffset,
    hshaped.offsetAt_le_iff hi (Nat.le_of_lt hk), Nat.add_le_add_iff_left, Nat.add_lt_add_iff_left,
    hbelow, habove, ← Nat.not_le, ← Nat.not_le, hshaped.offsetAt_le_iff hj (Nat.le_of_lt hk)]

/-- The ranges of a unit's handlers are bounded by boundaries of its blocks. -/
theorem Ranges.bounds (h : s.Comprises parts) (hshapes : ∀ p ∈ parts, p.Shaped)
    {before after : List Part} {p : Part} (hparts : parts = before ++ p :: after)
    (hsmall : p.unit.code.data.size < 2 ^ 32) {base : UInt64} {hd : Handler}
    {range : UInt64 × UInt64} (hr : s.Ranges base p.unit hd range) :
    Bounds base before p hd range := by
  obtain ⟨first, last, hfirst, hlast, rfl⟩ := hr
  obtain ⟨l, hl, hkey, hoff, rfl⟩ := link_of_boundary hfirst
  obtain ⟨l', hl', hkey', hoff', rfl⟩ := link_of_boundary hlast
  obtain ⟨i, hi, hstart, hplace⟩ := h.index_of_link hshapes hparts hsmall hl hkey
  obtain ⟨j, hj, hstop, hplace'⟩ := h.index_of_link hshapes hparts hsmall hl' hkey'
  exact ⟨i, hi, j, hj, by rw [← hoff, hstart], by rw [← hoff', hstop], by rw [hplace, hplace']⟩

/-- The instruction at a word offset of a unit makes a call that returns to a place. -/
def Calls (s : Session) (key : Nat) (offset : UInt32) (place : Nat) : Prop :=
  ∃ span ∈ s.spans.toList, span.key = key ∧ span.event.offset = offset ∧
    ∃ n q, span.start ≤ n ∧ n < span.stop ∧ s.pieces.toList[n]? = some q ∧ q.isCall = true ∧
      place = s.byteOf (n + 1)

/-- A session that was linked in one piece of the address space, with codes whose offsets are words. -/
structure Placed (s : Session) (parts : List Part) (image : Image) : Prop where
  comprises : s.Comprises parts
  shaped : ∀ p ∈ parts, p.Shaped
  ranked : ∃ high, Part.Ranked start.asm.labels.size parts high
  linked : s.Linked image
  small : ∀ p ∈ parts, p.unit.code.data.size < 2 ^ 32
  room : image.base.toNat + s.size < 2 ^ 64

namespace Placed

variable (h : s.Placed parts image)

include h

/-- The unit that was published for a part, and the units before it end before it. -/
theorem published {before after : List Part} {p : Part} (hparts : parts = before ++ p :: after) :
    ∃ us u us', image.programs.toList = us ++ u :: us' ∧ u.unit = p.unit ∧
      u.entry = image.base + (s.placeOf p.entry).toUInt64 ∧
      u.stop = image.base + (Piece.endFrom start.size (Part.code (before ++ [p]))).toUInt64 ∧
      List.Forall₂ (s.Ranges image.base p.unit) p.unit.code.handlers.toList u.handlers.toList ∧
      ∀ v ∈ us, v.stop.toNat ≤ image.base.toNat + origin before := by
  have hprograms : s.programs.toList = Part.programsFrom start.size parts :=
    h.comprises.gains.programs
  have hall := h.linked.programs
  rw [hprograms, hparts, Part.programsFrom_append, Part.programsFrom] at hall
  obtain ⟨us, u, us', hus, hu, hbefore⟩ := forall₂_around hall
  have hmem : p ∈ parts := by rw [hparts]; simp
  have hentry := hu.entry
  rw [h.comprises.entryLabel_eq hmem,
    h.comprises.laid.address_eq (h.comprises.entry_mem_binds hmem)] at hentry
  refine ⟨us, u, us', hus, hu.unit, (Except.ok.inj hentry).symm, ?_, ?_, fun v hv => ?_⟩
  · rw [hu.stop, Part.code_append, Piece.endFrom_append, Part.code, Part.code,
      List.flatMap_singleton]
  · exact hu.handlers
  · obtain ⟨c, hc, hv⟩ := hbefore v hv
    obtain ⟨b₁, p₁, a₁, rfl, rfl⟩ := Part.mem_programsFrom.1 hc
    have hle : Piece.endFrom start.size (Part.code (b₁ ++ [p₁])) ≤ origin (b₁ ++ p₁ :: a₁) :=
      Piece.endFrom_mono ⟨Part.code a₁, by simp [Part.code]⟩ _
    have hstop := (h.comprises.placeAt_lt_stop
      (show parts = b₁ ++ p₁ :: (a₁ ++ p :: after) by rw [hparts]; simp)).2
    rw [hv.stop, toNat_add_place h.room hstop]
    omega

/-- A place inside a unit finds the unit. -/
theorem lookup_eq {before after : List Part} {p : Part} (hparts : parts = before ++ p :: after)
    {x : Nat} (hentry : s.placeOf p.entry ≤ x)
    (hstop : x < Piece.endFrom start.size (Part.code (before ++ [p]))) :
    ∃ u ∈ image.programs.toList, u.unit = p.unit ∧
      List.Forall₂ (s.Ranges image.base p.unit) p.unit.code.handlers.toList u.handlers.toList ∧
      image.lookup (image.base + x.toUInt64) = some u := by
  obtain ⟨us, u, us', hus, hunit, hu, hustop, hhandlers, hbefore⟩ := h.published hparts
  have hsize := (h.comprises.placeAt_lt_stop hparts).2
  have horigin := (h.comprises.entry_le_placeAt hparts 0).1
  have hx := toNat_add_place h.room (show x ≤ s.size by omega)
  refine ⟨u, by rw [hus]; simp, hunit, hhandlers, ?_⟩
  have hfind : image.programs.find? (fun v => image.base + x.toUInt64 < v.stop) = some u := by
    rw [← Array.find?_toList, hus, List.find?_append, List.find?_eq_none.2, Option.none_or,
      List.find?_cons_of_pos]
    · rw [decide_eq_true_eq, UInt64.lt_iff_toNat_lt, hx, hustop, toNat_add_place h.room hsize]
      omega
    · intro v hv
      have := hbefore v hv
      rw [decide_eq_true_eq, UInt64.lt_iff_toNat_lt, hx]
      omega
  rw [Image.lookup, hfind]
  dsimp only
  rw [if_pos]
  rw [hu, UInt64.le_iff_toNat_le, hx, toNat_add_place h.room (by omega)]
  omega

/-- The place that a call returns to lies inside the code of its unit. -/
theorem place_of_calls {key : Nat} {offset : UInt32} {place : Nat}
    (hcalls : s.Calls key offset place) :
    ∃ before p after k, parts = before ++ p :: after ∧ k < p.blocks.length ∧ key = p.unit.key ∧
      offset.toNat = p.offsetAt k ∧ placeAt before p k < place ∧ place ≤ placeAt before p (k + 1) := by
  obtain ⟨span, hspan, rfl, rfl, n, q, hfirst, hlast, hq, hcall, rfl⟩ := hcalls
  obtain ⟨before, p, after, k, hparts, hk, hkey, hoffset, hstart, hstop⟩ :=
    h.comprises.index_of_span hspan
  have hmem : p ∈ parts := by rw [hparts]; simp
  -- The call lies between the start of its block and the start of the next one.
  have hlow := s.byteOf_mono hfirst
  have hhigh : s.byteOf (n + 1) ≤ s.byteOf span.stop := s.byteOf_mono hlast
  have hlt := s.byteOf_lt_succ hq (Piece.size_pos_of_isCall hcall)
  refine ⟨before, p, after, k, hparts, hk, hkey, ?_, by omega, by omega⟩
  have hsmall := h.small p hmem
  have := (h.shaped p hmem).offsetAt_lt hk (Nat.le_refl _)
  rw [Part.offsetAt_length] at this
  rw [hoffset, toNat_toUInt32 (by omega)]

theorem programs_keys :
    s.programs.toList.map (fun c => c.unit.key) = parts.map fun p => p.unit.key := by
  rw [show s.programs.toList = _ from h.comprises.gains.programs]
  change (Part.programsFrom start.size parts).map _ = _
  generalize start.size = pos
  clear h
  induction parts generalizing pos with
  | nil => rfl
  | cons p parts ih => rw [Part.programsFrom, List.map_cons, List.map_cons, ih]

theorem image_keys :
    image.programs.toList.map (fun q => q.unit.key) =
      s.programs.toList.map fun c => c.unit.key := by
  have hall := h.linked.programs
  generalize image.programs.toList = qs at hall
  generalize s.programs.toList = cs at hall
  induction hall with
  | nil => rfl
  | cons hq _ ih => rw [List.map_cons, List.map_cons, ih, hq.unit]

theorem program_unique {c d : CompiledUnit} (hc : c ∈ s.programs.toList)
    (hd : d ∈ s.programs.toList) (hkey : c.unit.key = d.unit.key) : c = d := by
  refine List.inj_on_of_nodup_map (f := fun c : CompiledUnit => c.unit.key) ?_ hc hd hkey
  rw [h.programs_keys]
  exact h.comprises.keys

theorem unit_unique {u v : PlacedUnit} (hu : u ∈ image.programs.toList)
    (hv : v ∈ image.programs.toList) (hkey : u.unit.key = v.unit.key) : u = v := by
  refine List.inj_on_of_nodup_map (f := fun q : PlacedUnit => q.unit.key) ?_ hu hv hkey
  rw [h.image_keys, h.programs_keys]
  exact h.comprises.keys

theorem exists_placed {c : CompiledUnit} (hc : c ∈ s.programs.toList) :
    ∃ u ∈ image.programs.toList, u.unit = c.unit := by
  rw [show s.programs.toList = _ from h.comprises.gains.programs] at hc
  obtain ⟨before, p, after, hparts, rfl⟩ := Part.mem_programsFrom.1 hc
  obtain ⟨us, u, us', hus, hunit, -⟩ := h.published hparts
  exact ⟨u, by rw [hus]; simp, hunit⟩

/-- A call made by an instruction returns into the unit of the instruction, and the address before
that is covered by the handlers whose regions hold the instruction. -/
theorem call_covered {c : CompiledUnit} (hc : c ∈ s.programs.toList) {u : PlacedUnit}
    (hu : u ∈ image.programs.toList) (hunit : u.unit = c.unit) {offset : UInt32} {place : Nat}
    (hcalls : s.Calls c.unit.key offset place) :
    image.lookup (image.base + place.toUInt64) = some u ∧
      match c.unit.code.handlerOf? offset with
      | none => u.handlerAt? (image.base + place.toUInt64 - 1) = none
      | some hd => ∃ stop, s.Starts c hd.stop stop ∧
          u.handlerAt? (image.base + place.toUInt64 - 1) =
            some (hd, image.base + stop.toUInt64) := by
  obtain ⟨before, p, after, k, hparts, hk, hkey, hoffset, hlow, hhigh⟩ := h.place_of_calls hcalls
  have hmem : p ∈ parts := by rw [hparts]; simp
  have hlength : placeAt before p (k + 1) ≤ _ := placeAt_mono before p hk
  have hstop := h.comprises.placeAt_lt_stop hparts
  have hentry := (h.comprises.entry_le_placeAt hparts k).2
  obtain ⟨u', hu', hunit', hhandlers, hlookup⟩ := h.lookup_eq hparts
    (x := place) (by omega) (by omega)
  -- The unit that the place finds is the one that was compiled from the part.
  obtain rfl := h.unit_unique hu hu' (by rw [hunit, hunit', hkey])
  have hpart : ⟨p.unit, Piece.endFrom start.size (Part.code (before ++ [p]))⟩ ∈
      s.programs.toList := by
    rw [show s.programs.toList = _ from h.comprises.gains.programs]
    exact Part.mem_programsFrom.2 ⟨before, p, after, hparts, rfl⟩
  obtain rfl := h.program_unique hc hpart hkey
  have hfind := find?_zip hhandlers (f := fun hd => hd.covers offset)
    (g := fun covering => covering.2.1 ≤ image.base + (place - 1).toUInt64 &&
      image.base + (place - 1).toUInt64 < covering.2.2)
    fun hd range hr => (hr.bounds h.comprises h.shaped hparts (h.small p hmem)).contains
      (h.shaped p hmem) h.room (by omega) hk (by omega) (by omega) hoffset
  refine ⟨hlookup, ?_⟩
  rw [add_place_sub_one (by omega), PlacedUnit.handlerAt?, hunit']
  dsimp only
  cases hhandler : p.unit.code.handlerOf? offset with
  | none =>
    dsimp only
    rw [hfind.1 hhandler]
    rfl
  | some hd =>
    obtain ⟨range, ⟨first, last, -, hlast', rfl⟩, hfound⟩ := hfind.2 hd hhandler
    obtain ⟨l, hl, hlkey, hloff, rfl⟩ := link_of_boundary hlast'
    have hstarts := h.comprises.starts_of_link h.shaped hl hpart hlkey
    rw [hloff] at hstarts
    dsimp only
    refine ⟨l.place, hstarts, ?_⟩
    rw [hfound]
    rfl

/-- A call returns into the image, and not to where the outermost function returns to. -/
theorem call_inside {key : Nat} {offset : UInt32} {place : Nat} (hcalls : s.Calls key offset place) :
    image.contains (image.base + place.toUInt64) = true ∧
      image.contains image.returnSite = true ∧
      image.base + place.toUInt64 ≠ image.returnSite := by
  obtain ⟨before, p, after, k, hparts, hk, -, -, hlow, hhigh⟩ := h.place_of_calls hcalls
  have hlength : placeAt before p (k + 1) ≤ _ := placeAt_mono before p hk
  have hstop := h.comprises.placeAt_lt_stop hparts
  have hentry := h.comprises.entry_le_placeAt hparts k
  have hstart : start.size ≤ origin before := Piece.le_endFrom _ _
  have hplace := toNat_add_place h.room (show place ≤ s.size by omega)
  -- The outermost function returns into the thunks, in front of every unit.
  have hreturn : ∃ n ≤ start.size, image.base + n.toUInt64 = image.returnSite := by
    have haddress := h.linked.returnSite
    rw [h.comprises.laid.address_eq
      (h.comprises.laid.mem_binds (place?_of_address haddress).choose_spec.1)] at haddress
    exact ⟨_, h.comprises.placeOf_returnSite, Except.ok.inj haddress⟩
  obtain ⟨n, hn, hreturn⟩ := hreturn
  have hsite := toNat_add_place h.room (show n ≤ s.size by omega)
  have hinside {i : Nat} (hi : i < s.size) : image.contains (image.base + i.toUInt64) = true := by
    have hsize := (h.linked.relocates h.comprises h.shaped).size
    rw [Image.contains, Bool.and_eq_true, decide_eq_true_eq, decide_eq_true_eq,
      UInt64.le_iff_toNat_le, UInt64.lt_iff_toNat_lt, hsize,
      toNat_add_place h.room (Nat.le_of_lt hi), toNat_add_place h.room (Nat.le_refl s.size)]
    omega
  refine ⟨hinside (by omega), hreturn ▸ hinside (by omega), fun heq => ?_⟩
  have := congrArg UInt64.toNat (heq.trans hreturn.symm)
  omega

end Placed

end Session

end RegisterJit
