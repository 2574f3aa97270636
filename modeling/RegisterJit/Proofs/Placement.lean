import RegisterJit.Proofs.Attempts
import RegisterJit.Proofs.Coverage

/-!
# Places of code

A region of memory hands out chunks that do not overlap, and an image fills the chunk it was linked
into: first the thunks, then its codes one after another, each behind padding. So an address belongs
to one code at most, and `Image.lookup` finds it.

`CodeMemory.Sound` says that a region is aligned and within the address space, so that the chunks it hands out
are aligned, apart and inside it. `Row` places codes of an image one after another with padding between them,
`covered_or_padding` finds for every offset of an image the code that covers it, or that none does, and `Filled`
says this of an image that was linked. From these, `find?_eq_some_iff` and `lookup_eq_none_iff` characterise
looking up an address. What a link asks of the allocator is told as well, since it may fail there.
-/

namespace RegisterJit

open X86 (Label Assembler)

theorem alignUp16_mod (n : Nat) : alignUp16 n % 16 = 0 := Nat.mul_mod_left ..

theorem le_alignUp16 (n : Nat) : n ≤ alignUp16 n := by
  unfold alignUp16
  omega

theorem alignUp16_add {b : Nat} (hb : b % 16 = 0) (n : Nat) : alignUp16 (b + n) = b + alignUp16 n := by
  unfold alignUp16
  omega

/-! ## Chunks of memory -/

namespace CodeMemory

/-- A region that is a range of addresses, with a first byte that is aligned. -/
structure Sound (m : CodeMemory) : Prop where
  aligned : m.base.toNat % 16 = 0
  bounded : m.base.toNat + m.capacity < 2 ^ 64
  used : m.used ≤ m.capacity

/-- The region after requests for chunks of some sizes. -/
def serve (m : CodeMemory) (sizes : List Int) : CodeMemory :=
  sizes.foldl (fun m size => (m.allocate size).2) m

/-- The addresses and sizes of the chunks that are handed out for requests. -/
def chunks (m : CodeMemory) : List Int → List (UInt64 × Nat)
  | [] => []
  | size :: sizes =>
    (match (m.allocate size).1 with
      | .ok address => [(address, size.toNat)]
      | .error _ => []) ++ (m.allocate size).2.chunks sizes

theorem serve_append (m : CodeMemory) (sizes sizes' : List Int) :
    m.serve (sizes ++ sizes') = (m.serve sizes).serve sizes' := List.foldl_append

theorem chunks_append (m : CodeMemory) (sizes sizes' : List Int) :
    m.chunks (sizes ++ sizes') = m.chunks sizes ++ (m.serve sizes).chunks sizes' := by
  induction sizes generalizing m with
  | nil => rfl
  | cons size sizes ih =>
    rw [List.cons_append, chunks, chunks, ih, List.append_assoc]
    rfl

variable {m : CodeMemory} {size : Int}

theorem allocate_error {cause : AllocationError} (h : (m.allocate size).1 = .error cause) :
    (m.allocate size).2 = m := by
  unfold allocate at h ⊢
  dsimp only at h ⊢
  split
  · rfl
  split
  · rfl
  split
  · rfl
  · rename_i hfreed hrange hroom
    rw [if_neg hfreed, if_neg hrange, if_neg hroom] at h
    cases h

/-- A chunk begins at the next aligned address and ends where the free rest of the region does. -/
theorem allocate_ok {address : UInt64} (h : (m.allocate size).1 = .ok address) :
    0 ≤ size ∧ address = m.base + (alignUp16 m.used).toUInt64 ∧
      alignUp16 m.used + size.toNat ≤ m.capacity ∧
      (m.allocate size).2 = { m with used := alignUp16 m.used + size.toNat } := by
  unfold allocate at h ⊢
  dsimp only at h ⊢
  split at h
  · cases h
  split at h
  · cases h
  split at h
  · cases h
  · rename_i hfreed hrange hroom
    cases h
    rw [if_neg hfreed, if_neg hrange, if_neg hroom]
    refine ⟨by omega, rfl, by omega, rfl⟩

theorem allocate_cases (m : CodeMemory) (size : Int) :
    ((∃ cause, (m.allocate size).1 = .error cause) ∧ (m.allocate size).2 = m) ∨
      ∃ address, (m.allocate size).1 = .ok address := by
  cases h : (m.allocate size).1 with
  | error cause => exact .inl ⟨⟨cause, rfl⟩, allocate_error h⟩
  | ok address => exact .inr ⟨address, rfl⟩

namespace Sound

theorem toNat_address (h : m.Sound) {address : UInt64} (ha : (m.allocate size).1 = .ok address) :
    address.toNat = m.base.toNat + alignUp16 m.used := by
  obtain ⟨-, rfl, hroom, -⟩ := allocate_ok ha
  exact Session.toNat_add_place h.bounded (by omega)

theorem allocate (h : m.Sound) (size : Int) : (m.allocate size).2.Sound := by
  rcases allocate_cases m size with ⟨-, hsame⟩ | ⟨address, ha⟩
  · rwa [hsame]
  · obtain ⟨-, -, hroom, hafter⟩ := allocate_ok ha
    rw [hafter]
    exact ⟨h.aligned, h.bounded, hroom⟩

theorem serve (h : m.Sound) (sizes : List Int) : (m.serve sizes).Sound := by
  induction sizes generalizing m with
  | nil => exact h
  | cons size sizes ih => exact ih (h.allocate size)

end Sound

theorem allocate_region (m : CodeMemory) (size : Int) :
    (m.allocate size).2.base = m.base ∧ (m.allocate size).2.capacity = m.capacity := by
  rcases allocate_cases m size with ⟨-, hsame⟩ | ⟨address, ha⟩
  · rw [hsame]
    exact ⟨rfl, rfl⟩
  · rw [(allocate_ok ha).2.2.2]
    exact ⟨rfl, rfl⟩

theorem used_le_allocate (m : CodeMemory) (size : Int) : m.used ≤ (m.allocate size).2.used := by
  rcases allocate_cases m size with ⟨-, hsame⟩ | ⟨address, ha⟩
  · rw [hsame]
  · rw [(allocate_ok ha).2.2.2]
    exact Nat.le_trans (le_alignUp16 _) (Nat.le_add_right ..)

/-- A chunk of a region: aligned, and behind what was used of it before. -/
structure ChunkOf (m : CodeMemory) (c : UInt64 × Nat) : Prop where
  aligned : c.1.toNat % 16 = 0
  fresh : m.base.toNat + m.used ≤ c.1.toNat
  inside : c.1.toNat + c.2 ≤ m.base.toNat + m.capacity

theorem Sound.chunkOf (h : m.Sound) {address : UInt64} (ha : (m.allocate size).1 = .ok address) :
    m.ChunkOf (address, size.toNat) := by
  have hnat := h.toNat_address ha
  have haligned := h.aligned
  have hmod := alignUp16_mod m.used
  have hle := le_alignUp16 m.used
  have hroom := (allocate_ok ha).2.2.1
  constructor <;> dsimp only <;> omega

theorem ChunkOf.of_allocate {c : UInt64 × Nat} (h : (m.allocate size).2.ChunkOf c) : m.ChunkOf c := by
  obtain ⟨hbase, hcapacity⟩ := m.allocate_region size
  have hused := m.used_le_allocate size
  have hfresh := h.fresh
  have hinside := h.inside
  rw [hbase] at hfresh hinside
  rw [hcapacity] at hinside
  exact ⟨h.aligned, by omega, hinside⟩

/-- Chunks are aligned, inside the region and apart. -/
theorem Sound.chunks (h : m.Sound) (sizes : List Int) :
    (∀ c ∈ m.chunks sizes, m.ChunkOf c) ∧
      (m.chunks sizes).Pairwise fun c d => c.1.toNat + c.2 ≤ d.1.toNat := by
  induction sizes generalizing m with
  | nil => exact ⟨by simp [CodeMemory.chunks], List.Pairwise.nil⟩
  | cons size sizes ih =>
    obtain ⟨hall, hpairwise⟩ := ih (h.allocate size)
    rw [CodeMemory.chunks]
    rcases allocate_cases m size with ⟨⟨cause, hcause⟩, hsame⟩ | ⟨address, ha⟩
    · rw [hcause]
      exact ⟨fun c hc => (hall c hc).of_allocate, hpairwise⟩
    · rw [ha]
      refine ⟨List.forall_mem_cons.2 ⟨h.chunkOf ha, fun c hc => (hall c hc).of_allocate⟩,
        List.pairwise_cons.2 ⟨fun d hd => ?_, hpairwise⟩⟩
      have hnat := h.toNat_address ha
      have hfresh := (hall d hd).fresh
      rw [(m.allocate_region size).1, (allocate_ok ha).2.2.2] at hfresh
      dsimp only at hfresh ⊢
      omega

end CodeMemory

/-! ## Codes of an image -/

namespace PlacedUnit

/-- The addresses of a code. -/
def Covers (p : PlacedUnit) (pc : UInt64) : Prop := p.entry ≤ pc ∧ pc < p.stop

instance (p : PlacedUnit) (pc : UInt64) : Decidable (p.Covers pc) := instDecidableAnd

/-- Codes that lie one after another, each at the next aligned address. -/
def Row : Nat → List PlacedUnit → Nat → Prop
  | start, [], stop => start = stop
  | start, p :: ps, stop =>
    p.entry.toNat = alignUp16 start ∧ p.entry.toNat < p.stop.toNat ∧ Row p.stop.toNat ps stop

namespace Row

variable {start stop : Nat} {ps : List PlacedUnit}

theorem le (h : Row start ps stop) : start ≤ stop := by
  induction ps generalizing start with
  | nil => exact Nat.le_of_eq h
  | cons p ps ih =>
    obtain ⟨hentry, hlt, hrest⟩ := h
    have := ih hrest
    have := le_alignUp16 start
    omega

theorem bounds (h : Row start ps stop) {p : PlacedUnit} (hp : p ∈ ps) :
    start ≤ p.entry.toNat ∧ p.entry.toNat % 16 = 0 ∧ p.entry.toNat < p.stop.toNat ∧
      p.stop.toNat ≤ stop := by
  induction ps generalizing start with
  | nil => cases hp
  | cons q ps ih =>
    obtain ⟨hentry, hlt, hrest⟩ := h
    have hle := le_alignUp16 start
    rcases List.mem_cons.1 hp with rfl | hp
    · exact ⟨by omega, by rw [hentry]; exact alignUp16_mod start, hlt, hrest.le⟩
    · obtain ⟨hstart, hmod, hlt', hstop⟩ := ih hrest hp
      exact ⟨by omega, hmod, hlt', hstop⟩

theorem pairwise (h : Row start ps stop) : ps.Pairwise fun p q => p.stop.toNat ≤ q.entry.toNat := by
  induction ps generalizing start with
  | nil => exact List.Pairwise.nil
  | cons p ps ih =>
    obtain ⟨-, -, hrest⟩ := h
    exact List.pairwise_cons.2 ⟨fun q hq => (hrest.bounds hq).1, ih hrest⟩

/-- The first code that ends after an address is the only one that can cover it. -/
theorem find?_eq_some_iff (h : Row start ps stop) {pc : UInt64} {p : PlacedUnit} :
    ((ps.find? fun p => pc < p.stop).filter fun p => p.entry ≤ pc) = some p ↔
      p ∈ ps ∧ p.Covers pc := by
  induction ps generalizing start with
  | nil => simp
  | cons q ps ih =>
    obtain ⟨-, -, hrest⟩ := h
    rw [List.find?_cons]
    by_cases hq : pc < q.stop
    · have hnone : ∀ p ∈ ps, ¬p.Covers pc := fun p hp hcovers => by
        have hle := (hrest.bounds hp).1
        have hpc := hcovers.1
        rw [UInt64.le_iff_toNat_le] at hpc
        rw [UInt64.lt_iff_toNat_lt] at hq
        omega
      simp only [hq, decide_true, Option.filter_eq_some_iff, Option.some.injEq, decide_eq_true_eq,
        List.mem_cons]
      constructor
      · rintro ⟨rfl, hentry⟩
        exact ⟨.inl rfl, hentry, hq⟩
      · rintro ⟨rfl | hp, hcovers⟩
        · exact ⟨rfl, hcovers.1⟩
        · exact absurd hcovers (hnone p hp)
    · simp only [hq, decide_false, ih hrest, List.mem_cons]
      constructor
      · exact fun h => ⟨.inr h.1, h.2⟩
      · rintro ⟨rfl | hp, hcovers⟩
        · exact absurd hcovers.2 hq
        · exact ⟨hp, hcovers⟩

/-- Between codes there is nothing but the padding in front of the next one. -/
theorem covered_or_padding (h : Row start ps stop) {pc : UInt64} (hstart : start ≤ pc.toNat)
    (hstop : pc.toNat < stop) :
    (∃ p ∈ ps, p.Covers pc) ∨ pc.toNat < alignUp16 start ∨
      ∃ p ∈ ps, p.stop ≤ pc ∧ pc.toNat < alignUp16 p.stop.toNat := by
  induction ps generalizing start with
  | nil =>
    have heq : start = stop := h
    omega
  | cons p ps ih =>
    obtain ⟨hentry, hlt, hrest⟩ := h
    by_cases hpad : pc.toNat < alignUp16 start
    · exact .inr (.inl hpad)
    by_cases hin : pc.toNat < p.stop.toNat
    · exact .inl ⟨p, List.mem_cons_self .., UInt64.le_iff_toNat_le.2 (by omega),
        UInt64.lt_iff_toNat_lt.2 hin⟩
    rcases ih hrest (by omega) with ⟨q, hq, hcovers⟩ | hgap | ⟨q, hq, hgap⟩
    · exact .inl ⟨q, List.mem_cons_of_mem _ hq, hcovers⟩
    · exact .inr (.inr ⟨p, List.mem_cons_self .., UInt64.le_iff_toNat_le.2 (by omega), hgap⟩)
    · exact .inr (.inr ⟨q, List.mem_cons_of_mem _ hq, hgap⟩)

theorem not_covers_padding (h : Row start ps stop) {p : PlacedUnit} (hp : p ∈ ps) {pc : UInt64}
    (hpc : p.stop ≤ pc) (hgap : pc.toNat < alignUp16 p.stop.toNat) : ∀ q ∈ ps, ¬q.Covers pc := by
  induction ps generalizing start with
  | nil => cases hp
  | cons r ps ih =>
    obtain ⟨hentry, hlt, hrest⟩ := h
    have hpc' := UInt64.le_iff_toNat_le.1 hpc
    rcases List.mem_cons.1 hp with rfl | hp
    · refine List.forall_mem_cons.2 ⟨fun hcovers => ?_, fun q hq hcovers => ?_⟩
      · have := UInt64.lt_iff_toNat_lt.1 hcovers.2
        omega
      · cases ps with
        | nil => cases hq
        | cons r' ps' =>
          have hle : alignUp16 p.stop.toNat ≤ q.entry.toNat := by
            rcases List.mem_cons.1 hq with rfl | hq'
            · exact Nat.le_of_eq hrest.1.symm
            · have := (hrest.2.2.bounds hq').1
              have := hrest.1
              have := hrest.2.1
              omega
          have := UInt64.le_iff_toNat_le.1 hcovers.1
          omega
    · refine List.forall_mem_cons.2 ⟨fun hcovers => ?_, ih hrest hp⟩
      have := (hrest.bounds hp).1
      have := (hrest.bounds hp).2.2.1
      have := UInt64.lt_iff_toNat_lt.1 hcovers.2
      omega

end Row

end PlacedUnit

namespace Image

/-- An image whose codes fill it, from the end of the thunks on. -/
structure Filled (img : Image) : Prop where
  aligned : img.base.toNat % 16 = 0
  bounded : img.base.toNat + img.code.size < 2 ^ 64
  thunks : Session.start.size ≤ img.code.size
  row : PlacedUnit.Row (img.base.toNat + Session.start.size) img.programs.toList
    (img.base.toNat + img.code.size)

namespace Filled

variable {img : Image}

theorem contains_iff (h : img.Filled) {pc : UInt64} :
    img.contains pc = true ↔
      img.base.toNat ≤ pc.toNat ∧ pc.toNat < img.base.toNat + img.code.size := by
  rw [contains, Bool.and_eq_true, decide_eq_true_iff, decide_eq_true_iff, UInt64.le_iff_toNat_le,
    UInt64.lt_iff_toNat_lt, Session.toNat_add_place h.bounded (Nat.le_refl _)]

theorem lookup_eq_some_iff (h : img.Filled) {pc : UInt64} {p : PlacedUnit} :
    img.lookup pc = some p ↔ p ∈ img.programs ∧ p.Covers pc := by
  rw [← Array.mem_toList_iff, ← h.row.find?_eq_some_iff, lookup, Array.find?_toList]
  cases img.programs.find? fun p => pc < p.stop with
  | none => rfl
  | some q => by_cases hq : q.entry ≤ pc <;> simp [hq, Option.filter]

theorem covers_contains (h : img.Filled) {p : PlacedUnit} (hp : p ∈ img.programs) {pc : UInt64}
    (hcovers : p.Covers pc) : img.contains pc = true := by
  obtain ⟨hentry, -, -, hstop⟩ := h.row.bounds (Array.mem_toList_iff.2 hp)
  have hle := UInt64.le_iff_toNat_le.1 hcovers.1
  have hlt := UInt64.lt_iff_toNat_lt.1 hcovers.2
  exact h.contains_iff.2 ⟨by omega, by omega⟩

/-- In an image no code is found in the thunks and in the padding, and everywhere else there is one. -/
theorem lookup_eq_none_iff (h : img.Filled) {pc : UInt64} (hpc : img.contains pc = true) :
    img.lookup pc = none ↔ pc.toNat < img.base.toNat + Session.start.size ∨
      ∃ p ∈ img.programs, p.stop ≤ pc ∧ pc.toNat < alignUp16 p.stop.toNat := by
  obtain ⟨hle, hlt⟩ := h.contains_iff.1 hpc
  have hcovered : img.lookup pc = none ↔ ∀ p ∈ img.programs, ¬p.Covers pc := by
    rw [Option.eq_none_iff_forall_ne_some]
    simp only [ne_eq, h.lookup_eq_some_iff, not_and]
  have hthunks : alignUp16 (img.base.toNat + Session.start.size) =
      img.base.toNat + Session.start.size := by
    have hmod : Session.start.size % 16 = 0 := by decide +kernel
    have := h.aligned
    unfold alignUp16
    omega
  rw [hcovered]
  constructor
  · intro hnone
    by_cases hstart : pc.toNat < img.base.toNat + Session.start.size
    · exact .inl hstart
    rcases h.row.covered_or_padding (Nat.le_of_not_lt hstart) hlt with ⟨p, hp, hcovers⟩ | hgap | ⟨p, hp, hgap⟩
    · exact absurd hcovers (hnone p (Array.mem_toList_iff.1 hp))
    · exact .inl (by omega)
    · exact .inr ⟨p, Array.mem_toList_iff.1 hp, hgap⟩
  · rintro (hstart | ⟨p, hp, hpc, hgap⟩) q hq
    · intro hcovers
      have := (h.row.bounds (Array.mem_toList_iff.2 hq)).1
      have := UInt64.le_iff_toNat_le.1 hcovers.1
      omega
    · exact h.row.not_covers_padding (Array.mem_toList_iff.2 hp) hpc hgap q (Array.mem_toList_iff.2 hq)

end Filled

end Image

/-! ## Linked sessions -/

namespace Session

variable {s : Session} {parts : List Part} {image : Image}

theorem endFrom_align (pos : Nat) : Piece.endFrom pos [.align 16] = alignUp16 pos := by
  have hend : Piece.endFrom pos [.align 16] = pos + (16 - pos % 16) % 16 := by
    simp [Piece.endFrom, Piece.size, Piece.encode]
  rw [hend, alignUp16]
  omega

theorem entry_lt_stop (pos : Nat) (p : Part) : alignUp16 pos < Piece.endFrom pos p.pieces := by
  have hpieces : p.pieces = [.align 16] ++ ([.bind p.entry, .instr (.push frameReg)] ++
      (Block.code p.blocks ++ p.ending)) := by
    simp [Part.pieces, Part.front, Part.prologue]
  have hpush (n : Nat) : n < Piece.endFrom n [.bind p.entry, .instr (.push frameReg)] := by
    simp [Piece.endFrom, Piece.size, Piece.encode, X86.Instr.encode]
  rw [hpieces, Piece.endFrom_append, Piece.endFrom_append, endFrom_align]
  exact Nat.lt_of_lt_of_le (hpush _) (Piece.le_endFrom _ _)

theorem origin_le (before : List Part) (after : List Part) :
    origin before ≤ origin (before ++ after) := by
  rw [origin, origin, Part.code_append, Piece.endFrom_append]
  exact Piece.le_endFrom _ _

theorem Comprises.size_eq (h : s.Comprises parts) : s.size = origin parts := by
  rw [h.laid.size_eq, h.pieces, origin_eq]

theorem Linked.size_eq (h : s.Laid) (hlinked : s.Linked image) : image.code.size = s.size := by
  have := Piece.length_bytesFrom (Piece.displacement s.placeOf)
    (fun l => (Value.ofAddress (image.base + (s.placeOf l).toUInt64)).word) 0 s.pieces.toList
  rw [← Array.length_toList, hlinked.code, finished, h.size_eq]
  omega

/-- The codes of a linked session lie one after another behind the thunks. -/
theorem Linked.row (h : s.Comprises parts) (hlinked : s.Linked image)
    (haligned : image.base.toNat % 16 = 0) (hroom : image.base.toNat + s.size < 2 ^ 64) :
    PlacedUnit.Row (image.base.toNat + start.size) image.programs.toList
      (image.base.toNat + s.size) := by
  have hprograms : s.programs.toList = Part.programsFrom (origin []) parts := h.gains.programs
  have hall := hlinked.programs
  rw [hprograms] at hall
  suffices hrow : ∀ (before after : List Part) (qs : List PlacedUnit), parts = before ++ after →
      List.Forall₂ (s.Publishes image.base) (Part.programsFrom (origin before) after) qs →
      PlacedUnit.Row (image.base.toNat + origin before) qs (image.base.toNat + s.size) from
    hrow [] parts _ rfl hall
  intro before after
  induction after generalizing before with
  | nil =>
    rintro qs hparts hqs
    cases hqs
    rw [h.size_eq, hparts, List.append_nil]
    exact rfl
  | cons p after ih =>
    rintro placed hparts hplaced
    obtain ⟨q, qs, hq, hqs, rfl⟩ := List.forall₂_cons_left_iff.1 hplaced
    have hp : p ∈ parts := by rw [hparts]; simp
    have hsnoc := origin_snoc before p
    rw [← hsnoc] at hqs
    have hstop : origin (before ++ [p]) ≤ s.size := by
      rw [h.size_eq, show parts = before ++ [p] ++ after by rw [hparts]; simp]
      exact origin_le _ _
    have hlt := entry_lt_stop (origin before) p
    rw [← hsnoc] at hlt
    have hqstop : q.stop.toNat = image.base.toNat + origin (before ++ [p]) := by
      rw [hq.stop, ← toNat_add_place hroom hstop, hsnoc]
    have hqentry : q.entry.toNat = image.base.toNat + alignUp16 (origin before) := by
      have hentry := hq.entry
      dsimp only at hentry
      rw [h.entryLabel_eq hp, h.laid.address_eq (h.entry_mem_binds hp), h.placeOf_entry hparts,
        endFrom_align] at hentry
      rw [← Except.ok.inj hentry, toNat_add_place hroom (by omega)]
    refine ⟨by rw [hqentry, alignUp16_add haligned], by omega, ?_⟩
    rw [hqstop]
    exact ih (before ++ [p]) qs (by rw [hparts, List.append_cons]) hqs

theorem Linked.filled (h : s.Comprises parts) (hlinked : s.Linked image)
    (haligned : image.base.toNat % 16 = 0) (hroom : image.base.toNat + s.size < 2 ^ 64) :
    image.Filled := by
  have hsize := hlinked.size_eq h.laid
  refine ⟨haligned, by rwa [hsize], ?_, by rw [hsize]; exact hlinked.row h haligned hroom⟩
  rw [hsize, h.size_eq]
  exact origin_le [] parts

/-! ## What linking asks of the allocator -/

theorem publish_units {base : UInt64} {cs : List CompiledUnit} {placed placed' : Array PlacedUnit}
    {r : Except Invariant Unit} (h : s.publish base cs placed = (r, placed')) {q : PlacedUnit}
    (hq : q ∈ placed') : q ∈ placed ∨ ∃ c ∈ cs, q.unit = c.unit := by
  induction cs generalizing placed with
  | nil =>
    cases h
    exact .inl hq
  | cons c cs ih =>
    have hpush {entry : UInt64} {ranges : Array (UInt64 × UInt64)}
        (hmem : q ∈ placed.push ⟨c.unit, entry, base + c.stop.toUInt64, ranges⟩) :
        q ∈ placed ∨ ∃ d ∈ c :: cs, q.unit = d.unit := by
      rcases Array.mem_push.1 hmem with hmem | rfl
      · exact .inl hmem
      · exact .inr ⟨c, List.mem_cons_self .., rfl⟩
    rw [publish] at h
    cases hentry : s.address base (s.entryLabel c.unit) with
    | error i =>
      rw [hentry] at h
      cases h
      exact .inl hq
    | ok entry =>
      rw [hentry] at h
      cases hranges : s.handlerRanges base c.unit c.unit.code.handlers.toList #[] with
      | mk result ranges =>
        rw [hranges] at h
        cases result with
        | error i =>
          cases h
          exact hpush hq
        | ok u =>
          rcases ih h with hmem | ⟨d, hd, hunit⟩
          · exact hpush hmem
          · exact .inr ⟨d, List.mem_cons_of_mem _ hd, hunit⟩

theorem place_units {base : UInt64} {code : Array UInt8} {r : Except Invariant Image}
    {placed : Array PlacedUnit} (h : s.place base code = (r, placed)) {q : PlacedUnit}
    (hq : q ∈ placed) : ∃ c ∈ s.programs.toList, q.unit = c.unit := by
  rw [place] at h
  split at h
  · cases h
    simp at hq
  · split at h <;> rename_i hpublish <;> cases h
    · exact (publish_units hpublish hq).resolve_left (by simp)
    · exact (publish_units hpublish hq).resolve_left (by simp)

/-- Linking makes one request at most, and publishes codes of the session. -/
theorem link_cases {α : Type} (s : Session) (allocator : α)
    (allocate : α → Int → Except AllocationError UInt64 × α) :
    ((s.link allocator allocate).allocator = allocator ∨
      ∃ n : Nat, (s.link allocator allocate).allocator = (allocate allocator n).2) ∧
    (∀ q ∈ (s.link allocator allocate).published, ∃ c ∈ s.programs.toList, q.unit = c.unit) ∧
    ∀ image, (s.link allocator allocate).result = .ok image →
      (s.link allocator allocate).published = image.programs := by
  rw [link]
  split
  · exact ⟨.inl rfl, by simp, by simp⟩
  split
  · exact ⟨.inl rfl, by simp, by simp⟩
  rename_i code hcode
  split <;> rename_i hallocate
  · exact ⟨.inr ⟨code.size, by rw [hallocate]⟩, by simp, by simp⟩
  dsimp only
  split <;> rename_i hplace
  · exact ⟨.inr ⟨code.size, by rw [hallocate]⟩, fun q hq => place_units hplace hq, by simp⟩
  · refine ⟨.inr ⟨code.size, by rw [hallocate]⟩, fun q hq => place_units hplace hq, ?_⟩
    rintro image ⟨⟩
    exact place_published hplace

/-- A session that was linked asked for the room that its image takes. -/
theorem Laid.link_allocator (h : s.Laid) {α : Type} {allocator : α}
    {allocate : α → Int → Except AllocationError UInt64 × α}
    (hlink : (s.link allocator allocate).result = .ok image) :
    (s.link allocator allocate).allocator = (allocate allocator s.size).2 := by
  obtain ⟨-, hlinked⟩ := h.linked hlink
  rw [link] at hlink ⊢
  split at hlink
  · cases hlink
  rename_i hfresh
  have hsize : s.resolved.toArray.size = s.size := h.length_resolved
  rw [if_neg hfresh]
  rw [h.resolve_eq hlinked.jumps] at hlink ⊢
  dsimp only at hlink ⊢
  rw [hsize] at hlink ⊢
  split at hlink <;> rename_i hallocate
  · cases hlink
  · rw [hallocate]
    dsimp only
    split <;> rfl

end Session

end RegisterJit
