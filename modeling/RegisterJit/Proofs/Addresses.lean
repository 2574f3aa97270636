import RegisterJit.Proofs.Ownership
import RegisterJit.Script.Builtin

/-!
# Addresses and references on a machine

The chunks of a region are apart, so the images of a machine are, and an address finds the code whose
instructions stand there. A code finds itself under its number, so a reference in its machine code
finds the name, the nested code or the instruction that it was made of.

`Compilations.Assigns` is the statement, about the machine after any number of programs were compiled on it,
those that failed included: images are chunks of the region, aligned and apart; within an image codes are apart
and each stands under its number; an address belongs to at most one code, and to none in the thunks and the
padding. It is proved by induction over the compilations, with `Machine.Keeps` from `Ownership` as what one
compilation preserves and `Session.PlacedIn` from `Placement` as what is known of one image. References are told
with `References`: the words that an instruction hands to its stubs resolve to what the instruction names.
-/

namespace RegisterJit

/-! ## References -/

theorem splitReference_codeReference (id index : UInt32) :
    splitReference (codeReference id index) = (id, index) := by
  have hid := id.toNat_lt
  have hindex := index.toNat_lt
  have hnat : (codeReference id index).toNat = id.toNat * 2 ^ 32 + index.toNat := by
    rw [codeReference, UInt64.toNat_or, UInt64.toNat_shiftLeft, UInt32.toNat_toUInt64,
      UInt32.toNat_toUInt64]
    have hshift : id.toNat <<< (32 % 64) % 2 ^ 64 = id.toNat <<< 32 := by
      rw [show 32 % 64 = 32 from rfl, Nat.shiftLeft_eq]
      omega
    rw [show (32 : UInt64).toNat = 32 from rfl, hshift, ← Nat.shiftLeft_add_eq_or_of_lt hindex,
      Nat.shiftLeft_eq]
  rw [splitReference, Prod.mk.injEq]
  constructor
  · rw [← UInt32.toNat_inj, UInt64.toNat_toUInt32, UInt64.toNat_shiftRight, hnat]
    rw [show (32 : UInt64).toNat % 64 = 32 from rfl, Nat.shiftRight_eq_div_pow]
    omega
  · rw [← UInt32.toNat_inj, UInt64.toNat_toUInt32, hnat]
    omega

theorem CodeUnit.splitReference_reference (u : CodeUnit) (ins : Instruction) (kind : ReferenceKind) :
    splitReference (u.reference ins kind) = (u.id, match kind with
      | .name => ins.operandOf .name
      | .nested => ins.operandOf .code
      | .here => ins.offset.toUInt32) := by
  cases kind <;> exact splitReference_codeReference _ _

namespace Machine

/-- What the runtime finds when an instruction of a unit hands it a reference. -/
def Resolves (m : Machine) (u : CodeUnit) (ins : Instruction) : ReferenceKind → Prop
  | .name => ∃ t, u.code.names[(ins.operandOf .name).toNat]? = some t ∧
      ∀ w : World, w.machine = m → Run.symbol (u.reference ins .name) w = .ok t w
  | .nested => ∃ child : MachineCode,
      u.code.codes[(ins.operandOf .code).toNat]? = some (some child.unit.code) ∧
      m.codes[child.unit.key]? = some child ∧
      ∀ (frame : Run.FrameRef) (w : World), w.machine = m →
        Run.loadFunction frame (u.reference ins .nested) w =
          (do return Heap.value (← Run.newFunction child (← Run.lexicalEnv frame)) : Run Value) w
  | .here => ∀ w : World, w.machine = m →
      Run.siteText (u.reference ins .here) w =
        .ok (u.code.name ++ Text.ofString "@" ++ Text.ofNat ins.offset.toUInt32.toNat) w

/-! ## Codes by their numbers -/

section

variable {m : Machine} {region : CodeMemory}

theorem code?_eq (hsmall : m.codes.size ≤ 2 ^ 32) (h : m.Keeps region) {u : CodeUnit}
    {entry : UInt64} (hu : m.codes[u.key]? = some ⟨u, entry⟩) : m.code? u.id = some ⟨u, entry⟩ := by
  have hlt : u.key < m.codes.size := (Array.getElem?_eq_some_iff.1 hu).1
  have hid : u.id = u.key.toUInt32 := by
    have := (h.numbered u.key u (by rw [List.getElem?_map, Array.getElem?_toList, hu]; rfl)).2
    rwa [Nat.zero_add] at this
  rw [code?, hid, Session.toNat_toUInt32 (by omega), hu]

theorem codeOrCrash_eq {id : UInt32} {c : MachineCode} {w : World} (h : w.machine.code? id = some c) :
    Run.codeOrCrash id w = .ok c w := by
  rw [Run.codeOrCrash, Run.bind_ok (Run.machine_run w), h]
  rfl

namespace Runs

variable {img : Image} {c : Code} {us : List CodeUnit} {s : Session}

theorem mem_codes (h : m.Runs img c us s) {u : CodeUnit} (hu : u ∈ us) :
    ∃ entry, m.codes[u.key]? = some ⟨u, entry⟩ := by
  rw [← h.units] at hu
  obtain ⟨p, hp, rfl⟩ := List.mem_map.1 hu
  exact ⟨p.entry, h.known p hp⟩

theorem nested_present (h : m.Runs img c us s) {u : CodeUnit} (hu : u ∈ us) {j : Nat}
    (hj : j < u.code.codes.length) : ∃ d, u.code.codes[j]? = some (some d) := by
  obtain ⟨o, ho⟩ : ∃ o, u.code.codes[j]? = some o := ⟨_, List.getElem?_eq_getElem hj⟩
  cases o with
  | some d => exact ⟨d, ho⟩
  | none =>
    have hwalk : some u.code ∈ c.walk := by
      rw [← h.codes]
      exact List.mem_map_of_mem (f := fun u => some u.code) hu
    obtain ⟨i, hi⟩ := List.getElem?_of_mem hwalk
    have hbegin := Code.walk_drop c hi
    have hnone : none ∈ u.code.walk := by
      rw [Code.walk_eq]
      refine List.mem_cons_of_mem _ (Code.mem_walkAll.2 (.inl ⟨rfl, ?_⟩))
      exact List.mem_of_getElem? ho
    have habsent : none ∈ us.map fun u => some u.code := by
      rw [h.codes]
      exact List.mem_of_mem_drop (hbegin.subset hnone)
    simp at habsent

theorem nested (h : m.Runs img c us s) {u : CodeUnit} (hu : u ∈ us) {j : Nat} {d : Code}
    (hd : u.code.codes[j]? = some (some d)) :
    ∃ v ∈ us, v.code = d ∧
      v.key = u.key + 1 + (Code.walkAll (u.code.codes.take j)).length := by
  obtain ⟨first, hnumbered⟩ := h.numbered
  obtain ⟨i, hi⟩ := List.getElem?_of_mem hu
  have hwalk : c.walk[i]? = some (some u.code) := by
    rw [← h.codes, List.getElem?_map, hi]
    rfl
  have hchild := Code.walk_nested hwalk hd
  rw [← h.codes, List.getElem?_map, Option.map_eq_some_iff] at hchild
  obtain ⟨v, hv, hcode⟩ := hchild
  refine ⟨v, List.mem_of_getElem? hv, Option.some.inj hcode, ?_⟩
  have hkey := (hnumbered _ v hv).1
  have hkey' := (hnumbered i u hi).1
  omega

theorem resolves (h : m.Runs img c us s) (hkeeps : m.Keeps region) (hsmall : m.codes.size ≤ 2 ^ 32)
    {u : CodeUnit} (hu : u ∈ us) {ins : Instruction} {kind : ReferenceKind} (hhas : u.Has ins kind) :
    m.Resolves u ins kind := by
  obtain ⟨entry, hknown⟩ := h.mem_codes hu
  have hcode := code?_eq hsmall hkeeps hknown
  have hsplit := u.splitReference_reference ins kind
  have hfound {w : World} (hw : w.machine = m) : Run.codeOrCrash u.id w = .ok ⟨u, entry⟩ w :=
    codeOrCrash_eq (by rw [hw, hcode])
  cases kind with
  | name =>
    refine ⟨_, Array.getElem?_eq_getElem hhas, fun w hw => ?_⟩
    rw [Run.symbol, hsplit]
    dsimp only
    rw [Run.bind_ok (hfound hw)]
    dsimp only
    rw [Array.getElem?_eq_getElem hhas]
    rfl
  | nested =>
    obtain ⟨d, hd⟩ := h.nested_present hu hhas
    obtain ⟨v, hv, rfl, hkey⟩ := h.nested hu hd
    obtain ⟨entry', hchild⟩ := h.mem_codes hv
    refine ⟨⟨v, entry'⟩, hd, hchild, fun frame w hw => ?_⟩
    have hlt : v.key < m.codes.size := (Array.getElem?_eq_some_iff.1 hchild).1
    have hid : u.id.toNat = u.key := by
      obtain ⟨first, hnumbered⟩ := h.numbered
      obtain ⟨i, hi⟩ := List.getElem?_of_mem hu
      obtain ⟨hkey', hid⟩ := hnumbered i u hi
      rw [hid, ← hkey', Session.toNat_toUInt32 (by omega)]
    have hnested : MachineCode.nested ⟨u, entry⟩ (ins.operandOf .code).toNat = v.key := by
      rw [hkey, ← hid, Code.length_walkAll]
      rfl
    have hchild' : w.machine.code? v.key.toUInt32 = some ⟨v, entry'⟩ := by
      rw [hw, Machine.code?, Session.toNat_toUInt32 (by omega), hchild]
    rw [Run.loadFunction, hsplit]
    dsimp only
    rw [Run.bind_ok (hfound hw), hnested, Run.bind_ok (codeOrCrash_eq hchild')]
  | here =>
    intro w hw
    have hget : Run.machine w = .ok w.machine w := rfl
    rw [Run.siteText, hsplit]
    dsimp only
    rw [Run.bind_ok hget, hw, hcode]
    rfl

theorem hands (h : m.Runs img c us s) {span : Span} (hspan : span ∈ s.spans.toList) :
    ∃ u ∈ us, span.key = u.key ∧ ∃ ins ∈ Stream.instructions u.code.data,
      span.event.offset = ins.offset.toUInt32 ∧ span.event.opcode = ins.opcode ∧
      Piece.HandsOver u ins ((s.pieces.toList.take span.stop).drop span.start) := by
  obtain ⟨parts, hunits, hcomp, hshapes, -⟩ := h.compiled.comprises
  obtain ⟨before, p, after, bs, b, bs', hparts, hblocks, hkey, hevent, hstart, hstop⟩ :=
    hcomp.block_of_span hspan
  have hp : p ∈ parts := by rw [hparts]; simp
  have hb : b ∈ p.blocks := by rw [hblocks]; simp
  have hshaped := hshapes p hp
  have hu : p.unit ∈ us := by
    have hmem : some p.unit ∈ us.map some := by
      rw [← List.flatten_singleton (l := us.map some), hunits]
      exact List.mem_map_of_mem (f := fun p => some p.unit) hp
    simpa using hmem
  have hins : b.ins ∈ Stream.instructions p.unit.code.data := by
    rw [← hshaped.blocks]
    exact List.mem_map_of_mem hb
  have hbody : (s.pieces.toList.take span.stop).drop span.start = b.body := by
    have hsnoc : s.pieces.toList.take span.stop = s.pieces.toList.take span.start ++ b.body := by
      rw [hstop, hstart, Session.leading, Session.leading, Block.code, Block.code,
        List.flatMap_append, List.flatMap_singleton, Block.pieces]
      simp
    have hlength := congrArg List.length hsnoc
    rw [List.length_append, List.length_take, List.length_take] at hlength
    by_cases hle : span.start ≤ s.pieces.toList.length
    · rw [hsnoc, List.drop_left' (by rw [List.length_take]; omega)]
    · have hnil : b.body = [] := List.eq_nil_of_length_eq_zero (by omega)
      rw [hnil, List.drop_eq_nil_of_le (by rw [List.length_take]; omega)]
  refine ⟨p.unit, hu, hkey, b.ins, hins, by rw [hevent]; rfl, by rw [hevent]; rfl, ?_⟩
  rw [hbody]
  obtain ⟨cached, hrun⟩ := hshaped.emitted b hb
  obtain ⟨-, ps, hps, hhands⟩ := Emit.hands_instruction rfl _ _ hrun
  have heq : b.body = ps := by simpa using hps
  rwa [heq]

end Runs

end

/-! ## Addresses -/

def programs (m : Machine) : List PlacedUnit := m.images.toList.flatMap fun img => img.programs.toList

def programAt (m : Machine) (pc : UInt64) : Option PlacedUnit :=
  (m.imageOf pc).bind fun img => img.lookup pc

theorem mem_programs {m : Machine} {p : PlacedUnit} :
    p ∈ m.programs ↔ ∃ img ∈ m.images.toList, p ∈ img.programs := by
  simp [programs]

theorem programAt_outside {m : Machine} {pc : UInt64} (hpc : ∀ img ∈ m.images.toList, img.contains pc = false) :
    m.programAt pc = none := by
  have hnone : m.imageOf pc = none := by
    rw [imageOf, ← Array.find?_toList, List.find?_eq_none]
    intro img himg
    rw [hpc img himg]
    decide
  rw [programAt, hnone]
  rfl

/-- Among things that exclude one another, the first that has a property is the only one. -/
theorem find?_eq_some_iff_of_pairwise {α : Type} {P : α → Bool} {xs : List α}
    (h : xs.Pairwise fun a b => ¬(P a = true ∧ P b = true)) {a : α} :
    xs.find? P = some a ↔ a ∈ xs ∧ P a = true := by
  induction xs with
  | nil => simp
  | cons x xs ih =>
    obtain ⟨hx, hxs⟩ := List.pairwise_cons.1 h
    by_cases hPx : P x = true
    · rw [List.find?_cons_of_pos hPx, Option.some.injEq, List.mem_cons]
      constructor
      · rintro rfl
        exact ⟨.inl rfl, hPx⟩
      · rintro ⟨rfl | ha, hPa⟩
        · rfl
        · exact absurd ⟨hPx, hPa⟩ (hx a ha)
    · rw [List.find?_cons_of_neg hPx, ih hxs, List.mem_cons]
      constructor
      · exact fun ⟨ha, hPa⟩ => ⟨.inr ha, hPa⟩
      · rintro ⟨rfl | ha, hPa⟩
        · exact absurd hPa hPx
        · exact ⟨ha, hPa⟩

namespace Keeps

variable {m : Machine} {region : CodeMemory} (h : m.Keeps region) (hregion : region.Sound)

include h hregion

theorem filled {img : LoadedImage} (himg : img ∈ m.images.toList) : img.toImage.Filled := by
  obtain ⟨sizes, -, hchunks⟩ := h.memory
  obtain ⟨c, us, s, hruns⟩ := h.images img himg
  obtain ⟨parts, -, hcomp, -, -⟩ := hruns.compiled.comprises
  have hchunk := (hregion.chunks sizes).1 _
    (hchunks.subset (List.mem_map_of_mem (f := fun img : LoadedImage => (img.base, img.code.size)) himg))
  have hsize := hruns.linked.size_eq hcomp.laid
  have hinside := hchunk.inside
  have hbounded := hregion.bounded
  dsimp only at hinside
  exact hruns.linked.filled hcomp hchunk.aligned (by omega)

theorem images_apart :
    m.images.toList.Pairwise fun a b => a.base.toNat + a.code.size ≤ b.base.toNat := by
  obtain ⟨sizes, -, hchunks⟩ := h.memory
  exact List.pairwise_map.1 ((hregion.chunks sizes).2.sublist hchunks)

theorem imageOf_eq_some_iff {pc : UInt64} {img : LoadedImage} :
    m.imageOf pc = some img ↔ img ∈ m.images.toList ∧ img.contains pc = true := by
  rw [imageOf, ← Array.find?_toList]
  refine find?_eq_some_iff_of_pairwise ?_
  refine (List.Pairwise.and_mem.1 (h.images_apart hregion)).imp fun {a b} ⟨ha, hb, hapart⟩ => ?_
  rintro ⟨hpc, hpc'⟩
  have := ((h.filled hregion ha).contains_iff.1 hpc).2
  have := ((h.filled hregion hb).contains_iff.1 hpc').1
  omega

theorem programs_apart : m.programs.Pairwise fun p q => p.stop.toNat ≤ q.entry.toNat := by
  rw [programs, List.pairwise_flatMap]
  refine ⟨fun img himg => (h.filled hregion himg).row.pairwise, ?_⟩
  refine (List.Pairwise.and_mem.1 (h.images_apart hregion)).imp fun {a b} ⟨ha, hb, hapart⟩ => ?_
  intro p hp q hq
  have := ((h.filled hregion ha).row.bounds hp).2.2.2
  have := ((h.filled hregion hb).row.bounds hq).1
  omega

theorem programAt_eq_some_iff {pc : UInt64} {p : PlacedUnit} :
    m.programAt pc = some p ↔ p ∈ m.programs ∧ p.Covers pc := by
  rw [programAt, Option.bind_eq_some_iff, mem_programs]
  constructor
  · rintro ⟨img, himg, hp⟩
    obtain ⟨hmem, -⟩ := (h.imageOf_eq_some_iff hregion).1 himg
    obtain ⟨hp, hcovers⟩ := (h.filled hregion hmem).lookup_eq_some_iff.1 hp
    exact ⟨⟨img, hmem, hp⟩, hcovers⟩
  · rintro ⟨⟨img, hmem, hp⟩, hcovers⟩
    have hfilled := h.filled hregion hmem
    exact ⟨img, (h.imageOf_eq_some_iff hregion).2 ⟨hmem, hfilled.covers_contains hp hcovers⟩,
      hfilled.lookup_eq_some_iff.2 ⟨hp, hcovers⟩⟩

theorem programAt_eq_lookup {img : LoadedImage} (himg : img ∈ m.images.toList) {pc : UInt64}
    (hpc : img.contains pc = true) : m.programAt pc = img.lookup pc := by
  rw [programAt, (h.imageOf_eq_some_iff hregion).2 ⟨himg, hpc⟩]
  rfl

end Keeps

/-- Where everything is on a machine whose code memory was `region` at first. -/
structure Assigns (m : Machine) (region : CodeMemory) : Prop where
  chunks : ∀ sizes, (∀ c ∈ region.chunks sizes, region.ChunkOf c) ∧
    (region.chunks sizes).Pairwise fun c d => c.1.toNat + c.2 ≤ d.1.toNat
  refused : ∀ sizes size cause, ((region.serve sizes).allocate size).1 = .error cause →
    ((region.serve sizes).allocate size).2 = region.serve sizes
  /-- The images are chunks that the region handed out. -/
  images : ∃ sizes, m.codeMemory = region.serve sizes ∧
    (m.images.toList.map fun img => (img.base, img.code.size)).Sublist (region.chunks sizes)
  apart : m.programs.Pairwise fun p q => ∀ pc, ¬(p.Covers pc ∧ q.Covers pc)
  found : ∀ pc p, m.programAt pc = some p ↔ p ∈ m.programs ∧ p.Covers pc
  outside : ∀ pc, (∀ img ∈ m.images.toList, img.contains pc = false) → m.programAt pc = none
  /-- In an image the thunks and the padding belong to no code, and everything else does. -/
  between : ∀ img ∈ m.images.toList, ∀ pc, img.contains pc = true →
    (m.programAt pc = none ↔ pc.toNat < img.base.toNat + Session.start.size ∨
      ∃ p ∈ img.programs, p.stop ≤ pc ∧ pc.toNat < alignUp16 p.stop.toNat)
  /-- The codes of an image are those of a tree, and stand under their numbers. -/
  known : ∀ img ∈ m.images.toList,
    (∃ c : Code, img.programs.toList.map (fun p => some p.unit.code) = c.walk) ∧
    ∀ p ∈ img.programs, m.codes.size ≤ 2 ^ 32 → m.code? p.unit.id = some ⟨p.unit, p.entry⟩
  /-- What machine code refers to is what its instruction named. -/
  references : ∀ img ∈ m.images.toList, ∃ s : Session, s.Linked img.toImage ∧
    ∀ span ∈ s.spans.toList, ∃ p ∈ img.programs, span.key = p.unit.key ∧
      ∃ ins ∈ Stream.instructions p.unit.code.data,
        span.event.offset = ins.offset.toUInt32 ∧ span.event.opcode = ins.opcode ∧
        Piece.HandsOver p.unit ins ((s.pieces.toList.take span.stop).drop span.start) ∧
        ∀ kind, p.unit.Has ins kind → m.codes.size ≤ 2 ^ 32 → m.Resolves p.unit ins kind

theorem Keeps.assignment {m : Machine} {region : CodeMemory} (h : m.Keeps region)
    (hregion : region.Sound) : m.Assigns region where
  chunks := hregion.chunks
  refused sizes size cause hcause := CodeMemory.allocate_error hcause
  images := h.memory
  apart := (h.programs_apart hregion).imp fun {p q} hle pc hcovers => by
    have := UInt64.lt_iff_toNat_lt.1 hcovers.1.2
    have := UInt64.le_iff_toNat_le.1 hcovers.2.1
    omega
  found pc p := h.programAt_eq_some_iff hregion
  outside pc hpc := programAt_outside hpc
  between img himg pc hpc := by
    rw [h.programAt_eq_lookup hregion himg hpc]
    exact (h.filled hregion himg).lookup_eq_none_iff hpc
  known img himg := by
    obtain ⟨c, us, s, hruns⟩ := h.images img himg
    refine ⟨⟨c, ?_⟩, fun p hp hsmall =>
      code?_eq hsmall h (hruns.known p (Array.mem_toList_iff.2 hp))⟩
    rw [← hruns.codes, ← hruns.units, List.map_map]
    rfl
  references img himg := by
    obtain ⟨c, us, s, hruns⟩ := h.images img himg
    refine ⟨s, hruns.linked, fun span hspan => ?_⟩
    obtain ⟨u, hu, hkey, ins, hins, hoffset, hopcode, hhands⟩ := hruns.hands hspan
    have hmem := hu
    rw [← hruns.units] at hmem
    obtain ⟨p, hp, rfl⟩ := List.mem_map.1 hmem
    exact ⟨p, Array.mem_toList_iff.1 hp, hkey, ins, hins, hoffset, hopcode, hhands,
      fun kind hhas hsmall => hruns.resolves h hsmall hu hhas⟩

end Machine

namespace Run.Compilations

/-- After any compilations on a fresh machine every address belongs to one code at most, lookups find
it, and codes and references are found by their numbers. -/
theorem assigns {w w' : World} (h : Compilations w w') (hcodes : w.machine.codes = #[])
    (himages : w.machine.images = #[]) (hregion : w.machine.codeMemory.Sound) :
    w'.machine.Assigns w.machine.codeMemory :=
  ((Machine.keeps_of_fresh hcodes himages).compilations h).assignment hregion

/-- A function that returns undefined. -/
def inner : Code :=
  { Code.ofName (Text.ofString "inner") with
    data := #[Word.ofOpcode (.loadImmediate .undefined), 0, Word.ofOpcode .return, 0], registerCount := 1 }

/-- A script that returns the function nested in it if a global variable is there. -/
def outer : Code :=
  { Code.ofName (Text.ofString "outer") with
    data := #[Word.ofOpcode (.global .load), 0, 0, Word.ofOpcode .loadFunction, 0, 0,
      Word.ofOpcode .return, 0]
    names := #[Text.ofString "x"], codes := [some inner], registerCount := 1 }

/-- A world with room for two images of the script. -/
def crowded : World := ⟨Realm.bare, Machine.ofConfig ⟨600, 0, 0⟩, #[], #[]⟩

/-- The world after the script was compiled some times. -/
def crowd : Nat → World
  | 0 => crowded
  | n + 1 => (Run.compile outer).after (crowd n)

theorem compilations_crowd (n : Nat) : Compilations crowded (crowd n) := by
  induction n with
  | zero => exact .none
  | succ n ih => exact .compile ih outer

theorem assigns_crowded :
    (crowd 3).machine.images.size = 2 ∧
      (crowd 3).machine.Assigns crowded.machine.codeMemory :=
  ⟨by decide +kernel, (compilations_crowd 3).assigns rfl rfl
    ⟨by decide +kernel, by decide +kernel, by decide +kernel⟩⟩

end Run.Compilations

end RegisterJit
