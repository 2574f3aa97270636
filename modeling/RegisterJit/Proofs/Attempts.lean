import RegisterJit.Proofs.Displacements
import RegisterJit.Proofs.Relocation

/-!
# Attempts to link

How far a link comes, in any session that compiling and linking can lead to. Every code that was
compiled has an entry with a place, so publishing stops at a handler or not at all.

A link places the codes, publishes their entries, asks for memory and fills in what depends on addresses, and it
may stop at any of these points. `Attempt` lists what a session can be left as, with what was published up to
there. That it is one of these is proved for every session that holds what `Settled` says, which compiling
establishes and attempts keep. A session that an attempt failed on differs from what it was in displacements and
entries only, so with `Displacements` it goes on compiling and linking as if there had been no attempt.
`Publication` follows sequences of requests with this, and `Placement` gets the image of a successful attempt
from it.
-/

namespace RegisterJit

open X86 (Label Jump Assembler)

namespace Session

variable {s t : Session}

/-! ## Entries of compiled codes -/

/-- The entry of a unit has a place. -/
def Enrolled (s : Session) (key : Nat) : Prop :=
  ∃ e, s.entries.find? (fun e => e.1 == key) = some e ∧ (s.asm.place? e.2).isSome

/-- Every compiled code has an entry. -/
def Settled (s : Session) : Prop := ∀ c ∈ s.programs.toList, s.Enrolled c.unit.key

namespace Build

/-- What holds when a build ends well, and what when it does not. -/
def Ends {α : Type} (Q E : Session → Prop) : EStateM.Result Invariant Session α → Prop
  | .ok _ s => Q s
  | .error _ s => E s

/-- From `P`, a build ends with `Q` or fails with `E`. -/
def Leads {α : Type} (P : Session → Prop) (x : Build α) (Q E : Session → Prop) : Prop :=
  ∀ s, P s → Ends Q E (x s)

variable {P P' Q Q' R E E' : Session → Prop}

theorem Ends.imp {α : Type} {r : EStateM.Result Invariant Session α} (hQ : ∀ s, Q s → Q' s)
    (hE : ∀ s, E s → E' s) (h : Ends Q E r) : Ends Q' E' r := by
  cases r with
  | ok a s => exact hQ s h
  | error i s => exact hE s h

theorem Leads.bind {α β : Type} {x : Build α} {f : α → Build β} (hx : Leads P x Q E)
    (hf : ∀ a, Leads Q (f a) R E) : Leads P (x >>= f) R E := by
  intro s hs
  have h := hx s hs
  change Ends R E (EStateM.bind x f s)
  rw [EStateM.bind]
  cases hxs : x s with
  | ok a s' =>
    rw [hxs] at h
    exact hf a s' h
  | error i s' =>
    rw [hxs] at h
    exact h

theorem Leads.mono {α : Type} {x : Build α} (hx : Leads P x Q E) (hE : ∀ s, E s → E' s) :
    Leads P x Q E' := by
  exact fun s hs => (hx s hs).imp (fun _ h => h) hE

theorem leads_pure {α : Type} (a : α) : Leads P (pure a) P E := fun _ hs => hs

theorem leads_throw {α : Type} (i : Invariant) : Leads P (throw i : Build α) Q P := fun _ hs => hs

theorem leads_throw_bind {α β : Type} (i : Invariant) (f : α → Build β) :
    Leads P (throw i >>= f) Q P := fun _ hs => hs

theorem leads_modify {f : Session → Session} (hf : ∀ s, P s → Q (f s)) : Leads P (modify f) Q E :=
  fun s hs => hf s hs

theorem leads_get {β : Type} {f : Session → Build β} (hf : ∀ s, P s → Leads P (f s) Q E) :
    Leads P (get >>= f) Q E := fun s hs => hf s hs s hs

/-- The codes compiled so far, and some units that have entries. -/
structure Holding (ps : Array CompiledUnit) (keys : List Nat) (s : Session) : Prop where
  programs : s.programs = ps
  entries : ∀ k ∈ keys, s.Enrolled k

variable {ps : Array CompiledUnit} {keys : List Nat}

theorem Holding.congr {s t : Session} (h : Holding ps keys s) (hprograms : t.programs = s.programs)
    (hentries : t.entries = s.entries)
    (hplaces : ∀ l, (s.asm.place? l).isSome → (t.asm.place? l).isSome) : Holding ps keys t := by
  refine ⟨hprograms.trans h.programs, fun k hk => ?_⟩
  obtain ⟨e, he, hplace⟩ := h.entries k hk
  exact ⟨e, by rw [hentries, he], hplaces _ hplace⟩

theorem isSome_place?_reserve (a : Assembler) (count : Nat) {l : Label} (h : (a.place? l).isSome) :
    ((a.reserve count).place? l).isSome := by
  rw [Assembler.place?, Array.getD_eq_getD_getElem?] at h ⊢
  rw [Assembler.reserve]
  rcases Nat.lt_or_ge l a.labels.size with hlt | hge
  · rwa [Array.getElem?_append_left hlt]
  · rw [Array.getElem?_eq_none hge] at h
    cases h

theorem isSome_place?_put {a b : Assembler} {p : Piece} (hput : a.put p = .ok b) {l : Label}
    (h : (a.place? l).isSome) : (b.place? l).isSome := by
  cases p with
  | bind l' =>
    rw [Assembler.put, Assembler.bind] at hput
    cases hl : a.labels[l']? with
    | none => rw [hl] at hput; cases hput
    | some place =>
      cases place with
      | some place => rw [hl] at hput; cases hput
      | none =>
        rw [hl] at hput
        cases hput
        rw [Assembler.place?, Array.getD_eq_getD_getElem?] at h ⊢
        have hne : l' ≠ l := by
          rintro rfl
          rw [hl] at h
          cases h
        rwa [Array.getElem?_setIfInBounds_ne hne]
  | kept dst r =>
    cases hput
    split
    · exact h
    · exact h
  | instr i | jmp l' | jcc c l' | call l' | address dst l' => cases hput; exact h
  | align n =>
    cases hput
    rw [Assembler.place?] at h ⊢
    rwa [Assembler.align, (Assembler.pad_labels _ _).1]

theorem keeps_put (p : Piece) : Leads (Holding ps keys) (put p) (Holding ps keys) (Holding ps keys) := by
  intro s hs
  rw [put]
  cases hput : s.asm.put p with
  | ok a => exact hs.congr rfl rfl fun l hl => isSome_place?_put hput hl
  | error f => exact hs

/-- A build that keeps what is held, whether it ends well or not. -/
def Keeps {α : Type} (ps : Array CompiledUnit) (keys : List Nat) (x : Build α) : Prop :=
  Leads (Holding ps keys) x (Holding ps keys) (Holding ps keys)

theorem keeps_putAll (qs : List Piece) : Keeps ps keys (putAll qs) := by
  induction qs with
  | nil => exact leads_pure ()
  | cons p qs ih => exact (keeps_put p).bind fun _ => ih

theorem keeps_keep (e : Emitter) : Keeps ps keys (keep e) :=
  Leads.bind (leads_modify fun _ hs => hs.congr rfl rfl fun _ hl => isSome_place?_reserve _ _ hl)
    fun _ => keeps_putAll _

theorem keeps_emit (site : Site) (cached : Register) (body : Emit Unit) :
    Keeps ps keys (emit site cached body) := by
  refine leads_get fun s _ => ?_
  split
  · exact Leads.bind (keeps_keep _) fun _ => leads_pure _
  · exact Leads.bind (keeps_keep _) fun _ => leads_throw _

theorem keeps_scan (c : Code) : Keeps ps keys (scan c) := by
  intro s hs
  obtain ⟨count, hcount⟩ := Scan.targets_labels c s.asm
  have hnext : Holding ps keys { s with asm := (Scan.targets c s.asm).2 } := by
    refine hs.congr rfl rfl fun l hl => ?_
    rw [hcount]
    exact isSome_place?_reserve _ _ hl
  cases hresult : (Scan.targets c s.asm).1 with
  | ok table =>
    rw [scan_of_ok (Prod.ext hresult rfl)]
    exact hnext
  | error i =>
    rw [scan_of_error (Prod.ext hresult rfl)]
    exact hnext

theorem keeps_splitBlock (site : Site) (cached : Register) :
    Keeps ps keys (splitBlock site cached) := by
  rw [splitBlock]
  split
  · exact leads_pure _
  · refine Leads.bind (keeps_put _) fun _ => ?_
    split
    · exact Leads.bind (leads_modify fun _ hs => hs.congr rfl rfl fun _ hl => hl)
        fun _ => leads_pure _
    · exact leads_pure _

theorem keeps_instruction (site : Site) (cached : Register) (ins : Instruction) :
    Keeps ps keys (instruction site cached ins) := by
  refine Leads.bind (keeps_splitBlock site cached) fun cached => ?_
  refine Leads.bind (leads_modify fun _ hs => hs.congr rfl rfl fun _ hl => hl) fun _ => ?_
  refine leads_get fun s _ => Leads.bind (keeps_emit site cached _) fun upcoming => ?_
  exact Leads.bind (leads_modify fun _ hs => hs.congr rfl rfl fun _ hl => hl) fun _ => leads_pure _

theorem keeps_instructions (u : CodeUnit) (jumps : JumpTable) (cached : Register)
    (is : List Instruction) : Keeps ps keys (instructions u jumps cached is) := by
  induction is generalizing cached with
  | nil => exact leads_pure ()
  | cons ins is ih => exact Leads.bind (keeps_instruction _ cached ins) ih

theorem openUnit_enrolls (u : CodeUnit) (hnew : u.key ∉ keys) :
    Leads (Holding ps keys) (openUnit u) (Holding ps (u.key :: keys)) (Holding ps keys) := by
  refine leads_get fun s _ => ?_
  generalize s.asm.labels.size = entry
  refine Leads.bind
    (leads_modify fun _ hs => hs.congr rfl rfl fun _ hl => isSome_place?_reserve _ 1 hl) fun _ => ?_
  -- The label of the entry is the second piece that is put.
  have hput : Leads (Holding ps keys) (putAll [.align 16, .bind entry, .instr (.push frameReg)])
      (fun s => Holding ps keys s ∧ (s.asm.place? entry).isSome) (Holding ps keys) := by
    refine Leads.bind (keeps_put _) fun _ => Leads.bind
      (Q := fun s => Holding ps keys s ∧ (s.asm.place? entry).isSome) ?_ fun _ => ?_
    · intro s hs
      have hkeep := keeps_put (.bind entry) s hs
      rw [put] at hkeep ⊢
      cases hbind : s.asm.put (.bind entry) with
      | error f => exact hs
      | ok a =>
        rw [hbind] at hkeep
        refine ⟨hkeep, ?_⟩
        rw [Assembler.put, Assembler.bind] at hbind
        cases hl : s.asm.labels[entry]? with
        | none => rw [hl] at hbind; cases hbind
        | some place =>
          cases place with
          | some place => rw [hl] at hbind; cases hbind
          | none =>
            rw [hl] at hbind
            cases hbind
            have hlt : entry < s.asm.labels.size := (Array.getElem?_eq_some_iff.1 hl).1
            change Option.isSome (Array.getD _ entry none) = true
            rw [Array.getD_eq_getD_getElem?, Array.getElem?_setIfInBounds_self, if_pos hlt]
            rfl
    · exact fun s hs => ⟨hs.1.congr rfl rfl fun _ hl => hl, hs.2⟩
  refine Leads.bind hput fun _ => leads_modify fun s hs => ⟨hs.1.programs, fun k hk => ?_⟩
  rcases List.mem_cons.1 hk with rfl | hk
  · exact ⟨(u.key, entry), by simp, hs.2⟩
  · obtain ⟨e, he, hplace⟩ := hs.1.entries k hk
    have hne : (u.key == k) = false := by
      rw [beq_eq_false_iff_ne]
      rintro rfl
      exact hnew hk
    exact ⟨e, by rw [List.find?_cons, hne, he], hplace⟩

/-- A unit is among the compiled codes only once it has an entry. -/
theorem body_settled (u : CodeUnit) (hnew : u.key ∉ keys) :
    Leads (Holding ps keys) (do
      let jumps ← scan u.code
      openUnit u
      instructions u jumps Register.invalid (Stream.instructions u.code.data)
      let _ ← splitBlock ⟨u, jumps, stubThunk, u.code.data.size.toUInt32⟩ Register.invalid
      let _ ← emit ⟨u, jumps, stubThunk, u.code.data.size.toUInt32⟩ Register.invalid epilogue
      modify fun s => { s with programs := s.programs.push ⟨u, s.size⟩ })
      (fun s => (∃ stop, s.programs = ps.push ⟨u, stop⟩) ∧ ∀ k ∈ u.key :: keys, s.Enrolled k)
      (Holding ps keys) := by
  have hdrop : ∀ s, Holding ps (u.key :: keys) s → Holding ps keys s := fun s hs =>
    ⟨hs.programs, fun k hk => hs.entries k (List.mem_cons_of_mem _ hk)⟩
  -- What the epilogue is does not matter, and it is not to be unfolded.
  generalize epilogue = last
  refine Leads.bind (keeps_scan _) fun jumps => Leads.bind (openUnit_enrolls u hnew) fun _ => ?_
  refine Leads.bind ((keeps_instructions u jumps _ _).mono hdrop) fun _ => ?_
  refine Leads.bind ((keeps_splitBlock _ _).mono hdrop) fun _ => ?_
  refine Leads.bind ((keeps_emit _ _ _).mono hdrop) fun _ => leads_modify fun s hs => ?_
  exact ⟨⟨s.size, by rw [hs.programs]⟩, hs.entries⟩

theorem unit_settled (u : CodeUnit) : Leads Settled (unit u) Settled Settled := by
  intro s hs
  suffices h : Leads (fun t => t = s) (unit u) Settled Settled from h s rfl
  refine leads_get ?_
  rintro s rfl
  split
  · exact (leads_throw_bind _ _).mono fun t ht => ht ▸ hs
  · rename_i hany
    have hnew : u.key ∉ s.programs.toList.map fun c => c.unit.key := by
      intro hmem
      obtain ⟨c, hc, hkey⟩ := List.mem_map.1 hmem
      obtain ⟨e, he, -⟩ := hs c hc
      refine hany (List.any_eq_true.2 ⟨e, List.mem_of_find?_eq_some he, ?_⟩)
      have hpred := List.find?_some he
      rwa [hkey] at hpred
    have hholding : Holding s.programs (s.programs.toList.map fun c => c.unit.key) s := by
      refine ⟨rfl, fun k hk => ?_⟩
      obtain ⟨c, hc, rfl⟩ := List.mem_map.1 hk
      exact hs c hc
    rintro t rfl
    refine (body_settled u hnew t hholding).imp (fun t' ht c hc => ?_) fun t' ht c hc => ?_
    · obtain ⟨⟨stop, hps⟩, hkeys⟩ := ht
      rw [hps, Array.toList_push, List.mem_append, List.mem_singleton] at hc
      refine hkeys _ ?_
      rcases hc with hc | rfl
      · exact List.mem_cons_of_mem _ (List.mem_map.2 ⟨c, hc, rfl⟩)
      · exact List.mem_cons_self
    · rw [ht.programs] at hc
      exact ht.entries _ (List.mem_map.2 ⟨c, hc, rfl⟩)

theorem units_settled (codes : List (Option CodeUnit)) : Leads Settled (units codes) Settled Settled := by
  induction codes with
  | nil => exact leads_pure ()
  | cons u? codes ih =>
    cases u? with
    | none => exact leads_throw _
    | some u => exact Leads.bind (unit_settled u) fun _ => ih

end Build

theorem start_settled : start.Settled := by
  intro c hc
  cases hc

theorem compile_of_linked (hl : s.linked = true) (codes : List (Option CodeUnit)) :
    s.compile codes = (.error .alreadyLinked, s) := by
  have hrun : (Build.program codes).run s = .error .alreadyLinked s := by
    change (if _ then _ else _ : Build Unit) s = _
    rw [if_pos hl]
    rfl
  rw [Session.compile, hrun]

theorem Settled.compile (h : s.Settled) (codes : List (Option CodeUnit)) :
    (s.compile codes).2.Settled := by
  have hunits := Build.units_settled codes s h
  by_cases hl : s.linked = true
  · rw [compile_of_linked hl]
    exact h
  · have hrun : (Build.program codes).run s = Build.units codes s := by
      change (if _ then _ else _ : Build Unit) s = _
      rw [if_neg hl]
    rw [Session.compile, hrun]
    cases hu : Build.units codes s with
    | ok a t => rw [hu] at hunits; exact hunits
    | error i t => rw [hu] at hunits; exact hunits

theorem Enrolled.address {u : CodeUnit} (h : s.Enrolled u.key) (base : UInt64) :
    ∃ entry, s.address base (s.entryLabel u) = .ok entry := by
  obtain ⟨e, he, hplace⟩ := h
  rw [entryLabel, he]
  rw [Assembler.place?, Array.getD_eq_getD_getElem?] at hplace
  rw [Session.address, Assembler.labelOffset]
  cases hl : s.asm.labels[e.2]? with
  | none => rw [hl] at hplace; cases hplace
  | some place =>
    cases place with
    | none => rw [hl] at hplace; cases hplace
    | some place => exact ⟨_, rfl⟩

/-! ## Publishing in part -/

/-- A code that was published up to a handler with a boundary that has no place. -/
structure PublishesInPart (s : Session) (base : UInt64) (i : Invariant) (c : CompiledUnit)
    (q : PlacedUnit) : Prop where
  unit : q.unit = c.unit
  entry : s.address base (s.entryLabel c.unit) = .ok q.entry
  handlers : ∃ before h after isStart, c.unit.code.handlers.toList = before ++ h :: after ∧
    List.Forall₂ (s.Ranges base c.unit) before q.handlers.toList ∧
    (∀ link ∈ s.handlerLinks, link.key = c.unit.key →
      link.offset ≠ if isStart then h.start else h.stop) ∧
    i = .handlerNotLinked c.unit.code.name isStart (if isStart then h.start else h.stop)

theorem boundary_error {u : CodeUnit} {isStart : Bool} {offset : UInt32} {i : Invariant}
    (h : s.boundary u isStart offset = .error i) :
    (∀ link ∈ s.handlerLinks, link.key = u.key → link.offset ≠ offset) ∧
      i = .handlerNotLinked u.code.name isStart offset := by
  rw [boundary] at h
  cases hf : s.handlerLinks.find? fun l => l.key == u.key && l.offset == offset with
  | some link => rw [hf] at h; cases h
  | none =>
    rw [hf] at h
    cases h
    refine ⟨fun link hlink hkey hoffset => ?_, rfl⟩
    have hnot := List.find?_eq_none.1 hf link hlink
    rw [hkey, hoffset] at hnot
    simp at hnot

theorem handlerRanges_error {base : UInt64} {u : CodeUnit} {hs : List Handler}
    {ranges ranges' : Array (UInt64 × UInt64)} {i : Invariant}
    (h : s.handlerRanges base u hs ranges = (.error i, ranges')) :
    ∃ before hd after isStart rs, hs = before ++ hd :: after ∧ ranges'.toList = ranges.toList ++ rs ∧
      List.Forall₂ (s.Ranges base u) before rs ∧
      (∀ link ∈ s.handlerLinks, link.key = u.key →
        link.offset ≠ if isStart then hd.start else hd.stop) ∧
      i = .handlerNotLinked u.code.name isStart (if isStart then hd.start else hd.stop) := by
  induction hs generalizing ranges with
  | nil => cases h
  | cons hd hs ih =>
    rw [handlerRanges] at h
    cases hfirst : s.boundary u true hd.start with
    | error i' =>
      rw [hfirst] at h
      cases h
      obtain ⟨hno, hi⟩ := boundary_error hfirst
      exact ⟨[], hd, hs, true, [], rfl, (List.append_nil _).symm, .nil, hno, hi⟩
    | ok first =>
      cases hlast : s.boundary u false hd.stop with
      | error i' =>
        rw [hfirst, hlast] at h
        cases h
        obtain ⟨hno, hi⟩ := boundary_error hlast
        exact ⟨[], hd, hs, false, [], rfl, (List.append_nil _).symm, .nil, hno, hi⟩
      | ok last =>
        rw [hfirst, hlast] at h
        obtain ⟨before, hd', after, isStart, rs, rfl, hrs, hall, hno, hi⟩ := ih h
        refine ⟨hd :: before, hd', after, isStart, _ :: rs, rfl, ?_,
          .cons ⟨first, last, hfirst, hlast, rfl⟩ hall, hno, hi⟩
        rw [hrs, Array.toList_push, List.append_assoc]
        rfl

/-- Publishing stops only at a handler: the code it belongs to is published in part, and the codes
before it in full. -/
theorem publish_error {base : UInt64} {cs : List CompiledUnit} {placed placed' : Array PlacedUnit}
    {i : Invariant} (hentries : ∀ c ∈ cs, s.Enrolled c.unit.key)
    (h : s.publish base cs placed = (.error i, placed')) :
    ∃ done c rest qs q, cs = done ++ c :: rest ∧ placed'.toList = placed.toList ++ (qs ++ [q]) ∧
      List.Forall₂ (s.Publishes base) done qs ∧ s.PublishesInPart base i c q := by
  induction cs generalizing placed with
  | nil => cases h
  | cons c cs ih =>
    rw [publish] at h
    obtain ⟨entry, hentry⟩ := (hentries c List.mem_cons_self).address base
    cases hranges : s.handlerRanges base c.unit c.unit.code.handlers.toList #[] with
    | mk result ranges =>
      rw [hentry, hranges] at h
      let q : PlacedUnit := ⟨c.unit, entry, base + c.stop.toUInt64, ranges⟩
      cases result with
      | error i' =>
        cases h
        obtain ⟨before, hd, after, isStart, rs, hhandlers, hrs, hall, hno, hi⟩ :=
          handlerRanges_error hranges
        obtain rfl : ranges.toList = rs := hrs
        refine ⟨[], c, cs, [], q, rfl, Array.toList_push, .nil, rfl, hentry, before, hd, after, isStart, hhandlers,
          hall, hno, hi⟩
      | ok u =>
        obtain ⟨rs, hrs, hall⟩ := forall₂_of_handlerRanges hranges
        obtain rfl : ranges.toList = rs := hrs
        obtain ⟨done, c', rest, qs, q', rfl, hqs, hdone, hpart⟩ :=
          ih (fun c' hc' => hentries c' (List.mem_cons_of_mem _ hc')) h
        refine ⟨c :: done, c', rest, q :: qs, q', rfl, ?_, .cons ⟨rfl, hentry, rfl, hall⟩ hdone, hpart⟩
        rw [hqs, Array.toList_push, List.append_assoc]
        rfl

theorem address_error {base : UInt64} {l : Label} {i : Invariant} (h : s.address base l = .error i) :
    ∃ f, i = .label f := by
  rw [Session.address] at h
  cases hl : s.asm.labelOffset l with
  | ok place => rw [hl] at h; cases h
  | error f =>
    rw [hl] at h
    cases h
    exact ⟨f, rfl⟩

theorem fillAddresses_error {base : UInt64} {es : List (Nat × Label)} {code : Array UInt8}
    {i : Invariant} (h : s.fillAddresses base es code = .error i) : ∃ f, i = .label f := by
  induction es generalizing code with
  | nil => cases h
  | cons e es ih =>
    rw [fillAddresses] at h
    cases htarget : s.address base e.2 with
    | error i' =>
      rw [htarget] at h
      cases h
      exact address_error htarget
    | ok target =>
      rw [htarget] at h
      exact ih h

/-- Code that cannot be placed was not published, or up to some handler. -/
theorem Settled.place_error (h : s.Settled) {base : UInt64} {code : Array UInt8} {i : Invariant}
    {placed : Array PlacedUnit} (hplace : s.place base code = (.error i, placed)) :
    ((∃ f, i = .label f) ∧ placed = #[]) ∨
      ∃ done c rest qs q, s.programs.toList = done ++ c :: rest ∧ placed.toList = qs ++ [q] ∧
        List.Forall₂ (s.Publishes base) done qs ∧ s.PublishesInPart base i c q := by
  rw [place] at hplace
  cases hentry : s.address base entryThunk with
  | error i' =>
    rw [hentry] at hplace
    cases hplace
    exact .inl ⟨address_error hentry, rfl⟩
  | ok entry =>
    cases hstub : s.address base stubThunk with
    | error i' =>
      rw [hentry, hstub] at hplace
      cases hplace
      exact .inl ⟨address_error hstub, rfl⟩
    | ok stub =>
      cases hreturn : s.address base returnSite with
      | error i' =>
        rw [hentry, hstub, hreturn] at hplace
        cases hplace
        exact .inl ⟨address_error hreturn, rfl⟩
      | ok returned =>
        rw [hentry, hstub, hreturn] at hplace
        cases hfill : s.fillAddresses base s.addresses.toList code with
        | error i' =>
          rw [hfill] at hplace
          cases hplace
          exact .inl ⟨fillAddresses_error hfill, rfl⟩
        | ok filled =>
          rw [hfill] at hplace
          cases hpublish : s.publish base s.programs.toList #[] with
          | mk result placed' =>
            rw [hpublish] at hplace
            cases result with
            | ok u => cases hplace
            | error i' =>
              cases hplace
              obtain ⟨done, c, rest, qs, q, hps, hplaced, hdone, hpart⟩ := publish_error h hpublish
              exact .inr ⟨done, c, rest, qs, q, hps, hplaced, hdone, hpart⟩

/-- Attempts to link, by how far they come. -/
inductive Attempt (s : Session) (answer : Int → Except AllocationError UInt64) :
    LinkOutcome Unit → Prop
  | again (hl : s.linked = true) :
    Attempt s answer ⟨.error (.invariant .alreadyLinked), s, (), #[]⟩
  | unbound (hl : s.linked = false) {j : Jump} (hj : s.asm.resolve = .error j) :
    Attempt s answer
      ⟨.error (.invariant (.unboundJump j.place j.label)), s.settled, (), #[]⟩
  | homeless (hl : s.linked = false) {code : Array UInt8} (hcode : s.asm.resolve = .ok code)
    {cause : AllocationError} (hcause : answer code.size = .error cause) :
    Attempt s answer ⟨.error (.allocation code.size cause), s.settled, (), #[]⟩
  | misplaced (hl : s.linked = false) {code : Array UInt8} (hcode : s.asm.resolve = .ok code)
    {base : UInt64} (hbase : answer code.size = .ok base) {i : Invariant} {placed : Array PlacedUnit}
    (hplace : place { s with linked := true } base code = (.error i, placed)) :
    Attempt s answer ⟨.error (.invariant i), { s.settled with linked := true }, (), placed⟩
  | placed (hl : s.linked = false) {code : Array UInt8} (hcode : s.asm.resolve = .ok code)
    {base : UInt64} (hbase : answer code.size = .ok base) {image : Image}
    (hplace : place { s with linked := true } base code = (.ok image, image.programs)) :
    Attempt s answer ⟨.ok image, { s.settled with linked := true }, (), image.programs⟩

/-- Linking with what the allocator would answer to a size. -/
def attempt (s : Session) (answer : Int → Except AllocationError UInt64) : LinkOutcome Unit :=
  s.link () fun _ size => (answer size, ())

theorem place_published {base : UInt64} {code : Array UInt8} {image : Image} {placed : Array PlacedUnit}
    (h : s.place base code = (.ok image, placed)) : placed = image.programs := by
  have hpublish := (of_place h).2.2.2.2.2
  rw [place] at h
  split at h
  · cases h
  · rw [hpublish] at h
    exact (Prod.mk.inj h).2.symm

theorem attempt_cases (s : Session) (answer : Int → Except AllocationError UInt64) :
    Attempt s answer (s.attempt answer) := by
  rw [attempt, link]
  by_cases hl : s.linked = true
  · rw [if_pos hl]
    exact .again hl
  have hfree : s.linked = false := by simpa using hl
  rw [if_neg hl]
  cases hcode : s.asm.resolve with
  | error j => exact .unbound hfree hcode
  | ok code =>
    dsimp only
    cases hbase : answer code.size with
    | error cause => exact .homeless hfree hcode hbase
    | ok base =>
      dsimp only
      cases hplace : place { s with linked := true } base code with
      | mk result placed =>
        cases result with
        | error i => exact .misplaced hfree hcode hbase hplace
        | ok image =>
          obtain rfl := place_published hplace
          exact .placed hfree hcode hbase hplace

theorem Attempt.unique {answer : Int → Except AllocationError UInt64} {o o' : LinkOutcome Unit}
    (h : Attempt s answer o) (h' : Attempt s answer o') : o = o' := by
  cases h <;> cases h' <;> simp_all

/-- A session and one that differs from it in displacements are linked alike. -/
theorem Alike.attempt (h : s.Alike t) (answer : Int → Except AllocationError UInt64) :
    (s.attempt answer).result = (t.attempt answer).result ∧
      (s.attempt answer).published = (t.attempt answer).published ∧
      (s.attempt answer).session.Alike (t.attempt answer).session := by
  have hs := s.attempt_cases answer
  have ht := t.attempt_cases answer
  generalize s.attempt answer = o at hs ⊢
  cases hs with
  | again hl =>
    rw [ht.unique (.again (h.linked_eq ▸ hl))]
    exact ⟨rfl, rfl, h⟩
  | unbound hl hj =>
    rw [ht.unique (.unbound (h.linked_eq ▸ hl) (h.asm.resolve_eq ▸ hj))]
    exact ⟨rfl, rfl, h.settled⟩
  | homeless hl hcode hcause =>
    rw [ht.unique (.homeless (h.linked_eq ▸ hl) (h.asm.resolve_eq ▸ hcode) hcause)]
    exact ⟨rfl, rfl, h.settled⟩
  | misplaced hl hcode hbase hplace =>
    rw [ht.unique (.misplaced (h.linked_eq ▸ hl) (h.asm.resolve_eq ▸ hcode) hbase
      (h.mark.place_eq _ _ ▸ hplace))]
    exact ⟨rfl, rfl, h.settled.mark⟩
  | placed hl hcode hbase hplace =>
    rw [ht.unique (.placed (h.linked_eq ▸ hl) (h.asm.resolve_eq ▸ hcode) hbase
      (h.mark.place_eq _ _ ▸ hplace))]
    exact ⟨rfl, rfl, h.settled.mark⟩

end Session

end RegisterJit
