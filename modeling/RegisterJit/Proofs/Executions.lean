import RegisterJit.Proofs.Steps

/-!
# Executions

The states that a machine can be in while it executes compiled code, and the invariant that holds of all of them.

`Executes` says what happens in an execution. The host enters functions, the processor executes what it fetches, the
host serves the stubs that code leaves for, and delivers exceptions. Nothing is said of the results of stubs but that
those that make calls answer with a frame to enter or the current one, and nothing of what the host does meanwhile but
that it leaves the context, the images and the native stack above its top alone; so it may run other compiled code.
There is one assumption on code, about jumps to addresses in registers. `RETURN_SUBROUTINE` does not look at the
address that it finds in its register, and `ComesBack` says that it is one where a `JUMP_SUBROUTINE` of its unit comes
back to.

`Sound` is the invariant: control is at a spot of which its note holds (`Steps`), or at the host, or in a thunk that
leads to one of these. `At.step` is its step, by the piece that control is in front of and by the phase of the
function; `enter_sound`, `serve_sound` and `deliver_sound` are the steps of the host. `Executes.sound` puts them
together by induction, and `Accumulator` reads it at the code of an instruction. `deliverFrom_unwinds` and
`enterHandler_delivers` show that the runtime delivers exceptions as `Executes` says.
-/

namespace RegisterJit

open X86 (Reg Instr Label Cpu)

namespace Machine

variable {images : Array LoadedImage} {L : List (Lodged images)} {m m' m'' : Machine} {x : Spot images} {c : Cpu}
  {q : Piece} {i : Instr}

/-- Where `RETURN_SUBROUTINE` goes if it is used as it is meant: to where a `JUMP_SUBROUTINE` of its unit comes
back to. -/
def ComesBack (L : List (Lodged images)) (pc target : UInt64) : Prop :=
  ∃ y ∈ L, y.image.contains pc = true ∧ ∃ u, y.image.lookup pc = some u ∧ ∃ span ∈ y.session.spans.toList,
    span.key = u.unit.key ∧ span.event.opcode = .jumpSubroutine ∧
      target = y.image.address (y.session.byteOf span.stop)

/-- An exception is delivered: the function that is to go on is made the current one, with nothing below its frame
on the native stack. -/
structure Delivers (m m' : Machine) (sp : UInt64) (frame : Run.FrameRef) (target : UInt64) : Prop where
  suspended : Run.Suspended m m' sp frame target
  spares : Run.Spares m m' sp

/-- The states of a machine while it executes compiled code of some programs. The host enters a function in a frame,
code takes steps, the host serves the stubs that it leaves for with any results, and it delivers exceptions. A stub
that makes calls answers with the current frame or with one to enter. Jumps to addresses in registers are those that
`P` admits. -/
inductive Executes (L : List (Lodged images)) (P : UInt64 → UInt64 → Prop) : Machine → Prop
  | enter {m : Machine} {y : Lodged images} {u : PlacedUnit} {frame : Run.FrameRef} (images : m.images = images)
      (orderly : m.Orderly) (lodged : y ∈ L) (unit : u ∈ y.image.programs) (slots : m.HasSlots u.unit frame)
      (room : m.nativeBase.toNat + 32 ≤ (m.contextWord Context.nativeSP).toNat)
      (top : (m.contextWord Context.nativeSP).toNat ≤ m.nativeEnd.toNat) :
      Executes L P (m.enter y.image frame u.entry)
  | step {m : Machine} {i : Instr} {next : UInt64} {c : Cpu} (run : Executes L P m)
      (outside : m.cpu.rip ≠ hostAddress) (fetched : fetch m.images m.cpu.rip = some (i, next))
      (executed : m.cpu.execute next i = some c) (jump : (∃ r, i = .jmpReg r) → P m.cpu.rip c.rip) :
      Executes L P (m.withCpu c)
  | serve {m m' : Machine} {r0 r1 : UInt64} (run : Executes L P m) (outside : m.cpu.rip = hostAddress)
      (status : m.cpu.reg .rax = exitStub.toUInt64) (kept : m.Preserves m')
      (answer : ∀ s, Stub.ofNat? m.pendingStub.number.toNat = some s → s.makesCalls = true →
        r0 = m.frame ∨ m'.Enters L r0 ∧ m'.nativeBase.toNat + 16 ≤ (m'.contextWord Context.nativeSP).toNat) :
      Executes L P (m'.resume r0 r1)
  | deliver {m m' m'' : Machine} {sp target : UInt64} {frame : Run.FrameRef} (run : Executes L P m)
      (outside : m.cpu.rip = hostAddress) (status : m.cpu.reg .rax = exitStub.toUInt64) (kept : m.Preserves m')
      (unwinds : m'.Unwinds (m'.contextWord Context.nativeSP) m'.frame sp frame target)
      (delivers : m'.Delivers m'' sp frame target) : Executes L P (m''.resume 0 0)

/-- Jumps to addresses in registers are not used otherwise than before when more of them are admitted. -/
theorem Executes.mono {P P' : UInt64 → UInt64 → Prop} (h : m.Executes L P) (hP : ∀ a b, P a b → P' a b) :
    m.Executes L P' := by
  induction h with
  | enter images orderly lodged unit slots room top => exact .enter images orderly lodged unit slots room top
  | step _ outside fetched executed jump ih => exact .step ih outside fetched executed fun hj => hP _ _ (jump hj)
  | serve _ outside status kept answer ih => exact .serve ih outside status kept answer
  | deliver _ outside status kept unwinds delivers ih => exact .deliver ih outside status kept unwinds delivers

/-! ## What holds along an execution -/

/-- Control is at a spot of which its note holds, or at the host. -/
inductive Settled (L : List (Lodged images)) (m : Machine) : Prop
  | code {x : Spot images} (at_spot : m.At L x)
  | left {n : Machine} {x : Spot images} (at_call : n.At L x) (piece : x.piece? = some (.call Session.stubThunk))
      (left : n.Left m x.next.address)
  | done (outside : m.cpu.rip = hostAddress) (status : m.cpu.reg .rax ≠ exitStub.toUInt64)

/-- An instruction of the thunks of some programs. -/
def InThunks (L : List (Lodged images)) (a : UInt64) (i : Instr) : Prop :=
  ∃ y ∈ L, y.image.Direct Session.start.size a i

/-- A machine is settled, or passes through a thunk to where it is. -/
def Sound (L : List (Lodged images)) (m : Machine) : Prop :=
  ∃ c, m.cpu.Passes m.images (InThunks L) c ∧ (m.withCpu c).Settled L

theorem Settled.sound (h : m.Settled L) : m.Sound L := ⟨m.cpu, .refl _, h⟩

theorem At.sound (h : m.At L x) : m.Sound L := (Settled.code h).sound

namespace At

/-- The address of control finds the unit that control is in. -/
theorem lookup (h : m.At L x) : x.lodged.image.contains m.cpu.rip = true ∧
    ∃ u, x.lodged.image.lookup m.cpu.rip = some u ∧ u.unit = x.part.unit := by
  have hlow : 1 ≤ x.index := by
    by_contra hzero
    have hnote : x.note = .never := by
      rw [Spot.note, Nat.lt_one_iff.1 (Nat.not_le.1 hzero)]
      rfl
    exact h.phase_ne_never (congrArg Note.phase hnote)
  have hhigh : x.index < x.part.pieces.length := by
    by_contra hge
    have hnote := x.note_of_none (List.getElem?_eq_none (Nat.not_lt.1 hge))
    exact h.phase_ne_never (congrArg Note.phase hnote)
  obtain ⟨u, hlookup, hunit, -⟩ := Spot.lookup hlow hhigh
  rw [h.rip]
  exact ⟨x.lodged.contains (Spot.place_lt_size hhigh), u, hlookup, hunit⟩

/-- The word in a register is jumped to, at the end of a finally block. -/
theorem comesBack (hL : Lodged.Distinct L) (h : m.At L x) (hphase : x.note.phase = .body)
    (hexecute : m.cpu.execute x.next.address (.jmpReg .rax) = some c) (hback : ComesBack L m.cpu.rip c.rip) :
    ∃ y, (m.withCpu c).At L y := by
  obtain ⟨y, hy, hcontains, u, hlookup, span, hspan, hkey, hopcode, htarget⟩ := hback
  obtain ⟨hcontains', u', hlookup', hunit⟩ := h.lookup
  -- The image is that of the spot, and so is the unit.
  have hsame : x.lodged = y := by
    obtain ⟨img, hfound, himg⟩ := x.lodged.found _ hcontains'
    obtain ⟨img', hfound', himg'⟩ := y.found _ hcontains
    obtain rfl : img = img' := Option.some.inj (hfound.symm.trans hfound')
    exact hL _ h.lodged _ hy (himg.symm.trans himg')
  subst hsame
  obtain rfl := Option.some.inj (hlookup.symm.trans hlookup')
  obtain ⟨z, b, hz, hopens⟩ := Spot.exists_opens x.lodged hspan
  have hpart : z.part = x.part := by
    refine x.lodged.placed.comprises.eq_of_key x.part_mem (hz ▸ z.part_mem) ?_
    rw [← hopens.key, hkey, hunit]
  obtain ⟨hplace, hfits, hprimed⟩ := hopens.resume (by rw [← hopcode, hopens.event]; rfl)
  have hc : c = m.cpu.jump (m.cpu.reg .rax) := by
    cases hexecute
    rfl
  have hcomputes : m.cpu.Computes c := hc ▸ Cpu.computes_jump ..
  have hmeets := h.meets hphase
  obtain ⟨hinner, howns⟩ := hmeets.1.computes h.running hcomputes
  have hknows : (m.withCpu c).Knows L z.part.unit .any := ⟨⟨hpart ▸ hinner, howns hmeets.2⟩, trivial⟩
  refine ⟨z.goto (z.index + b.body.length), h.images, hz ▸ h.lodged, ?_, ?_, hknows.fits hfits,
    fun hp => absurd hp hprimed⟩
  · change (m.withCpu c).Running z.lodged.session z.lodged.image
    rw [hz]
    exact h.running.works (.of_computes hcomputes)
  · rw [withCpu_cpu, htarget, ← hz, hplace]
    rfl

/-- A stub is called, and code leaves for the host by the thunk. -/
theorem leaves (h : m.At L x) {l : Label} (hq : x.piece? = some (.call l))
    (hexecute : m.cpu.execute x.next.address (.call (x.lodged.session.rel (x.place + 5) l)) = some c) :
    (m.withCpu c).Sound L := by
  obtain hnever | ⟨-, rfl, -⟩ := (x.admits hq).1
  · exact absurd hnever h.phase_ne_never
  have hl : Session.stubThunk ∈ x.lodged.session.binds := label_mem_binds hq (j := ⟨_, Session.stubThunk⟩) rfl
  have hrel := Spot.address_rel hl (show x.next.place = x.place + 5 from x.place_next hq)
  have hc : c = (m.cpu.push x.next.address).jump
      (x.lodged.image.address (x.lodged.session.placeOf Session.stubThunk)) := by
    cases hexecute
    rw [hrel]
    rfl
  obtain ⟨d, hpasses, hleft⟩ := h.running.passes (h.primed (x.primed_of_call hq)) x.next.address
  rw [← hc] at hpasses
  exact ⟨d, hpasses.mono fun a i ha => ⟨_, h.lodged, ha⟩, .left h hq hleft⟩

/-- An instruction of a function that is under way is executed. -/
theorem executes (hL : Lodged.Distinct L) (h : m.At L x)
    (hq : x.piece? = some (.instr i)) (hexecute : i.known = true → m.cpu.execute x.next.address i = some c)
    (hjump : i = .jmpReg .rax → ComesBack L m.cpu.rip c.rip) : (m.withCpu c).Sound L := by
  have hadmits : Piece.AdmitsInstr x.part.unit.Names x.note i := (x.admits hq).1
  unfold Piece.AdmitsInstr at hadmits
  cases hphase : x.note.phase with
  | entry =>
    rw [hphase] at hadmits
    obtain rfl : i = _ := hadmits
    exact (h.pushes hq hphase (hexecute rfl)).sound
  | body =>
    rw [hphase] at hadmits
    have hquiet (hi : i.quiet = true) : (m.withCpu c).Sound L := by
      have hknown : i.known = true := by
        simp only [Instr.quiet, Bool.and_eq_true] at hi
        exact hi.1.2
      exact (h.quiet hq hphase hi (hexecute hknown)).sound
    cases i with
    | store base d src =>
      obtain ⟨hsrc, ⟨rfl, hd⟩ | ⟨rfl, rfl⟩⟩ := hadmits
      · exact (h.stores hq hphase hd (hexecute (by simp [hsrc]))).sound
      · exact (h.allocates hq hphase (hexecute (by simp [hsrc]))).sound
    | pop dst =>
      obtain rfl : dst = .rcx := hadmits
      exact (h.pops hq hphase (hexecute rfl)).sound
    | ud2 => cases hexecute rfl
    | jmpReg r =>
      obtain rfl : r = .rax := hadmits
      obtain ⟨y, hy⟩ := h.comesBack hL hphase (hexecute rfl) (hjump rfl)
      exact hy.sound
    | _ => exact hquiet hadmits
  | answered =>
    rw [hphase] at hadmits
    obtain rfl : i = _ := hadmits
    exact (h.compares hq hphase (hexecute (by decide))).sound
  | compared =>
    rw [hphase] at hadmits
    exact hadmits.elim
  | accepted =>
    rw [hphase] at hadmits
    obtain rfl : i = _ := hadmits
    exact (h.accepts hq hphase (hexecute (by decide))).sound
  | entering =>
    rw [hphase] at hadmits
    obtain rfl : i = _ := hadmits
    obtain ⟨y, hy⟩ := h.calls hq hphase (hexecute (by decide))
    exact hy.sound
  | returned =>
    rw [hphase] at hadmits
    obtain rfl : i = _ := hadmits
    exact (h.reloads hq hphase (hexecute (by decide))).sound
  | leaving =>
    rw [hphase] at hadmits
    obtain rfl : i = _ := hadmits
    obtain ⟨y, hy⟩ | ⟨y, hy, hrunning, hrip⟩ := h.returns hphase (hexecute rfl)
    · exact hy.sound
    · obtain ⟨d, hpasses, hd, hrax⟩ := hrunning.returns hrip
      refine ⟨d, hpasses.mono fun a i ha => ⟨y, hy, ha⟩, .done hd ?_⟩
      rw [withCpu_cpu, hrax]
      decide
  | never => exact absurd hphase h.phase_ne_never

/-- Whatever the processor executes, it is at a spot again, at the host, or in a thunk. -/
theorem step (hL : Lodged.Distinct L) (h : m.At L x) {next : UInt64}
    (hfetch : fetch m.images m.cpu.rip = some (i, next)) (hexecute : m.cpu.execute next i = some c)
    (hjump : (∃ r, i = .jmpReg r) → ComesBack L m.cpu.rip c.rip) : (m.withCpu c).Sound L := by
  obtain ⟨y, q, hy, hq, hsize⟩ := h.settle
  clear h
  have hfetched {j : Instr}
      (hinstrs : q.instrs y.lodged.session.rel (y.lodged.session.word y.lodged.image) y.place = [j])
      (hknown : j.known = true) : j = i ∧ m.cpu.execute y.next.address j = some c := by
    have heq : fetch m.images m.cpu.rip = some (j, y.next.address) := by
      rw [hy.images, hy.rip]
      exact y.fetch hq hinstrs hknown
    cases hfetch.symm.trans heq
    exact ⟨rfl, hexecute⟩
  cases q with
  | instr j =>
    refine hy.executes hL hq (fun hknown => (hfetched rfl hknown).2) fun hj => hjump ⟨.rax, ?_⟩
    rw [← hj]
    exact (hfetched rfl (by rw [hj]; rfl)).1.symm
  | kept dst r =>
    by_cases hdst : dst = .rax
    · simp [Piece.size, Piece.encode, hdst] at hsize
    · have hknown := known_of_mem_scratchRegs (y.admits hq).1.2.1
      have hinstrs : (Piece.kept dst r).instrs y.lodged.session.rel (y.lodged.session.word y.lodged.image) y.place =
          [.mov .w64 dst .rax] := if_neg hdst
      exact (hy.kept hq hdst (hfetched hinstrs (by simp [hknown])).2).sound
  | jmp l =>
    obtain ⟨z, hz⟩ := hy.jumps hq (hfetched rfl rfl).2
    exact hz.sound
  | jcc cond l =>
    have hknown : cond.known = true := by
      obtain ⟨hknown, -⟩ | ⟨-, rfl, -⟩ := (y.admits hq).1
      · exact hknown
      · decide
    obtain ⟨z, hz⟩ := hy.branches hq (hfetched rfl hknown).2
    exact hz.sound
  | call l => exact hy.leaves hq (hfetched rfl rfl).2
  | address dst l =>
    obtain ⟨-, rfl, -⟩ := (y.admits hq).1
    exact (hy.addresses hq (hfetched rfl rfl).2).sound
  | bind l => cases hsize
  | align n => exact absurd (y.admits hq).1 hy.phase_ne_never

end At

/-! ## What the host does -/

theorem enter_spec (m : Machine) (y : Image) (frame entry : UInt64) :
    (m.enter y frame entry).cpu.rip = y.entryThunk ∧ (m.enter y frame entry).cpu.reg .rdi = m.context ∧
      (m.enter y frame entry).cpu.reg .rsi = frame ∧ (m.enter y frame entry).cpu.reg .rdx = entry ∧
      (m.enter y frame entry).cpu.reg .rsp = m.contextWord Context.nativeSP ∧
      ∀ a, (m.enter y frame entry).readWord a = if m.hostStack = a then hostAddress
        else if m.context + 56 = a then m.hostStack else m.readWord a := by
  have hkept {r : Reg} (hrsi : Reg.rsi.slot ≠ r.slot) (hrdx : Reg.rdx.slot ≠ r.slot) :
      (m.enter y frame entry).cpu.reg r = ({ m with depth := m.depth + 1 } : Machine).leaveHost.cpu.reg r :=
    (Cpu.reg_setReg_of_ne _ _ hrdx).trans (Cpu.reg_setReg_of_ne _ _ hrsi)
  refine ⟨rfl, ?_, ?_, Cpu.reg_setReg_self .., ?_, leaveHost_readWord { m with depth := m.depth + 1 }⟩
  · rw [hkept (by decide) (by decide), leaveHost, Cpu.reg_setReg_of_ne _ _ (by decide), Cpu.reg_setReg_self]
    rfl
  · exact (Cpu.reg_setReg_of_ne _ _ (show Reg.rdx.slot ≠ Reg.rsi.slot by decide)).trans (Cpu.reg_setReg_self ..)
  · rw [hkept (by decide) (by decide), leaveHost_rsp]
    rfl

theorem enter_sound (himages : m.images = images) (horderly : m.Orderly) {y : Lodged images} (hy : y ∈ L)
    {u : PlacedUnit} (hu : u ∈ y.image.programs) {frame : Run.FrameRef} (hslots : m.HasSlots u.unit frame)
    (hroom : m.nativeBase.toNat + 32 ≤ (m.contextWord Context.nativeSP).toNat)
    (htop : (m.contextWord Context.nativeSP).toNat ≤ m.nativeEnd.toNat) :
    (m.enter y.image frame u.entry).Sound L := by
  obtain ⟨z, rfl, hunit, hentry, hindex, hprimed⟩ := y.exists_entry hu
  obtain ⟨n, hn⟩ : ∃ n, n = m.enter z.lodged.image frame u.entry := ⟨_, rfl⟩
  obtain ⟨hrip, hrdi, hrsi, hrdx, hrsp, hread⟩ := hn ▸ m.enter_spec z.lodged.image frame u.entry
  have hregions : n.images = m.images ∧ n.context = m.context ∧ n.nativeBase = m.nativeBase ∧
      n.nativeEnd = m.nativeEnd ∧ n.hostStack = m.hostStack := by
    rw [hn]
    exact ⟨rfl, rfl, rfl, rfl, rfl⟩
  obtain ⟨himages', hcontext', hbase', hend', hhost'⟩ := hregions
  rw [← hn]
  clear hn
  rw [z.lodged.address_eq z.lodged.loaded.linked.entryThunk] at hrip
  have hloaded : Loaded n.images z.lodged.session z.lodged.image := by
    rw [himages', himages]
    exact z.lodged.loaded
  obtain ⟨c, hpasses, hc, hcontext, hframe, hmask, hsp, hmemory⟩ := enter_passes hloaded hrip
  refine ⟨c, hpasses.mono fun a i ha => ⟨_, hy, ha⟩, .code (x := z) ?_⟩
  rw [hrdx] at hc
  rw [hrdi] at hcontext
  rw [hrsi] at hframe
  rw [hrsp] at hsp
  simp only [hrsp, hrsi] at hmemory
  clear hrip hrdi hrsi hrdx hrsp hpasses hloaded
  generalize m.contextWord Context.nativeSP = sp at *
  have hpage := horderly.context
  have hbelow := toNat_sub_eight (a := sp) (by omega)
  have hbelow' := toNat_sub_eight (a := sp - 8) (by omega)
  have hbeyond (a : UInt64) (ha : sp - 8 - 8 = a ∨ sp - 8 = a) : m.Beyond a := by
    rw [Beyond]
    rcases ha with rfl | rfl <;> omega
  have hpage_read {k : UInt64} (hk : k.toNat < pageSize) : c.read (m.context + k) = n.readWord (m.context + k) := by
    rw [hmemory, if_neg fun heq => (hbeyond _ (.inl heq)).ne_context hk rfl,
      if_neg fun heq => (hbeyond _ (.inr heq)).ne_context hk rfl]
    rfl
  have hhost : m.hostStack ≠ m.context + 56 := fun heq => absurd ((UInt64.add_right_inj _).1 heq) (by decide)
  refine ⟨himages'.trans himages, hy, ⟨?_, ?_, ?_, hmask, ?_, ?_, ?_, ?_⟩, hc.trans hentry, ?_,
    fun hp => absurd hp hprimed⟩
  · rw [show (n.withCpu c).images = m.images from himages', himages]
    exact z.lodged.loaded
  · exact horderly.congr himages' hcontext' hbase' hend'
  · exact hcontext.trans hcontext'.symm
  · rw [show (n.withCpu c).hostStack = m.hostStack from hhost', contextWord,
      show (n.withCpu c).context = m.context from hcontext']
    refine (hpage_read (k := 56) (by decide)).trans ?_
    rw [hread, if_neg hhost, if_pos rfl]
  · rw [show (n.withCpu c).hostStack = m.hostStack from hhost']
    refine (hpage_read (k := 4088) (by decide)).trans ?_
    rw [hread]
    exact if_pos rfl
  · rw [show (n.withCpu c).nativeBase = m.nativeBase from hbase', withCpu_cpu, hsp]
    omega
  · rw [show (n.withCpu c).nativeEnd = m.nativeEnd from hend', withCpu_cpu, hsp]
    omega
  · rw [(z.opening hindex).1]
    refine ⟨⟨?_, ?_, .host hy ?_ ?_⟩, trivial⟩
    · rw [withCpu_cpu, hframe, hunit]
      exact hslots.congr hcontext' hbase'
    · rw [show (n.withCpu c).nativeBase = m.nativeBase from hbase', withCpu_cpu, hsp]
      omega
    · rw [withCpu_cpu, hsp]
      exact (hmemory _).trans (if_pos rfl)
    · rw [show (n.withCpu c).nativeEnd = m.nativeEnd from hend', withCpu_cpu, hsp]
      omega

/-- A stub has been served, and the code that had called it goes on. -/
theorem serve_sound (h : m.At L x) (hq : x.piece? = some (.call Session.stubThunk)) (hleft : m.Left m' x.next.address)
    (hkept : m'.Preserves m'') {r0 : UInt64} (r1 : UInt64)
    (hanswer : ∀ s, Stub.ofNat? m'.pendingStub.number.toNat = some s → s.makesCalls = true →
      r0 = m'.frame ∨ m''.Enters L r0 ∧ m''.nativeBase.toNat + 16 ≤ (m''.contextWord Context.nativeSP).toNat) :
    (m''.resume r0 r1).At L x.next := by
  obtain ⟨hphase, s, hcontent⟩ : x.note.phase = .body ∧ ∃ s : Stub, x.note.content = .stub s.number := by
    obtain hnever | ⟨hphase, -, hstub⟩ := (x.admits hq).1
    · exact absurd hnever h.phase_ne_never
    · exact ⟨hphase, hstub⟩
  have hnumber : m.cpu.reg .rax = s.number.toUInt64 := by
    have hholds := h.knows.2
    rw [hcontent] at hholds
    exact hholds
  have hstub : Stub.ofNat? m'.pendingStub.number.toNat = some s := by
    rw [hleft.pending, hnumber, UInt32.toNat_toUInt64]
    exact Stub.ofNat?_number s
  obtain ⟨hinner, howns⟩ := h.meets hphase
  have hkeep := hleft.keepsStack h.running hkept r0 r1
  obtain ⟨hrunning, hrip, hrax, -, hregs, hmemory⟩ := hleft.resumes h.running hkept r0 r1
  have hsp := hregs .rsp (by decide)
  have hframe := hregs frameReg (by decide)
  have hinner' := hinner.keep h.running hsp hkeep
  have howns' := howns.keep h.running hinner hsp hframe hkeep
  have hnext : (Piece.call Session.stubThunk).next x.part.labelNotes x.note =
      if s.makesCalls then ⟨.answered, .unknown⟩ else .any := by
    simp only [Piece.next, Piece.nextCall, hphase, hcontent, Stub.ofNat?_number]
    rfl
  refine ⟨hkeep.images.trans h.images, h.lodged, hrunning, hrip, Knows.fits ?_ (x.admits hq).2,
    fun hp => absurd hp (x.not_primed_next hq rfl)⟩
  rw [hnext]
  split
  · rename_i hcalls
    refine ⟨⟨hinner', howns', ?_⟩, trivial⟩
    rw [hrax]
    rcases hanswer s hstub hcalls with hown | ⟨⟨hon, y, hy, p, hp, hword, hslots⟩, hroom⟩
    · left
      rw [hframe]
      exact hown.trans (hleft.saved (.r12, Context.savedR12) (by decide))
    · right
      have hregions : m''.context = m.context ∧ m''.nativeBase = m.nativeBase := by
        rw [hkept.context, hkept.nativeBase, hleft.same]
        exact ⟨rfl, rfl⟩
      refine ⟨?_, ?_, y, hy, p, hp, ?_, ?_⟩
      · rw [hkept.sp, hleft.sp, hregions.2] at hroom
        rw [hkeep.nativeBase, hsp]
        have := h.running.sp_sub
        omega
      · rw [OnRegisterStack, Beyond, hkeep.context, hkeep.nativeBase, ← hregions.1, ← hregions.2]
        exact hon
      · refine (hmemory _ ?_).trans hword
        rw [Beyond, ← hregions.1]
        exact hon.1
      · refine hslots.congr ?_ ?_
        · rw [hkeep.context, hregions.1]
        · rw [hkeep.nativeBase, hregions.2]
  · exact ⟨⟨hinner', howns'⟩, trivial⟩

/-- An exception has been delivered, and the function with its handler goes on. -/
theorem deliver_sound {n : Machine} (h : m.At L x) (hq : x.piece? = some (.call Session.stubThunk))
    (hleft : m.Left m' x.next.address) (hkept : m'.Preserves m'') {sp target : UInt64} {frame : Run.FrameRef}
    (hunwinds : m''.Unwinds (m''.contextWord Context.nativeSP) m''.frame sp frame target)
    (hdelivers : m''.Delivers n sp frame target) : ∃ y, (n.resume 0 0).At L y := by
  have hphase : x.note.phase = .body := by
    obtain hnever | ⟨hphase, -⟩ := (x.admits hq).1
    · exact absurd hnever h.phase_ne_never
    · exact hphase
  obtain ⟨hinner, howns⟩ := h.meets hphase
  have hbase := h.running.base
  have hpage := h.running.orderly.context
  have htop := hinner.callers.top
  have hsub := h.running.sp_sub
  have hadd := toNat_add_eight h.running.orderly h.running.top
  have hsp : m''.contextWord Context.nativeSP = m.cpu.reg .rsp - 8 := hkept.sp.trans hleft.sp
  have hsaved (p : Reg × Int32) (hp : p ∈ keptRegisters) : m''.contextWord p.2 = m.cpu.reg p.1 :=
    (hkept.saved p hp).trans (hleft.saved p hp)
  have hend : m'.nativeEnd = m.nativeEnd := by
    rw [hleft.same]
    rfl
  have hkeep : m.KeepsStack m'' (m.cpu.reg .rsp) := by
    refine ⟨?_, ?_, ?_, hkept.nativeEnd.trans hend, fun a ha ha' => ?_⟩
    · exact hkept.images.trans (by rw [hleft.same]; rfl)
    · exact hkept.context.trans (by rw [hleft.same]; rfl)
    · exact hkept.nativeBase.trans (by rw [hleft.same]; rfl)
    · refine (hkept.stack a (by rw [hleft.sp]; omega) (by rw [hend]; exact ha')).trans (hleft.memory a ?_ fun heq => ?_)
      · rw [Beyond]
        omega
      · rw [heq] at ha
        omega
  have horderly := hkeep.orderly h.running.orderly
  -- The function that called the stub waits like those that called other functions.
  have hback : m''.readWord (m.cpu.reg .rsp - 8) = x.next.address :=
    (hkept.stack _ (by rw [hleft.sp]) (by rw [hend]; omega)).trans hleft.back
  have hword : m''.readWord (m.cpu.reg .rsp) = m.readWord (m.cpu.reg .rsp) :=
    hkeep.stack _ (Nat.le_refl _) (by omega)
  have hawaits : m''.Awaits L (m.cpu.reg .rsp - 8) x := by
    refine ⟨h.lodged, ⟨_, hq, rfl⟩, hback, ?_, ?_⟩
    · rw [UInt64.sub_add_cancel, hword]
      exact hinner.slots.congr hkeep.context hkeep.nativeBase
    · rw [hkeep.nativeEnd]
      omega
  have hcallers : m''.Callers L (m.cpu.reg .rsp - 8 + 16) := by
    rw [show (16 : UInt64) = 8 + 8 by decide, ← UInt64.add_assoc, UInt64.sub_add_cancel]
    exact hinner.callers.keep h.running.orderly (hkeep.mono (by omega))
  have hframe : m''.frame = m''.readWord (m.cpu.reg .rsp - 8 + 8) := by
    rw [UInt64.sub_add_cancel, hword, howns]
    exact hsaved (.r12, Context.savedR12) (by decide)
  rw [hsp] at hunwinds
  obtain ⟨y, hy, rfl, hfits, hprimed, hslots, hpushed, hrest, hle, htop'⟩ :=
    hawaits.unwinds horderly (hkeep.images.trans h.images) hcallers hframe hunwinds
  -- It is suspended again, in the frame of the handler.
  obtain ⟨hsuspended, hspares⟩ := hdelivers
  have hsp' := toNat_add_eight horderly (Nat.le_of_add_right_le htop')
  have hkeeps : m''.KeepsStack n (sp + 8) :=
    ⟨hspares.images, hspares.context, hspares.nativeBase, hspares.nativeEnd, fun a ha _ =>
      hspares.words a (.inl (by omega))⟩
  have hspbase : m''.nativeBase.toNat ≤ sp.toNat := by
    rw [hkeep.nativeBase]
    omega
  have hwaiting : n.Waiting y.lodged.session y.lodged.image := by
    refine ⟨?_, hkeeps.orderly horderly, ?_, ?_, ?_⟩
    · rw [hkeeps.images, hkeep.images, h.images]
      exact y.lodged.loaded
    · rw [contextWord, hspares.context, hspares.words _ (.inr rfl)]
      exact (hsaved (.r15, Context.savedR15) (by decide)).trans h.running.mask
    · rw [hsuspended.nativeSP, hkeeps.nativeBase]
      exact hspbase
    · rw [hsuspended.nativeSP, hkeeps.nativeEnd]
      omega
  obtain ⟨hrunning, hrip, hrsp, hmemory⟩ := hwaiting.resumes 0 0
  rw [hsuspended.nativeSP] at hrip hrsp
  have hframe' : (n.resume 0 0).cpu.reg frameReg = frame :=
    ((n.resume_reg 0 0).2.2.2 (.r12, Context.savedR12) (by decide)).trans hsuspended.frame
  have hstack : m''.KeepsStack (n.resume 0 0) (sp + 8) := by
    obtain ⟨d, hd⟩ := n.resume_same 0 0
    refine ⟨?_, ?_, ?_, ?_, fun a ha ha' => (hmemory a ?_).trans (hkeeps.stack a ha ha')⟩
    · rw [hd]
      exact hkeeps.images
    · rw [hd]
      exact hkeeps.context
    · rw [hd]
      exact hkeeps.nativeBase
    · rw [hd]
      exact hkeeps.nativeEnd
    · have hcontext := horderly.context
      rw [Beyond, hkeeps.context]
      omega
  have hown : (n.resume 0 0).readWord (sp + 8) = frame :=
    (hstack.stack _ (Nat.le_refl _) (by omega)).trans hpushed.symm
  refine ⟨y, hstack.images.trans (hkeep.images.trans h.images), hy, hrunning, hrip.trans hsuspended.target,
    Knows.fits (a := .any) ⟨⟨⟨?_, ?_⟩, ?_⟩, trivial⟩ hfits, fun hp => absurd hp hprimed⟩
  · rw [hrsp, hown]
    exact hslots.congr hstack.context hstack.nativeBase
  · rw [hrsp, UInt64.add_assoc]
    refine hrest.keep horderly (hstack.mono ?_)
    have := toNat_add_sixteen horderly (Nat.le_of_add_right_le htop')
    rw [show sp + (8 + 8) = sp + 16 from rfl]
    omega
  · rw [Owns, hrsp, hown, hframe']

/-! ## Executions -/

/-- When control is at the host, code has left for a stub or has returned. -/
theorem Sound.settled (h : m.Sound L) (hhost : m.cpu.rip = hostAddress) : m.Settled L := by
  obtain ⟨d, hpasses, hsettled⟩ := h
  cases hpasses with
  | refl => exact hsettled
  | step inside _ _ _ =>
    obtain ⟨y, -, ⟨place, hplace, haddress⟩, -⟩ := inside
    rw [hhost] at haddress
    exact absurd haddress.symm (y.loaded.address_ne_host (Nat.le_trans (Nat.le_of_lt hplace) y.loaded.start_le))

theorem At.rip_ne_host (h : m.At L x) : m.cpu.rip ≠ hostAddress := by
  rw [h.rip]
  exact x.lodged.loaded.address_ne_host x.place_le

/-- Code that is at the host with the status of a stub has called one. -/
theorem Sound.left (h : m.Sound L) (hhost : m.cpu.rip = hostAddress)
    (hstatus : m.cpu.reg .rax = exitStub.toUInt64) : ∃ (n : Machine) (x : Spot images),
      n.At L x ∧ x.piece? = some (.call Session.stubThunk) ∧ n.Left m x.next.address := by
  cases h.settled hhost with
  | code hat => exact absurd hhost hat.rip_ne_host
  | left hat hq hleft => exact ⟨_, _, hat, hq, hleft⟩
  | done _ hne => exact absurd hstatus hne

/-- Along an execution the machine is sound. -/
theorem Executes.sound (hL : Lodged.Distinct L)
    (h : m.Executes L (ComesBack L)) : m.Sound L := by
  induction h with
  | enter himages horderly hlodged hunit hslots hroom htop =>
    exact enter_sound himages horderly hlodged hunit hslots hroom htop
  | step run outside fetched executed jump ih =>
    obtain ⟨d, hpasses, hsettled⟩ := ih
    cases hpasses with
    | refl =>
      cases hsettled with
      | code hat => exact hat.step hL fetched executed jump
      | left _ _ hleft => exact absurd hleft.rip outside
      | done hhost _ => exact absurd hhost outside
    | step _ fetched' executed' rest =>
      cases fetched.symm.trans fetched'
      cases executed.symm.trans executed'
      exact ⟨d, rest, hsettled⟩
  | serve run outside status kept answer ih =>
    obtain ⟨n, x, hat, hq, hleft⟩ := ih.left outside status
    exact (serve_sound hat hq hleft kept _ answer).sound
  | deliver run outside status kept unwinds delivers ih =>
    obtain ⟨n, x, hat, hq, hleft⟩ := ih.left outside status
    obtain ⟨y, hy⟩ := deliver_sound hat hq hleft kept unwinds delivers
    exact hy.sound

theorem Sound.at_spot (h : m.Sound L) {y : Lodged images} {place : Nat}
    (hlow : Session.start.size ≤ place) (hhigh : place < y.session.size) (hrip : m.cpu.rip = y.image.address place) :
    ∃ x, m.At L x := by
  have hhost : m.cpu.rip ≠ hostAddress := hrip ▸ y.loaded.address_ne_host (Nat.le_of_lt hhigh)
  obtain ⟨d, hpasses, hsettled⟩ := h
  cases hpasses with
  | refl =>
    cases hsettled with
    | code hat => exact ⟨_, hat⟩
    | left _ _ hleft => exact absurd hleft.rip hhost
    | done hrip _ => exact absurd hrip hhost
  | step inside _ _ _ =>
    obtain ⟨z, -, ⟨place', hplace', haddress⟩, -⟩ := inside
    have hlt : place' < z.session.size := Nat.lt_of_lt_of_le hplace' z.loaded.start_le
    -- The thunks of one program are not in the code of another one.
    obtain ⟨img, hfound, himg⟩ := y.found _ (y.contains hhigh)
    obtain ⟨img', hfound', himg'⟩ := z.found _ (z.contains hlt)
    rw [← hrip, haddress] at hfound
    obtain rfl : img = img' := Option.some.inj (hfound.symm.trans hfound')
    have hsame := congrArg UInt64.toNat (hrip.symm.trans haddress)
    rw [y.loaded.toNat_address (Nat.le_of_lt hhigh), z.loaded.toNat_address (Nat.le_of_lt hlt),
      show y.image.base = z.image.base from congrArg Image.base (himg.symm.trans himg')] at hsame
    omega

/-- Control at a jump to an address in a register is in the code of a unit. -/
theorem Sound.at_jump (h : m.Sound L) (houtside : m.cpu.rip ≠ hostAddress) {r : Reg} {next : UInt64}
    (hfetch : fetch m.images m.cpu.rip = some (.jmpReg r, next)) : ∃ x, m.At L x := by
  obtain ⟨d, hpasses, hsettled⟩ := h
  cases hpasses with
  | refl =>
    cases hsettled with
    | code hat => exact ⟨_, hat⟩
    | left _ _ hleft => exact absurd hleft.rip houtside
    | done hrip _ => exact absurd hrip houtside
  | step inside fetched _ _ =>
    obtain ⟨y, -, -, hjump⟩ := inside
    rw [fetched] at hfetch
    cases hfetch
    exact absurd rfl (hjump r)

/-! ## Executing code that is followed -/

variable {P : UInt64 → UInt64 → Prop}

theorem Executes.passes {c d : Cpu} (h : (m.withCpu c).Executes L P) (hpasses : c.Passes m.images Cpu.Direct d) :
    (m.withCpu d).Executes L P := by
  induction hpasses with
  | refl => exact h
  | step inside fetched executed _ ih =>
    exact ih (h.step inside.1 fetched executed fun ⟨r, hr⟩ => absurd hr (inside.2 r))

theorem Executes.arrives {Q : Machine → Prop} (h : m.Executes L P) (harrives : m.Arrives Q) :
    ∃ c, (m.withCpu c).Executes L P ∧ Q (m.withCpu c) :=
  harrives.imp fun _ hx => ⟨Executes.passes (c := m.cpu) h hx.1, hx.2⟩

/-- A function that is entered pushes its frame, and comes to its first instruction. -/
theorem Executes.begins {y : Lodged images} {u : PlacedUnit} {frame : Run.FrameRef} (himages : m.images = images)
    (horderly : m.Orderly) (hy : y ∈ L) (hu : u ∈ y.image.programs) (hslots : m.HasSlots u.unit frame)
    (hroom : m.nativeBase.toNat + 32 ≤ (m.contextWord Context.nativeSP).toNat)
    (htop : (m.contextWord Context.nativeSP).toNat ≤ m.nativeEnd.toNat) :
    ∃ c, ((m.enter y.image frame u.entry).withCpu c).Executes L P ∧ c.rip = u.entry + 2 ∧
      c.reg frameReg = frame ∧ ∀ a, m.OnRegisterStack a → c.read a = m.readWord a := by
  have hentered : (m.enter y.image frame u.entry).Executes L P := .enter himages horderly hy hu hslots hroom htop
  obtain ⟨x, rfl, -, hentry, hindex, -⟩ := y.exists_entry hu
  obtain ⟨hrip, hrdi, hrsi, hrdx, hrsp, hread⟩ := m.enter_spec x.lodged.image frame u.entry
  have hloaded : Loaded (m.enter x.lodged.image frame u.entry).images x.lodged.session x.lodged.image :=
    (show (m.enter x.lodged.image frame u.entry).images = m.images from rfl) ▸ himages ▸ x.lodged.loaded
  rw [x.lodged.address_eq x.lodged.loaded.linked.entryThunk] at hrip
  obtain ⟨c, hpasses, hc, -, hframe, -, hsp, hmemory⟩ := enter_passes hloaded hrip
  obtain ⟨-, hbind, hpush⟩ := x.opening hindex
  have hfetch := x.next.fetch hpush rfl rfl
  have haddress : x.next.address = x.address := by
    rw [Spot.address, Spot.address, x.place_next hbind]
    rfl
  have hlast : x.next.next.address = x.address + 2 := by
    rw [← haddress, Spot.address, Spot.address, x.next.place_next hpush]
    change _ + (x.next.place + 2).toUInt64 = _ + _ + 2
    rw [Nat.toUInt64_eq, UInt64.ofNat_add, ← UInt64.add_assoc]
    rfl
  have hbegan := Executes.passes (c := (m.enter x.lodged.image frame u.entry).cpu) hentered
    (hloaded.outside hloaded.start_le hpasses)
  have hrip' : c.rip = x.next.address := hc.trans (hrdx.trans (hentry.trans haddress.symm))
  obtain ⟨d, hd⟩ : ∃ d, c.execute x.next.next.address (.push frameReg) = some d := ⟨_, rfl⟩
  have hpushed := Cpu.pushed_push hd
  refine ⟨d, hbegan.step ?_ ?_ hd (by simp), ?_, (hpushed.regs _ (by decide)).trans (hframe.trans hrsi), fun a ha => ?_⟩
  · rw [withCpu_cpu, hrip']
    exact x.lodged.loaded.address_ne_host x.next.place_le
  · rw [withCpu_cpu, hrip']
    exact himages ▸ hfetch
  · rw [hentry, ← hlast]
    cases hd
    rfl
  · have hpage := horderly.context
    have hbelow := toNat_sub_eight (a := m.contextWord Context.nativeSP) (by omega)
    have hbelow' := toNat_sub_eight (a := m.contextWord Context.nativeSP - 8) (by omega)
    have hbelow'' := toNat_sub_eight (a := m.contextWord Context.nativeSP - 8 - 8) (by omega)
    have hstack := ha.2
    rw [hpushed.read, hsp, hrsp, if_neg fun heq => by rw [← heq] at hstack; omega, hmemory, hrsp,
      if_neg fun heq => by rw [← heq] at hstack; omega, if_neg fun heq => by rw [← heq] at hstack; omega]
    refine (hread a).trans ?_
    rw [if_neg (show m.hostStack ≠ a from ha.1.ne_context (k := 4088) (by decide)),
      if_neg (ha.1.ne_context (by decide))]

end Machine

/-! ## Exceptions of the runtime -/

namespace Run

variable {v : Value} {message : Text} {w : World}

/-- The search of the runtime ends with an error, or it unwinds the native stack. -/
theorem deliverFrom_unwinds (fuel : Nat) (sp : UInt64) (frame : FrameRef) :
    (∃ fault, deliverFrom v message fuel sp frame w = .error fault w) ∨
      ∃ p h sp' frame' target, w.machine.Unwinds sp frame sp' frame' target ∧
        deliverFrom v message fuel sp frame w = enterHandler v sp' frame' p h target w := by
  induction fuel generalizing sp frame with
  | zero => exact .inl ⟨_, rfl⟩
  | succ fuel ih =>
    cases himage : w.machine.imageOf (w.machine.readWord sp) with
    | none =>
      left
      rw [deliverFrom, bind_ok (machine_run w)]
      dsimp only
      rw [himage]
      exact ⟨_, rfl⟩
    | some img =>
      rw [deliverFrom_succ _ _ _ _ _ _ himage]
      split
      · exact .inl ⟨_, rfl⟩
      rename_i hinside
      cases hlookup : img.lookup (w.machine.readWord sp) with
      | none => exact .inl ⟨_, rfl⟩
      | some p =>
        dsimp only
        cases hhandler : p.handlerAt? (w.machine.readWord sp - 1) with
        | some found =>
          obtain ⟨h, target⟩ := found
          exact .inr ⟨p, h, sp, frame, target, .handled himage hinside hlookup hhandler, rfl⟩
        | none =>
          refine (ih (sp + 16) (w.machine.readWord (sp + 24))).imp id ?_
          rintro ⟨p', h, sp', frame', target, hunwinds, heq⟩
          exact ⟨p', h, sp', frame', target, .passes himage hinside hlookup hhandler hunwinds, heq⟩

/-- Entering a handler delivers the exception. -/
theorem enterHandler_delivers (hm : w.machine.Orderly) {sp : UInt64} {frame : FrameRef} (p : PlacedUnit)
    {h : Handler} (target : UInt64) (hsp : w.machine.nativeBase.toNat ≤ sp.toNat)
    (hframe : w.machine.OnRegisterStack (frame + X86.displacementWord Frame.lexicalEnv))
    (hregisters : HoldsRegisters w.machine frame h) :
    ∃ m, w.machine.Delivers m sp frame target ∧
      enterHandler v sp frame p h target w = execute { w with machine := m.resume 0 0 } := by
  obtain ⟨m, hsuspended, hspares, -, heq⟩ := enterHandler_suspends v w (p := p) (t := target) hm hsp hframe hregisters
  exact ⟨m, ⟨hsuspended, hspares⟩, heq⟩

end Run

end RegisterJit
