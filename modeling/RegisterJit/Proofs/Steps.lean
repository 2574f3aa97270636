import RegisterJit.Proofs.Callers

/-!
# Steps

What the processor does at a spot leads to a spot again (`Machine.At`), one lemma for each kind of piece.

In its own frame a function computes (`Callers`), jumps to labels of its unit (`jumps`, `branches`) and stores into
its frame. The lemmas here are also about the instructions that set a frame up and take it down. `pushes` is the
first instruction of a function and `pops` the last but one; `compares` and `accepts` decide on the answer of a stub
that makes calls, which is the current frame, or one to enter; `calls` enters it, and puts its caller among the
functions that wait; `returns` goes to the function that has waited longest for this one, or to the thunk that the
host entered by; and `reloads` makes the frame on top of the native stack the current one again.

The note before a piece says which of these can stand there, since `Piece.Admits` lets the pieces of a phase follow
each other in one order only. `settle` passes over pieces that take no room, so that `Executions` can tell from the
instruction that is fetched which piece control is in front of.
-/

namespace RegisterJit

open X86 (Reg Instr Label Cpu)

/-! ## Jumps and pushes -/

theorem X86.Cpu.computes_jump (c : Cpu) (a : UInt64) : c.Computes (c.jump a) := ⟨rfl, fun _ _ => rfl⟩

namespace Spot

variable {images : Array LoadedImage} {x : Spot images} {q : Piece} {i : Instr}

/-- The instruction of a piece is fetched where it stands. -/
theorem fetch (hq : x.piece? = some q)
    (hinstrs : q.instrs x.lodged.session.rel (x.lodged.session.word x.lodged.image) x.place = [i])
    (hknown : i.known = true) : Machine.fetch images x.address = some (i, x.next.address) := by
  obtain ⟨rest, hpieces⟩ := x.pieces_eq hq
  rw [address, address, place, place, x.upTo_next hq]
  exact x.lodged.loaded.fetch_piece hpieces hinstrs hknown

theorem address_rel {l : Label} (hl : l ∈ x.lodged.session.binds) {n : Nat}
    (hn : x.next.place = x.place + n) :
    x.next.address + X86.displacementWord (x.lodged.session.rel (x.place + n) l) =
      x.lodged.image.address (x.lodged.session.placeOf l) := by
  rw [← hn]
  exact x.lodged.loaded.address_rel hl x.next.place_le

end Spot

namespace Machine

variable {images : Array LoadedImage} {L : List (Lodged images)} {m m' : Machine} {x : Spot images} {c : Cpu}
  {q : Piece} {i : Instr}

theorem Running.pushed {s : Session} {image : Image} (h : m.Running s image) {w : UInt64} (hpushed : m.cpu.Pushed w c)
    (hroom : m.nativeBase.toNat + 16 ≤ (m.cpu.reg .rsp).toNat) :
    (m.withCpu c).Running s image ∧ m.KeepsStack (m.withCpu c) (m.cpu.reg .rsp) := by
  have hbelow := toNat_sub_eight (a := m.cpu.reg .rsp) (by omega)
  have hcontext := h.orderly.context
  have htop := h.top
  constructor
  · refine h.move (hpushed.regs _ (by decide)) (hpushed.regs _ (by decide))
      (host_read_of_beyond fun a ha => ?_) ?_ ?_
    · rw [hpushed.read, if_neg fun heq => ha (by rw [← heq, Beyond]; omega)]
    · rw [hpushed.sp]
      omega
    · rw [hpushed.sp]
      omega
  · refine keepsStack_cpu fun a ha => ?_
    rw [hpushed.read, if_neg fun heq => by rw [← heq] at ha; omega]

namespace At

theorem phase_ne_never (h : m.At L x) : x.note.phase ≠ .never := fun hnever => (h.meets hnever).elim

/-- Control goes to a label of the unit. -/
theorem lands (h : m.At L x) (hq : x.piece? = some q) {l : Label} (hl : q.target? = some l)
    (hthunk : l ≠ Session.stubThunk)
    (hrip : c.rip = x.lodged.image.address (x.lodged.session.placeOf l))
    (hrunning : (m.withCpu c).Running x.lodged.session x.lodged.image)
    (hknows : (m.withCpu c).Knows L x.part.unit (x.part.labelNotes l)) : ∃ y, (m.withCpu c).At L y := by
  obtain ⟨j, hbind, hplace⟩ := x.exists_bind ((x.target_mem_binds hq hl).resolve_left hthunk)
  have hnext : (x.goto j).next.place = (x.goto j).place := (x.goto j).place_next hbind
  refine ⟨(x.goto j).next, h.images, h.lodged, hrunning, ?_, hknows.fits ((x.goto j).admits hbind).2, fun hp =>
    absurd hp ((x.goto j).not_primed_next hbind rfl)⟩
  · change c.rip = x.lodged.image.address _
    rw [hrip, hplace, hnext]

theorem label_mem_binds (hq : x.piece? = some q) {j : X86.Jump} (hj : q.jump? x.place = some j) :
    j.label ∈ x.lodged.session.binds := by
  obtain ⟨rest, hpieces⟩ := x.pieces_eq hq
  exact x.lodged.loaded.label_mem_binds hpieces hj

/-- In its own frame, code goes to a label of which it knows enough. -/
theorem goes (h : m.At L x) (hq : x.piece? = some q) {l : Label} (hl : q.target? = some l)
    (hphase : x.note.phase = .body) (hfits : x.note.Fits (x.part.labelNotes l))
    (hrip : c = m.cpu.jump (x.lodged.image.address (x.lodged.session.placeOf l))) : ∃ y, (m.withCpu c).At L y := by
  have hcomputes : m.cpu.Computes c := hrip ▸ Cpu.computes_jump ..
  have hmeets := h.meets hphase
  obtain ⟨hinner, howns⟩ := hmeets.1.computes h.running hcomputes
  refine h.lands hq hl ?_ (by rw [hrip]; rfl) (h.running.works (.of_computes hcomputes)) (Knows.fits ⟨?_, ?_⟩ hfits)
  · rintro rfl
    rw [x.labelNotes_thunk] at hfits
    rcases hfits with hnever | ⟨heq, -⟩
    · exact h.phase_ne_never hnever
    · rw [hphase] at heq
      cases heq
  · rw [hphase]
    exact ⟨hinner, howns hmeets.2⟩
  · exact h.knows.2.congr hcomputes (by rw [hrip]; rfl)

theorem jumps (h : m.At L x) {l : Label} (hq : x.piece? = some (.jmp l))
    (hexecute : m.cpu.execute x.next.address (.jmp (x.lodged.session.rel (x.place + 5) l)) = some c) :
    ∃ y, (m.withCpu c).At L y := by
  obtain ⟨hphase | hnever, hfits⟩ := (x.admits hq).1
  · refine h.goes hq rfl hphase hfits ?_
    have hl : l ∈ x.lodged.session.binds := label_mem_binds hq (j := ⟨_, l⟩) rfl
    have hrel := Spot.address_rel hl (show x.next.place = x.place + 5 from x.place_next hq)
    cases hexecute
    rw [hrel]
    rfl
  · exact absurd hnever h.phase_ne_never

/-- A conditional jump. After the comparison of an answer with the current frame it tells whether a frame is to be
entered. -/
theorem branches (h : m.At L x) {cond : X86.Cond} {l : Label} (hq : x.piece? = some (.jcc cond l))
    (hexecute : m.cpu.execute x.next.address (.jcc cond (x.lodged.session.rel (x.place + 6) l)) = some c) :
    ∃ y, (m.withCpu c).At L y := by
  have hl : l ∈ x.lodged.session.binds := label_mem_binds hq (j := ⟨_, l⟩) rfl
  have hrel := Spot.address_rel hl (show x.next.place = x.place + 6 from x.place_next hq)
  have hc : c = if cond.holds m.cpu.flags then m.cpu.jump (x.lodged.image.address (x.lodged.session.placeOf l))
      else m.cpu.jump x.next.address := by
    cases hexecute
    rw [hrel]
    rfl
  obtain ⟨-, hphase | hnever, hfits⟩ | ⟨hphase, rfl, hlabel⟩ := (x.admits hq).1
  · split at hc
    · exact h.goes hq rfl hphase hfits hc
    · subst hc
      have hnext : (Piece.jcc cond l).next x.part.labelNotes x.note = x.note := by simp [Piece.next, hphase]
      exact ⟨_, h.computes hq hphase (Cpu.computes_jump ..) rfl (k := x.note.content) (by rw [hnext, ← hphase])
        (h.knows.2.congr (Cpu.computes_jump ..) rfl) fun hp =>
          absurd hp (x.not_primed_next hq rfl)⟩
  · exact absurd hnever h.phase_ne_never
  obtain ⟨hinner, howns, haccepts⟩ := h.meets hphase
  have hthunk : l ≠ Session.stubThunk := by
    rintro rfl
    rw [x.labelNotes_thunk] at hlabel
    cases hlabel
  split at hc
  · rename_i hzero
    subst hc
    obtain ⟨hinner', -⟩ := hinner.computes h.running (Cpu.computes_jump m.cpu
      (x.lodged.image.address (x.lodged.session.placeOf l)))
    refine h.lands hq rfl hthunk rfl (h.running.works (.of_computes (Cpu.computes_jump ..))) ?_
    rw [hlabel]
    have hzero' : m.cpu.flags.zero = false := by simpa using hzero
    exact ⟨⟨hinner', (haccepts hzero').computes (Cpu.computes_jump ..)⟩, trivial⟩
  · subst hc
    obtain ⟨hinner', howns'⟩ := hinner.computes h.running (Cpu.computes_jump m.cpu x.next.address)
    refine ⟨_, h.advance_of_not_primes hq rfl (h.running.works (.of_computes (Cpu.computes_jump ..))) ?_ rfl⟩
    rw [Piece.next, if_pos hphase]
    exact ⟨⟨hinner', howns' howns⟩, trivial⟩

/-! ### Setting up a frame and taking it down -/

/-- A function pushes its frame. -/
theorem pushes (h : m.At L x) (hq : x.piece? = some (.instr (.push frameReg))) (hphase : x.note.phase = .entry)
    (hexecute : m.cpu.execute x.next.address (.push frameReg) = some c) : (m.withCpu c).At L x.next := by
  obtain ⟨hslots, hroom, hcallers⟩ := h.meets hphase
  have hpushed := Cpu.pushed_push hexecute
  obtain ⟨hrunning, hkeep⟩ := h.running.pushed hpushed hroom
  have hframe : (m.withCpu c).readWord (c.reg .rsp) = m.cpu.reg frameReg := by
    rw [hpushed.sp]
    exact (hpushed.read _).trans (if_pos rfl)
  refine h.advance_of_not_primes hq (by cases hexecute; rfl) hrunning ?_ rfl
  have hnext : (Piece.instr (.push frameReg)).next x.part.labelNotes x.note = .any := by
    simp [Piece.next, Piece.nextInstr, hphase]
  rw [hnext]
  refine ⟨⟨⟨?_, ?_⟩, hframe.trans (hpushed.regs _ (by decide)).symm⟩, trivial⟩
  · rw [withCpu_cpu, hframe]
    exact hslots.congr rfl rfl
  · rw [withCpu_cpu, hpushed.sp, UInt64.sub_add_cancel]
    exact hcallers.keep h.running.orderly hkeep

/-- The answer of a stub that makes calls is compared with the current frame. -/
theorem compares (h : m.At L x) (hq : x.piece? = some (.instr (.alu .cmp .w64 .rax frameReg)))
    (hphase : x.note.phase = .answered)
    (hexecute : m.cpu.execute x.next.address (.alu .cmp .w64 .rax frameReg) = some c) :
    (m.withCpu c).At L x.next := by
  obtain ⟨hinner, howns, haccepts⟩ := h.meets hphase
  have hzero : c.flags.zero = (m.cpu.reg .rax == m.cpu.reg frameReg) := by
    cases hexecute
    exact X86.Flags.zero_ofDifference64 ..
  have hrax : c.reg .rax = m.cpu.reg .rax := by
    cases hexecute
    rfl
  obtain ⟨hcomputes, hrip, -⟩ := Cpu.execute_quiet (i := .alu .cmp .w64 .rax frameReg) (by decide) hexecute
  obtain ⟨hinner', howns'⟩ := hinner.computes h.running hcomputes
  have hnext : (Piece.instr (.alu .cmp .w64 .rax frameReg)).next x.part.labelNotes x.note =
      ⟨.compared, .unknown⟩ := by
    simp [Piece.next, Piece.nextInstr, hphase]
  refine h.advance_of_not_primes hq hrip (h.running.works (.of_computes hcomputes)) ?_ rfl
  · rw [hnext]
    refine ⟨⟨hinner', howns' howns, fun hne => ?_⟩, trivial⟩
    rw [withCpu_cpu, hzero, beq_eq_false_iff_ne] at hne
    rw [withCpu_cpu, hrax]
    exact (haccepts.resolve_left hne).computes hcomputes

/-- A frame to enter becomes the current one. -/
theorem accepts (h : m.At L x) (hq : x.piece? = some (.instr (.mov .w64 frameReg .rax)))
    (hphase : x.note.phase = .accepted)
    (hexecute : m.cpu.execute x.next.address (.mov .w64 frameReg .rax) = some c) :
    (m.withCpu c).At L x.next := by
  obtain ⟨hinner, haccepts⟩ := h.meets hphase
  have hkept {r : Reg} (hr : frameReg.slot ≠ r.slot) : c.reg r = m.cpu.reg r := by
    cases hexecute
    exact Cpu.reg_setReg_of_ne _ _ hr
  have hframe : c.reg frameReg = m.cpu.reg .rax := by
    cases hexecute
    exact Cpu.reg_setReg_self ..
  have hread (a : UInt64) : c.read a = m.cpu.read a := by
    cases hexecute
    rfl
  have hsp := hkept (r := .rsp) (by decide)
  have hnext : (Piece.instr (.mov .w64 frameReg .rax)).next x.part.labelNotes x.note =
      ⟨.entering, .unknown⟩ := by
    simp [Piece.next, Piece.nextInstr, hphase]
  refine h.advance_of_not_primes hq (by cases hexecute; rfl) (h.running.move (hkept (by decide)) (hkept (by decide))
    (fun k _ => hread _) (by rw [hsp]; exact h.running.base) (by rw [hsp]; exact h.running.top)) ?_ rfl
  · rw [hnext]
    refine ⟨⟨hinner.keep h.running hsp (keepsStack_cpu fun a _ => hread a), ?_⟩, trivial⟩
    obtain ⟨hon, y, hy, p, hp, hword, hslots⟩ := haccepts.enters
    rw [withCpu_cpu, hframe]
    refine ⟨?_, hon, y, hy, p, hp, (hread _).trans hword, hslots⟩
    rw [withCpu_cpu, hsp]
    exact haccepts.room

/-- A function is entered in the current frame. -/
theorem calls (h : m.At L x) (hq : x.piece? = some (.instr (.callMem frameReg Frame.entry)))
    (hphase : x.note.phase = .entering)
    (hexecute : m.cpu.execute x.next.address (.callMem frameReg Frame.entry) = some c) :
    ∃ y, (m.withCpu c).At L y := by
  obtain ⟨hinner, haccepts⟩ := h.meets hphase
  obtain ⟨hon, y, hy, p, hp, hword, hslots⟩ := haccepts.enters
  obtain ⟨z, rfl, hunit, hentry, hindex, hprimed⟩ := y.exists_entry hp
  have hpushed := Cpu.pushed_callMem hexecute
  have hroom := haccepts.room
  have hbelow := toNat_sub_eight (a := m.cpu.reg .rsp) (by omega)
  have htop := hinner.callers.top
  have hsp := toNat_add_eight h.running.orderly h.running.top
  obtain ⟨hrunning, hkeep⟩ := h.running.pushed hpushed (by omega)
  have hrip : c.rip = m.frameWord (m.cpu.reg frameReg) Frame.entry := by
    cases hexecute
    rfl
  have hframe : c.reg frameReg = m.cpu.reg frameReg := hpushed.regs _ (by decide)
  have hawaits : (m.withCpu c).Awaits L (c.reg .rsp) x := by
    refine ⟨h.lodged, ⟨_, hq, rfl⟩, ?_, ?_, ?_⟩
    · rw [hpushed.sp]
      exact (hpushed.read _).trans (if_pos rfl)
    · rw [hpushed.sp, UInt64.sub_add_cancel, hkeep.stack _ (Nat.le_refl _) (by omega)]
      exact hinner.slots.congr rfl rfl
    · rw [hpushed.sp]
      change (m.cpu.reg .rsp - 8).toNat + 16 ≤ m.nativeEnd.toNat
      omega
  refine ⟨z, h.images, hy, { hrunning with loaded := h.images ▸ z.lodged.loaded }, hrip.trans (hword.trans hentry), ?_,
    fun hp => absurd hp hprimed⟩
  rw [(z.opening hindex).1]
  refine ⟨⟨?_, ?_, .call hawaits hphase ?_⟩, trivial⟩
  · rw [withCpu_cpu, hframe, hunit]
    exact hslots.congr rfl rfl
  · rw [withCpu_cpu, hpushed.sp]
    change m.nativeBase.toNat + 16 ≤ _
    omega
  · have hadd : c.reg .rsp + 16 = m.cpu.reg .rsp + 8 := by
      rw [hpushed.sp, show (16 : UInt64) = 8 + 8 by decide, ← UInt64.add_assoc, UInt64.sub_add_cancel]
    rw [withCpu_cpu, hadd]
    exact hinner.callers.keep h.running.orderly (hkeep.mono (by omega))

/-- When a function has returned, its caller takes up its own frame again. -/
theorem reloads (h : m.At L x) (hq : x.piece? = some (.instr (.load frameReg .rsp 0)))
    (hphase : x.note.phase = .returned)
    (hexecute : m.cpu.execute x.next.address (.load frameReg .rsp 0) = some c) : (m.withCpu c).At L x.next := by
  have hinner : m.Inner L x.part.unit := h.meets hphase
  have hkept {r : Reg} (hr : frameReg.slot ≠ r.slot) : c.reg r = m.cpu.reg r := by
    cases hexecute
    exact Cpu.reg_setReg_of_ne _ _ hr
  have hframe : c.reg frameReg = m.readWord (m.cpu.reg .rsp) := by
    cases hexecute
    refine (Cpu.reg_setReg_self ..).trans ?_
    change m.cpu.read (m.cpu.reg .rsp + X86.displacementWord 0) = _
    rw [show X86.displacementWord 0 = 0 by decide, UInt64.add_zero]
    rfl
  have hread (a : UInt64) : c.read a = m.cpu.read a := by
    cases hexecute
    rfl
  have hsp := hkept (r := .rsp) (by decide)
  have hnext : (Piece.instr (.load frameReg .rsp 0)).next x.part.labelNotes x.note = .any := by
    simp [Piece.next, Piece.nextInstr, hphase]
  refine h.advance_of_not_primes hq (by cases hexecute; rfl) (h.running.move (hkept (by decide)) (hkept (by decide))
    (fun k _ => hread _) (by rw [hsp]; exact h.running.base) (by rw [hsp]; exact h.running.top)) ?_ rfl
  · rw [hnext]
    refine ⟨⟨hinner.keep h.running hsp (keepsStack_cpu fun a _ => hread a), ?_⟩, trivial⟩
    rw [Owns, withCpu_cpu, hframe, hsp]
    exact hread _

/-- A function that is about to return takes its frame off the native stack. -/
theorem pops (h : m.At L x) (hq : x.piece? = some (.instr (.pop .rcx))) (hphase : x.note.phase = .body)
    (hexecute : m.cpu.execute x.next.address (.pop .rcx) = some c) : (m.withCpu c).At L x.next := by
  have hcallers := (h.meets hphase).1.callers
  have htop := hcallers.top
  have hbase := h.running.base
  have hsp := toNat_add_eight h.running.orderly h.running.top
  have hreg {r : Reg} (hrcx : Reg.rcx.slot ≠ r.slot) (hr : Reg.rsp.slot ≠ r.slot) : c.reg r = m.cpu.reg r := by
    cases hexecute
    exact (Cpu.reg_setReg_of_ne _ _ hrcx).trans (Cpu.reg_setReg_of_ne _ _ hr)
  have hrsp : c.reg .rsp = m.cpu.reg .rsp + 8 := by
    cases hexecute
    exact (Cpu.reg_setReg_of_ne _ _ (by decide)).trans (Cpu.reg_setReg_self ..)
  have hread (a : UInt64) : c.read a = m.cpu.read a := by
    cases hexecute
    rfl
  have hnext : (Piece.instr (.pop .rcx)).next x.part.labelNotes x.note = ⟨.leaving, .unknown⟩ := by
    simp [Piece.next, Piece.nextInstr, hphase]
  refine h.advance_of_not_primes hq (by cases hexecute; rfl) (h.running.move (hreg (by decide) (by decide))
    (hreg (by decide) (by decide)) (fun k _ => hread _) ?_ ?_) ?_ rfl
  · rw [hrsp]
    omega
  · rw [hrsp]
    omega
  · rw [hnext]
    refine ⟨?_, trivial⟩
    change (m.withCpu c).Callers L (c.reg .rsp)
    rw [hrsp]
    exact hcallers.keep h.running.orderly (keepsStack_cpu fun a _ => hread a)

/-- A function returns to the one that waits for it, or to the thunk by which the host entered. -/
theorem returns (h : m.At L x) (hphase : x.note.phase = .leaving)
    (hexecute : m.cpu.execute x.next.address .ret = some c) : (∃ y, (m.withCpu c).At L y) ∨
      ∃ y ∈ L, (m.withCpu c).Running y.session y.image ∧
        c.rip = y.image.address (y.session.placeOf Session.returnSite) := by
  have hcallers : m.Callers L (m.cpu.reg .rsp) := h.meets hphase
  have htop := hcallers.top
  have hbase := h.running.base
  have hsp := toNat_add_eight h.running.orderly h.running.top
  have hreg {r : Reg} (hr : Reg.rsp.slot ≠ r.slot) : c.reg r = m.cpu.reg r := by
    cases hexecute
    exact Cpu.reg_setReg_of_ne _ _ hr
  have hrsp : c.reg .rsp = m.cpu.reg .rsp + 8 := by
    cases hexecute
    exact Cpu.reg_setReg_self ..
  have hread (a : UInt64) : c.read a = m.cpu.read a := by
    cases hexecute
    rfl
  have hrip : c.rip = m.readWord (m.cpu.reg .rsp) := by
    cases hexecute
    rfl
  have hrunning : (m.withCpu c).Running x.lodged.session x.lodged.image := by
    refine h.running.move (hreg (by decide)) (hreg (by decide)) (fun k _ => hread _) ?_ ?_
    · rw [hrsp]
      omega
    · rw [hrsp]
      omega
  have hkeep (a : UInt64) : m.KeepsStack (m.withCpu c) a := keepsStack_cpu fun b _ => hread b
  cases hcallers with
  | @host _ y lodged site top =>
    exact .inr ⟨y, lodged, { hrunning with loaded := h.images ▸ y.loaded }, hrip.trans site⟩
  | @call _ y awaits entering callers =>
    left
    obtain ⟨q, hq, hcall⟩ := awaits.call
    have hq' : q = .instr (.callMem frameReg Frame.entry) := by
      have hadmits := (y.admits hq).1
      cases q with
      | instr i =>
        have hi : i = .callMem frameReg Frame.entry := by
          simpa [Piece.Admits, Piece.AdmitsInstr, entering] using hadmits
        rw [hi]
      | call l => simp [Piece.Admits, entering] at hadmits
      | _ => cases hcall
    subst hq'
    have hnext : (Piece.instr (.callMem frameReg Frame.entry)).next y.part.labelNotes y.note =
        ⟨.returned, .unknown⟩ := by
      simp [Piece.next, Piece.nextInstr, entering]
    refine ⟨y.next, h.images, awaits.lodged, { hrunning with loaded := h.images ▸ y.lodged.loaded },
      hrip.trans awaits.back, Knows.fits (a := ⟨.returned, .unknown⟩) ⟨⟨?_, ?_⟩, trivial⟩ (hnext ▸ (y.admits hq).2),
      fun hp => absurd hp (y.not_primed_next hq rfl)⟩
    · rw [withCpu_cpu, hrsp, show (m.withCpu c).readWord _ = m.readWord _ from hread _]
      exact awaits.slots.congr rfl rfl
    · rw [withCpu_cpu, hrsp, UInt64.add_assoc]
      exact callers.keep h.running.orderly (hkeep _)

/-! ### Pieces that take no room -/

/-- A piece that takes no room is passed. -/
theorem skips (h : m.At L x) (hq : x.piece? = some q) (hsize : q.size x.place = 0) : m.At L x.next := by
  have hrip : m.cpu.rip = x.next.address := by
    rw [h.rip, Spot.address, Spot.address, x.place_next hq, hsize]
    rfl
  have hadmits := (x.admits hq).1
  have hpasses (hknows : m.Knows L x.part.unit (q.next x.part.labelNotes x.note)) (hprimes : q.primes = false) :
      m.At L x.next := h.advance_of_not_primes hq hrip h.running hknows hprimes
  cases q with
  | bind l => exact hpasses (h.knows.fits hadmits) rfl
  | kept dst r => exact hpasses h.knows rfl
  | align n => exact absurd hadmits h.phase_ne_never
  | instr i => exact absurd hsize (Nat.ne_of_gt (X86.length_encode_bounds i).1)
  | address dst l => exact absurd hsize (Nat.ne_of_gt (X86.length_encode_bounds (.movImm64 dst 0)).1)
  | jmp l | jcc c l | call l => cases hsize

/-- Control is in front of a piece that takes room. -/
theorem settle (h : m.At L x) : ∃ (y : Spot images) (q : Piece), m.At L y ∧ y.piece? = some q ∧ 0 < q.size y.place := by
  obtain ⟨n, hn⟩ : ∃ n, x.part.pieces.length - x.index = n := ⟨_, rfl⟩
  induction n generalizing x with
  | zero =>
    have hnever := x.note_of_none (List.getElem?_eq_none (by omega))
    exact absurd (congrArg Note.phase hnever) h.phase_ne_never
  | succ n ih =>
    have hlt : x.index < x.part.pieces.length := by omega
    have hq : x.piece? = some x.part.pieces[x.index] := List.getElem?_eq_getElem hlt
    by_cases hsize : x.part.pieces[x.index].size x.place = 0
    · exact ih (h.skips hq hsize) (show x.part.pieces.length - (x.index + 1) = n by omega)
    · exact ⟨x, _, h, hq, Nat.pos_of_ne_zero hsize⟩

end At

end Machine

end RegisterJit
