import RegisterJit.Proofs.Decisions
import RegisterJit.Proofs.Spots

/-!
# Callers

What a note says of a machine whose processor is at a spot (`Spots`), and that computing keeps it.

A function has pushed its frame; above it on the native stack is the address it returns to, and above that the
frame of its caller. `Callers` says that every such address is that of a spot behind a call, up to the thunk that
the host entered by, and that the frame above it has the registers that the waiting unit names. Frames below these
may change (`Callers.keep`). An exception searches the same addresses: `Unwinds` is its search, and
`Awaits.unwinds` says that it ends at the end of a region of a function that waits, in the frame of this function,
with the functions above still waiting.

`Content.Holds` gives the contents of the accumulator a meaning, `Meets` the phases of a function, and `Knows` both
for a note. `At` is the invariant of the whole argument: control is at a spot, and its note holds. The lemmas in the
last section say that an instruction of a function in its own frame leads from a spot to the next one. They need of
the instruction what it writes (`execute_plain`), of the frame that its slots are on the register stack, and of the
native stack that nothing is written above its top. `Steps` does the instructions that leave the frame or change it.
-/

namespace RegisterJit

open X86 (Reg Instr Label Cpu)

/-! ## Functions that wait -/

theorem Spot.lt_of_call {images : Array LoadedImage} {x : Spot images} {q : Piece} (hq : x.piece? = some q)
    (hcall : q.isCall = true) : x.index + 1 < x.part.pieces.length := by
  obtain ⟨ps, hps⟩ := x.part.exists_pieces
  obtain ⟨hlt, heq⟩ := List.getElem?_eq_some_iff.1 hq
  by_contra hle
  have hlast : x.index = ps.length := by
    rw [hps, List.length_append, List.length_singleton] at hlt hle
    omega
  have hret : q = .instr .ret := by
    rw [← heq]
    simp [hps, hlast]
  rw [hret] at hcall
  cases hcall

theorem Lodged.address_eq {images : Array LoadedImage} (y : Lodged images) {l : Label} {a : UInt64}
    (h : y.session.address y.image.base l = .ok a) : a = y.image.address (y.session.placeOf l) := by
  have hlaid := y.loaded.laid
  rw [hlaid.address_eq (hlaid.mem_binds (Session.place?_of_address h).choose_spec.1)] at h
  exact (Except.ok.inj h).symm

theorem Lodged.returnSite_spec {images : Array LoadedImage} (y : Lodged images) :
    y.image.contains y.image.returnSite = true ∧
      y.image.returnSite = y.image.address (y.session.placeOf Session.returnSite) := by
  have hsite := y.address_eq y.loaded.linked.returnSite
  refine ⟨?_, hsite⟩
  rw [hsite]
  refine y.contains (Nat.lt_of_lt_of_le ?_ y.loaded.start_le)
  let front : List Piece := .bind Session.entryThunk :: Session.enterCode.map .instr
  obtain ⟨rest, hrest⟩ : ∃ rest, Session.thunkPieces =
    (front ++ [.bind Session.returnSite]) ++ .instr (.pop .rcx) :: rest := ⟨_, rfl⟩
  have hthunk : Session.thunkPieces = front ++ .bind Session.returnSite :: .instr (.pop .rcx) :: rest := by
    rw [hrest, List.append_assoc]
    rfl
  rw [y.loaded.placeOf_thunk hthunk, Session.start_laid.size_eq]
  change _ < Piece.endFrom 0 Session.thunkPieces
  rw [hrest, Piece.endFrom_append]
  exact Nat.lt_of_lt_of_le (Nat.lt_add_of_pos_right (X86.length_encode_bounds (.pop .rcx)).1) (Piece.le_endFrom _ rest)

namespace Machine

variable {images : Array LoadedImage} {L : List (Lodged images)} {m m' : Machine} {sp : UInt64} {x : Spot images}

/-- A frame has the registers and arguments that a unit names. -/
def HasSlots (m : Machine) (u : CodeUnit) (frame : Run.FrameRef) : Prop :=
  ∀ d, u.Names d → m.OnRegisterStack (frame + X86.displacementWord d)

/-- A frame in which a function of a program can be entered. -/
def Enters (m : Machine) (L : List (Lodged images)) (frame : Run.FrameRef) : Prop :=
  m.OnRegisterStack (frame + X86.displacementWord Frame.entry) ∧ ∃ y ∈ L, ∃ u ∈ y.image.programs,
    m.frameWord frame Frame.entry = u.entry ∧ m.HasSlots u.unit frame

/-- Code has made a call that returns to the address on top of the native stack, with its own frame above it. -/
structure Awaits (m : Machine) (L : List (Lodged images)) (sp : UInt64) (x : Spot images) : Prop where
  lodged : x.lodged ∈ L
  call : ∃ q, x.piece? = some q ∧ q.isCall = true
  back : m.readWord sp = x.next.address
  slots : m.HasSlots x.part.unit (m.readWord (sp + 8))
  top : sp.toNat + 16 ≤ m.nativeEnd.toNat

/-- The functions that wait for a return, from a return address on the native stack on. -/
inductive Callers (m : Machine) (L : List (Lodged images)) : UInt64 → Prop
  | host {sp : UInt64} {y : Lodged images} (lodged : y ∈ L)
      (site : m.readWord sp = y.image.address (y.session.placeOf Session.returnSite))
      (top : sp.toNat + 16 ≤ m.nativeEnd.toNat) : Callers m L sp
  | call {sp : UInt64} {x : Spot images} (awaits : m.Awaits L sp x) (entering : x.note.phase = .entering)
      (callers : Callers m L (sp + 16)) : Callers m L sp

theorem Callers.top (h : m.Callers L sp) : sp.toNat + 16 ≤ m.nativeEnd.toNat := by
  cases h with
  | host _ _ top => exact top
  | call awaits _ _ => exact awaits.top

theorem HasSlots.congr {u : CodeUnit} {frame : Run.FrameRef} (h : m.HasSlots u frame)
    (hcontext : m'.context = m.context) (hbase : m'.nativeBase = m.nativeBase) : m'.HasSlots u frame := by
  intro d hd
  rw [OnRegisterStack, Beyond, hcontext, hbase]
  exact h d hd

theorem Awaits.keep (hm : m.Orderly) (h : m.Awaits L sp x) (hkeep : m.KeepsStack m' sp) : m'.Awaits L sp x where
  lodged := h.lodged
  call := h.call
  back := (hkeep.stack sp (Nat.le_refl _) (by have := h.top; omega)).trans h.back
  slots := by
    have htop := h.top
    have hsp := toNat_add_eight hm (show sp.toNat ≤ m.nativeEnd.toNat by omega)
    rw [hkeep.stack (sp + 8) (by omega) (by omega)]
    exact h.slots.congr hkeep.context hkeep.nativeBase
  top := hkeep.nativeEnd ▸ h.top

/-- Below the functions that wait, the native stack may change. -/
theorem Callers.keep (hm : m.Orderly) (h : m.Callers L sp) (hkeep : m.KeepsStack m' sp) : m'.Callers L sp := by
  induction h with
  | host lodged site top =>
    exact .host lodged ((hkeep.stack _ (Nat.le_refl _) (by omega)).trans site) (hkeep.nativeEnd ▸ top)
  | @call sp x awaits entering callers ih =>
    have htop := awaits.top
    refine .call (awaits.keep hm hkeep) entering (ih (hkeep.mono ?_))
    rw [toNat_add_sixteen hm (by omega)]
    omega

/-! ## Exceptions -/

/-- The search of an exception for a handler goes from a return address and a frame on the native stack to those of
the function that lies in the region of a handler, which goes on at an address. -/
inductive Unwinds (m : Machine) : UInt64 → Run.FrameRef → UInt64 → Run.FrameRef → UInt64 → Prop
  | handled {sp : UInt64} {frame : Run.FrameRef} {img : LoadedImage} {p : PlacedUnit} {h : Handler} {target : UInt64}
      (image : m.imageOf (m.readWord sp) = some img) (inside : m.readWord sp ≠ img.returnSite)
      (lookup : img.lookup (m.readWord sp) = some p) (handler : p.handlerAt? (m.readWord sp - 1) = some (h, target)) :
      Unwinds m sp frame sp frame target
  | passes {sp sp' : UInt64} {frame frame' : Run.FrameRef} {img : LoadedImage} {p : PlacedUnit} {target : UInt64}
      (image : m.imageOf (m.readWord sp) = some img) (inside : m.readWord sp ≠ img.returnSite)
      (lookup : img.lookup (m.readWord sp) = some p) (unhandled : p.handlerAt? (m.readWord sp - 1) = none)
      (rest : Unwinds m (sp + 16) (m.readWord (sp + 24)) sp' frame' target) : Unwinds m sp frame sp' frame' target

/-- A handler that is found for a function that waits goes on in that function. -/
theorem Awaits.handled (hm : m.images = images) (h : m.Awaits L sp x) {img : LoadedImage} {p : PlacedUnit}
    {handler : Handler} {target : UInt64} (himage : m.imageOf (m.readWord sp) = some img)
    (hlookup : img.lookup (m.readWord sp) = some p)
    (hhandler : p.handlerAt? (m.readWord sp - 1) = some (handler, target)) :
    ∃ j, target = (x.goto j).address ∧ Note.any.Fits (x.goto j).note ∧ ¬ (x.goto j).Primed := by
  obtain ⟨q, hq, hcall⟩ := h.call
  have hlt : x.next.index < x.next.part.pieces.length := Spot.lt_of_call hq hcall
  obtain ⟨u, hu, hunit, hranges⟩ := Spot.lookup (x := x.next) (Nat.le_add_left ..) hlt
  obtain ⟨img', hfound, himg'⟩ := x.lodged.found _ (x.lodged.contains (Spot.place_lt_size (x := x.next) hlt))
  rw [imageOf, hm, h.back] at himage
  obtain rfl : img' = img := Option.some.inj (hfound.symm.trans himage)
  rw [h.back, himg', show x.lodged.image.lookup x.next.address = some u from hu] at hlookup
  obtain rfl := Option.some.inj hlookup
  obtain ⟨⟨h, start, stop⟩, hfind, heq⟩ := Option.map_eq_some_iff.1 hhandler
  cases heq
  have hmem := List.mem_of_find?_eq_some hfind
  rw [hunit] at hmem
  exact Spot.exists_stop (x := x) (List.of_mem_zip hmem).1 ((List.forall₂_iff_zip.1 hranges).2 hmem)

/-- The search ends in a function that waits for the one that has left, or in that one itself. -/
theorem Awaits.unwinds (horderly : m.Orderly) (hm : m.images = images) (h : m.Awaits L sp x)
    (hcallers : m.Callers L (sp + 16)) {sp' target : UInt64} {frame frame' : Run.FrameRef}
    (hframe : frame = m.readWord (sp + 8)) (hunwinds : m.Unwinds sp frame sp' frame' target) :
    ∃ y : Spot images, y.lodged ∈ L ∧ target = y.address ∧ Note.any.Fits y.note ∧ ¬ y.Primed ∧
      m.HasSlots y.part.unit frame' ∧ frame' = m.readWord (sp' + 8) ∧ m.Callers L (sp' + 16) ∧ sp.toNat ≤ sp'.toNat ∧
      sp'.toNat + 16 ≤ m.nativeEnd.toNat := by
  induction hunwinds generalizing x with
  | handled image inside lookup handler =>
    obtain ⟨j, htarget, hnote, hprimed⟩ := h.handled hm image lookup handler
    exact ⟨x.goto j, h.lodged, htarget, hnote, hprimed, hframe ▸ h.slots, hframe, hcallers, Nat.le_refl _, h.top⟩
  | @passes sp sp' frame frame' img p target image inside lookup unhandled rest ih =>
    have hsp := toNat_add_sixteen horderly (Nat.le_of_add_right_le h.top)
    cases hcallers with
    | @host _ y lodged site top =>
      -- The search would have to pass the thunk that the host entered by.
      obtain ⟨hcontains, hsite⟩ := Lodged.returnSite_spec y
      obtain ⟨img', hfound, himg'⟩ := y.found _ hcontains
      have hstop : ∀ img, m.imageOf (m.readWord (sp + 16)) = some img → m.readWord (sp + 16) = img.returnSite := by
        intro img himage
        rw [imageOf, hm, site, ← hsite, hfound] at himage
        rw [← Option.some.inj himage, himg', site, hsite]
      cases rest with
      | handled image inside _ _ => exact absurd (hstop _ image) inside
      | passes image inside _ _ _ => exact absurd (hstop _ image) inside
    | call awaits entering callers =>
      obtain ⟨y, hy, htarget, hnote, hprimed, hslots, hword, hrest, hle, htop⟩ := ih awaits callers (by
        rw [UInt64.add_assoc]
        rfl)
      exact ⟨y, hy, htarget, hnote, hprimed, hslots, hword, hrest, by omega, htop⟩

end Machine

/-! ## What instructions write -/

namespace X86.Cpu

variable {c d : Cpu} {next : UInt64} {i : Instr}

/-- Nothing but some registers and flags has been changed, and control goes on at `next`. -/
structure Sets (c : Cpu) (next : UInt64) (rs : List Reg) (d : Cpu) : Prop where
  memory : d.memory = c.memory
  rip : d.rip = next
  reg : ∀ r : Reg, (∀ w ∈ rs, w.slot ≠ r.slot) → d.reg r = c.reg r

theorem sets_setReg (c : Cpu) (next : UInt64) (r : Reg) (x : UInt64) :
    Sets c next [r] ((c.jump next).setReg r x) :=
  ⟨rfl, rfl, fun _ h => reg_setReg_of_ne _ _ (h r (List.mem_singleton_self r))⟩

theorem Sets.setFlags {rs : List Reg} (h : Sets c next rs d) (f : Flags) : Sets c next rs (d.setFlags f) :=
  ⟨h.memory, h.rip, h.reg⟩

theorem sets_nothing (c : Cpu) (next : UInt64) (rs : List Reg) : Sets c next rs (c.jump next) :=
  ⟨rfl, rfl, fun _ _ => rfl⟩

theorem sets_alu (c : Cpu) (next : UInt64) (op : AluOp) (w : Width) (dst : Reg) (b : UInt64) :
    Sets c next (if op = .cmp then [] else [dst]) ((c.jump next).alu op w dst b) := by
  cases op with
  | cmp => exact (sets_nothing c next []).setFlags _
  | _ => exact (sets_setReg c next dst _).setFlags _

theorem execute_plain (hi : i.plain = true) (h : c.execute next i = some d) : Sets c next i.writes d := by
  cases i with
  | alu op w dst src =>
    cases h
    exact sets_alu ..
  | aluImm op w dst imm =>
    cases h
    exact sets_alu ..
  | shift32 op dst =>
    cases h
    dsimp only [shift]
    split
    · exact sets_setReg ..
    · exact (sets_setReg ..).setFlags _
  | idiv32 src =>
    dsimp only [execute, divide] at h
    split at h
    · cases h
    split at h
    · cases h
    · cases h
      refine ⟨rfl, rfl, fun r hr => ?_⟩
      rw [reg_setReg_of_ne _ _ (hr .rdx (by simp)), reg_setReg_of_ne _ _ (hr .rax (by simp))]
      rfl
  | cmov cond dst src =>
    cases h
    split
    · exact sets_setReg ..
    · exact sets_nothing ..
  | test w a b =>
    cases h
    exact (sets_nothing ..).setFlags _
  | imul w dst src | neg32 dst | rol dst n =>
    cases h
    exact (sets_setReg ..).setFlags _
  | cvtsi2sd x src | movqTo x src | nop =>
    cases h
    exact ⟨rfl, rfl, fun _ _ => rfl⟩
  | store | jmp | jcc | call | jmpReg | callReg | callMem | ret | push | pop | ud2 => cases hi
  | _ =>
    cases h
    exact sets_setReg ..

theorem Sets.computes {rs : List Reg} (h : Sets c next rs d)
    (hrs : ∀ w ∈ rs, ∀ r ∈ Machine.roleRegs, w.slot ≠ r.slot) : c.Computes d :=
  ⟨h.memory, fun r hr => h.reg r fun w hw => hrs w hw r hr⟩

end X86.Cpu

theorem slot_ne_of_scratch : ∀ w ∈ scratchRegs, ∀ r ∈ Machine.roleRegs, w.slot ≠ r.slot := by decide

theorem X86.Cpu.execute_quiet {c d : Cpu} {next : UInt64} {i : Instr} (hi : i.quiet = true)
    (h : c.execute next i = some d) :
    c.Computes d ∧ d.rip = next ∧ ∀ r ∈ scratchRegs, r ∉ i.writes → d.reg r = c.reg r := by
  simp only [Instr.quiet, Bool.and_eq_true, List.all_eq_true, decide_eq_true_eq] at hi
  obtain ⟨⟨hplain, -⟩, hwrites⟩ := hi
  have hsets := execute_plain hplain h
  refine ⟨hsets.computes fun w hw => slot_ne_of_scratch w (hwrites w hw), hsets.rip, fun r hr hw => ?_⟩
  have hinjective : ∀ w ∈ scratchRegs, ∀ r ∈ scratchRegs, w.slot = r.slot → w = r := by decide
  exact hsets.reg r fun w hmem heq => hw (hinjective w (hwrites w hmem) r hr heq ▸ hmem)

/-- What the accumulator of a processor holds. -/
def Content.Holds (c : Cpu) : Content → Prop
  | .unknown => True
  | .slot d => c.reg .rax = c.read (c.reg frameReg + X86.displacementWord d)
  | .stub n => c.reg .rax = n.toUInt64

namespace Content.Holds

variable {c d : Cpu} {k : Content}

theorem congr (h : k.Holds c) (hcomputes : c.Computes d) (hrax : d.reg .rax = c.reg .rax) : k.Holds d := by
  cases k with
  | unknown => trivial
  | slot o =>
    rw [Holds, hrax, hcomputes.kept frameReg (by decide), hcomputes.read]
    exact h
  | stub n => exact hrax.trans h

theorem after {i : Instr} {next : UInt64} (h : k.Holds c) (hi : i.quiet = true)
    (hexecute : c.execute next i = some d) : (k.after i).Holds d := by
  obtain ⟨hcomputes, -, hregs⟩ := Cpu.execute_quiet hi hexecute
  unfold Content.after
  by_cases hw : Reg.rax ∈ i.writes
  · rw [if_pos hw]
    cases i with
    | load dst base o =>
      obtain rfl : Reg.rax = dst := by simpa using hw
      dsimp only
      split
      · rename_i hbase
        subst hbase
        rw [Holds, hcomputes.kept frameReg (by decide), hcomputes.read]
        cases hexecute
        exact Cpu.reg_setReg_self ..
      · trivial
    | movImm32 dst n =>
      obtain rfl : Reg.rax = dst := by simpa using hw
      cases hexecute
      exact Cpu.reg_setReg_self ..
    | _ => trivial
  · rw [if_neg hw]
    exact h.congr hcomputes (hregs .rax (by decide) hw)

end Content.Holds

namespace Machine

variable {images : Array LoadedImage} {L : List (Lodged images)} {m m' : Machine} {x : Spot images} {u : CodeUnit}
  {s : Session} {image : Image} {c : Cpu} {q : Piece}

/-! ## What a note says -/

/-- Code has pushed its frame, and above it the functions wait that will be returned to. -/
structure Inner (m : Machine) (L : List (Lodged images)) (u : CodeUnit) : Prop where
  slots : m.HasSlots u (m.readWord (m.cpu.reg .rsp))
  callers : m.Callers L (m.cpu.reg .rsp + 8)

/-- A frame can be entered, and there is room for its function on the native stack. -/
structure Accepts (m : Machine) (L : List (Lodged images)) (frame : Run.FrameRef) : Prop where
  room : m.nativeBase.toNat + 24 ≤ (m.cpu.reg .rsp).toNat
  enters : m.Enters L frame

/-- The frame that code has pushed is the current one. -/
def Owns (m : Machine) : Prop := m.readWord (m.cpu.reg .rsp) = m.cpu.reg frameReg

/-- How far a function is with its frame and the native stack. -/
def Meets (m : Machine) (L : List (Lodged images)) (u : CodeUnit) : Phase → Prop
  | .entry => m.HasSlots u (m.cpu.reg frameReg) ∧ m.nativeBase.toNat + 16 ≤ (m.cpu.reg .rsp).toNat ∧
      m.Callers L (m.cpu.reg .rsp)
  | .body => m.Inner L u ∧ m.Owns
  | .answered => m.Inner L u ∧ m.Owns ∧ (m.cpu.reg .rax = m.cpu.reg frameReg ∨ m.Accepts L (m.cpu.reg .rax))
  | .compared => m.Inner L u ∧ m.Owns ∧ (m.cpu.flags.zero = false → m.Accepts L (m.cpu.reg .rax))
  | .accepted => m.Inner L u ∧ m.Accepts L (m.cpu.reg .rax)
  | .entering => m.Inner L u ∧ m.Accepts L (m.cpu.reg frameReg)
  | .returned => m.Inner L u
  | .leaving => m.Callers L (m.cpu.reg .rsp)
  | .never => False

/-- A note holds of a machine. -/
def Knows (m : Machine) (L : List (Lodged images)) (u : CodeUnit) (a : Note) : Prop :=
  m.Meets L u a.phase ∧ a.content.Holds m.cpu

theorem Knows.fits {a b : Note} (h : m.Knows L u a) (hfits : a.Fits b) : m.Knows L u b := by
  rcases hfits with hnever | ⟨hphase, hcontent⟩
  · have hmeets := h.1
    rw [hnever] at hmeets
    exact hmeets.elim
  refine ⟨hphase ▸ h.1, ?_⟩
  rcases hcontent with hunknown | heq
  · rw [hunknown]
    trivial
  · exact heq ▸ h.2

/-- Control is at a spot of which what its note says holds. -/
structure At (m : Machine) (L : List (Lodged images)) (x : Spot images) : Prop where
  images : m.images = images
  lodged : x.lodged ∈ L
  running : m.Running x.lodged.session x.lodged.image
  rip : m.cpu.rip = x.address
  knows : m.Knows L x.part.unit x.note
  primed : x.Primed → m.cpu.reg .rdi = m.context

/-! ## Changes of the processor -/

theorem Running.move (h : m.Running s image) (hcontext : c.reg contextReg = m.cpu.reg contextReg)
    (hmask : c.reg maskReg = m.cpu.reg maskReg)
    (hhost : ∀ k ∈ ([56, 4088] : List UInt64), c.read (m.context + k) = m.cpu.read (m.context + k))
    (hbase : m.nativeBase.toNat + 8 ≤ (c.reg .rsp).toNat) (htop : (c.reg .rsp).toNat ≤ m.nativeEnd.toNat) :
    (m.withCpu c).Running s image where
  loaded := h.loaded
  orderly := h.orderly.congr rfl rfl rfl rfl
  context := hcontext.trans h.context
  mask := hmask.trans h.mask
  host := (hhost 56 (by simp)).trans h.host
  back := (hhost 4088 (by simp)).trans h.back
  base := hbase
  top := htop

theorem host_read_of_beyond (h : ∀ a, ¬ m.Beyond a → c.read a = m.cpu.read a) :
    ∀ k ∈ ([56, 4088] : List UInt64), c.read (m.context + k) = m.cpu.read (m.context + k) := by
  intro k hk
  have hlt : k.toNat < pageSize := by
    simp only [List.mem_cons, List.not_mem_nil, or_false] at hk
    rcases hk with rfl | rfl <;> decide
  exact h _ fun hbeyond => hbeyond.ne_context hlt rfl

theorem Inner.keep (hm : m.Running s image) (h : m.Inner L u) (hsp : m'.cpu.reg .rsp = m.cpu.reg .rsp)
    (hkeep : m.KeepsStack m' (m.cpu.reg .rsp)) : m'.Inner L u := by
  have htop := h.callers.top
  have hsp' := toNat_add_eight hm.orderly hm.top
  constructor
  · rw [hsp, hkeep.stack _ (Nat.le_refl _) (by omega)]
    exact h.slots.congr hkeep.context hkeep.nativeBase
  · rw [hsp]
    exact h.callers.keep hm.orderly (hkeep.mono (by omega))

theorem Owns.keep (hm : m.Running s image) (hi : m.Inner L u) (h : m.Owns) (hsp : m'.cpu.reg .rsp = m.cpu.reg .rsp)
    (hframe : m'.cpu.reg frameReg = m.cpu.reg frameReg) (hkeep : m.KeepsStack m' (m.cpu.reg .rsp)) : m'.Owns := by
  have htop := hi.callers.top
  have hsp' := toNat_add_eight hm.orderly hm.top
  rw [Owns, hsp, hframe, hkeep.stack _ (Nat.le_refl _) (by omega)]
  exact h

theorem Accepts.computes {frame : Run.FrameRef} (h : m.Accepts L frame) (hcomputes : m.cpu.Computes c) :
    (m.withCpu c).Accepts L frame := by
  obtain ⟨hon, y, hy, p, hp, hword, hslots⟩ := h.enters
  refine ⟨?_, hon, y, hy, p, hp, (hcomputes.read _).trans hword, hslots⟩
  rw [withCpu_cpu, hcomputes.kept .rsp (by decide)]
  exact h.room

theorem Inner.computes (hm : m.Running s image) (h : m.Inner L u) (hcomputes : m.cpu.Computes c) :
    (m.withCpu c).Inner L u ∧ (m.Owns → (m.withCpu c).Owns) := by
  have hkeep : m.KeepsStack (m.withCpu c) (m.cpu.reg .rsp) := keepsStack_cpu fun a _ => hcomputes.read a
  have hsp := hcomputes.kept .rsp (by decide)
  exact ⟨h.keep hm hsp hkeep, fun howns => howns.keep hm h hsp (hcomputes.kept _ (by decide)) hkeep⟩

namespace At

variable {i : Instr} {next : UInt64}

/-- Where control goes on after a piece, what the piece leads to is known. -/
theorem advance (h : m.At L x) (hq : x.piece? = some q) (hrip : c.rip = x.next.address)
    (hrunning : (m.withCpu c).Running x.lodged.session x.lodged.image)
    (hknows : (m.withCpu c).Knows L x.part.unit (q.next x.part.labelNotes x.note))
    (hprimed : x.next.Primed → c.reg .rdi = m.context) : (m.withCpu c).At L x.next where
  images := h.images
  lodged := h.lodged
  running := hrunning
  rip := hrip
  knows := hknows.fits (x.admits hq).2
  primed := hprimed

theorem advance_of_not_primes (h : m.At L x) (hq : x.piece? = some q) (hrip : c.rip = x.next.address)
    (hrunning : (m.withCpu c).Running x.lodged.session x.lodged.image)
    (hknows : (m.withCpu c).Knows L x.part.unit (q.next x.part.labelNotes x.note)) (hprimes : q.primes = false) :
    (m.withCpu c).At L x.next :=
  h.advance hq hrip hrunning hknows fun hp => absurd hp (x.not_primed_next hq hprimes)

theorem meets (h : m.At L x) {p : Phase} (hphase : x.note.phase = p) : m.Meets L x.part.unit p := hphase ▸ h.knows.1

/-- Code computes in its own frame. -/
theorem computes (h : m.At L x) (hq : x.piece? = some q) (hphase : x.note.phase = .body)
    (hcomputes : m.cpu.Computes c) (hrip : c.rip = x.next.address) {k : Content}
    (hnext : q.next x.part.labelNotes x.note = ⟨.body, k⟩) (hk : k.Holds c)
    (hprimed : x.next.Primed → c.reg .rdi = m.context) : (m.withCpu c).At L x.next := by
  obtain ⟨hbefore, hown⟩ := h.meets hphase
  obtain ⟨hinner, howns⟩ := hbefore.computes h.running hcomputes
  refine h.advance hq hrip (h.running.works (.of_computes hcomputes)) ?_ hprimed
  rw [hnext]
  exact ⟨⟨hinner, howns hown⟩, hk⟩

theorem quiet (h : m.At L x) (hq : x.piece? = some (.instr i)) (hphase : x.note.phase = .body) (hi : i.quiet = true)
    (hexecute : m.cpu.execute x.next.address i = some c) : (m.withCpu c).At L x.next := by
  obtain ⟨hcomputes, hrip, hregs⟩ := Cpu.execute_quiet hi hexecute
  have hnext : (Piece.instr i).next x.part.labelNotes x.note = ⟨.body, x.note.content.after i⟩ := by
    simp only [Piece.next, Piece.nextInstr, hphase]
    cases i <;> first | rfl | simp at hi
  refine h.computes hq hphase hcomputes hrip hnext (h.knows.2.after hi hexecute) fun hprimed => ?_
  -- The context is loaded, or the number of the stub after it.
  rcases x.primed_next hq hprimed with heq | ⟨hx, n, heq⟩
  · cases heq
    cases hexecute
    exact (Cpu.reg_setReg_self ..).trans h.running.context
  · cases heq
    exact (hregs .rdi (by decide) (show Reg.rdi ∉ [Reg.rax] by decide)).trans (h.primed hx)

theorem kept (h : m.At L x) {dst : Reg} {r : Register} (hq : x.piece? = some (.kept dst r)) (hdst : dst ≠ .rax)
    (hexecute : m.cpu.execute x.next.address (.mov .w64 dst .rax) = some c) : (m.withCpu c).At L x.next := by
  obtain ⟨hphase, hscratch, -⟩ := (x.admits hq).1
  have hquiet : (Instr.mov .w64 dst .rax).quiet = true := by
    simpa [known_of_mem_scratchRegs hscratch] using hscratch
  obtain ⟨hcomputes, hrip, hregs⟩ := Cpu.execute_quiet hquiet hexecute
  have hcontent := h.knows.2.congr hcomputes (hregs .rax (by decide) (by simpa using hdst.symm))
  refine h.computes hq hphase hcomputes hrip (k := x.note.content) (by rw [← hphase]; rfl) hcontent fun hp =>
    absurd hp (x.not_primed_next hq rfl)

/-- The address where a finally block comes back to is put into the accumulator. -/
theorem addresses (h : m.At L x) {dst : Reg} {l : Label} {w : UInt64} (hq : x.piece? = some (.address dst l))
    (hexecute : m.cpu.execute x.next.address (.movImm64 dst w) = some c) : (m.withCpu c).At L x.next := by
  obtain ⟨hphase, rfl, -⟩ := (x.admits hq).1
  obtain ⟨hcomputes, hrip, hregs⟩ := Cpu.execute_quiet (i := .movImm64 .rax w) (by rfl) hexecute
  refine h.computes hq hphase hcomputes hrip (k := .unknown) (by rw [← hphase]; rfl) trivial fun hp =>
    absurd hp (x.not_primed_next hq rfl)

theorem stores (h : m.At L x) {d : Int32} {src : Reg} (hq : x.piece? = some (.instr (.store frameReg d src)))
    (hphase : x.note.phase = .body) (hd : x.part.unit.Names d)
    (hexecute : m.cpu.execute x.next.address (.store frameReg d src) = some c) : (m.withCpu c).At L x.next := by
  obtain ⟨hinner, howns⟩ := h.meets hphase
  cases hexecute
  have hslot : m.OnRegisterStack (m.cpu.reg frameReg + X86.displacementWord d) := howns ▸ hinner.slots d hd
  have hworks := Works.of_write (d := m.cpu.jump x.next.address) ⟨rfl, fun _ _ => rfl⟩ hslot (m.cpu.reg src)
  have hbase := h.running.base
  have hkeep : m.KeepsStack _ (m.cpu.reg .rsp) := keepsStack_cpu fun a ha => hworks.memory a fun hon => by
    have := hon.2
    omega
  refine h.advance_of_not_primes hq rfl (h.running.works hworks) ?_ rfl
  · have hnext : (Piece.instr (.store frameReg d src)).next x.part.labelNotes x.note =
        ⟨.body, if src = .rax then .slot d else .unknown⟩ := by
      simp [Piece.next, Piece.nextInstr, hphase]
    rw [hnext]
    refine ⟨⟨hinner.keep h.running rfl hkeep, howns.keep h.running hinner rfl rfl hkeep⟩, ?_⟩
    dsimp only
    split
    · rename_i hsrc
      subst hsrc
      exact (Cpu.read_write_self ..).symm
    · trivial

theorem allocates (h : m.At L x) {src : Reg}
    (hq : x.piece? = some (.instr (.store contextReg Context.stackPointer src))) (hphase : x.note.phase = .body)
    (hexecute : m.cpu.execute x.next.address (.store contextReg Context.stackPointer src) = some c) :
    (m.withCpu c).At L x.next := by
  obtain ⟨hinner, howns⟩ := h.meets hphase
  cases hexecute
  set c := (m.cpu.jump x.next.address).write (m.cpu.reg contextReg + X86.displacementWord Context.stackPointer)
    (m.cpu.reg src) with hc
  have hread (a : UInt64) (ha : m.context + X86.displacementWord Context.stackPointer ≠ a) :
      c.read a = m.cpu.read a := by
    rw [hc, h.running.context]
    exact (Cpu.read_write ..).trans (if_neg ha)
  have hkeep : m.KeepsStack (m.withCpu c) (m.cpu.reg .rsp) := keepsStack_cpu fun a ha => hread a fun heq => by
    have hbase := h.running.base
    have hcontext := h.running.orderly.context
    have hbeyond : m.Beyond a := by
      rw [Beyond]
      omega
    exact hbeyond.ne_context (by decide) heq
  refine h.advance_of_not_primes hq rfl ?_ ?_ rfl
  · refine h.running.move rfl rfl (fun k hk => hread _ fun heq => ?_) h.running.base h.running.top
    have hk' := (UInt64.add_right_inj _).1 heq
    rw [← hk'] at hk
    revert hk
    decide
  · have hnext : (Piece.instr (.store contextReg Context.stackPointer src)).next x.part.labelNotes x.note = .any := by
      simp [Piece.next, Piece.nextInstr, hphase, Note.any, show contextReg ≠ frameReg by decide]
    rw [hnext]
    exact ⟨⟨hinner.keep h.running rfl hkeep, howns.keep h.running hinner rfl rfl hkeep⟩, trivial⟩

end At

end Machine

end RegisterJit
