import RegisterJit.Proofs.Coverage
import RegisterJit.Proofs.State

/-!
# Exceptions reach their handlers

The native stack holds, from the top, a return address and a frame for each call under way. Delivering
an exception follows it: a return address finds the code of the call, and the address before it the
handler that covers the instruction. So the exception goes to the innermost call that lies in the
region of a handler, and to the first such handler, and leaves the run if there is none.

`Machine.Underway` is a run as far as the native stack is concerned: the host enters a function, code works and
is served stubs, calls, returns, and is unwound. `Underway.inside` is the invariant, one lemma for each kind of
step, and `Inside.leaves` gets from it the stack that the host finds when code leaves for a stub, as a list of
active calls. `Leaving` shows that emitted code takes these steps. `deliverFrom_covered` and
`deliverFrom_uncovered` then follow the walk of the runtime down that list by induction; where it ends,
`enterHandler_eq` and `suspended_of_writes` say what the handler is given and that code goes on after its
region. `exceptions_reach_handlers` is the whole, and its witness passes over an inner call that no region
covers.
-/

namespace RegisterJit

namespace Session

/-- An image of programs that compiled, in one piece of the address space. -/
structure PlacedIn (s : Session) (image : Image) : Prop where
  compiled : ∃ programs, Compiled programs s
  linked : ∃ (α : Type) (allocator : α) (allocate : α → Int → Except AllocationError UInt64 × α),
    (s.link allocator allocate).result = .ok image
  small : ∀ c ∈ s.programs.toList, c.unit.code.data.size < 2 ^ 32
  room : image.base.toNat + s.size < 2 ^ 64

variable {s : Session} {image : Image}

theorem PlacedIn.placed (h : s.PlacedIn image) : ∃ parts, s.Placed parts image := by
  obtain ⟨programs, hcompiled⟩ := h.compiled
  obtain ⟨parts, -, hcomp, hshapes, -, hranked⟩ := hcompiled.comprises
  obtain ⟨α, allocator, allocate, hlink⟩ := h.linked
  refine ⟨parts, hcomp, hshapes, ⟨_, hranked⟩, (hcomp.laid.linked hlink).2, fun p hp => ?_, h.room⟩
  obtain ⟨before, after, hparts⟩ := List.append_of_mem hp
  refine h.small ⟨p.unit, Piece.endFrom start.size (Part.code (before ++ [p]))⟩ ?_
  rw [show s.programs.toList = _ from hcomp.gains.programs]
  exact Part.mem_programsFrom.2 ⟨before, p, after, hparts, rfl⟩

end Session

/-- A call under way: the image it runs in, the session that compiled it, its unit, the word offset
of the instruction that it has reached, and its frame. -/
structure ActiveCall where
  image : Image
  session : Session
  unit : CompiledUnit
  offset : UInt32
  frame : Run.FrameRef

namespace ActiveCall

def handler? (c : ActiveCall) : Option Handler := c.unit.unit.code.handlerOf? c.offset

/-- A call has reached an instruction that made a call itself, which returns to `ra`. -/
structure Waits (c : ActiveCall) (m : Machine) (ra : UInt64) : Prop where
  loaded : ∃ img ∈ m.images.toList, img.toImage = c.image
  placed : c.session.PlacedIn c.image
  mem : c.unit ∈ c.session.programs.toList
  calls : ∃ place, c.session.Calls c.unit.unit.key c.offset place ∧
    ra = c.image.base + place.toUInt64
  frame : m.OnRegisterStack (c.frame + X86.displacementWord Frame.lexicalEnv)

/-- The address at which a call goes on after a handler's region. -/
def Resumes (c : ActiveCall) (h : Handler) (target : UInt64) : Prop :=
  ∃ place, c.session.Starts c.unit h.stop place ∧ target = c.image.base + place.toUInt64

end ActiveCall

namespace Machine

def withCpu (m : Machine) (c : X86.Cpu) : Machine := { m with cpu := c }

@[simp] theorem withCpu_cpu (m : Machine) (c : X86.Cpu) : (m.withCpu c).cpu = c := rfl

@[simp] theorem withCpu_self (m : Machine) : m.withCpu m.cpu = m := rfl

@[simp] theorem withCpu_withCpu (m : Machine) (c d : X86.Cpu) : (m.withCpu c).withCpu d = m.withCpu d := rfl

/-- A machine whose regions follow one another, with images that do not overlap. -/
structure Orderly (m : Machine) : Prop where
  images : ∀ a ∈ m.images.toList, ∀ b ∈ m.images.toList, ∀ pc, a.contains pc = true →
    b.contains pc = true → a = b
  context : m.context.toNat + pageSize ≤ m.nativeBase.toNat
  native : m.nativeEnd.toNat + 16 < 2 ^ 64

theorem Orderly.congr {m m' : Machine} (h : m.Orderly) (himages : m'.images = m.images)
    (hcontext : m'.context = m.context) (hbase : m'.nativeBase = m.nativeBase)
    (hend : m'.nativeEnd = m.nativeEnd) : m'.Orderly where
  images := by rw [himages]; exact h.images
  context := by rw [hcontext, hbase]; exact h.context
  native := by rw [hend]; exact h.native

/-- The calls under way that the native stack shows from `sp` on, the innermost first. Each has its
return address on the stack with its caller's frame two words above. -/
inductive NativeStack (m : Machine) : UInt64 → Run.FrameRef → List ActiveCall → Prop
  | entered {sp : UInt64} {frame : Run.FrameRef} {img : LoadedImage}
      (base : m.nativeBase.toNat ≤ sp.toNat) (top : sp.toNat + 8 ≤ m.nativeEnd.toNat)
      (image : m.imageOf (m.readWord sp) = some img) (site : m.readWord sp = img.returnSite) :
      NativeStack m sp frame []
  | call {sp : UInt64} {c : ActiveCall} {rest : List ActiveCall}
      (base : m.nativeBase.toNat ≤ sp.toNat) (top : sp.toNat + 8 ≤ m.nativeEnd.toNat)
      (waits : c.Waits m (m.readWord sp))
      (callers : NativeStack m (sp + 16) (m.readWord (sp + 24)) rest) :
      NativeStack m sp c.frame (c :: rest)

variable {m : Machine}

theorem NativeStack.length_le {sp : UInt64} {frame : Run.FrameRef} {calls : List ActiveCall}
    (hm : m.Orderly) (h : m.NativeStack sp frame calls) :
    m.nativeBase.toNat ≤ sp.toNat ∧ sp.toNat + 16 * calls.length + 8 ≤ m.nativeEnd.toNat := by
  have hnative := hm.native
  induction h with
  | entered base top => exact ⟨base, by simpa using top⟩
  | call base top _ _ ih =>
    refine ⟨base, ?_⟩
    have hsp : ∀ sp : UInt64, sp.toNat + 8 ≤ m.nativeEnd.toNat → (sp + 16).toNat = sp.toNat + 16 := by
      intro sp hsp
      rw [UInt64.toNat_add, show UInt64.toNat 16 = 16 from rfl, Nat.mod_eq_of_lt (by omega)]
    have hcallers := ih.2
    rw [hsp _ top] at hcallers
    rw [List.length_cons]
    omega

theorem imageOf_eq (hm : m.Orderly) {img : LoadedImage} (hmem : img ∈ m.images.toList) {pc : UInt64}
    (hpc : img.contains pc = true) : m.imageOf pc = some img := by
  rw [imageOf, ← Array.find?_toList]
  cases hfind : m.images.toList.find? fun img => img.contains pc with
  | none => exact absurd hpc (List.find?_eq_none.1 hfind img hmem)
  | some img' =>
    have hpc' : img'.contains pc = true := by simpa using List.find?_some hfind
    rw [hm.images img' (List.mem_of_find?_eq_some hfind) img hmem pc hpc' hpc]

end Machine

/-! ## The native stack of a run -/

open X86 (Reg)

namespace X86.Cpu

/-- A word was pushed, and a jump made perhaps. -/
structure Pushed (c : Cpu) (w : UInt64) (d : Cpu) : Prop where
  sp : d.reg .rsp = c.reg .rsp - 8
  regs : ∀ r : Reg, Reg.rsp.slot ≠ r.slot → d.reg r = c.reg r
  read : ∀ b, d.read b = if c.reg .rsp - 8 = b then w else c.read b

variable {c d : Cpu} {next : UInt64}

theorem pushed_push {r : Reg} (h : c.execute next (.push r) = some d) : c.Pushed (c.reg r) d := by
  cases h
  exact ⟨reg_setReg_self .., fun r hr => reg_setReg_of_ne _ _ hr, fun b => read_write ..⟩

theorem execute_pop_ret {e : Cpu} {next' : UInt64} (hpop : c.execute next (.pop .rcx) = some d)
    (hret : d.execute next' .ret = some e) : e.reg .rsp = c.reg .rsp + 8 + 8 ∧ ∀ b, e.read b = c.read b := by
  cases hpop
  cases hret
  have hne : Reg.rcx.slot ≠ Reg.rsp.slot := by decide
  exact ⟨by simp [reg_setReg, hne], fun b => rfl⟩

theorem pushed_callReg {r : Reg} (h : c.execute next (.callReg r) = some d) : c.Pushed next d := by
  cases h
  exact ⟨reg_setReg_self .., fun r hr => reg_setReg_of_ne _ _ hr, fun b => read_write ..⟩

theorem pushed_callMem {r : Reg} {disp : Int32} (h : c.execute next (.callMem r disp) = some d) : c.Pushed next d := by
  cases h
  exact ⟨reg_setReg_self .., fun r hr => reg_setReg_of_ne _ _ hr, fun b => read_write ..⟩

end X86.Cpu

namespace Machine

variable {m m' : Machine} {sp : UInt64} {frame frame' : Run.FrameRef} {calls : List ActiveCall} {c : ActiveCall}

/-- A machine with the same images and regions, whose native stack is the same from an address on. -/
structure KeepsStack (m m' : Machine) (sp : UInt64) : Prop where
  images : m'.images = m.images
  context : m'.context = m.context
  nativeBase : m'.nativeBase = m.nativeBase
  nativeEnd : m'.nativeEnd = m.nativeEnd
  stack : ∀ a, sp.toNat ≤ a.toNat → a.toNat < m.nativeEnd.toNat → m'.readWord a = m.readWord a

theorem KeepsStack.mono (h : m.KeepsStack m' sp) {a : UInt64} (ha : sp.toNat ≤ a.toNat) : m.KeepsStack m' a :=
  { h with stack := fun b hb => h.stack b (ha.trans hb) }

theorem KeepsStack.orderly (h : m.KeepsStack m' sp) (hm : m.Orderly) : m'.Orderly :=
  hm.congr h.images h.context h.nativeBase h.nativeEnd

theorem KeepsStack.waits (h : m.KeepsStack m' sp) {ra : UInt64} (hc : c.Waits m ra) : c.Waits m' ra :=
  { hc with
    loaded := h.images ▸ hc.loaded
    frame := by
      rw [OnRegisterStack, Beyond, h.context, h.nativeBase]
      exact hc.frame }

theorem toNat_add_eight (hm : m.Orderly) (h : sp.toNat ≤ m.nativeEnd.toNat) : (sp + 8).toNat = sp.toNat + 8 := by
  have hnative := hm.native
  rw [UInt64.toNat_add, show UInt64.toNat 8 = 8 from rfl, Nat.mod_eq_of_lt (by omega)]

theorem toNat_add_sixteen (hm : m.Orderly) (h : sp.toNat ≤ m.nativeEnd.toNat) :
    (sp + 16).toNat = sp.toNat + 16 := by
  have hnative := hm.native
  rw [UInt64.toNat_add, show UInt64.toNat 16 = 16 from rfl, Nat.mod_eq_of_lt (by omega)]

theorem sixteen_mul_succ (n : Nat) : 16 * (n + 1).toUInt64 = 16 + 16 * n.toUInt64 := by
  rw [Nat.toUInt64_eq, Nat.toUInt64_eq, UInt64.ofNat_add, UInt64.mul_add, UInt64.add_comm]
  rfl

theorem toNat_sub_eight {a : UInt64} (h : 8 ≤ a.toNat) : (a - 8).toNat = a.toNat - 8 := by
  rw [UInt64.toNat_sub_of_le _ _ (UInt64.le_iff_toNat_le.2 (show UInt64.toNat 8 ≤ _ from h))]
  rfl

/-- Below the calls that it shows, the native stack may change. -/
theorem NativeStack.keep (hm : m.Orderly) (h : m.NativeStack sp frame calls) (hkeep : m.KeepsStack m' sp)
    (hframe : calls ≠ [] → frame' = frame) : m'.NativeStack sp frame' calls := by
  induction h generalizing frame' with
  | @entered sp frame img base top image site =>
    have hword := hkeep.stack sp (Nat.le_refl _) (by omega)
    refine .entered (hkeep.nativeBase ▸ base) (hkeep.nativeEnd ▸ top) ?_ (hword.trans site)
    rw [imageOf, hkeep.images, hword]
    exact image
  | @call sp c rest base top waits callers ih =>
    obtain rfl := hframe (List.cons_ne_nil _ _)
    have hword := hkeep.stack sp (Nat.le_refl _) (by omega)
    have hnext := toNat_add_sixteen hm (Nat.le_of_add_right_le top)
    refine .call (hkeep.nativeBase ▸ base) (hkeep.nativeEnd ▸ top) (hword ▸ hkeep.waits waits) ?_
    refine ih (hkeep.mono (by omega)) fun hrest => hkeep.stack _ ?_ ?_
    all_goals
      have hlength := (callers.length_le hm).2
      have hpos := List.length_pos_iff.2 hrest
      rw [UInt64.toNat_add, show UInt64.toNat 24 = 24 from rfl, Nat.mod_eq_of_lt (by have := hm.native; omega)]
      omega

/-- Compiled code runs in a frame while calls wait for it, the innermost first. It has pushed its frame; the return
address to the innermost call is above it, with the frame of that call. -/
structure Inside (m : Machine) (frame : Run.FrameRef) (calls : List ActiveCall) : Prop where
  orderly : m.Orderly
  base : m.nativeBase.toNat ≤ (m.cpu.reg .rsp).toNat
  top : (m.cpu.reg .rsp).toNat + 16 ≤ m.nativeEnd.toNat
  pushed : m.readWord (m.cpu.reg .rsp) = frame
  callers : m.NativeStack (m.cpu.reg .rsp + 8) (m.readWord (m.cpu.reg .rsp + 16)) calls

/-- What a run does to the native stack. The host enters a function by a call, after the frame was pushed, and every
function pushes its frame first. Code computes and is served stubs, which leaves the native stack alone; it calls
functions in other frames, and functions return. -/
inductive Underway : Machine → Run.FrameRef → List ActiveCall → Prop
  | enter {m : Machine} {img : LoadedImage} {next next' : UInt64} {c₁ c₂ c₃ : X86.Cpu} (orderly : m.Orderly)
      (base : m.nativeBase.toNat + 24 ≤ (m.cpu.reg .rsp).toNat) (top : (m.cpu.reg .rsp).toNat ≤ m.nativeEnd.toNat)
      (image : m.imageOf img.returnSite = some img) (frame : m.cpu.execute next (.push frameReg) = some c₁)
      (call : c₁.execute img.returnSite (.callReg .rdx) = some c₂)
      (push : c₂.execute next' (.push frameReg) = some c₃) : Underway (m.withCpu c₃) (m.cpu.reg frameReg) []
  | work {m m' : Machine} {frame : Run.FrameRef} {calls : List ActiveCall} (h : Underway m frame calls)
      (sp : m'.cpu.reg .rsp = m.cpu.reg .rsp) (keeps : m.KeepsStack m' (m.cpu.reg .rsp)) : Underway m' frame calls
  | call {m : Machine} {c : ActiveCall} {calls : List ActiveCall} {ra next : UInt64} {c₁ c₂ : X86.Cpu}
      (h : Underway m c.frame calls) (room : m.nativeBase.toNat + 16 ≤ (m.cpu.reg .rsp).toNat) (waits : c.Waits m ra)
      (call : m.cpu.execute ra (.callMem frameReg Frame.entry) = some c₁)
      (push : c₁.execute next (.push frameReg) = some c₂) :
      Underway (m.withCpu c₂) (m.cpu.reg frameReg) (c :: calls)
  | ret {m : Machine} {frame : Run.FrameRef} {c : ActiveCall} {calls : List ActiveCall} {next next' : UInt64}
      {c₁ c₂ : X86.Cpu} (h : Underway m frame (c :: calls)) (pop : m.cpu.execute next (.pop .rcx) = some c₁)
      (ret : c₁.execute next' .ret = some c₂) : Underway (m.withCpu c₂) c.frame calls
  | unwind {m m' : Machine} {frame : Run.FrameRef} {inner outer : List ActiveCall} {c : ActiveCall}
      (h : Underway m frame (inner ++ c :: outer))
      (sp : m'.cpu.reg .rsp = m.cpu.reg .rsp + 16 + 16 * inner.length.toUInt64)
      (keeps : m.KeepsStack m' (m'.cpu.reg .rsp)) : Underway m' c.frame outer

/-- Code of a call leaves for a stub: the return address of this call of a stub is pushed, and the stack pointer and the
frame are parked in the context. -/
structure Leaves (m : Machine) (c : ActiveCall) (m' : Machine) : Prop where
  room : m.nativeBase.toNat + 8 ≤ (m.cpu.reg .rsp).toNat
  waits : c.Waits m (m'.readWord (m.cpu.reg .rsp - 8))
  sp : m'.contextWord Context.nativeSP = m.cpu.reg .rsp - 8
  frame : m'.frame = c.frame
  keeps : m.KeepsStack m' (m.cpu.reg .rsp)

theorem keepsStack_cpu {d : X86.Cpu} (h : ∀ a : UInt64, sp.toNat ≤ a.toNat → d.read a = m.cpu.read a) :
    m.KeepsStack (m.withCpu d) sp := ⟨rfl, rfl, rfl, rfl, fun a ha _ => h a ha⟩

/-- A call puts its return address and the frame of the callee below what is on the stack. -/
theorem Inside.call {ra : UInt64} (h : m.Inside c.frame calls) (room : m.nativeBase.toNat + 16 ≤ (m.cpu.reg .rsp).toNat)
    (waits : c.Waits m ra) {d : X86.Cpu} (hsp : d.reg .rsp = m.cpu.reg .rsp - 8 - 8)
    (hframe : d.read (m.cpu.reg .rsp - 8 - 8) = frame') (hra : d.read (m.cpu.reg .rsp - 8) = ra)
    (hread : ∀ a : UInt64, (m.cpu.reg .rsp).toNat ≤ a.toNat → d.read a = m.cpu.read a) :
    (m.withCpu d).Inside frame' (c :: calls) := by
  obtain ⟨hm, -, htop, hpushed, hcallers⟩ := h
  generalize hstack : m.cpu.reg .rsp = sp at *
  have hkeep : m.KeepsStack (m.withCpu d) sp := keepsStack_cpu hread
  have hbelow : (sp - 8).toNat = sp.toNat - 8 := toNat_sub_eight (by omega)
  have hbelow' : (sp - 8 - 8).toNat = (sp - 8).toNat - 8 := toNat_sub_eight (by omega)
  have hnext : (sp + 16).toNat = sp.toNat + 16 := toNat_add_sixteen hm (by omega)
  have hup : sp - 8 - 8 + 8 = sp - 8 ∧ sp - 8 - 8 + 16 = sp ∧ sp - 8 + 16 = sp + 8 ∧ sp - 8 + 24 = sp + 16 := by grind
  have hframes : (m.withCpu d).readWord (sp + 16) = m.readWord (sp + 16) := hread _ (by omega)
  have hstack' : (m.withCpu d).NativeStack (sp - 8) c.frame (c :: calls) := by
    have hword : (m.withCpu d).readWord (sp - 8) = ra := hra
    refine .call (show m.nativeBase.toNat ≤ _ by omega) (show _ ≤ m.nativeEnd.toNat by omega)
      (by rw [hword]; exact hkeep.waits waits) ?_
    rw [hup.2.2.1, hup.2.2.2]
    exact hcallers.keep hm (hkeep.mono (by rw [toNat_add_eight hm (by omega)]; omega)) fun _ => hframes
  have hsp' : (m.withCpu d).cpu.reg .rsp = sp - 8 - 8 := hsp
  refine ⟨hkeep.orderly hm, ?_, ?_, ?_, ?_⟩ <;> rw [hsp']
  · change m.nativeBase.toNat ≤ _
    omega
  · change _ ≤ m.nativeEnd.toNat
    omega
  · exact hframe
  · rw [hup.1, hup.2.1, show (m.withCpu d).readWord sp = c.frame from (hread sp (Nat.le_refl _)).trans hpushed]
    exact hstack'

theorem Inside.work (h : m.Inside frame calls) (hsp : m'.cpu.reg .rsp = m.cpu.reg .rsp)
    (hkeep : m.KeepsStack m' (m.cpu.reg .rsp)) : m'.Inside frame calls := by
  obtain ⟨hm, hbase, htop, hpushed, hcallers⟩ := h
  generalize m.cpu.reg .rsp = sp at *
  have hup : (sp + 8).toNat = sp.toNat + 8 := toNat_add_eight hm (by omega)
  have hnext : (sp + 16).toNat = sp.toNat + 16 := toNat_add_sixteen hm (by omega)
  refine ⟨hkeep.orderly hm, ?_, ?_, ?_, ?_⟩ <;> rw [hsp]
  · rwa [hkeep.nativeBase]
  · rwa [hkeep.nativeEnd]
  · exact (hkeep.stack sp (Nat.le_refl _) (by omega)).trans hpushed
  · refine hcallers.keep hm (hkeep.mono (by omega)) fun hcalls => hkeep.stack _ (by omega) ?_
    have hlength := (hcallers.length_le hm).2
    have hpos := List.length_pos_iff.2 hcalls
    omega

theorem Inside.ret (h : m.Inside frame (c :: calls)) {d : X86.Cpu} (hsp : d.reg .rsp = m.cpu.reg .rsp + 8 + 8)
    (hread : ∀ a, d.read a = m.cpu.read a) : (m.withCpu d).Inside c.frame calls := by
  obtain ⟨hm, hbase, htop, -, hcallers⟩ := h
  generalize m.cpu.reg .rsp = sp at *
  have hkeep : m.KeepsStack (m.withCpu d) 0 := keepsStack_cpu fun a _ => hread a
  have hword (a : UInt64) : (m.withCpu d).readWord a = m.readWord a := hread a
  have hsp' : (m.withCpu d).cpu.reg .rsp = sp + 16 := hsp.trans (by grind)
  have hup : sp + 8 + 16 = sp + 16 + 8 ∧ sp + 8 + 24 = sp + 16 + 16 := by grind
  have hnext : (sp + 16).toNat = sp.toNat + 16 := toNat_add_sixteen hm (by omega)
  generalize hframe : m.readWord (sp + 16) = frame' at hcallers
  cases hcallers with
  | call _ _ _ hcallers =>
    rw [hup.1, hup.2] at hcallers
    have hrest := (hcallers.length_le hm).2
    rw [toNat_add_eight hm (by omega)] at hrest
    refine ⟨hkeep.orderly hm, ?_, ?_, ?_, ?_⟩ <;> rw [hsp']
    · change m.nativeBase.toNat ≤ _
      omega
    · change _ ≤ m.nativeEnd.toNat
      omega
    · rw [hword, hframe]
    · exact hcallers.keep hm (hkeep.mono (Nat.zero_le _)) fun _ => hword _

theorem Inside.unwind {inner outer : List ActiveCall} (h : m.Inside frame (inner ++ c :: outer)) {d : X86.Cpu}
    (hsp : d.reg .rsp = m.cpu.reg .rsp + 16 + 16 * inner.length.toUInt64) (hread : ∀ a, d.read a = m.cpu.read a) :
    (m.withCpu d).Inside c.frame outer := by
  induction inner generalizing m frame with
  | nil =>
    refine h.ret (hsp.trans ?_) hread
    rw [List.length_nil, show (0 : Nat).toUInt64 = 0 from rfl]
    grind
  | cons e inner ih =>
    have hret := h.ret (d := m.cpu.setReg .rsp (m.cpu.reg .rsp + 8 + 8)) (X86.Cpu.reg_setReg_self ..) fun a => rfl
    rw [← withCpu_withCpu m (m.cpu.setReg .rsp (m.cpu.reg .rsp + 8 + 8)) d]
    refine ih hret ?_ hread
    rw [hsp, withCpu_cpu, X86.Cpu.reg_setReg_self, List.length_cons, sixteen_mul_succ]
    grind

/-- A run keeps the return addresses and frames of the calls that wait on the native stack. -/
theorem Underway.inside (h : Underway m frame calls) : m.Inside frame calls := by
  have hframe : Reg.rsp.slot ≠ frameReg.slot := by decide
  induction h with
  | @enter m img next next' c₁ c₂ c₃ orderly base top image frame call push =>
    have h₁ := X86.Cpu.pushed_push frame
    have h₂ := X86.Cpu.pushed_callReg call
    have h₃ := X86.Cpu.pushed_push push
    have hregs : c₂.reg frameReg = m.cpu.reg frameReg := (h₂.regs _ hframe).trans (h₁.regs _ hframe)
    have hsp : (m.withCpu c₃).cpu.reg .rsp = m.cpu.reg .rsp - 8 - 8 - 8 := by
      rw [withCpu_cpu, h₃.sp, h₂.sp, h₁.sp]
    have hbelow := toNat_sub_eight (a := m.cpu.reg .rsp) (by omega)
    have hbelow' := toNat_sub_eight (a := m.cpu.reg .rsp - 8) (by omega)
    have hbelow'' := toNat_sub_eight (a := m.cpu.reg .rsp - 8 - 8) (by omega)
    have hsite : (m.withCpu c₃).readWord (m.cpu.reg .rsp - 8 - 8) = img.returnSite := by
      refine (h₃.read _).trans ?_
      rw [h₂.sp, h₁.sp, if_neg fun heq => by rw [heq] at hbelow''; omega, h₂.read, h₁.sp, if_pos rfl]
    refine ⟨orderly.congr rfl rfl rfl rfl, ?_, ?_, ?_, ?_⟩ <;> rw [hsp]
    · change m.nativeBase.toNat ≤ _
      omega
    · change _ ≤ m.nativeEnd.toNat
      omega
    · refine (h₃.read _).trans ?_
      rw [h₂.sp, h₁.sp, if_pos rfl, hregs]
    · rw [UInt64.sub_add_cancel]
      refine .entered (show m.nativeBase.toNat ≤ _ by omega) (show _ ≤ m.nativeEnd.toNat by omega) ?_ hsite
      rw [hsite]
      exact image
  | work h sp keeps ih => exact ih.work sp keeps
  | @call m c calls ra next c₁ c₂ h room waits call push ih =>
    have h₁ := X86.Cpu.pushed_callMem call
    have h₂ := X86.Cpu.pushed_push push
    have hbelow := toNat_sub_eight (a := m.cpu.reg .rsp) (by omega)
    have hbelow' := toNat_sub_eight (a := m.cpu.reg .rsp - 8) (by omega)
    refine ih.call room waits (by rw [h₂.sp, h₁.sp]) ?_ ?_ fun a ha => ?_
    · rw [h₂.read, h₁.sp, if_pos rfl, h₁.regs _ hframe]
    · rw [h₂.read, h₁.sp, if_neg fun heq => by rw [heq] at hbelow'; omega, h₁.read, if_pos rfl]
    · rw [h₂.read, h₁.sp, if_neg fun heq => by rw [← heq] at ha; omega, h₁.read,
        if_neg fun heq => by rw [← heq] at ha; omega]
  | @ret m frame c calls next next' c₁ c₂ h pop ret ih =>
    obtain ⟨hsp, hread⟩ := X86.Cpu.execute_pop_ret pop ret
    exact ih.ret hsp hread
  | @unwind m m' frame inner outer c h sp keeps ih =>
    refine (ih.unwind (d := m.cpu.setReg .rsp (m'.cpu.reg .rsp)) ((X86.Cpu.reg_setReg_self ..).trans sp)
      fun a => rfl).work ?_ ?_
    · rw [withCpu_cpu, X86.Cpu.reg_setReg_self]
    · rw [withCpu_cpu, X86.Cpu.reg_setReg_self]
      exact ⟨keeps.images, keeps.context, keeps.nativeBase, keeps.nativeEnd, keeps.stack⟩

theorem Inside.leaves (h : m.Inside c.frame calls) (hleaves : m.Leaves c m') :
    m'.Orderly ∧ m'.NativeStack (m'.contextWord Context.nativeSP) m'.frame (c :: calls) := by
  obtain ⟨hm, -, htop, -, hcallers⟩ := h
  obtain ⟨hroom, hwaits, hsp, hframe, hkeep⟩ := hleaves
  rw [hsp, hframe]
  generalize m.cpu.reg .rsp = sp at *
  have hbelow : (sp - 8).toNat = sp.toNat - 8 := toNat_sub_eight (by omega)
  have hup : sp - 8 + 16 = sp + 8 ∧ sp - 8 + 24 = sp + 16 := by grind
  have hnext : (sp + 8).toNat = sp.toNat + 8 := toNat_add_eight hm (by omega)
  have hnext' : (sp + 16).toNat = sp.toNat + 16 := toNat_add_sixteen hm (by omega)
  have hbase := hkeep.nativeBase
  have hend := hkeep.nativeEnd
  refine ⟨hkeep.orderly hm, .call (by rw [hbase]; omega) (by rw [hend]; omega) (hkeep.waits hwaits) ?_⟩
  rw [hup.1, hup.2]
  refine hcallers.keep hm (hkeep.mono (by omega)) fun hcalls => hkeep.stack _ (by omega) ?_
  have hlength := (hcallers.length_le hm).2
  have hpos := List.length_pos_iff.2 hcalls
  omega

end Machine

/-! ## Following the native stack -/

/-- What the return address of a call under way finds. -/
theorem ActiveCall.Waits.found {c : ActiveCall} {m : Machine} {ra : UInt64} (hm : m.Orderly)
    (h : c.Waits m ra) :
    ∃ img u, m.imageOf ra = some img ∧ ra ≠ img.returnSite ∧ img.lookup ra = some u ∧
      u.unit = c.unit.unit ∧
      match c.handler? with
      | none => u.handlerAt? (ra - 1) = none
      | some hd => ∃ target, c.Resumes hd target ∧ u.handlerAt? (ra - 1) = some (hd, target) := by
  obtain ⟨parts, hplaced⟩ := h.placed.placed
  obtain ⟨img, himg, himage⟩ := h.loaded
  obtain ⟨place, hcalls, rfl⟩ := h.calls
  obtain ⟨u, hu, hunit⟩ := hplaced.exists_placed h.mem
  obtain ⟨hinside, -, hsite⟩ := hplaced.call_inside hcalls
  obtain ⟨hlookup, hhandler⟩ := hplaced.call_covered h.mem hu hunit hcalls
  refine ⟨img, u, Machine.imageOf_eq hm himg (by rw [himage]; exact hinside),
    by rw [himage]; exact hsite, by rw [himage]; exact hlookup, hunit, ?_⟩
  rw [handler?]
  cases hhd : c.unit.unit.code.handlerOf? c.offset with
  | none =>
    rw [hhd] at hhandler
    exact hhandler
  | some hd =>
    rw [hhd] at hhandler
    obtain ⟨stop, hstarts, hfound⟩ := hhandler
    exact ⟨_, ⟨stop, hstarts, rfl⟩, hfound⟩

namespace Run

/-- An exception is given to the handler that a call lies in, with the native stack down to `sp`. -/
structure HandedTo (v : Value) (w : World) (sp : UInt64) (c : ActiveCall) (h : Handler)
    (r : EStateM.Result Fault World UInt64) : Prop where
  base : w.machine.nativeBase.toNat ≤ sp.toNat
  frame : w.machine.OnRegisterStack (c.frame + X86.displacementWord Frame.lexicalEnv)
  entered : ∃ u target, u.unit = c.unit.unit ∧ c.Resumes h target ∧
    r = enterHandler v sp c.frame u h target w

variable (v : Value) (message : Text) (w : World)

/-- The search, as a function of the state. -/
theorem deliverFrom_succ (fuel : Nat) (sp : UInt64) (frame : FrameRef) {img : LoadedImage}
    (himg : w.machine.imageOf (w.machine.readWord sp) = some img) :
    deliverFrom v message (fuel + 1) sp frame w =
      if w.machine.readWord sp = img.returnSite then .error (.thrown v message) w
      else
        match img.lookup (w.machine.readWord sp) with
        | none => .error (.failure (Text.ofString "unwind: no code at " ++
            addressText (w.machine.readWord sp))) w
        | some p =>
          match p.handlerAt? (w.machine.readWord sp - 1) with
          | some (h, target) => enterHandler v sp frame p h target w
          | none => deliverFrom v message fuel (sp + 16) (w.machine.readWord (sp + 24)) w := by
  rw [deliverFrom, bind_ok (machine_run w)]
  dsimp only
  rw [himg]
  dsimp only
  split
  · rfl
  · cases img.lookup (w.machine.readWord sp) with
    | none => rfl
    | some p =>
      dsimp only
      cases p.handlerAt? (w.machine.readWord sp - 1) <;> rfl

variable {v message w}

/-- When no call under way lies in the region of a handler, the exception leaves the run. -/
theorem deliverFrom_uncovered (hm : w.machine.Orderly) {sp : UInt64} {frame : FrameRef}
    {calls : List ActiveCall} (hstack : w.machine.NativeStack sp frame calls)
    (hnone : ∀ c ∈ calls, c.handler? = none) {fuel : Nat} (hfuel : calls.length < fuel) :
    deliverFrom v message fuel sp frame w = .error (.thrown v message) w := by
  obtain ⟨fuel, rfl⟩ : ∃ n, fuel = n + 1 := ⟨fuel - 1, by omega⟩
  induction hstack generalizing fuel with
  | entered _ _ himg hsite => rw [deliverFrom_succ _ _ _ _ _ _ himg, if_pos hsite]
  | @call sp c rest _ _ hwaits _ ih =>
    obtain ⟨img, u, himg, hsite, hlookup, hunit, hhandler⟩ := hwaits.found hm
    rw [hnone c (List.mem_cons_self ..)] at hhandler
    rw [deliverFrom_succ _ _ _ _ _ _ himg, if_neg hsite, hlookup]
    dsimp only
    rw [hhandler]
    obtain ⟨fuel, rfl⟩ : ∃ n, fuel = n + 1 := ⟨fuel - 1, by rw [List.length_cons] at hfuel; omega⟩
    exact ih (fun d hd => hnone d (List.mem_cons_of_mem _ hd)) fuel
      (by rw [List.length_cons] at hfuel; omega)

theorem exists_first {calls : List ActiveCall} (h : ¬∀ c ∈ calls, c.handler? = none) :
    ∃ inner c outer, calls = inner ++ c :: outer ∧ c.handler? ≠ none ∧
      ∀ d ∈ inner, d.handler? = none := by
  induction calls with
  | nil => simp at h
  | cons c calls ih =>
    by_cases hc : c.handler? = none
    · obtain ⟨inner, d, outer, rfl, hd, hinner⟩ := ih fun h' => h (List.forall_mem_cons.2 ⟨hc, h'⟩)
      exact ⟨c :: inner, d, outer, rfl, hd, List.forall_mem_cons.2 ⟨hc, hinner⟩⟩
    · exact ⟨[], c, calls, rfl, hc, by simp⟩

/-- Otherwise it is given to the innermost call that does, and to the first such handler. -/
theorem deliverFrom_covered (hm : w.machine.Orderly) {sp : UInt64} {frame : FrameRef}
    {inner outer : List ActiveCall} {c : ActiveCall}
    (hstack : w.machine.NativeStack sp frame (inner ++ c :: outer))
    (hnone : ∀ d ∈ inner, d.handler? = none) {h : Handler} (hh : c.handler? = some h) {fuel : Nat}
    (hfuel : inner.length < fuel) {r : EStateM.Result Fault World UInt64}
    (hr : deliverFrom v message fuel sp frame w = r) :
    HandedTo v w (sp + 16 * inner.length.toUInt64) c h r := by
  induction inner generalizing sp frame fuel with
  | nil =>
    obtain ⟨fuel, rfl⟩ : ∃ n, fuel = n + 1 := ⟨fuel - 1, by simp at hfuel; omega⟩
    cases hstack with
    | call base _ hwaits _ =>
      obtain ⟨img, u, himg, hsite, hlookup, hunit, hhandler⟩ := hwaits.found hm
      rw [hh] at hhandler
      obtain ⟨target, hresumes, hfound⟩ := hhandler
      rw [deliverFrom_succ _ _ _ _ _ _ himg, if_neg hsite, hlookup] at hr
      dsimp only at hr
      rw [hfound] at hr
      have hsp : sp + 16 * ([] : List ActiveCall).length.toUInt64 = sp := by simp
      rw [hsp]
      exact ⟨base, hwaits.frame, u, target, hunit, hresumes, hr.symm⟩
  | cons d inner ih =>
    rw [List.length_cons] at hfuel
    obtain ⟨fuel, rfl⟩ : ∃ n, fuel = n + 1 := ⟨fuel - 1, by omega⟩
    cases hstack with
    | call _ _ hwaits hcallers =>
      obtain ⟨img, u, himg, hsite, hlookup, -, hhandler⟩ := hwaits.found hm
      rw [hnone d (List.mem_cons_self ..)] at hhandler
      rw [deliverFrom_succ _ _ _ _ _ _ himg, if_neg hsite, hlookup] at hr
      dsimp only at hr
      rw [hhandler] at hr
      have hsp : sp + 16 * (d :: inner).length.toUInt64 =
          sp + 16 + 16 * inner.length.toUInt64 := by
        rw [List.length_cons, Machine.sixteen_mul_succ, UInt64.add_assoc]
      rw [hsp]
      exact ih hcallers (fun e he => hnone e (List.mem_cons_of_mem _ he)) (show inner.length < fuel by omega) hr

end Run

/-! ## Going on after a handler's region -/

namespace Run

variable (v : Value) (w : World)

theorem unwindEnv_ok (frame : FrameRef) (level : UInt32) :
    ∃ e, unwindEnv frame level w =
      .ok () { w with machine := w.machine.setFrameWord frame Frame.lexicalEnv e } := by
  have hclosure : ∃ e, closureEnv frame w = .ok e w := by
    rw [closureEnv, bind_ok (realm_run w), bind_ok (machine_run w)]
    cases Heap.ref? (w.machine.frameCallee frame) with
    | none => exact ⟨_, rfl⟩
    | some r =>
      dsimp only
      rcases (w.realm.heap.object r).function with _ | ⟨name, _ | ⟨code, env⟩⟩ <;> exact ⟨_, rfl⟩
  obtain ⟨e, he⟩ := hclosure
  refine ⟨(w.realm.scopes.unwind ((w.realm.scopes.env e).depth + level.toNat)
    (w.machine.frameWord frame Frame.lexicalEnv).toNat).toUInt64, ?_⟩
  change EStateM.bind (closureEnv frame) _ w = _
  rw [EStateM.bind, he]
  rfl

/-- A frame that has, on the register stack, the registers that a handler names. A handler that is no
catch names two: for what is pending and for the exception. -/
def HoldsRegisters (m : Machine) (frame : FrameRef) (h : Handler) : Prop :=
  h.kind ≠ Handler.kindCatch → ∃ flag jump, Frame.registerOffset? h.flag = some flag ∧
    Frame.registerOffset? h.jump = some jump ∧
    m.OnRegisterStack (frame + X86.displacementWord flag) ∧
    m.OnRegisterStack (frame + X86.displacementWord jump)

/-- A later state of a machine, about to go on at an address, in a frame, with a native stack
pointer. -/
structure Suspended (m m' : Machine) (sp : UInt64) (frame : FrameRef) (target : UInt64) : Prop where
  context : m'.context = m.context
  target : m'.readWord sp = target
  nativeSP : m'.contextWord Context.nativeSP = sp
  frame : m'.contextWord Context.savedR12 = frame

section

variable {m m' : Machine} {sp target : UInt64} {frame : FrameRef}

theorem Suspended.setContextWord (h : Suspended m m' sp frame target) (hsp : m.Beyond sp) {d : Int32}
    (hd : (X86.displacementWord d).toNat < Machine.pageSize)
    (hnative : X86.displacementWord d ≠ X86.displacementWord Context.nativeSP)
    (hsaved : X86.displacementWord d ≠ X86.displacementWord Context.savedR12) (x : UInt64) :
    Suspended m (m'.setContextWord d x) sp frame target where
  context := h.context
  target := by
    rw [Machine.setContextWord_read (by rw [h.context]; exact hsp.ne_context hd), h.target]
  nativeSP := (m'.contextWord_setContextWord_of_ne x hnative).trans h.nativeSP
  frame := (m'.contextWord_setContextWord_of_ne x hsaved).trans h.frame

theorem Suspended.contextWord_setFrameWord (h : Suspended m m' sp frame target) {d : Int32}
    (hd : m.OnRegisterStack (frame + X86.displacementWord d)) (x : UInt64) {k : Int32}
    (hk : (X86.displacementWord k).toNat < Machine.pageSize) :
    (m'.setFrameWord frame d x).contextWord k = m'.contextWord k := by
  refine Machine.setFrameWord_read ?_ x
  rw [Machine.context_setFrameWord, h.context]
  exact (hd.1.ne_context hk).symm

theorem Suspended.setFrameWord (h : Suspended m m' sp frame target)
    (hsp : m.nativeBase.toNat ≤ sp.toNat) {d : Int32}
    (hd : m.OnRegisterStack (frame + X86.displacementWord d)) (x : UInt64) :
    Suspended m (m'.setFrameWord frame d x) sp frame target := by
  have hword {k : Int32} (hk : (X86.displacementWord k).toNat < Machine.pageSize) :=
    h.contextWord_setFrameWord hd x hk
  refine ⟨h.context, ?_, (hword (by decide)).trans h.nativeSP, (hword (by decide)).trans h.frame⟩
  refine (Machine.setFrameWord_read (fun e => ?_) x).trans h.target
  have := hd.2
  rw [e] at this
  omega

/-- The state in which compiled code is left when it is to go on elsewhere. -/
theorem suspended_of_writes (hsp : m.Beyond sp) (target limit : UInt64) (frame : FrameRef) :
    Suspended m ((((m.writeWord sp target).setContextWord Context.nativeSP sp).setContextWord
      Context.savedR12 frame).setContextWord Context.stackPointer limit) sp frame target := by
  have hnative : m.context + X86.displacementWord Context.nativeSP ≠ sp := hsp.ne_context (by decide)
  have hsaved : m.context + X86.displacementWord Context.savedR12 ≠ sp := hsp.ne_context (by decide)
  refine Suspended.setContextWord ⟨?_, ?_, ?_, ?_⟩ hsp (by decide) (by decide) (by decide) limit
  · simp only [Machine.context_setContextWord, Machine.context_writeWord]
  · rw [Machine.setContextWord_read, Machine.setContextWord_read, Machine.readWord_writeWord_self]
    all_goals simpa only [Machine.context_setContextWord, Machine.context_writeWord]
  · rw [Machine.contextWord_setContextWord_of_ne _ _ (by decide),
      Machine.contextWord_setContextWord_self]
  · rw [Machine.contextWord_setContextWord_self]

theorem Suspended.resume (h : Suspended m m' sp frame target) (hsp : m.Beyond sp) (r0 r1 : UInt64) :
    (m'.resume r0 r1).cpu.rip = target ∧ (m'.resume r0 r1).cpu.reg frameReg = frame ∧
      (m'.resume r0 r1).cpu.reg .rsp = sp + 8 := by
  have hnative := h.nativeSP
  have hbeyond : m'.Beyond sp := by
    rw [Machine.Beyond, h.context]
    exact hsp
  obtain ⟨hrip, hframe, hrsp⟩ := m'.resume_spec r0 r1 (by rw [hnative]; exact hbeyond)
    (by rw [hnative]; exact hbeyond.ne_context (k := 4088) (by decide))
  exact ⟨by rw [hrip, hnative, h.target], hframe.trans h.frame, by rw [hrsp, hnative]⟩

end

/-- A later state of a machine, in which what lies above a place on the native stack is as before, and so is the mask
that compiled code takes up again. -/
structure Spares (m m' : Machine) (sp : UInt64) : Prop where
  images : m'.images = m.images
  context : m'.context = m.context
  nativeBase : m'.nativeBase = m.nativeBase
  nativeEnd : m'.nativeEnd = m.nativeEnd
  words : ∀ a, sp.toNat < a.toNat ∨ a = m.context + X86.displacementWord Context.savedR15 →
    m'.readWord a = m.readWord a

section

variable {m m' : Machine} {sp : UInt64}

theorem Spares.writeWord (h : Spares m m' sp) {a : UInt64} (ha : a.toNat ≤ sp.toNat)
    (hmask : a ≠ m.context + X86.displacementWord Context.savedR15) (x : UInt64) : Spares m (m'.writeWord a x) sp := by
  refine ⟨h.images, h.context, h.nativeBase, h.nativeEnd, fun b hb => ?_⟩
  refine (Machine.readWord_writeWord_of_ne (fun heq => ?_) x).trans (h.words b hb)
  subst heq
  exact hb.elim (Nat.not_lt.2 ha) hmask

theorem Spares.setContextWord (h : Spares m m' sp) (hm : m.Orderly) (hsp : m.nativeBase.toNat ≤ sp.toNat) {d : Int32}
    (hd : (X86.displacementWord d).toNat < Machine.pageSize)
    (hmask : X86.displacementWord d ≠ X86.displacementWord Context.savedR15) (x : UInt64) :
    Spares m (m'.setContextWord d x) sp := by
  rw [Machine.setContextWord, h.context]
  refine h.writeWord ?_ (fun heq => hmask ((UInt64.add_right_inj _).1 heq)) x
  by_contra hlt
  have hpage := hm.context
  have hbeyond : m.Beyond (m.context + X86.displacementWord d) := by
    rw [Machine.Beyond]
    omega
  exact hbeyond.ne_context hd rfl

theorem Spares.setFrameWord (h : Spares m m' sp) (hsp : m.nativeBase.toNat ≤ sp.toNat) {frame : FrameRef} {d : Int32}
    (hd : m.OnRegisterStack (frame + X86.displacementWord d)) (x : UInt64) :
    Spares m (m'.setFrameWord frame d x) sp :=
  h.writeWord (Nat.le_trans (Nat.le_of_lt hd.2) hsp) (hd.1.ne_context (by decide)).symm x

end

theorem modifyMachine_bind {α : Type} (f : Machine → Machine) (k : Unit → Run α) (w : World) :
    (modifyMachine f >>= k) w = k () { w with machine := f w.machine } := rfl

theorem resume_eq (r0 r1 : UInt64) (w : World) :
    resume r0 r1 w = execute { w with machine := w.machine.resume r0 r1 } := by
  rw [resume, modifyMachine_bind]

/-- Writing what a handler is given keeps the state otherwise. -/
theorem enterHandler_eq {sp : UInt64} {frame : FrameRef} (p : PlacedUnit) {h : Handler}
    (target : UInt64) (hm : w.machine.Orderly) (hsp : w.machine.nativeBase.toNat ≤ sp.toNat)
    (hregisters : HoldsRegisters w.machine frame h) :
    ∃ m, Suspended w.machine m sp frame target ∧ Spares w.machine m sp ∧
      (h.kind = Handler.kindCatch → m.contextWord Context.exception = v.word) ∧
      enterHandler v sp frame p h target w =
        (do unwindEnv frame h.level; resume 0 0 : Run UInt64) { w with machine := m } := by
  have hbeyond : w.machine.Beyond sp := Nat.le_trans hm.context hsp
  have hsuspended := suspended_of_writes hbeyond target
    (frame + X86.displacementWord (Frame.limit p.unit.code.registerCount)) frame
  have hspares : Spares w.machine ((((w.machine.writeWord sp target).setContextWord Context.nativeSP sp).setContextWord
      Context.savedR12 frame).setContextWord Context.stackPointer
        (frame + X86.displacementWord (Frame.limit p.unit.code.registerCount))) sp :=
    ((((⟨rfl, rfl, rfl, rfl, fun _ _ => rfl⟩ : Spares w.machine w.machine sp).writeWord (Nat.le_refl _)
      (hbeyond.ne_context (by decide)).symm target).setContextWord hm hsp (by decide) (by decide) sp).setContextWord
        hm hsp (by decide) (by decide) frame).setContextWord hm hsp (by decide) (by decide) _
  unfold enterHandler
  rw [modifyMachine_bind]
  dsimp only
  generalize (((w.machine.writeWord sp target).setContextWord Context.nativeSP sp).setContextWord
      Context.savedR12 frame).setContextWord Context.stackPointer
    (frame + X86.displacementWord (Frame.limit p.unit.code.registerCount)) = m at hsuspended hspares ⊢
  by_cases hk : h.kind = Handler.kindCatch
  · refine ⟨_, hsuspended.setContextWord (d := Context.exception) hbeyond (by decide) (by decide)
      (by decide) v.word, hspares.setContextWord hm hsp (by decide) (by decide) v.word,
      fun _ => by rw [Machine.contextWord_setContextWord_self], ?_⟩
    rw [if_pos hk, modifyMachine_bind]
  · obtain ⟨flag, jump, hflag, hjump, honflag, honjump⟩ := hregisters hk
    refine ⟨_, (hsuspended.setFrameWord hsp honflag (Value.int32 finallyThrow).word).setFrameWord hsp
      honjump v.word, (hspares.setFrameWord hsp honflag _).setFrameWord hsp honjump _, fun h' => absurd h' hk, ?_⟩
    rw [if_neg hk, setRegister, setRegister, hflag, hjump]
    dsimp only
    rw [modifyMachine_bind, modifyMachine_bind]

/-- Entering a handler: compiled code is resumed from a state that is suspended at the address after the region, in
the frame of the call that lies in it. -/
theorem enterHandler_suspends (hm : w.machine.Orderly) {sp : UInt64} {frame : FrameRef} {p : PlacedUnit} {h : Handler}
    {t : UInt64} (hsp : w.machine.nativeBase.toNat ≤ sp.toNat)
    (hframe : w.machine.OnRegisterStack (frame + X86.displacementWord Frame.lexicalEnv))
    (hregisters : HoldsRegisters w.machine frame h) :
    ∃ m, Suspended w.machine m sp frame t ∧ Spares w.machine m sp ∧
      (h.kind = Handler.kindCatch → m.contextWord Context.exception = v.word) ∧
      enterHandler v sp frame p h t w = execute { w with machine := m.resume 0 0 } := by
  obtain ⟨m, hsuspended, hspares, hcatch, heq⟩ := enterHandler_eq v w p t hm hsp hregisters
  obtain ⟨e, he⟩ := unwindEnv_ok { w with machine := m } frame h.level
  refine ⟨m.setFrameWord frame Frame.lexicalEnv e, hsuspended.setFrameWord hsp hframe e,
    hspares.setFrameWord hsp hframe e, fun hk => ?_, ?_⟩
  · rw [hsuspended.contextWord_setFrameWord hframe e (by decide), hcatch hk]
  · rw [heq]
    change EStateM.bind (unwindEnv frame h.level) _ _ = _
    rw [EStateM.bind, he]
    exact resume_eq 0 0 _

/-- Control goes on at the address after the region of a handler, in the frame of the call that lies in it. -/
theorem enterHandler_resumes (hm : w.machine.Orderly) {sp : UInt64} {frame : FrameRef}
    {p : PlacedUnit} {h : Handler} {t : UInt64} (hsp : w.machine.nativeBase.toNat ≤ sp.toNat)
    (hframe : w.machine.OnRegisterStack (frame + X86.displacementWord Frame.lexicalEnv))
    (hregisters : HoldsRegisters w.machine frame h) :
    ∃ w', enterHandler v sp frame p h t w = execute w' ∧ w'.machine.cpu.rip = t ∧
      w'.machine.cpu.reg frameReg = frame ∧ w'.machine.cpu.reg .rsp = sp + 8 ∧
      (h.kind = Handler.kindCatch → w'.machine.contextWord Context.exception = v.word) := by
  obtain ⟨m, hsuspended, -, hcatch, heq⟩ := enterHandler_suspends v w (p := p) (t := t) hm hsp hframe hregisters
  obtain ⟨hrip, hframe', hrsp⟩ := hsuspended.resume (Nat.le_trans hm.context hsp) 0 0
  refine ⟨{ w with machine := m.resume 0 0 }, heq, hrip, hframe', hrsp, fun hk => ?_⟩
  rw [Machine.resume_contextWord _ _ _ (by decide) (by decide), hcatch hk]

/-- Entering a handler does not throw: it goes on in compiled code, or a register is invalid. -/
theorem enterHandler_not_thrown (sp : UInt64) (frame : FrameRef) (p : PlacedUnit) (h : Handler)
    (target : UInt64) (v' : Value) (message : Text) (w' : World) :
    enterHandler v sp frame p h target w ≠ .error (.thrown v' message) w' := by
  have hexecute (w : World) : execute w ≠ .error (.thrown v' message) w' := by
    obtain ⟨realm, machine, output, stubs⟩ := w
    unfold execute
    dsimp only
    cases machine.execute <;> exact (nomatch ·)
  have hgo (w : World) : (do unwindEnv frame h.level; resume 0 0 : Run UInt64) w ≠
      .error (.thrown v' message) w' := by
    obtain ⟨e, he⟩ := unwindEnv_ok w frame h.level
    change EStateM.bind (unwindEnv frame h.level) _ _ ≠ _
    rw [EStateM.bind, he]
    dsimp only
    rw [resume_eq]
    exact hexecute _
  unfold enterHandler
  rw [modifyMachine_bind]
  dsimp only
  split
  · rw [modifyMachine_bind]
    exact hgo _
  · unfold setRegister
    cases Frame.registerOffset? h.flag with
    | none => exact (nomatch ·)
    | some flag =>
      dsimp only
      rw [modifyMachine_bind]
      cases Frame.registerOffset? h.jump with
      | none => exact (nomatch ·)
      | some jump =>
        dsimp only
        rw [modifyMachine_bind]
        exact hgo _

/-- The call that an exception is given to goes on where the region of its handler ends, in its own
frame, with its callees gone from the native stack. -/
theorem HandedTo.resumes (hm : w.machine.Orderly) {sp : UInt64} {c : ActiveCall} {h : Handler}
    {r : EStateM.Result Fault World UInt64} (hr : HandedTo v w sp c h r)
    (hregisters : HoldsRegisters w.machine c.frame h) :
    ∃ w' target, c.Resumes h target ∧ r = execute w' ∧ w'.machine.cpu.rip = target ∧
      w'.machine.cpu.reg frameReg = c.frame ∧ w'.machine.cpu.reg .rsp = sp + 8 ∧
      (h.kind = Handler.kindCatch → w'.machine.contextWord Context.exception = v.word) := by
  obtain ⟨u, target, -, hresumes, rfl⟩ := hr.entered
  obtain ⟨w', heq, hstate⟩ := enterHandler_resumes v w (p := u) (t := target) hm hr.base
    hr.frame hregisters
  exact ⟨w', target, hresumes, heq, hstate⟩

/-- Exceptions reach the handler that the program names. Every call that an instruction makes returns
to an address that finds its unit and the first handler whose region the instruction lies in. So an
exception thrown with calls under way is given to the innermost call that lies in such a region, which
goes on where the region ends, and leaves the run if there is none. Whenever code leaves for a stub in a run,
the native stack shows the calls that are under way. -/
theorem exceptions_reach_handlers :
    (∀ (s : Session) (image : Image), s.PlacedIn image → ∀ c ∈ s.programs.toList,
      ∃ u ∈ image.programs.toList, u.unit = c.unit ∧
        ∀ offset place, s.Calls c.unit.key offset place →
          image.lookup (image.base + place.toUInt64) = some u ∧
          match c.unit.code.handlerOf? offset with
          | none => u.handlerAt? (image.base + place.toUInt64 - 1) = none
          | some h => ∃ stop, s.Starts c h.stop stop ∧
              u.handlerAt? (image.base + place.toUInt64 - 1) =
                some (h, image.base + stop.toUInt64)) ∧
    (∀ (m m' : Machine) (c : ActiveCall) (calls : List ActiveCall), m.Underway c.frame calls → m.Leaves c m' →
      m'.Orderly ∧ m'.NativeStack (m'.contextWord Context.nativeSP) m'.frame (c :: calls)) ∧
    ∀ (v : Value) (message : Text) (w : World) (calls : List ActiveCall), w.machine.Orderly →
      w.machine.NativeStack (w.machine.contextWord Context.nativeSP) w.machine.frame calls →
      ((∃ v' message' w', deliver v message w = .error (.thrown v' message') w') ↔
        ∀ c ∈ calls, c.handler? = none) ∧
      ((∀ c ∈ calls, c.handler? = none) → deliver v message w = .error (.thrown v message) w) ∧
      ∀ inner c outer h, calls = inner ++ c :: outer → (∀ d ∈ inner, d.handler? = none) →
        c.handler? = some h →
        HandedTo v w (w.machine.contextWord Context.nativeSP + 16 * inner.length.toUInt64) c h
          (deliver v message w) ∧
        (HoldsRegisters w.machine c.frame h → ∃ w' target, c.Resumes h target ∧
          deliver v message w = execute w' ∧ w'.machine.cpu.rip = target ∧
          w'.machine.cpu.reg frameReg = c.frame ∧
          w'.machine.cpu.reg .rsp =
            w.machine.contextWord Context.nativeSP + 16 * inner.length.toUInt64 + 8 ∧
          (h.kind = Handler.kindCatch →
            w'.machine.contextWord Context.exception = v.word)) := by
  refine ⟨fun s image hplaced c hc => ?_, fun m m' c calls h hleaves => h.inside.leaves hleaves,
    fun v message w calls hm hstack => ?_⟩
  · obtain ⟨parts, hplaced⟩ := hplaced.placed
    obtain ⟨u, hu, hunit⟩ := hplaced.exists_placed hc
    exact ⟨u, hu, hunit, fun offset place hcalls => hplaced.call_covered hc hu hunit hcalls⟩
  have hlength := hstack.length_le hm
  have hfuel : calls.length < (w.machine.nativeEnd - w.machine.nativeBase).toNat := by
    rw [UInt64.toNat_sub_of_le _ _ (UInt64.le_iff_toNat_le.2 (by omega))]
    omega
  have hout (hnone : ∀ c ∈ calls, c.handler? = none) :
      deliver v message w = .error (.thrown v message) w := deliverFrom_uncovered hm hstack hnone hfuel
  have hhanded (inner : List ActiveCall) (c : ActiveCall) (outer : List ActiveCall) (h : Handler)
      (hcalls : calls = inner ++ c :: outer) (hnone : ∀ d ∈ inner, d.handler? = none)
      (hh : c.handler? = some h) :
      HandedTo v w (w.machine.contextWord Context.nativeSP + 16 * inner.length.toUInt64) c h
        (deliver v message w) := by
    subst hcalls
    refine deliverFrom_covered hm hstack hnone hh ?_ rfl
    rw [List.length_append] at hfuel
    omega
  refine ⟨⟨fun hthrown => ?_, fun hnone => ⟨v, message, w, hout hnone⟩⟩, hout,
    fun inner c outer h hcalls hnone hh =>
      ⟨hhanded inner c outer h hcalls hnone hh, (hhanded inner c outer h hcalls hnone hh).resumes v w hm⟩⟩
  by_contra hcovered
  obtain ⟨v', message', w', hthrown⟩ := hthrown
  -- The innermost call that lies in a region would be given the exception.
  obtain ⟨inner, c, outer, hcalls, hc, hnone⟩ := exists_first hcovered
  obtain ⟨h, hh⟩ := Option.ne_none_iff_exists'.1 hc
  obtain ⟨u, target, -, -, heq⟩ := (hhanded inner c outer h hcalls hnone hh).entered
  exact enterHandler_not_thrown v w _ _ u h target v' message' w' (heq ▸ hthrown)

end Run

namespace Machine

variable {m : Machine} {c : ActiveCall} {ra : UInt64}

/-- Leave for a stub that is to return to `ra`. -/
def leaveAt (m : Machine) (ra : UInt64) : Machine :=
  ((m.writeWord (m.cpu.reg .rsp - 8) ra).setContextWord Context.nativeSP (m.cpu.reg .rsp - 8)).setContextWord
    Context.savedR12 (m.cpu.reg frameReg)

theorem leaveAt_eq (m : Machine) (ra : UInt64) : m.leaveAt ra = m.withCpu (m.leaveAt ra).cpu := by
  cases m
  rfl

theorem leaves_leaveAt (hm : m.Orderly) (hroom : m.nativeBase.toNat + 8 ≤ (m.cpu.reg .rsp).toNat)
    (hwaits : c.Waits m ra) (hframe : m.cpu.reg frameReg = c.frame) : m.Leaves c (m.leaveAt ra) := by
  have hcontext := hm.context
  have hread (a : UInt64) (ha : m.nativeBase.toNat ≤ a.toNat) :
      (m.leaveAt ra).readWord a = if m.cpu.reg .rsp - 8 = a then ra else m.readWord a := by
    have hbeyond : m.Beyond a := Nat.le_trans hcontext ha
    have hset {x : Machine} (hx : x.context = m.context) {d : Int32} (hd : (X86.displacementWord d).toNat < pageSize)
        (w : UInt64) : (x.setContextWord d w).readWord a = x.readWord a := by
      rw [setContextWord, hx, readWord_writeWord_of_ne (hbeyond.ne_context hd)]
    exact (hset (by rfl) (by decide) _).trans ((hset (by rfl) (by decide) _).trans (readWord_writeWord ..))
  have hbelow := toNat_sub_eight (a := m.cpu.reg .rsp) (by omega)
  refine ⟨hroom, ?_, ?_, ?_, leaveAt_eq m ra ▸ keepsStack_cpu fun a ha => ?_⟩
  · rw [hread _ (by omega), if_pos rfl]
    exact hwaits
  · rw [leaveAt, contextWord_setContextWord_of_ne _ _ (by decide), contextWord_setContextWord_self]
  · rw [leaveAt, frame, contextWord_setContextWord_self, hframe]
  · exact (hread a (by omega)).trans (if_neg fun heq => by rw [← heq] at ha; omega)

end Machine

/-! ## A unit alone -/

namespace CodeUnit

/-- Whether a unit that is compiled alone can be linked. -/
def linksAlone (u : CodeUnit) : Bool :=
  match Session.start.compile [some u] with
  | (.ok _, s) => (s.link () fun a _ => (.ok 0x10000, a)).result.isOk && decide (s.size < 2 ^ 31) &&
      decide (u.code.data.size < 2 ^ 32)
  | (.error _, _) => false

/-- Whether a unit that is compiled alone can be linked, with the size of its code told from its pieces. -/
def piecesLinkAlone (u : CodeUnit) : Bool :=
  match Session.start.compile [some u] with
  | (.ok _, s) => (s.link () fun a _ => (.ok 0x10000, a)).result.isOk &&
      decide (Piece.endFrom 0 s.pieces.toList < 2 ^ 31) && decide (u.code.data.size < 2 ^ 32)
  | (.error _, _) => false

-- Adding up lengths is far cheaper to evaluate than counting the bytes of an assembled buffer.
theorem linksAlone_of_pieces {u : CodeUnit} (h : u.piecesLinkAlone = true) : u.linksAlone = true := by
  unfold piecesLinkAlone at h
  unfold linksAlone
  cases hcompile : Session.start.compile [some u] with
  | mk result s =>
    rw [hcompile] at h
    cases result with
    | error e => cases h
    | ok i =>
      have hcompiled : Session.Compiled [[some u]] s := Session.Compiled.fresh.compile hcompile
      obtain ⟨parts, -, hcomprises, -⟩ := hcompiled.comprises
      dsimp only at h ⊢
      rwa [hcomprises.laid.size_eq]

/-- The session and the image of a unit that is compiled alone. -/
theorem exists_placed {u : CodeUnit} (h : u.linksAlone = true) : ∃ i s image c,
    Session.start.compile [some u] = (.ok i, s) ∧ s.PlacedIn image ∧ s.size < 2 ^ 31 ∧ image.base = 0x10000 ∧
      c ∈ s.programs.toList ∧ c.unit = u := by
  unfold linksAlone at h
  cases hcompile : Session.start.compile [some u] with
  | mk result s =>
    rw [hcompile] at h
    cases result with
    | error e => cases h
    | ok i =>
      simp only [Bool.and_eq_true, decide_eq_true_eq] at h
      obtain ⟨⟨hok, hshort⟩, hsmall⟩ := h
      have hcompiled : Session.Compiled [[some u]] s := Session.Compiled.fresh.compile hcompile
      cases hlink : (s.link () fun a _ => (.ok 0x10000, a)).result with
      | error e => rw [hlink] at hok; cases hok
      | ok image =>
        obtain ⟨hbase, hunits, -⟩ := hcompiled.link_relocates hlink
        have hbase : image.base = 0x10000 := (Except.ok.inj hbase).symm
        have hmap : s.programs.toList.map CompiledUnit.unit = [u] := by simpa using hunits
        obtain ⟨c, hprograms, hc⟩ := List.map_eq_singleton_iff.1 hmap
        refine ⟨i, s, image, c, rfl, ⟨⟨_, hcompiled⟩, ⟨_, _, _, hlink⟩, fun d hd => ?_, ?_⟩, hshort, hbase,
          by simp [hprograms], hc⟩
        · rw [hprograms, List.mem_singleton] at hd
          rw [hd, hc]
          exact hsmall
        · rw [hbase, show (0x10000 : UInt64).toNat = 65536 from rfl]
          omega

/-- Whether the code of an instruction of a unit that is compiled alone calls. -/
def callsAlone (u : CodeUnit) (offset : UInt32) : Bool :=
  (Session.start.compile [some u]).2.spans.toList.any fun span =>
    span.key == u.key && span.event.offset == offset && (List.range span.stop).any fun n =>
      decide (span.start ≤ n) && (Session.start.compile [some u]).2.pieces.toList[n]?.any Piece.isCall

theorem calls_of_callsAlone {u : CodeUnit} {offset : UInt32} {i : Except Invariant Unit} {s : Session}
    (hcompile : Session.start.compile [some u] = (i, s)) (hcalls : u.callsAlone offset = true) :
    ∃ place, s.Calls u.key offset place := by
  rw [callsAlone, hcompile] at hcalls
  obtain ⟨span, hspan, hcall⟩ := List.any_eq_true.1 hcalls
  simp only [Bool.and_eq_true, beq_iff_eq] at hcall
  obtain ⟨⟨hkey, hoffset⟩, hcall⟩ := hcall
  obtain ⟨n, hn, hcall⟩ := List.any_eq_true.1 hcall
  rw [Bool.and_eq_true, decide_eq_true_eq, Option.any_eq_true] at hcall
  obtain ⟨hfirst, q, hq, hcall⟩ := hcall
  exact ⟨s.byteOf (n + 1), span, hspan, hkey, hoffset, n, q, hfirst, List.mem_range.1 hn, hq, hcall, rfl⟩

end CodeUnit

namespace Run

/-- A code that calls itself in the region of a handler and throws outside of it. -/
def throwingText : Text := Text.ofString
  "function main
  try:
    LOAD_CALLEE r0
    CALL r1, r0, r2, 0
    RETURN r1
  handler:
    TRY_CATCH_SETUP r0, e
    THROW r0
    .catch try, handler
  end"

def throwingUnit : CodeUnit :=
  ⟨0, 0, (Listing.parse throwingText).toOption.getD (Code.ofName []), #[]⟩

-- One evaluation of the parsed text serves all facts.
theorem throwingUnit_compiles :
    ((throwingUnit.code.handlerOf? 2).any (fun h => h.kind == Handler.kindCatch) = true ∧
      throwingUnit.code.handlerOf? 12 = none) ∧
    ∃ (s : Session) (image : Image) (c : CompiledUnit) (place place' : Nat), s.PlacedIn image ∧
      c ∈ s.programs.toList ∧ c.unit = throwingUnit ∧ s.Calls 0 2 place ∧ s.Calls 0 12 place' := by
  have hrun : ((throwingUnit.code.handlerOf? 2).any (fun h => h.kind == Handler.kindCatch) &&
      (throwingUnit.code.handlerOf? 12).isNone && throwingUnit.piecesLinkAlone && throwingUnit.callsAlone 2 &&
      throwingUnit.callsAlone 12) = true := by decide +kernel
  simp only [Bool.and_eq_true, Option.isNone_iff_eq_none] at hrun
  obtain ⟨⟨⟨⟨hcatch, hnone⟩, hlinks⟩, hcall⟩, hthrow⟩ := hrun
  obtain ⟨i, s, image, c, hcompile, hplaced, -, -, hc, hunit⟩ :=
    CodeUnit.exists_placed (CodeUnit.linksAlone_of_pieces hlinks)
  obtain ⟨place, hplace⟩ := CodeUnit.calls_of_callsAlone hcompile hcall
  obtain ⟨place', hplace'⟩ := CodeUnit.calls_of_callsAlone hcompile hthrow
  exact ⟨⟨hcatch, hnone⟩, s, image, c, place, place', hplaced, hc, hunit, hplace, hplace'⟩

/-- A machine on which the host is about to enter a function of an image. -/
def hostMachine (img : LoadedImage) : Machine :=
  ⟨CodeMemory.ofSize Machine.codeBase 0, Machine.dataBase, Machine.nativeStackBase, Machine.nativeStackBase + 4096, #[],
    #[img], 1, (X86.Cpu.blank.setReg .rsp (Machine.nativeStackBase + 1024)).setReg frameReg (Machine.dataBase + 8192)⟩

theorem hostMachine_orderly (img : LoadedImage) : (hostMachine img).Orderly := by
  refine ⟨fun a ha b hb pc _ _ => ?_, ?_, ?_⟩
  · rw [show (hostMachine img).images.toList = [img] from rfl, List.mem_singleton] at ha hb
    rw [ha, hb]
  · change Machine.dataBase.toNat + Machine.pageSize ≤ Machine.nativeStackBase.toNat
    decide
  · change (Machine.nativeStackBase + 4096).toNat + 16 < 2 ^ 64
    decide

/-- A function of an image that calls itself, where the inner call throws and only the outer one lies in the region
of a handler. -/
theorem exceptions_reach_handlers_throwing :
    ∃ (m m' : Machine) (inner outer : ActiveCall) (h : Handler), m.Underway inner.frame [outer] ∧ m.Leaves inner m' ∧
      inner.frame ≠ outer.frame ∧ inner.handler? = none ∧ outer.handler? = some h ∧
      ∀ (v : Value) (message : Text) (realm : Realm), ∃ w' target, outer.Resumes h target ∧
        deliver v message ⟨realm, m', #[], #[]⟩ = execute w' ∧ w'.machine.cpu.rip = target ∧
        w'.machine.cpu.reg frameReg = outer.frame ∧ w'.machine.contextWord Context.exception = v.word := by
  obtain ⟨⟨hcatch, hnone⟩, s, image, c, place, place', hplaced, hc, hunit, hcall, hthrow⟩ := throwingUnit_compiles
  obtain ⟨h, hh, hkind⟩ := (Option.any_eq_true _ _).1 hcatch
  rw [beq_iff_eq] at hkind
  obtain ⟨parts, hparts⟩ := hplaced.placed
  obtain ⟨img, himg⟩ : ∃ img, img = LoadedImage.ofImage image := ⟨_, rfl⟩
  have himage : img.toImage = image := by rw [himg]; rfl
  have hkey : c.unit.key = 0 := by rw [hunit]; rfl
  let outer : ActiveCall := ⟨image, s, c, 2, Machine.dataBase + 8192⟩
  let inner : ActiveCall := ⟨image, s, c, 12, Machine.dataBase + 12288⟩
  have hwaits (m : Machine) (hm : m.images = #[img] ∧ m.context = Machine.dataBase ∧
      m.nativeBase = Machine.nativeStackBase) : outer.Waits m (image.base + place.toUInt64) ∧
        inner.Waits m (image.base + place'.toUInt64) := by
    obtain ⟨himages, hcontext, hbase⟩ := hm
    have hloaded : ∃ img ∈ m.images.toList, img.toImage = image := ⟨img, by rw [himages]; simp, himage⟩
    refine ⟨⟨hloaded, hplaced, hc, ⟨place, hkey ▸ hcall, rfl⟩, ?_⟩,
      ⟨hloaded, hplaced, hc, ⟨place', hkey ▸ hthrow, rfl⟩, ?_⟩⟩
    all_goals
      rw [Machine.OnRegisterStack, Machine.Beyond, hcontext, hbase]
      dsimp only [outer, inner]
      decide
  generalize hhost : hostMachine img = host
  have horderly : host.Orderly := hhost ▸ hostMachine_orderly img
  have hregions : host.images = #[img] ∧ host.context = Machine.dataBase ∧ host.nativeBase = Machine.nativeStackBase ∧
      host.nativeEnd = Machine.nativeStackBase + 4096 := by
    rw [← hhost]
    exact ⟨rfl, rfl, rfl, rfl⟩
  obtain ⟨himages, hcontext, hbase, hend⟩ := hregions
  have hsp : host.cpu.reg .rsp = Machine.nativeStackBase + 1024 := by
    rw [← hhost]
    exact (X86.Cpu.reg_setReg_of_ne _ _ (by decide)).trans (X86.Cpu.reg_setReg_self ..)
  have hframe : host.cpu.reg frameReg = outer.frame := by
    rw [← hhost]
    exact X86.Cpu.reg_setReg_self ..
  have himageOf : host.imageOf img.returnSite = some img := by
    refine Machine.imageOf_eq horderly (by rw [himages]; simp) ?_
    rw [← himage] at hparts
    exact (hparts.call_inside (hkey ▸ hcall)).2.1
  -- The host enters the function, which calls itself in a frame of its own.
  obtain ⟨c₁, hc₁⟩ : ∃ c₁, host.cpu.execute 0 (.push frameReg) = some c₁ := ⟨_, rfl⟩
  obtain ⟨c₂, hc₂⟩ : ∃ c₂, c₁.execute img.returnSite (.callReg .rdx) = some c₂ := ⟨_, rfl⟩
  obtain ⟨c₃, hc₃⟩ : ∃ c₃, c₂.execute 0 (.push frameReg) = some c₃ := ⟨_, rfl⟩
  obtain ⟨m₁, hm₁⟩ : ∃ m₁, m₁ = host.withCpu (c₃.setReg frameReg inner.frame) := ⟨_, rfl⟩
  obtain ⟨c₄, hc₄⟩ : ∃ c₄, m₁.cpu.execute (image.base + place.toUInt64) (.callMem frameReg Frame.entry) = some c₄ :=
    ⟨_, rfl⟩
  obtain ⟨c₅, hc₅⟩ : ∃ c₅, c₄.execute 0 (.push frameReg) = some c₅ := ⟨_, rfl⟩
  have hentered : (host.withCpu c₃).Underway outer.frame [] := by
    rw [← hframe]
    exact .enter horderly (by rw [hsp, hbase]; decide) (by rw [hsp, hend]; decide) himageOf hc₁ hc₂ hc₃
  have hunderway₁ : m₁.Underway outer.frame [] := by
    rw [hm₁]
    exact hentered.work (X86.Cpu.reg_setReg_of_ne _ _ (by decide)) ⟨rfl, rfl, rfl, rfl, fun _ _ _ => rfl⟩
  have hsp₁ : m₁.cpu.reg .rsp = Machine.nativeStackBase + 1024 - 8 - 8 - 8 := by
    rw [hm₁, Machine.withCpu_cpu, X86.Cpu.reg_setReg_of_ne _ _ (by decide), (X86.Cpu.pushed_push hc₃).sp,
      (X86.Cpu.pushed_callReg hc₂).sp, (X86.Cpu.pushed_push hc₁).sp, hsp]
  have hframe₁ : m₁.cpu.reg frameReg = inner.frame := by
    rw [hm₁]
    exact X86.Cpu.reg_setReg_self ..
  have hregions₁ : m₁.images = #[img] ∧ m₁.context = Machine.dataBase ∧ m₁.nativeBase = Machine.nativeStackBase := by
    rw [hm₁]
    exact ⟨himages, hcontext, hbase⟩
  have hunderway : (m₁.withCpu c₅).Underway inner.frame [outer] := by
    rw [← hframe₁]
    exact .call hunderway₁ (by rw [hsp₁, hregions₁.2.2]; decide) (hwaits m₁ hregions₁).1 hc₄ hc₅
  have hsp₅ : c₅.reg .rsp = Machine.nativeStackBase + 1024 - 8 - 8 - 8 - 8 - 8 := by
    rw [(X86.Cpu.pushed_push hc₅).sp, (X86.Cpu.pushed_callMem hc₄).sp, hsp₁]
  have hframe₅ : c₅.reg frameReg = inner.frame := by
    rw [(X86.Cpu.pushed_push hc₅).regs _ (by decide), (X86.Cpu.pushed_callMem hc₄).regs _ (by decide), hframe₁]
  have hroom : (m₁.withCpu c₅).nativeBase.toNat + 8 ≤ (c₅.reg .rsp).toNat := by
    rw [hsp₅, show (m₁.withCpu c₅).nativeBase = _ from hregions₁.2.2]
    decide
  have hleaves : (m₁.withCpu c₅).Leaves inner ((m₁.withCpu c₅).leaveAt (image.base + place'.toUInt64)) :=
    Machine.leaves_leaveAt hunderway.inside.orderly hroom (hwaits (m₁.withCpu c₅) hregions₁).2 hframe₅
  have hhandler : outer.handler? = some h := by rw [ActiveCall.handler?, show outer.unit.unit = _ from hunit, hh]
  have hnone' : inner.handler? = none := by rw [ActiveCall.handler?, show inner.unit.unit = _ from hunit, hnone]
  have hother : inner.frame ≠ outer.frame := by
    dsimp only [inner, outer]
    decide
  refine ⟨_, _, inner, outer, h, hunderway, hleaves, hother, hnone', hhandler, fun v message realm => ?_⟩
  obtain ⟨-, hshows, hdelivers⟩ := exceptions_reach_handlers
  obtain ⟨horderly', hstack⟩ := hshows _ _ inner [outer] hunderway hleaves
  obtain ⟨-, -, hdelivered⟩ := hdelivers v message ⟨realm, _, #[], #[]⟩ [inner, outer] horderly' hstack
  obtain ⟨w', target, hresumes, heq, hrip, hframe', -, hword⟩ :=
    (hdelivered [inner] outer [] h rfl (by simp [hnone']) hhandler).2 fun hne => absurd hkind hne
  exact ⟨w', target, hresumes, heq, hrip, hframe', hword hkind⟩

end Run

end RegisterJit
