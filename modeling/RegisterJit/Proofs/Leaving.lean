import RegisterJit.Proofs.Delivery
import RegisterJit.Proofs.Following
import RegisterJit.Proofs.Frames

/-!
# Leaving for stubs and coming back

Compiled code calls a stub by putting its number and arguments into registers and calling a thunk, which
parks them in the context with the registers that the host does not keep. `Running.leaves` says what the
host finds there, `Left.resumes` that compiled code goes on after its call as if it had called a function,
if the host has left alone what suspended code relies on.

`Running` says that a machine is about to run code of an image, with the registers that have a role set, and
`Works` what that code may do between calls. `Left` is what the host finds after the call of a thunk.
`Running.leaves` leads from the first to the last and `Left.resumes` back, with `Preserves` as what the host
must have left alone meanwhile. The calls that are suspended below stay under way all the time
(`Works.underway`, `Left.underway`), in the sense of `Delivery`. Everything that is said about runs in
`Proceeding` rests on these steps.
-/

namespace RegisterJit

open X86 (Reg Instr Label Cpu)

namespace Machine

variable {m m' m'' : Machine} {s : Session} {image : Image}

/-! ## Running code -/

/-- The registers that keep their contents between the instructions of a program. -/
def roleRegs : List Reg := [.rsp, .rbx, .rbp, .r12, .r13, .r14, .r15]

/-- Compiled code of an image runs on a machine: the registers with a fixed role are set, the host can
be left for, and the native stack has room for a return address. -/
structure Running (m : Machine) (s : Session) (image : Image) : Prop where
  loaded : Loaded m.images s image
  orderly : m.Orderly
  context : m.cpu.reg contextReg = m.context
  mask : m.cpu.reg maskReg = Value.numberMask
  host : m.contextWord Context.hostSP = m.hostStack
  back : m.readWord m.hostStack = hostAddress
  base : m.nativeBase.toNat + 8 ≤ (m.cpu.reg .rsp).toNat
  top : (m.cpu.reg .rsp).toNat ≤ m.nativeEnd.toNat

/-- What code does between calls: it computes, and writes registers of frames. -/
structure Works (m m' : Machine) : Prop where
  same : m' = m.withCpu m'.cpu
  kept : ∀ r ∈ roleRegs, m'.cpu.reg r = m.cpu.reg r
  memory : ∀ a, ¬ m.OnRegisterStack a → m'.readWord a = m.readWord a

theorem Works.context (h : m.Works m') : m'.context = m.context := by
  rw [h.same]
  rfl

theorem Works.regions (h : m.Works m') : m'.images = m.images ∧ m'.nativeBase = m.nativeBase ∧
    m'.nativeEnd = m.nativeEnd ∧ m'.context = m.context := by
  rw [h.same]
  exact ⟨rfl, rfl, rfl, rfl⟩

theorem not_onRegisterStack_context (m : Machine) {k : UInt64} (hk : k.toNat < pageSize) :
    ¬ m.OnRegisterStack (m.context + k) := fun h => h.1.ne_context hk rfl

theorem Works.contextWord (h : m.Works m') {d : Int32}
    (hd : (X86.displacementWord d).toNat < pageSize) : m'.contextWord d = m.contextWord d := by
  rw [Machine.contextWord, h.context, h.memory _ (m.not_onRegisterStack_context hd)]
  rfl

theorem Running.works (h : m.Running s image) (hw : m.Works m') : m'.Running s image := by
  obtain ⟨himages, hbase, hend, hcontext⟩ := hw.regions
  have hhost : m'.hostStack = m.hostStack := by rw [hostStack, hcontext]; rfl
  have hsp : m'.cpu.reg .rsp = m.cpu.reg .rsp := hw.kept _ (by decide)
  constructor
  · rw [himages]; exact h.loaded
  · exact h.orderly.congr himages hcontext hbase hend
  · rw [hcontext, ← h.context]; exact hw.kept _ (by decide)
  · rw [← h.mask]; exact hw.kept _ (by decide)
  · rw [hw.contextWord (by decide), h.host, hhost]
  · rw [hhost]
    exact (hw.memory _ (m.not_onRegisterStack_context (k := 4088) (by decide))).trans h.back
  · rw [hbase, hsp]; exact h.base
  · rw [hend, hsp]; exact h.top

/-! ## Leaving -/

/-- The words that the thunk of stubs parks in the context, with their displacements. -/
def parked (c : Cpu) : List (Int32 × UInt64) :=
  [(Context.stubId, c.reg .rax), (8, c.reg .rsi), (16, c.reg .rdx), (24, c.reg .rcx),
    (32, c.reg .r8), (40, c.reg .r9), (Context.nativeSP, c.reg .rsp),
    (Context.savedRBX, c.reg .rbx), (Context.savedRBP, c.reg .rbp), (Context.savedR12, c.reg .r12),
    (Context.savedR14, c.reg .r14), (Context.savedR15, c.reg .r15)]

def park (m : Machine) : Machine :=
  m.writeAll ((parked m.cpu).map fun p => (m.context + X86.displacementWord p.1, p.2))

theorem nodup_parked (m : Machine) : (((parked m.cpu).map fun p =>
    (m.context + X86.displacementWord p.1, p.2)).map Prod.fst).Nodup := by
  have hoffsets : ((parked m.cpu).map fun p => X86.displacementWord p.1).Nodup := by
    change ([0, 8, 16, 24, 32, 40, 48, 72, 80, 88, 96, 104] : List UInt64).Nodup
    decide
  have hadd := hoffsets.map (f := fun k => m.context + k) fun x y h => (UInt64.add_right_inj _).1 h
  rw [List.map_map] at hadd ⊢
  exact hadd

theorem park_context (m : Machine) : m.park.context = m.context := by
  obtain ⟨memory, h⟩ := m.writeAll_frame
    ((parked m.cpu).map fun p => (m.context + X86.displacementWord p.1, p.2))
  rw [park, h]

theorem park_contextWord (m : Machine) {d : Int32} {w : UInt64} (h : (d, w) ∈ parked m.cpu) :
    m.park.contextWord d = w := by
  rw [contextWord, park_context]
  exact writeAll_readWord_of_mem m.nodup_parked (List.mem_map.2 ⟨(d, w), h, rfl⟩)

theorem park_readWord (m : Machine) {a : UInt64}
    (h : ∀ k ∈ ([0, 8, 16, 24, 32, 40, 48, 72, 80, 88, 96, 104] : List UInt64), m.context + k ≠ a) :
    m.park.readWord a = m.readWord a := by
  refine writeAll_readWord_of_not_mem fun hmem => ?_
  rw [List.map_map] at hmem
  obtain ⟨p, hp, rfl⟩ := List.mem_map.1 hmem
  refine h _ ?_ rfl
  change X86.displacementWord p.1 ∈ (parked m.cpu).map fun p => X86.displacementWord p.1
  exact List.mem_map_of_mem hp

theorem follow_stubCode (word : Label → UInt64) (hdi : m.cpu.reg .rdi = m.context) :
    (Piece.follow word none (Session.stubCode.map .instr) m.cpu).Stops [.instr .ret] fun d =>
      d.memory = m.park.cpu.memory ∧ d.reg .rax = exitStub.toUInt64 ∧
        d.reg .rsp = m.park.contextWord Context.hostSP := by
  simp [Session.stubCode, Session.parkArguments, Session.parkRegisters, Session.leave,
    Session.argumentOffsets, stubArgumentRegs, X86.Cpu.reg_setReg, Machine.park, Machine.parked,
    Machine.writeAll, Machine.writeWord, hdi, Machine.contextWord, Machine.readWord]

/-- Compiled code has left for a stub, and is to go on at `back`. -/
structure Left (m m' : Machine) (back : UInt64) : Prop where
  same : m' = m.withCpu m'.cpu
  rip : m'.cpu.rip = hostAddress
  status : m'.cpu.reg .rax = exitStub.toUInt64
  pending : m'.pendingStub = ⟨m.cpu.reg .rax, m.cpu.reg .rsi, m.cpu.reg .rdx, m.cpu.reg .rcx,
    m.cpu.reg .r8, m.cpu.reg .r9⟩
  sp : m'.contextWord Context.nativeSP = m.cpu.reg .rsp - 8
  back : m'.readWord (m.cpu.reg .rsp - 8) = back
  saved : ∀ p ∈ keptRegisters, m'.contextWord p.2 = m.cpu.reg p.1
  words : ∀ d ∈ [Context.stackPointer, Context.stackLimit, Context.result, Context.exception],
    m'.contextWord d = m.contextWord d
  memory : ∀ a, m.Beyond a → a ≠ m.cpu.reg .rsp - 8 → m'.readWord a = m.readWord a

theorem Running.sp_sub (h : m.Running s image) :
    (m.cpu.reg .rsp - 8).toNat = (m.cpu.reg .rsp).toNat - 8 := by
  have hbase := h.base
  rw [UInt64.toNat_sub_of_le _ _ (by rw [UInt64.le_iff_toNat_le]; change 8 ≤ _; omega)]
  rfl

theorem Running.beyond_sp (h : m.Running s image) : m.Beyond (m.cpu.reg .rsp - 8) := by
  have hbase := h.base
  have hcontext := h.orderly.context
  rw [Beyond, h.sp_sub]
  omega

/-- The thunk goes on at the address on top of the host's stack. -/
theorem thunk_passes (hload : Loaded m.images s image) (hdi : m.cpu.reg .rdi = m.context)
    (hrip : m.cpu.rip = image.address (s.placeOf Session.stubThunk)) :
    ∃ c, m.cpu.Passes m.images (image.Direct Session.start.size) c ∧ c.memory = m.park.cpu.memory ∧
      c.reg .rax = exitStub.toUInt64 ∧
      c.rip = m.park.readWord (m.park.contextWord Context.hostSP) := by
  obtain ⟨d, hfollow, hmemory, hrax, hrsp⟩ := m.follow_stubCode (s.word image) hdi
  have hthunk : Session.thunkPieces = (Piece.bind Session.entryThunk :: Session.enterCode.map Piece.instr ++
      Piece.bind Session.returnSite :: Session.returnCode.map Piece.instr ++ [Piece.align 16]) ++
        Piece.bind Session.stubThunk :: (Session.stubCode.dropLast.map Piece.instr ++
          Piece.instr .ret :: [Piece.align 16]) := rfl
  refine ⟨d.pop.2.jump d.pop.1, hload.thunk hthunk (by decide) (by simp) hrip hfollow fun _ => rfl, hmemory, ?_, ?_⟩
  · exact (Cpu.reg_pop_of_ne _ (by decide)).trans hrax
  · change d.read (d.reg .rsp) = _
    rw [hrsp, X86.Cpu.read, hmemory]
    rfl

/-- What has called the thunk leaves for the host. -/
theorem Running.passes (h : m.Running s image) (hdi : m.cpu.reg .rdi = m.context) (back : UInt64) :
    ∃ c, ((m.cpu.push back).jump (image.address (s.placeOf Session.stubThunk))).Passes m.images
      (image.Direct Session.start.size) c ∧
      m.Left (m.withCpu c) back := by
  set called := (m.cpu.push back).jump (image.address (s.placeOf Session.stubThunk))
  have hreg {r : Reg} (hr : Reg.rsp.slot ≠ r.slot) : called.reg r = m.cpu.reg r :=
    X86.Cpu.reg_setReg_of_ne _ _ hr
  have hsp : called.reg .rsp = m.cpu.reg .rsp - 8 := X86.Cpu.reg_setReg_self ..
  have hread (a : UInt64) : (m.withCpu called).readWord a =
      if m.cpu.reg .rsp - 8 = a then back else m.readWord a := X86.Cpu.read_write ..
  have hbeyond := h.beyond_sp
  have hcontext {k : UInt64} (hk : k.toNat < pageSize) :
      (m.withCpu called).readWord (m.context + k) = m.readWord (m.context + k) := by
    rw [hread, if_neg (hbeyond.ne_context hk).symm]
  obtain ⟨c, hgoes, hmemory, hrax, hripc⟩ := thunk_passes (m := m.withCpu called) h.loaded
    ((hreg (by decide)).trans hdi) rfl
  have hpark (a : UInt64) : (m.withCpu c).readWord a = (m.withCpu called).park.readWord a := by
    rw [readWord, readWord, X86.Cpu.read, X86.Cpu.read, withCpu_cpu, hmemory]
  have hword (d : Int32) :
      (m.withCpu c).contextWord d = (m.withCpu called).park.contextWord d := by
    rw [contextWord, contextWord, hpark, park_context]
    rfl
  have hunparked {k : UInt64} (hk : k.toNat < pageSize)
      (hne : k ∉ ([0, 8, 16, 24, 32, 40, 48, 72, 80, 88, 96, 104] : List UInt64)) :
      (m.withCpu called).park.readWord (m.context + k) = m.readWord (m.context + k) := by
    rw [park_readWord _ fun k' hk' heq => ?_, hcontext hk]
    obtain rfl := (UInt64.add_right_inj _).1 heq
    exact hne hk'
  have hparked {d : Int32} {w : UInt64} (hd : (d, w) ∈ parked called) :
      (m.withCpu c).contextWord d = w := (hword d).trans (park_contextWord _ hd)
  have hhost : (m.withCpu called).park.contextWord Context.hostSP = m.hostStack := by
    rw [contextWord, park_context]
    exact (hunparked (k := 56) (by decide) (by decide)).trans h.host
  have hargument {d : Int32} (r : Reg) (hr : Reg.rsp.slot ≠ r.slot)
      (hd : (d, called.reg r) ∈ parked called) : (m.withCpu c).contextWord d = m.cpu.reg r :=
    (hparked hd).trans (hreg hr)
  have hfar {a : UInt64} (ha : m.Beyond a) :
      (m.withCpu c).readWord a = if m.cpu.reg .rsp - 8 = a then back else m.readWord a := by
    rw [hpark, park_readWord _ fun k hk => ?_, hread]
    refine ha.ne_context ?_
    revert k
    simp [pageSize]
  refine ⟨c, hgoes, rfl, ?_, hrax, ?_, ?_, ?_, ?_, ?_, ?_⟩
  · rw [withCpu_cpu, hripc, hhost]
    exact (hunparked (k := 4088) (by decide) (by decide)).trans h.back
  · change (⟨(m.withCpu c).contextWord Context.stubId, (m.withCpu c).contextWord 8,
      (m.withCpu c).contextWord 16, (m.withCpu c).contextWord 24, (m.withCpu c).contextWord 32,
      (m.withCpu c).contextWord 40⟩ : PendingStub) = _
    rw [hargument .rax (by decide) (by simp [parked]), hargument .rsi (by decide) (by simp [parked]),
      hargument .rdx (by decide) (by simp [parked]), hargument .rcx (by decide) (by simp [parked]),
      hargument .r8 (by decide) (by simp [parked]), hargument .r9 (by decide) (by simp [parked])]
  · exact (hparked (by simp [parked])).trans hsp
  · rw [hfar hbeyond, if_pos rfl]
  · intro p hp
    simp only [keptRegisters, List.mem_cons, List.not_mem_nil, or_false] at hp
    rcases hp with rfl | rfl | rfl | rfl | rfl
    all_goals exact hargument _ (by decide) (by simp [parked])
  · intro d hd
    simp only [List.mem_cons, List.not_mem_nil, or_false] at hd
    rw [hword, contextWord, park_context]
    rcases hd with rfl | rfl | rfl | rfl
    all_goals exact hunparked (by decide) (by decide)
  · intro a ha hne
    rw [hfar ha, if_neg hne.symm]

/-- A call of the thunk leaves for the host. -/
theorem Running.leaves (h : m.Running s image) {before after : List Piece}
    (hpieces : s.pieces.toList = before ++ .call Session.stubThunk :: after)
    (hrip : m.cpu.rip = image.address (Piece.endFrom 0 before))
    (hdi : m.cpu.reg .rdi = m.context) :
    ∃ c, Cpu.Goes m.images m.cpu c ∧ m.Left (m.withCpu c)
      (image.address (Piece.endFrom 0 (before ++ [.call Session.stubThunk]))) := by
  obtain ⟨c, hpasses, hleft⟩ := h.passes hdi (image.address (Piece.endFrom 0 (before ++ [.call Session.stubThunk])))
  exact ⟨c, (h.loaded.call hpieces hrip).trans (h.loaded.outside h.loaded.start_le hpasses).goes, hleft⟩

/-! ## Entering and returning -/

/-- The host enters a function with its frame and the address of the thunk that it returns to on the native stack. -/
theorem enter_passes (hload : Loaded m.images s image)
    (hrip : m.cpu.rip = image.address (s.placeOf Session.entryThunk)) :
    ∃ c, m.cpu.Passes m.images (image.Direct Session.start.size) c ∧ c.rip = m.cpu.reg .rdx ∧
      c.reg contextReg = m.cpu.reg .rdi ∧ c.reg frameReg = m.cpu.reg .rsi ∧ c.reg maskReg = Value.numberMask ∧
      c.reg .rsp = m.cpu.reg .rsp - 8 - 8 ∧
      ∀ a, c.read a = if m.cpu.reg .rsp - 8 - 8 = a then image.address (s.placeOf Session.returnSite)
        else if m.cpu.reg .rsp - 8 = a then m.cpu.reg .rsi else m.cpu.read a := by
  have hfollow : (Piece.follow (s.word image) none (Session.enterCode.map .instr) m.cpu).Stops
      [.instr (.callReg .rdx)] fun d => d.reg .rdx = m.cpu.reg .rdx ∧ d.reg contextReg = m.cpu.reg .rdi ∧
        d.reg frameReg = m.cpu.reg .rsi ∧ d.reg maskReg = Value.numberMask ∧ d.reg .rsp = m.cpu.reg .rsp - 8 ∧
        ∀ a, d.read a = if m.cpu.reg .rsp - 8 = a then m.cpu.reg .rsi else m.cpu.read a := by
    simp [Session.enterCode, Cpu.reg_setReg, Cpu.effect, Cpu.execute, Cpu.push, Cpu.read_write]
  obtain ⟨d, hfollow, hrdx, hcontext, hframe, hmask, hrsp, hread⟩ := hfollow
  obtain ⟨back, hthunk⟩ : ∃ back, Session.thunkPieces = [] ++ Piece.bind Session.entryThunk ::
      (Session.enterCode.dropLast.map Piece.instr ++ Piece.instr (.callReg .rdx) :: back) := ⟨_, rfl⟩
  have hkept {r : Reg} (hr : Reg.rsp.slot ≠ r.slot) {target ra : UInt64} :
      ((d.push ra).jump target).reg r = d.reg r := Cpu.reg_setReg_of_ne _ _ hr
  refine ⟨(d.push (image.address (s.placeOf Session.returnSite))).jump (d.reg .rdx),
    hload.thunk hthunk (by decide) (by simp) hrip hfollow fun here => ?_, hrdx, (hkept (by decide)).trans hcontext,
    (hkept (by decide)).trans hframe, (hkept (by decide)).trans hmask, ?_, fun a => ?_⟩
  · obtain ⟨back, hsite⟩ : ∃ back, Session.thunkPieces =
        (Piece.bind Session.entryThunk :: Session.enterCode.map Piece.instr) ++ Piece.bind Session.returnSite :: back :=
      ⟨_, rfl⟩
    rw [Loaded.placeOf_thunk hload hsite]
    rfl
  · rw [← hrsp]
    exact Cpu.reg_setReg_self ..
  · refine (Cpu.read_write ..).trans ?_
    rw [hrsp]
    exact congrArg (ite _ _) (hread a)

/-- The outermost function returns to the host. -/
theorem Running.returns (h : m.Running s image) (hrip : m.cpu.rip = image.address (s.placeOf Session.returnSite)) :
    ∃ c, m.cpu.Passes m.images (image.Direct Session.start.size) c ∧ c.rip = hostAddress ∧
      c.reg .rax = exitReturn.toUInt64 := by
  have hfollow : (Piece.follow (s.word image) none (Session.returnCode.map .instr) m.cpu).Stops
      [.instr .ret] fun d => d.reg .rax = exitReturn.toUInt64 ∧ d.read (d.reg .rsp) = hostAddress := by
    have hhost : m.cpu.read (m.context + X86.displacementWord Context.hostSP) = m.hostStack := h.host
    have hback : m.cpu.read m.hostStack = hostAddress := h.back
    have hcontext : m.cpu.pop.2.reg contextReg = m.context := (Cpu.reg_pop_of_ne _ (by decide)).trans h.context
    have hsp : X86.displacementWord Context.result ≠ X86.displacementWord Context.hostSP := by decide
    have hstack : m.context + X86.displacementWord Context.result ≠ m.hostStack :=
      fun heq => absurd ((UInt64.add_right_inj _).1 heq) (by decide)
    simp [Session.returnCode, Session.leave, Cpu.reg_setReg, Cpu.effect, Cpu.execute, Cpu.address, Cpu.read_write,
      hcontext, hsp, hstack, hhost, hback]
  obtain ⟨d, hfollow, hrax, hback⟩ := hfollow
  obtain ⟨back, hthunk⟩ : ∃ back, Session.thunkPieces =
      (Piece.bind Session.entryThunk :: Session.enterCode.map Piece.instr) ++ Piece.bind Session.returnSite ::
        (Session.returnCode.dropLast.map Piece.instr ++ Piece.instr .ret :: back) := ⟨_, rfl⟩
  exact ⟨d.pop.2.jump d.pop.1, h.loaded.thunk hthunk (by decide) (by simp) hrip hfollow fun _ => rfl, hback,
    (Cpu.reg_pop_of_ne _ (by decide)).trans hrax⟩

/-! ## Coming back -/

/-- What the host leaves alone while compiled code is suspended. -/
structure Preserves (m m' : Machine) : Prop where
  images : m'.images = m.images
  context : m'.context = m.context
  nativeBase : m'.nativeBase = m.nativeBase
  nativeEnd : m'.nativeEnd = m.nativeEnd
  sp : m'.contextWord Context.nativeSP = m.contextWord Context.nativeSP
  saved : ∀ p ∈ keptRegisters, m'.contextWord p.2 = m.contextWord p.2
  stack : ∀ a, (m.contextWord Context.nativeSP).toNat ≤ a.toNat → a.toNat < m.nativeEnd.toNat →
    m'.readWord a = m.readWord a

theorem Preserves.refl (m : Machine) : m.Preserves m :=
  ⟨rfl, rfl, rfl, rfl, rfl, fun _ _ => rfl, fun _ _ _ => rfl⟩

theorem foldl_restoreRegister_same (rs : List (Reg × Int32)) (m : Machine) :
    rs.foldl restoreRegister m = m.withCpu (rs.foldl restoreRegister m).cpu := by
  induction rs generalizing m with
  | nil => rfl
  | cons p rs ih =>
    rw [List.foldl_cons, ih (m.restoreRegister p)]
    rfl

theorem foldl_restoreRegister_reg {rs : List (Reg × Int32)}
    (hdistinct : (rs.map fun p => p.1.slot).Nodup) {p : Reg × Int32} (hp : p ∈ rs) (m : Machine) :
    (rs.foldl restoreRegister m).cpu.reg p.1 = m.contextWord p.2 := by
  induction rs generalizing m with
  | nil => cases hp
  | cons q rs ih =>
    rw [List.map_cons, List.nodup_cons] at hdistinct
    rw [List.foldl_cons]
    rcases List.mem_cons.1 hp with rfl | hp
    · rw [(foldl_restoreRegister rs (m.restoreRegister p)).2.2 p.1 fun q hq heq =>
        hdistinct.1 (heq ▸ List.mem_map_of_mem hq)]
      exact X86.Cpu.reg_setReg_self ..
    · exact (ih hdistinct.2 hp (m.restoreRegister q)).trans rfl

theorem resume_same (m : Machine) (r0 r1 : UInt64) : ∃ c, m.resume r0 r1 = m.withCpu c := by
  have hrestored (c : Cpu) : m.restored.withCpu c = m.withCpu c := by
    rw [restored, foldl_restoreRegister_same, withCpu_withCpu]
    cases m
    rfl
  exact ⟨_, (m.resume_eq r0 r1).trans (hrestored _)⟩

theorem resume_reg (m : Machine) (r0 r1 : UInt64) :
    (m.resume r0 r1).cpu.reg .rax = r0 ∧ (m.resume r0 r1).cpu.reg .rdx = r1 ∧
      (m.resume r0 r1).cpu.reg contextReg = m.context ∧
      ∀ p ∈ keptRegisters, (m.resume r0 r1).cpu.reg p.1 = m.contextWord p.2 := by
  have hpop {r : Reg} (hr : Reg.rsp.slot ≠ r.slot) :
      (m.resume r0 r1).cpu.reg r = (m.restored.answered r0 r1).reg r := by
    rw [resume_cpu, X86.Cpu.reg_jump, X86.Cpu.reg_pop_of_ne _ hr]
  refine ⟨?_, ?_, ?_, fun p hp => ?_⟩
  · rw [hpop (by decide), answered, X86.Cpu.reg_setReg_of_ne _ _ (by decide), X86.Cpu.reg_setReg_self]
  · rw [hpop (by decide), answered, X86.Cpu.reg_setReg_self]
  · rw [hpop (by decide), answered, X86.Cpu.reg_setReg_of_ne _ _ (by decide),
      X86.Cpu.reg_setReg_of_ne _ _ (by decide)]
    exact (X86.Cpu.reg_setReg_self ..).trans (foldl_restoreRegister keptRegisters m.leaveHost).2.1
  · have hfree : ∀ q ∈ keptRegisters, Reg.rsp.slot ≠ q.1.slot ∧ Reg.rax.slot ≠ q.1.slot ∧
        Reg.rdx.slot ≠ q.1.slot ∧ Reg.r13.slot ≠ q.1.slot ∧
        (56 : UInt64) ≠ X86.displacementWord q.2 ∧ (4088 : UInt64) ≠ X86.displacementWord q.2 := by
      decide
    obtain ⟨hrsp, hrax, hrdx, hr13, hhost, hback⟩ := hfree p hp
    rw [hpop hrsp, answered_reg _ _ _ hrax hrdx hr13, restored,
      foldl_restoreRegister_reg (by decide) hp, leaveHost_contextWord _ hhost hback]

theorem leaveHost_readWord (m : Machine) (a : UInt64) : m.leaveHost.readWord a =
    if m.hostStack = a then hostAddress else if m.context + 56 = a then m.hostStack else m.readWord a := by
  change ((m.setContextWord Context.hostSP m.hostStack).writeWord _ hostAddress).readWord a = _
  rw [readWord_writeWord, setContextWord, readWord_writeWord]
  rfl

theorem resume_read (m : Machine) (r0 r1 : UInt64) (a : UInt64) :
    (m.resume r0 r1).readWord a = if m.hostStack = a then hostAddress
      else if m.context + 56 = a then m.hostStack else m.readWord a := by
  have hread : (m.resume r0 r1).readWord a = m.leaveHost.readWord a := by
    rw [readWord, resume_cpu, X86.Cpu.read_jump, X86.Cpu.read_pop, answered_read, restored_read]
  exact hread.trans (m.leaveHost_readWord a)

/-- Compiled code is suspended, and can go on at the address on top of its native stack. -/
structure Waiting (m : Machine) (s : Session) (image : Image) : Prop where
  loaded : Loaded m.images s image
  orderly : m.Orderly
  mask : m.contextWord Context.savedR15 = Value.numberMask
  base : m.nativeBase.toNat ≤ (m.contextWord Context.nativeSP).toNat
  top : (m.contextWord Context.nativeSP).toNat + 8 ≤ m.nativeEnd.toNat

theorem Waiting.beyond_sp (h : m.Waiting s image) : m.Beyond (m.contextWord Context.nativeSP) :=
  Nat.le_trans h.orderly.context h.base

theorem Waiting.resumes (h : m.Waiting s image) (r0 r1 : UInt64) :
    (m.resume r0 r1).Running s image ∧
      (m.resume r0 r1).cpu.rip = m.readWord (m.contextWord Context.nativeSP) ∧
      (m.resume r0 r1).cpu.reg .rsp = m.contextWord Context.nativeSP + 8 ∧
      ∀ a, m.Beyond a → (m.resume r0 r1).readWord a = m.readWord a := by
  obtain ⟨-, -, hcontext, hsaved⟩ := m.resume_reg r0 r1
  have hread := m.resume_read r0 r1
  have hbeyond := h.beyond_sp
  have hhost : m.hostStack ≠ m.contextWord Context.nativeSP :=
    hbeyond.ne_context (k := 4088) (by decide)
  obtain ⟨hrip, -, hrsp⟩ := m.resume_spec r0 r1 hbeyond hhost
  obtain ⟨himages, hbase, hend, hsame, hhostStack⟩ :
      (m.resume r0 r1).images = m.images ∧ (m.resume r0 r1).nativeBase = m.nativeBase ∧
        (m.resume r0 r1).nativeEnd = m.nativeEnd ∧ (m.resume r0 r1).context = m.context ∧
        (m.resume r0 r1).hostStack = m.hostStack := by
    obtain ⟨c, hc⟩ := m.resume_same r0 r1
    rw [hc]
    exact ⟨rfl, rfl, rfl, rfl, rfl⟩
  have hsp : (m.contextWord Context.nativeSP + 8).toNat =
      (m.contextWord Context.nativeSP).toNat + 8 := by
    have htop := h.top
    have hnative := h.orderly.native
    rw [UInt64.toNat_add]
    exact Nat.mod_eq_of_lt (by change _ + 8 < _; omega)
  generalize m.resume r0 r1 = n at *
  have hmemory (a : UInt64) (ha : m.Beyond a) : n.readWord a = m.readWord a := by
    rw [hread, if_neg (show m.hostStack ≠ a from ha.ne_context (k := 4088) (by decide)),
      if_neg (ha.ne_context (by decide))]
  refine ⟨⟨?_, ?_, ?_, ?_, ?_, ?_, ?_, ?_⟩, hrip, hrsp, hmemory⟩
  · rw [himages]
    exact h.loaded
  · exact h.orderly.congr himages hsame hbase hend
  · exact hcontext.trans hsame.symm
  · exact (hsaved (.r15, Context.savedR15) (by decide)).trans h.mask
  · have hne : m.hostStack ≠ m.context + 56 := fun heq =>
      absurd ((UInt64.add_right_inj _).1 heq) (by decide)
    rw [hhostStack, contextWord, hsame, hread]
    exact (if_neg hne).trans (if_pos rfl)
  · rw [hhostStack, hread, if_pos rfl]
  · rw [hrsp, hsp, hbase]
    exact Nat.add_le_add_right h.base 8
  · rw [hrsp, hsp, hend]
    exact h.top

/-- Compiled code goes on after its call of a stub. -/
theorem Left.resumes {back : UInt64} (h : m.Running s image) (hleft : m.Left m' back)
    (hkeeps : m'.Preserves m'') (r0 r1 : UInt64) :
    (m''.resume r0 r1).Running s image ∧ (m''.resume r0 r1).cpu.rip = back ∧
      (m''.resume r0 r1).cpu.reg .rax = r0 ∧ (m''.resume r0 r1).cpu.reg .rdx = r1 ∧
      (∀ r ∈ roleRegs, (m''.resume r0 r1).cpu.reg r = m.cpu.reg r) ∧
      ∀ a, m.Beyond a → (m''.resume r0 r1).readWord a = m''.readWord a := by
  obtain ⟨hrax, hrdx, hcontext, hsaved⟩ := m''.resume_reg r0 r1
  have himages : m''.images = m.images := by rw [hkeeps.images, hleft.same]; rfl
  have hctx : m''.context = m.context := by rw [hkeeps.context, hleft.same]; rfl
  have hbase : m''.nativeBase = m.nativeBase := by rw [hkeeps.nativeBase, hleft.same]; rfl
  have hend : m''.nativeEnd = m.nativeEnd := by rw [hkeeps.nativeEnd, hleft.same]; rfl
  have htop : m'.nativeEnd = m.nativeEnd := by rw [hleft.same]; rfl
  have hsp : m''.contextWord Context.nativeSP = m.cpu.reg .rsp - 8 := hkeeps.sp.trans hleft.sp
  have hfirst := h.base
  have hlast := h.top
  have hkept (p : Reg × Int32) (hp : p ∈ keptRegisters) : m''.contextWord p.2 = m.cpu.reg p.1 :=
    (hkeeps.saved p hp).trans (hleft.saved p hp)
  have hwaiting : m''.Waiting s image := by
    refine ⟨himages ▸ h.loaded, h.orderly.congr himages hctx hbase hend,
      (hkept (.r15, Context.savedR15) (by decide)).trans h.mask, ?_, ?_⟩
    · rw [hsp, hbase, h.sp_sub]
      omega
    · rw [hsp, hend, h.sp_sub]
      omega
  obtain ⟨hrunning, hrip, hrsp, hmemory⟩ := hwaiting.resumes r0 r1
  have hstack : m''.readWord (m.cpu.reg .rsp - 8) = back := by
    refine (hkeeps.stack _ ?_ ?_).trans hleft.back
    · rw [hleft.sp]
    · rw [h.sp_sub, htop]
      omega
  refine ⟨hrunning, by rw [hrip, hsp, hstack], hrax, hrdx, fun r hr => ?_, fun a ha => hmemory a ?_⟩
  · simp only [roleRegs, List.mem_cons, List.not_mem_nil, or_false] at hr
    have hset (p : Reg × Int32) (hp : p ∈ keptRegisters) :
        (m''.resume r0 r1).cpu.reg p.1 = m.cpu.reg p.1 := (hsaved p hp).trans (hkept p hp)
    rcases hr with rfl | rfl | rfl | rfl | rfl | rfl | rfl
    · rw [hrsp, hsp, UInt64.sub_add_cancel]
    · exact hset (.rbx, Context.savedRBX) (by decide)
    · exact hset (.rbp, Context.savedRBP) (by decide)
    · exact hset (.r12, Context.savedR12) (by decide)
    · exact hcontext.trans (hctx.trans h.context.symm)
    · exact hset (.r14, Context.savedR14) (by decide)
    · exact hset (.r15, Context.savedR15) (by decide)
  · rw [Beyond, hctx]
    exact ha

/-- While a stub is served, the native stack stays as it is. -/
theorem Left.keepsStack {s : Session} {image : Image} {back : UInt64} (h : m.Running s image) (hleft : m.Left m' back)
    (hkept : m'.Preserves m'') (r0 r1 : UInt64) : m.KeepsStack (m''.resume r0 r1) (m.cpu.reg .rsp) := by
  obtain ⟨-, -, -, -, -, hmemory⟩ := hleft.resumes h hkept r0 r1
  have hfirst := h.base
  have hcontext := h.orderly.context
  have hsub := h.sp_sub
  obtain ⟨d, hd⟩ := m''.resume_same r0 r1
  have hsame := hleft.same
  refine ⟨?_, ?_, ?_, ?_, fun a ha ha' => ?_⟩
  · rw [hd]
    exact hkept.images.trans (by rw [hsame]; rfl)
  · rw [hd]
    exact hkept.context.trans (by rw [hsame]; rfl)
  · rw [hd]
    exact hkept.nativeBase.trans (by rw [hsame]; rfl)
  · rw [hd]
    exact hkept.nativeEnd.trans (by rw [hsame]; rfl)
  · have hbeyond : m.Beyond a := by
      rw [Beyond]
      omega
    have htop : m'.nativeEnd = m.nativeEnd := by
      rw [hsame]
      rfl
    calc (m''.resume r0 r1).readWord a
        = m''.readWord a := hmemory a hbeyond
      _ = m'.readWord a := hkept.stack a (by rw [hleft.sp]; omega) (by rw [htop]; exact ha')
      _ = m.readWord a := hleft.memory a hbeyond fun heq => by rw [heq] at ha; omega

/-! ## The calls under way -/

theorem Works.underway {frame : Run.FrameRef} {calls : List ActiveCall} (h : m.Running s image)
    (hw : m.Works m') (hunder : m.Underway frame calls) : m'.Underway frame calls := by
  obtain ⟨himages, hbase, hend, hcontext⟩ := hw.regions
  have hfirst := h.base
  refine hunder.work (hw.kept _ (by decide)) ⟨himages, hcontext, hbase, hend, fun a ha _ => hw.memory a fun hon => ?_⟩
  have hbelow := hon.2
  omega

/-- Leaving by the thunk shows the call that leaves on the native stack, below the calls that wait for it. -/
theorem Left.leaves {back : UInt64} {c : ActiveCall} (h : m.Running s image) (hleft : m.Left m' back)
    (hframe : m.cpu.reg frameReg = c.frame) (hwaits : c.Waits m back) : m.Leaves c m' := by
  have hfirst := h.base
  have hcontext := h.orderly.context
  have hsub := h.sp_sub
  refine ⟨h.base, hleft.back.symm ▸ hwaits, hleft.sp,
    (hleft.saved (.r12, Context.savedR12) (by decide)).trans hframe, ?_⟩
  rw [hleft.same]
  refine ⟨rfl, rfl, rfl, rfl, fun a ha _ => ?_⟩
  rw [← hleft.same]
  refine hleft.memory a ?_ fun heq => ?_
  · rw [Beyond]
    omega
  · rw [heq] at ha
    omega

theorem Left.underway {back : UInt64} {frame : Run.FrameRef} {calls : List ActiveCall} (h : m.Running s image)
    (hleft : m.Left m' back) (hkeeps : m'.Preserves m'') (r0 r1 : UInt64) (hunder : m.Underway frame calls) :
    (m''.resume r0 r1).Underway frame calls := by
  obtain ⟨-, -, -, -, hkept, -⟩ := hleft.resumes h hkeeps r0 r1
  have hfirst := h.base
  exact hunder.work (hkept _ (by decide)) ((hleft.keepsStack h hkeeps r0 r1).mono (by omega))

end Machine

end RegisterJit
