import RegisterJit.Proofs.Subroutines

/-!
# Finally blocks

A finally block is entered by a jump that it is to come back after, or by an exception that it is to throw again.
Either way two registers of the frame say so, and the return at the end of the block does what they say.

`Rethrows` and the two halves of `finally_blocks_return` follow the two ways in. By a jump, the stored word is
an aligned address boxed as a double, which `Subroutines` shows to be read back by host and emitted code alike,
so the return goes to the instruction after the jump. By an exception, the handler is given the value and a
flag, and the return throws that very value again. `OnlyFatal` deals with what else could be thrown while the
message is made. Both rest on the two registers being left alone by the block, `Untouched`, which is a condition
on the block and not on its code. The witness enters one block both ways.
-/

namespace RegisterJit

open X86 (Reg Instr Label Cpu)

/-! ## Throwing again -/

namespace Run

variable {α β : Type}

/-- The faults of a step stop the run for good. -/
def OnlyFatal (x : Run α) : Prop := ∀ w f w', x w = .error f w' → f.isRecoverable = false

theorem onlyFatal_pure (a : α) : OnlyFatal (pure a) := fun _ _ _ h => nomatch h

theorem OnlyFatal.bind {x : Run α} {k : α → Run β} (hx : OnlyFatal x) (hk : ∀ a, OnlyFatal (k a)) :
    OnlyFatal (x >>= k) := by
  intro w f w' h
  change EStateM.bind x k w = _ at h
  rw [EStateM.bind] at h
  cases hrun : x w with
  | ok a w₁ =>
    rw [hrun] at h
    exact hk a w₁ f w' h
  | error f₁ w₁ =>
    rw [hrun] at h
    cases h
    exact hx w f w' hrun

theorem onlyFatal_heap : OnlyFatal heap := fun _ _ _ h => nomatch h

theorem onlyFatal_attempt (x : Run α) : OnlyFatal (attempt x) := by
  intro w f w' h
  unfold attempt at h
  cases hrun : x w with
  | ok a w₁ =>
    rw [hrun] at h
    cases h
  | error f₁ w₁ =>
    rw [hrun] at h
    dsimp only at h
    split_ifs at h with hf
    · cases h
      exact Bool.eq_false_iff.2 hf

theorem onlyFatal_object (r : ObjectRef) : OnlyFatal (object r) := by
  refine onlyFatal_heap.bind fun h => ?_
  cases h.object? r with
  | some o => exact onlyFatal_pure o
  | none =>
    intro w f w' h
    cases h
    rfl

theorem onlyFatal_classText (o : Object) : OnlyFatal (classText o) := by
  unfold classText
  split
  · exact onlyFatal_pure _
  · exact onlyFatal_heap.bind fun h => onlyFatal_pure _

theorem onlyFatal_displayWith (ev : Evaluator) (v : Value) : OnlyFatal (displayWith ev v) := by
  unfold displayWith
  split
  · refine (onlyFatal_object _).bind fun o => ?_
    dsimp only
    split
    · refine (onlyFatal_attempt _).bind fun t => ?_
      cases t with
      | ok t => exact onlyFatal_pure t
      | error f => exact onlyFatal_classText o
    · exact onlyFatal_pure _
    · exact onlyFatal_heap.bind fun h => onlyFatal_pure _
    · exact onlyFatal_heap.bind fun h => onlyFatal_pure _
    · exact onlyFatal_classText o
  · exact onlyFatal_heap.bind fun h => onlyFatal_pure _

theorem onlyFatal_display (v : Value) : OnlyFatal (onMachine.display v) := by
  obtain ⟨n, hn⟩ : ∃ n, nestingBound = n + 1 := ⟨2 ^ 62 - 1, by decide⟩
  rw [onMachine, hn]
  exact onlyFatal_displayWith (evaluator false n) v

/-- The stub of throwing throws its argument, after it has shown it for the message. -/
theorem serves_throw (ev : Evaluator) (p : Machine.PendingStub) (w : World) :
    serves ev .throw p w = match ev.display ⟨p.a⟩ w with
      | .ok shown w₁ => .error (.thrown ⟨p.a⟩ shown) w₁
      | .error f w₁ => .error f w₁ := by
  change EStateM.bind (ev.display ⟨p.a⟩) _ w = _
  rw [EStateM.bind]
  cases ev.display ⟨p.a⟩ w <;> rfl

end Run

namespace World

variable {w : World} {v : Value}

/-- A value is thrown: once it has been shown for the message, it is delivered. -/
structure Rethrows (w : World) (v : Value) : Prop where
  asks : w.machine.Asks .throw [v.word]
  shown : ∀ message w₁, Run.onMachine.display v (w.counts .throw) = .ok message w₁ →
    Run.serveStub Run.onMachine w = Run.deliver v message w₁
  fatal : ∀ f w₁, Run.onMachine.display v (w.counts .throw) = .error f w₁ →
    f.isRecoverable = false ∧ Run.serveStub Run.onMachine w = .error f w₁

theorem rethrows_of_asks (h : w.machine.Asks .throw [v.word]) : w.Rethrows v := by
  have ha : w.machine.pendingStub.a = v.word := (List.cons.inj h.args).1
  have hserves := Run.serves_throw Run.onMachine w.machine.pendingStub (w.counts .throw)
  rw [ha] at hserves
  refine ⟨h, fun message w₁ hshown => Run.serveStub_thrown h ?_, fun f w₁ hfault => ?_⟩
  · rw [hserves, hshown]
  · have hfatal := Run.onlyFatal_display v _ f w₁ hfault
    rw [hfault] at hserves
    refine ⟨hfatal, ?_⟩
    rw [Run.serveStub_eq h, Run.attempt, hserves]
    simp [hfatal]

end World

/-! ## Entering by an exception -/

namespace Machine.HasRegister

variable {m : Machine} {frame : UInt64} {r : Register}

theorem exists_offset (h : m.HasRegister frame r) : ∃ d, Frame.registerOffset? r = some d := by
  have hlow := h.low
  unfold Frame.registerOffset?
  rw [if_neg fun hinvalid => by rw [hinvalid] at hlow; exact absurd hlow (by decide)]
  split <;> exact ⟨_, rfl⟩

end Machine.HasRegister

namespace Run

variable {v : Value} {w : World} {sp target : UInt64} {frame : FrameRef} {h : Handler}

/-- Entering a handler that is no catch leaves what was thrown in one register of the frame, and in another that
it is to be thrown again. -/
theorem enterHandler_pending (p : PlacedUnit) (hm : w.machine.Orderly)
    (hsp : w.machine.nativeBase.toNat ≤ sp.toNat)
    (hframe : w.machine.OnRegisterStack (frame + X86.displacementWord Frame.lexicalEnv))
    (hkind : h.kind ≠ Handler.kindCatch) (hjump : w.machine.HasRegister frame h.jump)
    (hflag : w.machine.HasRegister frame h.flag) (hne : h.jump ≠ h.flag) :
    ∃ w', enterHandler v sp frame p h target w = execute w' ∧ w'.machine.cpu.rip = target ∧
      w'.machine.cpu.reg frameReg = frame ∧ w'.machine.Holds h.jump v.word ∧
      w'.machine.Holds h.flag (Value.int32 finallyThrow).word := by
  obtain ⟨jump, hj⟩ := hjump.exists_offset
  obtain ⟨flag, hf⟩ := hflag.exists_offset
  have hbeyond : w.machine.Beyond sp := Nat.le_trans hm.context hsp
  have hsuspended := suspended_of_writes hbeyond target
    (frame + X86.displacementWord (Frame.limit p.unit.code.registerCount)) frame
  unfold enterHandler
  rw [modifyMachine_bind]
  dsimp only
  generalize (((w.machine.writeWord sp target).setContextWord Context.nativeSP sp).setContextWord
      Context.savedR12 frame).setContextWord Context.stackPointer
    (frame + X86.displacementWord (Frame.limit p.unit.code.registerCount)) = m at hsuspended ⊢
  rw [if_neg hkind, setRegister, setRegister, hf, hj]
  dsimp only
  rw [modifyMachine_bind, modifyMachine_bind]
  obtain ⟨e, he⟩ := unwindEnv_ok { w with
    machine := (m.setFrameWord frame flag (Value.int32 finallyThrow).word).setFrameWord frame jump v.word }
    frame h.level
  have hsuspended' := ((hsuspended.setFrameWord hsp (hflag.slot flag hf)
    (Value.int32 finallyThrow).word).setFrameWord hsp (hjump.slot jump hj) v.word).setFrameWord hsp hframe e
  obtain ⟨hrip, hreg, -⟩ := hsuspended'.resume hbeyond 0 0
  have hread {a : UInt64} (ha : w.machine.OnRegisterStack a)
      (hheader : frame + X86.displacementWord Frame.lexicalEnv ≠ a) :
      ((((m.setFrameWord frame flag (Value.int32 finallyThrow).word).setFrameWord frame jump
        v.word).setFrameWord frame Frame.lexicalEnv e).resume 0 0).readWord a =
      ((m.setFrameWord frame flag (Value.int32 finallyThrow).word).setFrameWord frame jump
        v.word).readWord a := by
    have hcontext : ((m.setFrameWord frame flag (Value.int32 finallyThrow).word).setFrameWord frame jump
        v.word |>.setFrameWord frame Frame.lexicalEnv e).context = w.machine.context := hsuspended'.context
    rw [Machine.resume_read, Machine.hostStack, hcontext, if_neg (ha.1.ne_context (by decide)),
      if_neg (ha.1.ne_context (by decide)), Machine.setFrameWord_read hheader]
  refine ⟨{ w with machine := (((m.setFrameWord frame flag (Value.int32 finallyThrow).word).setFrameWord frame
      jump v.word).setFrameWord frame Frame.lexicalEnv e).resume 0 0 }, ?_, hrip, hreg, ⟨jump, hj, ?_⟩,
      flag, hf, ?_⟩
  · change EStateM.bind (unwindEnv frame h.level) _ _ = _
    rw [EStateM.bind, he]
    exact resume_eq 0 0 _
  · dsimp only
    rw [hreg, hread (hjump.slot jump hj) (hjump.slot_ne_header hj (by decide) (by decide))]
    exact Machine.readWord_writeWord_self ..
  · dsimp only
    rw [hreg, hread (hflag.slot flag hf) (hflag.slot_ne_header hf (by decide) (by decide)),
      Machine.setFrameWord_read (hjump.slot_ne hflag hne hj hf)]
    exact Machine.readWord_writeWord_self ..

/-- An exception that is given to a finally block is pending there. -/
theorem HandedTo.pending {c : ActiveCall} {r : EStateM.Result Fault World UInt64} (hr : HandedTo v w sp c h r)
    (hm : w.machine.Orderly) (hkind : h.kind ≠ Handler.kindCatch)
    (hjump : w.machine.HasRegister c.frame h.jump) (hflag : w.machine.HasRegister c.frame h.flag)
    (hne : h.jump ≠ h.flag) :
    ∃ w' target, c.Resumes h target ∧ r = execute w' ∧ w'.machine.cpu.rip = target ∧
      w'.machine.cpu.reg frameReg = c.frame ∧ w'.machine.Holds h.jump v.word ∧
      w'.machine.Holds h.flag (Value.int32 finallyThrow).word := by
  obtain ⟨u, target, -, hresumes, rfl⟩ := hr.entered
  obtain ⟨w', heq, hstate⟩ := enterHandler_pending u hm hr.base hr.frame hkind hjump hflag hne
  exact ⟨w', target, hresumes, heq, hstate⟩

end Run

/-! ## Leaving -/

namespace Machine

/-- The frame is the same, and two registers of it hold what they held. -/
structure Untouched (m m' : Machine) (jump flag : Register) : Prop where
  frame : m'.cpu.reg frameReg = m.cpu.reg frameReg
  jump : ∀ w, m.Holds jump w → m'.Holds jump w
  flag : ∀ w, m.Holds flag w → m'.Holds flag w

theorem Holds.unique {m : Machine} {r : Register} {w w' : UInt64} (h : m.Holds r w) (h' : m.Holds r w') :
    w = w' := by
  obtain ⟨d, hd, hw⟩ := h
  obtain ⟨d', hd', hw'⟩ := h'
  obtain rfl : d = d' := Option.some.inj (hd.symm.trans hd')
  exact hw.symm.trans hw'

theorem Untouched.refl (m : Machine) (jump flag : Register) : m.Untouched m jump flag :=
  ⟨rfl, fun _ h => h, fun _ h => h⟩

variable {m : Machine} {s : Session} {image : Image} {c : CompiledUnit} {ret : Instruction} {span : Span}

/-- A return from a finally block that is to come back for the code at an offset goes there. -/
theorem Reaches.returns {next : UInt32} (h : m.Reaches s image c ret.offset.toUInt32)
    (ht : s.Translates c ret span) (hop : ret.opcode = .returnSubroutine)
    (hpending : m.Pending s image c (ret.reg 0) (ret.reg 1) (.resume next)) :
    m.Comes fun m' => m'.Reaches s image c next ∧ m'.cpu.reg frameReg = m.cpu.reg frameReg := by
  obtain ⟨v, place, -, hstarts, haddress, hjump, hflag⟩ := hpending
  obtain ⟨x, hgoes, hrunning, hrip, hframe⟩ := h.resumes ht hop hjump hflag
  exact ⟨x, hgoes, ⟨hrunning, place, hstarts, hrip.trans haddress⟩, hframe⟩

end Machine

/-- A return from a finally block that is to throw throws what was delivered. -/
theorem World.rethrows_of_pending {w : World} {s : Session} {image : Image} {c : CompiledUnit}
    {ret : Instruction} {span : Span} {v : Value} (h : w.machine.Reaches s image c ret.offset.toUInt32)
    (ht : s.Translates c ret span) (hop : ret.opcode = .returnSubroutine)
    (hpending : w.machine.Pending s image c (ret.reg 0) (ret.reg 1) (.throw v)) :
    w.machine.Comes fun m => World.Rethrows { w with machine := m } v := by
  obtain ⟨x, hgoes, hasks⟩ := h.throws ht hop hpending.1 hpending.2 (by decide)
  exact ⟨x, hgoes, World.rethrows_of_asks hasks⟩

/-- An exception is handed to the innermost call that lies in the region of a handler. -/
theorem Run.handedTo_deliver (v : Value) (message : Text) {w : World} {inner outer : List ActiveCall}
    {c : ActiveCall} {h : Handler} (hm : w.machine.Orderly)
    (hstack : w.machine.NativeStack (w.machine.contextWord Context.nativeSP) w.machine.frame
      (inner ++ c :: outer)) (hnone : ∀ d ∈ inner, d.handler? = none) (hh : c.handler? = some h) :
    Run.HandedTo v w (w.machine.contextWord Context.nativeSP + 16 * inner.length.toUInt64) c h
      (Run.deliver v message w) := by
  have hlength := hstack.length_le hm
  rw [List.length_append, List.length_cons] at hlength
  refine Run.deliverFrom_covered hm hstack hnone hh ?_ rfl
  rw [UInt64.toNat_sub_of_le _ _ (UInt64.le_iff_toNat_le.2 (by omega))]
  omega

/-- The protocol of finally blocks. A jump into a finally block stores the address of the code after the jump, as a
double that the host and the emitted code read back; if the block leaves both registers alone, its return goes
there. If the block was given an exception instead, and leaves them alone, its return throws the same value. -/
theorem finally_blocks_return :
    (∀ (m : Machine) (s : Session) (image : Image) (c : CompiledUnit) (ins : Instruction) (span : Span)
      (target : UInt32), m.Reaches s image c ins.offset.toUInt32 → s.Translates c ins span →
      ins.opcode = .jumpSubroutine → ins.target? = some target → image.base.toNat % 16 = 0 →
      ins.reg 0 ≠ ins.reg 1 → m.HasRegister (m.cpu.reg frameReg) (ins.reg 0) →
      m.HasRegister (m.cpu.reg frameReg) (ins.reg 1) →
      m.Comes fun m₁ => m₁.Reaches s image c target ∧ m₁.cpu.reg frameReg = m.cpu.reg frameReg ∧
        (∃ (v : Value) (place : Nat), m₁.Holds (ins.reg 0) v.word ∧ v.isDouble ∧
          s.Starts c ins.next.toUInt32 place ∧ v.toAddress = image.address place ∧
          X86.Cpu.rotateLeft v.word 16 &&& X86.displacementWord (-2) = image.address place) ∧
        ∀ (m₂ : Machine) (ret : Instruction) (span' : Span), m₂.Reaches s image c ret.offset.toUInt32 →
          s.Translates c ret span' → ret.opcode = .returnSubroutine → ret.reg 0 = ins.reg 0 →
          ret.reg 1 = ins.reg 1 → m₁.Untouched m₂ (ins.reg 0) (ins.reg 1) →
          m₂.Comes fun m₃ => m₃.Reaches s image c ins.next.toUInt32 ∧
            m₃.cpu.reg frameReg = m.cpu.reg frameReg) ∧
    ∀ (v : Value) (message : Text) (w : World) (inner outer : List ActiveCall) (c : ActiveCall) (h : Handler),
      w.machine.Orderly →
      w.machine.NativeStack (w.machine.contextWord Context.nativeSP) w.machine.frame (inner ++ c :: outer) →
      (∀ d ∈ inner, d.handler? = none) → c.handler? = some h → h.kind ≠ Handler.kindCatch →
      h.jump ≠ h.flag → w.machine.HasRegister c.frame h.jump → w.machine.HasRegister c.frame h.flag →
      ∃ w₁ target, c.Resumes h target ∧ Run.deliver v message w = Run.execute w₁ ∧
        w₁.machine.cpu.rip = target ∧ w₁.machine.cpu.reg frameReg = c.frame ∧
        w₁.machine.Holds h.jump v.word ∧ w₁.machine.Holds h.flag (Value.int32 finallyThrow).word ∧
        ∀ (w₂ : World) (ret : Instruction) (span : Span),
          w₂.machine.Reaches c.session c.image c.unit ret.offset.toUInt32 →
          c.session.Translates c.unit ret span → ret.opcode = .returnSubroutine → ret.reg 0 = h.jump →
          ret.reg 1 = h.flag → w₁.machine.Untouched w₂.machine h.jump h.flag →
          w₂.machine.Comes fun m₃ => World.Rethrows { w₂ with machine := m₃ } v := by
  constructor
  · intro m s image c ins span target h ht hop htarget hbase hne hjump hflag
    obtain ⟨x, hpasses, hreaches, hframe, hpending, -⟩ := h.enters ht hop htarget hbase hne hjump hflag
    have hstored := hpending
    obtain ⟨v, place, hdouble, hstarts, haddress, hholds, hholds'⟩ := hstored
    refine ⟨x, hpasses.goes, hreaches, hframe, ⟨v, place, hholds, hdouble, hstarts, haddress,
      (Value.rotateLeft_and v).trans haddress⟩, fun m₂ ret span' h₂ ht₂ hop₂ hreg hreg' huntouched => ?_⟩
    have hpending₂ : m₂.Pending s image c (ret.reg 0) (ret.reg 1) (.resume ins.next.toUInt32) := by
      rw [hreg, hreg']
      exact ⟨v, place, hdouble, hstarts, haddress, huntouched.jump _ hholds, huntouched.flag _ hholds'⟩
    obtain ⟨y, hgoes', hreaches', hframe'⟩ := h₂.returns ht₂ hop₂ hpending₂
    exact ⟨y, hgoes', hreaches', hframe'.trans (huntouched.frame.trans hframe)⟩
  · intro v message w inner outer c h hm hstack hnone hh hkind hne hjump hflag
    obtain ⟨w₁, target, hresumes, heq, hrip, hframe, hholds, hholds'⟩ :=
      (Run.handedTo_deliver v message hm hstack hnone hh).pending hm hkind hjump hflag hne
    refine ⟨w₁, target, hresumes, heq, hrip, hframe, hholds, hholds',
      fun w₂ ret span h₂ ht₂ hop₂ hreg hreg' huntouched => World.rethrows_of_pending h₂ ht₂ hop₂ ?_⟩
    rw [hreg, hreg']
    exact ⟨huntouched.jump _ hholds, huntouched.flag _ hholds'⟩

/-- A code with a finally block that an exception enters and a jump. -/
def finallyText : Text := Text.ofString
  "function main regs=3
  try:
    LOAD_UNDEFINED r2
    THROW r2
  block:
    RETURN_SUBROUTINE r0, r1
    JUMP_SUBROUTINE r0, r1, block
    RETURN r2
    .finally try, block, jump=r0, flag=r1
  end"

/-- Its unit. -/
def finallyUnit : CodeUnit :=
  ⟨0, 0, (Listing.parse finallyText).toOption.getD (Code.ofName []), #[]⟩

/-- Whether the third of five instructions returns from where the fourth enters it. -/
def entersBlock : List Instruction → Bool
  | [_, _, ret, enter, _] =>
    decide ((ret.opcode = .returnSubroutine ∧ ret.reg 0 = .ofNat 0 ∧ ret.reg 1 = .ofNat 1) ∧
      enter.opcode = .jumpSubroutine ∧ enter.target? = some ret.offset.toUInt32 ∧
        enter.reg 0 = .ofNat 0 ∧ enter.reg 1 = .ofNat 1)
  | _ => false

-- One evaluation of the parsed text serves all five facts.
theorem finallyUnit_facts : finallyUnit.linksAlone = true ∧ finallyUnit.callsAlone 2 = true ∧
    (∃ h, finallyUnit.code.handlerOf? 2 = some h ∧ h.kind ≠ Handler.kindCatch ∧ h.jump = .ofNat 0 ∧
      h.flag = .ofNat 1) ∧
    ∃ load throw ret enter last : Instruction,
      Stream.instructions finallyUnit.code.data = [load, throw, ret, enter, last] ∧
      (ret.opcode = .returnSubroutine ∧ ret.reg 0 = .ofNat 0 ∧ ret.reg 1 = .ofNat 1) ∧
      enter.opcode = .jumpSubroutine ∧ enter.target? = some ret.offset.toUInt32 ∧
        enter.reg 0 = .ofNat 0 ∧ enter.reg 1 = .ofNat 1 := by
  have hrun : (finallyUnit.piecesLinkAlone && finallyUnit.callsAlone 2 &&
      (finallyUnit.code.handlerOf? 2).any (fun h => decide (h.kind ≠ Handler.kindCatch ∧
        h.jump = .ofNat 0 ∧ h.flag = .ofNat 1)) &&
      entersBlock (Stream.instructions finallyUnit.code.data)) = true := by decide +kernel
  simp only [Bool.and_eq_true, entersBlock.eq_def] at hrun
  obtain ⟨⟨⟨hlinks, hcalls⟩, hhandler⟩, hlist⟩ := hrun
  obtain ⟨h, hh, hkind⟩ := (Option.any_eq_true _ _).1 hhandler
  refine ⟨CodeUnit.linksAlone_of_pieces hlinks, hcalls, ⟨h, hh, of_decide_eq_true hkind⟩, ?_⟩
  split at hlist
  · rename_i load throw ret enter last heq
    exact ⟨load, throw, ret, enter, last, heq, of_decide_eq_true hlist⟩
  · cases hlist

theorem Machine.poised_hasRegister (img : LoadedImage) (pc : UInt64) {r : Register}
    (hr : r = .ofNat 0 ∨ r = .ofNat 1) :
    (poised img pc).HasRegister ((poised img pc).cpu.reg frameReg) r := by
  rcases hr with rfl | rfl <;>
    exact ⟨by decide, by decide, fun d hd => poised_slot _ _ (by decide) hd⟩

/-- A machine that has come to the code for an offset with two words in the registers of its frame. -/
theorem Machine.exists_holding {img : LoadedImage} {s : Session} {image : Image} {c : CompiledUnit}
    {offset : UInt32} {place : Nat} (h : Loaded #[img] s image) (hstarts : s.Starts c offset place)
    (x y : UInt64) : ∃ m : Machine, m.Reaches s image c offset ∧ m.cpu.reg frameReg = poisedFrame ∧
      m.Holds (.ofNat 0) x ∧ m.Holds (.ofNat 1) y := by
  have hregister (r : Register) (hr : r = .ofNat 0 ∨ r = .ofNat 1) :=
    poised_hasRegister img (image.address place) hr
  have hworks := Works.of_write_write (X86.Cpu.Computes.refl _) ((hregister _ (.inl rfl)).slot 72 rfl)
    ((hregister _ (.inr rfl)).slot 80 rfl) x y
  generalize hm : withCpu _ _ = m at hworks
  have hread (a : UInt64) : m.readWord a = if poisedFrame + X86.displacementWord 80 = a then y
      else if poisedFrame + X86.displacementWord 72 = a then x
      else (poised img (image.address place)).readWord a := by
    rw [← hm]
    exact (X86.Cpu.read_write ..).trans (by rw [X86.Cpu.read_write]; rfl)
  have hframe : m.cpu.reg frameReg = poisedFrame := by rw [← hm]; rfl
  have hrip : m.cpu.rip = image.address place := by rw [← hm]; rfl
  refine ⟨m, ⟨(poised_running img (image.address place) h).works hworks, place, hstarts, hrip⟩, hframe,
    ⟨72, rfl, ?_⟩, 80, rfl, ?_⟩
  · rw [hframe, hread, if_neg (by decide), if_pos rfl]
  · rw [hframe, hread, if_pos rfl]

namespace Run

/-- A machine in a run of an image, with one call under way that has called a stub. -/
def throwingMachine (img : LoadedImage) (ra : UInt64) : Machine :=
  let m : Machine := ⟨CodeMemory.ofSize Machine.codeBase 0, Machine.dataBase,
    Machine.nativeStackBase, Machine.nativeStackBase + 4096, #[], #[img], 1, X86.Cpu.blank⟩
  ((((m.setContextWord Context.nativeSP (Machine.nativeStackBase + 1024)).setContextWord
    Context.savedR12 (Machine.dataBase + 8192)).writeWord (Machine.nativeStackBase + 1024)
    ra).writeWord (Machine.nativeStackBase + 1040) img.returnSite)

theorem throwingMachine_words (img : LoadedImage) (ra : UInt64) :
    (throwingMachine img ra).contextWord Context.nativeSP = Machine.nativeStackBase + 1024 ∧
      (throwingMachine img ra).frame = Machine.dataBase + 8192 ∧
      (throwingMachine img ra).readWord (Machine.nativeStackBase + 1024) = ra ∧
      (throwingMachine img ra).readWord (Machine.nativeStackBase + 1040) = img.returnSite := by
  have hread (d : Int32) (h : Machine.nativeStackBase + 1024 ≠ Machine.dataBase + X86.displacementWord d)
      (h' : Machine.nativeStackBase + 1040 ≠ Machine.dataBase + X86.displacementWord d) (m : Machine)
      (hm : m.context = Machine.dataBase) (x y : UInt64) :
      ((m.writeWord (Machine.nativeStackBase + 1024) x).writeWord (Machine.nativeStackBase + 1040)
        y).contextWord d = m.contextWord d := by
    rw [Machine.contextWord, Machine.context_writeWord, Machine.context_writeWord, hm,
      Machine.readWord_writeWord_of_ne h', Machine.readWord_writeWord_of_ne h, Machine.contextWord, hm]
  unfold throwingMachine
  refine ⟨?_, ?_, ?_, Machine.readWord_writeWord_self ..⟩
  · rw [hread _ (by decide) (by decide) _ rfl, Machine.contextWord_setContextWord_of_ne _ _ (by decide),
      Machine.contextWord_setContextWord_self]
  · rw [Machine.frame, hread _ (by decide) (by decide) _ rfl, Machine.contextWord_setContextWord_self]
  · rw [Machine.readWord_writeWord_of_ne (by decide), Machine.readWord_writeWord_self]

theorem throwingMachine_orderly (img : LoadedImage) (ra : UInt64) :
    (throwingMachine img ra).Orderly := by
  refine ⟨fun a ha b hb pc _ _ => ?_, ?_, ?_⟩
  · rw [show (throwingMachine img ra).images.toList = [img] from rfl, List.mem_singleton] at ha hb
    rw [ha, hb]
  · rw [show (throwingMachine img ra).context = Machine.dataBase from rfl,
      show (throwingMachine img ra).nativeBase = Machine.nativeStackBase from rfl]
    decide
  · rw [show (throwingMachine img ra).nativeEnd = Machine.nativeStackBase + 4096 from rfl]
    decide

theorem throwingMachine_stack {s : Session} {image : Image} {c : CompiledUnit} {offset : UInt32} {place : Nat}
    (hplaced : s.PlacedIn image) (hc : c ∈ s.programs.toList) (hcalls : s.Calls c.unit.key offset place)
    {m : Machine} (hm : throwingMachine (LoadedImage.ofImage image) (image.base + place.toUInt64) = m) :
    m.NativeStack (m.contextWord Context.nativeSP) m.frame [⟨image, s, c, offset, m.frame⟩] := by
  obtain ⟨parts, hparts⟩ := hplaced.placed
  generalize himg : LoadedImage.ofImage image = img at hm
  have horderly : m.Orderly := hm ▸ throwingMachine_orderly ..
  obtain ⟨hsp, hframe, hreturn, hsite⟩ := throwingMachine_words img (image.base + place.toUInt64)
  rw [hm] at hsp hframe hreturn hsite
  have hcontext : m.context = Machine.dataBase := by rw [← hm]; rfl
  have hnative : m.nativeBase = Machine.nativeStackBase := by rw [← hm]; rfl
  have hend : m.nativeEnd = Machine.nativeStackBase + 4096 := by rw [← hm]; rfl
  have hmem : img ∈ m.images.toList := by
    rw [← hm]
    exact List.mem_singleton_self img
  have himage : img.toImage = image := by rw [← himg]; rfl
  have hwaits : (⟨image, s, c, offset, m.frame⟩ : ActiveCall).Waits m
      (m.readWord (Machine.nativeStackBase + 1024)) := by
    refine ⟨⟨img, hmem, himage⟩, hplaced, hc, ⟨place, hcalls, hreturn⟩, ?_⟩
    rw [hframe, Machine.OnRegisterStack, Machine.Beyond, hcontext, hnative]
    dsimp only
    decide
  have hentered : m.NativeStack (Machine.nativeStackBase + 1024 + 16)
      (m.readWord (Machine.nativeStackBase + 1024 + 24)) [] := by
    rw [← himage] at hparts
    refine .entered (by rw [hnative]; decide) (by rw [hend]; decide)
      (Machine.imageOf_eq horderly hmem ?_) hsite
    rw [show Machine.nativeStackBase + 1024 + 16 = Machine.nativeStackBase + 1040 by decide, hsite]
    exact (hparts.call_inside hcalls).2.1
  rw [hsp]
  exact .call (by rw [hnative]; decide) (by rw [hend]; decide) hwaits hentered

end Run

theorem finally_blocks_return_entered :
    ∃ (s : Session) (image : Image) (c : CompiledUnit) (ret enter : Instruction),
      c.unit = finallyUnit ∧
      (∃ m : Machine, m.Reaches s image c enter.offset.toUInt32 ∧
        m.Comes fun m₁ => m₁.Reaches s image c ret.offset.toUInt32 ∧
          m₁.Comes fun m₃ => m₃.Reaches s image c enter.next.toUInt32) ∧
      ∀ (v : Value) (message : Text), ∃ w w₁ w₂ : World,
        Run.deliver v message w = Run.execute w₁ ∧
          w₁.machine.Untouched w₂.machine (.ofNat 0) (.ofNat 1) ∧
          w₂.machine.Reaches s image c ret.offset.toUInt32 ∧
          w₂.machine.Comes fun m₃ => World.Rethrows { w₂ with machine := m₃ } v := by
  obtain ⟨hlinks, hcallsAlone, ⟨h, hh, hkind, hhjump, hhflag⟩, load, throw, ret, enter, last, hlist,
    ⟨hret, hjump, hflag⟩, henter, htarget, hjump', hflag'⟩ := finallyUnit_facts
  obtain ⟨s, image, c, place, hplaced, hloaded, hbase, hc, hunit, hcalls⟩ :=
    CodeUnit.exists_call hlinks hcallsAlone
  obtain ⟨parts, hparts⟩ := hplaced.placed
  have hcode (ins : Instruction) (h : ins ∈ [load, throw, ret, enter, last]) :
      ∃ span, s.Translates c ins span := hparts.translates hc (by rw [hunit, hlist]; exact h)
  obtain ⟨span, ht⟩ := hcode ret (by simp)
  obtain ⟨span', ht'⟩ := hcode enter (by simp)
  obtain ⟨jumps, b, front, back, hst⟩ := hparts.stands ht
  obtain ⟨jumps', b', front', back', hst'⟩ := hparts.stands ht'
  obtain ⟨hentered, hdelivered⟩ := finally_blocks_return
  have hreaches := Machine.poised_reaches (LoadedImage.ofImage image) hloaded hst'.here
  refine ⟨s, image, c, ret, enter, hunit, ⟨_, hreaches, ?_⟩, fun v message => ?_⟩
  · obtain ⟨x, hgoes, hreaches₁, -, -, hreturns⟩ := hentered _ s image c enter span' ret.offset.toUInt32
      hreaches ht' henter htarget (by rw [hbase]; rfl) (by rw [hjump', hflag']; decide)
      (Machine.poised_hasRegister _ _ (by simp [hjump'])) (Machine.poised_hasRegister _ _ (by simp [hflag']))
    obtain ⟨y, hgoes', hreaches₃, -⟩ := hreturns _ ret span hreaches₁ ht hret (hjump.trans hjump'.symm)
      (hflag.trans hflag'.symm) (.refl _ _ _)
    exact ⟨x, hgoes, hreaches₁, y, hgoes', hreaches₃⟩
  · generalize hm : Run.throwingMachine (LoadedImage.ofImage image) (image.base + place.toUInt64) = m
    have hstack := Run.throwingMachine_stack hplaced hc hcalls hm
    have hframe : m.frame = Machine.poisedFrame := by
      rw [← hm]
      exact (Run.throwingMachine_words _ _).2.1
    have hregister (r : Register) (hr : r = .ofNat 0 ∨ r = .ofNat 1) : m.HasRegister m.frame r := by
      have hregions : m.context = Machine.dataBase ∧ m.nativeBase = Machine.nativeStackBase := by
        rw [← hm]
        exact ⟨rfl, rfl⟩
      rcases hr with rfl | rfl <;>
        refine ⟨by decide, by decide, fun d hd => ?_⟩ <;>
        · cases hd
          rw [hframe, Machine.OnRegisterStack, Machine.Beyond, hregions.1, hregions.2]
          decide
    obtain ⟨w₁, target, -, heq, -, hframe₁, hholds, hholds', hthrows⟩ :=
      hdelivered v message ⟨Realm.bare, m, #[], #[]⟩ [] [] ⟨image, s, c, 2, m.frame⟩ h
        (hm ▸ Run.throwingMachine_orderly _ _) hstack (by simp) (by rw [ActiveCall.handler?]; exact hunit ▸ hh)
        hkind (by rw [hhjump, hhflag]; decide) (hregister _ (.inl hhjump)) (hregister _ (.inr hhflag))
    obtain ⟨m₂, hreaches₂, hframe₂, hx, hy⟩ := Machine.exists_holding hloaded hst.here v.word
      (Value.int32 finallyThrow).word
    have huntouched : w₁.machine.Untouched m₂ h.jump h.flag := by
      refine ⟨hframe₂.trans (hframe.symm.trans hframe₁.symm), fun x hx' => ?_, fun y hy' => ?_⟩
      · rw [hx'.unique hholds, hhjump]
        exact hx
      · rw [hy'.unique hholds', hhflag]
        exact hy
    refine ⟨_, w₁, ⟨Realm.bare, m₂, #[], #[]⟩, heq, by rwa [hhjump, hhflag] at huntouched, hreaches₂,
      hthrows _ ret span hreaches₂ ht hret (hjump.trans hhjump.symm) (hflag.trans hhflag.symm) huntouched⟩

end RegisterJit
