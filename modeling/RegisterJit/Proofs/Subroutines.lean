import RegisterJit.Proofs.Poised

/-!
# Subroutines

A jump into a finally block leaves in one register the address to come back to, disguised as a double, and in
another that control is to come back. The code is aligned after the jump, so the address is even and its lowest
bit is free for a mark. The return reads the address back, or it throws what the first register holds.

`follow_enterPieces` and the lemmas about leaving follow the pieces of the two instructions; `Machine.Holds`
says what a register of a frame holds, and `Completion` what the two registers of a block stand for, either a
place to go on at or a value to throw, as `Pending` relates them to a machine. `enters` leads to the block with
a completion that resumes, `resumes` and `throws` lead out of it. Between these the block may do anything, if it
leaves the two registers alone. `Finally` connects this with the delivery of exceptions, which enter a block
with a completion that throws.
-/

namespace RegisterJit

open X86 (Reg Cond Instr Label Cpu)

/-! ## Addresses as values -/

theorem toNat_rotate (x : UInt64) {j k : Nat} (h : j + k = 64) (hj : 0 < j) (hk : 0 < k) :
    (x >>> UInt64.ofNat j ||| x <<< UInt64.ofNat k).toNat =
      x.toNat / 2 ^ j + x.toNat % 2 ^ j * 2 ^ k := by
  have hlt := x.toNat_lt
  have hamount (n : Nat) (hn : n < 64) : (UInt64.ofNat n).toNat % 64 = n := by
    rw [UInt64.toNat_ofNat']
    omega
  have hpow : 2 ^ 64 = 2 ^ j * 2 ^ k := by rw [← Nat.pow_add, h]
  have hhigh : x.toNat * 2 ^ k % 2 ^ 64 = x.toNat % 2 ^ j * 2 ^ k := by
    rw [hpow, Nat.mul_mod_mul_right]
  have hlow : x.toNat / 2 ^ j < 2 ^ k := by
    rw [Nat.div_lt_iff_lt_mul (Nat.two_pow_pos j), Nat.mul_comm, ← hpow]
    exact hlt
  rw [UInt64.toNat_or, UInt64.toNat_shiftRight, UInt64.toNat_shiftLeft, hamount j (by omega),
    hamount k (by omega), Nat.shiftRight_eq_div_pow, Nat.shiftLeft_eq, hhigh, Nat.or_comm,
    ← Nat.shiftLeft_eq, ← Nat.shiftLeft_add_eq_or_of_lt hlow, Nat.shiftLeft_eq, Nat.add_comm]

namespace Value

/-- The word of a code address has the low bits of the address above the others. -/
theorem toNat_ofAddress {a : UInt64} (h : a.toNat % 2 = 0) :
    (ofAddress a).word.toNat = a.toNat / 2 ^ 16 + (a.toNat % 2 ^ 16 + 1) * 2 ^ 48 := by
  have hmarked : (a ||| 1).toNat = a.toNat + 1 := by
    rw [UInt64.toNat_or, show (1 : UInt64).toNat = 1 from rfl]
    have := Nat.shiftLeft_add_eq_or_of_lt (show 1 < 2 ^ 1 by decide) (a.toNat / 2)
    rw [Nat.shiftLeft_eq, show a.toNat / 2 * 2 ^ 1 = a.toNat by omega] at this
    exact this.symm
  change (((a ||| 1) >>> UInt64.ofNat 16 ||| (a ||| 1) <<< UInt64.ofNat 48)).toNat = _
  rw [toNat_rotate _ rfl (by decide) (by decide), hmarked]
  omega

theorem isDouble_ofAddress {a : UInt64} (h : a.toNat % 4 = 0) : (ofAddress a).isDouble := by
  have hword := toNat_ofAddress (a := a) (by omega)
  have hlt := a.toNat_lt
  rw [isDouble, Bool.and_eq_true, isNumber_iff, Bool.not_eq_true', ← Bool.not_eq_true, isInt32_iff]
  omega

theorem toAddress_ofAddress {a : UInt64} (h : a.toNat % 2 = 0) : (ofAddress a).toAddress = a := by
  have hlt := a.toNat_lt
  rw [← UInt64.toNat_inj, toAddress, toNat_and_notOne, UInt64.or_comm]
  change (((ofAddress a).word >>> UInt64.ofNat 48 ||| (ofAddress a).word <<< UInt64.ofNat 16).toNat) / 2 * 2 = _
  rw [toNat_rotate _ rfl (by decide) (by decide), toNat_ofAddress h]
  omega

/-- What the emitted code for reading an address back does. -/
theorem rotateLeft_and (v : Value) :
    X86.Cpu.rotateLeft v.word 16 &&& X86.displacementWord (-2) = v.toAddress := rfl

end Value

/-! ## The code -/

@[simp] theorem X86.Cpu.effect_rol (c : Cpu) (dst : Reg) (count : UInt8) :
    c.effect (.rol dst count) = some ((c.setReg dst (X86.Cpu.rotateLeft (c.reg dst) count)).setFlags
      { c.flags with carry := X86.Cpu.rotateLeft (c.reg dst) count &&& 1 == 1 }) := rfl

namespace Emit

/-- The word that says that control is to come back. -/
def resumeWord : UInt64 := (Value.int32 finallyResume).word

@[simp] theorem movValue_resumeWord (dst : Reg) :
    Instr.movValue dst resumeWord = .movImm64 dst resumeWord := rfl

def enterPieces (jump flag : Int32) (target resume : Label) : List Piece :=
  [.address .rax resume, .instr (.store frameReg jump .rax), .instr (.movValue .rcx resumeWord),
    .instr (.store frameReg flag .rcx), .jmp target]

/-- The pieces that throw what a block is to leave with. -/
def rethrowPieces (thunk : Label) (jump : Int32) (rethrow : Label) : List Piece :=
  .bind rethrow :: .instr (.load .rsi frameReg jump) :: (askPieces thunk .throw ++ [.instr .ud2])

def leavePieces (thunk : Label) (jump flag : Int32) (rethrow : Label) : List Piece :=
  .instr (.load .rcx frameReg flag) :: .instr (.movValue .rdx resumeWord) ::
    .instr (.alu .cmp .w64 .rcx .rdx) :: .jcc .ne rethrow :: .instr (.load .rax frameReg jump) ::
    .instr (.rol .rax 16) :: .instr (.aluImm .and .w64 .rax (-2)) :: .instr (.jmpReg .rax) ::
    rethrowPieces thunk jump rethrow

theorem known_enterPieces (jump flag : Int32) (target resume : Label) :
    ∀ p ∈ enterPieces jump flag target resume, p.known = true := by
  simp [enterPieces]

theorem known_leavePieces (thunk : Label) (jump flag : Int32) (rethrow : Label) :
    ∀ p ∈ leavePieces thunk jump flag rethrow, p.known = true := by
  simp [leavePieces, rethrowPieces, askPieces]

variable {site : Site} {e : Emitter}

theorem ensures_jumpSubroutine (jump flag : Register) (target : Label) :
    (jumpSubroutine jump flag target).Ensures site e fun _ e' => ∃ j f,
      Frame.registerOffset? jump = some j ∧ Frame.registerOffset? flag = some f ∧
        e'.pieces.toList = e.pieces.toList ++
          (enterPieces j f target e.labels ++ [.align 4, .bind e.labels]) := by
  simp [jumpSubroutine]
  intro j hj f hf
  exact ⟨j, hj, f, hf, toList_pieces_write _⟩

theorem ensures_returnSubroutine (jump flag : Register) :
    (returnSubroutine jump flag).Ensures site e fun _ e' => ∃ j f,
      Frame.registerOffset? jump = some j ∧ Frame.registerOffset? flag = some f ∧
        e'.pieces.toList = e.pieces.toList ++ leavePieces site.stubThunk j f e.labels := by
  simp [returnSubroutine, callStubNoReturn]
  intro f hf j hj j' hj'
  obtain rfl : j = j' := Option.some.inj (hj.symm.trans hj')
  exact ⟨j, hj, f, hf, toList_pieces_write _⟩

end Emit

/-! ## Following it -/

namespace Piece

variable (word : Label → UInt64) {c : Cpu} {jump flag : Int32}

/-- The state in which a finally block is entered from a jump. -/
theorem follow_enterPieces (jump flag : Int32) (target resume : Label) :
    ∃ d, c.Computes d ∧ follow word none (Emit.enterPieces jump flag target resume) c =
      .goes target ((d.write (c.reg frameReg + X86.displacementWord jump) (word resume)).write
        (c.reg frameReg + X86.displacementWord flag) Emit.resumeWord) := by
  refine ⟨(c.setReg .rax (word resume)).setReg .rcx Emit.resumeWord,
    (X86.Cpu.computes_setReg c (by decide) _).setReg (by decide) _, ?_⟩
  simp [Emit.enterPieces, X86.Cpu.reg_setReg]
  rfl

/-- A block that is to come back does so. -/
theorem follow_leavePieces_resume (thunk rethrow : Label) {v : Value}
    (hflag : c.read (c.reg frameReg + X86.displacementWord flag) = Emit.resumeWord)
    (hjump : c.read (c.reg frameReg + X86.displacementWord jump) = v.word) :
    (follow word none (Emit.leavePieces thunk jump flag rethrow) c).Stops
      (.instr (.jmpReg .rax) :: Emit.rethrowPieces thunk jump rethrow) fun d =>
        c.Computes d ∧ d.reg .rax = v.toAddress := by
  have hzero : (X86.Flags.ofDifference .w64 Emit.resumeWord Emit.resumeWord 0).zero = true := rfl
  simp [Emit.leavePieces, X86.Cpu.reg_setReg, hflag, hjump, hzero, X86.Cpu.computes_iff,
    Machine.roleRegs, ← Value.rotateLeft_and]

/-- A block that is to throw does so. -/
theorem follow_leavePieces_throw (thunk rethrow : Label) {v : Value}
    (hflag : c.read (c.reg frameReg + X86.displacementWord flag) ≠ Emit.resumeWord)
    (hjump : c.read (c.reg frameReg + X86.displacementWord jump) = v.word) :
    (follow word none (Emit.leavePieces thunk jump flag rethrow) c).Stops
      [.call thunk, .instr .ud2] fun d => c.Computes d ∧ d.reg .rdi = c.reg contextReg ∧
        d.reg .rax = Stub.throw.number.toUInt64 ∧ d.reg .rsi = v.word := by
  simp [Emit.leavePieces, Emit.rethrowPieces, Emit.askPieces, X86.Flags.zero_ofDifference64,
    X86.Cpu.reg_setReg, hflag, hjump, X86.Cpu.computes_iff, Machine.roleRegs]

end Piece

/-! ## Registers of a frame -/

/-- A register that a frame on the register stack has. Frames with more registers than this do not fit into
32-bit offsets. -/
structure Machine.HasRegister (m : Machine) (frame : UInt64) (r : Register) : Prop where
  low : -2 ^ 28 ≤ r.index.toInt
  high : r.index.toInt < 2 ^ 28 - 9
  slot : ∀ d, Frame.registerOffset? r = some d → m.OnRegisterStack (frame + X86.displacementWord d)

/-- A register of the current frame holds a word. -/
def Machine.Holds (m : Machine) (r : Register) (w : UInt64) : Prop :=
  ∃ d, Frame.registerOffset? r = some d ∧
    m.readWord (m.cpu.reg frameReg + X86.displacementWord d) = w

namespace Frame

theorem toInt_registerOffset {r : Register} (hlow : -2 ^ 28 ≤ r.index.toInt)
    (hhigh : r.index.toInt < 2 ^ 28 - 9) {d : Int32} (hd : registerOffset? r = some d) :
    d.toInt = 8 * r.index.toInt + if r.index.toInt < 0 then 0 else 72 := by
  have hmul : (r.index * 8).toInt = r.index.toInt * 8 := by
    rw [Int32.toInt_mul]
    exact Int.bmod_eq_of_le (by change _ ≤ r.index.toInt * 8; omega) (by change r.index.toInt * 8 < _; omega)
  unfold registerOffset? at hd
  split_ifs at hd with hinvalid hneg
  · cases hd
    rw [if_pos hneg, hmul]
    omega
  · cases hd
    rw [if_neg hneg, Int32.toInt_add, hmul]
    rw [Int.bmod_eq_of_le (by change _ ≤ 72 + r.index.toInt * 8; omega)
      (by change 72 + r.index.toInt * 8 < _; omega)]
    change 72 + r.index.toInt * 8 = _
    omega

end Frame

namespace X86

theorem displacementWord_inj {d d' : Int32} : displacementWord d = displacementWord d' ↔ d = d' := by
  refine ⟨fun h => Int32.toInt_inj.1 ?_, fun h => h ▸ rfl⟩
  have hd := toNat_displacementWord d
  have hd' := toNat_displacementWord d'
  rw [h] at hd
  have := d.le_toInt
  have := d.toInt_lt
  have := d'.le_toInt
  have := d'.toInt_lt
  omega

end X86

namespace Machine.HasRegister

variable {m : Machine} {frame : UInt64} {r r' : Register} {d d' : Int32}

theorem slot_ne (h : m.HasRegister frame r) (h' : m.HasRegister frame r') (hne : r ≠ r')
    (hd : Frame.registerOffset? r = some d) (hd' : Frame.registerOffset? r' = some d') :
    frame + X86.displacementWord d ≠ frame + X86.displacementWord d' := by
  intro heq
  rw [UInt64.add_right_inj, X86.displacementWord_inj] at heq
  have hoffset := Frame.toInt_registerOffset h.low h.high hd
  have hoffset' := Frame.toInt_registerOffset h'.low h'.high hd'
  refine hne (congrArg Register.mk (Int32.toInt_inj.1 ?_))
  rw [heq] at hoffset
  split_ifs at hoffset hoffset' <;> omega

theorem slot_ne_header (h : m.HasRegister frame r) (hd : Frame.registerOffset? r = some d)
    (hlow : 0 ≤ d'.toInt) (hhigh : d'.toInt < 72) :
    frame + X86.displacementWord d' ≠ frame + X86.displacementWord d := by
  intro heq
  rw [UInt64.add_right_inj, X86.displacementWord_inj] at heq
  have hoffset := Frame.toInt_registerOffset h.low h.high hd
  rw [← heq] at hoffset
  split_ifs at hoffset <;> omega

end Machine.HasRegister

/-! ## The code of an instruction -/

theorem Block.Emitted.enter_body {u : CodeUnit} {jumps : JumpTable} {b : Block} (h : b.Emitted u jumps)
    (hop : b.ins.opcode = .jumpSubroutine) : ∃ t j f, jumps.find? (b.ins.target?.getD 0) = some t ∧
      Frame.registerOffset? (b.ins.reg 0) = some j ∧ Frame.registerOffset? (b.ins.reg 1) = some f ∧
      b.body = Emit.enterPieces j f t.label b.base ++ [.align 4, .bind b.base] := by
  refine h.body (Q := fun body => ∃ t j f, jumps.find? (b.ins.target?.getD 0) = some t ∧
    Frame.registerOffset? (b.ins.reg 0) = some j ∧ Frame.registerOffset? (b.ins.reg 1) = some f ∧
      body = Emit.enterPieces j f t.label b.base ++ [.align 4, .bind b.base]) ?_
  rw [Emit.instruction, hop, Emit.jumpLabel]
  rw [Emit.ensures_bind, Emit.ensures_targetLabel]
  intro t ht r e' hrun
  obtain ⟨j, f, hj, hf, hpieces⟩ :=
    Emit.ensures_jumpSubroutine (b.ins.reg 0) (b.ins.reg 1) t.label r e' hrun
  exact ⟨t, j, f, ht, hj, hf, hpieces⟩

namespace Session.Stands

variable {s : Session} {c : CompiledUnit} {ins : Instruction} {span : Span} {jumps : JumpTable}
  {b : Block} {front back : List Piece} (hst : s.Stands c ins span jumps b front back)

include hst

theorem enter_body {target : UInt32} (hop : ins.opcode = .jumpSubroutine)
    (htarget : ins.target? = some target) : ∃ t j f, jumps.find? target = some t ∧
      Frame.registerOffset? (ins.reg 0) = some j ∧ Frame.registerOffset? (ins.reg 1) = some f ∧
      b.body = Emit.enterPieces j f t.label b.base ++ [.align 4, .bind b.base] := by
  have hbody := hst.emitted.enter_body (hst.instruction ▸ hop)
  rwa [hst.instruction, htarget] at hbody

theorem leave_body (hop : ins.opcode = .returnSubroutine) : ∃ j f,
    Frame.registerOffset? (ins.reg 0) = some j ∧ Frame.registerOffset? (ins.reg 1) = some f ∧
      b.body = Emit.leavePieces Session.stubThunk j f b.base := by
  refine hst.emitted.body (Q := fun body => ∃ j f,
    Frame.registerOffset? (ins.reg 0) = some j ∧ Frame.registerOffset? (ins.reg 1) = some f ∧
      body = Emit.leavePieces Session.stubThunk j f b.base) ?_
  rw [hst.instruction, Emit.instruction, hop]
  intro r e' hrun
  obtain ⟨j, f, hj, hf, hpieces⟩ := Emit.ensures_returnSubroutine (ins.reg 0) (ins.reg 1) r e' hrun
  exact ⟨j, f, hj, hf, hpieces⟩

/-- The place to come back to is where the code of the instruction ends, and it is aligned. -/
theorem resume_place (hlaid : s.Laid) {ps : List Piece} {l : Label}
    (hbody : b.body = ps ++ [.align 4, .bind l]) :
    s.placeOf l = s.byteOf span.stop ∧ s.placeOf l % 4 = 0 := by
  have hpieces : s.pieces.toList = (front ++ (ps ++ [.align 4])) ++ .bind l :: back := by
    rw [hst.pieces, hbody]
    simp
  rw [hlaid.placeOf_eq hpieces, hst.stop, hbody, ← List.append_assoc, Piece.endFrom_append]
  refine ⟨?_, endFrom_align_mod _ (by decide)⟩
  rw [Piece.endFrom_append, Piece.endFrom_append, Piece.endFrom_append]
  rfl

end Session.Stands

/-! ## Entering and leaving -/

/-- How a finally block is to be left: for the code at an offset, or with an exception. -/
inductive Completion
  | resume (next : UInt32)
  | throw (v : Value)

theorem Image.toNat_address_mod_four (image : Image) {place : Nat} (hbase : image.base.toNat % 16 = 0)
    (hplace : place % 4 = 0) : (image.address place).toNat % 4 = 0 := by
  rw [address, UInt64.toNat_add, Nat.toUInt64_eq, UInt64.toNat_ofNat']
  omega

namespace Machine

variable {m : Machine} {s : Session} {image : Image} {c : CompiledUnit}

/-- Two registers of the current frame say how a finally block is to be left. To come back, one of them holds the
address of code, as a double. -/
def Pending (m : Machine) (s : Session) (image : Image) (c : CompiledUnit) (jump flag : Register) :
    Completion → Prop
  | .resume next => ∃ (v : Value) (place : Nat), v.isDouble ∧ s.Starts c next place ∧
      v.toAddress = image.address place ∧ m.Holds jump v.word ∧ m.Holds flag Emit.resumeWord
  | .throw v => m.Holds jump v.word ∧ m.Holds flag (Value.int32 finallyThrow).word

theorem Works.of_write_write {d : Cpu} (h : m.cpu.Computes d) {a b : UInt64} (ha : m.OnRegisterStack a)
    (hb : m.OnRegisterStack b) (x y : UInt64) : m.Works (m.withCpu ((d.write a x).write b y)) := by
  have hfirst := Works.of_write h ha x
  refine ⟨rfl, hfirst.kept, fun a' ha' => ?_⟩
  have hne : b ≠ a' := fun heq => ha' (heq ▸ hb)
  exact ((X86.Cpu.read_write ..).trans (if_neg hne)).trans (hfirst.memory a' ha')

namespace Reaches

variable {ins : Instruction} {span : Span}

/-- A jump into a finally block leaves the address to come back to, and nothing else. -/
theorem enters {target : UInt32} (h : m.Reaches s image c ins.offset.toUInt32)
    (ht : s.Translates c ins span) (hop : ins.opcode = .jumpSubroutine)
    (htarget : ins.target? = some target) (hbase : image.base.toNat % 16 = 0)
    (hne : ins.reg 0 ≠ ins.reg 1) (hjump : m.HasRegister (m.cpu.reg frameReg) (ins.reg 0))
    (hflag : m.HasRegister (m.cpu.reg frameReg) (ins.reg 1)) :
    m.Arrives fun m' => m'.Reaches s image c target ∧
      m'.cpu.reg frameReg = m.cpu.reg frameReg ∧
      m'.Pending s image c (ins.reg 0) (ins.reg 1) (.resume ins.next.toUInt32) ∧
      ∀ r w, m.HasRegister (m.cpu.reg frameReg) r → r ≠ ins.reg 0 → r ≠ ins.reg 1 → m.Holds r w →
        m'.Holds r w := by
  obtain ⟨jumps, b, front, back, hst, hrip⟩ := h.stands ht
  obtain ⟨t, j, f, hfind, hj, hf, hbody⟩ := hst.enter_body hop htarget
  have hload := h.running.loaded
  obtain ⟨hplace, hmod⟩ := hst.resume_place hload.laid hbody
  set frame := m.cpu.reg frameReg with hframe
  set word := (Value.ofAddress (image.address (s.placeOf b.base))).word with hword
  obtain ⟨d, hd, hfollow⟩ := Piece.follow_enterPieces (c := m.cpu) (s.word image) j f t.label b.base
  have hpieces : s.pieces.toList = front ++ (Emit.enterPieces j f t.label b.base ++
      ([.align 4, .bind b.base] ++ back)) := by
    rw [hst.pieces, hbody, List.append_assoc]
  have hbound : t.label ∈ s.binds := by
    have hsplit : s.pieces.toList = (front ++ (Emit.enterPieces j f t.label b.base).take 4) ++
        .jmp t.label :: ([.align 4, .bind b.base] ++ back) := by
      rw [hpieces]
      simp [Emit.enterPieces]
    exact hload.label_mem_binds hsplit (j := ⟨_, t.label⟩) rfl
  have hworks : m.Works (m.withCpu ((d.write (frame + X86.displacementWord j) word).write
      (frame + X86.displacementWord f) Emit.resumeWord)) :=
    .of_write_write hd (hjump.slot j hj) (hflag.slot f hf) _ _
  obtain ⟨a, ha, hpasses, hrunning⟩ := h.running.goes hpieces (Emit.known_enterPieces _ _ _ _) hrip hfollow
    hworks
  have haddress := image.toNat_address_mod_four hbase hmod
  have hread (a' : UInt64) : (m.withCpu ((((d.write (frame + X86.displacementWord j) word).write
      (frame + X86.displacementWord f) Emit.resumeWord)).jump a)).readWord a' =
        if frame + X86.displacementWord f = a' then Emit.resumeWord
        else if frame + X86.displacementWord j = a' then word else m.readWord a' := by
    rw [readWord, withCpu_cpu, X86.Cpu.read_jump, X86.Cpu.read_write, X86.Cpu.read_write, hd.read]
    rfl
  have hkept := hworks.kept frameReg (by decide)
  have hholds {r : Register} {o : Int32} {w : UInt64} (ho : Frame.registerOffset? r = some o)
      (hw : (m.withCpu ((((d.write (frame + X86.displacementWord j) word).write
        (frame + X86.displacementWord f) Emit.resumeWord)).jump a)).readWord
          (frame + X86.displacementWord o) = w) :
      (m.withCpu ((((d.write (frame + X86.displacementWord j) word).write
        (frame + X86.displacementWord f) Emit.resumeWord)).jump a)).Holds r w :=
    ⟨o, ho, (congrArg (readWord _) (congrArg (· + _) hkept)).trans hw⟩
  refine ⟨_, hpasses, ⟨hrunning, _, hst.label target t hfind hbound, ha⟩, hkept, ⟨_, s.placeOf b.base,
    Value.isDouble_ofAddress haddress, hplace ▸ hst.next, Value.toAddress_ofAddress (by omega),
    hholds hj ?_, hholds hf ?_⟩, fun r w hr hrj hrf hw => ?_⟩
  · rw [hread, if_neg (hjump.slot_ne hflag hne hj hf).symm, if_pos rfl]
  · rw [hread, if_pos rfl]
  · obtain ⟨o, ho, hw⟩ := hw
    refine hholds ho ?_
    rw [hread, if_neg (hr.slot_ne hflag hrf ho hf).symm, if_neg (hr.slot_ne hjump hrj ho hj).symm]
    exact hw

/-- A return from a finally block that is to come back loads the address that a register holds, and jumps there. -/
theorem turns {v : Value} (h : m.Reaches s image c ins.offset.toUInt32) (ht : s.Translates c ins span)
    (hop : ins.opcode = .returnSubroutine) (hjump : m.Holds (ins.reg 0) v.word)
    (hflag : m.Holds (ins.reg 1) Emit.resumeWord) :
    m.Arrives fun m' => m.cpu.Computes m'.cpu ∧ m'.cpu.rip ≠ hostAddress ∧ m'.cpu.reg .rax = v.toAddress ∧
      ∃ next, fetch m'.images m'.cpu.rip = some (.jmpReg .rax, next) := by
  obtain ⟨jumps, b, front, back, hst, hrip⟩ := h.stands ht
  obtain ⟨j, f, hj, hf, hbody⟩ := hst.leave_body hop
  obtain ⟨j', hj', hjump⟩ := hjump
  obtain rfl : j = j' := Option.some.inj (hj.symm.trans hj')
  obtain ⟨f', hf', hflag⟩ := hflag
  obtain rfl : f = f' := Option.some.inj (hf.symm.trans hf')
  obtain ⟨d, hstops, hd, hrax⟩ := Piece.follow_leavePieces_resume (s.word image) Session.stubThunk b.base
    hflag hjump
  rw [← hbody] at hstops
  have hknown : ∀ p ∈ b.body, p.known = true := hbody ▸ Emit.known_leavePieces _ _ _ _
  obtain ⟨mid, a, hmid, ha, hpasses, -⟩ := h.running.stops hst.pieces hknown hrip hstops (.of_computes hd)
  have hpieces : s.pieces.toList = (front ++ mid) ++ .instr (.jmpReg .rax) ::
      (Emit.rethrowPieces Session.stubThunk j b.base ++ back) := by
    rw [hst.pieces, hmid]
    simp
  have hload := h.running.loaded
  have hfetch := hload.fetch_piece hpieces rfl rfl
  rw [← ha] at hfetch
  exact ⟨_, hpasses, ⟨hd.memory, hd.kept⟩, ha ▸ hload.address_ne_host (hload.endFrom_le hpieces), hrax, _, hfetch⟩

/-- A return from a finally block that is to come back goes to the address that a register holds. -/
theorem resumes {v : Value} (h : m.Reaches s image c ins.offset.toUInt32) (ht : s.Translates c ins span)
    (hop : ins.opcode = .returnSubroutine) (hjump : m.Holds (ins.reg 0) v.word)
    (hflag : m.Holds (ins.reg 1) Emit.resumeWord) :
    m.Comes fun m' => m'.Running s image ∧ m'.cpu.rip = v.toAddress ∧
      m'.cpu.reg frameReg = m.cpu.reg frameReg := by
  obtain ⟨x, hpasses, hcomputes, houtside, hrax, next, hfetch⟩ := h.turns ht hop hjump hflag
  have hgoes : Cpu.Goes m.images x (x.jump (x.reg .rax)) := .step houtside hfetch rfl (.refl _)
  exact ⟨_, hpasses.goes.trans hgoes, h.running.works ((Works.of_computes hcomputes).jump _), hrax,
    hcomputes.kept frameReg (by decide)⟩

/-- A return from a finally block that is not to come back throws what a register holds. -/
theorem throws {v : Value} {w : UInt64} (h : m.Reaches s image c ins.offset.toUInt32)
    (ht : s.Translates c ins span) (hop : ins.opcode = .returnSubroutine)
    (hjump : m.Holds (ins.reg 0) v.word) (hflag : m.Holds (ins.reg 1) w) (hne : w ≠ Emit.resumeWord) :
    m.Comes fun m' => m'.Asks .throw [v.word] := by
  obtain ⟨jumps, b, front, back, hst, hrip⟩ := h.stands ht
  obtain ⟨j, f, hj, hf, hbody⟩ := hst.leave_body hop
  obtain ⟨j', hj', hjump⟩ := hjump
  obtain rfl : j = j' := Option.some.inj (hj.symm.trans hj')
  obtain ⟨f', hf', hflag⟩ := hflag
  obtain rfl : f = f' := Option.some.inj (hf.symm.trans hf')
  have hstops := Piece.follow_leavePieces_throw (s.word image) Session.stubThunk b.base
    (show m.cpu.read _ ≠ _ from fun heq => hne (hflag.symm.trans heq)) hjump
  rw [← hbody] at hstops
  have hknown : ∀ p ∈ b.body, p.known = true := hbody ▸ Emit.known_leavePieces _ _ _ _
  obtain ⟨d, x, mid, hsi, hgoes, hasks, -⟩ := hst.asks h.running hknown hrip hstops
  rw [hsi] at hasks
  exact ⟨x, hgoes, hasks⟩

end Reaches

end Machine

end RegisterJit
