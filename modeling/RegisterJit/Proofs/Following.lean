import RegisterJit.Proofs.Execution

/-!
# Following symbolic code

`Piece.follow` runs a stretch of symbolic code without knowing where it stands: jumps inside the stretch
go forward to their labels, and control leaves it at the end, at a label outside, or at a piece that
hands control to somebody else. `Loaded.follows` says that the processor does the same with the bytes of
a linked image. For each instruction there is an equation, and the conditions say after a comparison what the
order is: without a sign for words, with a sign for their 32 low bits.

`Exit` is how control leaves a stretch, and `Exit.Stops` that it stops at a piece with something known of the
processor. Stretches are put together piece by piece, by equations tagged for `simp` in which a jump skips what
does not bind its label, so that straight code, forks and joins are followed by rewriting. What this does not
know is whether a register exists or a label is bound, hence `known`, which the emitters guarantee. Everything
that is proved about runs of emitted code, from arithmetic to subroutines, is an equation about `follow` first
and becomes one about the processor by `Loaded.follows`.
-/

namespace RegisterJit

open X86 (Reg Cond Instr Label Cpu)

namespace X86.Cpu

/-- What an instruction after which control goes on does, wherever it stands. -/
def effect (c : Cpu) (i : Instr) : Option Cpu := c.execute c.rip i

end X86.Cpu

namespace Piece

/-- Whether the registers and conditions of a piece are ones that exist. -/
@[simp] def known : Piece → Bool
  | .instr i => i.known
  | .jcc c _ => c.known
  | .kept dst _ | .address dst _ => dst.known
  | .jmp _ | .call _ | .bind _ | .align _ => true

/-- How control leaves a stretch of code. -/
inductive Exit
  /-- It runs off the end. -/
  | falls (c : Cpu)
  /-- It goes to a label that does not follow in the stretch. -/
  | goes (l : Label) (c : Cpu)
  /-- It stops before the first of these pieces. -/
  | stops (rest : List Piece) (c : Cpu)

/-- Control stops before certain pieces in a state as told. -/
def Exit.Stops (rest : List Piece) (Q : Cpu → Prop) (e : Exit) : Prop := ∃ c, e = .stops rest c ∧ Q c

@[simp] theorem Exit.stops_stops {rest rest' : List Piece} {Q : Cpu → Prop} {c : Cpu} :
    Exit.Stops rest Q (.stops rest' c) ↔ rest' = rest ∧ Q c := by
  constructor
  · rintro ⟨d, h, hq⟩
    cases h
    exact ⟨rfl, hq⟩
  · rintro ⟨rfl, hq⟩
    exact ⟨c, rfl, hq⟩

/-- Follow code, after a jump from the next piece that binds its label on. -/
def follow (word : Label → UInt64) : (jump : Option Label) → List Piece → Cpu → Exit
  | none, [], c => .falls c
  | some l, [], c => .goes l c
  | some l, p :: rest, c => follow word (if p.bound? = some l then none else some l) rest c
  | none, p :: rest, c =>
    match p with
    | .instr i =>
      match i.straight, c.effect i with
      | true, some d => follow word none rest d
      | _, _ => .stops (p :: rest) c
    | .kept dst _ => follow word none rest (if dst = .rax then c else c.setReg dst (c.reg .rax))
    | .jmp l => follow word (some l) rest c
    | .jcc cond l => follow word (if cond.holds c.flags then some l else none) rest c
    | .address dst l => follow word none rest (c.setReg dst (word l))
    | .bind _ => follow word none rest c
    | .call _ | .align _ => .stops (p :: rest) c

section

variable (word : Label → UInt64) (rest : List Piece) (c : Cpu) (l : Label)

@[simp] theorem follow_nil : follow word none [] c = .falls c := rfl

@[simp] theorem follow_nil_jump : follow word (some l) [] c = .goes l c := rfl

@[simp] theorem follow_jump_bind (l' : Label) : follow word (some l) (.bind l' :: rest) c =
    if l' = l then follow word none rest c else follow word (some l) rest c := by
  rw [follow, bound?]
  by_cases h : l' = l <;> simp [h]

@[simp] theorem follow_jump_instr (i : Instr) :
    follow word (some l) (.instr i :: rest) c = follow word (some l) rest c := rfl

@[simp] theorem follow_jump_jmp (l' : Label) :
    follow word (some l) (.jmp l' :: rest) c = follow word (some l) rest c := rfl

@[simp] theorem follow_jump_jcc (cond : Cond) (l' : Label) :
    follow word (some l) (.jcc cond l' :: rest) c = follow word (some l) rest c := rfl

@[simp] theorem follow_jump_call (l' : Label) :
    follow word (some l) (.call l' :: rest) c = follow word (some l) rest c := rfl

@[simp] theorem follow_jump_align (n : Nat) :
    follow word (some l) (.align n :: rest) c = follow word (some l) rest c := rfl

@[simp] theorem follow_instr (i : Instr) : follow word none (.instr i :: rest) c =
    match i.straight, c.effect i with
    | true, some d => follow word none rest d
    | _, _ => .stops (.instr i :: rest) c := by
  rw [follow]

@[simp] theorem follow_kept (dst : Reg) (r : Register) : follow word none (.kept dst r :: rest) c =
    follow word none rest (if dst = .rax then c else c.setReg dst (c.reg .rax)) := rfl

@[simp] theorem follow_jmp :
    follow word none (.jmp l :: rest) c = follow word (some l) rest c := rfl

@[simp] theorem follow_jcc (cond : Cond) : follow word none (.jcc cond l :: rest) c =
    if cond.holds c.flags then follow word (some l) rest c else follow word none rest c := by
  rw [follow]
  split <;> rfl

@[simp] theorem follow_call :
    follow word none (.call l :: rest) c = .stops (.call l :: rest) c := rfl

@[simp] theorem follow_address (dst : Reg) : follow word none (.address dst l :: rest) c =
    follow word none rest (c.setReg dst (word l)) := rfl

@[simp] theorem follow_bind :
    follow word none (.bind l :: rest) c = follow word none rest c := rfl

end

end Piece

namespace Loaded

variable {images : Array LoadedImage} {s : Session} {image : Image} (h : Loaded images s image)

/-- Where control is when it has left a stretch of code after the pieces `before`. -/
def Exits (s : Session) (image : Image) (before ps : List Piece) (c : Cpu) : Piece.Exit → Prop
  | .falls d => c = d.jump (image.address (Piece.endFrom 0 (before ++ ps)))
  | .goes l d => c = d.jump (image.address (s.placeOf l))
  | .stops rest d => ∃ mid, ps = mid ++ rest ∧
      c = d.jump (image.address (Piece.endFrom 0 (before ++ mid)))

theorem Exits.cons {before rest : List Piece} {p : Piece} {c : Cpu} {e : Piece.Exit}
    (he : Exits s image (before ++ [p]) rest c e) : Exits s image before (p :: rest) c e := by
  cases e with
  | falls d => exact he.trans (by rw [List.append_assoc]; rfl)
  | goes l d => exact he
  | stops rest' d =>
    obtain ⟨mid, rfl, he⟩ := he
    exact ⟨p :: mid, rfl, he.trans (by rw [List.append_assoc]; rfl)⟩

include h

theorem label_mem_binds {before after : List Piece} {p : Piece}
    (hpieces : s.pieces.toList = before ++ p :: after) {j : X86.Jump}
    (hj : p.jump? (Piece.endFrom 0 before) = some j) : j.label ∈ s.binds := by
  refine h.linked.jumps j ?_
  rw [h.laid.jumps, hpieces]
  exact Piece.jump_mem hj

/-- A call puts the address after it on the native stack and goes to its label. -/
theorem call {before after : List Piece} {l : Label}
    (hpieces : s.pieces.toList = before ++ .call l :: after) {c : Cpu}
    (hrip : c.rip = image.address (Piece.endFrom 0 before)) :
    Cpu.Goes images c ((c.push (image.address (Piece.endFrom 0 (before ++ [.call l])))).jump
      (image.address (s.placeOf l))) := by
  have hplace : Piece.endFrom 0 (before ++ [Piece.call l]) = Piece.endFrom 0 before + 5 := by
    rw [Piece.endFrom_append]
    rfl
  have hl : l ∈ s.binds := h.label_mem_binds hpieces (j := ⟨_, l⟩) rfl
  have haddress := h.address_rel hl (h.endFrom_le
    (show s.pieces.toList = (before ++ [.call l]) ++ after by rw [hpieces]; simp))
  refine h.step hpieces rfl rfl hrip ?_
  rw [hplace] at haddress ⊢
  simp only [Cpu.execute, haddress]
  rfl

/-- The processor follows the code of an image. It starts at the first piece, or at the label that was
jumped to. -/
theorem follows_from {before ps after : List Piece} (hpieces : s.pieces.toList = before ++ (ps ++ after))
    {limit : Nat} (hlimit : Piece.endFrom 0 (before ++ ps) ≤ limit) (hknown : ∀ p ∈ ps, p.known = true)
    (jump : Option Label) (c : Cpu) :
    ∃ d, Cpu.Passes images (image.Direct limit) (c.jump (image.address (match jump with
        | none => Piece.endFrom 0 before
        | some l => s.placeOf l))) d ∧
      Exits s image before ps d (Piece.follow (s.word image) jump ps c) := by
  induction ps generalizing before jump c with
  | nil =>
    refine ⟨_, .refl _, ?_⟩
    cases jump with
    | none => exact congrArg _ (by rw [List.append_nil])
    | some l => rfl
  | cons p rest ih =>
    have hpieces' : s.pieces.toList = (before ++ [p]) ++ (rest ++ after) := by
      rw [hpieces, List.append_assoc]
      rfl
    have hlimit' : Piece.endFrom 0 ((before ++ [p]) ++ rest) ≤ limit := by simpa using hlimit
    have hend := (Piece.endFrom_mono (List.prefix_append (before ++ [p]) rest) 0).trans hlimit'
    have hrest := @ih (before ++ [p]) hpieces' hlimit' fun q hq => hknown q (List.mem_cons_of_mem _ hq)
    -- The rest of the code is followed from its start.
    have hgo {c' : Cpu} (d : Cpu) (hc : Cpu.Passes images (image.Direct limit) c'
          (d.jump (image.address (Piece.endFrom 0 (before ++ [p]))))) :
        ∃ e, Cpu.Passes images (image.Direct limit) c' e ∧
          Exits s image before (p :: rest) e (Piece.follow (s.word image) none rest d) := by
      obtain ⟨e, he, hexits⟩ := hrest none d
      exact ⟨e, hc.trans he, hexits.cons⟩
    have hle := h.endFrom_le hpieces
    have hle' := h.endFrom_le hpieces'
    -- A piece that is one straight instruction.
    have hstraight {i : Instr} {d : Cpu}
        (hi : p.instrs s.rel (s.word image) (Piece.endFrom 0 before) = [i]) (hik : i.known = true)
        (his : i.straight = true) (hd : c.effect i = some d) :
        Cpu.Passes images (image.Direct limit) (c.jump (image.address (Piece.endFrom 0 before)))
          (d.jump (image.address (Piece.endFrom 0 (before ++ [p])))) := by
      refine h.direct hpieces hi hik rfl ?_ hend (by rintro r rfl; cases his)
      rw [Cpu.execute_straight his, ← Cpu.effect, hd]
      rfl
    cases jump with
    | some l =>
      dsimp only
      rw [Piece.follow]
      by_cases hl : p.bound? = some l
      · rw [if_pos hl]
        have hbind : p = .bind l := by cases p <;> cases hl; rfl
        subst hbind
        have hplace : s.placeOf l = Piece.endFrom 0 (before ++ [.bind l]) := by
          rw [h.laid.placeOf_eq hpieces, Piece.endFrom_append]
          rfl
        rw [hplace]
        exact hgo c (.refl _)
      · rw [if_neg hl]
        obtain ⟨d, hd, hexits⟩ := hrest (some l) c
        exact ⟨d, hd, hexits.cons⟩
    | none =>
      dsimp only
      have hpk := hknown p (List.mem_cons_self ..)
      have hstop : ∃ d, Cpu.Passes images (image.Direct limit) (c.jump (image.address (Piece.endFrom 0 before))) d ∧
          Exits s image before (p :: rest) d (.stops (p :: rest) c) :=
        ⟨_, .refl _, [], rfl, by rw [List.append_nil]⟩
      cases p with
      | instr i =>
        rw [Piece.follow]
        split
        · rename_i d his hd
          exact hgo d (hstraight rfl hpk his hd)
        · exact hstop
      | kept dst r =>
        rw [Piece.follow]
        by_cases hdst : dst = .rax
        · rw [if_pos hdst]
          refine hgo c ?_
          have hsame : Piece.endFrom 0 (before ++ [Piece.kept dst r]) = Piece.endFrom 0 before := by
            rw [Piece.endFrom_append]
            simp [Piece.endFrom, Piece.size, Piece.encode, hdst]
          rw [hsame]
          exact .refl _
        · rw [if_neg hdst]
          refine hgo _ (hstraight (i := .mov .w64 dst .rax) (by simp [Piece.instrs, hdst]) ?_ rfl rfl)
          simpa using hpk
      | jmp l =>
        rw [Piece.follow]
        obtain ⟨d, hd, hexits⟩ := hrest (some l) c
        refine ⟨d, .trans (h.direct hpieces rfl rfl rfl ?_ hend (by simp)) hd, hexits.cons⟩
        have hl : l ∈ s.binds := h.label_mem_binds hpieces (j := ⟨_, l⟩) rfl
        have hplace : Piece.endFrom 0 (before ++ [Piece.jmp l]) = Piece.endFrom 0 before + 5 := by
          rw [Piece.endFrom_append]
          rfl
        have haddress := h.address_rel hl hle'
        rw [hplace] at haddress ⊢
        simp only [Cpu.execute, haddress, Cpu.jump_jump]
      | jcc cond l =>
        rw [Piece.follow]
        have hl : l ∈ s.binds := h.label_mem_binds hpieces (j := ⟨_, l⟩) rfl
        have hplace : Piece.endFrom 0 (before ++ [Piece.jcc cond l]) = Piece.endFrom 0 before + 6 := by
          rw [Piece.endFrom_append]
          rfl
        have haddress := h.address_rel hl hle'
        have hexecute : (c.jump (image.address (Piece.endFrom 0 before))).execute
            (image.address (Piece.endFrom 0 (before ++ [Piece.jcc cond l])))
            (.jcc cond (s.rel (Piece.endFrom 0 before + 6) l)) =
          some (c.jump (image.address (if cond.holds c.flags then s.placeOf l
            else Piece.endFrom 0 (before ++ [Piece.jcc cond l])))) := by
          rw [hplace] at haddress ⊢
          simp only [Cpu.execute, Cpu.jump_jump, Cpu.flags_jump, haddress]
          split <;> rfl
        by_cases hc : cond.holds c.flags = true
        · rw [if_pos hc] at hexecute ⊢
          obtain ⟨d, hd, hexits⟩ := hrest (some l) c
          exact ⟨d, .trans (h.direct hpieces rfl hpk rfl hexecute hend (by simp)) hd, hexits.cons⟩
        · rw [if_neg hc] at hexecute ⊢
          exact hgo c (h.direct hpieces rfl hpk rfl hexecute hend (by simp))
      | call l => exact hstop
      | address dst l =>
        rw [Piece.follow]
        exact hgo _ (hstraight (i := .movImm64 dst (s.word image l)) rfl hpk rfl rfl)
      | bind l =>
        rw [Piece.follow]
        refine hgo c ?_
        have hsame : Piece.endFrom 0 (before ++ [Piece.bind l]) = Piece.endFrom 0 before := by
          rw [Piece.endFrom_append]
          rfl
        rw [hsame]
        exact .refl _
      | align n => exact hstop

section

variable {before ps after : List Piece} (hpieces : s.pieces.toList = before ++ (ps ++ after))
  (hknown : ∀ p ∈ ps, p.known = true) {c : Cpu} (hrip : c.rip = image.address (Piece.endFrom 0 before))
  {e : Piece.Exit} (he : Piece.follow (s.word image) none ps c = e)

include hpieces hknown hrip he

/-- The processor follows a stretch of code from its start, below a place. -/
theorem follows_below {limit : Nat} (hlimit : Piece.endFrom 0 (before ++ ps) ≤ limit) :
    ∃ d, Cpu.Passes images (image.Direct limit) c d ∧ Exits s image before ps d e := by
  obtain ⟨d, hd, hexits⟩ := h.follows_from hpieces hlimit hknown none c
  dsimp only at hd
  rw [← hrip, Cpu.jump_rip] at hd
  exact ⟨d, hd, he ▸ hexits⟩

/-- The processor follows a stretch of code from its start. -/
theorem follows : ∃ d, Cpu.Passes images Cpu.Direct c d ∧ Exits s image before ps d e := by
  obtain ⟨d, hd, hexits⟩ := h.follows_below hpieces hknown hrip he (Nat.le_refl _)
  have hle := h.endFrom_le (show s.pieces.toList = (before ++ ps) ++ after by rw [hpieces, List.append_assoc])
  exact ⟨d, h.outside hle hd, hexits⟩

end

theorem start_le : Session.start.size ≤ s.size := by
  obtain ⟨parts, hplaced⟩ := h.placed
  rw [Session.start_laid.size_eq, h.laid.size_eq, hplaced.comprises.pieces]
  exact Piece.endFrom_mono (List.prefix_append _ _) 0

omit h in
theorem placeOf_thunk (hload : Loaded images s image) {l : Label} {front back : List Piece}
    (hthunk : Session.thunkPieces = front ++ .bind l :: back) :
    s.placeOf l = Piece.endFrom 0 (front ++ [.bind l]) := by
  obtain ⟨parts, hplaced⟩ := hload.placed
  have hpieces : s.pieces.toList = front ++ .bind l :: (back ++ Part.code parts) := by
    rw [hplaced.comprises.pieces, hthunk, List.append_assoc, List.cons_append]
  rw [hload.laid.placeOf_eq hpieces, Piece.endFrom_append]
  rfl

/-- The processor passes through a thunk, whose last instruction hands control on. -/
theorem thunk {l : Label} {front back : List Piece} {is : List Instr} {j : Instr}
    (hthunk : Session.thunkPieces = front ++ .bind l :: (is.map .instr ++ .instr j :: back))
    (hknown : ∀ i ∈ is ++ [j], i.known = true) (hjump : ∀ r, j ≠ .jmpReg r) {c d e : Cpu}
    (hrip : c.rip = image.address (s.placeOf l))
    (hfollow : Piece.follow (s.word image) none (is.map .instr ++ [.instr j]) c = .stops [.instr j] d)
    (hexecute : ∀ here, (d.jump here).execute
      (image.address (Piece.endFrom 0 (front ++ [.bind l] ++ (is.map .instr ++ [.instr j])))) j = some e) :
    Cpu.Passes images (image.Direct Session.start.size) c e := by
  obtain ⟨parts, hplaced⟩ := h.placed
  rw [h.placeOf_thunk hthunk] at hrip
  have hlimit : Piece.endFrom 0 (front ++ [.bind l] ++ (is.map .instr ++ [.instr j])) ≤ Session.start.size := by
    rw [Session.start_laid.size_eq]
    change _ ≤ Piece.endFrom 0 Session.thunkPieces
    exact Piece.endFrom_mono ⟨back, by rw [hthunk]; simp⟩ 0
  have hpieces : s.pieces.toList =
      (front ++ [.bind l]) ++ ((is.map .instr ++ [.instr j]) ++ (back ++ Part.code parts)) := by
    rw [hplaced.comprises.pieces, hthunk]
    simp
  have hknown' : ∀ p ∈ is.map Piece.instr ++ [.instr j], p.known = true := by
    intro p hp
    rw [← List.map_singleton, ← List.map_append] at hp
    obtain ⟨i, hi, rfl⟩ := List.mem_map.1 hp
    exact hknown i hi
  obtain ⟨x, hpasses, mid, hmid, rfl⟩ := h.follows_below hpieces hknown' hrip hfollow hlimit
  obtain rfl : is.map Piece.instr = mid := List.append_inj_left' hmid rfl
  have hlast : s.pieces.toList =
      (front ++ [.bind l] ++ is.map .instr) ++ .instr j :: (back ++ Part.code parts) := by
    rw [hpieces]
    simp
  rw [← List.append_assoc] at hlimit hexecute
  exact hpasses.trans (h.direct hlast rfl (hknown j (by simp)) rfl (hexecute _) hlimit hjump)

end Loaded

namespace X86

/-! ## Registers -/

section

open Reg

@[simp] theorem slot_named : rax.slot = 0 ∧ rcx.slot = 1 ∧ rdx.slot = 2 ∧ rbx.slot = 3 ∧
    rsp.slot = 4 ∧ rbp.slot = 5 ∧ rsi.slot = 6 ∧ rdi.slot = 7 ∧ r8.slot = 8 ∧ r9.slot = 9 ∧
    r12.slot = 12 ∧ r13.slot = 13 ∧ r14.slot = 14 ∧ r15.slot = 15 ∧ contextReg.slot = 13 ∧
    frameReg.slot = 12 ∧ maskReg.slot = 15 := by decide

end

/-! ## Conditions -/

section

variable (f : Flags)

@[simp] theorem holds_o : Cond.o.holds f = f.overflow := rfl

@[simp] theorem holds_b : Cond.b.holds f = f.carry := rfl

@[simp] theorem holds_e : Cond.e.holds f = f.zero := rfl

@[simp] theorem holds_ne : Cond.ne.holds f = !f.zero := rfl

@[simp] theorem holds_a : Cond.a.holds f = !(f.carry || f.zero) := rfl

@[simp] theorem holds_s : Cond.s.holds f = f.sign := rfl

@[simp] theorem holds_ns : Cond.ns.holds f = !f.sign := rfl

@[simp] theorem holds_l : Cond.l.holds f = (f.sign != f.overflow) := rfl

@[simp] theorem holds_ge : Cond.ge.holds f = !(f.sign != f.overflow) := rfl

@[simp] theorem holds_le : Cond.le.holds f = (f.zero || f.sign != f.overflow) := rfl

@[simp] theorem holds_g : Cond.g.holds f = !(f.zero || f.sign != f.overflow) := rfl

end

theorem holds_invert {c : Cond} (h : c.known = true) (f : Flags) : c.invert.holds f = !c.holds f := by
  obtain ⟨n, hn, rfl⟩ := Cond.exists_of_known h
  interval_cases n <;> first | rfl | exact (Bool.not_not _).symm

namespace Flags

variable (w : Width) (a b r : UInt64)

@[simp] theorem zero_ofBits : (ofBits w r).zero = (r == 0) := rfl

@[simp] theorem sign_ofBits : (ofBits w r).sign = w.isNegative r := rfl

@[simp] theorem overflow_ofBits : (ofBits w r).overflow = false := rfl

@[simp] theorem carry_ofDifference : (ofDifference w a b r).carry = decide (a < b) := rfl

theorem zero_ofDifference64 : (ofDifference .w64 a b (a - b)).zero = (a == b) := by
  change (a - b == 0) = _
  rw [Bool.eq_iff_iff, beq_iff_eq, beq_iff_eq, UInt64.sub_eq_iff_eq_add, UInt64.zero_add]

end Flags

/-! ## Instructions -/

@[simp] theorem Width.clip_w64 (x : UInt64) : Width.clip .w64 x = x := rfl

namespace Cpu

variable (c : Cpu)

@[simp] theorem flags_setFlags (f : Flags) : (c.setFlags f).flags = f := rfl

@[simp] theorem flags_setReg (r : Reg) (x : UInt64) : (c.setReg r x).flags = c.flags := rfl

@[simp] theorem effect_mov (w : Width) (dst src : Reg) :
    c.effect (.mov w dst src) = some (c.setReg dst (w.clip (c.reg src))) := rfl

@[simp] theorem effect_movImm64 (dst : Reg) (imm : UInt64) :
    c.effect (.movImm64 dst imm) = some (c.setReg dst imm) := rfl

@[simp] theorem effect_movImm32 (dst : Reg) (imm : UInt32) :
    c.effect (.movImm32 dst imm) = some (c.setReg dst imm.toUInt64) := rfl

@[simp] theorem effect_movImmSigned (dst : Reg) (imm : Int32) :
    c.effect (.movImmSigned dst imm) = some (c.setReg dst (displacementWord imm)) := rfl

@[simp] theorem effect_load (dst base : Reg) (d : Int32) :
    c.effect (.load dst base d) =
      some (c.setReg dst (c.read (c.reg base + displacementWord d))) := rfl

@[simp] theorem effect_store (base src : Reg) (d : Int32) :
    c.effect (.store base d src) =
      some (c.write (c.reg base + displacementWord d) (c.reg src)) := rfl

@[simp] theorem effect_cmp (w : Width) (dst src : Reg) :
    c.effect (.alu .cmp w dst src) = some (c.setFlags (.ofDifference w (w.clip (c.reg dst))
      (w.clip (c.reg src)) (w.clip (w.clip (c.reg dst) - w.clip (c.reg src))))) := rfl

@[simp] theorem effect_cmpImm (w : Width) (dst : Reg) (imm : Int32) :
    c.effect (.aluImm .cmp w dst imm) = some (c.setFlags (.ofDifference w (w.clip (c.reg dst))
      (w.clip (displacementWord imm))
      (w.clip (w.clip (c.reg dst) - w.clip (displacementWord imm))))) := rfl

@[simp] theorem effect_and (w : Width) (dst src : Reg) :
    c.effect (.alu .and w dst src) = some ((c.setReg dst (w.clip (c.reg dst) &&& w.clip (c.reg src))).setFlags
      (.ofBits w (w.clip (c.reg dst) &&& w.clip (c.reg src)))) := rfl

@[simp] theorem effect_andImm (w : Width) (dst : Reg) (imm : Int32) :
    c.effect (.aluImm .and w dst imm) =
      some ((c.setReg dst (w.clip (c.reg dst) &&& w.clip (displacementWord imm))).setFlags
        (.ofBits w (w.clip (c.reg dst) &&& w.clip (displacementWord imm)))) := rfl

@[simp] theorem effect_orImm (w : Width) (dst : Reg) (imm : Int32) :
    c.effect (.aluImm .or w dst imm) =
      some ((c.setReg dst (w.clip (c.reg dst) ||| w.clip (displacementWord imm))).setFlags
        (.ofBits w (w.clip (c.reg dst) ||| w.clip (displacementWord imm)))) := rfl

@[simp] theorem effect_xorImm (w : Width) (dst : Reg) (imm : Int32) :
    c.effect (.aluImm .xor w dst imm) =
      some ((c.setReg dst (w.clip (c.reg dst) ^^^ w.clip (displacementWord imm))).setFlags
        (.ofBits w (w.clip (c.reg dst) ^^^ w.clip (displacementWord imm)))) := rfl

@[simp] theorem effect_setcc (cond : Cond) (dst : Reg) :
    c.effect (.setcc cond dst) = some (c.setReg dst
      (c.reg dst &&& ~~~(0xff : UInt64) ||| if cond.holds c.flags then 1 else 0)) := rfl

@[simp] theorem effect_movzx8 (dst src : Reg) :
    c.effect (.movzx8 dst src) = some (c.setReg dst (c.reg src &&& 0xff)) := rfl

@[simp] theorem effect_test (w : Width) (left right : Reg) :
    c.effect (.test w left right) =
      some (c.setFlags (.ofBits w (w.clip (c.reg left &&& c.reg right)))) := rfl

end Cpu

end X86

end RegisterJit
