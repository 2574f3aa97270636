import RegisterJit.Proofs.Layout

/-!
# What is known between two pieces

A note says how far a function is with its frame and the native stack, and what the accumulator is
known to hold. `Piece.Admits` says which pieces may stand where a note holds, `Piece.next` what holds
after them. The notes of labels are given by a function `Λ`; a jump needs the note of its label, and
a label may only be weaker than what falls through to it.

Compiled code is followed piece by piece. `Note` is what is known at a point: the `Phase` of the function, which
says how much of its frame has been set up or taken down, and the `Content` of the accumulator. A piece admits
some notes and turns them into others, and jumps pass theirs on to labels; `Leads` says this of a list of
pieces, and unfolds along it. `Emission` checks that emitters only write pieces that are admitted, so later
proofs about the meaning of pieces may assume for each piece what its note says, and need no invariant of their
own.
-/

namespace RegisterJit

open X86 (Reg Instr Label)

/-- What the accumulator is known to hold. -/
inductive Content
  | unknown
  /-- The word at a displacement from the current frame. -/
  | slot (d : Int32)
  /-- The number of a stub. -/
  | stub (n : UInt32)
  deriving DecidableEq

/-- How far a function is. -/
inductive Phase
  /-- The return address is on top of the native stack. -/
  | entry
  /-- The frame has been pushed and is the current one. -/
  | body
  /-- A stub that makes calls has come back: the accumulator holds the current frame, or one to
  enter. -/
  | answered
  /-- The accumulator has been compared with the current frame. -/
  | compared
  /-- The accumulator holds a frame to enter. -/
  | accepted
  /-- The current frame is one to enter. -/
  | entering
  /-- The function that was entered has returned, and its frame is still the current one. -/
  | returned
  /-- The frame has been popped. -/
  | leaving
  /-- Control does not come here. -/
  | never
  deriving DecidableEq

/-- What is known at a place. -/
structure Note where
  phase : Phase
  content : Content
  deriving DecidableEq

namespace Note

/-- All that is known at most labels. -/
def any : Note := ⟨.body, .unknown⟩

/-- Where control does not come. -/
def never : Note := ⟨.never, .unknown⟩

/-- Whether `b` may be relied on where `a` holds. -/
def Fits (a b : Note) : Prop :=
  a.phase = .never ∨ a.phase = b.phase ∧ (b.content = .unknown ∨ a.content = b.content)

@[simp] theorem fits_never (b : Note) : never.Fits b := .inl rfl

@[simp] theorem fits_self (a : Note) : a.Fits a := .inr ⟨rfl, .inr rfl⟩

/-- A note at the end of an instruction after which the accumulator is taken to hold `r`. -/
def Ends (a : Note) (r : Register) : Prop :=
  a.phase = .never ∨ a.phase = .body ∧
    (r ≠ Register.invalid → ∃ d, Frame.registerOffset? r = some d ∧ a.content = .slot d)

@[simp] theorem body_fits_any (k : Content) : Fits ⟨.body, k⟩ any := .inr ⟨rfl, .inl rfl⟩

end Note

@[simp] def scratchRegs : List Reg := [.rax, .rcx, .rdx, .rsi, .rdi, .r8, .r9]

def X86.Reg.known (r : Reg) : Bool := r.num < 16

def X86.Cond.known (c : X86.Cond) : Bool := c.num < 16

@[simp] theorem X86.Reg.known_scratch : Reg.rax.known = true ∧ Reg.rcx.known = true ∧
    Reg.rdx.known = true ∧ Reg.rsi.known = true ∧ Reg.rdi.known = true ∧ Reg.r8.known = true ∧
    Reg.r9.known = true ∧ X86.Xmm.x0.toReg.known = true := by decide

@[simp] theorem X86.Reg.known_role : contextReg.known = true ∧ frameReg.known = true ∧
    maskReg.known = true ∧ Reg.rsp.known = true := by decide

@[simp] theorem X86.Cond.known_named : Cond.o.known = true ∧ Cond.no.known = true ∧
    Cond.b.known = true ∧ Cond.ae.known = true ∧ Cond.e.known = true ∧ Cond.ne.known = true ∧
    Cond.be.known = true ∧ Cond.a.known = true ∧ Cond.s.known = true ∧ Cond.ns.known = true ∧
    Cond.l.known = true ∧ Cond.ge.known = true ∧ Cond.le.known = true ∧ Cond.g.known = true := by
  decide

namespace X86.Instr

/-- The general registers that an instruction sets, for the instructions that set registers and
flags only. -/
@[simp] def writes : Instr → List Reg
  | .mov _ dst _ | .movImm64 dst _ | .movImm32 dst _ | .movImmSigned dst _ | .load dst _ _
  | .lea dst _ _ | .imul _ dst _ | .neg32 dst | .not32 dst | .shift32 _ dst | .rol dst _
  | .movsxd dst _ | .movzx8 dst _ | .setcc _ dst | .cmov _ dst _ | .movqFrom dst _ => [dst]
  | .alu op _ dst _ | .aluImm op _ dst _ => if op = .cmp then [] else [dst]
  | .cdq => [.rdx]
  | .idiv32 _ => [.rax, .rdx]
  | _ => []

/-- Whether an instruction sets nothing but registers and flags and goes on after itself. -/
@[simp] def plain : Instr → Bool
  | .store .. | .jmp _ | .jcc .. | .call _ | .jmpReg _ | .callReg _ | .callMem .. | .ret | .push _
  | .pop _ | .ud2 => false
  | .mov .. | .movImm64 .. | .movImm32 .. | .movImmSigned .. | .load .. | .lea .. | .alu ..
  | .aluImm .. | .test .. | .imul .. | .neg32 _ | .not32 _ | .shift32 .. | .rol .. | .cdq
  | .idiv32 _ | .movsxd .. | .movzx8 .. | .setcc .. | .cmov .. | .cvtsi2sd .. | .movqFrom ..
  | .movqTo .. | .nop => true

/-- Whether the registers and conditions of an instruction are ones that exist. -/
@[simp] def known : Instr → Bool
  | .mov _ a b | .alu _ _ a b | .test _ a b | .imul _ a b | .movsxd a b | .movzx8 a b | .load a b _
  | .store a _ b | .lea a b _ => a.known && b.known
  | .movImm64 a _ | .movImm32 a _ | .movImmSigned a _ | .aluImm _ _ a _ | .neg32 a | .not32 a
  | .shift32 _ a | .rol a _ | .idiv32 a | .jmpReg a | .callReg a | .callMem a _ | .push a
  | .pop a => a.known
  | .setcc c a => c.known && a.known
  | .cmov c a b => c.known && a.known && b.known
  | .cvtsi2sd x a | .movqFrom a x | .movqTo x a => x.toReg.known && a.known
  | .jcc c _ => c.known
  | .cdq | .jmp _ | .call _ | .ret | .nop | .ud2 => true

/-- Whether an instruction does nothing but compute in the free registers. -/
@[simp] def quiet (i : Instr) : Bool := i.plain && i.known && i.writes.all (· ∈ scratchRegs)

end X86.Instr

theorem known_of_mem_scratchRegs {r : Reg} (h : r ∈ scratchRegs) : r.known = true := by
  simp only [scratchRegs, List.mem_cons, List.not_mem_nil, or_false] at h
  rcases h with rfl | rfl | rfl | rfl | rfl | rfl | rfl <;> rfl

/-- What the accumulator holds after a quiet instruction. -/
def Content.after (k : Content) (i : Instr) : Content :=
  if Reg.rax ∈ i.writes then
    match i with
    | .load _ base d => if base = frameReg then .slot d else .unknown
    | .movImm32 _ n => .stub n
    | _ => .unknown
  else k

/-- Whether a stub makes calls: it comes back with a frame to enter, or with the current one. -/
@[simp] def Stub.makesCalls (s : Stub) : Bool := s = .call || s = .construct || s = .eval

theorem Stub.ofNat?_number (s : Stub) : Stub.ofNat? s.number.toNat = some s := by
  cases s with
  | binary op => cases op with
    | compare c => cases c <;> decide
    | _ => decide
  | storeObject part => cases part <;> decide
  | storeGlobal b | storeName b | storeProp b | deleteProp b | storeElement b | deleteElement b =>
    cases b <;> decide
  | instantiate b c => cases b <;> cases c <;> decide
  | _ => decide

namespace Piece

def nextInstr (a : Note) (i : Instr) : Note :=
  match a.phase with
  | .entry | .returned => Note.any
  | .answered => ⟨.compared, .unknown⟩
  | .accepted => ⟨.entering, .unknown⟩
  | .entering => ⟨.returned, .unknown⟩
  | .leaving | .compared | .never => .never
  | .body =>
    match i with
    | .store base d src =>
      ⟨.body, if base = frameReg ∧ src = .rax then .slot d else .unknown⟩
    | .pop _ => ⟨.leaving, .unknown⟩
    | .ud2 | .jmpReg _ => .never
    | i => ⟨.body, a.content.after i⟩

/-- The note after a stub has come back. -/
def nextCall (a : Note) : Note :=
  match a.content with
  | .stub n =>
    match Stub.ofNat? n.toNat with
    | some s => if s.makesCalls then ⟨.answered, .unknown⟩ else .any
    | none => .never
  | _ => .never

variable (Λ : Label → Note) (W : Int32 → Prop)

def next (a : Note) : Piece → Note
  | .instr i => nextInstr a i
  | .kept _ _ | .align _ => a
  | .jmp _ => .never
  | .jcc _ _ => if a.phase = .compared then .any else a
  | .call _ => if a.phase = .never then .never else nextCall a
  | .address _ _ => ⟨a.phase, .unknown⟩
  | .bind l => Λ l

/-- Whether an instruction may stand where a note holds. The displacements that may be written are
those of `W`. -/
def AdmitsInstr (a : Note) (i : Instr) : Prop :=
  match a.phase with
  | .never => True
  | .entry => i = .push frameReg
  | .answered => i = .alu .cmp .w64 .rax frameReg
  | .accepted => i = .mov .w64 frameReg .rax
  | .entering => i = .callMem frameReg Frame.entry
  | .returned => i = .load frameReg .rsp 0
  | .leaving => i = .ret
  | .compared => False
  | .body =>
    match i with
    | .store base d src =>
      src.known = true ∧ (base = frameReg ∧ W d ∨ base = contextReg ∧ d = Context.stackPointer)
    | .pop dst => dst = .rcx
    | .ud2 => True
    | .jmpReg r => r = .rax
    | i => i.quiet = true

/-- Whether a piece may stand where a note holds. -/
def Admits (a : Note) : Piece → Prop
  | .instr i => AdmitsInstr W a i
  | .kept dst r =>
    a.phase = .body ∧ dst ∈ scratchRegs ∧
      ∃ d, Frame.registerOffset? r = some d ∧ a.content = .slot d
  | .align _ => a.phase = .never
  | .jmp l => (a.phase = .body ∨ a.phase = .never) ∧ a.Fits (Λ l)
  | .jcc c l =>
    c.known = true ∧ (a.phase = .body ∨ a.phase = .never) ∧ a.Fits (Λ l) ∨
      a.phase = .compared ∧ c = .ne ∧ Λ l = ⟨.accepted, .unknown⟩
  | .call l =>
    a.phase = .never ∨
      a.phase = .body ∧ l = Session.stubThunk ∧ ∃ s : Stub, a.content = .stub s.number
  | .address dst l => a.phase = .body ∧ dst = .rax ∧ Λ l = .any
  | .bind l => a.Fits (Λ l)

/-- Pieces that may stand one after the other from the note `a` on, and lead to the note `b`. -/
def Leads (a : Note) : List Piece → Note → Prop
  | [], b => a = b
  | p :: rest, b => p.Admits Λ W a ∧ Leads (p.next Λ a) rest b

variable {Λ W} {a b c : Note} {k : Content} {ps qs : List Piece}

theorem leads_append : Leads Λ W a (ps ++ qs) c ↔ ∃ b, Leads Λ W a ps b ∧ Leads Λ W b qs c := by
  induction ps generalizing a with
  | nil => simp [Leads]
  | cons p ps ih =>
    rw [List.cons_append, Leads, ih]
    simp only [Leads, and_assoc, exists_and_left]

/-! ## Labels and bytes -/

/-- Whether no label is bound where no byte has been written since the start, if `fresh`, or since an
operand that the accumulator holds anyway. -/
@[simp] def tight (fresh : Bool) : List Piece → Bool
  | [] => true
  | .bind _ :: rest => !fresh && tight false rest
  | .kept dst _ :: rest => tight (dst = .rax) rest
  | .align _ :: rest => tight fresh rest
  | .instr _ :: rest | .jmp _ :: rest | .jcc _ _ :: rest | .call _ :: rest
  | .address _ _ :: rest => tight false rest

theorem tight_mono (h : tight true ps = true) (fresh : Bool) : tight fresh ps = true := by
  induction ps with
  | nil => rfl
  | cons p ps ih =>
    cases p with
    | bind l => simp at h
    | align n => exact ih h
    | _ => exact h

theorem tight_append {fresh : Bool} (hp : tight fresh ps = true) (hq : tight true qs = true) :
    tight fresh (ps ++ qs) = true := by
  induction ps generalizing fresh with
  | nil => exact tight_mono hq fresh
  | cons p ps ih =>
    cases p with
    | bind l =>
      simp only [tight, Bool.and_eq_true] at hp
      simp only [List.cons_append, tight, Bool.and_eq_true]
      exact ⟨hp.1, ih hp.2⟩
    | _ => exact ih hp

theorem tight_of_binds_eq_nil {fresh : Bool} (h : binds ps = []) : tight fresh ps = true := by
  induction ps generalizing fresh with
  | nil => rfl
  | cons p ps ih =>
    cases p with
    | bind l => cases h
    | _ => exact ih h

/-- Pieces that bind labels after bytes only and refer to labels of which `P` holds. -/
@[simp] def Clean (P : Label → Prop) (ps : List Piece) : Prop :=
  tight true ps = true ∧ ∀ l ∈ targets ps, P l

/-! ## Pieces in the body of a function -/

@[simp] theorem leads_nil : Leads Λ W a [] b ↔ a = b := Iff.rfl

@[simp] theorem leads_quiet {i : Instr} (hi : i.quiet = true) :
    Leads Λ W ⟨.body, k⟩ (.instr i :: ps) b ↔ Leads Λ W ⟨.body, k.after i⟩ ps b := by
  cases i <;> simp_all [Leads, Admits, AdmitsInstr, next, nextInstr, Instr.quiet, Instr.plain]

@[simp] theorem leads_movValue {dst : Reg} (hdst : decide (dst ∈ scratchRegs) = true)
    (v : UInt64) :
    Leads Λ W ⟨.body, k⟩ (.instr (.movValue dst v) :: ps) b ↔
      Leads Λ W ⟨.body, k.after (.movValue dst v)⟩ ps b := by
  have hknown := known_of_mem_scratchRegs (of_decide_eq_true hdst)
  apply leads_quiet
  unfold Instr.movValue
  split
  · simpa using And.intro hknown hdst
  · split <;> simpa using And.intro hknown hdst

@[simp] theorem leads_store_frame {d : Int32} {src : Reg} (hs : src.known = true) :
    Leads Λ W ⟨.body, k⟩ (.instr (.store frameReg d src) :: ps) b ↔
      W d ∧ Leads Λ W ⟨.body, if src = .rax then .slot d else .unknown⟩ ps b := by
  simp [Leads, Admits, AdmitsInstr, next, nextInstr, hs]
  intro _
  simp [show frameReg ≠ contextReg by decide]

@[simp] theorem leads_store_stackPointer {src : Reg} (hs : src.known = true) :
    Leads Λ W ⟨.body, k⟩ (.instr (.store contextReg Context.stackPointer src) :: ps) b ↔
      Leads Λ W .any ps b := by
  simp [Leads, Admits, AdmitsInstr, next, nextInstr, Note.any, hs,
    show contextReg ≠ frameReg by decide]

@[simp] theorem leads_ud2 :
    Leads Λ W ⟨.body, k⟩ (.instr .ud2 :: ps) b ↔ Leads Λ W .never ps b := by
  simp [Leads, Admits, AdmitsInstr, next, nextInstr]

@[simp] theorem leads_jmp {l : Label} :
    Leads Λ W ⟨.body, k⟩ (.jmp l :: ps) b ↔
      Note.Fits ⟨.body, k⟩ (Λ l) ∧ Leads Λ W .never ps b := by
  simp [Leads, Admits, next]

@[simp] theorem leads_jcc {c : X86.Cond} {l : Label} (hc : c.known = true) :
    Leads Λ W ⟨.body, k⟩ (.jcc c l :: ps) b ↔
      Note.Fits ⟨.body, k⟩ (Λ l) ∧ Leads Λ W ⟨.body, k⟩ ps b := by
  simp [Leads, Admits, next, hc]

@[simp] theorem leads_bind {l : Label} :
    Leads Λ W a (.bind l :: ps) b ↔ a.Fits (Λ l) ∧ Leads Λ W (Λ l) ps b := Iff.rfl

@[simp] theorem leads_stub {s : Stub} :
    Leads Λ W ⟨.body, .stub s.number⟩ (.call Session.stubThunk :: ps) b ↔
      Leads Λ W (if s.makesCalls then ⟨.answered, .unknown⟩ else .any) ps b := by
  have hnext : nextCall ⟨.body, .stub s.number⟩ =
      if s.makesCalls then ⟨.answered, .unknown⟩ else .any := by
    simp only [nextCall, Stub.ofNat?_number]
  rw [Leads, next, if_neg (by simp), hnext]
  exact and_iff_right (.inr ⟨rfl, rfl, s, rfl⟩)

@[simp] theorem leads_address {l : Label} :
    Leads Λ W ⟨.body, k⟩ (.address .rax l :: ps) b ↔ Λ l = .any ∧ Leads Λ W .any ps b := by
  simp [Leads, Admits, next, Note.any]

@[simp] theorem leads_never_align {n : Nat} :
    Leads Λ W .never (.align n :: ps) b ↔ Leads Λ W .never ps b :=
  and_iff_right rfl

@[simp] theorem leads_jmpReg :
    Leads Λ W ⟨.body, k⟩ (.instr (.jmpReg .rax) :: ps) b ↔ Leads Λ W .never ps b :=
  and_iff_right rfl

@[simp] theorem leads_leave :
    Leads Λ W ⟨.body, k⟩ (.instr (.pop .rcx) :: .instr .ret :: ps) b ↔ Leads Λ W .never ps b :=
  (and_iff_right rfl).trans (and_iff_right rfl)

@[simp] theorem leads_answered {l : Label} :
    Leads Λ W ⟨.answered, k⟩ (.instr (.alu .cmp .w64 .rax frameReg) :: .jcc .ne l :: ps) b ↔
      Λ l = ⟨.accepted, .unknown⟩ ∧ Leads Λ W .any ps b := by
  simp [Leads, Admits, AdmitsInstr, next, nextInstr]

/-- A frame is entered, and its caller's frame is taken up again when it has returned. -/
@[simp] theorem leads_enter :
    Leads Λ W ⟨.accepted, k⟩ (.instr (.mov .w64 frameReg .rax) ::
      .instr (.callMem frameReg Frame.entry) :: .instr (.load frameReg .rsp 0) :: ps) b ↔
      Leads Λ W .any ps b := by
  simp [Leads, Admits, AdmitsInstr, next, nextInstr]

@[simp] theorem leads_any : Leads Λ W .any ps b ↔ Leads Λ W ⟨.body, .unknown⟩ ps b := Iff.rfl

end Piece

namespace Content

variable {k : Content}

theorem after_of_kept {i : Instr} (h : Reg.rax ∉ i.writes) : k.after i = k := if_neg h

theorem after_movValue {dst : Reg} (h : Reg.rax ≠ dst) (v : UInt64) :
    k.after (.movValue dst v) = k := by
  apply after_of_kept
  unfold Instr.movValue
  split
  · simpa using h
  · split <;> simpa using h

@[simp] theorem after_stubNumber (n : UInt32) : k.after (.movImm32 .rax n) = .stub n := rfl

@[simp] theorem after_loadSlot (d : Int32) : k.after (.load .rax frameReg d) = .slot d := rfl

end Content

end RegisterJit
