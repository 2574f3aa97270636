import RegisterJit.Proofs.Words
import RegisterJit.Proofs.Writing

/-!
# References in compiled code

Stubs are handed references: to a name of the running code, to a code nested in it, or to the
instruction that is being executed. `Stub.references` says where. Whatever the code, an instruction
calls stubs with the references that its own operands name, loaded into their registers just before.

`ReferenceKind` lists what a reference can be, `Stub.references` which arguments of a stub are references, and
of which kind. `Loads` says that a register was loaded with a word and not written since, `Calls` that something
holds at each call of a stub among the pieces. An emitter that hands on no reference satisfies every such
condition for trivial reasons; the others are gone through one by one. `Sessions` carries the result to whole
units and `Addresses` to the codes of a machine, where a reference by number is resolved in the table of codes.
-/

namespace RegisterJit

open X86 (Reg Instr Label)

/-! ## What stubs are handed -/

/-- What a reference names. -/
inductive ReferenceKind
  | name
  | nested
  /-- The instruction that it is handed over by. -/
  | here

/-- The operand of an instruction that is of a kind, the first of them. -/
def Instruction.operandOf (ins : Instruction) (kind : OperandKind) : UInt32 :=
  ins.u32 (ins.opcode.format.idxOf kind)

namespace CodeUnit

/-- The reference that an instruction of a unit hands over. -/
def reference (u : CodeUnit) (ins : Instruction) : ReferenceKind → UInt64
  | .name => codeReference u.id (ins.operandOf .name)
  | .nested => codeReference u.id (ins.operandOf .code)
  | .here => codeReference u.id ins.offset.toUInt32

/-- Whether what an instruction names is there. -/
def Has (u : CodeUnit) (ins : Instruction) : ReferenceKind → Prop
  | .name => (ins.operandOf .name).toNat < u.code.names.size
  | .nested => (ins.operandOf .code).toNat < u.code.codes.length
  | .here => True

end CodeUnit

namespace Stub

/-- The registers in which a stub is handed references. -/
def references : Stub → List (Reg × ReferenceKind)
  | .loadFunction => [(.rdx, .nested)]
  | .loadGlobal => [(.rsi, .name), (.rdx, .here)]
  | .storeGlobal _ => [(.rsi, .name), (.rcx, .here)]
  | .deleteGlobal | .typeofGlobal | .stepGlobal | .raiseImmutable => [(.rsi, .name)]
  | .loadProp => [(.rdx, .name), (.rcx, .here)]
  | .storeProp _ => [(.rdx, .name), (.r8, .here)]
  | .storeObject _ | .loadHeap | .typeofHeap | .loadName | .storeName _ | .deleteName | .typeofName
  | .stepName | .deleteProp _ | .stepProp | .tryCatchSetup | .instantiate .. | .prepareDynamicCall =>
    [(.rdx, .name)]
  | .call | .construct | .eval => [(.r9, .here)]
  | _ => []

theorem mem_all (s : Stub) : s ∈ all := by
  cases s with
  | binary op => exact List.mem_append_left _ (List.mem_map_of_mem op.mem_all)
  | storeObject part => exact List.mem_append_right _ (by cases part <;> decide)
  | storeGlobal b | storeName b | storeProp b | deleteProp b | storeElement b | deleteElement b =>
    exact List.mem_append_right _ (by cases b <;> decide)
  | instantiate b c => exact List.mem_append_right _ (by cases b <;> cases c <;> decide)
  | _ => exact List.mem_append_right _ (by decide)

@[simp] theorem number_inj {s t : Stub} : s.number = t.number ↔ s = t := by
  refine ⟨fun h => ?_, congrArg _⟩
  have hlt (r : Stub) : r.toNat < all.length := List.idxOf_lt_length_of_mem (mem_all r)
  have hsize : all.length ≤ 2 ^ 32 := by decide
  have heq : s.toNat = t.toNat := by
    have h := congrArg UInt32.toNat h
    have hs := hlt s
    have ht := hlt t
    rw [number, number, Nat.toUInt32_eq, Nat.toUInt32_eq, UInt32.toNat_ofNat', UInt32.toNat_ofNat'] at h
    omega
  exact (List.idxOf_inj (mem_all s)).1 heq

end Stub

/-! ## Words that registers hold -/

namespace Piece

/-- Whether a piece leaves a register alone and control goes on after it. -/
def spares (r : Reg) : Piece → Bool
  | .instr i => i.plain && r ∉ i.writes
  | .kept dst _ => dst ≠ r
  | _ => false

section

variable {r dst src : Reg}

@[simp] theorem spares_movValue (v : UInt64) :
    (Piece.instr (.movValue dst v)).spares r = decide (r ≠ dst) := by
  unfold X86.Instr.movValue
  split
  · simp [spares]
  · split <;> simp [spares]

@[simp] theorem spares_movImm32 (n : UInt32) :
    (Piece.instr (.movImm32 dst n)).spares r = decide (r ≠ dst) := by simp [spares]

@[simp] theorem spares_mov (w : X86.Width) :
    (Piece.instr (.mov w dst src)).spares r = decide (r ≠ dst) := by simp [spares]

@[simp] theorem spares_load (d : Int32) :
    (Piece.instr (.load dst src d)).spares r = decide (r ≠ dst) := by simp [spares]

@[simp] theorem spares_lea (d : Int32) :
    (Piece.instr (.lea dst src d)).spares r = decide (r ≠ dst) := by simp [spares]

@[simp] theorem spares_kept (s : Register) : (Piece.kept dst s).spares r = decide (dst ≠ r) := rfl

end

/-- The last of the pieces, given latest first, that sets the register loads the word. -/
def Loads (r : Reg) (v : UInt64) : List Piece → Prop
  | [] => False
  | p :: before => p = .instr (.movValue r v) ∨ p.spares r = true ∧ Loads r v before

/-- What holds whenever a stub is called. Pieces before are given latest first. -/
def Calls (C : Stub → List Piece → Prop) : (before : List Piece) → List Piece → Prop
  | _, [] => True
  | before, p :: rest =>
    (∀ l s, p = .call l → before.head? = some (.instr (.movImm32 .rax s.number)) → C s before) ∧
      Calls C (p :: before) rest

/-- Registers hold the references of an instruction. -/
def Handed (u : CodeUnit) (ins : Instruction) (before : List Piece) : List (Reg × ReferenceKind) → Prop
  | [] => True
  | (r, kind) :: rest =>
    (u.Has ins kind ∧ Loads r (u.reference ins kind) before) ∧ Handed u ins before rest

def HandsOver (u : CodeUnit) (ins : Instruction) : List Piece → Prop :=
  Calls (fun s before => Handed u ins before s.references) []

section

variable {C : Stub → List Piece → Prop} {before rest : List Piece}

@[simp] theorem calls_nil : Calls C before [] := trivial

theorem calls_cons_of_ne {p : Piece} (hp : ∀ l, p ≠ .call l) :
    Calls C before (p :: rest) ↔ Calls C (p :: before) rest :=
  and_iff_right fun l _ hl => absurd hl (hp l)

@[simp] theorem calls_instr {i : Instr} :
    Calls C before (.instr i :: rest) ↔ Calls C (.instr i :: before) rest := calls_cons_of_ne nofun

@[simp] theorem calls_kept {dst : Reg} {r : Register} :
    Calls C before (.kept dst r :: rest) ↔ Calls C (.kept dst r :: before) rest := calls_cons_of_ne nofun

@[simp] theorem calls_jmp {l : Label} :
    Calls C before (.jmp l :: rest) ↔ Calls C (.jmp l :: before) rest := calls_cons_of_ne nofun

@[simp] theorem calls_jcc {c : X86.Cond} {l : Label} :
    Calls C before (.jcc c l :: rest) ↔ Calls C (.jcc c l :: before) rest := calls_cons_of_ne nofun

@[simp] theorem calls_label {l : Label} :
    Calls C before (.bind l :: rest) ↔ Calls C (.bind l :: before) rest := calls_cons_of_ne nofun

@[simp] theorem calls_call {s : Stub} {l : Label} :
    Calls C (.instr (.movImm32 .rax s.number) :: before) (.call l :: rest) ↔
      C s (.instr (.movImm32 .rax s.number) :: before) ∧
        Calls C (.call l :: .instr (.movImm32 .rax s.number) :: before) rest := by
  refine and_congr_left' ⟨fun h => h l s rfl rfl, fun h l' s' _ hs' => ?_⟩
  obtain rfl : s = s' := by simpa using hs'
  exact h

end

theorem calls_append {C : Stub → List Piece → Prop} {before ps qs : List Piece} :
    Calls C before (ps ++ qs) ↔ Calls C before ps ∧ Calls C (ps.reverse ++ before) qs := by
  induction ps generalizing before with
  | nil => simp [Calls]
  | cons p ps ih => simp [Calls, ih, and_assoc]

theorem Calls.mono {C C' : Stub → List Piece → Prop} (h : ∀ s before, C s before → C' s before)
    {before ps : List Piece} (hps : Calls C before ps) : Calls C' before ps := by
  induction ps generalizing before with
  | nil => trivial
  | cons p ps ih => exact ⟨fun l s hl hs => h s before (hps.1 l s hl hs), ih hps.2⟩

end Piece

/-- Labels were allocated and pieces appended of which something holds. -/
def Emitter.Grows (C : List Piece → Prop) (e e' : Emitter) : Prop :=
  e.labels ≤ e'.labels ∧ ∃ ps : List Piece, e'.pieces = e.pieces ++ ps.toArray ∧ C ps

namespace Emitter.Grows

variable {C : List Piece → Prop} {e e' : Emitter} {ps : List Piece}

@[simp] theorem believe_iff {r : Register} : Grows C e (e'.believe r) ↔ Grows C e e' := Iff.rfl

@[simp] theorem expect_iff {r : Register} : Grows C e (e'.expect r) ↔ Grows C e e' := Iff.rfl

@[simp] theorem write_iff : Grows C e (e.write ps) ↔ C ps := by
  constructor
  · rintro ⟨-, qs, heq, hc⟩
    obtain rfl : ps = qs := by simpa [write, Array.append_right_inj] using heq
    exact hc
  · exact fun h => ⟨Nat.le_refl _, ps, rfl, h⟩

@[simp] theorem alloc_write_iff {count : Nat} : Grows C e ((e.alloc count).write ps) ↔ C ps := by
  constructor
  · rintro ⟨-, qs, heq, hc⟩
    obtain rfl : ps = qs := by simpa [write, alloc, Array.append_right_inj] using heq
    exact hc
  · exact fun h => ⟨Nat.le_add_right _ _, ps, rfl, h⟩

end Emitter.Grows

/-! ## Emitters that hand no references to a stub -/

namespace Emit

variable {α β : Type} {u : CodeUnit} {ins : Instruction} {site : Site}

/-- An emitter that succeeds has allocated labels and appended pieces in which no stub is called that
is handed references. -/
def Plain (site : Site) (m : Emit α) : Prop :=
  ∀ e, m.Ensures site e fun _ => e.Grows fun ps =>
    ∀ before, Piece.Calls (fun s _ => s.references = []) before ps

namespace Plain

theorem bind {m : Emit α} {f : α → Emit β} (hm : Plain site m) (hf : ∀ a, Plain site (f a)) :
    Plain site (m >>= f) := by
  intro e
  rw [ensures_bind]
  intro a e₁ hrun
  obtain ⟨hle, ps, hps, hall⟩ := hm e a e₁ hrun
  intro b e₂ hrun'
  obtain ⟨hle', ps', hps', hall'⟩ := hf a e₁ b e₂ hrun'
  refine ⟨Nat.le_trans hle hle', ps ++ ps', ?_, fun before => ?_⟩
  · rw [hps', hps]
    simp
  · exact Piece.calls_append.2 ⟨hall before, hall' _⟩

theorem quiet {m : Emit α} (h : ∀ e, m.Ensures site e fun _ e' =>
    e.labels ≤ e'.labels ∧ e'.pieces = e.pieces) : Plain site m := by
  intro e a e' hrun
  obtain ⟨hle, hpieces⟩ := h e a e' hrun
  exact ⟨hle, [], by simp [hpieces], fun _ => trivial⟩

theorem pure (a : α) : Plain site (Pure.pure a) := quiet fun e => by simp

theorem throw (i : Invariant) : Plain site (MonadExcept.throw i : Emit α) := quiet fun e => by simp

theorem read : Plain site (MonadReader.read : Emit Site) := quiet fun e => by simp

theorem get : Plain site (MonadState.get : Emit Emitter) := quiet fun e => by simp

theorem believe (r : Register) : Plain site (modify fun e => e.believe r) :=
  quiet fun e => by simp [Emitter.believe]

theorem expect (f : Emitter → Register) : Plain site (modify fun e => e.expect (f e)) :=
  quiet fun e => by simp [Emitter.expect]

theorem newLabel : Plain site newLabel := quiet fun e => by simp [Emitter.alloc]

theorem registerOffset (r : Register) : Plain site (registerOffset r) := quiet fun e => by simp

theorem constant (k : UInt32) : Plain site (constant k) := quiet fun e => by simp

theorem targetLabel (target : UInt32) : Plain site (targetLabel target) := quiet fun e => by simp

theorem isStrict : Plain site isStrict := quiet fun e => by simp

theorem ite {c : Prop} [Decidable c] {m m' : Emit α} (hm : Plain site m) (hm' : Plain site m') :
    Plain site (if c then m else m') := by
  split
  · exact hm
  · exact hm'

theorem piece {p : Piece} (hp : ∀ l, p ≠ .call l) : Plain site (piece p) := by
  intro e
  rw [ensures_piece, Emitter.Grows.write_iff]
  exact fun _ => ⟨fun l _ h => absurd h (hp l), trivial⟩

theorem address (dst : Reg) (l : Label) : Plain site (Emit.piece (.address dst l)) := piece (by simp)

theorem align (n : Nat) : Plain site (Emit.piece (.align n)) := piece (by simp)

theorem instr (i : Instr) : Plain site (instr i) := piece (by simp)

theorem jmp (l : Label) : Plain site (jmp l) := piece (by simp)

theorem jcc (c : X86.Cond) (l : Label) : Plain site (jcc c l) := piece (by simp)

theorem label (l : Label) : Plain site (Emit.bind l) := piece (by simp)

theorem instrs (is : List Instr) : Plain site (instrs is) := by
  induction is with
  | nil => exact pure ()
  | cons i is ih => exact bind (instr i) fun _ => ih

theorem load (dst : Reg) (r : Register) : Plain site (load dst r) :=
  .bind .get fun _ => .ite (piece (by simp)) <| .bind (.registerOffset r) fun _ =>
    .bind (.instr _) fun _ => .ite (.believe r) (.pure ())

theorem reload (dst : Reg) (r : Register) : Plain site (reload dst r) :=
  .bind (.registerOffset r) fun _ => .instr _

theorem store (r : Register) (src : Reg) : Plain site (store r src) :=
  .bind (.registerOffset r) fun _ => .instr _

theorem storeResult (r : Register) : Plain site (storeResult r) :=
  .bind (.store r .rax) fun _ => .expect fun _ => r

theorem registerAddress (dst : Reg) (r : Register) : Plain site (registerAddress dst r) :=
  .bind (.registerOffset r) fun _ => .instr _

theorem loadPair (lhs rhs : Register) : Plain site (loadPair lhs rhs) :=
  .bind .get fun _ => .ite (.bind (piece (by simp)) fun _ => .load _ _)
    (.bind (.load _ _) fun _ => .load _ _)

theorem callStub {s : Stub} (hs : s.references = []) : Plain site (callStub s) := by
  intro e
  rw [ensures_callStub, Emitter.Grows.believe_iff, Emitter.Grows.write_iff]
  simp [Piece.Calls, hs]

theorem coercible (base : Register) : Plain site (coercible base) := by
  intro e
  simp [checkPieces, Piece.Calls, Stub.references]

theorem guardInt32 (r : Reg) (slow : Label) : Plain site (guardInt32 r slow) :=
  .bind (.instr _) fun _ => .jcc _ _

theorem integerPair (lhs rhs : Register) (slow : Label) : Plain site (integerPair lhs rhs slow) :=
  .bind (.loadPair _ _) fun _ => .bind (.guardInt32 _ _) fun _ => .guardInt32 _ _

theorem finishSlow {path : Emit Unit} (hpath : Plain site path) (slow done : Label) (dst : Register) :
    Plain site (finishSlow slow done path dst) :=
  .bind (.label _) fun _ => .bind hpath fun _ => .bind (.label _) fun _ => .storeResult dst

theorem binarySlow (op : BinaryOp) (lhs rhs : Register) : Plain site (binarySlow op lhs rhs) :=
  .bind (.reload _ _) fun _ => .bind (.reload _ _) fun _ => .callStub rfl

end Plain

/-- Whether an instruction hands references to a stub. -/
def handsReferences : Opcode → Bool
  | .loadFunction | .storeObject _ | .global _ | .heap .load | .heap .typeof | .dynamic _ | .prop _
  | .raiseImmutable | .tryCatchSetup | .instantiateDeclaration | .instantiateVariable | .call
  | .construct | .eval | .prepareDynamicCall => true
  | _ => false

theorem plain_element (a : MemberAccess) (r base index : Register) :
    Plain site (element a r base index) := by
  refine .bind (.coercible _) fun _ => .bind (.load _ _) fun _ => ?_
  cases a with
  | load => exact .bind (.callStub rfl) fun _ => .storeResult _
  | store => exact .bind (.load _ _) fun _ => .bind .isStrict fun _ => .callStub rfl
  | delete => exact .bind .isStrict fun _ => .bind (.callStub rfl) fun _ => .storeResult _
  | step s =>
    exact .bind (.bind .isStrict fun _ => .instr _) fun _ => .bind (.callStub rfl) fun _ =>
      .storeResult _

theorem plain_loadImmediate (i : Immediate) (dst : Register) :
    Plain site (loadImmediate i dst) := by
  unfold loadImmediate
  split
  · exact .bind (.instr _) fun _ => .storeResult _
  · exact .bind (.instr _) fun _ => .storeResult _

theorem plain_heap {a : VariableAccess} (h : handsReferences (.heap a) = false) (r : Register)
    (name offset nest : UInt32) : Plain site (heap a r name offset nest) := by
  cases a with
  | load => cases h
  | typeof => cases h
  | store =>
    exact .bind (.instr _) fun _ => .bind (.load _ _) fun _ => .bind (.instr _) fun _ =>
      .bind (.instr _) fun _ => .callStub rfl
  | delete => exact plain_loadImmediate .false r
  | step s =>
    exact .bind (.instr _) fun _ => .bind (.bind .isStrict fun _ => .instr _) fun _ =>
      .bind (.instr _) fun _ => .bind (.instr _) fun _ => .bind (.callStub rfl) fun _ =>
      .storeResult _

theorem plain_binary (op : BinaryOp) (dst lhs rhs : Register) : Plain site (binary op dst lhs rhs) := by
  cases op
  all_goals
    simp only [binary, arith, divide, modulo, shift, bitwise, compare, binaryStub, boxInt32, boxDouble]
    repeat' with_reducible first
      | intro _ | exact Plain.newLabel | apply Plain.instr | apply Plain.instrs | apply Plain.jcc
      | apply Plain.jmp | apply Plain.label | apply Plain.load | apply Plain.integerPair
      | apply Plain.finishSlow | apply Plain.binarySlow | apply Plain.storeResult
      | exact Plain.callStub rfl | apply Plain.ite | apply Plain.bind

theorem references_stepStub (s : Step) : (stepStub s).references = [] := by
  unfold stepStub
  split <;> rfl

theorem plain_instruction (h : handsReferences ins.opcode = false) : Plain site (instruction ins) := by
  unfold instruction
  dsimp only
  split <;> rename_i hop <;> rw [hop] at h
  all_goals first | cases h | skip
  case h_1 => exact .expect Emitter.cached
  case h_3 => exact plain_loadImmediate _ _
  case h_16 => exact plain_heap h _ _ _ _
  case h_20 | h_21 => exact plain_element _ _ _ _
  case h_22 => exact plain_binary _ _ _ _
  case h_36 => exact .callStub rfl
  all_goals
    simp only [move, loadInt32, loadConst, loadCallee, loadArguments, loadRegExp, loadArray,
      initVectorElement, initSparseElement, loadObject, buildEnv, initializeHeapImmutable, withSetup,
      popEnv, compareBranch, toNumber, negate, Emit.not, bitNot, unaryStub, addDelta, stepInPlace,
      stepKeeping, toPrimitiveString, concat, conditionalJump, jumpSubroutine, returnSubroutine,
      forInSetup, forInEnumerate, forInLeave, returnAccumulator, boxInt32, boxDouble, compareNullish,
      callStubNoReturn, immediate, frame, jumpLabel]
  all_goals
    repeat' with_reducible first
      | intro _ | exact Plain.newLabel | apply Plain.instr | apply Plain.instrs | apply Plain.jcc
      | apply Plain.jmp | apply Plain.label | apply Plain.load | apply Plain.integerPair | apply Plain.guardInt32
      | apply Plain.finishSlow | apply Plain.binarySlow | apply Plain.storeResult | apply Plain.store
      | apply Plain.reload | exact Plain.callStub rfl | exact Plain.callStub (references_stepStub _)
      | apply Plain.ite | apply Plain.bind | apply Plain.constant | apply Plain.registerAddress
      | apply Plain.targetLabel | apply Plain.pure | apply Plain.address | apply Plain.align

/-! ## Emitters that hand references to a stub -/

section

variable {e : Emitter} {dst : Register}

theorem Plain.after {m : Emit Unit} (h : Plain site m) {e' : Emitter}
    (he : e.Grows (Piece.HandsOver u ins) e') :
    m.Ensures site e' fun _ => e.Grows (Piece.HandsOver u ins) := by
  intro a e'' hrun
  obtain ⟨hle, ps, hps, hhands⟩ := he
  obtain ⟨hle', ps', hps', hcalls⟩ := h e' a e'' hrun
  refine ⟨Nat.le_trans hle hle', ps ++ ps', by simp [hps', hps], Piece.calls_append.2 ⟨hhands, ?_⟩⟩
  refine Piece.Calls.mono (fun s before hs => ?_) (hcalls _)
  rw [hs]
  trivial

theorem Plain.hands {m : Emit Unit} (h : Plain site m) :
    m.Ensures site e fun _ => e.Grows (Piece.HandsOver u ins) :=
  h.after ⟨Nat.le_refl _, [], by simp, trivial⟩

attribute [local simp] Piece.HandsOver Piece.Handed Piece.Loads Stub.references
  CodeUnit.Has CodeUnit.reference stepMode nameStub frameNameStub heapStub Instruction.operandOf
  Opcode.format checkPieces

theorem hands_loadFunction (hop : ins.opcode = .loadFunction) :
    (loadFunction dst (ins.u32 1)).Ensures site e fun _ =>
      e.Grows (Piece.HandsOver site.unit ins) := by
  simp +decide +contextual [loadFunction, hop]

theorem hands_storeObject {part : PropertyPart} (hop : ins.opcode = .storeObject part)
    (object item : Register) (merged : UInt32) :
    (storeObject part object item merged (ins.u32 1)).Ensures site e fun _ =>
      e.Grows (Piece.HandsOver site.unit ins) := by
  simp +decide +contextual [storeObject, hop]

theorem hands_heap {a : VariableAccess} (hop : ins.opcode = .heap a) (offset nest : UInt32) :
    (heap a dst (ins.u32 1) offset nest).Ensures site e fun _ =>
      e.Grows (Piece.HandsOver site.unit ins) := by
  cases a with
  | load | typeof => simp +decide +contextual [heap, hop]
  | store | delete | step => exact (plain_heap rfl _ _ _ _).hands

theorem hands_dynamic {a : VariableAccess} (hop : ins.opcode = .dynamic a) :
    (dynamic a dst (ins.u32 1)).Ensures site e fun _ =>
      e.Grows (Piece.HandsOver site.unit ins) := by
  cases a <;> simp +decide +contextual [dynamic, hop]

theorem hands_raiseImmutable (hop : ins.opcode = .raiseImmutable) :
    (do symbol .rsi (ins.u32 0); callStubNoReturn .raiseImmutable : Emit Unit).Ensures site e fun _ =>
      e.Grows (Piece.HandsOver site.unit ins) := by
  simp +decide +contextual [callStubNoReturn, hop]

theorem hands_tryCatchSetup (hop : ins.opcode = .tryCatchSetup) :
    (tryCatchSetup dst (ins.u32 1)).Ensures site e fun _ =>
      e.Grows (Piece.HandsOver site.unit ins) := by
  simp +decide +contextual [tryCatchSetup, hop]

theorem hands_instantiate (hop : ins.opcode = .instantiateDeclaration ∨ ins.opcode = .instantiateVariable)
    (isVariable configurable : Bool) :
    (instantiate isVariable (ins.u32 0) configurable).Ensures site e fun _ =>
      e.Grows (Piece.HandsOver site.unit ins) := by
  rcases hop with hop | hop <;> simp +decide +contextual [instantiate, hop]

theorem hands_prepareDynamicCall (hop : ins.opcode = .prepareDynamicCall) (receiver : Register) :
    (prepareDynamicCall dst receiver (ins.u32 2)).Ensures site e fun _ =>
      e.Grows (Piece.HandsOver site.unit ins) := by
  simp +decide +contextual [prepareDynamicCall, hop]

section

variable (hoffset : site.offset = ins.offset.toUInt32)
include hoffset

theorem hands_global {a : VariableAccess} (hop : ins.opcode = .global a) :
    (global a dst (ins.u32 1)).Ensures site e fun _ =>
      e.Grows (Piece.HandsOver site.unit ins) := by
  cases a <;> simp +decide +contextual [global, hop, hoffset]

theorem hands_prop {a : MemberAccess} (hop : ins.opcode = .prop a) (base : Register) :
    (prop a dst base (ins.operandOf .name)).Ensures site e fun _ =>
      e.Grows (Piece.HandsOver site.unit ins) := by
  cases a <;> simp +decide +contextual [prop, hop, hoffset]

theorem hands_callShaped {s : Stub} (hs : s.references = [(.r9, .here)])
    (callee start : Register) (argc : UInt32) :
    (callShaped s dst callee start argc).Ensures site e fun _ =>
      e.Grows (Piece.HandsOver site.unit ins) := by
  unfold callShaped
  refine ensures_bind.2 (ensures_newLabel.2 (ensures_bind.2 (ensures_newLabel.2 (ensures_bind.2 ?_))))
  refine ensures_load.2 ⟨fun _ => ?_, fun _ d _ => ?_⟩
  all_goals
    refine ensures_bind.2 (ensures_registerAddress.2 fun start' _ => ensures_bind.2 ?_)
    refine ensures_immediate.2 (ensures_bind.2 (ensures_instr.2 (ensures_bind.2 ?_)))
    refine ensures_instructionPointer.2 (ensures_bind.2 (ensures_callStub.2 ?_))
    -- Nothing after the call of the stub calls another one.
    refine Plain.after ?_ ?_
  case refine_1.refine_2 | refine_2.refine_2 =>
    simp +decide [-Stub.references, hs, hoffset]
  all_goals
    simp only [jumpIfObject]
    repeat' with_reducible first
      | intro _ | exact Plain.newLabel | apply Plain.instr | apply Plain.instrs | apply Plain.jcc
      | apply Plain.jmp | apply Plain.label | apply Plain.read | apply Plain.storeResult
      | apply Plain.reload | apply Plain.ite | apply Plain.bind

theorem hands_instruction :
    (instruction ins).Ensures site e fun _ => e.Grows (Piece.HandsOver site.unit ins) := by
  by_cases hplain : handsReferences ins.opcode = false
  · exact (plain_instruction hplain).hands
  unfold instruction
  dsimp only
  split <;> rename_i hop <;> rw [hop] at hplain
  all_goals first | exact absurd rfl hplain | skip
  case h_8 => exact hands_loadFunction hop
  case h_14 => exact hands_storeObject hop _ _ _
  case h_15 => exact hands_global hoffset hop
  case h_16 => exact hands_heap hop _ _
  case h_17 => exact hands_dynamic hop
  case h_18 =>
    have hname : ins.operandOf .name = ins.u32 1 := by rw [Instruction.operandOf, hop]; rfl
    rw [← hname]
    exact hands_prop hoffset hop _
  case h_19 a hload =>
    have hname : ins.operandOf .name = ins.u32 2 := by
      rw [Instruction.operandOf, hop]
      cases a <;> first | rfl | exact absurd rfl hload
    rw [← hname]
    exact hands_prop hoffset hop _
  case h_34 => exact hands_raiseImmutable hop
  case h_37 => exact hands_tryCatchSetup hop
  case h_39 => exact hands_instantiate (.inl hop) _ _
  case h_40 => exact hands_instantiate (.inr hop) _ _
  case h_51 | h_52 | h_53 => exact hands_callShaped hoffset rfl _ _ _
  case h_54 => exact hands_prepareDynamicCall hop _

end

end

end Emit

end RegisterJit
