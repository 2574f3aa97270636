import RegisterJit.Proofs.Words

/-!
# What validation accepts

A program is accepted exactly when no code of it is absent and every code spells opcodes, jumps to
boundaries, and keeps its indices, its plain registers and the ranges of its handlers within bounds.
Nothing else is looked at: not the registers of packed operands, not those of final blocks, and of a
handler not where in an instruction it begins or ends.

On a stream that spells opcodes the checks of a code come down to three statements, about its jumps, its operands
and its handlers, with one lemma for each check. Words are looked at through `Words`, by boundary and operand, and
not by going along the stream; `Building` shows that what a builder finishes satisfies the statements and so passes.

`Code.Admitted` says this of a tree of codes, and `Code.validate_iff_admitted` that validation decides it. The
argument goes through the words of one code: a stream that is read to its end with no wide opcode word spells
the opcodes that were read (`spells_of_readFrom`), so the walk of the validator over words is a walk over
instructions, and what it checks of an operand it checks of every operand of that kind. `slackCode` shows what
is left open: it passes with operands that no frame has. `Cursor` uses the same reading for the streams that
stand alone, before there is a code.
-/

namespace RegisterJit

open RegisterJit.Stream (Spells Boundary placed instructionAt extent)

theorem Opcode.jumpOperand?_of_format {op : Opcode} {i : Nat} (h : op.format[i]? = some .jump) :
    op.jumpOperand? = some i := by
  have hall : ∀ op ∈ Opcode.all, ∀ i < op.format.length,
      op.format[i]? = some .jump → op.jumpOperand? = some i := by decide +kernel
  exact hall op op.mem_all i (List.getElem?_eq_some_iff.1 h).1 h

namespace Instruction

theorem format_of_jumpOperand? {op : Opcode} {i : Nat} (h : op.jumpOperand? = some i) :
    op.format[i]? = some .jump := by
  rw [Opcode.jumpOperand?, List.findIdx?_eq_some_iff_getElem] at h
  obtain ⟨hi, hj, -⟩ := h
  rw [List.getElem?_eq_getElem hi, eq_of_beq hj]

theorem exists_jumpOperand {ins : Instruction} {t : UInt32} (h : ins.target? = some t) :
    ∃ i, ins.opcode.format[i]? = some .jump ∧
      t = ins.offset.toUInt32 + (ins.i32 i).toUInt32 := by
  rw [target?, Option.map_eq_some_iff] at h
  obtain ⟨i, hi, rfl⟩ := h
  exact ⟨i, format_of_jumpOperand? hi, rfl⟩

theorem mem_operands_instructionAt {data : Array Word} {s : Nat} {op : Opcode}
    (hfits : s + op.length ≤ data.size) {kind : OperandKind} {w : Word} :
    (kind, w) ∈ (instructionAt data (s, op)).operands ↔
      ∃ i, op.format[i]? = some kind ∧ (instructionAt data (s, op)).operand i = w := by
  have hlength : ((instructionAt data (s, op)).words.drop 1).length = op.format.length := by
    simp only [instructionAt, List.length_drop, Array.length_toList, Array.size_extract,
      Opcode.length] at hfits ⊢
    omega
  have hget : ∀ i, op.format[i]? = some kind →
      ((instructionAt data (s, op)).words.drop 1)[i]? =
        some ((instructionAt data (s, op)).operand i) := by
    intro i hi
    obtain ⟨hlt, -⟩ := List.getElem?_eq_some_iff.1 hi
    rw [List.getElem?_drop, Instruction.operand, List.getD_eq_getElem?_getD, Nat.add_comm 1 i]
    rw [List.length_drop] at hlength
    rw [List.getElem?_eq_getElem (by omega)]
    rfl
  rw [Instruction.operands, List.mem_iff_getElem?]
  constructor
  · rintro ⟨i, hi⟩
    obtain ⟨hk, hv⟩ := List.getElem?_zip_eq_some.1 hi
    refine ⟨i, hk, ?_⟩
    rw [hget i hk] at hv
    exact Option.some.inj hv
  · rintro ⟨i, hi, rfl⟩
    exact ⟨i, List.getElem?_zip_eq_some.2 ⟨hi, hget i hi⟩⟩

end Instruction

namespace Stream

variable {ops : List Opcode} {data : Array Word}

theorem Spells.mem_instructions (h : Spells ops data) {ins : Instruction} :
    ins ∈ instructions data ↔ ∃ s op, (s, op) ∈ placed 0 ops ∧ ins = instructionAt data (s, op) := by
  rw [h.instructions_eq, List.mem_map]
  constructor
  · rintro ⟨⟨s, op⟩, hp, rfl⟩
    exact ⟨s, op, hp, rfl⟩
  · rintro ⟨s, op, hp, rfl⟩
    exact ⟨(s, op), hp, rfl⟩

theorem Spells.fits (h : Spells ops data) {s : Nat} {op : Opcode} (hp : (s, op) ∈ placed 0 ops) :
    s + op.length ≤ data.size := by
  have := (bounds_of_mem_placed hp).2
  rw [h.size]
  omega

theorem Spells.not_wide (h : Spells ops data) : firstWide? (instructions data) = none := by
  rw [firstWide?, List.findSome?_eq_none_iff]
  intro ins hins
  obtain ⟨s, op, hp, rfl⟩ := h.mem_instructions.1 hins
  have hw := h.word hp
  have hlt : s < data.size := (Array.getElem?_eq_some_iff.1 hw).1
  have hlen := op.length_pos
  have hwords : (instructionAt data (s, op)).words.head? = some (Word.ofOpcode op) := by
    have hfits := h.fits hp
    simp only [instructionAt, List.head?_eq_getElem?, Array.getElem?_toList, Array.getElem?_extract]
    rw [if_pos (by omega), Nat.add_zero, hw]
  rw [wideWord?]
  split
  · rename_i w rest heq
    rw [heq, List.head?_cons, Option.some.injEq] at hwords
    rw [hwords, Word.toNat_ofOpcode, if_neg (by have := op.toNat_lt; omega)]
    rfl
  · rfl

theorem Spells.boundary_iff (h : Spells ops data) {n : Nat} :
    (n ∈ (instructions data).map (·.offset) ∨ n = data.size) ↔ Boundary ops n := by
  rw [Boundary, ← h.size, h.instructions_eq, List.map_map, List.mem_map]
  constructor
  · rintro (⟨⟨s, op⟩, hp, rfl⟩ | hn)
    · exact .inl ⟨op, hp⟩
    · exact .inr hn
  · rintro (⟨op, hp⟩ | hn)
    · exact .inl ⟨(n, op), hp, rfl⟩
    · exact .inr hn

theorem Spells.validate_iff (h : Spells ops data) :
    validate data = .ok () ↔
      ∀ ins ∈ instructions data, ∀ t, ins.target? = some t → Boundary ops t.toNat := by
  have hread : read data = (instructions data, none) := by rw [instructions, h.read_eq]
  have hjump : firstBadJump? (instructions data) data.size = none ↔
      ∀ ins ∈ instructions data, ∀ t, ins.target? = some t → Boundary ops t.toNat := by
    rw [firstBadJump?, List.findSome?_eq_none_iff]
    refine forall₂_congr fun ins _ => ?_
    cases ht : ins.target? with
    | none => simp
    | some t =>
      simp only [h.boundary_iff, Option.some.injEq, forall_eq', ite_eq_left_iff, reduceCtorEq,
        imp_false, not_not]
  rw [← hjump, validate, hread]
  simp only [h.not_wide]
  split <;> simp_all

end Stream

namespace Code

variable {ops : List Opcode} {c : Code}

theorem firstBadOperand?_eq_none_iff (h : Spells ops c.data) :
    c.firstBadOperand? = none ↔ ∀ ins ∈ Stream.instructions c.data, ∀ i kind,
      ins.opcode.format[i]? = some kind → c.operandDefect? kind (ins.operand i) = none := by
  rw [firstBadOperand?, List.findSome?_eq_none_iff]
  refine forall₂_congr fun ins hins => ?_
  obtain ⟨s, op, hp, rfl⟩ := h.mem_instructions.1 hins
  rw [List.findSome?_eq_none_iff]
  constructor
  · intro hall i kind hi
    have hmem := (Instruction.mem_operands_instructionAt (h.fits hp)).2 ⟨i, hi, rfl⟩
    simpa using hall _ hmem
  · rintro hall ⟨kind, w⟩ hmem
    obtain ⟨i, hi, rfl⟩ := (Instruction.mem_operands_instructionAt (h.fits hp)).1 hmem
    simpa using hall i kind hi

theorem firstBadHandler?_eq_none_iff :
    c.firstBadHandler? = none ↔
      ∀ h ∈ c.handlers, h.start ≤ h.stop ∧ h.stop.toNat ≤ c.data.size := by
  rw [firstBadHandler?, List.findSome?_eq_none_iff]
  constructor
  · intro hall h hh
    obtain ⟨i, hi⟩ := List.mem_iff_getElem?.1 (Array.mem_toList_iff.2 hh)
    have := hall (h, i) (List.mk_mem_zipIdx_iff_getElem?.2 hi)
    simp only [ite_eq_right_iff, reduceCtorEq, imp_false, not_or, Nat.not_lt] at this
    exact ⟨UInt32.not_lt.1 this.1, this.2⟩
  · rintro hall ⟨h, i⟩ hmem
    have hh := Array.mem_toList_iff.1
      (List.mem_of_getElem? (List.mk_mem_zipIdx_iff_getElem?.1 hmem))
    obtain ⟨hle, hsize⟩ := hall h hh
    simp [UInt32.not_lt.2 hle, Nat.not_lt.2 hsize]

theorem validateOne_iff (h : Spells ops c.data) :
    c.validateOne = .ok () ↔
      (∀ ins ∈ Stream.instructions c.data, ∀ t, ins.target? = some t → Boundary ops t.toNat) ∧
      (∀ ins ∈ Stream.instructions c.data, ∀ i kind, ins.opcode.format[i]? = some kind →
        c.operandDefect? kind (ins.operand i) = none) ∧
      ∀ h ∈ c.handlers, h.start ≤ h.stop ∧ h.stop.toNat ≤ c.data.size := by
  rw [← h.validate_iff, ← firstBadOperand?_eq_none_iff h, ← firstBadHandler?_eq_none_iff,
    validateOne]
  split
  · simp_all
  · rename_i heq
    simp only [heq, true_and]
    split
    · simp_all
    · split <;> simp_all

end Code

/-! ## Streams that are read -/

theorem Opcode.toNat_of_ofNat? {op : Opcode} {n : Nat} (h : Opcode.ofNat? n = some op) :
    op.toNat = n := by
  have hnodup : Opcode.all.Nodup := by decide +kernel
  rw [Opcode.ofNat?, Opcode.table, List.getElem?_toArray] at h
  obtain ⟨hlt, rfl⟩ := List.getElem?_eq_some_iff.1 h
  exact hnodup.idxOf_getElem n hlt

theorem Word.eq_ofOpcode {w : Word} {op : Opcode} (h : Word.opcode? w = some op)
    (hnarrow : w.toNat ≤ 0xffff) : w = Word.ofOpcode op := by
  have hnumber := Opcode.toNat_of_ofNat? h
  rw [Word.opcodeNumber, Nat.mod_eq_of_lt (by omega)] at hnumber
  rw [← UInt64.toNat_inj, Word.toNat_ofOpcode, hnumber]

namespace Stream

variable {data : Array Word}

theorem of_readOne {pos : Nat} {ins : Instruction} (h : readOne data pos = .ok ins) :
    ∃ op, Word.opcode? (data.getD pos 0) = some op ∧ pos + op.length ≤ data.size ∧
      ins = instructionAt data (pos, op) := by
  unfold readOne at h
  cases hop : Word.opcode? (data.getD pos 0) with
  | none => simp only [hop, reduceCtorEq] at h
  | some op =>
    simp only [hop] at h
    by_cases hfits : data.size < pos + op.length
    · rw [if_pos hfits] at h
      cases h
    · rw [if_neg hfits] at h
      exact ⟨op, rfl, Nat.not_lt.1 hfits, (Except.ok.inj h).symm⟩

theorem narrow_of_wideWord? {pos : Nat} {op : Opcode} (hfits : pos + op.length ≤ data.size)
    (h : wideWord? (instructionAt data (pos, op)) = none) : (data.getD pos 0).toNat ≤ 0xffff := by
  have hpos := op.length_pos
  have hlt : pos < data.size := by omega
  have hhead : (instructionAt data (pos, op)).words.head? = some (data.getD pos 0) := by
    simp only [instructionAt, List.head?_eq_getElem?, Array.getElem?_toList, Array.getElem?_extract]
    rw [if_pos (by omega), Nat.add_zero, Array.getD_eq_getD_getElem?, Array.getElem?_eq_getElem hlt]
    rfl
  rw [wideWord?] at h
  cases hwords : (instructionAt data (pos, op)).words with
  | nil => rw [hwords] at hhead; cases hhead
  | cons w rest =>
    rw [hwords] at hhead h
    cases hhead
    by_contra hwide
    simp only [if_pos (Nat.not_le.1 hwide), reduceCtorEq] at h

/-- A stream that is read to its end, with no wide opcode word, spells the opcodes that were read. -/
theorem spells_of_readFrom {pos : Nat} {is : List Instruction} (hpos : pos ≤ data.size)
    (h : readFrom data pos = (is, none)) (hnarrow : firstWide? is = none) :
    pos + extent (is.map (·.opcode)) = data.size ∧
      ∀ s op, (s, op) ∈ placed pos (is.map (·.opcode)) → data[s]? = some (Word.ofOpcode op) := by
  induction is generalizing pos with
  | nil =>
    rw [readFrom] at h
    split at h
    · cases hone : readOne data pos with
      | error f => rw [hone] at h; cases h
      | ok ins => rw [hone] at h; cases h
    · exact ⟨by rw [List.map_nil, extent]; omega, fun s op hs => by cases hs⟩
  | cons ins is ih =>
    rw [readFrom] at h
    split at h
    · rename_i hlt
      cases hone : readOne data pos with
      | error f => rw [hone] at h; cases h
      | ok ins' =>
        rw [hone] at h
        simp only [Prod.mk.injEq, List.cons.injEq] at h
        obtain ⟨⟨rfl, hrest⟩, hend⟩ := h
        obtain ⟨op, hop, hfits, rfl⟩ := of_readOne hone
        rw [firstWide?, List.findSome?_cons] at hnarrow
        have hhead : wideWord? (instructionAt data (pos, op)) = none := by
          cases hw : wideWord? (instructionAt data (pos, op)) with
          | none => rfl
          | some w => rw [hw] at hnarrow; cases hnarrow
        rw [hhead] at hnarrow
        obtain ⟨hsize, hwords⟩ := ih hfits (Prod.ext hrest hend) hnarrow
        have hget : data.getD pos 0 = data[pos] := by
          rw [Array.getD_eq_getD_getElem?, Array.getElem?_eq_getElem hlt, Option.getD_some]
        rw [List.map_cons, extent, placed]
        refine ⟨by rw [← hsize, Nat.add_assoc]; rfl, fun s op' hs => ?_⟩
        rcases List.mem_cons.1 hs with heq | hs
        · cases heq
          rw [Array.getElem?_eq_getElem hlt, ← hget,
            Word.eq_ofOpcode hop (narrow_of_wideWord? hfits hhead)]
          rfl
        · exact hwords s op' hs
    · cases h

theorem exists_spells (h : validate data = .ok ()) : ∃ ops, Spells ops data := by
  rw [validate] at h
  cases hread : read data with
  | mk is fault =>
    rw [hread] at h
    cases hwide : firstWide? is with
    | some d => simp only [hwide, reduceCtorEq] at h
    | none =>
      cases fault with
      | some f => simp only [hwide, reduceCtorEq] at h
      | none =>
        obtain ⟨hsize, hwords⟩ := spells_of_readFrom (Nat.zero_le _) hread hwide
        exact ⟨_, by rw [← hsize, Nat.zero_add], fun hs => hwords _ _ hs⟩

end Stream

namespace Code

/-- What an accepted code keeps within bounds. -/
structure Admitted (c : Code) (ops : List Opcode) : Prop where
  spells : Spells ops c.data
  jumps : ∀ ins ∈ Stream.instructions c.data, ∀ t, ins.target? = some t → Boundary ops t.toNat
  constants : ∀ ins ∈ Stream.instructions c.data, ∀ i, ins.opcode.format[i]? = some .constant →
    (ins.u32 i).toNat < c.constants.size
  names : ∀ ins ∈ Stream.instructions c.data, ∀ i, ins.opcode.format[i]? = some .name →
    (ins.u32 i).toNat < c.names.size
  codes : ∀ ins ∈ Stream.instructions c.data, ∀ i, ins.opcode.format[i]? = some .code →
    (ins.u32 i).toNat < c.codes.length
  registers : ∀ ins ∈ Stream.instructions c.data, ∀ i, ins.opcode.format[i]? = some .register →
    0 ≤ (ins.reg i).index.toInt → (ins.reg i).index.toInt < c.registerCount.toNat
  handlers : ∀ h ∈ c.handlers, h.start ≤ h.stop ∧ h.stop.toNat ≤ c.data.size

theorem operandDefect?_eq_none_iff {c : Code} {ins : Instruction} {i : Nat} :
    (∀ kind, ins.opcode.format[i]? = some kind → c.operandDefect? kind (ins.operand i) = none) ↔
      (ins.opcode.format[i]? = some .constant → (ins.u32 i).toNat < c.constants.size) ∧
      (ins.opcode.format[i]? = some .name → (ins.u32 i).toNat < c.names.size) ∧
      (ins.opcode.format[i]? = some .code → (ins.u32 i).toNat < c.codes.length) ∧
      (ins.opcode.format[i]? = some .register → 0 ≤ (ins.reg i).index.toInt →
        (ins.reg i).index.toInt < c.registerCount.toNat) := by
  cases hkind : ins.opcode.format[i]? with
  | none => simp
  | some kind =>
    cases kind with
    | constant | name | code => simp [operandDefect?, Instruction.u32]
    | register =>
      simp only [Option.some.injEq, forall_eq', operandDefect?, Instruction.reg, reduceCtorEq,
        false_implies, true_and, true_implies, ite_eq_right_iff, imp_false, not_and, Nat.not_le]
      exact forall_congr' fun h => by omega
    | _ => simp [operandDefect?]

theorem validateOne_iff_admitted {c : Code} : c.validateOne = .ok () ↔ ∃ ops, c.Admitted ops := by
  constructor
  · intro h
    obtain ⟨ops, hops⟩ : ∃ ops, Spells ops c.data := by
      refine Stream.exists_spells ?_
      rw [validateOne] at h
      cases hstream : Stream.validate c.data with
      | ok u => rfl
      | error d => rw [hstream] at h; cases h
    obtain ⟨hjumps, hoperands, hhandlers⟩ := (validateOne_iff hops).1 h
    have hall := fun ins hins i => operandDefect?_eq_none_iff.1 (hoperands ins hins i)
    exact ⟨ops, hops, hjumps, fun ins hins i => (hall ins hins i).1,
      fun ins hins i => (hall ins hins i).2.1, fun ins hins i => (hall ins hins i).2.2.1,
      fun ins hins i => (hall ins hins i).2.2.2, hhandlers⟩
  · rintro ⟨ops, h⟩
    exact (validateOne_iff h.spells).2 ⟨h.jumps, fun ins hins i => operandDefect?_eq_none_iff.2
      ⟨h.constants ins hins i, h.names ins hins i, h.codes ins hins i, h.registers ins hins i⟩,
      h.handlers⟩

theorem forM_validateOne {codes : List Code} :
    codes.forM (fun c => c.validateOne.mapError (ProgramDefect.inCode c.name)) = .ok () ↔
      ∀ c ∈ codes, c.validateOne = .ok () := by
  induction codes with
  | nil => simp [pure, Except.pure]
  | cons c codes ih =>
    rw [List.forall_mem_cons, ← ih]
    change (c.validateOne.mapError (ProgramDefect.inCode c.name) >>= fun _ => _) = _ ↔ _
    cases hc : c.validateOne with
    | ok u => simp [Except.mapError, bind, Except.bind]
    | error d => simp [Except.mapError, bind, Except.bind]

/-- **Acceptance.** A program is accepted exactly when no code of it is absent and each code keeps
within bounds what is checked: opcodes, targets of jumps, indices, plain registers and the ranges of
handlers. -/
theorem validate_iff_admitted (c : Code) :
    c.validate = .ok () ↔ ∃ codes, c.walk? = some codes ∧ ∀ d ∈ codes, ∃ ops, d.Admitted ops := by
  rw [validate]
  cases hwalk : c.walk? with
  | none => simp
  | some codes =>
    simp only [forM_validateOne, validateOne_iff_admitted, Option.some.injEq, exists_eq_left']

/-- A code with one register that names others: in a packed operand, for its final block, and no
register at all; its handler begins inside an instruction. -/
def slackCode : Code := { ofName (Text.ofString "main") with
  data := #[Word.ofOpcode (.storeObject .data), Word.pack ⟨5⟩ ⟨6⟩ 0, Word.ofUInt32 0,
    Word.ofOpcode .loadInt32, Word.ofRegister Register.invalid, Word.ofUInt32 0,
    Word.ofOpcode .return, Word.ofRegister ⟨0⟩]
  names := #[Text.ofString "p"]
  registerCount := 1
  handlers := #[⟨Handler.kindFinally, 1, 6, 0, ⟨7⟩, ⟨8⟩⟩] }

/-- Acceptance leaves all of this open. -/
theorem validate_slackCode :
    slackCode.validate.isOk = true ∧
    (∃ h ∈ slackCode.handlers.toList,
      h.start.toNat ∉ (Stream.instructions slackCode.data).map (·.offset) ∧
      h.start.toNat ≠ slackCode.data.size ∧ h.kind = Handler.kindFinally ∧
      (slackCode.registerCount.toNat : Int) ≤ h.jump.index.toInt ∧
      (slackCode.registerCount.toNat : Int) ≤ h.flag.index.toInt) ∧
    (∃ ins ∈ Stream.instructions slackCode.data, ∃ i < ins.opcode.format.length,
      ins.opcode.format[i]? = some .packed ∧
      (slackCode.registerCount.toNat : Int) ≤ (Word.unpack (ins.operand i)).1.index.toInt ∧
      (slackCode.registerCount.toNat : Int) ≤ (Word.unpack (ins.operand i)).2.1.index.toInt) ∧
    (∃ ins ∈ Stream.instructions slackCode.data, ∃ i < ins.opcode.format.length,
      ins.opcode.format[i]? = some .register ∧ ins.reg i = Register.invalid) := by
  decide +kernel

end Code

end RegisterJit
