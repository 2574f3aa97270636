import Mathlib.Tactic.Common
import Mathlib.Tactic.IntervalCases
import RegisterJit.Proofs.Naturals
import RegisterJit.Proofs.Note
import RegisterJit.X86.Decode

/-!
# Instructions are read back

Decoding the bytes of an instruction gives the instruction, whatever bytes follow. The parts of an
encoding are read back one by one: prefixes, immediates, and the operand byte with what belongs to
it.

There is one lemma for each part: immediates, register numbers with the bit that a prefix adds, the operand byte
with base and displacement, prefixes and opcodes. `decode_instr` puts them together by cases on the instruction.
The decoder is a function of its own, which reads bytes and knows nothing of the encoder, so this is what fixes
the meaning of emitted bytes. `Transcription` states it for whole sequences of requests, `Execution` fetches
instructions with it, and `Relocation` finds the fields of an instruction that linking fills in.
-/

namespace RegisterJit

namespace X86

/-! ## Immediates -/

theorem readImm32_append (i : UInt32) (rest : List UInt8) :
    readImm32 (imm32 i ++ rest) = some (i, rest) := by
  have hval : LittleEndian.decode (imm32 i) = i.toNat := by
    rw [imm32, LittleEndian.decode_encode]
    exact Nat.mod_eq_of_lt i.toNat_lt
  have hread : readImm32 (imm32 i ++ rest) =
      some ((LittleEndian.decode (imm32 i)).toUInt32, rest) := rfl
  rw [hread, hval, Nat.toUInt32_eq, UInt32.ofNat_toNat]

theorem readImm64_append (i : UInt64) (rest : List UInt8) :
    readImm64 (imm64 i ++ rest) = some (i, rest) := by
  have hlength : (imm64 i).length = 8 := rfl
  have hval : LittleEndian.decode (imm64 i) = i.toNat := by
    rw [imm64, LittleEndian.decode_encode]
    exact Nat.mod_eq_of_lt i.toNat_lt
  rw [readImm64, if_neg (by rw [List.length_append]; omega), ← hlength, List.take_left',
    List.drop_left', hval, Nat.toUInt64_eq, UInt64.ofNat_toNat]
  · rfl
  · rfl

theorem readImm8_cons {i : Int32} (h : fitsByte i = true) (rest : List UInt8) :
    readImm8 (imm8 i :: rest) = some (i, rest) := by
  simp only [fitsByte, Bool.and_eq_true, decide_eq_true_eq] at h
  have hval : (imm8 i).toInt8.toInt32 = i := by
    rw [← Int32.toInt_inj, Int8.toInt_toInt32]
    change (i.toBitVec.setWidth 8).toInt = i.toBitVec.toInt
    have hbounds : -128 ≤ i.toBitVec.toInt ∧ i.toBitVec.toInt ≤ 127 := h
    have hdvd : 2 ^ 8 ∣ 2 ^ 32 := by decide
    rw [BitVec.toInt_setWidth, ← Int.bmod_bmod_of_dvd hdvd, ← BitVec.toInt_eq_toNat_bmod]
    exact Int.bmod_eq_of_le (by omega) (by omega)
  rw [readImm8, hval]

/-! ## Registers -/

theorem Reg.exists_of_known {r : Reg} (h : r.known = true) : ∃ n < 16, r = ⟨UInt8.ofNat n⟩ := by
  obtain ⟨n⟩ := r
  have hn : n.toNat < 16 := by simpa [Reg.known, UInt8.lt_iff_toNat_lt] using h
  exact ⟨n.toNat, hn, by simp⟩

theorem regOf_low {r : Reg} (h : r.known = true) : regOf r.extended r.low = r := by
  obtain ⟨n, hn, rfl⟩ := Reg.exists_of_known h
  interval_cases n <;> rfl

theorem low_lt (r : Reg) : r.low < 8 := Nat.mod_lt _ (by decide)

/-! ## Operands -/

theorem toNat_modRM {mode reg rm : Nat} (hmode : mode < 4) (hreg : reg < 8) (hrm : rm < 8) :
    (modRM mode reg rm).toNat / 64 = mode ∧ (modRM mode reg rm).toNat / 8 % 8 = reg ∧
      (modRM mode reg rm).toNat % 8 = rm := by
  have hval : (modRM mode reg rm).toNat = mode * 64 + reg * 8 + rm := by
    rw [modRM, Nat.toUInt8_eq, UInt8.toNat_ofNat', Nat.mod_eq_of_lt (by omega)]
  omega

theorem readModRM_direct (wide high given : Bool) {reg : Nat} (hreg : reg < 8) {r : Reg}
    (hr : r.known = true) (rest : List UInt8) :
    readModRM ⟨wide, high, r.extended, given⟩ (direct reg r :: rest) = some (reg, .direct r, rest) := by
  obtain ⟨hmode, hfield, hrm⟩ := toNat_modRM (show 3 < 4 by decide) hreg (low_lt r)
  simp only [readModRM, direct, hmode, hfield, hrm, regOf_low hr, if_true]

theorem readDirect_cons (wide high given : Bool) {reg : Nat} (hreg : reg < 8) {r : Reg}
    (hr : r.known = true) (rest : List UInt8) :
    readDirect ⟨wide, high, r.extended, given⟩ (direct reg r :: rest) = some (reg, r, rest) := by
  rw [readDirect, readModRM_direct wide high given hreg hr]

theorem low_eq_four {r : Reg} (h : r.known = true) : r.low = 4 ↔ r = .rsp ∨ r = .r12 := by
  obtain ⟨n, hn, rfl⟩ := Reg.exists_of_known h
  interval_cases n <;> decide

theorem low_eq_five {r : Reg} (h : r.known = true) : r.low = 5 ↔ r = .rbp ∨ r = .r13 := by
  obtain ⟨n, hn, rfl⟩ := Reg.exists_of_known h
  interval_cases n <;> decide

theorem readModRM_memory (wide high given : Bool) {reg : Nat} (hreg : reg < 8) {base : Reg}
    (hb : base.known = true) (d : Int32) (rest : List UInt8) :
    readModRM ⟨wide, high, base.extended, given⟩ (memory reg base d ++ rest) =
      some (reg, .memory base d, rest) := by
  have hbase : regOf base.extended base.low = base := regOf_low hb
  have hindex := low_eq_four hb
  unfold memory
  dsimp only
  by_cases h0 : d = 0 ∧ base ≠ .rbp ∧ base ≠ .r13
  · obtain ⟨hmode, hfield, hrm⟩ := toNat_modRM (show 0 < 4 by decide) hreg (low_lt base)
    have h5 : base.low ≠ 5 := fun h => by
      rcases (low_eq_five hb).1 h with h | h
      · exact h0.2.1 h
      · exact h0.2.2 h
    rw [if_pos h0, List.cons_append]
    simp only [readModRM, hmode, hfield, hrm, hbase]
    by_cases h4 : base = .rsp ∨ base = .r12
    · simp [hindex.2 h4, h4, h0.1]
    · simp [mt hindex.1 h4, h4, h5, h0.1]
  · rw [if_neg h0]
    by_cases h8 : fitsByte d = true
    · obtain ⟨hmode, hfield, hrm⟩ := toNat_modRM (show 1 < 4 by decide) hreg (low_lt base)
      rw [if_pos h8, List.cons_append, List.append_assoc]
      simp only [readModRM, hmode, hfield, hrm, hbase]
      by_cases h4 : base = .rsp ∨ base = .r12
      · simp [hindex.2 h4, h4, readImm8_cons h8]
      · simp [mt hindex.1 h4, h4, readImm8_cons h8]
    · obtain ⟨hmode, hfield, hrm⟩ := toNat_modRM (show 2 < 4 by decide) hreg (low_lt base)
      rw [if_neg h8, List.cons_append, List.append_assoc]
      simp only [readModRM, hmode, hfield, hrm, hbase]
      by_cases h4 : base = .rsp ∨ base = .r12
      · simp [hindex.2 h4, h4, readImm32_append]
      · simp [mt hindex.1 h4, h4, readImm32_append]

/-! ## Prefixes -/

theorem decodeRex_rexByte (mandatory : Option UInt8) (wide reg rm : Bool) (rest : List UInt8) :
    decodeRex mandatory (rexByte wide reg rm :: rest) = decodeBody mandatory ⟨wide, reg, rm, true⟩ rest := by
  cases wide <;> cases reg <;> cases rm <;> rfl

theorem decodeRex_rexNarrow (mandatory : Option UInt8) (reg rm : Reg) {op : UInt8}
    (hop : op &&& 0xf0 ≠ 0x40) (rest : List UInt8) :
    decodeRex mandatory (rexNarrow reg rm ++ op :: rest) =
      decodeBody mandatory ⟨false, reg.extended, rm.extended, reg.extended || rm.extended⟩ (op :: rest) := by
  unfold rexNarrow
  by_cases h : (reg.extended || rm.extended) = true
  · rw [if_pos h, h]
    exact decodeRex_rexByte ..
  · rw [if_neg h, List.nil_append, decodeRex, if_neg hop]
    simp only [Bool.or_eq_true, not_or, Bool.not_eq_true] at h
    rw [h.1, h.2]
    rfl

theorem decodeRex_rex (mandatory : Option UInt8) (w : Width) (reg rm : Reg) {op : UInt8}
    (hop : op &&& 0xf0 ≠ 0x40) (rest : List UInt8) :
    decodeRex mandatory (rex w reg rm ++ op :: rest) =
      decodeBody mandatory
        ⟨w = .w64, reg.extended, rm.extended, w = .w64 || (reg.extended || rm.extended)⟩ (op :: rest) := by
  cases w with
  | w64 => exact decodeRex_rexByte ..
  | w32 => exact decodeRex_rexNarrow mandatory reg rm hop rest

theorem decode_rexByte (wide reg rm : Bool) (rest : List UInt8) :
    decode (rexByte wide reg rm :: rest) = decodeRex none (rexByte wide reg rm :: rest) := by
  cases wide <;> cases reg <;> cases rm <;> rfl

theorem decode_rexNarrow (reg rm : Reg) {op : UInt8} (h2 : op ≠ 0xf2) (h6 : op ≠ 0x66)
    (rest : List UInt8) :
    decode (rexNarrow reg rm ++ op :: rest) = decodeRex none (rexNarrow reg rm ++ op :: rest) := by
  unfold rexNarrow
  by_cases h : (reg.extended || rm.extended) = true
  · rw [if_pos h]
    exact decode_rexByte ..
  · rw [if_neg h, List.nil_append, decode]
    · intro rest' heq
      exact h2 (List.cons.inj heq).1
    · intro rest' heq
      exact h6 (List.cons.inj heq).1

theorem decode_rex (w : Width) (reg rm : Reg) {op : UInt8} (h2 : op ≠ 0xf2) (h6 : op ≠ 0x66)
    (rest : List UInt8) :
    decode (rex w reg rm ++ op :: rest) = decodeRex none (rex w reg rm ++ op :: rest) := by
  cases w with
  | w64 => exact decode_rexByte ..
  | w32 => exact decode_rexNarrow reg rm h2 h6 rest

theorem decode_wide (reg rm : Reg) (op : UInt8) (rest : List UInt8) :
    decode (rexWide reg rm :: op :: rest) =
      decodeBody none ⟨true, reg.extended, rm.extended, true⟩ (op :: rest) := by
  rw [rexWide, decode_rexByte, decodeRex_rexByte]

theorem decode_narrow (reg rm : Reg) {op : UInt8} (hop : op &&& 0xf0 ≠ 0x40) (h2 : op ≠ 0xf2)
    (h6 : op ≠ 0x66) (rest : List UInt8) :
    decode (rexNarrow reg rm ++ op :: rest) =
      decodeBody none ⟨false, reg.extended, rm.extended, reg.extended || rm.extended⟩ (op :: rest) := by
  rw [decode_rexNarrow reg rm h2 h6, decodeRex_rexNarrow none reg rm hop]

theorem decode_sized (w : Width) (reg rm : Reg) {op : UInt8} (hop : op &&& 0xf0 ≠ 0x40)
    (h2 : op ≠ 0xf2) (h6 : op ≠ 0x66) (rest : List UInt8) :
    decode (rex w reg rm ++ op :: rest) =
      decodeBody none
        ⟨w = .w64, reg.extended, rm.extended, w = .w64 || (reg.extended || rm.extended)⟩ (op :: rest) := by
  rw [decode_rex w reg rm h2 h6, decodeRex_rex none w reg rm hop]

@[simp] theorem ifWide_wide {α : Type} (reg rm given : Bool) (x : Option α) :
    (⟨true, reg, rm, given⟩ : Rex).ifWide x = x := rfl

@[simp] theorem ifNarrow_narrow {α : Type} (reg rm given : Bool) (x : Option α) :
    (⟨false, reg, rm, given⟩ : Rex).ifNarrow x = x := rfl

@[simp] theorem width_of_decide (w : Width) (reg rm given : Bool) :
    (⟨w = .w64, reg, rm, given⟩ : Rex).width = w := by
  cases w <;> rfl

/-! ## Opcodes -/

theorem decodeOpcode_push (rex : Rex) {n : Nat} (h : n < 8) (rest : List UInt8) :
    decodeOpcode rex (0x50 + n.toUInt8) rest = some (.push (regOf rex.rm n), rest) := by
  interval_cases n <;> rfl

theorem decodeOpcode_pop (rex : Rex) {n : Nat} (h : n < 8) (rest : List UInt8) :
    decodeOpcode rex (0x58 + n.toUInt8) rest = some (.pop (regOf rex.rm n), rest) := by
  interval_cases n <;> rfl

theorem decodeOpcode_imm64 (reg rm given : Bool) {n : Nat} (h : n < 8) (i : UInt64) (rest : List UInt8) :
    decodeOpcode ⟨true, reg, rm, given⟩ (0xb8 + n.toUInt8) (imm64 i ++ rest) =
      some (.movImm64 (regOf rm n) i, rest) := by
  have hopcode : decodeOpcode ⟨true, reg, rm, given⟩ (0xb8 + n.toUInt8) (imm64 i ++ rest) =
      (readImm64 (imm64 i ++ rest)).map fun read => (.movImm64 (regOf rm n) read.1, read.2) := by
    interval_cases n <;> rfl
  rw [hopcode, readImm64_append, Option.map_some]

theorem decodeOpcode_imm32 (reg rm given : Bool) {n : Nat} (h : n < 8) (i : UInt32) (rest : List UInt8) :
    decodeOpcode ⟨false, reg, rm, given⟩ (0xb8 + n.toUInt8) (imm32 i ++ rest) =
      some (.movImm32 (regOf rm n) i, rest) := by
  have hopcode : decodeOpcode ⟨false, reg, rm, given⟩ (0xb8 + n.toUInt8) (imm32 i ++ rest) =
      (readImm32 (imm32 i ++ rest)).map fun read => (.movImm32 (regOf rm n) read.1, read.2) := by
    interval_cases n <;> rfl
  rw [hopcode, readImm32_append, Option.map_some]

theorem decodeOpcode_alu (op : AluOp) (rex : Rex) (rest : List UInt8) :
    decodeOpcode rex op.opcode rest = (readDirect rex rest).map fun (reg, r, rest) =>
      (.alu op rex.width r (regOf rex.reg reg), rest) := by
  cases op <;> rfl

theorem digit_lt (op : AluOp) : op.digit < 8 ∧ AluOp.ofDigit? op.digit = some op := by
  cases op <;> decide

theorem shiftDigit_lt (op : ShiftOp) : op.digit < 8 ∧ ShiftOp.ofDigit? op.digit = some op := by
  cases op <;> decide

theorem opcode_facts (op : AluOp) :
    op.opcode &&& 0xf0 ≠ 0x40 ∧ op.opcode ≠ 0xf2 ∧ op.opcode ≠ 0x66 ∧ op.opcode ≠ 0x0f := by
  cases op <;> decide

theorem decodeBody_opcode {rex : Rex} {op : UInt8} (h : op ≠ 0x0f) (rest : List UInt8) :
    decodeBody none rex (op :: rest) = decodeOpcode rex op rest := by
  rw [decodeBody]
  · rfl
  · intro op' rest' heq
    exact absurd heq h

theorem decodeBody_escape (mandatory : Option UInt8) (rex : Rex) (op : UInt8) (rest : List UInt8) :
    decodeBody mandatory rex (0x0f :: op :: rest) = decodeEscape mandatory rex op rest := rfl

theorem Cond.exists_of_known {c : Cond} (h : c.known = true) : ∃ n < 16, c = ⟨UInt8.ofNat n⟩ := by
  obtain ⟨n⟩ := c
  have hn : n.toNat < 16 := by simpa [Cond.known, UInt8.lt_iff_toNat_lt] using h
  exact ⟨n.toNat, hn, by simp⟩

/-- The opcodes that hold a condition. -/
theorem decodeEscape_cond {c : Cond} (h : c.known = true) (rex : Rex) (rest : List UInt8) :
    decodeEscape none rex (0x80 ||| c.num) rest =
        (readImm32 rest).map (fun (i, rest) => (.jcc c i.toInt32, rest)) ∧
      decodeEscape none rex (0x90 ||| c.num) rest =
        (readDirect rex rest).bind
          (fun (_, r, rest) => rex.ifLowByte r (some (.setcc c r, rest))) ∧
      decodeEscape none rex (0x40 ||| c.num) rest =
        rex.ifWide ((readDirect rex rest).map
          fun (reg, r, rest) => (.cmov c (regOf rex.reg reg) r, rest)) := by
  obtain ⟨n, hn, rfl⟩ := Cond.exists_of_known h
  interval_cases n <;> exact ⟨rfl, rfl, rfl⟩

theorem shortOpcode_facts {n : Nat} (h : n < 8) :
    let op := 0x50 + n.toUInt8
    let op' := 0x58 + n.toUInt8
    let op'' := 0xb8 + n.toUInt8
    (op &&& 0xf0 ≠ 0x40 ∧ op ≠ 0xf2 ∧ op ≠ 0x66 ∧ op ≠ 0x0f) ∧
      (op' &&& 0xf0 ≠ 0x40 ∧ op' ≠ 0xf2 ∧ op' ≠ 0x66 ∧ op' ≠ 0x0f) ∧
      (op'' &&& 0xf0 ≠ 0x40 ∧ op'' ≠ 0xf2 ∧ op'' ≠ 0x66 ∧ op'' ≠ 0x0f) := by
  interval_cases n <;> decide
/-! ## Instructions -/

theorem decode_wide_opcode (reg rm : Reg) {op : UInt8} (h : op ≠ 0x0f) (rest : List UInt8) :
    decode (rexWide reg rm :: op :: rest) =
      decodeOpcode ⟨true, reg.extended, rm.extended, true⟩ op rest := by
  rw [decode_wide, decodeBody_opcode h]

theorem decode_narrow_opcode (reg rm : Reg) {op : UInt8}
    (h : op &&& 0xf0 ≠ 0x40 ∧ op ≠ 0xf2 ∧ op ≠ 0x66 ∧ op ≠ 0x0f) (rest : List UInt8) :
    decode (rexNarrow reg rm ++ op :: rest) =
      decodeOpcode ⟨false, reg.extended, rm.extended, reg.extended || rm.extended⟩ op rest := by
  rw [decode_narrow reg rm h.1 h.2.1 h.2.2.1, decodeBody_opcode h.2.2.2]

theorem decode_sized_opcode (w : Width) (reg rm : Reg) {op : UInt8}
    (h : op &&& 0xf0 ≠ 0x40 ∧ op ≠ 0xf2 ∧ op ≠ 0x66 ∧ op ≠ 0x0f) (rest : List UInt8) :
    decode (rex w reg rm ++ op :: rest) =
      decodeOpcode
        ⟨w = .w64, reg.extended, rm.extended, w = .w64 || (reg.extended || rm.extended)⟩ op rest := by
  rw [decode_sized w reg rm h.1 h.2.1 h.2.2.1, decodeBody_opcode h.2.2.2]

/-- An instruction is read back from its bytes, whatever follows them. -/
theorem decode_instr {i : Instr} (h : i.known = true) (rest : List UInt8) :
    decode (i.encode ++ rest) = some (i, rest) := by
  cases i with
  | mov w dst src =>
    simp only [Instr.known, Bool.and_eq_true] at h
    rw [Instr.encode, List.append_assoc, List.cons_append, decode_sized_opcode w src dst (by decide)]
    simp [decodeOpcode, readModRM_direct _ _ _ (low_lt src) h.1, regOf_low h.2]
  | movImm64 dst imm =>
    rw [Instr.encode, List.append_assoc]
    change decode (rexWide .none dst :: (0xb8 + dst.low.toUInt8) :: (imm64 imm ++ rest)) = _
    rw [decode_wide_opcode _ _ (shortOpcode_facts (low_lt dst)).2.2.2.2.2,
      decodeOpcode_imm64 _ _ _ (low_lt dst), regOf_low h]
  | movImm32 dst imm =>
    rw [Instr.encode, List.append_assoc, List.append_assoc]
    change decode (rexNarrow .none dst ++ (0xb8 + dst.low.toUInt8) :: (imm32 imm ++ rest)) = _
    rw [decode_narrow_opcode _ _ (shortOpcode_facts (low_lt dst)).2.2,
      decodeOpcode_imm32 _ _ _ (low_lt dst), regOf_low h]
  | movImmSigned dst imm =>
    change decode (rexWide .none dst :: 0xc7 :: (direct 0 dst :: (imm32 imm.toUInt32 ++ rest))) = _
    rw [decode_wide_opcode _ _ (by decide)]
    simp [decodeOpcode, readDirect_cons _ _ _ (show 0 < 8 by decide) h, readImm32_append]
  | load dst base disp =>
    simp only [Instr.known, Bool.and_eq_true] at h
    change decode (rexWide dst base :: 0x8b :: (memory dst.low base disp ++ rest)) = _
    rw [decode_wide_opcode _ _ (by decide)]
    simp [decodeOpcode, readModRM_memory _ _ _ (low_lt dst) h.2, regOf_low h.1]
  | store base disp src =>
    simp only [Instr.known, Bool.and_eq_true] at h
    change decode (rexWide src base :: 0x89 :: (memory src.low base disp ++ rest)) = _
    rw [decode_wide_opcode _ _ (by decide)]
    simp [decodeOpcode, readModRM_memory _ _ _ (low_lt src) h.1, regOf_low h.2]
  | lea dst base disp =>
    simp only [Instr.known, Bool.and_eq_true] at h
    change decode (rexWide dst base :: 0x8d :: (memory dst.low base disp ++ rest)) = _
    rw [decode_wide_opcode _ _ (by decide)]
    simp [decodeOpcode, readModRM_memory _ _ _ (low_lt dst) h.2, regOf_low h.1]
  | alu op w dst src =>
    simp only [Instr.known, Bool.and_eq_true] at h
    rw [Instr.encode, List.append_assoc, List.cons_append,
      decode_sized_opcode w src dst (opcode_facts op), decodeOpcode_alu]
    simp [readDirect_cons _ _ _ (low_lt src) h.1, regOf_low h.2]
  | aluImm op w dst imm =>
    obtain ⟨hdigit, hop⟩ := digit_lt op
    by_cases hfits : fitsByte imm = true
    · rw [Instr.encode, if_pos hfits, List.append_assoc, List.cons_append,
        decode_sized_opcode w .none dst (by decide)]
      simp [decodeOpcode, readDirect_cons _ _ _ hdigit h, hop, readImm8_cons hfits]
    · rw [Instr.encode, if_neg hfits, List.append_assoc, List.append_assoc, List.cons_append,
        decode_sized_opcode w .none dst (by decide)]
      simp [decodeOpcode, readDirect_cons _ _ _ hdigit h, hop, readImm32_append]
  | test w left right =>
    simp only [Instr.known, Bool.and_eq_true] at h
    rw [Instr.encode, List.append_assoc, List.cons_append, decode_sized_opcode w right left (by decide)]
    simp [decodeOpcode, readDirect_cons _ _ _ (low_lt right) h.1, regOf_low h.2]
  | imul w dst src =>
    simp only [Instr.known, Bool.and_eq_true] at h
    rw [Instr.encode, List.append_assoc, List.cons_append,
      decode_sized w dst src (by decide) (by decide) (by decide), List.cons_append,
      decodeBody_escape]
    simp [decodeEscape, readDirect_cons _ _ _ (low_lt dst) h.2, regOf_low h.1]
  | neg32 dst =>
    rw [Instr.encode, List.append_assoc, List.cons_append, decode_narrow_opcode .none dst (by decide)]
    simp [decodeOpcode, decodeUnary, readDirect_cons _ _ _ (show 3 < 8 by decide) h]
  | not32 dst =>
    rw [Instr.encode, List.append_assoc, List.cons_append, decode_narrow_opcode .none dst (by decide)]
    simp [decodeOpcode, decodeUnary, readDirect_cons _ _ _ (show 2 < 8 by decide) h]
  | shift32 op dst =>
    obtain ⟨hdigit, hop⟩ := shiftDigit_lt op
    rw [Instr.encode, List.append_assoc, List.cons_append, decode_narrow_opcode .none dst (by decide)]
    simp [decodeOpcode, readDirect_cons _ _ _ hdigit h, hop]
  | rol dst count =>
    change decode (rexWide .none dst :: 0xc1 :: (direct 0 dst :: (count :: rest))) = _
    rw [decode_wide_opcode _ _ (by decide)]
    simp [decodeOpcode, readDirect_cons _ _ _ (show 0 < 8 by decide) h]
  | cdq => rfl
  | idiv32 src =>
    rw [Instr.encode, List.append_assoc, List.cons_append, decode_narrow_opcode .none src (by decide)]
    simp [decodeOpcode, decodeUnary, readDirect_cons _ _ _ (show 7 < 8 by decide) h]
  | movsxd dst src =>
    simp only [Instr.known, Bool.and_eq_true] at h
    change decode (rexWide dst src :: 0x63 :: (direct dst.low src :: rest)) = _
    rw [decode_wide_opcode _ _ (by decide)]
    simp [decodeOpcode, readDirect_cons _ _ _ (low_lt dst) h.2, regOf_low h.1]
  | movzx8 dst src =>
    simp only [Instr.known, Bool.and_eq_true] at h
    change decode (rexWide dst src :: 0x0f :: (0xb6 :: direct dst.low src :: rest)) = _
    rw [decode_wide]
    rw [decodeBody_escape]
    simp [decodeEscape, readDirect_cons _ _ _ (low_lt dst) h.2, regOf_low h.1]
  | setcc c dst =>
    simp only [Instr.known, Bool.and_eq_true] at h
    by_cases hnum : 4 ≤ dst.num
    · rw [Instr.encode, if_pos hnum]
      change decode (rexByte false false dst.extended :: 0x0f ::
        ((0x90 ||| c.num) :: direct 0 dst :: rest)) = _
      rw [decode_rexByte, decodeRex_rexByte, decodeBody_escape, (decodeEscape_cond h.1 _ _).2.1,
        readDirect_cons _ _ _ (by decide) h.2]
      rfl
    · rw [Instr.encode, if_neg hnum]
      have hext : dst.extended = false := by
        simp only [Reg.extended, decide_eq_false_iff_not, UInt8.le_iff_toNat_le] at hnum ⊢
        exact fun hle => hnum (Nat.le_trans (by decide) hle)
      change decodeEscape none Rex.absent (0x90 ||| c.num) (direct 0 dst :: rest) = _
      have hrex : Rex.absent = ⟨false, false, dst.extended, false⟩ := by
        rw [hext]
        rfl
      have hlow : dst.num < 4 := by simpa [UInt8.le_iff_toNat_le, UInt8.lt_iff_toNat_lt] using hnum
      rw [(decodeEscape_cond h.1 _ _).2.1, hrex, readDirect_cons _ _ _ (by decide) h.2, Option.bind_some]
      simp [Rex.ifLowByte, hlow]
  | cmov c dst src =>
    simp only [Instr.known, Bool.and_eq_true] at h
    change decode (rexWide dst src :: 0x0f :: ((0x40 ||| c.num) :: direct dst.low src :: rest)) = _
    rw [decode_wide]
    rw [decodeBody_escape, (decodeEscape_cond h.1.1 _ _).2.2, readDirect_cons _ _ _ (low_lt dst) h.2,
      ifWide_wide, Option.map_some]
    simp [regOf_low h.1.2]
  | cvtsi2sd dst src =>
    simp only [Instr.known, Bool.and_eq_true] at h
    change decodeRex (some 0xf2) (rexWide dst.toReg src :: 0x0f ::
      (0x2a :: direct dst.toReg.low src :: rest)) = _
    rw [rexWide, decodeRex_rexByte, decodeBody_escape]
    simp [decodeEscape, readDirect_cons _ _ _ (low_lt dst.toReg) h.2, regOf_low h.1]
    rfl
  | movqFrom dst src =>
    simp only [Instr.known, Bool.and_eq_true] at h
    change decodeRex (some 0x66) (rexWide src.toReg dst :: 0x0f ::
      (0x7e :: direct src.toReg.low dst :: rest)) = _
    rw [rexWide, decodeRex_rexByte, decodeBody_escape]
    simp [decodeEscape, readDirect_cons _ _ _ (low_lt src.toReg) h.2, regOf_low h.1]
    rfl
  | movqTo dst src =>
    simp only [Instr.known, Bool.and_eq_true] at h
    change decodeRex (some 0x66) (rexWide dst.toReg src :: 0x0f ::
      (0x6e :: direct dst.toReg.low src :: rest)) = _
    rw [rexWide, decodeRex_rexByte, decodeBody_escape]
    simp [decodeEscape, readDirect_cons _ _ _ (low_lt dst.toReg) h.2, regOf_low h.1]
    rfl
  | jmp rel =>
    change decodeOpcode Rex.absent 0xe9 (imm32 rel.toUInt32 ++ rest) = _
    simp [decodeOpcode, readImm32_append]
  | jcc c rel =>
    change decodeEscape none Rex.absent (0x80 ||| c.num) (imm32 rel.toUInt32 ++ rest) = _
    rw [(decodeEscape_cond h _ _).1, readImm32_append]
    rfl
  | call rel =>
    change decodeOpcode Rex.absent 0xe8 (imm32 rel.toUInt32 ++ rest) = _
    simp [decodeOpcode, readImm32_append]
  | jmpReg target =>
    rw [Instr.encode, List.append_assoc, List.cons_append, decode_narrow_opcode .none target (by decide)]
    simp [decodeOpcode, decodeIndirect, readModRM_direct _ _ _ (show 4 < 8 by decide) h]
  | callReg target =>
    rw [Instr.encode, List.append_assoc, List.cons_append, decode_narrow_opcode .none target (by decide)]
    simp [decodeOpcode, decodeIndirect, readModRM_direct _ _ _ (show 2 < 8 by decide) h]
  | callMem base disp =>
    rw [Instr.encode, List.append_assoc, List.append_assoc, List.cons_append, List.nil_append,
      decode_narrow_opcode .none base (by decide)]
    simp [decodeOpcode, decodeIndirect, readModRM_memory _ _ _ (show 2 < 8 by decide) h]
  | ret => rfl
  | push src =>
    rw [Instr.encode, List.append_assoc, List.cons_append, List.nil_append,
      decode_narrow_opcode _ _ (shortOpcode_facts (low_lt src)).1, decodeOpcode_push _ (low_lt src),
      regOf_low h]
  | pop dst =>
    rw [Instr.encode, List.append_assoc, List.cons_append, List.nil_append,
      decode_narrow_opcode _ _ (shortOpcode_facts (low_lt dst)).2.1, decodeOpcode_pop _ (low_lt dst),
      regOf_low h]
  | nop => rfl
  | ud2 => rfl

end X86

end RegisterJit
