import RegisterJit.Proofs.Decoding
import RegisterJit.X86.Assembler
import RegisterJit.X86.Cpu

/-!
# Assembled code is read back

A request to an assembler appends instructions, or it allocates or binds a label. Decoding the bytes
that a sequence of requests leaves gives the instructions that they asked for, one after the other,
and nothing else. A jump to a label has an empty displacement until the code is finished.

`Request` is what an assembler can be asked for, and `instrs` the instructions that each of these appends, where
alignment appends as many as the size so far demands. The decoder is written independently of the encoder, so
the proof goes through the encodings of `Decoding` instruction by instruction. `decodeAll_performAll` is by
induction on the requests, with the bytes so far as a prefix. `corners` are requests whose operands are at the
bounds of their encodings, where another form of the instruction is due.
-/

namespace RegisterJit

namespace X86

/-- A request to an assembler. -/
inductive Request
  | instr (i : Instr)
  /-- Load a constant in the fewest bytes. -/
  | value (dst : Reg) (v : UInt64)
  | jmp (l : Label)
  | jcc (c : Cond) (l : Label)
  | call (l : Label)
  /-- Load an address that is not known yet. -/
  | address (dst : Reg)
  /-- Pad up to a multiple of `n`. -/
  | align (n : Nat)
  | newLabel
  | bind (l : Label)
  deriving DecidableEq, Repr

namespace Request

/-- Whether a request names only registers and conditions that exist. -/
def known : Request → Bool
  | .instr i => i.known
  | .value dst _ | .address dst => dst.known
  | .jcc c _ => c.known
  | .jmp _ | .call _ | .align _ | .newLabel | .bind _ => true

/-- The instructions that a request appends to `size` bytes. -/
def instrs (size : Nat) : Request → List Instr
  | .instr i => [i]
  | .value dst v => [.movValue dst v]
  | .jmp _ => [.jmp 0]
  | .jcc c _ => [.jcc c 0]
  | .call _ => [.call 0]
  | .address dst => [.movImm64 dst 0]
  | .align n => List.replicate ((n - size % n) % n) .nop
  | .newLabel | .bind _ => []

/-- The instructions that requests append to `size` bytes. -/
def instrsFrom : (size : Nat) → List Request → List Instr
  | _, [] => []
  | size, r :: rest =>
    let is := r.instrs size
    is ++ instrsFrom (size + (is.flatMap Instr.encode).length) rest

end Request

namespace Assembler

def perform (a : Assembler) : Request → Except LabelFault Assembler
  | .instr i => .ok (a.emit i)
  | .value dst v => .ok (a.emit (.movValue dst v))
  | .jmp l => .ok (a.jmp l)
  | .jcc c l => .ok (a.jcc c l)
  | .call l => .ok (a.call l)
  | .address dst => .ok (a.movAddress dst).2
  | .align n => .ok (a.align n)
  | .newLabel => .ok a.newLabel.2
  | .bind l => a.bind l

def performAll (a : Assembler) : List Request → Except LabelFault Assembler
  | [] => .ok a
  | r :: rest => do (← a.perform r).performAll rest

def code (a : Assembler) : List UInt8 := a.bytes.toList

/-! ## What requests append -/

@[simp] theorem code_emit (a : Assembler) (i : Instr) : (a.emit i).code = a.code ++ i.encode := by
  simp [code, emit]

@[simp] theorem length_code (a : Assembler) : a.code.length = a.size := Array.length_toList

theorem code_pad (a : Assembler) (count : Nat) :
    (a.pad count).code = a.code ++ (List.replicate count Instr.nop).flatMap Instr.encode := by
  induction count generalizing a with
  | zero => simp [pad]
  | succ count ih => rw [pad, ih, code_emit, List.replicate_succ, List.flatMap_cons, List.append_assoc]

theorem code_bind {a b : Assembler} {l : Label} (h : a.bind l = .ok b) : b.code = a.code := by
  unfold bind at h
  split at h
  · cases h
  · cases h
  · cases h
    rfl

theorem code_perform {a b : Assembler} {r : Request} (h : a.perform r = .ok b) :
    b.code = a.code ++ (r.instrs a.size).flatMap Instr.encode := by
  cases r with
  | align n =>
    cases h
    exact code_pad a _
  | bind l => rw [code_bind h, Request.instrs, List.flatMap_nil, List.append_nil]
  | newLabel =>
    cases h
    exact (List.append_nil _).symm
  | instr i | value dst v | address dst | jmp l | jcc c l | call l =>
    cases h
    rw [Request.instrs, List.flatMap_singleton]
    exact code_emit a _

theorem code_performAll {rs : List Request} {a b : Assembler} (h : a.performAll rs = .ok b) :
    b.code = a.code ++ (Request.instrsFrom a.size rs).flatMap Instr.encode := by
  induction rs generalizing a with
  | nil =>
    cases h
    exact (List.append_nil _).symm
  | cons r rest ih =>
    unfold performAll at h
    cases hr : a.perform r with
    | error f =>
      rw [hr] at h
      cases h
    | ok c =>
      rw [hr] at h
      have hcode := code_perform hr
      have hsize : c.size = a.size + ((r.instrs a.size).flatMap Instr.encode).length := by
        rw [← length_code, hcode, List.length_append, length_code]
      rw [ih h, hcode, Request.instrsFrom, List.flatMap_append, hsize, List.append_assoc]

end Assembler

/-! ## Reading back -/

theorem known_movValue {dst : Reg} (h : dst.known = true) (v : UInt64) :
    (Instr.movValue dst v).known = true := by
  unfold Instr.movValue
  split
  · exact h
  · split <;> exact h

theorem Request.known_instrs {r : Request} (h : r.known = true) (size : Nat) :
    ∀ i ∈ r.instrs size, i.known = true := by
  intro i hi
  cases r with
  | align n =>
    rw [List.eq_of_mem_replicate hi]
    rfl
  | newLabel | bind l => cases hi
  | value dst v =>
    rw [List.mem_singleton.1 hi]
    exact known_movValue h v
  | instr j | address dst | jmp l | jcc c l | call l =>
    rw [List.mem_singleton.1 hi]
    exact h

theorem Request.known_instrsFrom {rs : List Request} (h : ∀ r ∈ rs, r.known = true) (size : Nat) :
    ∀ i ∈ instrsFrom size rs, i.known = true := by
  induction rs generalizing size with
  | nil =>
    intro i hi
    cases hi
  | cons r rest ih =>
    intro i hi
    rcases List.mem_append.1 hi with hi | hi
    · exact known_instrs (h r (List.mem_cons_self ..)) size i hi
    · exact ih (fun s hs => h s (List.mem_cons_of_mem r hs)) _ i hi

theorem encode_ne_nil (i : Instr) : i.encode ≠ [] := by
  cases i <;> simp [Instr.encode]
  all_goals split <;> simp

theorem decodeAll_encode {is : List Instr} (h : ∀ i ∈ is, i.known = true) {fuel : Nat}
    (hfuel : is.length ≤ fuel) : decodeAll fuel (is.flatMap Instr.encode) = (is, []) := by
  induction is generalizing fuel with
  | nil => cases fuel <;> rfl
  | cons i is ih =>
    obtain ⟨fuel, rfl⟩ : ∃ k, fuel = k + 1 := ⟨fuel - 1, by simp at hfuel; omega⟩
    rw [List.flatMap_cons, decodeAll, decode_instr (h i (List.mem_cons_self ..))]
    simp only
    rw [ih (fun j hj => h j (List.mem_cons_of_mem i hj)) (Nat.le_of_succ_le_succ hfuel)]

theorem length_le_length_encode (is : List Instr) :
    is.length ≤ (is.flatMap Instr.encode).length := by
  induction is with
  | nil => exact Nat.le_refl 0
  | cons i is ih =>
    have hpos := List.length_pos_iff.2 (encode_ne_nil i)
    rw [List.flatMap_cons, List.length_append, List.length_cons]
    omega

/-! ## Constants -/

theorem displacementWord_of_fits {v : UInt64} (hlow : -2 ^ 31 ≤ v.toInt64.toInt)
    (hhigh : v.toInt64.toInt < 2 ^ 31) : displacementWord v.toUInt32.toInt32 = v := by
  change -2 ^ 31 ≤ v.toBitVec.toInt at hlow
  change v.toBitVec.toInt < 2 ^ 31 at hhigh
  have hword : (displacementWord v.toUInt32.toInt32).toBitVec =
      (v.toBitVec.setWidth 32).signExtend 64 := rfl
  rw [← UInt64.toBitVec_inj, hword]
  apply BitVec.eq_of_toInt_eq
  have hdvd : 2 ^ 32 ∣ 2 ^ 64 := by decide
  rw [BitVec.toInt_signExtend_of_le (by decide), BitVec.toInt_setWidth,
    ← Int.bmod_bmod_of_dvd hdvd, ← BitVec.toInt_eq_toNat_bmod]
  exact Int.bmod_eq_of_le (by omega) (by omega)

theorem execute_movValue (c : Cpu) (next : UInt64) (dst : Reg) (v : UInt64) :
    c.execute next (Instr.movValue dst v) = some ((c.setReg dst v).jump next) := by
  unfold Instr.movValue
  by_cases hnarrow : v.toNat ≤ 0xffffffff
  · have hval : v.toUInt32.toUInt64 = v := by
      rw [← UInt64.toNat_inj, UInt32.toNat_toUInt64, UInt64.toNat_toUInt32]
      exact Nat.mod_eq_of_lt (by omega)
    rw [if_pos hnarrow]
    change some ((c.jump next).setReg dst v.toUInt32.toUInt64) = _
    rw [hval]
    rfl
  · rw [if_neg hnarrow]
    by_cases hsigned : -(2 ^ 31) ≤ v.toInt64.toInt ∧ v.toInt64.toInt < 2 ^ 31
    · rw [if_pos hsigned]
      change some ((c.jump next).setReg dst (displacementWord v.toUInt32.toInt32)) = _
      rw [displacementWord_of_fits hsigned.1 hsigned.2]
      rfl
    · rw [if_neg hsigned]
      rfl

/-! ## Sequences of requests -/

namespace Assembler

/-- Only binding a label can be refused. -/
theorem exists_performAll {rs : List Request} (h : ∀ l, Request.bind l ∉ rs) (a : Assembler) :
    ∃ b, a.performAll rs = .ok b := by
  induction rs generalizing a with
  | nil => exact ⟨a, rfl⟩
  | cons r rest ih =>
    have hrest (b : Assembler) := ih (fun l hl => h l (List.mem_cons_of_mem r hl)) b
    cases r with
    | bind l => exact absurd (List.mem_cons_self ..) (h l)
    | instr i | value dst v | address dst | align n | newLabel | jmp l | jcc c l | call l =>
      exact hrest _

/-- **Assembled code is read back.** For every sequence of requests that names registers and
conditions that exist, decoding the bytes that it leaves gives the requested instructions and
nothing else, and bytes are refused to no request but those that bind labels. A constant is loaded
by one instruction, which puts exactly that word into the register. -/
theorem decodeAll_performAll {rs : List Request} (hknown : ∀ r ∈ rs, r.known = true) :
    (∀ a, empty.performAll rs = .ok a →
        decodeAll a.size a.code = (Request.instrsFrom 0 rs, [])) ∧
      ((∀ l, Request.bind l ∉ rs) → ∃ a, empty.performAll rs = .ok a) ∧
      ∀ size dst v, (Request.value dst v).instrs size = [.movValue dst v] ∧
        ∀ (c : Cpu) (next : UInt64),
          c.execute next (.movValue dst v) = some ((c.setReg dst v).jump next) := by
  refine ⟨fun a h => ?_, fun h => exists_performAll h empty,
    fun size dst v => ⟨rfl, fun c next => execute_movValue c next dst v⟩⟩
  have hcode : a.code = (Request.instrsFrom 0 rs).flatMap Instr.encode := code_performAll h
  rw [← length_code, hcode]
  exact decodeAll_encode (Request.known_instrsFrom hknown 0) (length_le_length_encode _)

/-- Bases that need an index byte or a displacement, displacements about one byte, a byte register
without and with a prefix, and constants of every width. -/
def corners : List Request :=
  [.newLabel, .instr (.store .rsp (-128) .r9), .instr (.load .r12 .r12 128), .instr (.lea .rax .r13 0),
    .instr (.load .rdx .rbp 127), .instr (.setcc .l .rdi), .instr (.setcc .ne .rcx), .bind 0,
    .value .r8 0xffffffff80000000, .value .rbx 0xffffffff, .value .r15 0x8000000000000000, .align 16,
    .jcc .ge 0, .instr (.aluImm .cmp .w32 .r10 (-129)), .instr (.movqTo ⟨9⟩ .r14)]

theorem decodeAll_performAll_corners :
    (∀ r ∈ corners, r.known = true) ∧ ∃ a, empty.performAll corners = .ok a ∧
      decodeAll a.size a.code =
        ([.store .rsp (-128) .r9, .load .r12 .r12 128, .lea .rax .r13 0, .load .rdx .rbp 127,
            .setcc .l .rdi, .setcc .ne .rcx, .movImmSigned .r8 (-0x80000000),
            .movImm32 .rbx 0xffffffff, .movImm64 .r15 0x8000000000000000] ++
          List.replicate 14 .nop ++
          [.jcc .ge 0, .aluImm .cmp .w32 .r10 (-129), .movqTo ⟨9⟩ .r14], []) := by
  have hknown : ∀ r ∈ corners, r.known = true := by decide
  refine ⟨hknown, _, rfl, ?_⟩
  rw [(decodeAll_performAll hknown).1 _ rfl]
  decide

end Assembler

end X86

end RegisterJit
