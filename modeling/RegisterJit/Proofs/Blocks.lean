import RegisterJit.Proofs.Emitters
import RegisterJit.Proofs.Scanning

/-!
# Blocks of symbolic code

A code compiles to a block of pieces for each of its instructions, led by the label of the
instruction's offset if something jumps there. `Block.Run` relates instructions to their blocks. What
the pieces of a block refer to and bind follows from the emitters.

`Block` is what is written for one instruction: the label that leads it, its pieces, the notes about the
accumulator before and after, and the labels that it allocated. `Emitted` says that the emitters wrote it, and
`Emitted.done`, `Emitted.binds` and `Emitted.targets` what follows for its pieces: they fit the notes, they bind
the labels of the block once each, and they refer to those, to jump targets of the code and to the thunk of
stubs. `Block.Run` is the relation along the instructions of a code, so that facts about a whole code are
inductions over it. `Compilation` builds such a run from a formed code, and everything after that looks at
blocks and not at emitters.
-/

namespace RegisterJit

open X86 (Label)

/-- What the accumulator is known to hold when it is taken to hold a register. -/
def Content.of (r : Register) : Content :=
  match Frame.registerOffset? r with
  | some d => .slot d
  | none => .unknown

/-- The code of one instruction. -/
structure Block where
  ins : Instruction
  /-- The entry of the instruction's offset in the table of jump targets. -/
  target : Option JumpTarget
  /-- The register that the accumulator is taken to hold when the instruction starts. -/
  cached : Register
  /-- The first label of its own. -/
  base : Nat
  /-- How many labels are its own. -/
  count : Nat
  body : List Piece
  /-- The register that the accumulator is taken to hold after the instruction. -/
  upcoming : Register

/-- The label of a jump target, where it is bound. -/
def JumpTarget.lead (target : Option JumpTarget) : List Piece :=
  (target.map fun t => Piece.bind t.label).toList

namespace Block

def pieces (b : Block) : List Piece := JumpTarget.lead b.target ++ b.body

def site (u : CodeUnit) (jumps : JumpTable) (ins : Instruction) : Site :=
  ⟨u, jumps, Session.stubThunk, ins.offset.toUInt32⟩

def event (u : CodeUnit) (b : Block) : TraceEvent :=
  ⟨u.code.name, b.ins.offset.toUInt32, b.ins.opcode, b.cached⟩

/-- The body of a block is what the emitter of its instruction writes. -/
def Emitted (u : CodeUnit) (jumps : JumpTable) (b : Block) : Prop :=
  ∃ c, Emit.instruction b.ins (site u jumps b.ins) ⟨#[], b.base, b.cached, Register.invalid⟩ =
    .ok () ⟨b.body.toArray, b.base + b.count, c, b.upcoming⟩

/-- The block of an instruction, with labels from `n` on, when the accumulator is taken to hold `r`
before it. -/
structure Of (u : CodeUnit) (jumps : JumpTable) (r : Register) (n : Nat) (ins : Instruction)
    (b : Block) : Prop where
  instruction : b.ins = ins
  target : b.target = jumps.find? ins.offset.toUInt32
  cached : b.cached = if b.target.isSome then Register.invalid else r
  base : b.base = n
  emitted : b.Emitted u jumps

/-- The blocks of instructions in order. -/
def Run (u : CodeUnit) (jumps : JumpTable) : Register → Nat → List Instruction → List Block → Prop
  | _, _, [], blocks => blocks = []
  | r, n, ins :: is, blocks =>
    ∃ b rest, blocks = b :: rest ∧ Of u jumps r n ins b ∧
      Run u jumps b.upcoming (n + b.count) is rest

def labels (blocks : List Block) : Nat := (blocks.map count).sum

end Block

namespace Emit

theorem trusts_of (e : Emitter) : e.Trusts (Content.of e.cached) := by
  intro hne
  have hd : ∃ d, Frame.registerOffset? e.cached = some d := by
    rw [Frame.registerOffset?, if_neg hne]
    split <;> exact ⟨_, rfl⟩
  obtain ⟨d, hd⟩ := hd
  exact ⟨d, hd, by rw [Content.of, hd]⟩

def localNotes (op : Opcode) (k : Content) (n : Nat) (l : Label) : Note :=
  if n ≤ l then labelNote op k (l - n) else .any

variable {W : Int32 → Prop} {u : CodeUnit} {jumps : JumpTable} {ins : Instruction}

/-- The emitter of an instruction succeeds. -/
theorem instruction_done (hf : Fits W (Block.site u jumps ins) ins) {n : Nat}
    (hlow : ∀ t ∈ jumps, t.label < n) (cached : Register) {Λ : Label → Note}
    (hΛ : ∀ i, Λ (n + i) = labelNote ins.opcode (Content.of cached) i)
    (htargets : ∀ t ∈ jumps, Λ t.label = .any) :
    ∃ e, instruction ins (Block.site u jumps ins) ⟨#[], n, cached, Register.invalid⟩ = .ok () e ∧
      e.Done Λ W (Block.site u jumps ins).Outside ⟨.body, Content.of cached⟩ n e.upcoming := by
  have hstart : Start Λ (Block.site u jumps ins) ⟨#[], n, cached, Register.invalid⟩
      (Content.of cached) := ⟨rfl, rfl, trusts_of _, rfl, htargets⟩
  obtain ⟨⟨⟩, e, he, hdone⟩ := instruction_compiles hstart hf hΛ hlow
  exact ⟨e, he, hdone⟩

theorem localNotes_add (op : Opcode) (k : Content) (n i : Nat) :
    localNotes op k n (n + i) = labelNote op k i := by
  rw [localNotes, if_pos (Nat.le_add_right n i), Nat.add_sub_cancel_left]

theorem localNotes_of_lt (op : Opcode) (k : Content) {n l : Nat} (h : l < n) :
    localNotes op k n l = .any := if_neg (Nat.not_le.2 h)

end Emit

namespace Block

variable {W : Int32 → Prop} {u : CodeUnit} {jumps : JumpTable} {b : Block}

/-- What the body of a block is like, whatever the notes of the labels it does not bind. -/
theorem Emitted.done (hb : b.Emitted u jumps) (hf : Emit.Fits W (site u jumps b.ins) b.ins)
    (hlow : ∀ t ∈ jumps, t.label < b.base) {Λ : Label → Note}
    (hΛ : ∀ i, Λ (b.base + i) = Emit.labelNote b.ins.opcode (Content.of b.cached) i)
    (htargets : ∀ t ∈ jumps, Λ t.label = .any) :
    ∃ (a : Note) (offs : List Nat),
      Piece.Leads Λ W ⟨.body, Content.of b.cached⟩ b.body a ∧ a.Ends b.upcoming ∧
      Piece.tight true b.body = true ∧
      Piece.binds b.body = offs.map (b.base + ·) ∧ offs.Perm (List.range b.count) ∧
      ∀ l ∈ Piece.targets b.body,
        (site u jumps b.ins).Outside l ∨ b.base ≤ l ∧ l < b.base + b.count := by
  obtain ⟨c, hc⟩ := hb
  obtain ⟨e, he, a, offs, hgood, hperm, hends⟩ :=
    Emit.instruction_done hf hlow b.cached hΛ htargets
  rw [hc] at he
  cases he
  have hcount : b.count = offs.length := Nat.add_left_cancel hgood.labels
  rw [← hcount] at hperm
  refine ⟨a, offs, hgood.leads, hends, hgood.tight, hgood.binds, hperm, fun l hl => ?_⟩
  have := hgood.targets l hl
  rwa [← hcount] at this

/-- The labels that the body of a block binds are its own, each once. -/
theorem Emitted.binds (hb : b.Emitted u jumps)
    (hf : Emit.Fits (fun _ => True) (site u jumps b.ins) b.ins)
    (hlow : ∀ t ∈ jumps, t.label < b.base) :
    (Piece.binds b.body).Nodup ∧
      ∀ l : Nat, l ∈ Piece.binds b.body ↔ b.base ≤ l ∧ l < b.base + b.count := by
  obtain ⟨a, offs, -, -, -, hbinds, hperm, -⟩ := hb.done hf hlow
    (Emit.localNotes_add b.ins.opcode (Content.of b.cached) b.base)
    fun t ht => Emit.localNotes_of_lt _ _ (hlow t ht)
  have hnodup : offs.Nodup := hperm.nodup_iff.2 List.nodup_range
  rw [hbinds]
  refine ⟨hnodup.map (fun x y h => Nat.add_left_cancel h), fun l => ?_⟩
  rw [List.mem_map]
  constructor
  · rintro ⟨i, hi, rfl⟩
    have : i < b.count := List.mem_range.1 (hperm.mem_iff.1 hi)
    omega
  · rintro ⟨hge, hlt⟩
    exact ⟨l - b.base, hperm.mem_iff.2 (List.mem_range.2 (by omega)), by omega⟩

theorem Emitted.targets (hb : b.Emitted u jumps)
    (hf : Emit.Fits (fun _ => True) (site u jumps b.ins) b.ins)
    (hlow : ∀ t ∈ jumps, t.label < b.base) {l : Nat} (hl : l ∈ Piece.targets b.body) :
    l = Session.stubThunk ∨ (∃ t ∈ jumps, t.label = l) ∨ l ∈ Piece.binds b.body := by
  obtain ⟨a, offs, -, -, -, -, -, htargets⟩ := hb.done hf hlow
    (Emit.localNotes_add b.ins.opcode (Content.of b.cached) b.base)
    fun t ht => Emit.localNotes_of_lt _ _ (hlow t ht)
  rcases htargets l hl with (hout | hout) | hout
  · exact .inl hout
  · exact .inr (.inl hout)
  · exact .inr (.inr ((hb.binds hf hlow).2 l |>.2 hout))

end Block

/-! ## Operands of formed codes -/

/-- Whether an operand of an instruction is a register, or holds one with others. -/
def Instruction.Names (ins : Instruction) (r : Register) : Prop :=
  (∃ i, ins.opcode.format[i]? = some .register ∧ r = ins.reg i) ∨
    ∃ i, ins.opcode.format[i]? = some .packed ∧
      (r = (Word.unpack (ins.operand i)).1 ∨ r = (Word.unpack (ins.operand i)).2.1)

theorem Word.quarter_ne_invalid (u : UInt16) : Word.quarter u ≠ Register.invalid := by
  intro h
  have hlow := u.toInt16.minValue_le_toInt
  have hval : u.toInt16.toInt32.toInt = Int32.minValue.toInt :=
    congrArg (fun r : Register => r.index.toInt) h
  rw [Int16.toInt_toInt32] at hval
  rw [hval] at hlow
  exact absurd hlow (by decide)

theorem Register.slot_of_ne_invalid {r : Register} (h : r ≠ Register.invalid) :
    r.Slot fun _ => True := by
  unfold Slot Frame.registerOffset?
  rw [if_neg h]
  split <;> exact ⟨_, rfl, trivial⟩

namespace Code.Formed

variable {c : Code} {ops : List Opcode} (h : c.Formed ops) {ins : Instruction}
  (hins : ins ∈ Stream.instructions c.data)

include h hins

theorem ne_invalid {r : Register} (hr : ins.Names r) : r ≠ Register.invalid := by
  obtain ⟨s, op, hp, rfl⟩ := h.spells.mem_instructions.1 hins
  rcases hr with ⟨i, hi, rfl⟩ | ⟨i, hi, rfl | rfl⟩
  · have hlt : i < op.format.length := (List.getElem?_eq_some_iff.1 hi).1
    rw [Instruction.reg, Stream.operand_instructionAt hlt]
    exact h.registers s _ ⟨op, i, hp, hi, rfl⟩
  · exact Word.quarter_ne_invalid _
  · exact Word.quarter_ne_invalid _

/-- The operands of an instruction of a formed code refer to what is there. -/
theorem fits {W : Int32 → Prop} {u : CodeUnit} {jumps : JumpTable} {low high : Nat}
    (hu : u.code = c) (hpool : u.pool.size = c.constants.size)
    (hscan : Scan.Complete c ops low high jumps) (hW : ∀ r, ins.Names r → r.Slot W) :
    Emit.Fits W (Block.site u jumps ins) ins := by
  subst hu
  obtain ⟨-, hoperands, -⟩ := (Code.validateOne_iff h.spells).1 h.valid
  have hdefect := hoperands ins hins
  constructor
  · exact fun i hi => hW _ (.inl ⟨i, hi, rfl⟩)
  · exact fun i hi => ⟨hW _ (.inr ⟨i, hi, .inl rfl⟩), hW _ (.inr ⟨i, hi, .inr rfl⟩)⟩
  · intro i hi
    have := hdefect i _ hi
    simp only [operandDefect?, ite_eq_right_iff, reduceCtorEq, imp_false, Nat.not_le] at this
    exact hpool ▸ this
  · intro i hi
    have := hdefect i _ hi
    simp only [operandDefect?, ite_eq_right_iff, reduceCtorEq, imp_false, Nat.not_le] at this
    exact this
  · intro i hi
    have := hdefect i _ hi
    simp only [operandDefect?, ite_eq_right_iff, reduceCtorEq, imp_false, Nat.not_le] at this
    exact this
  · exact fun t ht => hscan.jumps ins hins t ht

end Code.Formed

end RegisterJit
