import Mathlib.Tactic.Common
import RegisterJit.Bytecode.Validate

/-!
# The words of instruction sequences

A list of opcodes fixes the shape of a stream: where each instruction starts and what each operand
word means. A stream spells opcodes if their words are at these starts; reading it gives back the
opcodes, whatever the operands are, so operand words may be overwritten at will.

Streams are described by the list of their opcodes: `placed` gives the place of each instruction, `IsOperand`
which word is which operand, and `Boundary` where instructions start or the stream ends. `Spells` says that a
stream has these opcodes at these places; it is kept when operand words change, which is how a builder fills in
jumps and how a reader links nested functions. Reading a stream, validating and emitting it all go along
`placed`, so `Acceptance`, `References` and the modules about builders state their lemmas in these terms.
-/

namespace RegisterJit

namespace Step

theorem mem_all (s : Step) : s ∈ all := by
  obtain ⟨d, o⟩ := s
  cases d <;> cases o <;> decide

end Step

namespace VariableAccess

theorem mem_all (a : VariableAccess) : a ∈ all := by
  cases a with
  | step s => exact List.mem_append_right _ (List.mem_map_of_mem s.mem_all)
  | _ => decide

end VariableAccess

namespace MemberAccess

theorem mem_all (a : MemberAccess) : a ∈ all := by
  cases a with
  | step s => exact List.mem_append_right _ (List.mem_map_of_mem s.mem_all)
  | _ => decide

end MemberAccess

namespace Comparison

theorem mem_all (c : Comparison) : c ∈ all := by
  cases c <;> decide

end Comparison

namespace BinaryOp

theorem mem_all (op : BinaryOp) : op ∈ all := by
  cases op with
  | compare c => cases c <;> decide
  | _ => decide

end BinaryOp

namespace Opcode

theorem mem_all (op : Opcode) : op ∈ all := by
  simp only [all, List.flatten_cons, List.mem_append]
  cases op with
  | loadImmediate i => exact .inl (by cases i <;> decide)
  | storeObject part => exact .inl (by cases part <;> decide)
  | global a => simp [a.mem_all]
  | heap a => simp [a.mem_all]
  | dynamic a => simp [a.mem_all]
  | prop a => simp [a.mem_all]
  | element a => simp [a.mem_all]
  | binary op => simp [op.mem_all]
  | branch sense c => cases sense <;> simp [c.mem_all]
  | step s => simp [s.mem_all]
  | jumpIf sense => cases sense <;> simp [control]
  | _ => simp [values, unary, control]

theorem ofNat?_toNat (op : Opcode) : ofNat? op.toNat = some op := by
  have h : all.idxOf op < all.length := List.idxOf_lt_length_of_mem op.mem_all
  rw [ofNat?, table, toNat, List.getElem?_toArray, List.getElem?_eq_getElem h, List.getElem_idxOf]

theorem toNat_lt (op : Opcode) : op.toNat < 65536 := by
  have h : all.idxOf op < all.length := List.idxOf_lt_length_of_mem op.mem_all
  have hlength : all.length ≤ 65536 := by decide +kernel
  exact Nat.lt_of_lt_of_le h hlength

end Opcode

theorem Word.toNat_ofOpcode (op : Opcode) : (Word.ofOpcode op).toNat = op.toNat := by
  have := op.toNat_lt
  rw [Word.ofOpcode, Nat.toUInt64_eq, UInt64.toNat_ofNat_of_lt']
  exact Nat.lt_trans this (by decide)

theorem Word.opcode?_ofOpcode (op : Opcode) : Word.opcode? (Word.ofOpcode op) = some op := by
  rw [Word.opcode?, Word.opcodeNumber, Word.toNat_ofOpcode, Nat.mod_eq_of_lt op.toNat_lt,
    Opcode.ofNat?_toNat]

namespace Stream

/-! ## Shapes -/

/-- The starts of instructions that begin at `pos`, with their opcodes. -/
def placed (pos : Nat) : List Opcode → List (Nat × Opcode)
  | [] => []
  | op :: rest => (pos, op) :: placed (pos + op.length) rest

def extent : List Opcode → Nat
  | [] => 0
  | op :: rest => op.length + extent rest

theorem placed_append (pos : Nat) (ops more : List Opcode) :
    placed pos (ops ++ more) = placed pos ops ++ placed (pos + extent ops) more := by
  induction ops generalizing pos with
  | nil => simp [placed, extent]
  | cons op ops ih => simp [placed, extent, ih, Nat.add_assoc]

theorem extent_append (ops more : List Opcode) :
    extent (ops ++ more) = extent ops + extent more := by
  induction ops with
  | nil => simp [extent]
  | cons op ops ih => simp [extent, ih, Nat.add_assoc]

theorem bounds_of_mem_placed {pos : Nat} {ops : List Opcode} {s : Nat} {op : Opcode}
    (h : (s, op) ∈ placed pos ops) : pos ≤ s ∧ s + op.length ≤ pos + extent ops := by
  induction ops generalizing pos with
  | nil => cases h
  | cons first ops ih =>
    rw [placed, List.mem_cons] at h
    rw [extent]
    rcases h with h | h
    · cases h
      omega
    · have := ih h
      omega

theorem placed_disjoint {pos : Nat} {ops : List Opcode} {s s' : Nat} {op op' : Opcode}
    (h : (s, op) ∈ placed pos ops) (h' : (s', op') ∈ placed pos ops) :
    s = s' ∧ op = op' ∨ s + op.length ≤ s' ∨ s' + op'.length ≤ s := by
  induction ops generalizing pos with
  | nil => cases h
  | cons first ops ih =>
    rw [placed, List.mem_cons] at h h'
    rcases h with h | h <;> rcases h' with h' | h'
    · cases h
      cases h'
      exact .inl ⟨rfl, rfl⟩
    · cases h
      exact .inr (.inl (bounds_of_mem_placed h').1)
    · cases h'
      exact .inr (.inr (bounds_of_mem_placed h).1)
    · exact ih h h'

/-- Word `p` is an operand of the given kind, of the instruction that starts at `s`. -/
def IsOperand (ops : List Opcode) (s p : Nat) (kind : OperandKind) : Prop :=
  ∃ op i, (s, op) ∈ placed 0 ops ∧ op.format[i]? = some kind ∧ p = s + 1 + i

/-- An instruction starts at word `n`, or the stream ends there. -/
def Boundary (ops : List Opcode) (n : Nat) : Prop :=
  (∃ op, (n, op) ∈ placed 0 ops) ∨ n = extent ops

theorem lt_length_of_format {op : Opcode} {i : Nat} {kind : OperandKind}
    (h : op.format[i]? = some kind) : 1 + i < op.length := by
  obtain ⟨hi, -⟩ := List.getElem?_eq_some_iff.1 h
  rw [Opcode.length]
  omega

theorem IsOperand.lt_extent {ops : List Opcode} {s p : Nat} {kind : OperandKind}
    (h : IsOperand ops s p kind) : p < extent ops := by
  obtain ⟨op, i, hp, hf, rfl⟩ := h
  have := (bounds_of_mem_placed hp).2
  have := lt_length_of_format hf
  omega

theorem IsOperand.unique {ops : List Opcode} {s s' p : Nat} {kind kind' : OperandKind}
    (h : IsOperand ops s p kind) (h' : IsOperand ops s' p kind') : s = s' ∧ kind = kind' := by
  obtain ⟨op, i, hp, hf, rfl⟩ := h
  obtain ⟨op', i', hp', hf', heq⟩ := h'
  have := lt_length_of_format hf
  have := lt_length_of_format hf'
  rcases placed_disjoint hp hp' with ⟨rfl, rfl⟩ | hd | hd
  · obtain rfl : i = i' := by omega
    rw [hf] at hf'
    exact ⟨rfl, Option.some.inj hf'⟩
  · omega
  · omega

theorem IsOperand.not_start {ops : List Opcode} {s p : Nat} {kind : OperandKind}
    (h : IsOperand ops s p kind) {op : Opcode} : (p, op) ∉ placed 0 ops := by
  intro hop
  obtain ⟨op', i, hp, hf, rfl⟩ := h
  have := lt_length_of_format hf
  have hpos := op.length_pos
  rcases placed_disjoint hop hp with ⟨hs, -⟩ | hd | hd <;> omega

theorem IsOperand.append {ops : List Opcode} {s p : Nat} {kind : OperandKind}
    (h : IsOperand ops s p kind) (more : List Opcode) : IsOperand (ops ++ more) s p kind := by
  obtain ⟨op, i, hp, hf, rfl⟩ := h
  refine ⟨op, i, ?_, hf, rfl⟩
  rw [placed_append]
  exact List.mem_append_left _ hp

theorem isOperand_append_iff {ops : List Opcode} {op : Opcode} {s p : Nat} {kind : OperandKind} :
    IsOperand (ops ++ [op]) s p kind ↔ IsOperand ops s p kind ∨
      s = extent ops ∧ ∃ i, op.format[i]? = some kind ∧ p = extent ops + 1 + i := by
  simp only [IsOperand, placed_append, placed, List.mem_append, List.mem_singleton, Nat.zero_add]
  constructor
  · rintro ⟨op', i, hp | hp, hf, rfl⟩
    · exact .inl ⟨op', i, hp, hf, rfl⟩
    · cases hp
      exact .inr ⟨rfl, i, hf, rfl⟩
  · rintro (⟨op', i, hp, hf, rfl⟩ | ⟨rfl, i, hf, rfl⟩)
    · exact ⟨op', i, .inl hp, hf, rfl⟩
    · exact ⟨op, i, .inr rfl, hf, rfl⟩

theorem Boundary.append {ops : List Opcode} {n : Nat} (h : Boundary ops n) (op : Opcode) :
    Boundary (ops ++ [op]) n := by
  rcases h with ⟨op', h⟩ | rfl
  · exact .inl ⟨op', by rw [placed_append]; exact List.mem_append_left _ h⟩
  · exact .inl ⟨op, by simp [placed_append, placed]⟩

theorem Boundary.le_extent {ops : List Opcode} {n : Nat} (h : Boundary ops n) :
    n ≤ extent ops := by
  rcases h with ⟨op, h⟩ | rfl
  · have := (bounds_of_mem_placed h).2
    omega
  · exact Nat.le_refl _

theorem boundary_extent (ops : List Opcode) : Boundary ops (extent ops) := .inr rfl

/-! ## Streams of a shape -/

/-- A stream has the opcode words of `ops` where they belong. -/
structure Spells (ops : List Opcode) (data : Array Word) : Prop where
  size : data.size = extent ops
  word : ∀ {s op}, (s, op) ∈ placed 0 ops → data[s]? = some (Word.ofOpcode op)

theorem spells_empty : Spells [] #[] := ⟨rfl, fun h => by cases h⟩

/-- The instruction of a stream with a given start and opcode. -/
def instructionAt (data : Array Word) (p : Nat × Opcode) : Instruction :=
  ⟨p.1, p.2, (data.extract p.1 (p.1 + p.2.length)).toList⟩

theorem Spells.set {ops : List Opcode} {data : Array Word} (h : Spells ops data) {s p : Nat}
    {kind : OperandKind} (hp : IsOperand ops s p kind) (w : Word) (hlt : p < data.size) :
    Spells ops (data.set p w) := by
  refine ⟨by rw [Array.size_set, h.size], fun {s' op} hs => ?_⟩
  have hne : p ≠ s' := by
    rintro rfl
    exact hp.not_start hs
  rw [Array.getElem?_set_ne _ hne]
  exact h.word hs

theorem Spells.append {ops : List Opcode} {data : Array Word} (h : Spells ops data) (op : Opcode)
    {args : List Word} (hargs : args.length = op.format.length) :
    Spells (ops ++ [op]) (data.push (Word.ofOpcode op) ++ args.toArray) := by
  constructor
  · simp only [Array.size_append, Array.size_push, List.size_toArray, extent_append, extent, h.size,
      Opcode.length, hargs]
    omega
  · intro s op' hs
    rw [placed_append, List.mem_append] at hs
    rcases hs with hs | hs
    · have hlt : s < data.size := by
        have := (bounds_of_mem_placed hs).2
        have := op'.length_pos
        have := h.size
        omega
      rw [Array.getElem?_append_left (by simp; omega), Array.getElem?_push_lt hlt,
        ← Array.getElem?_eq_getElem hlt]
      exact h.word hs
    · simp only [placed, Nat.zero_add, List.mem_singleton, Prod.mk.injEq] at hs
      obtain ⟨rfl, rfl⟩ := hs
      rw [← h.size, Array.getElem?_append_left (by simp), Array.getElem?_push_size]

theorem readOne_of_word {data : Array Word} {pos : Nat} {op : Opcode}
    (hw : data[pos]? = some (Word.ofOpcode op)) (hfits : pos + op.length ≤ data.size) :
    readOne data pos = .ok (instructionAt data (pos, op)) := by
  have hget : data.getD pos 0 = Word.ofOpcode op := by
    rw [Array.getD_eq_getD_getElem?, hw, Option.getD_some]
  have hop : Word.opcode? (data.getD pos 0) = some op := by rw [hget, Word.opcode?_ofOpcode]
  unfold readOne
  simp only [hop]
  rw [if_neg (Nat.not_lt.2 hfits)]
  rfl

theorem readFrom_of_words {data : Array Word} {pos : Nat} {ops : List Opcode}
    (hsize : pos + extent ops = data.size)
    (hw : ∀ s op, (s, op) ∈ placed pos ops → data[s]? = some (Word.ofOpcode op)) :
    readFrom data pos = ((placed pos ops).map (instructionAt data), none) := by
  induction ops generalizing pos with
  | nil =>
    rw [readFrom, dif_neg (by simp [extent] at hsize; omega)]
    rfl
  | cons op ops ih =>
    have hpos := op.length_pos
    rw [extent] at hsize
    have hone : readOne data pos = .ok (instructionAt data (pos, op)) :=
      readOne_of_word (hw pos op (List.mem_cons_self ..)) (by omega)
    rw [readFrom, dif_pos (by omega), hone]
    have hrest : readFrom data (pos + op.length) =
        ((placed (pos + op.length) ops).map (instructionAt data), none) :=
      ih (by omega) fun s op' hs => hw s op' (List.mem_cons_of_mem _ hs)
    simp only [instructionAt] at hrest ⊢
    rw [hrest]
    rfl

theorem Spells.read_eq {ops : List Opcode} {data : Array Word} (h : Spells ops data) :
    read data = ((placed 0 ops).map (instructionAt data), none) :=
  readFrom_of_words (by rw [h.size, Nat.zero_add]) fun _ _ hs => h.word hs

theorem Spells.instructions_eq {ops : List Opcode} {data : Array Word} (h : Spells ops data) :
    instructions data = (placed 0 ops).map (instructionAt data) := by
  rw [Stream.instructions, h.read_eq]

theorem operand_instructionAt {data : Array Word} {s : Nat} {op : Opcode} {i : Nat}
    (hi : i < op.format.length) :
    (instructionAt data (s, op)).operand i = data.getD (s + 1 + i) 0 := by
  simp only [Instruction.operand, instructionAt, List.getD_eq_getElem?_getD,
    Array.getElem?_toList, Array.getElem?_extract, Array.getD_eq_getD_getElem?]
  by_cases hlt : s + 1 + i < data.size
  · rw [if_pos (by rw [Opcode.length]; omega), show s + (i + 1) = s + 1 + i by omega]
  · rw [if_neg (by omega), Array.getElem?_eq_none (by omega)]

end Stream

end RegisterJit
