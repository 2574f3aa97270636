import RegisterJit.Proofs.Proceeding
import RegisterJit.Proofs.Writing

/-!
# Operands

An instruction finds an operand in the accumulator, if that is taken to hold its register, and else in
the frame. Whichever it is, the pieces that fetch operands put their words into registers.

`Operand` says that a register of a code holds a value: its slot in the frame does, and so does the accumulator,
if it is taken to hold that register. `Fetches` and `FetchesPair` describe the pieces that load one or two of
them; when two are loaded, the second must not be lost to the first, which is why pairs have a statement of
their own. `Conditions` uses these for jumps and comparisons, and the modules about operators for their
arguments.
-/

namespace RegisterJit

open X86 (Reg Cond Instr Label Cpu)

namespace X86.Cpu

variable (c : Cpu)

@[simp] theorem setReg_reg (r : Reg) : c.setReg r (c.reg r) = c := by
  have hregs : c.regs.set r.slot c.regs[(r.slot : Nat)] = c.regs := Vector.set_getElem_self ..
  rw [setReg, reg, Fin.getElem_fin, hregs]

theorem setReg_comm {r r' : Reg} (h : r.slot ≠ r'.slot) (x y : UInt64) :
    (c.setReg r x).setReg r' y = (c.setReg r' y).setReg r x := by
  simp only [setReg]
  rw [Vector.set_comm _ _ fun h' => h (Fin.ext h')]

/-- A register of the frame holds a value, and so does the accumulator if it is taken to hold the
register. -/
structure Operand (c : Cpu) (cached r : Register) (v : Value) : Prop where
  slot : ∀ d, Frame.registerOffset? r = some d →
    c.read (c.reg frameReg + displacementWord d) = v.word
  kept : r = cached → c.reg .rax = v.word

end X86.Cpu

namespace Piece

/-- A piece that puts a register of the frame into `dst`. -/
inductive Fetches (cached : Register) (dst : Reg) (r : Register) : Piece → Prop
  | kept (h : r = cached) : Fetches cached dst r (.kept dst r)
  | load {d : Int32} (h : r ≠ cached) (offset : Frame.registerOffset? r = some d) :
    Fetches cached dst r (.instr (.load dst frameReg d))

/-- Two pieces that put a register of the frame into the accumulator and another into `rdx`. -/
inductive FetchesPair (cached lhs rhs : Register) : Piece → Piece → Prop
  | inOrder {p q : Piece} (first : Fetches cached .rax lhs p) (second : Fetches lhs .rdx rhs q) :
    FetchesPair cached lhs rhs p q
  | reversed {d : Int32} (h : rhs = cached) (offset : Frame.registerOffset? lhs = some d) :
    FetchesPair cached lhs rhs (.kept .rdx rhs) (.instr (.load .rax frameReg d))

variable {word : Label → UInt64} {cached r lhs rhs : Register} {dst : Reg} {p q : Piece}
  {c : Cpu} {v a b : Value} {rest : List Piece}

theorem Fetches.known (h : Fetches cached dst r p) (hdst : dst.known = true) : p.known = true := by
  cases h with
  | kept => exact hdst
  | load => simpa using hdst

theorem Fetches.follow (h : Fetches cached dst r p) (hv : c.Operand cached r v) :
    follow word none (p :: rest) c = follow word none rest (c.setReg dst v.word) := by
  cases h with
  | kept h =>
    rw [follow_kept]
    by_cases hdst : dst = .rax
    · rw [if_pos hdst, hdst, ← hv.kept h, X86.Cpu.setReg_reg]
    · rw [if_neg hdst, hv.kept h]
  | load h offset => simp [hv.slot _ offset]

theorem FetchesPair.known (h : FetchesPair cached lhs rhs p q) :
    p.known = true ∧ q.known = true := by
  cases h with
  | inOrder first second => exact ⟨first.known rfl, second.known rfl⟩
  | reversed => exact ⟨rfl, rfl⟩

theorem Fetches.unique (h : Fetches cached dst r p) (ha : c.Operand cached r a)
    (hb : c.Operand cached r b) : a.word = b.word := by
  cases h with
  | kept h => exact (ha.kept h).symm.trans (hb.kept h)
  | load h offset => exact (ha.slot _ offset).symm.trans (hb.slot _ offset)

theorem FetchesPair.follow (h : FetchesPair cached lhs rhs p q) (ha : c.Operand cached lhs a)
    (hb : c.Operand cached rhs b) :
    follow word none (p :: q :: rest) c =
      follow word none rest ((c.setReg .rax a.word).setReg .rdx b.word) := by
  cases h with
  | inOrder first second =>
    rw [first.follow ha]
    refine second.follow ⟨fun d hd => ?_, ?_⟩
    · rw [X86.Cpu.read_setReg, X86.Cpu.reg_setReg_of_ne _ _ (by decide)]
      exact hb.slot d hd
    · rintro rfl
      rw [X86.Cpu.reg_setReg_self]
      exact first.unique ha hb
  | reversed h offset =>
    have hkept : Fetches cached .rdx rhs (.kept .rdx rhs) := .kept h
    rw [hkept.follow hb]
    rw [X86.Cpu.setReg_comm _ (by decide)]
    simp [X86.Cpu.reg_setReg, ha.slot _ offset]

end Piece

namespace Emit

variable {site : Site} {e : Emitter} {Q : Unit → Emitter → Prop}

theorem ensures_fetch {dst : Reg} {r : Register} (h : ∀ p, Piece.Fetches e.cached dst r p →
    Q () ((e.write [p]).believe (if dst = .rax then r else e.cached))) :
    (load dst r).Ensures site e Q := by
  rw [ensures_load]
  constructor
  · rintro rfl
    have hq := h _ (.kept rfl)
    rw [ite_self] at hq
    exact hq
  · intro hr d hd
    have hq := h _ (.load hr hd)
    by_cases hdst : dst = .rax
    · rw [if_pos hdst] at hq ⊢
      exact hq
    · rw [if_neg hdst] at hq ⊢
      exact hq

theorem ensures_fetchPair {lhs rhs : Register} (h : ∀ p q k, Piece.FetchesPair e.cached lhs rhs p q →
    Q () ((e.write [p, q]).believe k)) : (loadPair lhs rhs).Ensures site e Q := by
  rw [loadPair, ensures_bind, ensures_get, ensures_ite]
  constructor
  · rintro ⟨hr, hl⟩
    rw [ensures_bind, ensures_piece, ensures_load]
    refine ⟨fun hl' => absurd hl' hl, fun _ d hd => ?_⟩
    have hq := h _ _ lhs (.reversed hr hd)
    rw [if_pos rfl, Emitter.write_write]
    exact hq
  · intro _
    rw [ensures_bind]
    refine ensures_fetch fun p hp => ensures_fetch fun q hq => ?_
    exact h p q _ (.inOrder hp hq)

end Emit

end RegisterJit
