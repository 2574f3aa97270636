import Mathlib.Tactic.Common
import RegisterJit.Compile.Session

/-!
# The buffer is its symbolic code

The bytes of a session's buffer, its unresolved jumps, the addresses it leaves open and the places
of its labels are functions of the pieces that were put into it. `Session.Laid` says so; every step
of a session keeps it. What follows reasons about lists of pieces and never about the buffer.

`Piece.encode`, `Piece.size` and their folds along a list compute bytes, places and sites from the pieces, and
`Session.Laid` says that a session is what they compute. `Laid` is kept by everything an assembler does: one
lemma for appending bytes, one for labels and one for jumps cover all pieces. That the bytes are the symbolic
code is therefore proved once, and emitters need no proof of their own for it. `Compilation` and `Sessions` use
it for the sessions that compiling leaves, `Finish` for filling in displacements.
-/

namespace RegisterJit

open X86 (Instr Label Jump Assembler)

namespace Piece

/-! ## Bytes -/

/-- The bytes of a piece that starts at `pos`, with displacements and addresses left zero. -/
def encode (pos : Nat) : Piece → List UInt8
  | .instr i => i.encode
  | .kept dst _ => if dst = .rax then [] else (Instr.mov .w64 dst .rax).encode
  | .jmp _ => (Instr.jmp 0).encode
  | .jcc c _ => (Instr.jcc c 0).encode
  | .call _ => (Instr.call 0).encode
  | .address dst _ => (Instr.movImm64 dst 0).encode
  | .bind _ => []
  | .align n => List.replicate ((n - pos % n) % n) 0x90

/-- The number of bytes of a piece that starts at `pos`. -/
def size (pos : Nat) (p : Piece) : Nat := (p.encode pos).length

/-- The bytes of pieces that start at `pos`. -/
def encodeFrom (pos : Nat) : List Piece → List UInt8
  | [] => []
  | p :: rest => p.encode pos ++ encodeFrom (pos + p.size pos) rest

/-- The place after pieces that start at `pos`. -/
def endFrom (pos : Nat) : List Piece → Nat
  | [] => pos
  | p :: rest => endFrom (pos + p.size pos) rest

theorem endFrom_append (pos : Nat) (ps qs : List Piece) :
    endFrom pos (ps ++ qs) = endFrom (endFrom pos ps) qs := by
  induction ps generalizing pos with
  | nil => rfl
  | cons p ps ih => exact ih (pos + p.size pos)

theorem encodeFrom_append (pos : Nat) (ps qs : List Piece) :
    encodeFrom pos (ps ++ qs) = encodeFrom pos ps ++ encodeFrom (endFrom pos ps) qs := by
  induction ps generalizing pos with
  | nil => rfl
  | cons p ps ih =>
    simp only [List.cons_append, encodeFrom, endFrom, ih, List.append_assoc]

theorem endFrom_eq (pos : Nat) (ps : List Piece) :
    endFrom pos ps = pos + (encodeFrom pos ps).length := by
  induction ps generalizing pos with
  | nil => rfl
  | cons p ps ih =>
    rw [endFrom, ih, encodeFrom, List.length_append]
    simp only [size]
    omega

theorem le_endFrom (pos : Nat) (ps : List Piece) : pos ≤ endFrom pos ps := by
  rw [endFrom_eq]
  omega

theorem endFrom_mono {ps qs : List Piece} (h : ps <+: qs) (pos : Nat) :
    endFrom pos ps ≤ endFrom pos qs := by
  obtain ⟨rest, rfl⟩ := h
  rw [endFrom_append]
  exact le_endFrom _ _

/-! ## Labels -/

def bound? : Piece → Option Label
  | .bind l => some l
  | _ => none

def target? : Piece → Option Label
  | .jmp l | .jcc _ l | .call l | .address _ l => some l
  | _ => none

def binds (ps : List Piece) : List Label := ps.filterMap bound?

def targets (ps : List Piece) : List Label := ps.filterMap target?

@[simp] theorem binds_nil : binds [] = [] := rfl

@[simp] theorem targets_nil : targets [] = [] := rfl

section

variable (ps : List Piece) (l : Label)

@[simp] theorem binds_instr (i : Instr) : binds (.instr i :: ps) = binds ps := rfl

@[simp] theorem binds_kept (dst : X86.Reg) (r : Register) : binds (.kept dst r :: ps) = binds ps := rfl

@[simp] theorem binds_jmp : binds (.jmp l :: ps) = binds ps := rfl

@[simp] theorem binds_jcc (c : X86.Cond) : binds (.jcc c l :: ps) = binds ps := rfl

@[simp] theorem binds_call : binds (.call l :: ps) = binds ps := rfl

@[simp] theorem binds_address (dst : X86.Reg) : binds (.address dst l :: ps) = binds ps := rfl

@[simp] theorem binds_bind : binds (.bind l :: ps) = l :: binds ps := rfl

@[simp] theorem binds_align (n : Nat) : binds (.align n :: ps) = binds ps := rfl

@[simp] theorem targets_instr (i : Instr) : targets (.instr i :: ps) = targets ps := rfl

@[simp] theorem targets_kept (dst : X86.Reg) (r : Register) :
    targets (.kept dst r :: ps) = targets ps := rfl

@[simp] theorem targets_jmp : targets (.jmp l :: ps) = l :: targets ps := rfl

@[simp] theorem targets_jcc (c : X86.Cond) : targets (.jcc c l :: ps) = l :: targets ps := rfl

@[simp] theorem targets_call : targets (.call l :: ps) = l :: targets ps := rfl

@[simp] theorem targets_address (dst : X86.Reg) :
    targets (.address dst l :: ps) = l :: targets ps := rfl

@[simp] theorem targets_bind : targets (.bind l :: ps) = targets ps := rfl

@[simp] theorem targets_align (n : Nat) : targets (.align n :: ps) = targets ps := rfl

end

theorem mem_binds {l : Nat} {ps : List Piece} : l ∈ binds ps ↔ .bind l ∈ ps := by
  rw [binds, List.mem_filterMap]
  constructor
  · rintro ⟨q, hq, hl⟩
    cases q <;> cases hl
    exact hq
  · exact fun hq => ⟨_, hq, rfl⟩

theorem binds_append (ps qs : List Piece) : binds (ps ++ qs) = binds ps ++ binds qs := by
  simp [binds]

theorem targets_append (ps qs : List Piece) : targets (ps ++ qs) = targets ps ++ targets qs := by
  simp [targets]

/-- The place of a label in pieces that start at `pos`. -/
def placeFrom (l : Label) (pos : Nat) : List Piece → Option Nat
  | [] => none
  | p :: rest => if p.bound? = some l then some pos else placeFrom l (pos + p.size pos) rest

theorem placeFrom_append (l : Nat) (pos : Nat) (ps qs : List Piece) :
    placeFrom l pos (ps ++ qs) = (placeFrom l pos ps).or (placeFrom l (endFrom pos ps) qs) := by
  induction ps generalizing pos with
  | nil => rfl
  | cons p ps ih =>
    rw [List.cons_append, placeFrom, placeFrom, endFrom]
    split
    · rfl
    · exact ih _

theorem placeFrom_eq_none_iff {l : Nat} {pos : Nat} {ps : List Piece} :
    placeFrom l pos ps = none ↔ l ∉ binds ps := by
  induction ps generalizing pos with
  | nil => simp [placeFrom]
  | cons p ps ih =>
    rw [placeFrom]
    by_cases h : p.bound? = some l
    · simp [binds, h]
    · rw [if_neg h, ih]
      cases hp : p.bound? with
      | none => simp [binds, hp]
      | some k =>
        have hk : l ≠ k := fun e => h (by rw [hp, e])
        simp [binds, hp, hk]

theorem exists_placeFrom {l : Nat} (pos : Nat) {ps : List Piece} (h : l ∈ binds ps) :
    ∃ place, placeFrom l pos ps = some place := by
  cases hp : placeFrom l pos ps with
  | some place => exact ⟨place, rfl⟩
  | none => exact absurd h (placeFrom_eq_none_iff.1 hp)

/-! ## What is left open -/

/-- The jump whose displacement a piece leaves open. -/
def jump? (pos : Nat) (p : Piece) : Option Jump :=
  match p with
  | .jmp l | .jcc _ l | .call l => some ⟨pos + p.size pos - 4, l⟩
  | _ => none

/-- The jumps of pieces that start at `pos`. -/
def jumpsFrom (pos : Nat) : List Piece → List Jump
  | [] => []
  | p :: rest => (p.jump? pos).toList ++ jumpsFrom (pos + p.size pos) rest

def site? (pos : Nat) (p : Piece) : Option (Nat × Label) :=
  match p with
  | .address _ l => some (pos + p.size pos - 8, l)
  | _ => none

/-- The open addresses of pieces that start at `pos`. -/
def sitesFrom (pos : Nat) : List Piece → List (Nat × Label)
  | [] => []
  | p :: rest => (p.site? pos).toList ++ sitesFrom (pos + p.size pos) rest

theorem jumpsFrom_append (pos : Nat) (ps qs : List Piece) :
    jumpsFrom pos (ps ++ qs) = jumpsFrom pos ps ++ jumpsFrom (endFrom pos ps) qs := by
  induction ps generalizing pos with
  | nil => rfl
  | cons p ps ih => simp only [List.cons_append, jumpsFrom, endFrom, ih, List.append_assoc]

theorem sitesFrom_append (pos : Nat) (ps qs : List Piece) :
    sitesFrom pos (ps ++ qs) = sitesFrom pos ps ++ sitesFrom (endFrom pos ps) qs := by
  induction ps generalizing pos with
  | nil => rfl
  | cons p ps ih => simp only [List.cons_append, sitesFrom, endFrom, ih, List.append_assoc]

theorem label_mem_targets_of_mem_jumpsFrom {pos : Nat} {ps : List Piece} {j : Jump}
    (h : j ∈ jumpsFrom pos ps) : j.label ∈ targets ps := by
  induction ps generalizing pos with
  | nil => simp [jumpsFrom] at h
  | cons p ps ih =>
    rw [jumpsFrom, List.mem_append] at h
    rcases h with h | h
    · cases p <;> simp [jump?] at h
      all_goals subst h; simp [targets, target?]
    · have := ih h
      cases hp : p.target? <;> simp [targets, hp] at this ⊢ <;> simp [this]

theorem label_mem_targets_of_mem_sitesFrom {pos : Nat} {ps : List Piece} {e : Nat × Label}
    (h : e ∈ sitesFrom pos ps) : e.2 ∈ targets ps := by
  induction ps generalizing pos with
  | nil => simp [sitesFrom] at h
  | cons p ps ih =>
    rw [sitesFrom, List.mem_append] at h
    rcases h with h | h
    · cases p <;> simp [site?] at h
      subst h; simp [targets, target?]
    · have := ih h
      cases hp : p.target? <;> simp [targets, hp] at this ⊢ <;> simp [this]

end Piece

/-! ## Appending to the buffer -/

namespace Session

def binds (s : Session) : List Label := Piece.binds s.pieces.toList

/-- The buffer holds exactly its pieces, and binds no label twice. -/
structure Laid (s : Session) : Prop where
  bytes : s.asm.bytes.toList = Piece.encodeFrom 0 s.pieces.toList
  jumps : s.asm.jumps.toList = Piece.jumpsFrom 0 s.pieces.toList
  sites : s.addresses.toList = Piece.sitesFrom 0 s.pieces.toList
  labels : ∀ l, s.asm.place? l = Piece.placeFrom l 0 s.pieces.toList
  nodup : s.binds.Nodup

theorem Laid.congr {s s' : Session} (h : s.Laid) (hasm : s'.asm = s.asm)
    (hpieces : s'.pieces = s.pieces) (haddresses : s'.addresses = s.addresses) : s'.Laid where
  bytes := by rw [hasm, hpieces, h.bytes]
  jumps := by rw [hasm, hpieces, h.jumps]
  sites := by rw [haddresses, hpieces, h.sites]
  labels := by rw [hasm, hpieces]; exact h.labels
  nodup := by rw [binds, hpieces]; exact h.nodup

theorem Laid.size_eq {s : Session} (h : s.Laid) : s.size = Piece.endFrom 0 s.pieces.toList := by
  rw [Piece.endFrom_eq, ← h.bytes]
  simp [size, Assembler.size]

theorem Laid.lt_of_mem_binds {s : Session} (h : s.Laid) {l : Nat} (hl : l ∈ s.binds) :
    l < s.asm.labels.size := by
  obtain ⟨place, hp⟩ := Piece.exists_placeFrom 0 hl
  have hb := h.labels l
  rw [hp, Assembler.place?, Array.getD_eq_getD_getElem?] at hb
  by_contra hlt
  rw [Array.getElem?_eq_none (Nat.le_of_not_lt hlt)] at hb
  cases hb

/-- A session whose buffer has been extended, and in which nothing else has changed. -/
def Extends (s s' : Session) (ps : List Piece) : Prop :=
  s'.pieces.toList = s.pieces.toList ++ ps ∧
    s' = { s with asm := s'.asm, pieces := s'.pieces, addresses := s'.addresses }

theorem Extends.trans {s s' s'' : Session} {ps qs : List Piece} (h : s.Extends s' ps)
    (h' : s'.Extends s'' qs) : s.Extends s'' (ps ++ qs) := by
  refine ⟨by rw [h'.1, h.1, List.append_assoc], ?_⟩
  rw [h'.2, h.2]

theorem Extends.binds {s s' : Session} {ps : List Piece} (h : s.Extends s' ps) :
    s'.binds = s.binds ++ Piece.binds ps := by
  rw [Session.binds, h.1, Piece.binds_append, Session.binds]

end Session

namespace X86.Assembler

/-! ## What a piece does to an assembler -/

theorem pad_bytes (a : Assembler) (count : Nat) :
    (a.pad count).bytes.toList = a.bytes.toList ++ List.replicate count 0x90 := by
  induction count generalizing a with
  | zero => simp [pad]
  | succ count ih => simp [pad, ih, emit, Instr.encode, List.replicate_succ]

theorem pad_labels (a : Assembler) (count : Nat) :
    (a.pad count).labels = a.labels ∧ (a.pad count).jumps = a.jumps := by
  induction count generalizing a with
  | zero => exact ⟨rfl, rfl⟩
  | succ count ih => exact ih (a.emit .nop)

theorem put_ok {a : Assembler} {p : Piece} (hp : p.bound? = none) :
    ∃ a', a.put p = .ok a' ∧ a'.bytes.toList = a.bytes.toList ++ p.encode a.size ∧
      a'.jumps.toList = a.jumps.toList ++ (p.jump? a.size).toList ∧ a'.labels = a.labels ∧
      a.addressSite? p = p.site? a.size := by
  cases p with
  | bind l => cases hp
  | align n =>
    refine ⟨_, rfl, ?_, ?_, ?_, rfl⟩
    · exact pad_bytes _ _
    · rw [align, (pad_labels _ _).2]; simp [Piece.jump?]
    · exact (pad_labels _ _).1
  | kept dst r =>
    by_cases h : dst = .rax <;>
      exact ⟨_, rfl, by simp [h, emit, Piece.encode], by simp [h, emit, Piece.jump?],
        by simp [h, emit], rfl⟩
  | instr i =>
    exact ⟨_, rfl, by simp [emit, Piece.encode], by simp [emit, Piece.jump?], rfl, rfl⟩
  | address dst l =>
    refine ⟨_, rfl, by simp [movAddress, emit, Piece.encode],
      by simp [movAddress, emit, Piece.jump?], rfl, ?_⟩
    simp [addressSite?, movAddress, Piece.site?, size, emit, Piece.size, Piece.encode]
  | jmp l | jcc c l | call l =>
    refine ⟨_, rfl, by simp [jmp, jcc, call, emitTo, emit, Piece.encode], ?_, rfl, rfl⟩
    simp [jmp, jcc, call, emitTo, emit, Piece.jump?, Piece.size, Piece.encode, size]

theorem place?_set {a : Assembler} {l : Nat} (hl : l < a.labels.size) (place : Nat) (k : Nat) :
    place? { a with labels := a.labels.setIfInBounds l (some place) } k =
      if k = l then some place else a.place? k := by
  simp only [place?, Array.getD_eq_getD_getElem?, Array.getElem?_setIfInBounds]
  by_cases h : l = k
  · subst h; simp [hl]
  · simp [h, Ne.symm h]

theorem place?_reserve (a : Assembler) (count : Nat) (l : Nat) :
    (a.reserve count).place? l = a.place? l := by
  simp only [place?, reserve, Array.getD_eq_getD_getElem?, Array.getElem?_append]
  split
  · rfl
  · rename_i h
    have hnone : a.labels[l]? = none := Array.getElem?_eq_none (Nat.le_of_not_lt h)
    rw [hnone, Array.getElem?_replicate]
    split <;> rfl

end X86.Assembler

namespace Session

theorem put_piece {s : Session} (h : s.Laid) {p : Piece} (hp : p.bound? = none) :
    ∃ s', Build.put p s = .ok () s' ∧ s'.Laid ∧ s.Extends s' [p] ∧
      s'.asm.labels.size = s.asm.labels.size := by
  obtain ⟨a, ha, hbytes, hjumps, hlabels, hsite⟩ := Assembler.put_ok (a := s.asm) hp
  have hsize : s.asm.size = Piece.endFrom 0 s.pieces.toList := h.size_eq
  refine ⟨{ s with
      asm := a
      pieces := s.pieces.push p
      addresses := s.addresses ++ (s.asm.addressSite? p).toArray }, ?_, ?_, ⟨by simp, rfl⟩, ?_⟩
  · simp only [Build.put, ha]
  · constructor
    · simp only [Array.toList_push, Piece.encodeFrom_append, hbytes, h.bytes, hsize,
        Piece.encodeFrom, List.append_nil]
    · simp only [Array.toList_push, Piece.jumpsFrom_append, hjumps, h.jumps, hsize,
        Piece.jumpsFrom, List.append_nil]
    · simp only [Array.toList_push, Piece.sitesFrom_append, hsite, ← h.sites, hsize,
        Piece.sitesFrom, List.append_nil, Array.toList_append]
      cases Piece.site? (Piece.endFrom 0 s.pieces.toList) p <;> simp
    · intro l
      have : a.place? l = s.asm.place? l := by simp only [Assembler.place?, hlabels]
      rw [this, h.labels, Array.toList_push, Piece.placeFrom_append]
      simp [Piece.placeFrom, hp]
    · rw [binds, Array.toList_push, Piece.binds_append]
      have hnone : Piece.binds [p] = [] := by simp [Piece.binds, hp]
      rw [hnone, List.append_nil]
      exact h.nodup
  · simp only [hlabels]

theorem put_bind {s : Session} (h : s.Laid) {l : Nat} (hl : l < s.asm.labels.size)
    (hfree : l ∉ s.binds) :
    ∃ s', Build.put (.bind l) s = .ok () s' ∧ s'.Laid ∧ s.Extends s' [.bind l] ∧
      s'.asm.labels.size = s.asm.labels.size := by
  have hsize : s.asm.size = Piece.endFrom 0 s.pieces.toList := h.size_eq
  have hnone : s.asm.place? l = none := by
    rw [h.labels, Piece.placeFrom_eq_none_iff]
    exact hfree
  have hget : s.asm.labels[l]? = some none := by
    rw [Assembler.place?, Array.getD_eq_getD_getElem?] at hnone
    rw [Array.getElem?_eq_getElem hl] at hnone ⊢
    simpa using hnone
  refine ⟨{ s with
      asm := { s.asm with labels := s.asm.labels.setIfInBounds l (some s.asm.size) }
      pieces := s.pieces.push (.bind l) }, ?_, ?_, ⟨by simp, rfl⟩, by simp⟩
  · simp [Build.put, Assembler.put, Assembler.bind, hget, Assembler.addressSite?]
  · constructor
    · simp [Piece.encodeFrom_append, h.bytes, Piece.encodeFrom, Piece.encode]
    · simp [Piece.jumpsFrom_append, h.jumps, Piece.jumpsFrom, Piece.jump?]
    · simp [Piece.sitesFrom_append, h.sites, Piece.sitesFrom, Piece.site?]
    · intro k
      rw [Assembler.place?_set hl, Array.toList_push, Piece.placeFrom_append]
      by_cases hk : k = l
      · subst hk
        rw [Piece.placeFrom_eq_none_iff.2 hfree]
        simp [Piece.placeFrom, Piece.bound?, hsize]
      · rw [if_neg hk, h.labels]
        simp [Piece.placeFrom, Piece.bound?, Ne.symm hk]
    · rw [binds, Array.toList_push, Piece.binds_append]
      exact List.nodup_append.2 ⟨h.nodup, by simp, fun k hk j hj => by
        obtain rfl : j = l := by simpa using hj
        exact fun heq => hfree (heq ▸ hk)⟩

theorem Laid.reserve {s : Session} (h : s.Laid) (count : Nat) :
    Laid { s with asm := s.asm.reserve count } :=
  ⟨h.bytes, h.jumps, h.sites, fun l => (Assembler.place?_reserve _ _ _).trans (h.labels l), h.nodup⟩

theorem start_laid : start.Laid where
  bytes := by decide +kernel
  jumps := by decide +kernel
  sites := by decide +kernel
  labels := by
    intro (l : Nat)
    have hsize : start.asm.labels.size = 3 := by decide +kernel
    by_cases hl : l < 3
    · match l, hl with
      | 0, _ | 1, _ | 2, _ => decide +kernel
    · have hnone : start.asm.place? l = none := by
        rw [Assembler.place?, Array.getD_eq_getD_getElem?, Array.getElem?_eq_none (by omega)]
        rfl
      have hb : Piece.binds start.pieces.toList = [0, 2, 1] := by decide +kernel
      rw [hnone, eq_comm, Piece.placeFrom_eq_none_iff, hb]
      simp only [List.mem_cons, List.not_mem_nil, or_false]
      omega
  nodup := by decide +kernel

end Session

end RegisterJit
