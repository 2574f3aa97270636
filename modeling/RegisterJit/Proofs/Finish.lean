import RegisterJit.Compile.Link
import RegisterJit.Proofs.Layout

/-!
# Finished code

When every label is bound, linking turns each piece into machine instructions: jumps get their
displacements and addresses their words. `Piece.bytesFrom` is the code that results, and nothing is
moved by filling it in.

`Piece.bytesFrom` is defined by recursion on the pieces, with the place of every label known. `resolveJumps_ok`
and `fillAddresses_ok` say that the two passes of the linker succeed and give exactly these bytes, by induction
on the pieces: a pass overwrites a field that is the end of its piece, so neither pass can reach into a
neighbour. This turns questions about patched buffers into questions about a function of the pieces, which
`Linking` and `Relocation` ask.

The fields do not overlap, and finished code differs from the emitted bytes nowhere else. `field?` is the field of
one piece, `fieldsFrom` those of many with the places where they start, and `fieldsFrom_pairwise` says that they
are apart; `fieldsFrom_perm` says that those of jumps and those of addresses are together the fields of the pieces.
`Same` says that two buffers agree outside of fields. `Relocation` compares an image with its relocated twin through
these, and `Displacements` a buffer with what an attempt left of it.
-/

namespace RegisterJit

open X86 (Instr Label Jump Assembler)

namespace X86

@[simp] theorem length_imm32 (i : UInt32) : (imm32 i).length = 4 := rfl

@[simp] theorem length_imm64 (i : UInt64) : (imm64 i).length = 8 := rfl

namespace Assembler

theorem patch_append (xs old ys new : List UInt8) (h : new.length = old.length) :
    patch (xs ++ old ++ ys).toArray xs.length new = (xs ++ new ++ ys).toArray := by
  induction new generalizing xs old with
  | nil =>
    obtain rfl : old = [] := List.eq_nil_of_length_eq_zero h.symm
    rfl
  | cons b new ih =>
    obtain ⟨c, old, rfl⟩ : ∃ c rest, old = c :: rest := by
      cases old with
      | nil => cases h
      | cons c rest => exact ⟨c, rest, rfl⟩
    have hset : (xs ++ c :: old ++ ys).toArray.setIfInBounds xs.length b =
        (xs ++ [b] ++ old ++ ys).toArray := by
      rw [List.setIfInBounds_toArray]
      simp
    have hrest := ih (xs ++ [b]) old (Nat.succ.inj h)
    rw [List.length_append, List.length_singleton] at hrest
    rw [patch, hset, hrest]
    simp

end Assembler

end X86

namespace Piece

variable (rel : Nat → Label → Int32) (word : Label → UInt64)

/-- The instructions of a piece that starts at `pos`: `rel` gives the displacement of a label from a
place, `word` the address of a label as a word. -/
def instrs (pos : Nat) : Piece → List Instr
  | .instr i => [i]
  | .kept dst _ => if dst = .rax then [] else [.mov .w64 dst .rax]
  | .jmp l => [.jmp (rel (pos + 5) l)]
  | .jcc c l => [.jcc c (rel (pos + 6) l)]
  | .call l => [.call (rel (pos + 5) l)]
  | .address dst l => [.movImm64 dst (word l)]
  | .bind _ => []
  | .align n => List.replicate ((n - pos % n) % n) .nop

def bytes (pos : Nat) (p : Piece) : List UInt8 := (p.instrs rel word pos).flatMap Instr.encode

/-- The bytes of pieces that start at `pos`. -/
def bytesFrom (pos : Nat) : List Piece → List UInt8
  | [] => []
  | p :: rest => p.bytes rel word pos ++ bytesFrom (pos + p.size pos) rest

theorem bytes_empty (pos : Nat) (p : Piece) :
    p.bytes (fun _ _ => 0) (fun _ => 0) pos = p.encode pos := by
  cases p with
  | kept dst r => by_cases h : dst = .rax <;> simp [bytes, instrs, encode, h]
  | align n => simp [bytes, instrs, encode, Instr.encode, List.flatMap_replicate]
  | _ => simp [bytes, instrs, encode]

theorem bytesFrom_empty (pos : Nat) (ps : List Piece) :
    bytesFrom (fun _ _ => 0) (fun _ => 0) pos ps = encodeFrom pos ps := by
  induction ps generalizing pos with
  | nil => rfl
  | cons p ps ih => rw [bytesFrom, bytes_empty, ih, encodeFrom]

theorem length_bytes (pos : Nat) (p : Piece) : (p.bytes rel word pos).length = p.size pos := by
  rw [size, ← bytes_empty]
  cases p <;> simp [bytes, instrs, Instr.encode]

theorem length_bytesFrom (pos : Nat) (ps : List Piece) :
    pos + (bytesFrom rel word pos ps).length = endFrom pos ps := by
  induction ps generalizing pos with
  | nil => rfl
  | cons p ps ih =>
    rw [bytesFrom, endFrom, ← ih, List.length_append, length_bytes, Nat.add_assoc]

theorem bytesFrom_append (pos : Nat) (ps qs : List Piece) :
    bytesFrom rel word pos (ps ++ qs) =
      bytesFrom rel word pos ps ++ bytesFrom rel word (endFrom pos ps) qs := by
  induction ps generalizing pos with
  | nil => rfl
  | cons p ps ih => simp only [List.cons_append, bytesFrom, endFrom, ih, List.append_assoc]

def displacement (place : Label → Nat) (pos : Nat) (l : Label) : Int32 :=
  Int32.ofInt ((place l : Int) - pos)

/-! ## Filling in -/

variable {rel word}

theorem bytes_of_jump? (word : Label → UInt64) {pos : Nat} {p : Piece} {j : Jump} (h : p.jump? pos = some j) :
    ∃ head : List UInt8, j.place = pos + head.length ∧
      ∀ rel, p.bytes rel word pos = head ++ X86.imm32 (rel (j.place + 4) j.label).toUInt32 := by
  cases p with
  | jmp l => cases h; exact ⟨[0xe9], rfl, fun rel => by simp [bytes, instrs, Instr.encode]; rfl⟩
  | call l => cases h; exact ⟨[0xe8], rfl, fun rel => by simp [bytes, instrs, Instr.encode]; rfl⟩
  | jcc c l =>
    cases h
    exact ⟨[0x0f, 0x80 ||| c.num], rfl, fun rel => by simp [bytes, instrs, Instr.encode]; rfl⟩
  | _ => cases h

theorem bytes_of_jump?_eq_none {pos : Nat} {p : Piece} (h : p.jump? pos = none)
    (rel rel' : Nat → Label → Int32) : p.bytes rel word pos = p.bytes rel' word pos := by
  cases p with
  | jmp | jcc | call => cases h
  | _ => rfl

/-- An address is the last eight bytes of the instruction that loads it. -/
theorem bytes_of_site? (rel : Nat → Label → Int32) {pos : Nat} {p : Piece} {e : Nat × Label}
    (h : p.site? pos = some e) :
    ∃ head : List UInt8, e.1 = pos + head.length ∧
      ∀ word, p.bytes rel word pos = head ++ X86.imm64 (word e.2) := by
  cases p with
  | address dst l =>
    cases h
    exact ⟨[X86.rexWide .none dst, 0xb8 + dst.low.toUInt8], rfl,
      fun rel => by simp [bytes, instrs, Instr.encode]⟩
  | _ => cases h

theorem bytes_of_site?_eq_none {pos : Nat} {p : Piece} (h : p.site? pos = none)
    (word word' : Label → UInt64) : p.bytes rel word pos = p.bytes rel word' pos := by
  cases p with
  | address => cases h
  | _ => rfl

/-- Jumps to labels that are bound are resolved. -/
theorem resolveJumps_ok (a : Assembler) (word : Label → UInt64) (place : Label → Nat) {pos : Nat}
    {ps : List Piece}
    (hplace : ∀ j ∈ jumpsFrom pos ps, a.place? j.label = some (place j.label)) {before : List UInt8}
    (hbefore : before.length = pos) :
    a.resolveJumps (jumpsFrom pos ps) (before ++ bytesFrom (fun _ _ => 0) word pos ps).toArray =
      .ok (before ++ bytesFrom (displacement place) word pos ps).toArray := by
  induction ps generalizing pos before with
  | nil => rfl
  | cons p ps ih =>
    have hrest := @ih (pos + p.size pos)
      (fun j hj => hplace j (by rw [jumpsFrom]; exact List.mem_append_right _ hj))
      (before ++ p.bytes (displacement place) word pos)
      (by rw [List.length_append, length_bytes, hbefore])
    rw [List.append_assoc, List.append_assoc] at hrest
    simp only [bytesFrom, jumpsFrom]
    cases hj : p.jump? pos with
    | none =>
      rw [bytes_of_jump?_eq_none hj _ (displacement place)]
      exact hrest
    | some j =>
      obtain ⟨head, hhead, hbytes⟩ := bytes_of_jump? word hj
      have hmem : j ∈ jumpsFrom pos (p :: ps) := by simp [jumpsFrom, hj]
      have hlength : j.place = (before ++ head).length := by
        rw [List.length_append, hbefore, hhead]
      have hpatch := Assembler.patch_append (before ++ head) (X86.imm32 (0 : Int32).toUInt32)
        (bytesFrom (fun _ _ => 0) word (pos + p.size pos) ps)
        (X86.imm32 (Assembler.displacement j (place j.label)).toUInt32) rfl
      rw [← hlength] at hpatch
      simp only [hbytes] at hrest ⊢
      simp only [Option.toList_some, List.singleton_append, Assembler.resolveJumps, hplace j hmem]
      simp only [List.append_assoc] at hpatch hrest ⊢
      rw [hpatch]
      have hrel : Assembler.displacement j (place j.label) =
          displacement place (j.place + 4) j.label := by
        rw [Assembler.displacement, displacement, Int.natCast_add]
        rfl
      rw [hrel]
      exact hrest

end Piece

namespace Session

/-- Addresses of labels that are bound are filled in. -/
theorem fillAddresses_ok (s : Session) (base : UInt64) (rel : Nat → Label → Int32)
    (place : Label → Nat) {pos : Nat} {ps : List Piece}
    (hplace : ∀ e ∈ Piece.sitesFrom pos ps, s.address base e.2 = .ok (base + (place e.2).toUInt64))
    {before : List UInt8} (hbefore : before.length = pos) :
    s.fillAddresses base (Piece.sitesFrom pos ps)
        (before ++ Piece.bytesFrom rel (fun _ => 0) pos ps).toArray =
      .ok (before ++ Piece.bytesFrom rel
        (fun l => (Value.ofAddress (base + (place l).toUInt64)).word) pos ps).toArray := by
  induction ps generalizing pos before with
  | nil => rfl
  | cons p ps ih =>
    set word : Label → UInt64 := fun l => (Value.ofAddress (base + (place l).toUInt64)).word
    have hrest := @ih (pos + p.size pos)
      (fun e he => hplace e (by rw [Piece.sitesFrom]; exact List.mem_append_right _ he))
      (before ++ p.bytes rel word pos) (by rw [List.length_append, Piece.length_bytes, hbefore])
    rw [List.append_assoc, List.append_assoc] at hrest
    simp only [Piece.bytesFrom, Piece.sitesFrom]
    cases he : p.site? pos with
    | none =>
      rw [Piece.bytes_of_site?_eq_none he _ word]
      exact hrest
    | some e =>
      obtain ⟨head, hhead, hbytes⟩ := Piece.bytes_of_site? rel he
      have hmem : e ∈ Piece.sitesFrom pos (p :: ps) := by simp [Piece.sitesFrom, he]
      have hlength : e.1 = (before ++ head).length := by
        rw [List.length_append, hbefore, hhead]
      have hpatch := Assembler.patch_append (before ++ head) (X86.imm64 0)
        (Piece.bytesFrom rel (fun _ => 0) (pos + p.size pos) ps) (X86.imm64 (word e.2)) rfl
      rw [← hlength] at hpatch
      simp only [hbytes] at hrest ⊢
      obtain ⟨at_, l⟩ := e
      simp only [Option.toList_some, List.singleton_append, fillAddresses, hplace _ hmem]
      simp only [List.append_assoc] at hpatch hrest ⊢
      change s.fillAddresses base _ (Assembler.patch _ at_ (X86.imm64 (word l))) = _
      rw [hpatch]
      exact hrest

end Session

/-! ## Fields -/

/-- A part of a buffer: its place and its length. -/
abbrev PatchedField := Nat × Nat

namespace PatchedField

def Apart (f g : PatchedField) : Prop := f.1 + f.2 ≤ g.1 ∨ g.1 + g.2 ≤ f.1

def Misses (i : Nat) (f : PatchedField) : Prop := i < f.1 ∨ f.1 + f.2 ≤ i

theorem Apart.symm {f g : PatchedField} (h : f.Apart g) : g.Apart f := Or.symm h

/-- Bytes from place `pos` on, in two versions that agree outside fields. -/
structure Same (pos : Nat) (fields : List PatchedField) (xs ys : List UInt8) : Prop where
  length : xs.length = ys.length
  bytes : ∀ i, (∀ f ∈ fields, Misses (pos + i) f) → xs[i]? = ys[i]?

namespace Same

variable {pos : Nat} {fields fields' : List PatchedField} {xs xs' ys ys' zs : List UInt8}

theorem refl (pos : Nat) (fields : List PatchedField) (xs : List UInt8) : Same pos fields xs xs :=
  ⟨rfl, fun _ _ => rfl⟩

theorem trans (h : Same pos fields xs ys) (h' : Same pos fields' ys zs) :
    Same pos (fields ++ fields') xs zs where
  length := h.length.trans h'.length
  bytes i hi := (h.bytes i fun f hf => hi f (List.mem_append_left _ hf)).trans
    (h'.bytes i fun f hf => hi f (List.mem_append_right _ hf))

theorem append (h : Same pos fields xs ys) (h' : Same (pos + xs.length) fields' xs' ys') :
    Same pos (fields ++ fields') (xs ++ xs') (ys ++ ys') where
  length := by rw [List.length_append, List.length_append, h.length, h'.length]
  bytes i hi := by
    rw [List.getElem?_append, List.getElem?_append, ← h.length]
    split
    · exact h.bytes i fun f hf => hi f (List.mem_append_left _ hf)
    · refine h'.bytes _ fun f hf => ?_
      rw [show pos + xs.length + (i - xs.length) = pos + i by omega]
      exact hi f (List.mem_append_right _ hf)

theorem of_head {head : List UInt8} {f : PatchedField} (hplace : f.1 = pos + head.length)
    (hxs : xs.length = f.2) (hys : ys.length = f.2) : Same pos [f] (head ++ xs) (head ++ ys) where
  length := by rw [List.length_append, List.length_append, hxs, hys]
  bytes i hi := by
    rw [List.getElem?_append, List.getElem?_append]
    split
    · rfl
    · have hmiss := hi f (List.mem_singleton_self f)
      simp only [Misses] at hmiss
      rw [List.getElem?_eq_none (by omega), List.getElem?_eq_none (by omega)]

end Same

end PatchedField

def X86.Jump.field (j : Jump) : PatchedField := (j.place, 4)

def Session.siteField (e : Nat × Label) : PatchedField := (e.1, 8)

namespace Piece

def field? (pos : Nat) (p : Piece) : Option PatchedField :=
  ((p.jump? pos).map Jump.field).or ((p.site? pos).map Session.siteField)

def fieldsFrom (pos : Nat) : List Piece → List PatchedField
  | [] => []
  | p :: rest => (p.field? pos).toList ++ fieldsFrom (pos + p.size pos) rest

theorem field?_end {pos : Nat} {p : Piece} {f : PatchedField} (h : p.field? pos = some f) :
    pos ≤ f.1 ∧ f.1 + f.2 = pos + p.size pos := by
  cases p with
  | jmp l | call l => cases h; exact ⟨by change pos ≤ pos + 5 - 4; omega, rfl⟩
  | jcc c l => cases h; exact ⟨by change pos ≤ pos + 6 - 4; omega, rfl⟩
  | address dst l => cases h; exact ⟨by change pos ≤ pos + 10 - 8; omega, rfl⟩
  | _ => cases h

theorem fieldsFrom_bounds {pos : Nat} {ps : List Piece} {f : PatchedField} (h : f ∈ fieldsFrom pos ps) :
    pos ≤ f.1 ∧ f.1 + f.2 ≤ endFrom pos ps := by
  induction ps generalizing pos with
  | nil => cases h
  | cons p ps ih =>
    rw [fieldsFrom, List.mem_append, Option.mem_toList] at h
    have hle := le_endFrom (pos + p.size pos) ps
    rw [endFrom]
    rcases h with h | h
    · have := field?_end h
      omega
    · have := ih h
      omega

theorem fieldsFrom_pairwise (pos : Nat) (ps : List Piece) :
    (fieldsFrom pos ps).Pairwise PatchedField.Apart := by
  induction ps generalizing pos with
  | nil => exact List.Pairwise.nil
  | cons p ps ih =>
    rw [fieldsFrom, List.pairwise_append]
    refine ⟨?_, ih _, fun f hf g hg => .inl ?_⟩
    · cases p.field? pos <;> simp
    · have hend := (field?_end (Option.mem_toList.1 hf)).2
      have := (fieldsFrom_bounds hg).1
      omega

theorem fieldsFrom_perm (pos : Nat) (ps : List Piece) :
    ((jumpsFrom pos ps).map Jump.field ++ (sitesFrom pos ps).map Session.siteField).Perm
      (fieldsFrom pos ps) := by
  induction ps generalizing pos with
  | nil => exact List.Perm.nil
  | cons p ps ih =>
    rw [jumpsFrom, sitesFrom, fieldsFrom]
    have hrest := ih (pos + p.size pos)
    cases p with
    | jmp | jcc | call => exact hrest.cons _
    | address dst l => exact List.perm_middle.trans (hrest.cons _)
    | instr | kept | bind | align => exact hrest

/-! ## What the fields hold -/

theorem jump_mem {pos : Nat} {before after : List Piece} {p : Piece} {j : Jump}
    (h : p.jump? (endFrom pos before) = some j) : j ∈ jumpsFrom pos (before ++ p :: after) := by
  rw [jumpsFrom_append, jumpsFrom, h]
  simp

theorem site_mem {pos : Nat} {before after : List Piece} {p : Piece} {e : Nat × Label}
    (h : p.site? (endFrom pos before) = some e) : e ∈ sitesFrom pos (before ++ p :: after) := by
  rw [sitesFrom_append, sitesFrom, h]
  simp

section

variable (rel rel' : Nat → Label → Int32) (word word' : Label → UInt64)

/-- What stands in finished code at the place of a jump. -/
theorem drop_jump {before after : List Piece} {p : Piece} {j : Jump}
    (h : p.jump? (endFrom 0 before) = some j) :
    ∃ rest, (bytesFrom rel word 0 (before ++ p :: after)).drop j.place =
      X86.imm32 (rel (j.place + 4) j.label).toUInt32 ++ rest := by
  obtain ⟨head, hplace, hbytes⟩ := bytes_of_jump? word h
  have hlength := length_bytesFrom rel word 0 before
  refine ⟨bytesFrom rel word (endFrom 0 before + p.size (endFrom 0 before)) after, ?_⟩
  rw [bytesFrom_append, bytesFrom, hbytes, List.append_assoc, ← List.append_assoc]
  refine List.drop_left' ?_
  rw [List.length_append, hplace]
  omega

theorem drop_site {before after : List Piece} {p : Piece} {e : Nat × Label}
    (h : p.site? (endFrom 0 before) = some e) :
    ∃ rest, (bytesFrom rel word 0 (before ++ p :: after)).drop e.1 =
      X86.imm64 (word e.2) ++ rest := by
  obtain ⟨head, hplace, hbytes⟩ := bytes_of_site? rel h
  have hlength := length_bytesFrom rel word 0 before
  refine ⟨bytesFrom rel word (endFrom 0 before + p.size (endFrom 0 before)) after, ?_⟩
  rw [bytesFrom_append, bytesFrom, hbytes, List.append_assoc, ← List.append_assoc]
  refine List.drop_left' ?_
  rw [List.length_append, hplace]
  omega

theorem bytesFrom_rel (pos : Nat) (ps : List Piece) :
    PatchedField.Same pos ((jumpsFrom pos ps).map Jump.field) (bytesFrom rel word pos ps)
      (bytesFrom rel' word pos ps) := by
  induction ps generalizing pos with
  | nil => exact PatchedField.Same.refl _ _ _
  | cons p ps ih =>
    rw [jumpsFrom, bytesFrom, bytesFrom, List.map_append]
    refine PatchedField.Same.append ?_ (by rw [length_bytes]; exact ih _)
    cases hj : p.jump? pos with
    | none =>
      rw [bytes_of_jump?_eq_none hj rel rel']
      exact PatchedField.Same.refl _ _ _
    | some j =>
      obtain ⟨head, hplace, hbytes⟩ := bytes_of_jump? word hj
      rw [hbytes, hbytes]
      exact PatchedField.Same.of_head hplace (X86.length_imm32 _) (X86.length_imm32 _)

theorem bytesFrom_word (pos : Nat) (ps : List Piece) :
    PatchedField.Same pos ((sitesFrom pos ps).map Session.siteField) (bytesFrom rel word pos ps)
      (bytesFrom rel word' pos ps) := by
  induction ps generalizing pos with
  | nil => exact PatchedField.Same.refl _ _ _
  | cons p ps ih =>
    rw [sitesFrom, bytesFrom, bytesFrom, List.map_append]
    refine PatchedField.Same.append ?_ (by rw [length_bytes]; exact ih _)
    cases he : p.site? pos with
    | none =>
      rw [bytes_of_site?_eq_none he word word']
      exact PatchedField.Same.refl _ _ _
    | some e =>
      obtain ⟨head, hplace, hbytes⟩ := bytes_of_site? rel he
      rw [hbytes, hbytes]
      exact PatchedField.Same.of_head hplace (X86.length_imm64 _) (X86.length_imm64 _)

end

end Piece

end RegisterJit
