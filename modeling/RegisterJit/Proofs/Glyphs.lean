import Mathlib.Data.List.TakeWhile
import Mathlib.Tactic.Common
import RegisterJit.Text.Blank

/-!
# Characters in context

What is read at a place of a text depends on the bytes of one character only. So the characters of a
part of a text that begins and ends between characters are those it has in the text, and a byte below
`0x80` separates the characters before it from those after it.

`readChar_some` is what reading a character amounts to, and `glyph_induction` the induction that goes with it: a
text is empty, or it begins with a character and goes on. `glyphs_append` says that a text and what follows it
have their characters one after the other, if the first ends between characters. White space is trimmed from
parts of a line, and words are separated by it, so `exists_first_field` and `exists_second_field` say what a
line begins with. `Quoting` reads the characters of a quoted text with these lemmas, and `Parsing` the words of
a line.
-/

namespace RegisterJit.Text

/-! ## One character -/

theorem readChar_of_lt {b : UInt8} (h : b < 0x80) (rest : Text) :
    readChar b rest = (some b.toNat, rest) := by
  unfold readChar
  rw [if_pos h]

theorem isContinuation_of_lt {b : UInt8} (h : b < 0x80) : isContinuation b = false := by
  have hmask (n : Fin 256) : n.val < 128 → n.val &&& 0xc0 ≠ 0x80 := by
    revert n
    decide +kernel
  rw [isContinuation, beq_eq_false_iff_ne]
  intro heq
  exact hmask ⟨b.toNat, b.toNat_lt⟩ h (congrArg UInt8.toNat heq)

/-- A well-formed character takes a number of continuing bytes, and is read alike whatever comes after
them. -/
theorem readChar_some {b : UInt8} {rest : Text} {v : Nat} (h : (readChar b rest).1 = some v) :
    ∃ x, rest = x ++ (readChar b rest).2 ∧ (∀ c ∈ x, isContinuation c = true) ∧
      ∀ z, readChar b (x ++ z) = (some v, z) := by
  unfold readChar at h ⊢
  split at h
  · rename_i hb
    refine ⟨[], by rw [if_pos hb]; rfl, by simp, fun z => ?_⟩
    rw [if_pos hb]
    exact congrArg (·, z) h
  rename_i hb
  simp only [if_neg hb]
  split at h
  · rename_i hb
    simp only [if_pos hb]
    split at h
    · rename_i c r
      split at h
      · rename_i hc
        refine ⟨[c], by simp [hc], by simpa using hc, fun z => ?_⟩
        rw [List.singleton_append]
        simp only [if_pos hc]
        exact congrArg (·, z) h
      · cases h
    · cases h
  rename_i hb
  simp only [if_neg hb]
  split at h
  · rename_i hb
    simp only [if_pos hb]
    split at h
    · rename_i c d r
      dsimp only at h ⊢
      split at h
      · rename_i hc
        refine ⟨[c, d], by rw [if_pos hc]; rfl, by simp [hc.1, hc.2.1], fun z => ?_⟩
        rw [List.cons_append, List.singleton_append]
        simp only [if_pos hc]
        exact congrArg (·, z) h
      · cases h
    · cases h
  rename_i hb
  simp only [if_neg hb]
  split at h
  · rename_i hb
    simp only [if_pos hb]
    split at h
    · rename_i c d e r
      dsimp only at h ⊢
      split at h
      · rename_i hc
        refine ⟨[c, d, e], by rw [if_pos hc]; rfl, by simp [hc.1, hc.2.1, hc.2.2.1], fun z => ?_⟩
        rw [List.cons_append, List.cons_append, List.singleton_append]
        simp only [if_pos hc]
        exact congrArg (·, z) h
      · cases h
    · cases h
  · cases h

theorem readChar_append {b : UInt8} {rest : Text} {v : Nat} (h : (readChar b rest).1 = some v)
    (more : Text) : readChar b (rest ++ more) = (some v, (readChar b rest).2 ++ more) := by
  obtain ⟨x, hx, -, hread⟩ := readChar_some h
  conv_lhs => rw [hx, List.append_assoc]
  exact hread _

theorem readChar_none {b : UInt8} {rest : Text} (h : (readChar b rest).1 = none) :
    readChar b rest = (none, rest) := by
  unfold readChar at h ⊢
  split at h
  · cases h
  rename_i hb
  simp only [if_neg hb]
  split at h
  · rename_i hb
    simp only [if_pos hb]
    split at h
    · split at h
      · cases h
      · simp only [if_neg ‹_›]
    · rfl
  rename_i hb
  simp only [if_neg hb]
  split at h
  · rename_i hb
    simp only [if_pos hb]
    split at h
    · dsimp only at h ⊢
      split at h
      · cases h
      · rw [if_neg ‹_›]
    · rfl
  rename_i hb
  simp only [if_neg hb]
  split at h
  · rename_i hb
    simp only [if_pos hb]
    split at h
    · dsimp only at h ⊢
      split at h
      · cases h
      · rw [if_neg ‹_›]
    · rfl
  · rename_i hb
    rw [if_neg hb]

theorem take_widthOf_some {b : UInt8} {x : Text} {v : Nat}
    (h : ∀ z, readChar b (x ++ z) = (some v, z)) (z : Text) :
    (b :: (x ++ z)).take (widthOf (some v)) = b :: x := by
  have hwhole := take_widthOf_append_readChar b (x ++ z)
  rw [h, ← List.cons_append] at hwhole
  exact List.append_cancel_right hwhole

/-! ## Parts of a text -/

theorem glyphs_cons (b : UInt8) (rest : Text) :
    glyphs (b :: rest) = ⟨(readChar b rest).1, (b :: rest).take (widthOf (readChar b rest).1)⟩ ::
      glyphs (readChar b rest).2 := by rw [glyphs]

theorem glyphs_some {b : UInt8} {x : Text} {v : Nat}
    (h : ∀ z, readChar b (x ++ z) = (some v, z)) (z : Text) :
    glyphs (b :: (x ++ z)) = ⟨some v, b :: x⟩ :: glyphs z := by
  rw [glyphs_cons, h, take_widthOf_some h]

theorem glyphs_none {b : UInt8} {rest : Text} (h : (readChar b rest).1 = none) :
    glyphs (b :: rest) = ⟨none, [b]⟩ :: glyphs rest := by
  rw [glyphs_cons, readChar_none h]
  rfl

theorem glyphs_cons_of_lt {b : UInt8} (h : b < 0x80) (rest : Text) :
    glyphs (b :: rest) = ⟨some b.toNat, [b]⟩ :: glyphs rest :=
  glyphs_some (x := []) (readChar_of_lt h) rest

/-- Induction on a text, character by character. -/
theorem glyph_induction {P : Text → Prop} (empty : P [])
    (formed : ∀ b x v, (∀ z, readChar b (x ++ z) = (some v, z)) →
      (∀ c ∈ x, isContinuation c = true) → ∀ z, P z → P (b :: (x ++ z)))
    (broken : ∀ b z, (readChar b z).1 = none → P z → P (b :: z)) (t : Text) : P t := by
  induction hn : t.length using Nat.strongRecOn generalizing t with
  | ind n ih =>
    obtain _ | ⟨b, rest⟩ := t
    · exact empty
    have hlen := length_readChar_le b rest
    have hrest : P (readChar b rest).2 := by
      refine ih _ ?_ _ rfl
      rw [List.length_cons] at hn
      omega
    cases hread : (readChar b rest).1 with
    | none =>
      rw [readChar_none hread] at hrest
      exact broken b rest hread hrest
    | some v =>
      obtain ⟨x, hx, hcont, hall⟩ := readChar_some hread
      rw [hx]
      exact formed b x v hall hcont _ hrest

@[simp] theorem glyphs_nil : glyphs [] = [] := by rw [glyphs]

@[simp] theorem ofGlyphs_nil : ofGlyphs [] = [] := rfl

@[simp] theorem ofGlyphs_glyphs (t : Text) : ofGlyphs (glyphs t) = t := flatMap_bytes_glyphs t

@[simp] theorem ofGlyphs_append (gs hs : List Glyph) :
    ofGlyphs (gs ++ hs) = ofGlyphs gs ++ ofGlyphs hs := List.flatMap_append

@[simp] theorem ofGlyphs_cons (g : Glyph) (gs : List Glyph) :
    ofGlyphs (g :: gs) = g.bytes ++ ofGlyphs gs := List.flatMap_cons

theorem glyphs_ne_nil {t : Text} (h : t ≠ []) : glyphs t ≠ [] := by
  intro hnil
  rw [← ofGlyphs_glyphs t, hnil] at h
  exact h rfl

theorem glyphs_of_prefix {t : Text} {gs hs : List Glyph} (h : glyphs t = gs ++ hs) :
    glyphs (ofGlyphs gs) = gs := by
  induction t using glyph_induction generalizing gs with
  | empty =>
    rw [glyphs_nil] at h
    rw [(List.append_eq_nil_iff.1 h.symm).1, ofGlyphs_nil, glyphs_nil]
  | formed b x v hall _ z ih =>
    obtain _ | ⟨g, gs⟩ := gs
    · rw [ofGlyphs_nil, glyphs_nil]
    rw [glyphs_some hall, List.cons_append, List.cons.injEq] at h
    rw [← h.1, ofGlyphs_cons, List.cons_append, glyphs_some hall, ih h.2]
  | broken b z hnone ih =>
    obtain _ | ⟨g, gs⟩ := gs
    · rw [ofGlyphs_nil, glyphs_nil]
    rw [glyphs_none hnone, List.cons_append, List.cons.injEq] at h
    -- What starts no character in the text starts none in its part.
    have hpart : (readChar b (ofGlyphs gs)).1 = none := by
      by_contra hsome
      obtain ⟨v, hv⟩ := Option.ne_none_iff_exists'.1 hsome
      have happend := readChar_append hv (ofGlyphs hs)
      rw [← ofGlyphs_append, ← h.2, ofGlyphs_glyphs] at happend
      rw [happend] at hnone
      cases hnone
    rw [← h.1, ofGlyphs_cons, List.singleton_append, glyphs_none hpart, ih h.2]

theorem glyphs_of_middle {t : Text} {gs hs ks : List Glyph} (h : glyphs t = gs ++ (hs ++ ks)) :
    glyphs (ofGlyphs hs) = hs := by
  induction t using glyph_induction generalizing gs with
  | empty =>
    rw [glyphs_nil] at h
    have := List.append_eq_nil_iff.1 (List.append_eq_nil_iff.1 h.symm).2
    rw [this.1, ofGlyphs_nil, glyphs_nil]
  | formed b x v hall _ z ih =>
    obtain _ | ⟨g, gs⟩ := gs
    · exact glyphs_of_prefix h
    · rw [glyphs_some hall, List.cons_append, List.cons.injEq] at h
      exact ih h.2
  | broken b z hnone ih =>
    obtain _ | ⟨g, gs⟩ := gs
    · exact glyphs_of_prefix h
    · rw [glyphs_none hnone, List.cons_append, List.cons.injEq] at h
      exact ih h.2

/-- Before the end of a text or a byte below `0x80` there is an end of a character. -/
theorem glyphs_append {rest : Text} (h : ∀ b ∈ rest.head?, b < 0x80) (t : Text) :
    glyphs (t ++ rest) = glyphs t ++ glyphs rest := by
  induction t using glyph_induction with
  | empty => rw [glyphs_nil, List.nil_append, List.nil_append]
  | formed b x v hall _ z ih =>
    rw [List.cons_append, List.append_assoc, glyphs_some hall, glyphs_some hall, ih, List.cons_append]
  | broken b z hbroken ih =>
    have hnone : (readChar b (z ++ rest)).1 = none := by
      by_contra hsome
      obtain ⟨v, hv⟩ := Option.ne_none_iff_exists'.1 hsome
      obtain ⟨x, hx, hcont, hall⟩ := readChar_some hv
      rcases List.append_eq_append_iff.1 hx with ⟨y, rfl, hy⟩ | ⟨y, rfl, -⟩
      · -- The byte after the text would continue its last character.
        obtain _ | ⟨c, y⟩ := y
        · rw [List.append_nil] at hall
          have hwhole := hall []
          rw [List.append_nil] at hwhole
          rw [hwhole] at hbroken
          cases hbroken
        · have hlt : c < 0x80 := h c (by rw [hy]; rfl)
          exact absurd (hcont c (by simp)) (by rw [isContinuation_of_lt hlt]; simp)
      · rw [hall] at hbroken
        cases hbroken
    rw [List.cons_append, glyphs_none hbroken, glyphs_none hnone, ih, List.cons_append]

theorem mem_glyphs_of_lt {t : Text} {b : UInt8} (hb : b ∈ t) (h : b < 0x80) :
    ⟨some b.toNat, [b]⟩ ∈ glyphs t := by
  obtain ⟨p, q, rfl⟩ := List.append_of_mem hb
  rw [glyphs_append (by simpa using h), glyphs_cons_of_lt h]
  simp

theorem bytes_of_mem_glyphs {t : Text} {g : Glyph} (h : g ∈ glyphs t) :
    (∃ b : UInt8, g = ⟨some b.toNat, [b]⟩) ∨ ∀ b ∈ g.bytes, 0x80 ≤ b := by
  induction t using glyph_induction with
  | empty => simp at h
  | formed b x v hall hcont z ih =>
    rw [glyphs_some hall, List.mem_cons] at h
    rcases h with rfl | h
    · by_cases hb : b < 0x80
      · have hread := hall []
        rw [readChar_of_lt hb] at hread
        simp only [Prod.mk.injEq, Option.some.injEq, List.append_nil] at hread
        rw [← hread.1, hread.2]
        exact .inl ⟨b, rfl⟩
      · refine .inr (List.forall_mem_cons.2 ⟨UInt8.not_lt.1 hb, fun c hc => ?_⟩)
        by_contra hlt
        exact absurd (hcont c hc) (by rw [isContinuation_of_lt (UInt8.not_le.1 hlt)]; simp)
    · exact ih h
  | broken b z hnone ih =>
    rw [glyphs_none hnone, List.mem_cons] at h
    rcases h with rfl | h
    · refine .inr (List.forall_mem_singleton.2 (UInt8.not_lt.1 fun hb => ?_))
      rw [readChar_of_lt hb] at hnone
      cases hnone
    · exact ih h

/-! ## White space -/

theorem isBlank_of_mem_bytes {t : Text} {g : Glyph} (h : g ∈ glyphs t) (hblank : g.isBlank = true)
    {b : UInt8} (hb : b ∈ g.bytes) : isBlank b.toNat = true ∨ 0x80 ≤ b := by
  rcases bytes_of_mem_glyphs h with ⟨c, rfl⟩ | habove
  · rw [List.mem_singleton.1 hb]
    exact .inl hblank
  · exact .inr (habove b hb)

theorem not_mem_ofGlyphs_blank {t : Text} {gs : List Glyph}
    (h : ∀ g ∈ gs, g ∈ glyphs t ∧ g.isBlank = true) {b : UInt8} (hlt : b < 0x80)
    (hb : isBlank b.toNat = false) : b ∉ ofGlyphs gs := by
  intro hmem
  obtain ⟨g, hg, hmem⟩ := List.mem_flatMap.1 hmem
  rcases isBlank_of_mem_bytes (h g hg).1 (h g hg).2 hmem with hblank | hle
  · rw [hb] at hblank
    cases hblank
  · exact absurd hlt (UInt8.not_lt.2 hle)

/-- A text that is not empty and has no white space. -/
structure IsWord (t : Text) : Prop where
  ne_nil : t ≠ []
  solid : ∀ g ∈ glyphs t, g.isBlank = false

/-- A text that begins and ends with characters other than white space. -/
structure IsTrimmed (t : Text) : Prop where
  first : ∀ g ∈ (glyphs t).head?, g.isBlank = false
  last : ∀ g ∈ (glyphs t).getLast?, g.isBlank = false

theorem IsWord.isTrimmed {t : Text} (h : IsWord t) : IsTrimmed t where
  first g hg := h.solid g (List.mem_of_mem_head? hg)
  last g hg := h.solid g (List.mem_of_mem_getLast? hg)

theorem dropWhile_eq_self {α : Type} {f : α → Bool} {l : List α}
    (h : ∀ a ∈ l.head?, f a = false) : l.dropWhile f = l := by
  cases l with
  | nil => rfl
  | cons a l => rw [List.dropWhile_cons_of_neg (by simp [h a rfl])]

theorem IsTrimmed.trim_eq {t : Text} (h : IsTrimmed t) : trim t = t := by
  have hlast : ∀ g ∈ (glyphs t).reverse.head?, g.isBlank = false := by
    rw [List.head?_reverse]
    exact h.last
  rw [trim, trimGlyphs, dropWhile_eq_self h.first, dropWhile_eq_self hlast, List.reverse_reverse,
    ofGlyphs_glyphs]

theorem trim_cons_blank {b : UInt8} (hlt : b < 0x80) (hb : isBlank b.toNat = true) (t : Text) :
    trim (b :: t) = trim t := by
  rw [trim, trimGlyphs, glyphs_cons_of_lt hlt,
    List.dropWhile_cons_of_pos (by exact hb)]
  rfl

theorem trim_concat_blank {b : UInt8} (hlt : b < 0x80) (hb : isBlank b.toNat = true) (t : Text) :
    trim (t ++ [b]) = trim t := by
  have hg : Glyph.isBlank ⟨some b.toNat, [b]⟩ = true := hb
  rw [trim, trimGlyphs, trim, trimGlyphs, glyphs_append (by simpa using hlt), glyphs_cons_of_lt hlt, glyphs_nil,
    List.dropWhile_append]
  by_cases hall : ((glyphs t).dropWhile Glyph.isBlank).isEmpty = true
  · rw [if_pos hall, List.dropWhile_cons_of_pos hg, List.isEmpty_iff.1 hall, List.dropWhile_nil]
  · rw [if_neg hall, List.reverse_append, List.reverse_singleton, List.singleton_append,
      List.dropWhile_cons_of_pos hg]

theorem trim_spaces (n : Nat) (t : Text) : trim (List.replicate n 0x20 ++ t) = trim t := by
  induction n with
  | zero => rfl
  | succ n ih => rw [List.replicate_succ, List.cons_append, trim_cons_blank (by decide) rfl, ih]

theorem exists_trim (t : Text) :
    ∃ gs hs ks, glyphs t = gs ++ (hs ++ ks) ∧ trim t = ofGlyphs hs ∧ glyphs (trim t) = hs ∧
      (∀ g ∈ gs ++ ks, g.isBlank = true) ∧ IsTrimmed (trim t) := by
  let rest := (glyphs t).dropWhile Glyph.isBlank
  let kept := (rest.reverse.dropWhile Glyph.isBlank).reverse
  have hrest : glyphs t = (glyphs t).takeWhile Glyph.isBlank ++ rest :=
    (List.takeWhile_append_dropWhile ..).symm
  have hkept : rest = kept ++ (rest.reverse.takeWhile Glyph.isBlank).reverse := by
    rw [← List.reverse_append, List.takeWhile_append_dropWhile, List.reverse_reverse]
  have heq : glyphs t = _ ++ (kept ++ (rest.reverse.takeWhile Glyph.isBlank).reverse) :=
    hrest.trans (congrArg _ hkept)
  have hglyphs : glyphs (trim t) = kept := glyphs_of_middle heq
  refine ⟨_, kept, _, heq, rfl, hglyphs, fun g hg => ?_, ?_, ?_⟩
  · rcases List.mem_append.1 hg with hg | hg
    · exact List.mem_takeWhile_imp hg
    · exact List.mem_takeWhile_imp (List.mem_reverse.1 hg)
  · rw [hglyphs]
    intro g hg
    have hhead : rest.head? = some g := by
      rw [hkept, List.head?_append, hg]
      rfl
    have := List.head?_dropWhile_not Glyph.isBlank (glyphs t)
    rw [show (glyphs t).dropWhile Glyph.isBlank = rest from rfl, hhead] at this
    simpa using this
  · rw [hglyphs]
    intro g hg
    rw [List.getLast?_reverse] at hg
    have := List.head?_dropWhile_not Glyph.isBlank rest.reverse
    rw [hg] at this
    simpa using this

/-! ## Words -/

theorem fieldsFrom_solid {gs : List Glyph} (h : ∀ g ∈ gs, g.isBlank = false) (word : Text)
    (rest : List Glyph) : fieldsFrom word (gs ++ rest) = fieldsFrom (word ++ ofGlyphs gs) rest := by
  induction gs generalizing word with
  | nil => rw [List.nil_append, ofGlyphs_nil, List.append_nil]
  | cons g gs ih =>
    rw [List.cons_append, fieldsFrom, if_neg (by simp [h g (List.mem_cons_self ..)]),
      ih fun g' hg' => h g' (List.mem_cons_of_mem _ hg'), ofGlyphs_cons, List.append_assoc]

theorem isEmpty_eq_false {t : Text} (h : t ≠ []) : t.isEmpty = false := by
  cases t <;> simp_all

theorem fields_word_cons {w : Text} (h : IsWord w) {b : UInt8} (hb : b = 0x20 ∨ b = 0x09)
    (rest : Text) : fields (w ++ b :: rest) = w :: fields rest := by
  have hlt : b < 0x80 := by rcases hb with rfl | rfl <;> decide
  have hblank : isBlank b.toNat = true := by rcases hb with rfl | rfl <;> rfl
  rw [fields, glyphs_append (by simpa using hlt), glyphs_cons_of_lt hlt, fieldsFrom_solid h.solid,
    ofGlyphs_glyphs, List.nil_append, fieldsFrom, if_pos (by exact hblank),
    if_neg (by simp [isEmpty_eq_false h.ne_nil])]
  rfl

theorem fields_word {w : Text} (h : IsWord w) : fields w = [w] := by
  have hsolid := fieldsFrom_solid h.solid [] []
  rw [List.append_nil, ofGlyphs_glyphs, List.nil_append] at hsolid
  rw [fields, hsolid, fieldsFrom, if_neg (by simp [isEmpty_eq_false h.ne_nil])]

/-- The first word of a sequence of characters: white space before it, its characters, and what is
left for the other words. -/
theorem exists_first_field {gs : List Glyph} {w : Text} {ws : List Text}
    (hbytes : ∀ g ∈ gs, g.bytes ≠ []) (h : fieldsFrom [] gs = w :: ws) :
    ∃ bs hs ks, gs = bs ++ (hs ++ ks) ∧ (∀ g ∈ bs, g.isBlank = true) ∧
      (∀ g ∈ hs, g.isBlank = false) ∧ hs ≠ [] ∧ w = ofGlyphs hs ∧ ws = fieldsFrom [] ks := by
  -- The characters of the word that were passed already are `done`.
  have hword (gs : List Glyph) (word : Text) (hne : word ≠ []) (w : Text) (ws : List Text)
      (h : fieldsFrom word gs = w :: ws) : ∃ hs ks, gs = hs ++ ks ∧
        (∀ g ∈ hs, g.isBlank = false) ∧ w = word ++ ofGlyphs hs ∧ ws = fieldsFrom [] ks := by
    induction gs generalizing word with
    | nil =>
      rw [fieldsFrom, if_neg (by simp [isEmpty_eq_false hne]), List.cons.injEq] at h
      exact ⟨[], [], rfl, by simp, by simp [h.1], by rw [← h.2]; rfl⟩
    | cons g gs ih =>
      rw [fieldsFrom] at h
      split at h
      · rename_i hg
        rw [if_neg (by simp [isEmpty_eq_false hne]), List.cons.injEq] at h
        refine ⟨[], g :: gs, rfl, by simp, by simp [h.1], ?_⟩
        rw [← h.2, fieldsFrom, if_pos hg]
        rfl
      · rename_i hg
        obtain ⟨hs, ks, rfl, hsolid, rfl, hrest⟩ := ih (word ++ g.bytes) (by simp [hne]) h
        exact ⟨g :: hs, ks, rfl, List.forall_mem_cons.2 ⟨by simpa using hg, hsolid⟩, by simp, hrest⟩
  induction gs with
  | nil => simp [fieldsFrom] at h
  | cons g gs ih =>
    rw [fieldsFrom] at h
    split at h
    · rename_i hg
      obtain ⟨bs, hs, ks, rfl, hblank, hrest⟩ :=
        ih (fun g' hg' => hbytes g' (List.mem_cons_of_mem _ hg')) h
      exact ⟨g :: bs, hs, ks, rfl, List.forall_mem_cons.2 ⟨hg, hblank⟩, hrest⟩
    · rename_i hg
      rw [List.nil_append] at h
      obtain ⟨hs, ks, rfl, hsolid, rfl, hrest⟩ :=
        hword gs g.bytes (hbytes g (List.mem_cons_self ..)) w ws h
      exact ⟨[], g :: hs, ks, rfl, by simp,
        List.forall_mem_cons.2 ⟨by simpa using hg, hsolid⟩, by simp, by simp, hrest⟩

theorem bytes_ne_nil {t : Text} {g : Glyph} (h : g ∈ glyphs t) : g.bytes ≠ [] := by
  induction t using glyph_induction with
  | empty => simp at h
  | formed b x v hall _ z ih =>
    rw [glyphs_some hall, List.mem_cons] at h
    rcases h with rfl | h
    · simp
    · exact ih h
  | broken b z hnone ih =>
    rw [glyphs_none hnone, List.mem_cons] at h
    rcases h with rfl | h
    · simp
    · exact ih h

theorem ofGlyphs_ne_nil {t : Text} {gs hs ks : List Glyph} (h : glyphs t = gs ++ (hs ++ ks))
    (hne : hs ≠ []) : ofGlyphs hs ≠ [] := by
  obtain ⟨g, hs, rfl⟩ := List.exists_cons_of_ne_nil hne
  have hg : g ∈ glyphs t := by rw [h]; simp
  simp [bytes_ne_nil hg]

theorem isWord_of_mem_fields {t w : Text} (h : w ∈ fields t) : IsWord w := by
  have hall (ws : List Text) (gs ks : List Glyph) (hks : glyphs t = gs ++ ks)
      (hws : fieldsFrom [] ks = ws) : ∀ w ∈ ws, IsWord w := by
    induction ws generalizing gs ks with
    | nil => simp
    | cons w ws ih =>
      obtain ⟨bs, hs, rest, rfl, -, hsolid, hne, rfl, hrest⟩ := exists_first_field
        (fun g hg => bytes_ne_nil (t := t) (by rw [hks]; exact List.mem_append_right _ hg)) hws
      have hinfix : glyphs t = (gs ++ bs) ++ (hs ++ rest) := by rw [hks, List.append_assoc]
      refine List.forall_mem_cons.2 ⟨⟨ofGlyphs_ne_nil hinfix hne, ?_⟩,
        ih (gs ++ bs ++ hs) rest (by simp [hks]) hrest.symm⟩
      rw [glyphs_of_middle hinfix]
      exact hsolid
  exact hall _ [] _ rfl rfl w h

/-- Where the second word of a text stands: after white space, the first word and more white space. -/
theorem exists_second_field {t w v : Text} {ws : List Text} (h : fields t = w :: v :: ws) :
    ∃ bs cs : List Glyph, ∃ rest : Text, t = ofGlyphs bs ++ (w ++ (ofGlyphs cs ++ (v ++ rest))) ∧
      ∀ g ∈ bs ++ cs, g ∈ glyphs t ∧ g.isBlank = true := by
  obtain ⟨bs, hs, ks, hgs, hbs, -, -, rfl, hrest⟩ :=
    exists_first_field (fun g hg => bytes_ne_nil hg) h
  have hsub (g : Glyph) (hg : g ∈ ks) : g ∈ glyphs t := by rw [hgs]; simp [hg]
  obtain ⟨cs, hs', ks', rfl, hcs, -, -, rfl, -⟩ :=
    exists_first_field (fun g hg => bytes_ne_nil (hsub g hg)) hrest.symm
  refine ⟨bs, cs, ofGlyphs ks', ?_, fun g hg => ?_⟩
  · rw [← ofGlyphs_glyphs t, hgs]
    simp
  · rcases List.mem_append.1 hg with hg | hg
    · exact ⟨by rw [hgs]; simp [hg], hbs g hg⟩
    · exact ⟨hsub g (by simp [hg]), hcs g hg⟩

end RegisterJit.Text
