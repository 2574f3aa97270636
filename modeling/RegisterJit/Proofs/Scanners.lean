import RegisterJit.Bytecode.Parser
import RegisterJit.Proofs.Lexemes

/-!
# Lines read by their bytes

Comments and operands are found by going through a line byte by byte, with a flag for being inside quotes. Going
by index never leaves the line and comes to what the recursion over its bytes comes to. Operands fail to be split
just if the line ends inside quotes, and what is written with its quotes closed is read back as it was written.

`scanComment` and `scanOperands` go by index, and an access outside the line would be a fault. They are compared
with the recursions of the model by induction on the rest of the line, and `gather` and `continued` describe the
operand that is being collected. `Guarded` is a text that stays inside quotes, `Settled` one whose quotes are
closed, and `EndsQuoted` one that is cut off inside; these three decide how a line ends. `quotes_respected` says
that written operands, quoted or plain, are split where they were joined and that a comment after them is
removed.
-/

namespace RegisterJit.Text

variable {t : Text} {i : Nat} {b : UInt8}

theorem getElem?_ne_none (hi : i < t.length) : t[i]? ≠ none := by
  intro h
  exact absurd (List.getElem?_eq_none_iff.1 h) (Nat.not_le.2 hi)

theorem drop_eq_cons (h : t[i]? = some b) : t.drop i = b :: t.drop (i + 1) := by
  obtain ⟨hi, rfl⟩ := List.getElem?_eq_some_iff.1 h
  exact List.drop_eq_getElem_cons hi

theorem take_succ_eq (h : t[i]? = some b) : t.take (i + 1) = t.take i ++ [b] := by
  rw [List.take_add_one, h]
  rfl

end RegisterJit.Text

namespace RegisterJit.Listing

open Text (quoteMark backslash IsEscaped IsWord drop_eq_cons take_succ_eq getElem?_ne_none)

/-! ## Going by index -/

/-- The line up to its comment, read from an index on; nothing if a byte is asked for that is not there. -/
def scanComment (source : Text) (quoted : Bool) (i : Nat) : Option Text :=
  if i < source.length then
    match source[i]? with
    | none => none
    | some b =>
      if b = backslash then scanComment source quoted (i + 1 + quoted.toNat)
      else if b = quoteMark then scanComment source (!quoted) (i + 1)
      else if (b = 0x3b ∨ b = 0x23) ∧ quoted = false then some (source.take i)
      else scanComment source quoted (i + 1)
  else some source
termination_by source.length - i

/-- The operands of a line, read from an index on, after those in `done` and the bytes in `current`; nothing if a
byte is asked for that is not there. -/
def scanOperands (source : Text) (quoted : Bool) (current : Text) (done : List Text) (i : Nat) :
    Option (Option (List Text)) :=
  if i < source.length then
    match source[i]? with
    | none => none
    | some b =>
      if b = backslash ∧ quoted = true ∧ i + 1 < source.length then
        match source[i + 1]? with
        | none => none
        | some c => scanOperands source quoted (current ++ [b, c]) done (i + 2)
      else if b = quoteMark then scanOperands source (!quoted) (current ++ [b]) done (i + 1)
      else if b = 0x2c ∧ quoted = false then scanOperands source quoted [] (done ++ [Text.trim current]) (i + 1)
      else scanOperands source quoted (current ++ [b]) done (i + 1)
  else if quoted then some none
  else
    let last := Text.trim current
    some (some (if last ≠ [] ∨ done ≠ [] then done ++ [last] else done))
termination_by source.length - i

/-! ### One byte of the recursion -/

section

variable {b c : UInt8} {quoted : Bool} (rest : Text)

theorem beforeComment_protected : beforeComment true (backslash :: c :: rest) =
    backslash :: c :: beforeComment true rest := by
  simp [beforeComment]

theorem beforeComment_mark : beforeComment quoted (quoteMark :: rest) =
    quoteMark :: beforeComment (!quoted) rest := by
  rw [beforeComment.eq_def]
  simp [show (quoteMark == backslash) = false by decide]

theorem beforeComment_start (hb : b = 0x3b ∨ b = 0x23) : beforeComment false (b :: rest) = [] := by
  rw [beforeComment.eq_def]
  rcases hb with rfl | rfl <;> simp [quoteMark]

theorem beforeComment_other (hescape : ¬ (b = backslash ∧ quoted = true)) (hmark : b ≠ quoteMark)
    (hstart : ¬ ((b = 0x3b ∨ b = 0x23) ∧ quoted = false)) :
    beforeComment quoted (b :: rest) = b :: beforeComment quoted rest := by
  rw [beforeComment.eq_def]
  cases quoted <;> simp_all

theorem pieces_protected : pieces true (backslash :: c :: rest) =
    (extendFirst [backslash, c] (pieces true rest).1, (pieces true rest).2) := by
  rw [pieces.eq_def]
  simp

theorem pieces_mark : pieces quoted (quoteMark :: rest) =
    (extendFirst [quoteMark] (pieces (!quoted) rest).1, (pieces (!quoted) rest).2) := by
  rw [pieces.eq_def]
  simp [show (quoteMark == backslash) = false by decide]

theorem pieces_comma : pieces false (0x2c :: rest) = ([] :: (pieces false rest).1, (pieces false rest).2) := by
  rw [pieces.eq_def]
  simp [quoteMark]

theorem pieces_other (hescape : ¬ (b = backslash ∧ quoted = true ∧ rest ≠ [])) (hmark : b ≠ quoteMark)
    (hcomma : ¬ (b = 0x2c ∧ quoted = false)) :
    pieces quoted (b :: rest) = (extendFirst [b] (pieces quoted rest).1, (pieces quoted rest).2) := by
  rw [pieces.eq_def]
  cases quoted with
  | false => simp_all
  | true =>
    cases rest with
    | nil => simp_all [pieces, extendFirst]
    | cons c rest => simp_all

end

/-! ### Both ways agree -/

theorem scanComment_eq (source : Text) (quoted : Bool) (i : Nat) :
    scanComment source quoted i = some (source.take i ++ beforeComment quoted (source.drop i)) := by
  induction quoted, i using scanComment.induct source with
  | case1 quoted i hi hnone => exact absurd hnone (getElem?_ne_none hi)
  | case2 quoted i hi hb ih =>
    rw [scanComment, if_pos hi, hb, drop_eq_cons hb]
    dsimp only
    rw [if_pos rfl, ih]
    cases quoted with
    | false =>
      rw [Bool.toNat_false, Nat.add_zero, take_succ_eq hb, List.append_assoc, List.singleton_append,
        beforeComment_other _ (by simp) (by decide) (by decide)]
    | true =>
      -- Inside quotes the byte after it is passed, too, if there is one.
      rw [Bool.toNat_true]
      cases hc : source[i + 1]? with
      | none =>
        have hend : source.length ≤ i + 1 := List.getElem?_eq_none_iff.1 hc
        rw [List.drop_eq_nil_of_le hend, List.drop_eq_nil_of_le (Nat.le_succ_of_le hend),
          List.take_of_length_le (Nat.le_succ_of_le hend), beforeComment, List.append_nil]
        have hpassed := take_succ_eq hb
        rw [List.take_of_length_le hend] at hpassed
        exact congrArg some hpassed
      | some c =>
        rw [drop_eq_cons hc, take_succ_eq hc, take_succ_eq hb, beforeComment_protected, List.append_assoc,
          List.append_assoc]
        rfl
  | case3 quoted i hi hb hne ih =>
    rw [scanComment, if_pos hi, hb, drop_eq_cons hb]
    dsimp only
    rw [if_neg hne, if_pos rfl, ih, take_succ_eq hb, beforeComment_mark, List.append_assoc]
    rfl
  | case4 quoted i hi b hb hescape hmark hstart =>
    rw [scanComment, if_pos hi, hb, drop_eq_cons hb]
    dsimp only
    rw [if_neg hescape, if_neg hmark, if_pos hstart, hstart.2, beforeComment_start _ hstart.1, List.append_nil]
  | case5 quoted i hi b hb hescape hmark hstart ih =>
    rw [scanComment, if_pos hi, hb, drop_eq_cons hb]
    dsimp only
    rw [if_neg hescape, if_neg hmark, if_neg hstart, ih, take_succ_eq hb,
      beforeComment_other _ (fun h => hescape h.1) hmark hstart, List.append_assoc]
    rfl
  | case6 quoted i hi =>
    rw [scanComment, if_neg hi, List.take_of_length_le (Nat.not_lt.1 hi), List.drop_eq_nil_of_le (Nat.not_lt.1 hi),
      beforeComment, List.append_nil]

/-- The operands that raw pieces come to after others; nothing if quotes are open at the end. -/
def gather (done : List Text) (raw : List Text × Bool) : Option (List Text) :=
  if raw.2 then none
  else if done ++ raw.1.map Text.trim = [[]] then some []
  else some (done ++ raw.1.map Text.trim)

/-- Pieces of which the first goes on with bytes that were read before. -/
def continued (current : Text) (raw : List Text × Bool) : List Text × Bool := (extendFirst current raw.1, raw.2)

theorem continued_append (t u : Text) (raw : List Text × Bool) :
    continued (t ++ u) raw = continued t (continued u raw) := by
  rw [continued, continued, continued, extendFirst_append]

theorem continued_nil (quoted : Bool) (t : Text) : continued [] (pieces quoted t) = pieces quoted t := by
  obtain ⟨p, ps, hp⟩ := List.exists_cons_of_ne_nil (pieces_ne_nil quoted t)
  rw [continued, hp, extendFirst, List.nil_append, ← hp]

theorem gather_comma (done : List Text) (current : Text) (raw : List Text × Bool) :
    gather done (continued current ([] :: raw.1, raw.2)) = gather (done ++ [Text.trim current]) raw := by
  simp [gather, continued, extendFirst]

theorem scanOperands_eq (source : Text) (quoted : Bool) (current : Text) (done : List Text) (i : Nat) :
    scanOperands source quoted current done i =
      some (gather done (continued current (pieces quoted (source.drop i)))) := by
  induction quoted, current, done, i using scanOperands.induct source with
  | case1 quoted current done i hi hnone => exact absurd hnone (getElem?_ne_none hi)
  | case2 quoted current done i hi b hb hescape hnone => exact absurd hnone (getElem?_ne_none hescape.2.2)
  | case3 quoted current done i hi b hb hescape c hc ih =>
    rw [scanOperands, if_pos hi, hb, drop_eq_cons hb, drop_eq_cons hc]
    dsimp only
    rw [if_pos hescape, hc]
    dsimp only
    rw [ih, hescape.1, hescape.2.1, pieces_protected, continued_append]
    rfl
  | case4 quoted current done i hi hb hescape ih =>
    rw [scanOperands, if_pos hi, hb, drop_eq_cons hb]
    dsimp only
    rw [if_neg hescape, if_pos rfl, ih, pieces_mark, continued_append]
    rfl
  | case5 quoted current done i hi b hb hescape hmark hcomma ih =>
    rw [scanOperands, if_pos hi, hb, drop_eq_cons hb]
    dsimp only
    rw [if_neg hescape, if_neg hmark, if_pos hcomma, ih, hcomma.1, hcomma.2, pieces_comma, gather_comma,
      continued_nil]
  | case6 quoted current done i hi b hb hescape hmark hcomma ih =>
    have hlast : ¬ (b = backslash ∧ quoted = true ∧ source.drop (i + 1) ≠ []) := by
      intro h
      apply hescape
      refine ⟨h.1, h.2.1, ?_⟩
      by_contra hend
      exact h.2.2 (List.drop_eq_nil_of_le (Nat.not_lt.1 hend))
    rw [scanOperands, if_pos hi, hb, drop_eq_cons hb]
    dsimp only
    rw [if_neg hescape, if_neg hmark, if_neg hcomma, ih, pieces_other _ hlast hmark hcomma, continued_append]
    rfl
  | case7 current done i hi =>
    rw [scanOperands, if_neg hi, List.drop_eq_nil_of_le (Nat.not_lt.1 hi), if_pos rfl, pieces]
    rfl
  | case8 quoted current done i hi hquoted =>
    rw [scanOperands, if_neg hi, List.drop_eq_nil_of_le (Nat.not_lt.1 hi), if_neg hquoted,
      Bool.eq_false_iff.2 hquoted, pieces]
    simp only [gather, continued, extendFirst, List.append_nil, Bool.false_eq_true, if_false, List.map_cons,
      List.map_nil]
    by_cases hempty : Text.trim current = [] ∧ done = []
    · rw [if_neg (by simp [hempty]), hempty.1, hempty.2]
      rfl
    · have hsome : Text.trim current ≠ [] ∨ done ≠ [] := by
        by_cases htrim : Text.trim current = []
        · exact .inr fun hdone => hempty ⟨htrim, hdone⟩
        · exact .inl htrim
      rw [if_pos hsome, if_neg]
      intro h
      cases done with
      | nil => exact hempty ⟨(List.cons.inj h).1, rfl⟩
      | cons a rest => simp at h

/-! ## Ending inside quotes -/

/-- Bytes that end no quoted text: each quote mark comes after a backslash that protects it. -/
inductive Guarded : Text → Prop
  | nil : Guarded []
  | plain {b : UInt8} {t : Text} (mark : b ≠ quoteMark) (escape : b ≠ backslash) (rest : Guarded t) :
    Guarded (b :: t)
  | pair (b : UInt8) {t : Text} (rest : Guarded t) : Guarded (backslash :: b :: t)

/-- A text in which every quoted text that begins also ends. -/
inductive Settled : Text → Prop
  | nil : Settled []
  | plain {b : UInt8} {t : Text} (mark : b ≠ quoteMark) (rest : Settled t) : Settled (b :: t)
  | quoted {s t : Text} (inside : Guarded s) (rest : Settled t) : Settled (quoteMark :: (s ++ quoteMark :: t))

/-- The end of a text that is inside quotes, perhaps with a backslash that has nothing to protect. -/
def Unclosed (t : Text) : Prop := Guarded t ∨ ∃ s, t = s ++ [backslash] ∧ Guarded s

/-- A text that ends inside quotes: after all that is settled one more quoted text begins. -/
def EndsQuoted (t : Text) : Prop := ∃ s u, t = s ++ quoteMark :: u ∧ Settled s ∧ Unclosed u

theorem Unclosed.plain {b : UInt8} {t : Text} (hmark : b ≠ quoteMark) (hescape : b ≠ backslash) (h : Unclosed t) :
    Unclosed (b :: t) := by
  rcases h with h | ⟨s, rfl, h⟩
  · exact .inl (.plain hmark hescape h)
  · exact .inr ⟨b :: s, rfl, .plain hmark hescape h⟩

theorem Unclosed.pair (b : UInt8) {t : Text} (h : Unclosed t) : Unclosed (backslash :: b :: t) := by
  rcases h with h | ⟨s, rfl, h⟩
  · exact .inl (.pair b h)
  · exact .inr ⟨backslash :: b :: s, rfl, .pair b h⟩

theorem unclosed_or_closing (t : Text) : Unclosed t ∨ ∃ s rest, t = s ++ quoteMark :: rest ∧ Guarded s := by
  induction hn : t.length using Nat.strong_induction_on generalizing t with
  | _ n ih =>
    subst hn
    cases t with
    | nil => exact .inl (.inl .nil)
    | cons b t =>
      by_cases hmark : b = quoteMark
      · exact .inr ⟨[], t, by rw [hmark]; rfl, .nil⟩
      by_cases hescape : b = backslash
      · subst hescape
        cases t with
        | nil => exact .inl (.inr ⟨[], rfl, .nil⟩)
        | cons c t =>
          rcases ih t.length (by rw [List.length_cons, List.length_cons]; omega) t rfl with h | ⟨s, rest, rfl, h⟩
          · exact .inl (h.pair c)
          · exact .inr ⟨backslash :: c :: s, rest, rfl, .pair c h⟩
      · rcases ih t.length (by simp) t rfl with h | ⟨s, rest, rfl, h⟩
        · exact .inl (h.plain hmark hescape)
        · exact .inr ⟨b :: s, rest, rfl, .plain hmark hescape h⟩

theorem EndsQuoted.append {s t : Text} (hs : ∀ u, Settled u → Settled (s ++ u)) (h : EndsQuoted t) :
    EndsQuoted (s ++ t) := by
  obtain ⟨r, u, rfl, hr, hu⟩ := h
  exact ⟨s ++ r, u, by rw [List.append_assoc], hs r hr, hu⟩

theorem settled_or_endsQuoted (t : Text) : Settled t ∨ EndsQuoted t := by
  induction hn : t.length using Nat.strong_induction_on generalizing t with
  | _ n ih =>
    subst hn
    cases t with
    | nil => exact .inl .nil
    | cons b t =>
      by_cases hmark : b = quoteMark
      · subst hmark
        rcases unclosed_or_closing t with h | ⟨s, rest, rfl, hs⟩
        · exact .inr ⟨[], t, rfl, .nil, h⟩
        · have hlength : rest.length < (quoteMark :: (s ++ quoteMark :: rest)).length := by
            rw [List.length_cons, List.length_append, List.length_cons]
            omega
          rcases ih rest.length hlength rest rfl with h | h
          · exact .inl (.quoted hs h)
          · right
            have hquoted (u : Text) (hu : Settled u) : Settled (quoteMark :: (s ++ [quoteMark]) ++ u) := by
              rw [List.cons_append, List.append_assoc]
              exact .quoted hs hu
            have hends := h.append hquoted
            rwa [List.cons_append, List.append_assoc] at hends
      · rcases ih t.length (by simp) t rfl with h | h
        · exact .inl (.plain hmark h)
        · exact .inr (h.append (s := [b]) fun u hu => .plain hmark hu)

theorem Guarded.pieces_append {s : Text} (h : Guarded s) (rest : Text) :
    (pieces true (s ++ rest)).2 = (pieces true rest).2 := by
  induction h with
  | nil => rfl
  | plain hmark hescape _ ih =>
    rw [List.cons_append, pieces_other _ (fun h => hescape h.1) hmark (by simp)]
    exact ih
  | pair b _ ih =>
    rw [List.cons_append, List.cons_append, pieces_protected]
    exact ih

theorem Unclosed.pieces_eq {t : Text} (h : Unclosed t) : (pieces true t).2 = true := by
  rcases h with h | ⟨s, rfl, h⟩
  · have hall := h.pieces_append []
    rw [List.append_nil] at hall
    rw [hall, pieces]
  · rw [h.pieces_append, pieces_other _ (by simp) (by decide) (by simp), pieces]

theorem Settled.pieces_append {s : Text} (h : Settled s) (rest : Text) :
    (pieces false (s ++ rest)).2 = (pieces false rest).2 := by
  induction h with
  | nil => rfl
  | @plain b t hmark _ ih =>
    rw [List.cons_append]
    by_cases hcomma : b = 0x2c
    · rw [hcomma, pieces_comma]
      exact ih
    · rw [pieces_other _ (by simp) hmark (by simp [hcomma])]
      exact ih
  | @quoted s t hinside _ ih =>
    rw [List.cons_append, List.append_assoc, pieces_mark]
    dsimp only
    rw [Bool.not_false, hinside.pieces_append, List.cons_append, pieces_mark]
    exact ih

theorem pieces_open_iff (t : Text) : (pieces false t).2 = true ↔ EndsQuoted t := by
  constructor
  · intro hopen
    refine (settled_or_endsQuoted t).resolve_left fun h => ?_
    have hall := h.pieces_append []
    rw [List.append_nil, hopen, pieces] at hall
    cases hall
  · rintro ⟨s, u, rfl, hs, hu⟩
    rw [hs.pieces_append, pieces_mark]
    exact hu.pieces_eq

theorem splitOperands_eq_gather (t : Text) : splitOperands t = gather [] (pieces false t) := rfl

theorem splitOperands_eq_none_iff (t : Text) : splitOperands t = none ↔ EndsQuoted t := by
  rw [← pieces_open_iff, splitOperands_eq_gather, gather]
  by_cases hopen : (pieces false t).2 = true
  · rw [if_pos hopen]
    exact iff_of_true rfl hopen
  · rw [if_neg hopen]
    refine iff_of_false ?_ hopen
    split <;> exact Option.some_ne_none _

/-! ## Written lines -/

/-- A word of a line that holds none of its marks. -/
structure IsToken (t : Text) : Prop extends IsWord t where
  unmarked : ∀ b ∈ t, b ≠ 0x2c ∧ b ≠ quoteMark ∧ b ≠ 0x3b ∧ b ≠ 0x23

/-- An operand as it is written: a quoted text, or a token. -/
inductive IsWritten : Text → Prop
  | quoted {body : Text} (h : IsEscaped body) : IsWritten (quoteMark :: (body ++ [quoteMark]))
  | token {t : Text} (h : IsToken t) : IsWritten t

namespace IsToken

variable {t : Text} (h : IsToken t)

include h

theorem not_mem_blank {b : UInt8} (hlt : b < 0x80) (hblank : Text.isBlank b.toNat = true) : b ∉ t := by
  intro hmem
  have hsolid := h.solid _ (Text.mem_glyphs_of_lt hmem hlt)
  rw [Text.Glyph.isBlank, Option.any_some, hblank] at hsolid
  cases hsolid

theorem isArgument : IsArgument t where
  ne_nil := h.ne_nil
  uncommented := uncommented_of_plain fun b hb => (h.unmarked b hb).2
  unsplit := unsplit_of_plain fun b hb => ⟨(h.unmarked b hb).2.1, (h.unmarked b hb).1⟩
  trimmed := h.toIsWord.isTrimmed
  line := h.not_mem_blank (by decide) rfl

theorem mnemonic_append (rest : Text) : mnemonic (t ++ 0x20 :: rest) = (t, rest) := by
  have hspace := h.not_mem_blank (b := 0x20) (by decide) rfl
  have htab := h.not_mem_blank (b := 0x09) (by decide) rfl
  clear h
  induction t with
  | nil => rw [List.nil_append, mnemonic, if_pos (.inl rfl)]
  | cons b t ih =>
    rw [List.mem_cons, not_or] at hspace htab
    have hb : ¬ (b = 0x20 ∨ b = 0x09) := by
      rintro (rfl | rfl)
      · exact hspace.1 rfl
      · exact htab.1 rfl
    rw [List.cons_append, mnemonic, if_neg hb, ih hspace.2 htab.2]

end IsToken

theorem IsWritten.isArgument {t : Text} (h : IsWritten t) : IsArgument t := by
  cases h with
  | quoted h => exact isArgument_quoted h
  | token h => exact h.isArgument

theorem IsPrintedLine.stripComment_eq {t : Text} (h : IsPrintedLine t) : stripComment t = t := by
  rw [stripComment, h.uncommented.beforeComment_eq, h.trimmed.trim_eq]

theorem IsPrintedLine.stripComment_append {t : Text} (h : IsPrintedLine t) {mark : UInt8}
    (hmark : mark = 0x3b ∨ mark = 0x23) (comment : Text) : stripComment (t ++ 0x20 :: mark :: comment) = t := by
  rw [stripComment, h.uncommented, beforeComment_other _ (by decide) (by decide) (by decide),
    beforeComment_start _ hmark, Text.trim_concat_blank (by decide) rfl, h.trimmed.trim_eq]

/-- Comments and operands respect quotes. A line that is written as a token and operands with commas between them
is read as it was written, with a comment behind it or without. Whatever a line is, going through it by index stays
inside it, and its operands fail to be split just if it ends inside quotes. -/
theorem quotes_respected :
    (∀ word args, IsToken word → args ≠ [] → (∀ a ∈ args, IsWritten a) →
      stripComment (word ++ 0x20 :: joined args) = word ++ 0x20 :: joined args ∧
      (∀ mark comment, mark = 0x3b ∨ mark = 0x23 →
        stripComment ((word ++ 0x20 :: joined args) ++ 0x20 :: mark :: comment) = word ++ 0x20 :: joined args) ∧
      mnemonic (word ++ 0x20 :: joined args) = (word, joined args) ∧
      splitOperands (joined args) = some args) ∧
    ∀ source, (scanComment source false 0).map Text.trim = some (stripComment source) ∧
      scanOperands source false [] [] 0 = some (splitOperands source) ∧
      (splitOperands source = none ↔ EndsQuoted source) := by
  constructor
  · intro word args hword hne hargs
    have hwritten (a : Text) (ha : a ∈ args) : IsArgument a := (hargs a ha).isArgument
    have hline : IsPrintedLine (word ++ 0x20 :: joined args) :=
      hword.isArgument.isPrintedLine.of_word (isPrintedLine_joined hne hwritten)
    refine ⟨hline.stripComment_eq, ?_, hword.mnemonic_append _, splitOperands_joined hne hwritten⟩
    intro mark comment hmark
    exact hline.stripComment_append hmark comment
  · intro source
    refine ⟨?_, ?_, splitOperands_eq_none_iff source⟩
    · rw [scanComment_eq, List.take_zero, List.nil_append, List.drop_zero, Option.map_some, stripComment]
    · rw [scanOperands_eq, List.drop_zero, continued_nil, splitOperands_eq_gather]

theorem isToken_of_symbols {t : Text} (hne : t ≠ []) (h : t.all isSymbol = true) : IsToken t where
  toIsWord := isWord_of_symbols hne (List.all_eq_true.1 h)
  unmarked b hb := by
    obtain ⟨-, -, ⟨hmark, hsemi, hhash⟩, hcomma, -⟩ := isSymbol_facts (List.all_eq_true.1 h b hb)
    exact ⟨hcomma, hmark, hsemi, hhash⟩

/-- A quoted operand that holds a comma, a semicolon and an escaped quote mark, before a comment that holds one. -/
theorem quotes_respected_marks : ∃ word register text comment : Text,
    word = Text.ofString "LOAD_CONST" ∧ register = Text.ofString "r0" ∧
    text = Text.ofString "\"a, ;\\\"\"" ∧ comment = Text.ofString "\" #" ∧
    IsToken word ∧ IsWritten register ∧ IsWritten text ∧
    stripComment ((word ++ 0x20 :: joined [register, text]) ++ 0x20 :: 0x3b :: comment) =
      word ++ 0x20 :: joined [register, text] ∧
    splitOperands (joined [register, text]) = some [register, text] := by
  have hword : IsToken (Text.ofString "LOAD_CONST") := isToken_of_symbols (by decide) (by decide)
  have hregister : IsWritten (Text.ofString "r0") := .token (isToken_of_symbols (by decide) (by decide))
  have htext : IsWritten (Text.ofString "\"a, ;\\\"\"") := by
    have hbody : IsEscaped [0x61, 0x2c, 0x20, 0x3b, backslash, quoteMark] := by
      refine .plain ?_ ?_ ?_ (.plain ?_ ?_ ?_ (.plain ?_ ?_ ?_ (.plain ?_ ?_ ?_ (.pair ?_ .nil)))) <;> decide
    have heq : Text.ofString "\"a, ;\\\"\"" =
        quoteMark :: ([0x61, 0x2c, 0x20, 0x3b, backslash, quoteMark] ++ [quoteMark]) := by decide
    rw [heq]
    exact .quoted hbody
  have hargs : ∀ a ∈ [Text.ofString "r0", Text.ofString "\"a, ;\\\"\""], IsWritten a := by
    simp [hregister, htext]
  obtain ⟨-, hcomment, -, hsplit⟩ := quotes_respected.1 _ _ hword (List.cons_ne_nil _ _) hargs
  exact ⟨_, _, _, _, rfl, rfl, rfl, rfl, hword, hregister, htext, hcomment _ _ (.inl rfl), hsplit⟩

end RegisterJit.Listing
