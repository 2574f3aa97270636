import Mathlib.Data.List.Forall2
import RegisterJit.Bytecode.Lexeme
import RegisterJit.Bytecode.Listing
import RegisterJit.Proofs.Quoting

/-!
# Lines and their operands

What a listing prints neither starts a comment nor splits an operand: symbols other than the marks do
not, and a quoted text protects what it holds. So a printed line is read as it was printed, and its
operands are the printed ones.

A line of a listing is a sequence of words and quoted texts with spaces and commas between them. `Uncommented`
says that a text has no comment in any context, `Unsplit` that it is one operand whatever surrounds it; both are
kept by appending, and both hold of symbols other than the marks and of quoted texts. So a line that is printed
from arguments of this kind is split at the commas that were printed and nowhere else. `Printing` shows that all
arguments are of this kind, `Scanners` and `DecimalLiterals` use the lemmas about symbols.
-/

namespace RegisterJit.Listing

open Text (quoteMark backslash IsEscaped IsTrimmed IsWord)

/-! ## Comments and commas -/

/-- A text that holds no comment, whatever follows it. -/
def Uncommented (t : Text) : Prop :=
  ∀ rest, beforeComment false (t ++ rest) = t ++ beforeComment false rest

/-- A text that is one piece between commas, whatever follows it. -/
def Unsplit (t : Text) : Prop :=
  ∀ rest, pieces false (t ++ rest) =
    (extendFirst t (pieces false rest).1, (pieces false rest).2)

theorem Uncommented.append {t u : Text} (h : Uncommented t) (h' : Uncommented u) :
    Uncommented (t ++ u) := fun rest => by rw [List.append_assoc, h, h', List.append_assoc]

theorem Uncommented.beforeComment_eq {t : Text} (h : Uncommented t) : beforeComment false t = t := by
  have hnil := h []
  rw [beforeComment, List.append_nil] at hnil
  exact hnil

theorem extendFirst_append (t u : Text) (ps : List Text) :
    extendFirst (t ++ u) ps = extendFirst t (extendFirst u ps) := by
  cases ps <;> simp [extendFirst]

theorem Unsplit.append {t u : Text} (h : Unsplit t) (h' : Unsplit u) : Unsplit (t ++ u) :=
  fun rest => by rw [List.append_assoc, h, h', extendFirst_append]

theorem pieces_ne_nil (quoted : Bool) (t : Text) : (pieces quoted t).1 ≠ [] := by
  have hextend (b : Text) (ps : List Text) : extendFirst b ps ≠ [] := by
    cases ps <;> simp [extendFirst]
  unfold pieces
  repeat' split
  all_goals first | exact hextend _ _ | simp

theorem unsplit_nil : Unsplit [] := by
  intro rest
  obtain ⟨p, ps, hp⟩ := List.exists_cons_of_ne_nil (pieces_ne_nil false rest)
  rw [List.nil_append]
  refine Prod.ext ?_ rfl
  rw [hp]
  rfl

/-- A byte that starts neither a quoted text nor a comment. -/
def IsPlain (b : UInt8) : Prop := b ≠ quoteMark ∧ b ≠ 0x3b ∧ b ≠ 0x23

theorem uncommented_of_plain {t : Text} (h : ∀ b ∈ t, IsPlain b) : Uncommented t := by
  intro rest
  induction t with
  | nil => rfl
  | cons b t ih =>
    obtain ⟨⟨hquote, hsemi, hhash⟩, hrest⟩ := List.forall_mem_cons.1 h
    rw [List.cons_append, beforeComment.eq_def]
    simp [hquote, hsemi, hhash, ih hrest]

theorem unsplit_of_plain {t : Text} (h : ∀ b ∈ t, b ≠ quoteMark ∧ b ≠ 0x2c) : Unsplit t := by
  intro rest
  induction t with
  | nil => exact unsplit_nil rest
  | cons b t ih =>
    obtain ⟨⟨hquote, hcomma⟩, hrest⟩ := List.forall_mem_cons.1 h
    rw [List.cons_append, pieces.eq_def]
    simp only [Bool.and_false, Bool.false_eq_true, if_false, beq_eq_false_iff_ne.2 hquote,
      beq_eq_false_iff_ne.2 hcomma, Bool.false_and, ih hrest]
    rw [← extendFirst_append, List.singleton_append]

theorem beforeComment_escaped {t : Text} (h : IsEscaped t) (rest : Text) :
    beforeComment true (t ++ rest) = t ++ beforeComment true rest := by
  induction h with
  | nil => rfl
  | @plain b t hquote hescape _ _ ih =>
    rw [List.cons_append, beforeComment.eq_def]
    simp [hquote, hescape, ih]
  | @pair b t _ _ ih =>
    rw [List.cons_append, List.cons_append, beforeComment.eq_def]
    simp [ih]

theorem pieces_escaped {t : Text} (h : IsEscaped t) (rest : Text) :
    pieces true (t ++ rest) = (extendFirst t (pieces true rest).1, (pieces true rest).2) := by
  induction h with
  | nil =>
    obtain ⟨p, ps, hp⟩ := List.exists_cons_of_ne_nil (pieces_ne_nil true rest)
    rw [List.nil_append]
    refine Prod.ext ?_ rfl
    rw [hp]
    rfl
  | @plain b t hquote hescape _ _ ih =>
    rw [List.cons_append, pieces.eq_def]
    simp only [beq_eq_false_iff_ne.2 hescape, beq_eq_false_iff_ne.2 hquote, Bool.false_and,
      Bool.not_true, Bool.and_false, Bool.false_eq_true, if_false, ih]
    rw [← extendFirst_append, List.singleton_append]
  | @pair b t _ _ ih =>
    rw [List.cons_append, List.cons_append, pieces.eq_def]
    simp only [beq_self_eq_true, Bool.and_self, if_true, ih]
    rw [← extendFirst_append]
    rfl

theorem uncommented_quoted {body : Text} (h : IsEscaped body) :
    Uncommented (quoteMark :: (body ++ [quoteMark])) := by
  intro rest
  rw [List.cons_append, List.append_assoc, beforeComment.eq_def]
  simp only [Bool.and_false, Bool.false_eq_true, if_false, beq_self_eq_true, if_true, Bool.not_false,
    beforeComment_escaped h]
  rw [List.singleton_append, beforeComment.eq_def]
  simp [show (quoteMark == backslash) = false by decide]

theorem unsplit_quoted {body : Text} (h : IsEscaped body) : Unsplit (quoteMark :: (body ++ [quoteMark])) := by
  intro rest
  rw [List.cons_append, List.append_assoc, pieces.eq_def]
  simp only [Bool.and_false, Bool.false_eq_true, if_false, beq_self_eq_true, if_true, Bool.not_false,
    pieces_escaped h]
  rw [List.singleton_append, pieces.eq_def]
  simp only [show (quoteMark == backslash) = false by decide, Bool.false_and, Bool.false_eq_true,
    if_false, beq_self_eq_true, if_true, Bool.not_true]
  rw [← extendFirst_append, ← extendFirst_append]
  rfl

/-! ## Operands -/

/-- A text that an operand can be printed as. -/
structure IsArgument (t : Text) : Prop where
  ne_nil : t ≠ []
  uncommented : Uncommented t
  unsplit : Unsplit t
  trimmed : IsTrimmed t
  line : 0x0a ∉ t

/-- A visible character of ASCII other than the marks of quotes, comments and operands. -/
def isSymbol (b : UInt8) : Bool :=
  0x21 ≤ b && b < 0x7f && b != quoteMark && b != 0x3b && b != 0x23 && b != 0x2c

theorem isSymbol_facts {b : UInt8} (h : isSymbol b = true) :
    b < 0x80 ∧ Text.isBlank b.toNat = false ∧ IsPlain b ∧ b ≠ 0x2c ∧ b ≠ 0x0a ∧ b ≠ 0x20 ∧
      b ≠ 0x09 := by
  have hall (n : Fin 256) : isSymbol (UInt8.ofNat n.val) = true →
      UInt8.ofNat n.val < 0x80 ∧ Text.isBlank (UInt8.ofNat n.val).toNat = false ∧
        (UInt8.ofNat n.val ≠ quoteMark ∧ UInt8.ofNat n.val ≠ 0x3b ∧ UInt8.ofNat n.val ≠ 0x23) ∧
        UInt8.ofNat n.val ≠ 0x2c ∧ UInt8.ofNat n.val ≠ 0x0a ∧ UInt8.ofNat n.val ≠ 0x20 ∧
        UInt8.ofNat n.val ≠ 0x09 := by
    revert n
    decide +kernel
  have := hall ⟨b.toNat, b.toNat_lt⟩
  rw [UInt8.ofNat_toNat] at this
  exact this h

theorem isWord_of_symbols {t : Text} (hne : t ≠ []) (h : ∀ b ∈ t, isSymbol b = true) : IsWord t := by
  refine ⟨hne, ?_⟩
  induction t with
  | nil => exact absurd rfl hne
  | cons b t ih =>
    obtain ⟨hb, ht⟩ := List.forall_mem_cons.1 h
    obtain ⟨hlt, hblank, -⟩ := isSymbol_facts hb
    rw [Text.glyphs_cons_of_lt hlt]
    refine List.forall_mem_cons.2 ⟨hblank, ?_⟩
    by_cases hnil : t = []
    · simp [hnil]
    · exact ih hnil ht

theorem isArgument_of_symbols {t : Text} (hne : t ≠ []) (h : ∀ b ∈ t, isSymbol b = true) :
    IsArgument t where
  ne_nil := hne
  uncommented := uncommented_of_plain fun b hb => (isSymbol_facts (h b hb)).2.2.1
  unsplit := unsplit_of_plain fun b hb =>
    ⟨(isSymbol_facts (h b hb)).2.2.1.1, (isSymbol_facts (h b hb)).2.2.2.1⟩
  trimmed := (isWord_of_symbols hne h).isTrimmed
  line hmem := (isSymbol_facts (h _ hmem)).2.2.2.2.1 rfl

theorem isArgument_quoted {body : Text} (h : IsEscaped body) :
    IsArgument (quoteMark :: (body ++ [quoteMark])) := by
  refine ⟨by simp, uncommented_quoted h, unsplit_quoted h, ⟨?_, ?_⟩, ?_⟩
  · rw [Text.glyphs_cons_of_lt (by decide)]
    simp [Text.Glyph.isBlank, quoteMark, Text.isBlank]
  · have hlast : Text.glyphs [quoteMark] = [⟨some 0x22, [quoteMark]⟩] := by
      rw [Text.glyphs_cons_of_lt (by decide), Text.glyphs_nil]
      rfl
    rw [← List.cons_append, Text.glyphs_append (by simp [quoteMark]), hlast, List.getLast?_append]
    simp [Text.Glyph.isBlank, Text.isBlank]
  · simp [h.not_mem_line, quoteMark]

theorem isArgument_quote (t : Text) : IsArgument (Text.quote t) := by
  obtain ⟨body, heq, hbody⟩ := Text.quote_eq t
  rw [heq]
  exact isArgument_quoted hbody

def joined (args : List Text) : Text := Text.join (Text.ofString ", ") args

theorem ofString_comma : Text.ofString ", " = [0x2c, 0x20] := by decide

theorem joined_cons (a b : Text) (rest : List Text) :
    joined (a :: b :: rest) = a ++ 0x2c :: 0x20 :: joined (b :: rest) := by
  rw [joined, joined, Text.join, Text.join, ofString_comma]
  simp [List.intersperse]

theorem joined_singleton (a : Text) : joined [a] = a := by simp [joined, Text.join]

theorem pieces_joined {args : List Text} (hne : args ≠ []) (h : ∀ a ∈ args, IsArgument a) :
    ∃ raw, pieces false (joined args) = (raw, false) ∧ raw.map Text.trim = args ∧
      pieces false (0x20 :: joined args) = (extendFirst [0x20] raw, false) := by
  have hspace : Unsplit [0x20] := unsplit_of_plain (by simp [quoteMark])
  have hlead {args : List Text} {raw : List Text} (hraw : pieces false (joined args) = (raw, false)) :
      pieces false (0x20 :: joined args) = (extendFirst [0x20] raw, false) := by
    have := hspace (joined args)
    rwa [hraw] at this
  induction args with
  | nil => exact absurd rfl hne
  | cons a args ih =>
    obtain ⟨ha, hargs⟩ := List.forall_mem_cons.1 h
    obtain _ | ⟨b, rest⟩ := args
    · have hraw : pieces false (joined [a]) = ([a], false) := by
        have := ha.unsplit []
        rw [pieces, List.append_nil] at this
        rw [joined_singleton, this]
        simp [extendFirst]
      exact ⟨[a], hraw, by rw [List.map_singleton, ha.trimmed.trim_eq], hlead hraw⟩
    · obtain ⟨raw, hraw, hmap, hspaced⟩ := ih (by simp) hargs
      obtain ⟨p, ps, hp⟩ := List.exists_cons_of_ne_nil (show raw ≠ [] by
        rintro rfl
        simp at hmap)
      have hcomma : pieces false (0x2c :: 0x20 :: joined (b :: rest)) =
          ([] :: extendFirst [0x20] raw, false) := by
        rw [pieces.eq_def]
        simp only [show ((0x2c : UInt8) == backslash) = false by decide,
          show ((0x2c : UInt8) == quoteMark) = false by decide, Bool.false_eq_true, if_false,
          beq_self_eq_true, Bool.not_false, Bool.and_self, if_true, hspaced]
      have hwhole : pieces false (joined (a :: b :: rest)) =
          (a :: extendFirst [0x20] raw, false) := by
        rw [joined_cons, ha.unsplit, hcomma]
        simp [extendFirst]
      refine ⟨_, hwhole, ?_, hlead hwhole⟩
      rw [List.map_cons, ha.trimmed.trim_eq, hp, extendFirst, List.map_cons, List.singleton_append,
        Text.trim_cons_blank (by decide) rfl, ← List.map_cons, ← hp, hmap]

theorem splitOperands_joined {args : List Text} (hne : args ≠ []) (h : ∀ a ∈ args, IsArgument a) :
    splitOperands (joined args) = some args := by
  obtain ⟨raw, hraw, hmap, -⟩ := pieces_joined hne h
  have hblank : args ≠ [[]] := by
    rintro rfl
    exact (h [] (List.mem_singleton_self _)).ne_nil rfl
  rw [splitOperands, hraw]
  simp only [Bool.false_eq_true, if_false]
  rw [hmap, if_neg hblank]

/-! ## Lines -/

/-- A text that a line can be printed as, after its indentation. -/
structure IsPrintedLine (t : Text) : Prop where
  ne_nil : t ≠ []
  uncommented : Uncommented t
  trimmed : IsTrimmed t
  line : 0x0a ∉ t

theorem IsArgument.isPrintedLine {t : Text} (h : IsArgument t) : IsPrintedLine t :=
  ⟨h.ne_nil, h.uncommented, h.trimmed, h.line⟩

theorem IsPrintedLine.of_word {w t : Text} (hw : IsPrintedLine w) (ht : IsPrintedLine t) :
    IsPrintedLine (w ++ 0x20 :: t) where
  ne_nil := by simp
  uncommented := hw.uncommented.append
    ((uncommented_of_plain (t := [0x20]) (by simp [IsPlain, quoteMark])).append ht.uncommented)
  trimmed := by
    have hglyphs : Text.glyphs (w ++ 0x20 :: t) = Text.glyphs w ++ ⟨some 0x20, [0x20]⟩ :: Text.glyphs t := by
      rw [Text.glyphs_append (by simp), Text.glyphs_cons_of_lt (by decide)]
      rfl
    obtain ⟨g, gs, hg⟩ := List.exists_cons_of_ne_nil (Text.glyphs_ne_nil hw.ne_nil)
    obtain ⟨k, ks, hk⟩ := List.exists_cons_of_ne_nil (Text.glyphs_ne_nil ht.ne_nil)
    constructor
    · have hfirst := hw.trimmed.first
      rw [hg] at hfirst
      rw [hglyphs, hg]
      exact hfirst
    · have hlast := ht.trimmed.last
      rw [hglyphs, List.getLast?_append, List.getLast?_cons, hk, List.getLast?_cons] at *
      simpa using hlast
  line := by simp [hw.line, ht.line]

theorem IsPrintedLine.append_mark {w : Text} (hw : IsPrintedLine w) {b : UInt8}
    (hb : isSymbol b = true ∨ b = 0x2c) : IsPrintedLine (w ++ [b]) := by
  obtain ⟨hlt, hblank, hplain, hline⟩ :
      b < 0x80 ∧ Text.isBlank b.toNat = false ∧ IsPlain b ∧ b ≠ 0x0a := by
    rcases hb with hb | rfl
    · obtain ⟨hlt, hblank, hplain, -, hline, -⟩ := isSymbol_facts hb
      exact ⟨hlt, hblank, hplain, hline⟩
    · exact ⟨by decide, rfl, ⟨by decide, by decide, by decide⟩, by decide⟩
  have hglyphs : Text.glyphs (w ++ [b]) = Text.glyphs w ++ [⟨some b.toNat, [b]⟩] := by
    rw [Text.glyphs_append (by simpa using hlt), Text.glyphs_cons_of_lt hlt, Text.glyphs_nil]
  obtain ⟨g, gs, hg⟩ := List.exists_cons_of_ne_nil (Text.glyphs_ne_nil hw.ne_nil)
  refine ⟨by simp, hw.uncommented.append (uncommented_of_plain (by simpa using hplain)), ⟨?_, ?_⟩, ?_⟩
  · have hfirst := hw.trimmed.first
    rw [hg] at hfirst
    rw [hglyphs, hg]
    exact hfirst
  · rw [hglyphs, List.getLast?_append]
    simpa [Text.Glyph.isBlank] using hblank
  · simp [hw.line, hline.symm]

theorem isPrintedLine_joined {args : List Text} (hne : args ≠ []) (h : ∀ a ∈ args, IsArgument a) :
    IsPrintedLine (joined args) := by
  induction args with
  | nil => exact absurd rfl hne
  | cons a args ih =>
    obtain ⟨ha, hargs⟩ := List.forall_mem_cons.1 h
    cases args with
    | nil => exact (joined_singleton a).symm ▸ ha.isPrintedLine
    | cons b rest =>
      have heq : joined (a :: b :: rest) = (a ++ [0x2c]) ++ 0x20 :: joined (b :: rest) := by
        rw [joined_cons, List.append_assoc, List.singleton_append]
      rw [heq]
      exact .of_word (ha.isPrintedLine.append_mark (.inr rfl)) (ih (List.cons_ne_nil _ _) hargs)

theorem splitAt_append {sep : UInt8} {t : Text} (h : sep ∉ t) (rest : Text) :
    Text.splitAt sep (t ++ sep :: rest) = t :: Text.splitAt sep rest := by
  induction t with
  | nil => rw [List.nil_append, Text.splitAt, if_pos rfl]
  | cons b t ih =>
    rw [List.mem_cons, not_or] at h
    rw [List.cons_append, Text.splitAt, if_neg (Ne.symm h.1), ih h.2]

/-- Lines one after the other, each with its line feed and its indentation. -/
structure Prints (out : Text) (lines : List Text) : Prop where
  exists_indented : ∃ raw : List Text, out = raw.flatMap (· ++ [0x0a]) ∧
    List.Forall₂ (fun r t => ∃ n, r = List.replicate n 0x20 ++ t) raw lines

theorem prints_nil : Prints [] [] := ⟨[], rfl, .nil⟩

theorem Prints.append {out out' : Text} {lines lines' : List Text} (h : Prints out lines)
    (h' : Prints out' lines') : Prints (out ++ out') (lines ++ lines') := by
  obtain ⟨raw, rfl, hall⟩ := h
  obtain ⟨raw', rfl, hall'⟩ := h'
  exact ⟨raw ++ raw', List.flatMap_append.symm, List.rel_append hall hall'⟩

theorem prints_line (n : Nat) (t : Text) : Prints (line (List.replicate n 0x20) t) [t] :=
  ⟨[List.replicate n 0x20 ++ t], by simp [line], .cons ⟨n, rfl⟩ .nil⟩

theorem stripComment_indented {t : Text} (h : IsPrintedLine t) (n : Nat) :
    stripComment (List.replicate n 0x20 ++ t) = t := by
  have hspaces : Uncommented (List.replicate n 0x20) := by
    refine uncommented_of_plain fun b hb => ?_
    rw [(List.mem_replicate.1 hb).2]
    simp [IsPlain, quoteMark]
  rw [stripComment, (hspaces.append h.uncommented).beforeComment_eq, Text.trim_spaces,
    h.trimmed.trim_eq]

theorem significantLines_printed {out : Text} {lines : List Text} (h : Prints out lines)
    (hlines : ∀ t ∈ lines, IsPrintedLine t) : (significantLines out).map Line.text = lines := by
  obtain ⟨raw, rfl, hall⟩ := h
  rw [significantLines]
  have hfrom (k : Nat) : (((Text.lines (raw.flatMap (· ++ [0x0a]))).zipIdx k).filterMap fun row =>
      if (stripComment row.1).isEmpty then none else some (⟨row.2 + 1, stripComment row.1⟩ : Line)).map
        Line.text = lines := by
    induction hall generalizing k with
    | nil =>
      have hblank : stripComment [] = [] := by
        simp [stripComment, beforeComment, Text.trim, Text.trimGlyphs]
      rw [Text.lines, List.flatMap_nil, Text.splitAt, List.zipIdx_singleton, List.filterMap_cons]
      simp [hblank]
    | @cons r t raw lines hrt _ ih =>
      obtain ⟨n, rfl⟩ := hrt
      obtain ⟨ht, hlines⟩ := List.forall_mem_cons.1 hlines
      have hstrip := stripComment_indented ht n
      have hline : 0x0a ∉ List.replicate n 0x20 ++ t := by
        rw [List.mem_append, not_or]
        refine ⟨fun hmem => ?_, ht.line⟩
        exact absurd (List.mem_replicate.1 hmem).2 (by decide)
      have hempty : t.isEmpty = false := Text.isEmpty_eq_false ht.ne_nil
      rw [Text.lines, List.flatMap_cons, List.append_assoc, List.singleton_append, splitAt_append hline,
        List.zipIdx_cons, List.filterMap_cons]
      simp only [hstrip, hempty, Bool.false_eq_true, if_false]
      rw [List.map_cons]
      exact congrArg _ (ih hlines (k + 1))
  exact hfrom 0

end RegisterJit.Listing
