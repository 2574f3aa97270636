import RegisterJit.Proofs.Digits
import RegisterJit.Proofs.Lexemes
import RegisterJit.Proofs.Restating
import RegisterJit.Number.Layout

/-!
# Printed arguments and lines read back

Numbers, registers and labels are printed as words of symbols, names and strings are quoted. Each is read
as what it was printed from, and so are the lines that are made of them.

`PrintedAs` relates an argument to the text that is printed for it, `Printable` says for which arguments this
text is read back. Symbols, numbers, literals, registers and labels have a lemma each; `readInstruction_printed`
combines them for the operands of an instruction, whatever its opcode, since both printer and reader go by the
kinds of its operands. `bodyLine_spaced` does the same for a line with its indentation. Headers of functions and
handlers are lines of their own form. `Listings` assembles a whole text from lines.
-/

namespace RegisterJit

namespace Text

theorem ofNat_ne_nil (n : Nat) : ofNat n ≠ [] := by
  obtain ⟨d, -, rest, hcons, -⟩ := exists_ofNat_cons n
  rw [hcons]
  exact List.cons_ne_nil _ _

theorem ofInt_natCast (n : Nat) : ofInt n = ofNat n := by
  rw [ofInt, if_neg (by omega), Int.natAbs_natCast]

end Text

namespace Listing

open Text (quoteMark)

/-! ## Symbols -/

/-- A text of symbols. -/
def Symbols (t : Text) : Prop := ∀ b ∈ t, isSymbol b = true

instance (t : Text) : Decidable (Symbols t) := List.decidableBAll _ t

theorem Symbols.of_all {t : Text} (h : t.all isSymbol = true) : Symbols t := List.all_eq_true.1 h

theorem Symbols.append {t u : Text} (h : Symbols t) (h' : Symbols u) : Symbols (t ++ u) :=
  List.forall_mem_append.2 ⟨h, h'⟩

theorem Symbols.ite {p : Prop} [Decidable p] {t u : Text} (h : Symbols t) (h' : Symbols u) :
    Symbols (if p then t else u) := by
  split
  · exact h
  · exact h'

theorem symbols_digit {d : Nat} (h : d < 10) : isSymbol (Text.digitByte d) = true := by
  have hall (d : Fin 10) : isSymbol (Text.digitByte d.val) = true := by
    revert d
    decide
  exact hall ⟨d, h⟩

theorem symbols_ofNat (n : Nat) : Symbols (Text.ofNat n) := by
  intro b hb
  obtain ⟨d, hd, rfl⟩ := Text.digit_of_mem_ofNat hb
  exact symbols_digit hd

theorem symbols_ofInt (i : Int) : Symbols (Text.ofInt i) := by
  rw [Text.ofInt]
  exact Symbols.ite (List.forall_mem_cons.2 ⟨by decide, symbols_ofNat _⟩) (symbols_ofNat _)

theorem symbols_register (r : Register) : Symbols r.text := by
  rw [Register.text]
  refine Symbols.ite (.of_all (by decide)) (Symbols.ite (.of_all (by decide)) (Symbols.ite ?_ ?_))
  · exact Symbols.append (.of_all (by decide)) (symbols_ofInt _)
  · exact Symbols.append (.of_all (by decide)) (symbols_ofInt _)

theorem symbols_labelText (n : Nat) : Symbols (labelText n) :=
  Symbols.append (.of_all (by decide)) (symbols_ofNat n)

theorem symbols_opcode (op : Opcode) : Symbols op.text := by
  have hall : ∀ op ∈ Opcode.all, Symbols op.text := by
    simp only [Opcode.text]
    decide +kernel
  exact hall op op.mem_all

/-! ## Numbers -/

theorem lt_of_mem_shortestDigits {x : Double} {d : Nat} (h : d ∈ x.shortestDigits.digits) : d < 10 := by
  rw [Double.shortestDigits] at h
  dsimp only at h
  split at h
  · rw [List.mem_singleton.1 h]
    decide
  · have hmem := List.mem_reverse.1 ((List.dropWhile_suffix _).subset (List.mem_reverse.1 h))
    exact Double.lt_of_mem_decimalDigits hmem

theorem symbols_digitsText {ds : List Nat} (h : ∀ d ∈ ds, d < 10) : Symbols (Double.digitsText ds) := by
  intro b hb
  obtain ⟨d, hd, rfl⟩ := List.mem_map.1 hb
  exact symbols_digit (h d hd)

theorem symbols_zeros (n : Nat) : Symbols (Double.zeros n) := by
  intro b hb
  rw [(List.mem_replicate.1 hb).2]
  decide

theorem symbols_pointAfterFirst {ds : List Nat} (h : ∀ d ∈ ds, d < 10) :
    Symbols (Double.pointAfterFirst ds) := by
  rw [Double.pointAfterFirst.eq_def]
  match ds with
  | [] => exact fun b hb => absurd hb List.not_mem_nil
  | [d] => exact symbols_digitsText h
  | d :: e :: rest =>
    obtain ⟨hd, hrest⟩ := List.forall_mem_cons.1 h
    exact ((symbols_digitsText (by simpa using hd)).append (by decide)).append (symbols_digitsText hrest)

theorem symbols_positional {ds : List Nat} (h : ∀ d ∈ ds, d < 10) (point : Int) :
    Symbols (Double.positional ds point) := by
  rw [Double.positional]
  refine Symbols.ite ?_ (Symbols.ite ?_ ?_)
  · exact (Symbols.append (.of_all (by decide)) (symbols_zeros _)).append (symbols_digitsText h)
  · exact (symbols_digitsText h).append (symbols_zeros _)
  · exact ((symbols_digitsText fun d hd => h d (List.mem_of_mem_take hd)).append (by decide)).append
      (symbols_digitsText fun d hd => h d (List.mem_of_mem_drop hd))

theorem symbols_twoDigitExponent (e : Int) : Symbols (Double.twoDigitExponent e) := by
  rw [Double.twoDigitExponent]
  refine Symbols.append (Symbols.ite (by decide) (by decide)) (Symbols.ite ?_ (symbols_ofNat _))
  exact List.forall_mem_cons.2 ⟨by decide, symbols_ofNat _⟩

theorem symbols_literalText (x : Double) : Symbols x.literalText := by
  have hdigits : ∀ d ∈ x.shortestDigits.digits, d < 10 := fun d hd => lt_of_mem_shortestDigits hd
  have hsign : Symbols (if x.isNegative then [0x2d] else []) := Symbols.ite (by decide) (by decide)
  rw [Double.literalText]
  refine Symbols.ite (.of_all (by decide)) (Symbols.ite ?_ (Symbols.ite ?_ (Symbols.ite ?_ ?_)))
  · exact Symbols.ite (.of_all (by decide)) (.of_all (by decide))
  · exact hsign.append (by decide)
  · exact ((hsign.append (symbols_pointAfterFirst hdigits)).append (by decide)).append
      (symbols_twoDigitExponent _)
  · exact hsign.append (symbols_positional hdigits _)

/-! ## Literals -/

theorem parseConstant_cases {t : Text} {k : Constant} (h : parseConstant t = .ok k) :
    k = Constant.undefined ∨ k = Constant.null ∨ (∃ b, k = Constant.ofBool b) ∨
      (∃ s, k = Constant.ofText s) ∨ ∃ x, k = Constant.ofNumber x := by
  unfold parseConstant at h
  split at h
  · cases h
    exact .inl rfl
  split at h
  · cases h
    exact .inr (.inl rfl)
  split at h
  · cases h
    exact .inr (.inr (.inl ⟨true, rfl⟩))
  split at h
  · cases h
    exact .inr (.inr (.inl ⟨false, rfl⟩))
  split at h
  · split at h
    · cases h
      exact .inr (.inr (.inr (.inl ⟨_, rfl⟩)))
    · cases h
  · split at h
    · cases h
      exact .inr (.inr (.inr (.inr ⟨_, rfl⟩)))
    · cases h

theorem parseConstant_of_parse {t : Text} {x : Double} (ht : Symbols t) (h : Double.parse t = .ok x) :
    t ≠ [] ∧ parseConstant t = .ok (Constant.ofNumber x) := by
  have hwords : ∀ w ∈ ([[], Text.ofString "undefined", Text.ofString "null", Text.ofString "true",
      Text.ofString "false"] : List Text), (Double.parse w).toBool = false := by decide +kernel
  have hne {w : Text} (hw : (Double.parse w).toBool = false) : t ≠ w := by
    rintro rfl
    rw [h] at hw
    cases hw
  simp only [List.forall_mem_cons] at hwords
  obtain ⟨hnil, hundefined, hnull, htrue, hfalse, -⟩ := hwords
  have hquote : t.head? ≠ some quoteMark := by
    intro hhead
    have hsymbol := ht _ (List.mem_of_mem_head? hhead)
    exact absurd hsymbol (by decide)
  refine ⟨hne hnil, ?_⟩
  rw [parseConstant, if_neg (hne hundefined), if_neg (hne hnull), if_neg (hne htrue),
    if_neg (hne hfalse), if_neg hquote, h]

theorem parseConstant_words :
    parseConstant (Text.ofString "undefined") = .ok Constant.undefined ∧
      parseConstant (Text.ofString "null") = .ok Constant.null ∧
      parseConstant (Text.ofString "true") = .ok (Constant.ofBool true) ∧
      parseConstant (Text.ofString "false") = .ok (Constant.ofBool false) := by
  refine ⟨?_, ?_, ?_, ?_⟩ <;> rw [parseConstant]
  · rw [if_pos rfl]
  · rw [if_neg (by decide), if_pos rfl]
  · rw [if_neg (by decide), if_neg (by decide), if_pos rfl]
  · rw [if_neg (by decide), if_neg (by decide), if_neg (by decide), if_pos rfl]

theorem parseConstant_render {t : Text} {k : Constant} (h : parseConstant t = .ok k)
    (hnumber : k.kind = Constant.kindNumber → Double.parse k.number.literalText = .ok k.number) :
    parseConstant k.render = .ok k ∧ IsArgument k.render := by
  obtain ⟨hundefined, hnull, htrue, hfalse⟩ := parseConstant_words
  rcases parseConstant_cases h with rfl | rfl | ⟨b, rfl⟩ | ⟨s, rfl⟩ | ⟨x, rfl⟩
  · exact ⟨hundefined, isArgument_of_symbols (by decide) (Symbols.of_all (by decide))⟩
  · exact ⟨hnull, isArgument_of_symbols (by decide) (Symbols.of_all (by decide))⟩
  · cases b
    · have hrender : (Constant.ofBool false).render = Text.ofString "false" := by decide
      rw [hrender]
      exact ⟨hfalse, isArgument_of_symbols (by decide) (Symbols.of_all (by decide))⟩
    · have hrender : (Constant.ofBool true).render = Text.ofString "true" := by decide
      rw [hrender]
      exact ⟨htrue, isArgument_of_symbols (by decide) (Symbols.of_all (by decide))⟩
  · have hrender : (Constant.ofText s).render = Text.quote s := rfl
    obtain ⟨body, hbody, -⟩ := Text.quote_eq s
    have hword {w : Text} (hw : w.head? ≠ some quoteMark) : Text.quote s ≠ w := by
      rintro rfl
      exact hw (by rw [hbody]; rfl)
    rw [hrender]
    refine ⟨?_, isArgument_quote s⟩
    rw [parseConstant, if_neg (hword (by decide)), if_neg (hword (by decide)),
      if_neg (hword (by decide)), if_neg (hword (by decide)),
      if_pos (by rw [hbody]; rfl), Text.unquote?_quote]
  · have hsymbols := symbols_literalText x
    obtain ⟨hne, hparse⟩ := parseConstant_of_parse hsymbols (hnumber rfl)
    exact ⟨hparse, isArgument_of_symbols hne hsymbols⟩

theorem parseName_quote (t : Text) : parseName (Text.quote t) = .ok t := by
  obtain ⟨body, hbody, -⟩ := Text.quote_eq t
  rw [parseName, if_pos (by rw [hbody]; rfl), Text.unquote?_quote]

theorem isArgument_ofNat (n : Nat) : IsArgument (Text.ofNat n) :=
  isArgument_of_symbols (Text.ofNat_ne_nil n) (symbols_ofNat n)

theorem isArgument_register (r : Register) (h : r.IsWritten) : IsArgument r.text := by
  refine isArgument_of_symbols ?_ (symbols_register r)
  intro hnil
  have hread := parseRegister_text h
  rw [hnil] at hread
  unfold parseRegister at hread
  rw [if_neg (by decide)] at hread
  cases hread

theorem isArgument_labelText (n : Nat) : IsArgument (labelText n) := by
  refine isArgument_of_symbols ?_ (symbols_labelText n)
  exact List.append_ne_nil_of_right_ne_nil _ (Text.ofNat_ne_nil n)

theorem isWritten_quarter (u : UInt16) : (Word.quarter u).IsWritten := by
  have hvalue : (Word.quarter u).index.toInt = u.toInt16.toInt := Int16.toInt_toInt32 _
  have hmin := u.toInt16.le_toInt
  have hmax := u.toInt16.toInt_lt
  rw [Register.IsWritten, hvalue]
  omega

/-! ## Operands -/

/-- An argument is printed as some texts, which are read as the argument. -/
structure PrintedAs (kind : OperandKind) (a : Argument) (texts : List Text) : Prop where
  arguments : ∀ t ∈ texts, IsArgument t
  length : texts.length = Draft.width kind
  read : ∀ rest, readArgument kind (texts ++ rest) = .ok (a, rest)

/-- What an operand word stands for can be printed. -/
def Printable (c : Code) (kind : OperandKind) (w : Word) : Prop :=
  match kind with
  | .register => (Word.reg w).IsWritten
  | .constant =>
    let k := c.constants.getD (Word.u32 w).toNat default
    parseConstant k.render = .ok k ∧ IsArgument k.render
  | .code => ∃ d : Code, c.codes.getD (Word.u32 w).toNat none = some d ∧ IsArgument d.name
  | _ => True

theorem printedAs_one {kind : OperandKind} {a : Argument} {t : Text} (hkind : kind ≠ .packed)
    (ht : IsArgument t) (hread : ∀ rest, readArgument kind (t :: rest) = .ok (a, rest)) :
    PrintedAs kind a [t] :=
  ⟨by simpa using ht, by rw [Draft.width, if_neg hkind, List.length_singleton], hread⟩

theorem printedAs_operand {c : Code} (ins : Instruction) {kind : OperandKind} {w : Word}
    (h : Printable c kind w) :
    PrintedAs kind (argumentOf c ins kind w) (operandTexts c ins kind w) := by
  cases kind with
  | register =>
    refine printedAs_one (by decide) (isArgument_register _ h) fun rest => ?_
    simp only [readArgument, parseRegister_text h]
    rfl
  | signed =>
    have hmin := (Word.i32 w).le_toInt
    have hmax := (Word.i32 w).toInt_lt
    have hne : Text.ofInt (Word.i32 w).toInt ≠ [] := by
      rw [Text.ofInt]
      split
      · exact List.cons_ne_nil _ _
      · exact Text.ofNat_ne_nil _
    refine printedAs_one (by decide) (isArgument_of_symbols hne (symbols_ofInt _)) fun rest => ?_
    simp only [readArgument, Numeral.signed_ofInt (show -2 ^ 63 ≤ (Word.i32 w).toInt by omega) (by omega)]
    rfl
  | unsigned =>
    have hlt := (Word.u32 w).toNat_lt
    have hread : Numeral.signed (Text.ofNat (Word.u32 w).toNat) = .ok ((Word.u32 w).toNat : Int) := by
      rw [← Text.ofInt_natCast]
      exact Numeral.signed_ofInt (by omega) (by omega)
    refine printedAs_one (by decide) (isArgument_ofNat _) fun rest => ?_
    simp only [readArgument, hread]
    rfl
  | constant =>
    refine printedAs_one (by decide) h.2 fun rest => ?_
    simp only [readArgument, h.1]
    rfl
  | name =>
    refine printedAs_one (by decide) (isArgument_quote _) fun rest => ?_
    simp only [readArgument, parseName_quote]
    rfl
  | code =>
    obtain ⟨d, hd, hname⟩ := h
    have htexts : operandTexts c ins .code w = [d.name] := by rw [operandTexts, hd]
    have harg : argumentOf c ins .code w = .code d.name := by
      rw [argumentOf, hd, Option.map_some, Option.getD_some]
    rw [htexts, harg]
    exact printedAs_one (by decide) hname fun rest => rfl
  | jump => exact printedAs_one (by decide) (isArgument_labelText _) fun rest => rfl
  | packed =>
    have hn := (Word.unpack w).2.2.toNat_lt
    refine ⟨?_, rfl, fun rest => ?_⟩
    · simp only [operandTexts, List.forall_mem_cons, List.not_mem_nil, false_imp_iff, implies_true,
        and_true]
      exact ⟨isArgument_register _ (isWritten_quarter _), isArgument_register _ (isWritten_quarter _),
        isArgument_ofNat _⟩
    · have hcount : Numeral.unsigned 32 (Text.ofNat (Word.unpack w).2.2.toNat) =
          .ok (Word.unpack w).2.2.toNat := Numeral.unsigned_ofNat hn
      have ha : parseRegister (Word.unpack w).1.text = .ok (Word.unpack w).1 :=
        parseRegister_text (isWritten_quarter _)
      have hb : parseRegister (Word.unpack w).2.1.text = .ok (Word.unpack w).2.1 :=
        parseRegister_text (isWritten_quarter _)
      simp only [operandTexts, readArgument, List.cons_append, List.nil_append, ha, hb, hcount]
      simp only [bind, Except.bind, Except.mapError, pure, Except.pure, argumentOf,
        Nat.toUInt32_eq, UInt32.ofNat_toNat]

/-! ## Instructions -/

def textsOf (c : Code) (ins : Instruction) : List Text :=
  ins.operands.flatMap fun (kind, w) => operandTexts c ins kind w

theorem readArguments_printed {c : Code} {ins : Instruction} (op : Opcode) (index : Nat)
    {operands : List (OperandKind × Word)} (h : ∀ p ∈ operands, Printable c p.1 p.2) :
    readArguments op index (operands.map Prod.fst)
        (operands.flatMap fun (kind, w) => operandTexts c ins kind w) =
      .ok (operands.map fun (kind, w) => argumentOf c ins kind w) := by
  induction operands generalizing index with
  | nil => rfl
  | cons p operands ih =>
    obtain ⟨hp, hrest⟩ := List.forall_mem_cons.1 h
    have hone := printedAs_operand ins hp
    rw [List.map_cons, List.flatMap_cons, readArguments, hone.read]
    dsimp only
    rw [ih (index + 1) hrest]
    rfl

/-- The arguments of an instruction whose operands are those of its format. -/
theorem readInstruction_printed {c : Code} {ins : Instruction}
    (hformat : ins.operands.map Prod.fst = ins.opcode.format)
    (h : ∀ p ∈ ins.operands, Printable c p.1 p.2) :
    (∀ t ∈ textsOf c ins, IsArgument t) ∧
      readInstruction ins.opcode.text (textsOf c ins) =
        .ok (ins.opcode, ins.operands.map fun (kind, w) => argumentOf c ins kind w) := by
  have hname : Opcode.ofName? ins.opcode.text = some ins.opcode := by
    have hall : ∀ op ∈ Opcode.all, Opcode.ofName? op.text = some op := by
      simp only [Opcode.ofName?, Opcode.text]
      decide +kernel
    exact hall ins.opcode ins.opcode.mem_all
  have hlength : (textsOf c ins).length = Draft.argumentCount ins.opcode := by
    rw [Draft.argumentCount_eq, ← hformat, List.map_map, textsOf, List.length_flatMap]
    congr 1
    refine List.map_congr_left fun p hp => ?_
    exact (printedAs_operand ins (h p hp)).length
  refine ⟨fun t ht => ?_, ?_⟩
  · obtain ⟨p, hp, ht⟩ := List.mem_flatMap.1 ht
    exact (printedAs_operand ins (h p hp)).arguments t ht
  · rw [readInstruction, hname]
    dsimp only
    rw [if_neg (by rw [hlength]; simp), ← hformat, textsOf, readArguments_printed _ _ h]
    rfl

/-! ## Lines of a function -/

theorem mnemonic_symbols {w : Text} (hw : Symbols w) (rest : Text) :
    mnemonic (w ++ rest) = (w ++ (mnemonic rest).1, (mnemonic rest).2) := by
  induction w with
  | nil => rfl
  | cons b w ih =>
    obtain ⟨hb, hw⟩ := List.forall_mem_cons.1 hw
    obtain ⟨-, -, -, -, -, hspace, htab⟩ := isSymbol_facts hb
    rw [List.cons_append, mnemonic, if_neg (by simp [hspace, htab]), ih hw]
    rfl

theorem splitOperands_nil : splitOperands [] = some [] := by
  simp [splitOperands, pieces, Text.trim, Text.trimGlyphs]

theorem boundLabel?_spaced {line : Text} (h : 0x20 ∈ line) : boundLabel? line = none := by
  rw [boundLabel?, if_neg]
  rintro ⟨-, hany⟩
  exact hany (List.any_eq_true.2 ⟨0x20, h, rfl⟩)

/-- A line that begins with a word and a blank. -/
theorem bodyLine_spaced {w rest : Text} (hw : Symbols w) {args : List Text}
    (hargs : splitOperands rest = some args) :
    bodyLine (w ++ 0x20 :: rest) =
      if w = Text.ofString "function" then .ok .nested
      else if w = Text.ofString ".catch" then .ok (.handler false args)
      else if w = Text.ofString ".finally" then .ok (.handler true args)
      else .ok (.instruction w args) := by
  have hblank : 0x20 ∈ w ++ 0x20 :: rest := by simp
  have hend : w ++ 0x20 :: rest ≠ Text.ofString "end" := by
    intro heq
    rw [heq] at hblank
    exact absurd hblank (by decide)
  rw [bodyLine, if_neg hend, boundLabel?_spaced hblank, mnemonic_symbols hw, mnemonic, if_pos (.inl rfl)]
  dsimp only
  rw [hargs, List.append_nil]

theorem opcode_word (op : Opcode) : op.text ≠ [] ∧ op.text ≠ Text.ofString "end" ∧
    op.text ≠ Text.ofString "function" ∧ op.text ≠ Text.ofString ".catch" ∧
    op.text ≠ Text.ofString ".finally" ∧ op.text.getLast? ≠ some 0x3a := by
  have hall : ∀ op ∈ Opcode.all, op.text ≠ [] ∧ op.text ≠ Text.ofString "end" ∧
      op.text ≠ Text.ofString "function" ∧ op.text ≠ Text.ofString ".catch" ∧
      op.text ≠ Text.ofString ".finally" ∧ op.text.getLast? ≠ some 0x3a := by
    simp only [Opcode.text]
    decide +kernel
  exact hall op op.mem_all

theorem ofString_blank : Text.ofString " " = [0x20] := by decide

theorem instructionText_eq (c : Code) (ins : Instruction) :
    instructionText c ins = if (textsOf c ins).isEmpty then ins.opcode.text
      else ins.opcode.text ++ 0x20 :: joined (textsOf c ins) := by
  rw [instructionText, joined, ofString_blank, ← textsOf]
  simp only [List.append_assoc, List.singleton_append]

theorem bodyLine_instructionText {c : Code} {ins : Instruction}
    (h : ∀ t ∈ textsOf c ins, IsArgument t) :
    IsPrintedLine (instructionText c ins) ∧
      bodyLine (instructionText c ins) = .ok (.instruction ins.opcode.text (textsOf c ins)) := by
  obtain ⟨hne, hend, hfunction, hcatch, hfinally, hlast⟩ := opcode_word ins.opcode
  have hsymbols := symbols_opcode ins.opcode
  rw [instructionText_eq]
  split
  · rename_i hempty
    have hmnemonic := mnemonic_symbols hsymbols []
    rw [mnemonic, List.append_nil] at hmnemonic
    refine ⟨(isArgument_of_symbols hne hsymbols).isPrintedLine, ?_⟩
    rw [List.isEmpty_iff.1 hempty, bodyLine, if_neg hend, boundLabel?, if_neg (fun hb => hlast hb.1),
      hmnemonic]
    dsimp only
    rw [splitOperands_nil]
    dsimp only
    rw [if_neg hfunction, if_neg hcatch, if_neg hfinally]
  · rename_i hfull
    have hargs : textsOf c ins ≠ [] := fun heq => hfull (List.isEmpty_iff.2 heq)
    refine ⟨.of_word (isArgument_of_symbols hne hsymbols).isPrintedLine (isPrintedLine_joined hargs h),
      ?_⟩
    rw [bodyLine_spaced hsymbols (splitOperands_joined hargs h), if_neg hfunction, if_neg hcatch,
      if_neg hfinally]

/-! ## Labels -/

theorem ofString_colon : Text.ofString ":" = [0x3a] := by decide

theorem isPrintedLine_label (n : Nat) : IsPrintedLine (labelText n ++ Text.ofString ":") := by
  rw [ofString_colon]
  exact (isArgument_labelText n).isPrintedLine.append_mark (.inl (by decide))

theorem bodyLine_label (n : Nat) :
    bodyLine (labelText n ++ Text.ofString ":") = .ok (.label (labelText n)) := by
  have hsymbols : Symbols (labelText n ++ [0x3a]) := (symbols_labelText n).append (by decide)
  have hlast : (labelText n ++ [0x3a]).getLast? = some 0x3a := by simp
  have hend : labelText n ++ [0x3a] ≠ Text.ofString "end" := by
    intro heq
    rw [heq] at hlast
    exact absurd hlast (by decide)
  have hany : ¬ (labelText n ++ [0x3a]).any (fun b => b == 0x20 || b == 0x09 || b == 0x2c) := by
    rw [List.any_eq_true]
    rintro ⟨b, hb, heq⟩
    obtain ⟨-, -, -, hcomma, -, hspace, htab⟩ := isSymbol_facts (hsymbols b hb)
    simp [hcomma, hspace, htab] at heq
  rw [ofString_colon, bodyLine, if_neg hend, boundLabel?, if_pos ⟨hlast, hany⟩, List.dropLast_concat]

/-! ## Handlers -/

theorem cut_append {sep : UInt8} {key : Text} (h : sep ∉ key) (value : Text) :
    Text.cut sep (key ++ sep :: value) = (key, value) := by
  induction key with
  | nil => rw [List.nil_append, Text.cut, if_pos rfl]
  | cons b key ih =>
    rw [List.mem_cons, not_or] at h
    rw [List.cons_append, Text.cut, if_neg (Ne.symm h.1), ih h.2]

def keyed (key value : Text) : Text := key ++ 0x3d :: value

theorem isArgument_keyed {key value : Text} (hkey : Symbols key) (hvalue : Symbols value) :
    IsArgument (keyed key value) :=
  isArgument_of_symbols (by simp [keyed])
    (hkey.append (List.forall_mem_cons.2 ⟨by decide, hvalue⟩))

def handlerTexts (h : Handler) : List Text :=
  let range := [labelText h.start.toNat, labelText h.stop.toNat]
  let level := [keyed (Text.ofString "level") (Text.ofNat h.level.toNat)]
  if h.kind = Handler.kindFinally then
    range ++ [keyed (Text.ofString "jump") h.jump.text, keyed (Text.ofString "flag") h.flag.text] ++
      level
  else range ++ level

theorem isArgument_handlerTexts (h : Handler) : ∀ t ∈ handlerTexts h, IsArgument t := by
  have hrange (n m : Nat) : ∀ t ∈ [labelText n, labelText m], IsArgument t := by
    simp [isArgument_labelText]
  have hlevel : IsArgument (keyed (Text.ofString "level") (Text.ofNat h.level.toNat)) :=
    isArgument_keyed (.of_all (by decide)) (symbols_ofNat _)
  have hjump : IsArgument (keyed (Text.ofString "jump") h.jump.text) :=
    isArgument_keyed (.of_all (by decide)) (symbols_register _)
  have hflag : IsArgument (keyed (Text.ofString "flag") h.flag.text) :=
    isArgument_keyed (.of_all (by decide)) (symbols_register _)
  rw [handlerTexts]
  split <;> simp [isArgument_labelText, hlevel, hjump, hflag]

theorem handlerText_eq (h : Handler) :
    handlerText h = (if h.kind = Handler.kindFinally then Text.ofString ".finally"
      else Text.ofString ".catch") ++ 0x20 :: joined (handlerTexts h) := by
  have hfinally : Text.ofString ".finally " = Text.ofString ".finally" ++ [0x20] := by decide
  have hcatch : Text.ofString ".catch " = Text.ofString ".catch" ++ [0x20] := by decide
  have hlevel : Text.ofString ", level=" = 0x2c :: 0x20 :: (Text.ofString "level" ++ [0x3d]) := by
    decide
  have hjump : Text.ofString ", jump=" = 0x2c :: 0x20 :: (Text.ofString "jump" ++ [0x3d]) := by
    decide
  have hflag : Text.ofString ", flag=" = 0x2c :: 0x20 :: (Text.ofString "flag" ++ [0x3d]) := by
    decide
  rw [handlerText, handlerTexts]
  split
  · simp only [hfinally, hlevel, hjump, hflag, ofString_comma, List.cons_append, List.nil_append,
      joined_cons, joined_singleton, keyed, List.append_assoc]
  · simp only [hcatch, hlevel, ofString_comma, List.cons_append, List.nil_append,
      joined_cons, joined_singleton, keyed, List.append_assoc]

theorem bodyLine_handlerText (h : Handler) : IsPrintedLine (handlerText h) ∧
    bodyLine (handlerText h) =
      .ok (.handler (h.kind == Handler.kindFinally) (handlerTexts h)) := by
  have hargs := isArgument_handlerTexts h
  have hne : handlerTexts h ≠ [] := by
    rw [handlerTexts]
    split <;> simp
  have hsplit := splitOperands_joined hne hargs
  rw [handlerText_eq]
  split
  · rename_i hkind
    refine ⟨.of_word (IsArgument.isPrintedLine ?_) (isPrintedLine_joined hne hargs), ?_⟩
    · exact isArgument_of_symbols (by decide) (Symbols.of_all (by decide))
    · rw [bodyLine_spaced (.of_all (by decide)) hsplit, if_neg (by decide),
        if_neg (by decide), if_pos rfl, hkind]
      rfl
  · rename_i hkind
    refine ⟨.of_word (IsArgument.isPrintedLine ?_) (isPrintedLine_joined hne hargs), ?_⟩
    · exact isArgument_of_symbols (by decide) (Symbols.of_all (by decide))
    · rw [bodyLine_spaced (.of_all (by decide)) hsplit, if_neg (by decide), if_pos rfl,
        beq_eq_false_iff_ne.2 hkind]

theorem parseHandler_handlerTexts {h : Handler} (hwritten : h.IsWritten) :
    parseHandler (h.kind == Handler.kindFinally) (handlerTexts h) = .ok (lineOf h) := by
  have hlevel : Numeral.unsigned 32 (Text.ofNat h.level.toNat) = .ok h.level.toNat :=
    Numeral.unsigned_ofNat h.level.toNat_lt
  have hcut {key : Text} (hkey : 0x3d ∉ key) (value : Text) :
      Text.cut 0x3d (keyed key value) = (key, value) := cut_append hkey value
  have hlast (line : HandlerLine) : handlerAttributes line
      [keyed (Text.ofString "level") (Text.ofNat h.level.toNat)] = .ok { line with level := h.level } := by
    rw [handlerAttributes, hcut (by decide)]
    dsimp only
    rw [if_neg (by decide), if_neg (by decide), if_pos rfl, hlevel]
    simp [bind, Except.bind, Except.map, Except.mapError, handlerAttributes]
  rcases hwritten with ⟨hkind, hjump, hflag⟩ | ⟨hkind, hjump, hflag⟩
  · rw [handlerTexts, if_pos hkind]
    simp only [List.cons_append, List.nil_append, parseHandler]
    rw [handlerAttributes, hcut (by decide)]
    dsimp only
    rw [if_pos rfl, parseRegister_text hjump]
    simp only [Except.mapError, Except.map, bind, Except.bind]
    rw [handlerAttributes, hcut (by decide)]
    dsimp only
    rw [if_neg (by decide), if_pos rfl, parseRegister_text hflag]
    simp only [Except.mapError, Except.map, bind, Except.bind, hlast]
    have hpresent : (h.jump == Register.invalid || h.flag == Register.invalid) = false := by
      simp [hjump.ne_invalid, hflag.ne_invalid]
    rw [hpresent, Bool.and_false]
    rfl
  · have hne : ¬ h.kind = Handler.kindFinally := by rw [hkind]; decide
    rw [handlerTexts, if_neg hne, beq_eq_false_iff_ne.2 hne]
    simp only [List.cons_append, List.nil_append, parseHandler, hlast, bind, Except.bind,
      Bool.false_and, Bool.false_eq_true, if_false, pure, Except.pure]
    rw [lineOf, beq_eq_false_iff_ne.2 hne, hjump, hflag]

/-! ## Headers -/

/-- A name that a header can give: a word without the marks of quotes and comments. -/
structure IsName (t : Text) : Prop where
  word : Text.IsWord t
  plain : ∀ b ∈ t, IsPlain b

theorem IsName.isPrintedLine {t : Text} (h : IsName t) : IsPrintedLine t where
  ne_nil := h.word.ne_nil
  uncommented := uncommented_of_plain h.plain
  trimmed := h.word.isTrimmed
  line hmem := by
    have := h.word.solid _ (Text.mem_glyphs_of_lt hmem (by decide))
    exact absurd this (by decide)

theorem IsName.isArgument {t : Text} (h : IsName t) (hcomma : 0x2c ∉ t) : IsArgument t where
  ne_nil := h.isPrintedLine.ne_nil
  uncommented := h.isPrintedLine.uncommented
  unsplit := unsplit_of_plain fun b hb => ⟨(h.plain b hb).1, fun heq => hcomma (heq ▸ hb)⟩
  trimmed := h.isPrintedLine.trimmed
  line := h.isPrintedLine.line

theorem join_singleton (sep a : Text) : Text.join sep [a] = a := by simp [Text.join]

theorem join_cons (sep a b : Text) (rest : List Text) :
    Text.join sep (a :: b :: rest) = a ++ (sep ++ Text.join sep (b :: rest)) := by
  rw [Text.join, Text.join, List.intersperse_cons_cons]
  simp

theorem fields_join {ws : List Text} (h : ∀ w ∈ ws, Text.IsWord w) :
    Text.fields (Text.join [0x20] ws) = ws := by
  induction ws with
  | nil => simp [Text.join, Text.fields, Text.fieldsFrom]
  | cons w ws ih =>
    obtain ⟨hw, hws⟩ := List.forall_mem_cons.1 h
    cases ws with
    | nil =>
      rw [join_singleton]
      exact Text.fields_word hw
    | cons v ws =>
      rw [join_cons, List.singleton_append, Text.fields_word_cons hw (.inl rfl), ih hws]

theorem isPrintedLine_join {ws : List Text} (hne : ws ≠ []) (h : ∀ w ∈ ws, IsPrintedLine w) :
    IsPrintedLine (Text.join [0x20] ws) := by
  induction ws with
  | nil => exact absurd rfl hne
  | cons w ws ih =>
    obtain ⟨hw, hws⟩ := List.forall_mem_cons.1 h
    cases ws with
    | nil =>
      rw [join_singleton]
      exact hw
    | cons v ws =>
      rw [join_cons, List.singleton_append]
      exact .of_word hw (ih (List.cons_ne_nil _ _) hws)

theorem not_mem_join {b : UInt8} (hb : b ≠ 0x20) {ws : List Text} (h : ∀ w ∈ ws, b ∉ w) :
    b ∉ Text.join [0x20] ws := by
  induction ws with
  | nil => simp [Text.join]
  | cons w ws ih =>
    obtain ⟨hw, hws⟩ := List.forall_mem_cons.1 h
    cases ws with
    | nil =>
      rw [join_singleton]
      exact hw
    | cons v ws => simp [join_cons, hw, hb, ih hws]

def headerWords (c : Code) : List Text :=
  [Text.ofString "function", c.name, keyed (Text.ofString "regs") (Text.ofNat c.registerCount.toNat),
    keyed (Text.ofString "params") (Text.ofNat c.params.toNat)] ++
    if c.strict then [Text.ofString "strict"] else []

theorem headerText_eq (c : Code) : headerText c = Text.join [0x20] (headerWords c) := by
  have hfunction : Text.ofString "function " = Text.ofString "function" ++ [0x20] := by decide
  have hregs : Text.ofString " regs=" = 0x20 :: (Text.ofString "regs" ++ [0x3d]) := by decide
  have hparams : Text.ofString " params=" = 0x20 :: (Text.ofString "params" ++ [0x3d]) := by
    decide
  have hstrict : Text.ofString " strict" = 0x20 :: Text.ofString "strict" := by decide
  rw [headerText, headerWords]
  split
  · simp only [hfunction, hregs, hparams, hstrict, List.cons_append, List.nil_append, join_cons, join_singleton,
      keyed, List.append_assoc]
  · simp only [hfunction, hregs, hparams, List.cons_append, List.nil_append, join_cons, join_singleton,
      keyed, List.append_assoc, List.append_nil]

theorem headerWords_facts {c : Code} (h : IsName c.name) :
    ∀ w ∈ headerWords c, Text.IsWord w ∧ IsPrintedLine w ∧ quoteMark ∉ w := by
  have hsymbols {w : Text} (hne : w ≠ []) (hw : Symbols w) :
      Text.IsWord w ∧ IsPrintedLine w ∧ quoteMark ∉ w :=
    ⟨isWord_of_symbols hne hw, (isArgument_of_symbols hne hw).isPrintedLine,
      fun hmem => (isSymbol_facts (hw _ hmem)).2.2.1.1 rfl⟩
  have hkeyed {key value : Text} (hkey : Symbols key) (hvalue : Symbols value) :
      Symbols (keyed key value) := hkey.append (List.forall_mem_cons.2 ⟨by decide, hvalue⟩)
  have hname : Text.IsWord c.name ∧ IsPrintedLine c.name ∧ quoteMark ∉ c.name :=
    ⟨h.word, h.isPrintedLine, fun hmem => (h.plain _ hmem).1 rfl⟩
  have hfunction := hsymbols (w := Text.ofString "function") (by decide) (.of_all (by decide))
  have hregs := hsymbols (by simp [keyed])
    (hkeyed (Symbols.of_all (t := Text.ofString "regs") (by decide)) (symbols_ofNat c.registerCount.toNat))
  have hparams := hsymbols (by simp [keyed])
    (hkeyed (Symbols.of_all (t := Text.ofString "params") (by decide)) (symbols_ofNat c.params.toNat))
  have hstrict := hsymbols (w := Text.ofString "strict") (by decide) (.of_all (by decide))
  intro w hw
  rw [headerWords, List.mem_append] at hw
  rcases hw with hw | hw
  · simp only [List.mem_cons, List.not_mem_nil, or_false] at hw
    rcases hw with rfl | rfl | rfl | rfl
    · exact hfunction
    · exact hname
    · exact hregs
    · exact hparams
  · split at hw
    · rw [List.mem_singleton.1 hw]
      exact hstrict
    · cases hw

theorem splitOperands_unquoted {t : Text} (h : quoteMark ∉ t) : ∃ args, splitOperands t = some args := by
  have hends : (pieces false t).2 = false := by
    induction t with
    | nil => rfl
    | cons b t ih =>
      rw [List.mem_cons, not_or] at h
      rw [pieces.eq_def]
      simp only [Bool.and_false, Bool.false_eq_true, if_false, beq_eq_false_iff_ne.2 (Ne.symm h.1),
        Bool.not_false, Bool.and_true]
      split <;> exact ih h.2
  rw [splitOperands]
  simp only [hends, Bool.false_eq_true, if_false]
  split
  · exact ⟨_, rfl⟩
  · exact ⟨_, rfl⟩

theorem bodyLine_headerText {c : Code} (h : IsName c.name) : IsPrintedLine (headerText c) ∧
    Text.fields (headerText c) = headerWords c ∧ bodyLine (headerText c) = .ok .nested := by
  have hwords := headerWords_facts h
  have hne : headerWords c ≠ [] := List.cons_ne_nil _ _
  rw [headerText_eq]
  refine ⟨isPrintedLine_join hne fun w hw => (hwords w hw).2.1, fields_join fun w hw => (hwords w hw).1,
    ?_⟩
  have hquote : quoteMark ∉ Text.join [0x20] (headerWords c).tail :=
    not_mem_join (by decide) fun w hw => (hwords w (List.mem_of_mem_tail hw)).2.2
  obtain ⟨args, hargs⟩ := splitOperands_unquoted hquote
  have hline : Text.join [0x20] (headerWords c) =
      Text.ofString "function" ++ 0x20 :: Text.join [0x20] (headerWords c).tail := by
    rw [headerWords, List.cons_append, List.cons_append, join_cons, List.singleton_append]
    rfl
  rw [hline, bodyLine_spaced (.of_all (by decide)) hargs, if_pos rfl]

theorem openFunction_headerWords (c : Code) : ∃ d, openFunction (headerWords c) = .ok d ∧ d.Fresh ∧
    d.builder.code.name = c.name ∧ d.builder.code.params = c.params ∧
    d.builder.code.strict = c.strict ∧ d.registers = some c.registerCount.toNat := by
  have hcut {key : Text} (hkey : 0x3d ∉ key) (value : Text) :
      Text.cut 0x3d (keyed key value) = (key, value) := cut_append hkey value
  have hregs : Numeral.unsigned 32 (Text.ofNat c.registerCount.toNat) = .ok c.registerCount.toNat :=
    Numeral.unsigned_ofNat c.registerCount.toNat_lt
  have hparams : Numeral.unsigned 32 (Text.ofNat c.params.toNat) = .ok c.params.toNat :=
    Numeral.unsigned_ofNat c.params.toNat_lt
  have hopen (more : List Text) : openFunction (Text.ofString "function" :: c.name ::
      keyed (Text.ofString "regs") (Text.ofNat c.registerCount.toNat) ::
      keyed (Text.ofString "params") (Text.ofNat c.params.toNat) :: more) =
        headerAttributes ⟨(Builder.new c.name).setParams c.params, [], [], [], [],
          some c.registerCount.toNat, -1⟩ more := by
    rw [openFunction, headerAttributes, hcut (by decide)]
    dsimp only
    rw [if_neg (by decide), if_pos rfl, hregs]
    simp only [Except.mapError, Except.map, bind, Except.bind]
    rw [headerAttributes, hcut (by decide)]
    dsimp only
    rw [if_neg (by decide), if_neg (by decide), if_pos rfl, hparams]
    simp [Except.mapError, Except.map, bind, Except.bind]
  have hstrict (d : Draft) : headerAttributes d [Text.ofString "strict"] =
      .ok { d with builder := d.builder.setStrict true } := by
    have hcut : Text.cut 0x3d (Text.ofString "strict") = (Text.ofString "strict", []) := by
      decide
    rw [headerAttributes, hcut]
    dsimp only
    rw [if_pos rfl]
    rfl
  rw [headerWords]
  cases hs : c.strict with
  | true =>
    refine ⟨_, (hopen _).trans (hstrict _), ?_, rfl, rfl, rfl, rfl⟩
    exact ⟨rfl, rfl, rfl, rfl, rfl, rfl, rfl, rfl, rfl, rfl, rfl, rfl⟩
  | false =>
    refine ⟨_, hopen _, ?_, rfl, rfl, rfl, rfl⟩
    exact ⟨rfl, rfl, rfl, rfl, rfl, rfl, rfl, rfl, rfl, rfl, rfl, rfl⟩

end Listing
end RegisterJit
