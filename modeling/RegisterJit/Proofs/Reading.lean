import RegisterJit.Proofs.Images
import RegisterJit.Proofs.Listings

/-!
# What is read can be printed

A line that was read has lost its comment, so a name that a header gives starts none; an operand without
quotes has no comma; registers have at most fifteen bits. So the listing of a code that was read is read
as the same code.

`Legible` codes are read back (`Listings`); here it is shown that codes that were read are legible. `IsRead`
says of a statement that it came from a line: its names have no comment, its operands without quotes no comma,
and its registers fit. `Account`, from `Restating`, says what the finished code holds of a statement. Together
`listed_of_finish` and `body_of_parse` give for every accepted text that its codes are listed, and
`parse_render` that their listing is accepted and gives the same tree. How decimals are read and shown is left
to a hypothesis of that theorem.
-/

namespace RegisterJit.Listing

open Text (quoteMark backslash)

/-! ## Names -/

theorem plain_of_beforeComment {raw t rest : Text} (h : beforeComment false raw = t ++ rest)
    (hquote : quoteMark ∉ t) : ∀ b ∈ t, IsPlain b := by
  induction t generalizing raw with
  | nil => simp
  | cons b t ih =>
    obtain _ | ⟨x, raw⟩ := raw
    · cases h
    rw [List.mem_cons, not_or] at hquote
    rw [beforeComment.eq_def] at h
    simp only [Bool.and_false, Bool.false_eq_true, if_false, Bool.not_false, Bool.and_true,
      List.cons_append] at h
    split at h
    · rename_i hx
      exact absurd ((beq_iff_eq.1 hx).symm.trans (List.cons.inj h).1) hquote.1
    · split at h
      · cases h
      · rename_i hx hmark
        obtain ⟨rfl, hrest⟩ := List.cons.inj h
        simp only [Bool.or_eq_true, beq_iff_eq, not_or] at hmark hx
        exact List.forall_mem_cons.2 ⟨⟨hx, hmark⟩, ih hrest hquote.2⟩

/-- The second word of a line is a name, if neither it nor the first one has quotes. -/
theorem isName_of_fields {raw w t : Text} {ws : List Text}
    (h : Text.fields (stripComment raw) = w :: t :: ws) (hw : quoteMark ∉ w) (ht : quoteMark ∉ t) :
    IsName t := by
  obtain ⟨gs, hs, ks, hglyphs, htrim, -, hblank, -⟩ := Text.exists_trim (beforeComment false raw)
  obtain ⟨bs, cs, rest, hline, hblank'⟩ := Text.exists_second_field h
  have hgs : quoteMark ∉ Text.ofGlyphs gs :=
    Text.not_mem_ofGlyphs_blank (t := beforeComment false raw)
      (fun g hg => ⟨by rw [hglyphs]; simp [hg], hblank g (by simp [hg])⟩) (by decide) (by decide)
  have hbs : quoteMark ∉ Text.ofGlyphs bs :=
    Text.not_mem_ofGlyphs_blank (fun g hg => hblank' g (by simp [hg])) (by decide) (by decide)
  have hcs : quoteMark ∉ Text.ofGlyphs cs :=
    Text.not_mem_ofGlyphs_blank (fun g hg => hblank' g (by simp [hg])) (by decide) (by decide)
  have hwhole : beforeComment false raw =
      (Text.ofGlyphs gs ++ (Text.ofGlyphs bs ++ (w ++ (Text.ofGlyphs cs ++ t)))) ++
        (rest ++ Text.ofGlyphs ks) := by
    have hstrip : stripComment raw = Text.ofGlyphs hs := htrim
    rw [← Text.ofGlyphs_glyphs (beforeComment false raw), hglyphs]
    simp only [Text.ofGlyphs, List.flatMap_append] at hstrip hline ⊢
    rw [← hstrip, hline]
    simp only [List.append_assoc]
  refine ⟨Text.isWord_of_mem_fields (by rw [h]; simp), fun b hb => ?_⟩
  exact plain_of_beforeComment hwhole (by simp [hgs, hbs, hw, hcs, ht]) b (by simp [hb])

theorem headerAttributes_fresh {d d' : Draft} {attrs : List Text} (h : d.Fresh)
    (heq : headerAttributes d attrs = .ok d') :
    d'.Fresh ∧ d'.builder.code.name = d.builder.code.name := by
  induction attrs generalizing d with
  | nil =>
    cases heq
    exact ⟨h, rfl⟩
  | cons attr rest ih =>
    rw [headerAttributes] at heq
    simp only [bind, Except.bind] at heq
    split at heq
    · obtain ⟨hfresh, hname⟩ :=
        ih (show Draft.Fresh { d with builder := d.builder.setStrict true } from { h with }) heq
      exact ⟨hfresh, hname⟩
    split at heq
    · cases hn : Numeral.unsigned 32 (Text.cut 0x3d attr).2 with
      | error e => rw [hn] at heq; cases heq
      | ok n =>
        rw [hn] at heq
        obtain ⟨hfresh, hname⟩ :=
          ih (show Draft.Fresh { d with registers := some n } from { h with }) heq
        exact ⟨hfresh, hname⟩
    split at heq
    · cases hn : Numeral.unsigned 32 (Text.cut 0x3d attr).2 with
      | error e => rw [hn] at heq; cases heq
      | ok n =>
        rw [hn] at heq
        obtain ⟨hfresh, hname⟩ :=
          ih (show Draft.Fresh { d with builder := d.builder.setParams n.toUInt32 } from { h with }) heq
        exact ⟨hfresh, hname⟩
    · cases heq

theorem openFunction_fresh {ws : List Text} {d : Draft} (h : openFunction ws = .ok d) :
    d.Fresh ∧ ∃ w attrs, ws = w :: d.builder.code.name :: attrs := by
  unfold openFunction at h
  split at h
  · rename_i w name attrs
    have hempty : Draft.Fresh ⟨Builder.new name, [], [], [], [], none, -1⟩ :=
      ⟨rfl, rfl, rfl, rfl, rfl, rfl, rfl, rfl, rfl, rfl, rfl, rfl⟩
    obtain ⟨hfresh, hname⟩ := headerAttributes_fresh hempty h
    exact ⟨hfresh, w, attrs, by rw [hname]; rfl⟩
  · cases h

theorem first_of_nested {line w : Text} {ws : List Text} (h : bodyLine line = .ok .nested)
    (hfields : Text.fields line = w :: ws) : w = Text.ofString "function" := by
  have hcut (t : Text) : (t = (mnemonic t).1 ∧ (mnemonic t).2 = []) ∨
      ∃ b, (b = 0x20 ∨ b = 0x09) ∧ t = (mnemonic t).1 ++ b :: (mnemonic t).2 := by
    induction t with
    | nil => exact .inl ⟨rfl, rfl⟩
    | cons b t ih =>
      rw [mnemonic]
      split
      · rename_i hb
        exact .inr ⟨b, hb, rfl⟩
      · rcases ih with ⟨hall, hrest⟩ | ⟨x, hx, hall⟩
        · exact .inl ⟨congrArg (b :: ·) hall, hrest⟩
        · exact .inr ⟨x, hx, congrArg (b :: ·) hall⟩
  have hword : (mnemonic line).1 = Text.ofString "function" := by
    rw [bodyLine] at h
    generalize mnemonic line = cut at h ⊢
    obtain ⟨word, rest⟩ := cut
    split at h
    · cases h
    split at h
    · cases h
    dsimp only at h
    split at h
    · cases h
    split at h
    · assumption
    split at h
    · cases h
    split at h <;> cases h
  have hfunction : Text.IsWord (Text.ofString "function") :=
    isWord_of_symbols (by decide +kernel) (by decide +kernel)
  rcases hcut line with ⟨hall, -⟩ | ⟨b, hb, hall⟩
  · rw [hall, hword, Text.fields_word hfunction] at hfields
    exact (List.cons.inj hfields).1.symm
  · rw [hall, hword, Text.fields_word_cons hfunction hb] at hfields
    exact (List.cons.inj hfields).1.symm

/-! ## Operands -/

/-- A text that holds a comma only within quotes. -/
def Bare (t : Text) : Prop := quoteMark ∉ t → 0x2c ∉ t

theorem bare_pieces (quoted : Bool) (t : Text) :
    (∀ p ∈ (pieces quoted t).1.tail, Bare p) ∧
      (quoted = false → ∀ p ∈ (pieces quoted t).1.head?, Bare p) := by
  have htail (bytes : Text) {ps : List Text} (h : ∀ p ∈ ps.tail, Bare p) :
      ∀ p ∈ (extendFirst bytes ps).tail, Bare p := by
    cases ps with
    | nil => exact fun p hp => absurd hp List.not_mem_nil
    | cons => exact h
  induction quoted, t using pieces.induct with
  | case1 quoted =>
    rw [pieces]
    exact ⟨by simp, fun _ => by simp [Bare]⟩
  | case2 quoted b hescape =>
    obtain ⟨-, rfl⟩ := Bool.and_eq_true_iff.1 hescape
    rw [pieces.eq_def]
    simp only [hescape, if_true]
    exact ⟨by simp, fun h => absurd h (by decide)⟩
  | case3 quoted b hescape c rest more ends hrest ih =>
    obtain ⟨-, rfl⟩ := Bool.and_eq_true_iff.1 hescape
    rw [hrest] at ih
    rw [pieces.eq_def]
    simp only [hescape, if_true, hrest]
    exact ⟨htail _ ih.1, fun h => absurd h (by decide)⟩
  | case4 quoted b rest hescape hquote more ends hrest ih =>
    rw [hrest] at ih
    rw [pieces.eq_def]
    simp only [hescape, hquote, Bool.false_eq_true, if_false, if_true, hrest]
    refine ⟨htail _ ih.1, fun _ p hp hbare => absurd ?_ hbare⟩
    rw [← beq_iff_eq.1 hquote]
    cases more <;> cases hp <;> simp
  | case5 quoted b rest hescape hquote hcomma more ends hrest ih =>
    obtain ⟨p, ps, hp⟩ := List.exists_cons_of_ne_nil (pieces_ne_nil quoted rest)
    rw [hrest] at ih hp
    obtain rfl : more = p :: ps := hp
    rw [pieces.eq_def]
    simp only [hescape, hquote, hcomma, Bool.false_eq_true, if_false, if_true, hrest]
    have hunquoted : quoted = false := by simpa using (Bool.and_eq_true_iff.1 hcomma).2
    exact ⟨List.forall_mem_cons.2 ⟨ih.2 hunquoted p rfl, ih.1⟩, fun _ => by simp [Bare]⟩
  | case6 quoted b rest hescape hquote hcomma more ends hrest ih =>
    obtain ⟨p, ps, hp⟩ := List.exists_cons_of_ne_nil (pieces_ne_nil quoted rest)
    rw [hrest] at ih hp
    obtain rfl : more = p :: ps := hp
    rw [pieces.eq_def]
    simp only [hescape, hquote, hcomma, Bool.false_eq_true, if_false, hrest]
    refine ⟨htail _ ih.1, fun hunquoted q hq hbare => ?_⟩
    obtain rfl : [b] ++ p = q := Option.some.inj hq
    have hb : 0x2c ≠ b := by
      rintro rfl
      exact hcomma (by rw [hunquoted]; rfl)
    rw [List.mem_append, List.mem_singleton, not_or] at hbare ⊢
    exact ⟨hb, ih.2 hunquoted p rfl hbare.2⟩

theorem bare_trim {t : Text} (h : Bare t) : Bare (Text.trim t) := by
  obtain ⟨gs, hs, ks, hglyphs, htrim, -, hblank, -⟩ := Text.exists_trim t
  have hsub (g : Text.Glyph) (hg : g ∈ gs ++ ks) : g ∈ Text.glyphs t := by
    rw [hglyphs]
    rcases List.mem_append.1 hg with hg | hg <;> simp [hg]
  have hquote : quoteMark ∉ Text.ofGlyphs (gs ++ ks) :=
    Text.not_mem_ofGlyphs_blank (fun g hg => ⟨hsub g hg, hblank g hg⟩) (by decide) (by decide)
  have hwhole : t = Text.ofGlyphs gs ++ (Text.trim t ++ Text.ofGlyphs ks) := by
    rw [htrim]
    conv_lhs => rw [← Text.ofGlyphs_glyphs t, hglyphs]
    simp [Text.ofGlyphs]
  simp only [Text.ofGlyphs, List.flatMap_append, List.mem_append, not_or] at hquote
  intro hbare hcomma
  refine h ?_ (by rw [hwhole]; simp [hcomma])
  rw [hwhole]
  simp only [List.mem_append, not_or]
  exact ⟨hquote.1, hbare, hquote.2⟩

theorem bare_splitOperands {t : Text} {args : List Text} (h : splitOperands t = some args) :
    ∀ a ∈ args, Bare a := by
  obtain ⟨htail, hhead⟩ := bare_pieces false t
  have hall : ∀ p ∈ (pieces false t).1, Bare p := by
    obtain ⟨p, ps, hp⟩ := List.exists_cons_of_ne_nil (pieces_ne_nil false t)
    rw [hp] at htail hhead ⊢
    exact List.forall_mem_cons.2 ⟨hhead rfl p rfl, htail⟩
  have hargs : ∀ a ∈ (pieces false t).1.map Text.trim, Bare a :=
    List.forall_mem_map.2 fun p hp => bare_trim (hall p hp)
  rw [splitOperands] at h
  dsimp only at h
  split at h
  · cases h
  split at h
  · cases h
    simp
  · cases h
    exact hargs

/-! ## Statements -/

/-- A handler line whose registers can be written, as far as it has any. -/
def HandlerLine.IsRead (h : HandlerLine) : Prop :=
  h.isFinally = true → h.jump.IsWritten ∧ h.flag.IsWritten

theorem handlerAttributes_written {h h' : HandlerLine} {attrs : List Text}
    (hwritten : (h.jump = Register.invalid ∨ h.jump.IsWritten) ∧
      (h.flag = Register.invalid ∨ h.flag.IsWritten))
    (heq : handlerAttributes h attrs = .ok h') :
    (h'.jump = Register.invalid ∨ h'.jump.IsWritten) ∧
      (h'.flag = Register.invalid ∨ h'.flag.IsWritten) := by
  induction attrs generalizing h with
  | nil =>
    cases heq
    exact hwritten
  | cons attr rest ih =>
    rw [handlerAttributes] at heq
    simp only [bind, Except.bind] at heq
    split at heq
    · cases hr : parseRegister (Text.cut 0x3d attr).2 with
      | error e => rw [hr] at heq; cases heq
      | ok r =>
        simp only [hr, Except.mapError, Except.map] at heq
        refine ih ?_ heq
        exact ⟨.inr (parseRegister_written hr), hwritten.2⟩
    split at heq
    · cases hr : parseRegister (Text.cut 0x3d attr).2 with
      | error e => rw [hr] at heq; cases heq
      | ok r =>
        simp only [hr, Except.mapError, Except.map] at heq
        refine ih ?_ heq
        exact ⟨hwritten.1, .inr (parseRegister_written hr)⟩
    split at heq
    · cases hn : Numeral.unsigned 32 (Text.cut 0x3d attr).2 with
      | error e => rw [hn] at heq; cases heq
      | ok n =>
        simp only [hn, Except.mapError, Except.map] at heq
        refine ih ?_ heq
        exact hwritten
    · cases heq

theorem isRead_of_parseHandler {isFinally : Bool} {args : List Text} {h : HandlerLine}
    (heq : parseHandler isFinally args = .ok h) : h.IsRead := by
  intro hfinally
  obtain ⟨hjump, hflag⟩ := parseHandler_registers heq hfinally
  unfold parseHandler at heq
  split at heq
  · rename_i start stop attributes
    cases hattributes : handlerAttributes
        ⟨isFinally, start, stop, Register.invalid, Register.invalid, 0⟩ attributes with
    | error e => rw [hattributes] at heq; cases heq
    | ok h' =>
      rw [hattributes] at heq
      simp only [bind, Except.bind] at heq
      split at heq
      · cases heq
      · cases heq
        obtain ⟨hj, hf⟩ := handlerAttributes_written ⟨.inl rfl, .inl rfl⟩ hattributes
        exact ⟨hj.resolve_left hjump, hf.resolve_left hflag⟩
  · cases heq

/-- What is asked of a code so that its listing can be read: its name has no quotes, its sizes can be
told in 32 bits, and its numbers are read back. -/
structure Recoverable (c : Code) : Prop where
  name : quoteMark ∉ c.name
  small : Small c
  numbers : ∀ k ∈ c.constants, k.kind = Constant.kindNumber →
    Double.parse k.number.literalText = .ok k.number

/-- A program every code of which can be listed. -/
inductive Listed : Code → Prop
  | intro {c : Code} {ss : List Statement} (lists : Lists c ss) (nested : ∀ d ∈ nestedOf ss, Listed d) :
      Listed c

theorem Listed.restated {c : Code} (h : Listed c) (indent : Nat) :
    IsName c.name ∧ Restated (renderIn (List.replicate indent 0x20) c) c := by
  induction h generalizing indent with
  | intro lists _ ih =>
    exact ⟨lists.name, lists.restated indent fun d hd n => (ih d hd n).2.tells (ih d hd n).1⟩

/-- What holds of a statement that was read. -/
def Statement.IsRead : Statement → Prop
  | .label _ => True
  | .instruction op as =>
    List.Forall₂ (fun kind a => Argument.Suits a kind) op.format as ∧ ∀ a ∈ as, a.Read Bare
  | .handler h => h.IsRead
  | .nested c => (∀ d, some d ∈ c.walk → Recoverable d ∧ ∃ ops, d.Formed ops) → Listed c

theorem Statement.IsRead.suits {st : Statement} (h : st.IsRead) : st.Suits := by
  cases st with
  | instruction op as => exact h.1
  | _ => trivial

theorem mem_constants_enterAll {T : Tables} {ss : List Statement} {k : Constant}
    (h : k ∈ (enterAll T ss).constants) :
    k ∈ T.constants ∨ ∃ op as, .instruction op as ∈ ss ∧ .constant k ∈ as := by
  have hargument (T : Tables) (a : Argument) (h : k ∈ (a.enter T).constants) :
      k ∈ T.constants ∨ a = .constant k := by
    cases a with
    | constant k' =>
      rw [Argument.enter, Tables.constant] at h
      cases hfind : T.constants.findIdx? fun have_ => have_.same k' with
      | some i =>
        rw [hfind] at h
        exact .inl h
      | none =>
        rw [hfind] at h
        rcases Array.mem_push.1 h with h | rfl
        · exact .inl h
        · exact .inr rfl
    | name t =>
      rw [Argument.enter, Tables.name] at h
      cases hfind : T.names.idxOf? t <;> rw [hfind] at h <;> exact .inl h
    | _ => exact .inl h
  have harguments (T : Tables) (as : List Argument) (h : k ∈ (enterArguments T as).constants) :
      k ∈ T.constants ∨ .constant k ∈ as := by
    induction as generalizing T with
    | nil => exact .inl h
    | cons a as ih =>
      rcases ih (a.enter T) h with h | h
      · rcases hargument T a h with h | rfl
        · exact .inl h
        · exact .inr (List.mem_cons_self ..)
      · exact .inr (List.mem_cons_of_mem _ h)
  induction ss generalizing T with
  | nil => exact .inl h
  | cons st ss ih =>
    rcases ih h with h | ⟨op, as, hmem, hk⟩
    · cases st with
      | instruction op as =>
        rcases harguments T as h with h | h
        · exact .inl h
        · exact .inr ⟨op, as, List.mem_cons_self .., h⟩
      | _ => exact .inl h
    · exact .inr ⟨op, as, List.mem_cons_of_mem _ hmem, hk⟩

theorem mem_instructionsFrom {w : Spelling} {start : Nat} {T : Tables} {ss : List Statement}
    {ins : Instruction} (h : ins ∈ instructionsFrom w start T ss) :
    ∃ s T' op as, .instruction op as ∈ ss ∧
      ins = ⟨s, op, (Statement.instruction op as).words w s T'⟩ := by
  induction ss generalizing start T with
  | nil => cases h
  | cons st ss ih =>
    rw [instructionsFrom, List.mem_append] at h
    rcases h with h | h
    · cases st with
      | instruction op as => exact ⟨start, T, op, as, List.mem_cons_self .., List.mem_singleton.1 h⟩
      | _ => cases h
    · obtain ⟨s, T', op, as, hmem, heq⟩ := ih h
      exact ⟨s, T', op, as, List.mem_cons_of_mem _ hmem, heq⟩

/-- The word of an operand is that of an argument that suits it. -/
theorem mem_zip_argumentWords {w : Spelling} {start : Nat} {T : Tables} {kinds : List OperandKind}
    {as : List Argument} (hsuits : List.Forall₂ (fun kind a => Argument.Suits a kind) kinds as)
    {p : OperandKind × Word} (h : p ∈ kinds.zip (argumentWords w start T as)) :
    ∃ a ∈ as, ∃ T', a.Suits p.1 ∧ p.2 = a.word w start T' := by
  induction hsuits generalizing T with
  | nil => cases h
  | @cons kind a kinds as hone _ ih =>
    rw [argumentWords, List.zip_cons_cons, List.mem_cons] at h
    rcases h with rfl | h
    · exact ⟨a, List.mem_cons_self .., T, hone, rfl⟩
    · obtain ⟨b, hb, T', hsuits, hword⟩ := ih h
      exact ⟨b, List.mem_cons_of_mem _ hb, T', hsuits, hword⟩

theorem isWritten_of_unplaced {hd : Handler} {line : HandlerLine} (hline : line.IsRead)
    (heq : unplaced hd = line.handler fun _ => 0) : hd.IsWritten := by
  have hfields : hd.kind = (unplaced hd).kind ∧ hd.jump = (unplaced hd).jump ∧
      hd.flag = (unplaced hd).flag := ⟨rfl, rfl, rfl⟩
  obtain ⟨hkind, hjump, hflag⟩ := hfields
  rw [heq, HandlerLine.handler] at hkind hjump hflag
  cases hfinally : line.isFinally with
  | true =>
    rw [hfinally, if_pos rfl] at hkind hjump hflag
    obtain ⟨hj, hf⟩ := hline hfinally
    exact .inl ⟨hkind, by rw [hjump]; exact hj, by rw [hflag]; exact hf⟩
  | false =>
    rw [hfinally, if_neg Bool.false_ne_true] at hkind hjump hflag
    exact .inr ⟨hkind, hjump, hflag⟩

/-- What an operand of a code that was read stands for can be printed. -/
theorem Accepted.printable {c : Code} {ss : List Statement} (h : Accepted c ss)
    (hread : ∀ st ∈ ss, st.IsRead)
    (hnumbers : ∀ k ∈ c.constants, k.kind = Constant.kindNumber →
      Double.parse k.number.literalText = .ok k.number)
    (hnames : ∀ d ∈ nestedOf ss, IsName d.name) {ins : Instruction}
    (hins : ins ∈ Stream.instructions c.data) {kind : OperandKind} {w : Word}
    (hw : (kind, w) ∈ ins.operands) : Printable c kind w := by
  have hdefect := h.operandDefect?_eq_none hins hw
  rw [h.toAccount.instructions_eq] at hins
  obtain ⟨s, T, op, as, hmem, rfl⟩ := mem_instructionsFrom hins
  obtain ⟨hsuits, hargs⟩ := hread _ hmem
  obtain ⟨a, ha, T', hkind, hword⟩ := mem_zip_argumentWords hsuits hw
  cases kind with
  | register =>
    cases a <;> try exact hkind.elim
    rename_i r
    have hreg : Word.reg w = r := by
      rw [show w = Word.ofRegister r from hword, Word.reg_ofRegister]
    rw [Printable, hreg]
    exact hargs _ ha
  | constant =>
    simp only [Code.operandDefect?, ite_eq_right_iff, reduceCtorEq, imp_false, Nat.not_le] at hdefect
    have hk : c.constants.getD (Word.u32 w).toNat default ∈ c.constants := by
      rw [Array.getD_eq_getD_getElem?, Array.getElem?_eq_getElem hdefect, Option.getD_some]
      exact Array.getElem_mem hdefect
    obtain ⟨t, ht⟩ : ∃ t, parseConstant t = .ok (c.constants.getD (Word.u32 w).toNat default) := by
      have hk' := hk
      rw [h.constants] at hk'
      rcases mem_constants_enterAll hk' with hnone | ⟨op', as', hmem', hk'⟩
      · exact absurd hnone (Array.not_mem_empty _)
      · rw [h.constants]
        exact (hread _ hmem').2 _ hk'
    exact parseConstant_render ht (hnumbers _ hk)
  | code =>
    cases a <;> try exact hkind.elim
    rename_i t
    obtain ⟨s', hs'⟩ := exists_collectFrom Statement.referencesAt 0 hmem
    obtain ⟨p, hp, rfl⟩ := exists_placesFrom (f := Argument.code?) (s' + 1) ha rfl
    obtain ⟨d, hd, hget, hname⟩ :=
      h.toAccount.code_of_word h.small (h.linkable.references p (hs' p hp))
    have hprintable := hnames d hd
    refine ⟨d, ?_, hprintable.isArgument ?_⟩
    · rw [show w = codeWord (nestedOf ss) p.2 from hword]
      exact hget
    · rw [hname] at hprintable ⊢
      exact hargs _ ha fun hquote => (hprintable.plain _ hquote).1 rfl
  | _ => trivial

theorem account_of_finish {d : Draft} {ss : List Statement} {c : Code} (hfresh : d.Fresh)
    (hss : ∀ st ∈ ss, st.Suits) (hfinish : (ss.foldl Draft.say d).finish = .ok c) : Account c ss := by
  have hsays := hfresh.says_all hss
  obtain ⟨r, hs, rfl, -, -⟩ := hsays.eq_of_finish hss hfinish
  exact
    { suits := hss
      linkable := hsays.linkable_of_finish hfinish
      data := rfl
      constants := rfl
      names := rfl
      codes := rfl }

/-- A code that was finished after what its lines say can be listed, if its header was a line. -/
theorem listed_of_finish {raw w : Text} {attrs : List Text} {d : Draft} {ss : List Statement} {c : Code}
    (hheader : Text.fields (stripComment raw) = w :: d.builder.code.name :: attrs)
    (hw : quoteMark ∉ w) (hfresh : d.Fresh) (hread : ∀ st ∈ ss, st.IsRead)
    (hfinish : (ss.foldl Draft.say d).finish = .ok c)
    (hwalk : ∀ e, some e ∈ c.walk → Recoverable e ∧ ∃ ops, e.Formed ops) : Listed c := by
  have hsuits : ∀ st ∈ ss, st.Suits := fun st hst => (hread st hst).suits
  have haccount := account_of_finish hfresh hsuits hfinish
  obtain ⟨r, hs, rfl, hvalid, hhandlers⟩ := (hfresh.says_all hsuits).eq_of_finish hsuits hfinish
  set c : Code := { codeOf (d.head r) (.linked ss) ss with handlers := hs } with hc
  obtain ⟨hrecover, hformed⟩ := hwalk c (Code.mem_walk.2 (.inl rfl))
  have hnested : ∀ e ∈ nestedOf ss, Listed e := by
    intro e he
    obtain ⟨st, hst, hsome⟩ := List.mem_filterMap.1 he
    cases st with
    | nested e' =>
      cases hsome
      refine hread _ hst fun e' he' => hwalk e' (Code.mem_walk.2 (.inr ⟨e, ?_, he'⟩))
      exact List.mem_map.2 ⟨e, he, rfl⟩
    | _ => cases hsome
  have hnames : ∀ e ∈ nestedOf ss, IsName e.name := fun e he => ((hnested e he).restated 0).1
  have haccepted : Accepted c ss :=
    { haccount with
      formed := hformed
      small := hrecover.small
      jumping := hvalid
      handlers := fun hd hhd => by
        obtain ⟨line, hline, heq⟩ := hhandlers hd hhd
        obtain ⟨st, hst, hsome⟩ := List.mem_filterMap.1 hline
        cases st with
        | handler line' =>
          cases hsome
          exact isWritten_of_unplaced (hread _ hst) heq
        | _ => cases hsome }
  refine Listed.intro { haccepted with
    name := isName_of_fields hheader hw hrecover.name
    legible := fun ins hins => ⟨?_, ?_⟩ } hnested
  · rw [haccepted.toAccount.instructions_eq] at hins
    obtain ⟨s, T, op, as, hmem, rfl⟩ := mem_instructionsFrom hins
    have hlength : op.format.length = as.length := List.Forall₂.length_eq (hread _ hmem).1
    refine List.map_fst_zip ?_
    rw [Statement.words, List.drop_one, List.tail_cons, length_argumentWords, hlength]
  · rintro ⟨kind, w⟩ hw
    exact haccepted.printable hread hrecover.numbers hnames hins hw

theorem not_mem_function : quoteMark ∉ Text.ofString "function" := by decide +kernel

theorem read_of_readInstruction {P : Text → Prop} {word : Text} {args : List Text} {op : Opcode}
    {as : List Argument} (h : readInstruction word args = .ok (op, as)) (hargs : ∀ t ∈ args, P t) :
    List.Forall₂ (fun kind a => Argument.Suits a kind) op.format as ∧ ∀ a ∈ as, a.Read P := by
  unfold readInstruction at h
  split at h
  · cases h
  · rename_i op' _
    split at h
    · cases h
    · cases hread : readArguments op' 0 op'.format args with
      | error e => rw [hread] at h; cases h
      | ok as' =>
        rw [hread] at h
        cases h
        exact read_of_readArguments hread hargs

theorem isRead_of_instruction {line word : Text} {args : List Text} {op : Opcode} {as : List Argument}
    (hline : bodyLine line = .ok (.instruction word args))
    (hread : readInstruction word args = .ok (op, as)) : (Statement.instruction op as).IsRead := by
  have hbare : ∀ t ∈ args, Bare t := by
    rw [bodyLine] at hline
    split at hline
    · cases hline
    split at hline
    · cases hline
    dsimp only at hline
    split at hline
    · cases hline
    rename_i args' hargs
    split at hline
    · cases hline
    split at hline
    · cases hline
    split at hline <;> cases hline
    exact bare_splitOperands hargs
  exact read_of_readInstruction hread hbare

theorem isRead_of_body {lines rest : List Text} {ss : List Statement} (h : Body lines ss rest)
    (hlines : ∀ t ∈ lines, ∃ raw, t = stripComment raw) :
    (∀ st ∈ ss, st.IsRead) ∧ ∀ t ∈ rest, ∃ raw, t = stripComment raw := by
  induction h with
  | close _ => exact ⟨by simp, (List.forall_mem_cons.1 hlines).2⟩
  | label _ _ ih =>
    obtain ⟨hss, hrest⟩ := ih (List.forall_mem_cons.1 hlines).2
    exact ⟨List.forall_mem_cons.2 ⟨trivial, hss⟩, hrest⟩
  | instruction hline hread _ ih =>
    obtain ⟨hss, hrest⟩ := ih (List.forall_mem_cons.1 hlines).2
    exact ⟨List.forall_mem_cons.2 ⟨isRead_of_instruction hline hread, hss⟩, hrest⟩
  | handler _ hread _ ih =>
    obtain ⟨hss, hrest⟩ := ih (List.forall_mem_cons.1 hlines).2
    exact ⟨List.forall_mem_cons.2 ⟨isRead_of_parseHandler hread, hss⟩, hrest⟩
  | nested hline hopen _ hfinish _ ih ih' =>
    obtain ⟨⟨raw, rfl⟩, hmore⟩ := List.forall_mem_cons.1 hlines
    obtain ⟨hinner, hbetween⟩ := ih hmore
    obtain ⟨hss, hrest⟩ := ih' hbetween
    obtain ⟨hfresh, w, attrs, hfields⟩ := openFunction_fresh hopen
    obtain rfl := first_of_nested hline hfields
    refine ⟨List.forall_mem_cons.2 ⟨fun hwalk => ?_, hss⟩, hrest⟩
    exact listed_of_finish hfields not_mem_function hfresh hinner hfinish hwalk

/-! ## Programs -/

/-- A program that was read, and the way it was read. -/
theorem body_of_parse {source : Text} {c : Code} (h : parse source = .ok c) :
    ∃ (line : Line) (lines : List Line) (words : List Text) (d : Draft) (ss : List Statement),
      significantLines source = line :: lines ∧
      Text.fields line.text = Text.ofString "function" :: words ∧
      openFunction (Text.fields line.text) = .ok d ∧ Body (lines.map Line.text) ss [] ∧
      (ss.foldl Draft.say d).finish = .ok c := by
  unfold parse at h
  dsimp only at h
  split at h
  · cases h
  · rename_i line lines hlines
    split at h
    · cases h
    · rename_i first words hfields
      split at h
      · cases h
      · rename_i hfirst
        obtain rfl := not_not.1 hfirst
        split at h
        · cases h
        · rename_i d hopen
          split at h
          · cases h
          · rename_i code hread
            cases h
            obtain ⟨ss, hbody, hfinish⟩ := body_of_readBody hread
            exact ⟨line, lines, words, d, ss, hlines, hfields, by rw [hfields, hopen], hbody, hfinish⟩
          · cases h

theorem listed_of_parse {source : Text} {c : Code} (h : parse source = .ok c)
    (hrecover : ∀ d, some d ∈ c.walk → Recoverable d) : Listed c := by
  have hsound := parse_sound source
  rw [h] at hsound
  obtain ⟨line, lines, words, d, ss, hlines, hfields, hopen, hbody, hfinish⟩ := body_of_parse h
  have hstrip : ∀ l ∈ line :: lines, ∃ raw, l.text = stripComment raw := by
    intro l hl
    rw [← hlines, significantLines, List.mem_filterMap] at hl
    obtain ⟨⟨raw, i⟩, -, heq⟩ := hl
    dsimp only at heq
    split at heq
    · cases heq
    · cases heq
      exact ⟨raw, rfl⟩
  obtain ⟨⟨raw, hraw⟩, hmore⟩ := List.forall_mem_cons.1 hstrip
  obtain ⟨hread, -⟩ := isRead_of_body hbody (List.forall_mem_map.2 hmore)
  obtain ⟨hfresh, w, attrs, hwords⟩ := openFunction_fresh hopen
  have hw : w = Text.ofString "function" := by
    rw [hwords] at hfields
    exact (List.cons.inj hfields).1
  rw [hraw] at hwords
  refine listed_of_finish hwords (hw ▸ not_mem_function) hfresh hread hfinish fun e he => ?_
  obtain ⟨d', ops, heq, hformed⟩ := hsound _ he
  cases heq
  exact ⟨hrecover _ he, ops, hformed⟩

theorem Listed.parse_eq {c : Code} (h : Listed c) : parse (render c) = .ok c := by
  obtain ⟨hname, lines, d, hprints, hlines, hopen, hbody, hfinish⟩ := h.restated 0
  obtain ⟨-, hfields, -⟩ := bodyLine_headerText hname
  obtain ⟨header, more, hsignificant, hheader, hmore⟩ :=
    List.map_eq_cons_iff.1 (significantLines_printed hprints hlines)
  have hwords : Text.fields header.text = Text.ofString "function" :: (headerWords c).tail := by
    rw [hheader, hfields, headerWords]
    rfl
  have hbody := hbody []
  rw [List.append_nil] at hbody
  obtain ⟨rest, hread, hrest⟩ := @readBody_of_body (Text.lines (render c)).length (more.length + 1) d
    more lines [] c (told c) hbody hfinish hmore (Nat.le_succ more.length)
  obtain rfl := List.map_eq_nil_iff.1 hrest
  have hopen' : openFunction (Text.ofString "function" :: (headerWords c).tail) = .ok d := hopen
  rw [parse, show significantLines (render c) = header :: more from hsignificant]
  dsimp only
  rw [hwords]
  dsimp only
  rw [if_neg (not_not.2 rfl), hopen']
  dsimp only
  rw [hread]

/-- Listings are read back: a program that was read, whose functions have no quotes in their names, is
read from its listing as the same program, which has the same listing. -/
theorem parse_render (source : Text) (c : Code) (h : parse source = .ok c)
    (hquote : ∀ d, some d ∈ c.walk → quoteMark ∉ d.name)
    (hsmall : ∀ d, some d ∈ c.walk → d.data.size < 2 ^ 32 ∧ d.codes.length ≤ 2 ^ 32)
    (hnumber : ∀ d, some d ∈ c.walk → ∀ k ∈ d.constants, k.kind = Constant.kindNumber →
      Double.parse k.number.literalText = .ok k.number) :
    parse (render c) = .ok c ∧ (parse (render c)).map render = .ok (render c) := by
  have hlisted := listed_of_parse h fun d hd =>
    ⟨hquote d hd, ⟨(hsmall d hd).1, (hsmall d hd).2⟩, hnumber d hd⟩
  have hparse := hlisted.parse_eq
  exact ⟨hparse, by rw [hparse]; rfl⟩

/-- A program with a comment, quoted texts that hold marks, labels, both kinds of handlers and a nested
function. -/
def manifold : Text := "function main regs=4 ; comment
LOAD_CONST r0, 0.1
a:
LOAD_CONST r1, \";\\\",\"
LOAD_FUNCTION r2, f
IF_TRUE r2, a
b:
.catch a, b, level=1
.finally a, b, jump=r1, flag=r3
function f strict
LOAD_GLOBAL r0, \"#\"
end
end"

theorem parse_render_manifold : ∃ c, parse manifold = .ok c ∧ c.walk.length = 2 ∧
    c.handlers.size = 2 ∧ parse (render c) = .ok c := by
  have hsample : (match parse manifold with
      | .ok c => c.walk.length == 2 && c.handlers.size == 2 && c.walk.all fun o => o.all fun d =>
          !d.name.contains quoteMark && decide (d.data.size < 2 ^ 32) &&
            decide (d.codes.length ≤ 2 ^ 32) && d.constants.all fun k =>
              k.kind != Constant.kindNumber ||
                (Double.parse k.number.literalText).toOption == some k.number
      | .error _ => false) = true := by decide +kernel
  cases hc : parse manifold with
  | error e => rw [hc] at hsample; cases hsample
  | ok c =>
    simp only [hc, Bool.and_eq_true, beq_iff_eq] at hsample
    obtain ⟨⟨hlength, hhandlers⟩, hall⟩ := hsample
    have hcode (d : Code) (hd : some d ∈ c.walk) := List.all_eq_true.1 hall _ hd
    simp only [Option.all_some, Bool.and_eq_true, Bool.not_eq_true', decide_eq_true_eq,
      Array.all_eq_true', Bool.or_eq_true, bne_iff_ne, beq_iff_eq] at hcode
    refine ⟨c, rfl, hlength, hhandlers, (parse_render manifold c hc ?_ ?_ ?_).1⟩
    · intro d hd hmem
      have := (hcode d hd).1.1.1
      rw [List.contains_iff_mem.2 hmem] at this
      cases this
    · exact fun d hd => ⟨(hcode d hd).1.1.2, (hcode d hd).1.2⟩
    · intro d hd k hk hkind
      have hread := ((hcode d hd).2 k hk).resolve_left (not_not.2 hkind)
      cases hparse : Double.parse k.number.literalText with
      | error e => rw [hparse] at hread; cases hread
      | ok x =>
        rw [hparse] at hread
        exact congrArg _ (Option.some.inj hread)

end RegisterJit.Listing
