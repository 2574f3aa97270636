import RegisterJit.Proofs.Building
import RegisterJit.Proofs.Glyphs
import RegisterJit.Proofs.Numerals

/-!
# Programs that are read

Reading a program text keeps an invariant of the function being read, `Draft.Sound`: its builder is
sound, every label it knows was given out, and every word that stands for a nested function is an
operand that says so. So a text is rejected for a reason that lies in the text, or gives a sound
program.

A program text is read line by line into drafts, one for each function that is open. `Draft.Sound` is what a
draft satisfies at any time, `After` what an operand makes of it, and `Told` and `LineTold` exclude the error
that no text is to blame for. `Sound.operands` goes through the operands of an instruction, each checked against
its kind. A function that ends is finished by its builder, and `Linked` says what filling in the references to
nested functions does to its words. `parse_sound` is the conclusion for whole texts: an error that lies in the
text, or a tree of sound codes. `Program` compiles such trees.
-/

namespace RegisterJit

open RegisterJit.Stream (Spells Boundary IsOperand placed extent instructionAt)

/-- A computation ends well with a result of which `P` holds, or with an error of which `E` does. -/
def Outcome {ε α : Type} (x : Except ε α) (P : α → Prop) (E : ε → Prop) : Prop :=
  match x with
  | .ok a => P a
  | .error e => E e

namespace Outcome

variable {ε ε' α β : Type} {P : α → Prop} {E : ε → Prop}

@[simp] theorem ok {a : α} : Outcome (.ok a) P E ↔ P a := Iff.rfl

@[simp] theorem error {e : ε} : Outcome (.error e) P E ↔ E e := Iff.rfl

@[simp] theorem pure {a : α} : Outcome (Pure.pure a : Except ε α) P E ↔ P a := Iff.rfl

@[simp] theorem throw {e : ε} : Outcome (MonadExcept.throw e : Except ε α) P E ↔ E e := Iff.rfl

@[simp] theorem bind {x : Except ε β} {f : β → Except ε α} :
    Outcome (x >>= f) P E ↔ Outcome x (fun a => Outcome (f a) P E) E := by
  cases x <;> rfl

@[simp] theorem map {x : Except ε β} {f : β → α} :
    Outcome (x.map f) P E ↔ Outcome x (fun a => P (f a)) E := by
  cases x <;> rfl

@[simp] theorem mapError {x : Except ε' α} {f : ε' → ε} :
    Outcome (x.mapError f) P E ↔ Outcome x P (fun e => E (f e)) := by
  cases x <;> rfl

theorem mono {x : Except ε α} {P' : α → Prop} {E' : ε → Prop} (h : Outcome x P E)
    (hP : ∀ a, x = .ok a → P a → P' a) (hE : ∀ e, E e → E' e) : Outcome x P' E' := by
  cases x with
  | ok a => exact hP a rfl h
  | error e => exact hE e h

end Outcome

/-! ## Words of a line -/

namespace Text

theorem fieldsFrom_ne_nil {word : Text} (h : word ≠ []) (gs : List Glyph) :
    fieldsFrom word gs ≠ [] := by
  induction gs generalizing word with
  | nil => simp [fieldsFrom, h]
  | cons g gs ih =>
    rw [fieldsFrom]
    split
    · simp [h]
    · exact ih (by simp [h])

theorem fields_trim_ne_nil {t : Text} (h : trim t ≠ []) : fields (trim t) ≠ [] := by
  obtain ⟨-, -, -, -, -, -, -, htrimmed⟩ := exists_trim t
  have hbytes : ofGlyphs (glyphs (trim t)) ≠ [] := by rwa [ofGlyphs_glyphs]
  rw [fields]
  cases hgs : glyphs (trim t) with
  | nil => rw [hgs] at hbytes; exact absurd rfl hbytes
  | cons g gs =>
    have hsolid : g.isBlank = false := htrimmed.first g (by rw [hgs]; rfl)
    rw [fieldsFrom, if_neg (by simp [hsolid]), List.nil_append]
    exact fieldsFrom_ne_nil (bytes_ne_nil (t := trim t) (by rw [hgs]; simp)) gs

end Text

theorem Listing.fields_ne_nil_of_mem_significantLines {source : Text} {line : Line}
    (h : line ∈ significantLines source) : Text.fields line.text ≠ [] := by
  rw [significantLines, List.mem_filterMap] at h
  obtain ⟨⟨raw, i⟩, -, heq⟩ := h
  dsimp only at heq
  split at heq
  · cases heq
  · rename_i hne
    cases heq
    exact Text.fields_trim_ne_nil (by simpa [stripComment] using hne)

/-! ## Operands of a text -/

namespace Listing

theorem parseRegister_ne_invalid {t : Text} {r : Register} (h : parseRegister t = .ok r) :
    r ≠ Register.invalid := (parseRegister_written h).ne_invalid

theorem parseConstant_meaningful {t : Text} {k : Constant} (h : parseConstant t = .ok k) :
    k.Meaningful := by
  unfold parseConstant at h
  split at h
  · cases h
    exact .inr (.inr (.inl rfl))
  split at h
  · cases h
    exact .inr (.inr (.inr (.inl rfl)))
  split at h
  · cases h
    exact .inr (.inr (.inr (.inr rfl)))
  split at h
  · cases h
    exact .inr (.inr (.inr (.inr rfl)))
  split at h
  · split at h
    · cases h
      exact .inr (.inl rfl)
    · cases h
  · split at h
    · cases h
      exact .inl rfl
    · cases h

theorem handlerAttributes_isFinally {h h' : HandlerLine} {attrs : List Text}
    (heq : handlerAttributes h attrs = .ok h') : h'.isFinally = h.isFinally := by
  induction attrs generalizing h with
  | nil =>
    cases heq
    rfl
  | cons attr rest ih =>
    simp only [handlerAttributes, bind, Except.bind] at heq
    split at heq
    · cases hp : parseRegister (Text.cut 0x3d attr).2 <;> rw [hp] at heq
      · cases heq
      · have hrest := ih heq
        exact hrest
    split at heq
    · cases hp : parseRegister (Text.cut 0x3d attr).2 <;> rw [hp] at heq
      · cases heq
      · have hrest := ih heq
        exact hrest
    split at heq
    · cases hp : Numeral.unsigned 32 (Text.cut 0x3d attr).2 <;> rw [hp] at heq
      · cases heq
      · have hrest := ih heq
        exact hrest
    · cases heq

theorem parseHandler_registers {isFinally : Bool} {args : List Text} {h : HandlerLine}
    (heq : parseHandler isFinally args = .ok h) (hf : h.isFinally = true) :
    h.jump ≠ Register.invalid ∧ h.flag ≠ Register.invalid := by
  unfold parseHandler at heq
  split at heq
  · rename_i start stop attributes
    simp only [bind, Except.bind] at heq
    split at heq
    · cases heq
    · rename_i h₁ hattrs
      have hkeep := handlerAttributes_isFinally hattrs
      split at heq
      · cases heq
      · rename_i hcheck
        cases heq
        rw [hf] at hkeep
        simp only at hkeep
        simp only [← hkeep, Bool.true_and, Bool.or_eq_true, beq_iff_eq, not_or] at hcheck
        exact hcheck
  · cases heq

namespace Draft

/-! ## The invariant -/

/-- What holds of a function being read whose instructions have the opcodes `ops`. The words that
stand for nested functions are operands of `shape`, which may go on after `ops`. -/
structure Sound (d : Draft) (ops shape : List Opcode) : Prop where
  builder : d.builder.Sound ops
  labels : ∀ t l, (t, l) ∈ d.labels → d.builder.HasLabel l
  children : ∀ t i, (t, i) ∈ d.children → i < d.builder.code.codes.length
  references : ∀ p t, (p, t) ∈ d.references → ∃ s, IsOperand shape s p .code
  handlers : ∀ h ∈ d.handlers, h.isFinally = true →
    h.jump ≠ Register.invalid ∧ h.flag ≠ Register.invalid

variable {d : Draft} {ops shape : List Opcode}

theorem mem_of_lookup {α : Type} {l : List (Text × α)} {t : Text} {a : α}
    (h : l.lookup t = some a) : (t, a) ∈ l := by
  obtain ⟨l₁, l₂, rfl, -⟩ := List.lookup_eq_some_iff.1 h
  simp

theorem Sound.label (h : d.Sound ops shape) (t : Text) :
    (d.label t).2.Sound ops shape ∧ (d.label t).2.builder.HasLabel (d.label t).1 ∧
      (∀ l, d.builder.HasLabel l → (d.label t).2.builder.HasLabel l) ∧
      (d.label t).2.handlers = d.handlers ∧ (d.label t).2.references = d.references := by
  rw [Draft.label]
  split
  · rename_i l hl
    exact ⟨h, h.labels t l (mem_of_lookup hl), fun _ => id, rfl, rfl⟩
  · obtain ⟨hb, hnew, hmono⟩ := h.builder.newLabel
    refine ⟨{ h with builder := hb, labels := ?_ }, hnew, hmono, rfl, rfl⟩
    intro t' l hl
    rcases List.mem_cons.1 hl with hl | hl
    · cases hl
      exact hnew
    · exact hmono l (h.labels t' l hl)

theorem Sound.bind (h : d.Sound ops shape) (t : Text) : (d.bind t).Sound ops shape := by
  obtain ⟨hd, hl, -⟩ := h.label t
  obtain ⟨b, hb, hsound, hsize, hcode⟩ := hd.builder.bind hl
  have heq : d.bind t = { (d.label t).2 with builder := b } := by
    simp only [Draft.bind, hb, Option.getD_some]
  rw [heq]
  refine { hd with builder := hsound, labels := ?_, children := ?_ }
  · intro t' l hl'
    obtain ⟨h0, h1⟩ := hd.labels t' l hl'
    exact ⟨h0, by rw [hsize]; exact h1⟩
  · intro t' i hi
    rw [hcode]
    exact hd.children t' i hi

theorem Sound.noteRegister (h : d.Sound ops shape) (r : Register) :
    (d.noteRegister r).Sound ops shape := { h with }

/-- An operand error that lies in the text. -/
def Told (e : OperandError) : Prop := e ≠ .missing

theorem Sound.register (h : d.Sound ops shape) (t : Text) :
    Outcome (d.register t) (fun (r, d') =>
      d'.Sound ops shape ∧ r ≠ Register.invalid ∧ d'.builder = d.builder) Told := by
  rw [Draft.register, Outcome.map]
  cases hp : parseRegister t with
  | ok r => exact ⟨h.noteRegister r, parseRegister_ne_invalid hp, rfl⟩
  | error e =>
    rintro rfl
    unfold parseRegister at hp
    split at hp
    · cases hp
    · split at hp
      · split at hp
        · split at hp <;> cases hp
        · cases hp
      · cases hp

theorem parseConstant_told (t : Text) :
    Outcome (parseConstant t) Constant.Meaningful Told := by
  cases hp : parseConstant t with
  | ok k => exact parseConstant_meaningful hp
  | error e =>
    rintro rfl
    unfold parseConstant at hp
    split at hp
    · cases hp
    split at hp
    · cases hp
    split at hp
    · cases hp
    split at hp
    · cases hp
    split at hp <;> split at hp <;> cases hp

theorem parseName_told (t : Text) : Outcome (parseName t) (fun _ => True) Told := by
  unfold parseName Told
  split
  · split <;> simp
  · simp

def width (kind : OperandKind) : Nat := if kind = .packed then 3 else 1

/-- A draft after an operand of the instruction with opcode `op` has been read. -/
structure After (d : Draft) (ops : List Opcode) (op : Opcode) (kind : OperandKind)
    (o : BuilderOperand) (d' : Draft) : Prop where
  sound : d'.Sound ops (ops ++ [op])
  accepts : d'.builder.Accepts kind o
  labels : ∀ l, d.builder.HasLabel l → d'.builder.HasLabel l

theorem Sound.operand {op : Opcode} (h : d.Sound ops (ops ++ [op])) {index : Nat}
    {kind : OperandKind} (hk : op.format[index]? = some kind) (args : List Text)
    (hargs : width kind ≤ args.length) :
    Outcome (d.operand index kind args) (fun (o, d', args') =>
      d.After ops op kind o d' ∧ args'.length + width kind = args.length) Told := by
  obtain _ | ⟨arg, args⟩ := args
  · exact absurd hargs (by unfold width; split <;> simp)
  cases kind with
  | register =>
    simp only [Draft.operand, Outcome.bind, Outcome.pure]
    refine (h.register arg).mono (fun ⟨r, d'⟩ _ hr => ?_) fun _ => id
    obtain ⟨hd, hr, hb⟩ := hr
    exact ⟨⟨hd, hr, fun l hl => by rwa [hb]⟩, rfl⟩
  | jump =>
    obtain ⟨hd, hl, hmono, -⟩ := h.label arg
    exact ⟨⟨hd, hl, hmono⟩, rfl⟩
  | packed =>
    obtain _ | ⟨second, _ | ⟨third, args⟩⟩ := args
    · simp [width] at hargs
    · simp [width] at hargs
    · simp only [Draft.operand, Outcome.bind, Outcome.pure, Outcome.mapError]
      refine (h.register arg).mono (fun ⟨r, d₁⟩ _ hr => ?_) fun _ => id
      refine (hr.1.register second).mono (fun ⟨r', d₂⟩ _ hr' => ?_) fun _ => id
      cases hn : Numeral.unsigned 32 third with
      | error e => simp [Told]
      | ok n => exact ⟨⟨hr'.1, trivial, fun l hl => by rwa [hr'.2.2, hr.2.2]⟩, rfl⟩
  | signed | unsigned =>
    simp only [Draft.operand, Outcome.bind, Outcome.pure, Outcome.mapError]
    cases hn : Numeral.signed arg with
    | error e => simp [Told]
    | ok n => exact ⟨⟨h, trivial, fun _ => id⟩, rfl⟩
  | constant =>
    simp only [Draft.operand, Outcome.bind, Outcome.pure]
    refine (parseConstant_told arg).mono (fun k _ hk => ?_) fun _ => id
    obtain ⟨hb, hlabels, hcodes, -⟩ := h.builder.constant hk
    refine ⟨⟨{ h with builder := hb, labels := ?_, children := ?_ }, trivial, ?_⟩, rfl⟩
    · intro t l hl
      simpa only [Builder.HasLabel, hlabels] using h.labels t l hl
    · intro t i hi
      simpa only [hcodes] using h.children t i hi
    · intro l hl
      simpa only [Builder.HasLabel, hlabels] using hl
  | name =>
    simp only [Draft.operand, Outcome.bind, Outcome.pure]
    refine (parseName_told arg).mono (fun t _ _ => ?_) fun _ => id
    obtain ⟨hb, hlabels, hcodes, -⟩ := h.builder.name t
    refine ⟨⟨{ h with builder := hb, labels := ?_, children := ?_ }, trivial, ?_⟩, rfl⟩
    · intro t l hl
      simpa only [Builder.HasLabel, hlabels] using h.labels t l hl
    · intro t i hi
      simpa only [hcodes] using h.children t i hi
    · intro l hl
      simpa only [Builder.HasLabel, hlabels] using hl
  | code =>
    refine ⟨⟨{ h with references := ?_ }, trivial, fun _ => id⟩, rfl⟩
    intro p t hp
    rcases List.mem_append.1 hp with hp | hp
    · exact h.references p t hp
    · cases List.mem_singleton.1 hp
      refine ⟨extent ops, Stream.isOperand_append_iff.2 (.inr ⟨rfl, index, hk, ?_⟩)⟩
      rw [h.builder.offset_eq]

/-- A line error that lies in the text. -/
def LineTold (e : LineError) : Prop := ∀ op i, e ≠ .operand op i .missing

theorem accepts_mono {b b' : Builder} (hmono : ∀ l, b.HasLabel l → b'.HasLabel l)
    {kind : OperandKind} {o : BuilderOperand} (h : b.Accepts kind o) : b'.Accepts kind o := by
  cases kind <;> cases o <;> first | exact h | exact hmono _ h

/-- The operands of an instruction, one after the other: `kinds` are those of the format from
`index` on. -/
theorem Sound.operands {op : Opcode} (h : d.Sound ops (ops ++ [op])) {index : Nat}
    {kinds : List OperandKind} (hk : op.format.drop index = kinds) {args : List Text}
    (hargs : args.length = (kinds.map width).sum) :
    Outcome (d.operands op index kinds args) (fun (os, d') =>
      d'.Sound ops (ops ++ [op]) ∧ List.Forall₂ d'.builder.Accepts kinds os ∧
        ∀ l, d.builder.HasLabel l → d'.builder.HasLabel l) LineTold := by
  induction kinds generalizing d index args with
  | nil => exact ⟨h, .nil, fun _ => id⟩
  | cons kind kinds ih =>
    have hi : op.format[index]? = some kind := by
      rw [← List.head?_drop, hk, List.head?_cons]
    have hrest : op.format.drop (index + 1) = kinds := by
      rw [← List.tail_drop, hk, List.tail_cons]
    rw [List.map_cons, List.sum_cons] at hargs
    have hone := h.operand hi args (by omega)
    rw [Draft.operands]
    split
    · rename_i e heq
      rw [heq] at hone
      rintro op' i' habs
      cases habs
      exact hone rfl
    · rename_i o d₁ args₁ heq
      rw [heq] at hone
      obtain ⟨⟨hsound, hacc, hmono⟩, hlen⟩ := hone
      simp only [Outcome.bind, Outcome.pure]
      refine (ih hsound hrest (by omega)).mono (fun ⟨os, d₂⟩ _ h₂ => ?_) fun _ => id
      exact ⟨h₂.1, .cons (accepts_mono h₂.2.2 hacc) h₂.2.1, fun l hl => h₂.2.2 l (hmono l hl)⟩

theorem argumentCount_eq (op : Opcode) : argumentCount op = (op.format.map width).sum := by
  have (kinds : List OperandKind) :
      kinds.length + 2 * kinds.count .packed = (kinds.map width).sum := by
    induction kinds with
    | nil => rfl
    | cons kind kinds ih =>
      by_cases hk : kind = .packed
      · simp [hk, width, ← ih]
        omega
      · simp [hk, width, ← ih]
        omega
  exact this op.format

theorem Sound.instruction (h : d.Sound ops ops) (mnemonic : Text) (args : List Text) :
    Outcome (d.instruction mnemonic args) (fun d' => ∃ op, d'.Sound (ops ++ [op]) (ops ++ [op]))
      LineTold := by
  rw [Draft.instruction]
  split
  · simp [LineTold]
  · rename_i op _
    split
    · simp [LineTold]
    · rename_i hcount
      have hshape : d.Sound ops (ops ++ [op]) := by
        refine { h with references := fun p t hp => ?_ }
        obtain ⟨s, hs⟩ := h.references p t hp
        exact ⟨s, hs.append _⟩
      simp only [Outcome.bind, Outcome.pure]
      refine (hshape.operands rfl ?_).mono (fun ⟨os, d₁⟩ _ h₁ => ⟨op, ?_⟩) fun _ => id
      · rw [List.drop_zero, ← argumentCount_eq]
        exact not_not.1 hcount
      · obtain ⟨hb, hlabels, hcodes⟩ := h₁.1.builder.emit h₁.2.1
        refine { h₁.1 with builder := hb, labels := ?_, children := ?_ }
        · intro t l hl
          simpa only [Builder.HasLabel, hlabels] using h₁.1.labels t l hl
        · intro t i hi
          simpa only [hcodes] using h₁.1.children t i hi

theorem Sound.child (h : d.Sound ops ops) {c : Code} (hc : c.Sound) :
    Sound { d with
      builder := (d.builder.child c).2
      children := (c.name, (d.builder.child c).1) :: d.children } ops ops := by
  refine { h with builder := h.builder.child hc, labels := h.labels, children := ?_ }
  intro t i hi
  simp only [Builder.child, List.length_append, List.length_singleton] at hi ⊢
  rcases List.mem_cons.1 hi with hi | hi
  · cases hi
    exact Nat.lt_succ_self _
  · exact Nat.lt_succ_of_lt (h.children t i hi)

theorem Sound.handler (h : d.Sound ops ops) {line : HandlerLine}
    (hl : line.isFinally = true →
      line.jump ≠ Register.invalid ∧ line.flag ≠ Register.invalid) :
    Sound { d with handlers := d.handlers ++ [line] } ops ops := by
  refine { h with handlers := fun x hx => ?_ }
  rcases List.mem_append.1 hx with hx | hx
  · exact h.handlers x hx
  · cases List.mem_singleton.1 hx
    exact hl

/-! ## Finishing a function -/

theorem Sound.enterHandler (h : d.Sound ops ops) {line : HandlerLine}
    (hl : line.isFinally = true →
      line.jump ≠ Register.invalid ∧ line.flag ≠ Register.invalid) :
    (d.enterHandler line).Sound ops ops := by
  obtain ⟨h₁, -⟩ := h.label line.start
  obtain ⟨h₂, -⟩ := h₁.label line.stop
  change Draft.Sound (if line.isFinally = true then _ else _) ops ops
  split
  · rename_i hf
    exact { h₂ with builder := h₂.builder.handler (.inr ⟨rfl, hl hf⟩) }
  · exact { h₂ with builder := h₂.builder.handler (.inl rfl) }

theorem Sound.enterHandlers (h : d.Sound ops ops) {lines : List HandlerLine}
    (hl : ∀ line ∈ lines, line.isFinally = true →
      line.jump ≠ Register.invalid ∧ line.flag ≠ Register.invalid) :
    (lines.foldl Draft.enterHandler d).Sound ops ops := by
  induction lines generalizing d with
  | nil => exact h
  | cons line lines ih =>
    exact ih (h.enterHandler (hl line (List.mem_cons_self ..)))
      fun line' hm => hl line' (List.mem_cons_of_mem _ hm)

/-- Two streams of one shape differ at most in the operands that stand for nested functions, and
these name functions that are there. -/
structure Linked (ops : List Opcode) (count : Nat) (data data' : Array Word) : Prop where
  spells : Spells ops data'
  registers : Stream.Registers ops data'
  same : ∀ s p kind, IsOperand ops s p kind → kind ≠ .code → data'.getD p 0 = data.getD p 0
  codes : ∀ s p, IsOperand ops s p .code → (Word.u32 (data'.getD p 0)).toNat < count

theorem linkReferences_linked (h : d.Sound ops ops) (name : Text) {refs : List (Nat × Text)}
    (hrefs : ∀ p t, (p, t) ∈ refs → ∃ s, IsOperand ops s p .code) {original data : Array Word}
    (hd : Linked ops d.builder.code.codes.length original data) :
    Outcome (d.linkReferences name refs data)
      (fun data' => Linked ops d.builder.code.codes.length original data')
      fun e => e.isFault = false := by
  induction refs generalizing data with
  | nil => exact hd
  | cons ref refs ih =>
    obtain ⟨p, t⟩ := ref
    obtain ⟨s, hs⟩ := hrefs p t (List.mem_cons_self ..)
    have hlt : p < data.size := hd.spells.size ▸ hs.lt_extent
    rw [Draft.linkReferences]
    split
    · rfl
    · rename_i i hi
      rw [dif_pos hlt]
      refine ih (fun p' t' hp => hrefs p' t' (List.mem_cons_of_mem _ hp))
        ⟨hd.spells.set hs _ hlt, hd.registers.set hs (by decide) _ hlt, ?_, ?_⟩
      · intro s' p' kind hp' hkind
        have hne : p ≠ p' := by
          rintro rfl
          exact hkind (hp'.unique hs).2
        rw [Array.getD_eq_getD_getElem?, Array.getElem?_set_ne _ hne,
          ← Array.getD_eq_getD_getElem?]
        exact hd.same s' p' kind hp' hkind
      · intro s' p' hp'
        by_cases hp : p = p'
        · subst hp
          have hlen := h.children t i (mem_of_lookup hi)
          rw [Array.getD_eq_getD_getElem?, Array.getElem?_set_self, Option.getD_some, Word.u32,
            Word.ofUInt32, UInt32.toUInt32_toUInt64]
          exact Nat.lt_of_le_of_lt (Nat.mod_le _ _) hlen
        · rw [Array.getD_eq_getD_getElem?, Array.getElem?_set_ne _ hp,
            ← Array.getD_eq_getD_getElem?]
          exact hd.codes s' p' hp'

theorem linked_refl {c : Code} (h : c.Formed ops) : Linked ops c.codes.length c.data c.data where
  spells := h.spells
  registers := h.registers
  same := fun _ _ _ _ _ => rfl
  codes := by
    rintro s p ⟨op, i, hp, hf, rfl⟩
    obtain ⟨-, hoperands, -⟩ := (Code.validateOne_iff h.spells).1 h.valid
    have hdefect := hoperands _ (h.spells.mem_instructions.2 ⟨s, op, hp, rfl⟩) i .code hf
    obtain ⟨hi, -⟩ := List.getElem?_eq_some_iff.1 hf
    rw [Stream.operand_instructionAt hi] at hdefect
    simp only [Code.operandDefect?, ite_eq_right_iff, reduceCtorEq, imp_false, Nat.not_le]
      at hdefect
    exact hdefect

theorem Linked.formed {c : Code} {data : Array Word} (h : c.Formed ops)
    (hl : Linked ops c.codes.length c.data data) :
    Code.Formed { c with data := data } ops := by
  obtain ⟨hjumps, hoperands, hhandlers⟩ := (Code.validateOne_iff h.spells).1 h.valid
  have hsame : ∀ {s op i kind}, (s, op) ∈ placed 0 ops → op.format[i]? = some kind →
      kind ≠ .code → (instructionAt data (s, op)).operand i =
        (instructionAt c.data (s, op)).operand i := by
    intro s op i kind hp hf hk
    obtain ⟨hi, -⟩ := List.getElem?_eq_some_iff.1 hf
    rw [Stream.operand_instructionAt hi, Stream.operand_instructionAt hi]
    exact hl.same s _ kind ⟨op, i, hp, hf, rfl⟩ hk
  refine { h with spells := hl.spells, registers := hl.registers, valid := ?_ }
  rw [Code.validateOne_iff hl.spells]
  refine ⟨?_, ?_, ?_⟩
  · intro ins hins t ht
    obtain ⟨s, op, hp, rfl⟩ := hl.spells.mem_instructions.1 hins
    refine hjumps _ (h.spells.mem_instructions.2 ⟨s, op, hp, rfl⟩) t ?_
    rw [Instruction.target?, Option.map_eq_some_iff] at ht ⊢
    obtain ⟨i, hi, rfl⟩ := ht
    refine ⟨i, hi, ?_⟩
    rw [Instruction.i32, Instruction.i32,
      hsame hp (Instruction.format_of_jumpOperand? hi) (by decide)]
    rfl
  · intro ins hins i kind hf
    obtain ⟨s, op, hp, rfl⟩ := hl.spells.mem_instructions.1 hins
    change op.format[i]? = some kind at hf
    by_cases hk : kind = .code
    · subst hk
      obtain ⟨hi, -⟩ := List.getElem?_eq_some_iff.1 hf
      have hlt := hl.codes s _ ⟨op, i, hp, hf, rfl⟩
      rw [Stream.operand_instructionAt hi, Code.operandDefect?, if_neg (Nat.not_le.2 hlt)]
    · rw [hsame hp hf hk]
      exact hoperands _ (h.spells.mem_instructions.2 ⟨s, op, hp, rfl⟩) i kind hf
  · intro hd hhd
    refine ⟨(hhandlers hd hhd).1, ?_⟩
    have := (hhandlers hd hhd).2
    simp only [hl.spells.size]
    rwa [h.spells.size] at this

theorem Sound.finish (h : d.Sound ops ops) :
    Outcome d.finish Code.Sound fun e => e.isFault = false := by
  have h₁ : (d.handlers.foldl Draft.enterHandler d).Sound ops ops := h.enterHandlers h.handlers
  unfold Draft.finish
  generalize d.handlers.foldl Draft.enterHandler d = d₁ at h₁
  simp only [Outcome.bind, Outcome.pure, Outcome.mapError]
  generalize UInt32.ofInt _ = registers
  have hb : (d₁.builder.setRegisters registers).Sound ops := { h₁.builder with }
  rcases hb.build with ⟨c, hc, hformed, hcodes⟩ | ⟨e, he, hl, hw⟩
  · rw [hc, Outcome.ok]
    have hlen : c.codes.length = d₁.builder.code.codes.length := by rw [hcodes]; rfl
    refine (linkReferences_linked h₁ c.name h₁.references (hlen ▸ linked_refl hformed)).mono
      (fun data _ hdata => ?_) fun _ => id
    rw [← hlen] at hdata
    refine (hdata.formed hformed).sound ?_
    rw [hcodes]
    exact h₁.builder.codes
  · rw [he, Outcome.error]
    cases e <;> first | rfl | contradiction

end Draft

/-! ## Whole texts -/

theorem headerAttributes_sound {d : Draft} (h : d.Sound [] []) (attrs : List Text) :
    Outcome (headerAttributes d attrs) (fun d => d.Sound [] []) Draft.LineTold := by
  induction attrs generalizing d with
  | nil => exact h
  | cons attr rest ih =>
    rw [headerAttributes]
    dsimp only
    split
    · have hd : Draft.Sound { d with builder := d.builder.setStrict true } [] [] :=
        { h with builder := { h.builder with } }
      exact ih hd
    split
    · simp only [Outcome.bind, Outcome.map, Outcome.mapError]
      cases Numeral.unsigned 32 (Text.cut 0x3d attr).2 with
      | error e => simp [Draft.LineTold]
      | ok n =>
        have hd : Draft.Sound { d with registers := some n } [] [] := { h with }
        exact ih hd
    split
    · simp only [Outcome.bind, Outcome.map, Outcome.mapError]
      cases Numeral.unsigned 32 (Text.cut 0x3d attr).2 with
      | error e => simp [Draft.LineTold]
      | ok n =>
        have hd : Draft.Sound { d with builder := d.builder.setParams n.toUInt32 } [] [] :=
          { h with builder := { h.builder with } }
        exact ih hd
    · simp [Draft.LineTold]

theorem openFunction_sound (header : List Text) :
    Outcome (openFunction header) (fun d => d.Sound [] []) Draft.LineTold := by
  unfold openFunction
  split
  · rename_i name attributes
    exact headerAttributes_sound
      ⟨Builder.new_sound name, by simp, by simp, by simp, by simp⟩ attributes
  · simp [Draft.LineTold]

theorem isFault_atLine {n : Nat} {e : LineError} (h : Draft.LineTold e) :
    (ParseError.atLine n e).isFault = false := by
  cases e with
  | operand op i e =>
    cases e with
    | missing => exact absurd rfl (h op i)
    | _ => rfl
  | _ => rfl

theorem bodyLine_told (t : Text) : Outcome (bodyLine t) (fun _ => True) Draft.LineTold := by
  unfold bodyLine
  repeat' split
  all_goals simp [Draft.LineTold]

theorem handlerAttributes_told (h : HandlerLine) (attrs : List Text) :
    Outcome (handlerAttributes h attrs) (fun _ => True) Draft.LineTold := by
  induction attrs generalizing h with
  | nil => trivial
  | cons attr rest ih =>
    rw [handlerAttributes]
    dsimp only
    split
    · simp only [Outcome.bind, Outcome.map, Outcome.mapError]
      cases parseRegister (Text.cut 0x3d attr).2 with
      | error e => simp [Draft.LineTold]
      | ok r => exact ih _
    split
    · simp only [Outcome.bind, Outcome.map, Outcome.mapError]
      cases parseRegister (Text.cut 0x3d attr).2 with
      | error e => simp [Draft.LineTold]
      | ok r => exact ih _
    split
    · simp only [Outcome.bind, Outcome.map, Outcome.mapError]
      cases Numeral.unsigned 32 (Text.cut 0x3d attr).2 with
      | error e => simp [Draft.LineTold]
      | ok n => exact ih _
    · simp [Draft.LineTold]

theorem parseHandler_told (isFinally : Bool) (args : List Text) :
    Outcome (parseHandler isFinally args) (fun _ => True) Draft.LineTold := by
  unfold parseHandler
  split
  · rw [Outcome.bind]
    refine (handlerAttributes_told _ _).mono (fun h _ _ => ?_) fun _ => id
    split
    · change Draft.LineTold .handlerRegisters
      simp [Draft.LineTold]
    · trivial
  · simp [Draft.LineTold]

theorem readBody_sound (last fuel : Nat) {d : Draft} {ops : List Opcode}
    (h : d.Sound ops ops) (lines : List Line) :
    Outcome (readBody last fuel d lines) (fun (c, _) => c.Sound) fun e => e.isFault = false := by
  induction fuel generalizing d ops lines with
  | zero => rfl
  | succ fuel ih =>
    obtain _ | ⟨line, rest⟩ := lines
    · rfl
    rw [readBody]
    have hline := bodyLine_told line.text
    split
    · rename_i e heq
      rw [heq] at hline
      exact isFault_atLine hline
    · rw [Outcome.map]
      exact h.finish
    · exact ih (h.bind _) rest
    · -- A nested function, then the rest of this one.
      have hopen := openFunction_sound (Text.fields line.text)
      split
      · rename_i e heq
        rw [heq] at hopen
        exact isFault_atLine hopen
      · rename_i inner heq
        rw [heq] at hopen
        have hinner := ih hopen rest
        split
        · rename_i e heq'
          rw [heq'] at hinner
          exact hinner
        · rename_i code rest' heq'
          rw [heq'] at hinner
          exact ih (h.child hinner) rest'
    · rename_i isFinally args _
      split
      · rename_i e heq
        have := parseHandler_told isFinally args
        rw [heq] at this
        exact isFault_atLine this
      · rename_i hd heq
        exact ih (h.handler (parseHandler_registers heq)) rest
    · rename_i word args _
      have hins := h.instruction word args
      split
      · rename_i e heq
        rw [heq] at hins
        exact isFault_atLine hins
      · rename_i d' heq
        rw [heq] at hins
        obtain ⟨op, hd'⟩ := hins
        exact ih hd' rest

/-- Every program text is rejected for a reason that lies in the text, or gives a sound program. -/
theorem parse_sound (source : Text) :
    Outcome (parse source) Code.Sound fun e => e.isFault = false := by
  unfold parse
  dsimp only
  split
  · rfl
  · rename_i line rest heq
    have hline : line ∈ significantLines source := by rw [heq]; exact List.mem_cons_self ..
    split
    · exact absurd ‹_› (fields_ne_nil_of_mem_significantLines hline)
    · split
      · rfl
      · rename_i first words _ _
        have hopen := openFunction_sound (first :: words)
        split
        · rename_i e he
          rw [he] at hopen
          exact isFault_atLine hopen
        · rename_i d hd
          rw [hd] at hopen
          have hbody := readBody_sound (Text.lines source).length (rest.length + 1) hopen rest
          split
          · rename_i e he
            rw [he] at hbody
            exact hbody
          · rename_i code hcode
            rw [hcode] at hbody
            exact hbody
          · rfl

end Listing

end RegisterJit
