import Mathlib.Data.List.Induction
import RegisterJit.Proofs.Building
import RegisterJit.Proofs.Spelling

/-!
# Functions being read

The draft of a function holds what the statements so far spell: their words with nothing filled in,
their tables, a number for every label that was mentioned, and a place for every label that was bound.
One statement adds what it spells (`Draft.Says.say`), so the draft after all of them holds what they
spell together.

`Draft.Says` relates a draft to the statements that were said to it. Labels have numbers in a draft and names in
a text, so `Mentions` and `Binds` keep track of which number stands for which name, and `Takes` of what an
argument adds to the tables. `Says.say` is the step, with cases for labels, instructions, handlers and
everything that is no instruction, and `Fresh.says_all` the run over all statements of a function. What comes
out is stated in the words of `Spelling`, so `Completion` can finish the draft without looking at how it came
about.
-/

namespace RegisterJit

namespace Listing

/-! ## Labels -/

theorem isSome_lookup_iff {α : Type} {l : List (Text × α)} {t : Text} :
    (l.lookup t).isSome ↔ t ∈ l.map Prod.fst := by
  rw [List.lookup_isSome_iff, List.mem_map]
  exact ⟨fun ⟨p, hp, ht⟩ => ⟨p, hp, (beq_iff_eq.1 ht).symm⟩,
    fun ⟨p, hp, ht⟩ => ⟨p, hp, beq_iff_eq.2 ht.symm⟩⟩

namespace Draft

def labelOf (d : Draft) (t : Text) : Int := (d.labels.lookup t).getD 0

/-- Every label that was mentioned has a number of its own, under which the builder keeps its place if
it was bound. -/
structure Binds (d : Draft) (bound : List (Text × Nat)) : Prop where
  given : ∀ t l, d.labels.lookup t = some l →
    0 ≤ l ∧ d.builder.labels[l.toNat]? = some (bound.lookup t)
  distinct : ∀ t t' l, d.labels.lookup t = some l → d.labels.lookup t' = some l → t = t'
  known : ∀ t ∈ bound.map Prod.fst, (d.labels.lookup t).isSome
  count : d.builder.labels.size = d.labels.length
  once : (d.labels.map Prod.fst).Nodup

/-- Labels that were mentioned keep their numbers. -/
def Keeps (d d' : Draft) : Prop :=
  ∀ t l, d.labels.lookup t = some l → d'.labels.lookup t = some l

theorem Keeps.refl (d : Draft) : d.Keeps d := fun _ _ h => h

theorem Keeps.trans {d d' d'' : Draft} (h : d.Keeps d') (h' : d'.Keeps d'') : d.Keeps d'' :=
  fun t l ht => h' t l (h t l ht)

theorem Keeps.isSome {d d' : Draft} (h : d.Keeps d') {t : Text} (ht : (d.labels.lookup t).isSome) :
    (d'.labels.lookup t).isSome := by
  obtain ⟨l, hl⟩ := Option.isSome_iff_exists.1 ht
  rw [h t l hl, Option.isSome_some]

theorem Keeps.labelOf_eq {d d' : Draft} (h : d.Keeps d') {t : Text}
    (ht : (d.labels.lookup t).isSome) : d'.labelOf t = d.labelOf t := by
  obtain ⟨l, hl⟩ := Option.isSome_iff_exists.1 ht
  rw [labelOf, labelOf, hl, h t l hl]

theorem Binds.resolve_eq {d : Draft} {bound : List (Text × Nat)} (h : d.Binds bound) {t : Text}
    (ht : (d.labels.lookup t).isSome) :
    d.builder.resolve (d.labelOf t) =
      match bound.lookup t with
      | some n => .ok n
      | none => .error (.neverBound (d.labelOf t)) := by
  obtain ⟨l, hl⟩ := Option.isSome_iff_exists.1 ht
  obtain ⟨hnonneg, hget⟩ := h.given t l hl
  have hlt := (Array.getElem?_eq_some_iff.1 hget).1
  have hl' : d.labelOf t = l := by rw [labelOf, hl, Option.getD_some]
  rw [hl', Builder.resolve, if_neg (by omega), Builder.place?, if_pos hnonneg, hget]
  cases bound.lookup t <;> rfl

/-- What mentioning a label does: the label has a number, other labels keep theirs, and nothing but
labels changes. -/
structure Mentions (d d' : Draft) (t : Text) : Prop where
  eq : d' = { d with
    labels := d'.labels, builder := { d.builder with labels := d'.builder.labels } }
  keeps : d.Keeps d'
  known : (d'.labels.lookup t).isSome
  mentioned : ∀ t' ∈ d'.labels.map Prod.fst, t' = t ∨ t' ∈ d.labels.map Prod.fst
  binds : ∀ bound, d.Binds bound → d'.Binds bound

theorem label_mentions (d : Draft) (t : Text) : d.Mentions (d.label t).2 t := by
  rw [label]
  cases ht : d.labels.lookup t with
  | some l =>
    exact ⟨rfl, .refl d, by rw [ht, Option.isSome_some], fun _ => .inr, fun _ h => h⟩
  | none =>
    have hlater {t' : Text} (h : t' ≠ t) :
        ((t, (d.builder.labels.size : Int)) :: d.labels).lookup t' = d.labels.lookup t' := by
      rw [List.lookup_cons, beq_eq_false_iff_ne.2 h]
    have hne {t' : Text} (h : (d.labels.lookup t').isSome) : t' ≠ t := by
      rintro rfl
      rw [ht] at h
      cases h
    have hkeeps (t' : Text) (l : Int) (h : d.labels.lookup t' = some l) :
        ((t, (d.builder.labels.size : Int)) :: d.labels).lookup t' = some l := by
      rw [hlater (hne (by rw [h, Option.isSome_some])), h]
    refine ⟨rfl, hkeeps, ?_, fun _ => List.mem_cons.1, fun bound h => ⟨?_, ?_, ?_, ?_, ?_⟩⟩
    · simp
    · intro t' l hl
      by_cases htt : t' = t
      · subst htt
        have hfree : bound.lookup t' = none := by
          rw [← Option.not_isSome_iff_eq_none, isSome_lookup_iff]
          exact fun hmem => hne (h.known t' hmem) rfl
        rw [List.lookup_cons_self, Option.some.injEq] at hl
        subst hl
        exact ⟨Int.natCast_nonneg _, by simp [Builder.newLabel, hfree]⟩
      · obtain ⟨hnonneg, hget⟩ := h.given t' l ((hlater htt).symm.trans hl)
        have hlt := (Array.getElem?_eq_some_iff.1 hget).1
        refine ⟨hnonneg, ?_⟩
        simp only [Builder.newLabel]
        rw [Array.getElem?_push, if_neg (by omega), hget]
    · -- The new number is the number of labels so far, which is none of theirs.
      have hfresh {t' : Text} (htt : t' ≠ t)
          (h' : ((t, (d.builder.labels.size : Int)) :: d.labels).lookup t' =
            some (d.builder.labels.size : Int)) : False := by
        obtain ⟨-, hget⟩ := h.given t' _ ((hlater htt).symm.trans h')
        have hlt := (Array.getElem?_eq_some_iff.1 hget).1
        omega
      intro t₁ t₂ l h₁ h₂
      by_cases ht₁ : t₁ = t <;> by_cases ht₂ : t₂ = t
      · rw [ht₁, ht₂]
      · rw [ht₁, List.lookup_cons_self, Option.some.injEq] at h₁
        exact (hfresh ht₂ (h₂.trans (congrArg some h₁.symm))).elim
      · rw [ht₂, List.lookup_cons_self, Option.some.injEq] at h₂
        exact (hfresh ht₁ (h₁.trans (congrArg some h₂.symm))).elim
      · exact h.distinct t₁ t₂ l ((hlater ht₁).symm.trans h₁) ((hlater ht₂).symm.trans h₂)
    · intro t' ht'
      obtain ⟨l, hl⟩ := Option.isSome_iff_exists.1 (h.known t' ht')
      exact (congrArg Option.isSome (hkeeps t' l hl)).trans rfl
    · simp [Builder.newLabel, h.count]
    · rw [List.map_cons, List.nodup_cons, ← isSome_lookup_iff, ht]
      exact ⟨Bool.false_ne_true, h.once⟩

theorem label_fst (d : Draft) (t : Text) : (d.label t).1 = (d.label t).2.labelOf t := by
  rw [label]
  cases ht : d.labels.lookup t with
  | some l => rw [labelOf, ht, Option.getD_some]
  | none => simp [labelOf, Builder.newLabel]

/-- Binding a label gives it its place, unless it has one. -/
theorem bind_binds {d : Draft} {bound : List (Text × Nat)} (h : d.Binds bound) (t : Text) :
    (d.bind t).Binds (bound ++ [(t, d.builder.offset)]) ∧ d.Keeps (d.bind t) ∧
      (∀ t' ∈ (d.bind t).labels.map Prod.fst, t' = t ∨ t' ∈ d.labels.map Prod.fst) ∧
      ((d.bind t).builder.failure = none ↔
        d.builder.failure = none ∧ t ∉ bound.map Prod.fst) ∧
      d.bind t = { d with
        labels := (d.bind t).labels
        builder := { d.builder with
          labels := (d.bind t).builder.labels, failure := (d.bind t).builder.failure } } := by
  have hm := d.label_mentions t
  have hb := hm.binds bound h
  obtain ⟨l, hl⟩ := Option.isSome_iff_exists.1 hm.known
  have hfst : (d.label t).1 = l := by rw [label_fst, labelOf, hl, Option.getD_some]
  obtain ⟨hnonneg, hget⟩ := hb.given t l hl
  have hlt := (Array.getElem?_eq_some_iff.1 hget).1
  have hoffset : (d.label t).2.builder.offset = d.builder.offset := by
    rw [hm.eq]
    rfl
  have hfailure : (d.label t).2.builder.failure = d.builder.failure := by
    rw [hm.eq]
  have hlookup (t' : Text) : (bound ++ [(t, d.builder.offset)]).lookup t' =
      (bound.lookup t').or (if t' = t then some d.builder.offset else none) := by
    rw [List.lookup_append, List.lookup_cons, List.lookup_nil]
    by_cases htt : t' = t
    · rw [if_pos htt, beq_iff_eq.2 htt]
    · rw [if_neg htt, beq_eq_false_iff_ne.2 htt]
  have hknown : ∀ t' ∈ (bound ++ [(t, d.builder.offset)]).map Prod.fst,
      ((d.label t).2.labels.lookup t').isSome := by
    intro t' ht'
    rw [List.map_append, List.mem_append] at ht'
    rcases ht' with ht' | ht'
    · exact hb.known t' ht'
    · rw [List.mem_singleton.1 ht']
      exact hm.known
  cases hplace : bound.lookup t with
  | some n =>
    have hbind : d.bind t = { (d.label t).2 with
        builder := (d.label t).2.builder.fail (.boundTwice l) } := by
      rw [bind]
      simp only [hfst, Builder.bind?, Builder.place?, if_pos hnonneg, hget, hplace, Option.getD_some]
    have hmem : t ∈ bound.map Prod.fst :=
      isSome_lookup_iff.1 (by rw [hplace, Option.isSome_some])
    refine ⟨⟨fun t' l' hl' => ?_, ?_, ?_, ?_, ?_⟩, ?_, ?_, ?_, ?_⟩
    · rw [hbind] at hl' ⊢
      obtain ⟨hn, hg⟩ := hb.given t' l' hl'
      refine ⟨hn, hg.trans (congrArg some ?_)⟩
      rw [hlookup]
      by_cases htt : t' = t
      · rw [htt, hplace, Option.some_or]
      · rw [if_neg htt, Option.or_none]
    · rw [hbind]
      exact hb.distinct
    · rw [hbind]
      exact hknown
    · rw [hbind]
      exact hb.count
    · rw [hbind]
      exact hb.once
    · rw [hbind]
      exact hm.keeps
    · rw [hbind]
      exact hm.mentioned
    · rw [hbind]
      simp [Builder.fail, hmem]
    · rw [hbind, hm.eq]
      rfl
  | none =>
    have hbind : d.bind t = { (d.label t).2 with
        builder := { (d.label t).2.builder with
          labels := (d.label t).2.builder.labels.setIfInBounds l.toNat (some d.builder.offset) } } := by
      rw [bind]
      simp only [hfst, Builder.bind?, Builder.place?, if_pos hnonneg, hget, hplace, Option.getD_some,
        hoffset]
    have hmem : t ∉ bound.map Prod.fst := by
      rw [← isSome_lookup_iff, hplace]
      simp
    refine ⟨⟨fun t' l' hl' => ?_, ?_, ?_, ?_, ?_⟩, ?_, ?_, ?_, ?_⟩
    · rw [hbind] at hl' ⊢
      obtain ⟨hn, hg⟩ := hb.given t' l' hl'
      refine ⟨hn, ?_⟩
      by_cases htt : t' = t
      · subst htt
        obtain rfl : l' = l := Option.some.inj (hl'.symm.trans hl)
        simp only [Array.getElem?_setIfInBounds_self_of_lt hlt, hlookup, hplace, if_pos,
          Option.none_or]
      · have hne : l.toNat ≠ l'.toNat := by
          intro heq
          refine htt (hb.distinct t' t l' hl' (hl.trans (congrArg some ?_)))
          omega
        simp only [Array.getElem?_setIfInBounds_ne hne, hlookup, if_neg htt, Option.or_none]
        exact hg
    · rw [hbind]
      exact hb.distinct
    · rw [hbind]
      exact hknown
    · rw [hbind]
      simpa using hb.count
    · rw [hbind]
      exact hb.once
    · rw [hbind]
      exact hm.keeps
    · rw [hbind]
      exact hm.mentioned
    · rw [hbind]
      simp [hfailure, hmem]
    · rw [hbind, hm.eq]

end Draft

/-! ## Arguments -/

/-- What the builder is handed for an argument, given the numbers of labels. -/
def Argument.operand (L : Text → Int) (T : Tables) : Argument → BuilderOperand
  | .register r => .register r
  | .packed a b n => .packed a b n
  | .number i => .immediate i
  | .constant k => .immediate (T.constant k).1
  | .name t => .immediate (T.name t).1
  | .code _ => .immediate 0
  | .jump t => .label (L t)

def argumentOperands (L : Text → Int) : Tables → List Argument → List BuilderOperand
  | _, [] => []
  | T, a :: as => a.operand L T :: argumentOperands L (a.enter T) as

theorem length_argumentOperands (L : Text → Int) (T : Tables) (as : List Argument) :
    (argumentOperands L T as).length = as.length := by
  induction as generalizing T with
  | nil => rfl
  | cons a as ih => rw [argumentOperands, List.length_cons, List.length_cons, ih]

theorem placesFrom_append {α : Type} (f : Argument → Option α) (place : Nat)
    (as bs : List Argument) :
    placesFrom f place (as ++ bs) = placesFrom f place as ++ placesFrom f (place + as.length) bs := by
  induction as generalizing place with
  | nil => rfl
  | cons a as ih =>
    rw [List.cons_append, placesFrom, placesFrom, ih, List.append_assoc, List.length_cons,
      Nat.add_assoc, Nat.add_comm 1]

namespace Draft

/-- What entering arguments of the instruction to come does, the first of which stands at `place`. -/
structure Takes (d d' : Draft) (place : Nat) (as : List Argument) : Prop where
  builder : d'.builder = { d.builder.setTables (enterArguments d.builder.tables as) with
    labels := d'.builder.labels }
  references : d'.references = d.references ++ placesFrom Argument.code? place as
  children : d'.children = d.children
  handlers : d'.handlers = d.handlers
  registers : d'.registers = d.registers
  keeps : d.Keeps d'
  known : ∀ t, .jump t ∈ as → (d'.labels.lookup t).isSome
  mentioned : ∀ t ∈ d'.labels.map Prod.fst, .jump t ∈ as ∨ t ∈ d.labels.map Prod.fst
  binds : ∀ bound, d.Binds bound → d'.Binds bound

theorem Takes.offset_eq {d d' : Draft} {place : Nat} {as : List Argument}
    (h : d.Takes d' place as) : d'.builder.offset = d.builder.offset := by
  rw [h.builder]
  rfl

theorem Takes.tables_eq {d d' : Draft} {place : Nat} {as : List Argument}
    (h : d.Takes d' place as) : d'.builder.tables = enterArguments d.builder.tables as := by
  rw [h.builder]
  rfl

theorem takes_nil (d : Draft) (place : Nat) : d.Takes d place [] where
  builder := by rw [enterArguments, List.foldl_nil, Builder.setTables_tables]
  references := (List.append_nil _).symm
  children := rfl
  handlers := rfl
  registers := rfl
  keeps := .refl d
  known := by simp
  mentioned _ := .inr
  binds _ h := h

theorem Takes.append {d d₁ d₂ : Draft} {place : Nat} {as bs : List Argument}
    (h : d.Takes d₁ place as) (h' : d₁.Takes d₂ (place + as.length) bs) :
    d.Takes d₂ place (as ++ bs) where
  builder := by
    rw [h'.builder, h.tables_eq, enterArguments, enterArguments, enterArguments, List.foldl_append,
      h.builder]
    rfl
  references := by rw [h'.references, h.references, placesFrom_append, List.append_assoc]
  children := h'.children.trans h.children
  handlers := h'.handlers.trans h.handlers
  registers := h'.registers.trans h.registers
  keeps := h.keeps.trans h'.keeps
  known t ht := by
    rcases List.mem_append.1 ht with ht | ht
    · exact h'.keeps.isSome (h.known t ht)
    · exact h'.known t ht
  mentioned t ht := by
    rcases h'.mentioned t ht with ht | ht
    · exact .inl (List.mem_append_right _ ht)
    · exact (h.mentioned t ht).imp_left (List.mem_append_left _)
  binds bound hb := h'.binds bound (h.binds bound hb)

/-- An argument that mentions no label changes no label. -/
theorem takes_of_labels {d d' : Draft} {place : Nat} {a : Argument}
    (hbuilder : d'.builder = d.builder.setTables (a.enter d.builder.tables))
    (hlabels : d'.labels = d.labels)
    (hreferences : d'.references = d.references ++ placesFrom Argument.code? place [a])
    (hrest : d'.children = d.children ∧ d'.handlers = d.handlers ∧ d'.registers = d.registers)
    (hjump : ∀ t, a ≠ .jump t) : d.Takes d' place [a] where
  builder := by rw [hbuilder]; rfl
  references := hreferences
  children := hrest.1
  handlers := hrest.2.1
  registers := hrest.2.2
  keeps t l h := by rw [hlabels, h]
  known t ht := absurd (List.mem_singleton.1 ht).symm (hjump t)
  mentioned t ht := by rw [hlabels] at ht; exact .inr ht
  binds bound h := by
    refine ⟨?_, ?_, ?_, ?_, ?_⟩ <;> rw [hlabels]
    · rw [hbuilder]
      exact h.given
    · exact h.distinct
    · exact h.known
    · rw [hbuilder]
      exact h.count
    · exact h.once

theorem take_takes (d : Draft) (index : Nat) (a : Argument) :
    d.Takes (d.take index a).2 (d.builder.offset + 1 + index) [a] ∧
      (d.take index a).1 = a.operand (d.take index a).2.labelOf d.builder.tables := by
  have hsame : d.builder = d.builder.setTables d.builder.tables := d.builder.setTables_tables.symm
  have hnone : d.references = d.references ++ [] := (List.append_nil _).symm
  cases a with
  | register r | packed a b n | number i =>
    exact ⟨takes_of_labels hsame rfl hnone ⟨rfl, rfl, rfl⟩ (by simp), rfl⟩
  | constant k =>
    refine ⟨takes_of_labels ?_ rfl hnone ⟨rfl, rfl, rfl⟩ (by simp), ?_⟩
    · rw [take, Builder.constant_eq]
      rfl
    · rw [take, Builder.constant_eq]
      rfl
  | name t =>
    refine ⟨takes_of_labels ?_ rfl hnone ⟨rfl, rfl, rfl⟩ (by simp), ?_⟩
    · rw [take, Builder.name_eq]
      rfl
    · rw [take, Builder.name_eq]
      rfl
  | code t => exact ⟨takes_of_labels hsame rfl rfl ⟨rfl, rfl, rfl⟩ (by simp), rfl⟩
  | jump t =>
    have hm := d.label_mentions t
    refine ⟨?_, congrArg BuilderOperand.label (label_fst d t)⟩
    rw [take]
    refine ⟨?_, ?_, ?_, ?_, ?_, hm.keeps, ?_, fun t' ht' => ?_, hm.binds⟩
    · have htables : enterArguments d.builder.tables [.jump t] = d.builder.tables := rfl
      rw [htables, Builder.setTables_tables]
      exact congrArg Draft.builder hm.eq
    · rw [hm.eq]
      exact hnone
    · rw [hm.eq]
    · rw [hm.eq]
    · rw [hm.eq]
    · intro t' ht'
      cases List.mem_singleton.1 ht'
      exact hm.known
    · rcases hm.mentioned t' ht' with rfl | ht'
      · exact .inl (List.mem_singleton_self _)
      · exact .inr ht'

theorem takeAll_takes (d : Draft) (index : Nat) (as : List Argument) :
    d.Takes (d.takeAll index as).2 (d.builder.offset + 1 + index) as ∧
      (d.takeAll index as).1 = argumentOperands (d.takeAll index as).2.labelOf d.builder.tables as := by
  induction as generalizing d index with
  | nil => exact ⟨d.takes_nil _, rfl⟩
  | cons a as ih =>
    obtain ⟨hone, hfirst⟩ := d.take_takes index a
    obtain ⟨hrest, hall⟩ := ih (d.take index a).2 (index + 1)
    rw [hone.offset_eq, ← Nat.add_assoc] at hrest
    rw [hone.tables_eq] at hall
    rw [takeAll]
    refine ⟨hone.append hrest, congrArg₂ List.cons ?_ hall⟩
    rw [hfirst]
    cases a with
    | jump t =>
      exact congrArg BuilderOperand.label
        (hrest.keeps.labelOf_eq (hone.known t (List.mem_singleton_self _))).symm
    | _ => rfl

end Draft

/-! ## Instructions -/

/-- The displacements of jumps that are left to fill in. -/
def fixupsOf (L : Text → Int) (jumps : List (Nat × Nat × Text)) : List Fixup :=
  jumps.map fun (place, start, t) => ⟨place, start, L t⟩

theorem pushOperands_eq {kinds : List OperandKind} {as : List Argument}
    (h : List.Forall₂ (fun kind a => Argument.Suits a kind) kinds as) (b : Builder) (op : Opcode)
    (start index : Nat) (L : Text → Int) (T : Tables) :
    b.pushOperands op start index (kinds.zip (argumentOperands L T as)) =
      b.extend (argumentWords .blank start T as)
        (fixupsOf L (placesFrom (fun a => a.label?.map (start, ·)) b.offset as)) := by
  induction h generalizing b index T with
  | nil => exact (show b = b.extend [] [] by
      obtain ⟨⟨_, _, _, _, _, _, _, _, _⟩, _, _, _⟩ := b
      simp [Builder.extend])
  | @cons kind a kinds as hsuits _ ih =>
    obtain ⟨jumps, hpush, hjumps⟩ : ∃ jumps,
        b.pushOperand start kind (a.operand L T) =
          .ok (b.extend [a.word .blank start T] jumps) ∧
        jumps = fixupsOf L
          ((a.label?.map (start, ·)).map (b.offset, ·)).toList := by
      refine ⟨_, ?_, rfl⟩
      cases a <;> cases kind <;> first | exact hsuits.elim | skip
      all_goals
        simp [Builder.pushOperand, Argument.operand, Argument.word, Argument.label?, fixupsOf,
          Builder.extend, Builder.push, BuilderOperand.number, Spelling.blank]
      rfl
    rw [argumentOperands, List.zip_cons_cons, Builder.pushOperands, hpush]
    dsimp only
    rw [ih, hjumps]
    simp [Builder.extend, argumentWords, placesFrom, fixupsOf, Builder.offset]

/-- The words and jumps of an instruction that is emitted. -/
theorem emit_eq {op : Opcode} {as : List Argument}
    (h : List.Forall₂ (fun kind a => Argument.Suits a kind) op.format as) (b : Builder)
    (L : Text → Int) (T : Tables) :
    b.emit op (argumentOperands L T as) =
      b.extend (Word.ofOpcode op :: argumentWords .blank b.offset T as)
        (fixupsOf L (placesFrom (fun a => a.label?.map (b.offset, ·)) (b.offset + 1) as)) := by
  rw [Builder.emit, length_argumentOperands, if_pos h.length_eq.symm, pushOperands_eq h]
  simp [Builder.extend, Builder.push, Builder.offset]

/-! ## Statements -/

namespace Draft

/-- A draft with nothing in it but what a header says. -/
structure Fresh (d : Draft) : Prop where
  data : d.builder.code.data = #[]
  constants : d.builder.code.constants = #[]
  names : d.builder.code.names = #[]
  codes : d.builder.code.codes = []
  entered : d.builder.code.handlers = #[]
  places : d.builder.labels = #[]
  fixups : d.builder.fixups = #[]
  failure : d.builder.failure = none
  labels : d.labels = []
  children : d.children = []
  references : d.references = []
  handlers : d.handlers = []

/-- A draft that began as `d₀` and to which the statements `ss` were said. -/
structure Says (d₀ : Draft) (ss : List Statement) (d : Draft) : Prop where
  offset : d.builder.offset = extentOf ss
  words : d.builder.code.data.toList = wordsFrom .blank 0 .empty ss
  tables : d.builder.tables = enterAll .empty ss
  codes : d.builder.code.codes = (nestedOf ss).map some
  children : d.children = childrenOf (nestedOf ss)
  references : d.references = referencesOf ss
  handlers : d.handlers = handlersOf ss
  entered : d.builder.code.handlers = #[]
  name : d.builder.code.name = d₀.builder.code.name
  params : d.builder.code.params = d₀.builder.code.params
  strict : d.builder.code.strict = d₀.builder.code.strict
  registers : d.registers = d₀.registers
  binds : d.Binds (labelsOf ss)
  fixups : d.builder.fixups.toList = fixupsOf d.labelOf (jumpsOf ss)
  known : ∀ j ∈ jumpsOf ss, (d.labels.lookup j.2.2).isSome
  failure : d.builder.failure = none ↔ ((labelsOf ss).map Prod.fst).Nodup
  mentioned : ∀ t ∈ d.labels.map Prod.fst,
    t ∈ (labelsOf ss).map Prod.fst ∨ ∃ j ∈ jumpsOf ss, j.2.2 = t

theorem Fresh.says {d : Draft} (h : d.Fresh) : d.Says [] d where
  offset := by rw [Builder.offset, h.data]; rfl
  words := by rw [h.data]; rfl
  tables := by rw [Builder.tables, h.constants, h.names]; rfl
  codes := h.codes
  children := h.children
  references := h.references
  handlers := h.handlers
  entered := h.entered
  name := rfl
  params := rfl
  strict := rfl
  registers := rfl
  binds := by
    refine ⟨?_, ?_, ?_, ?_, ?_⟩ <;> rw [h.labels]
    · exact fun t l hl => absurd hl (by simp)
    · exact fun t t' l hl => absurd hl (by simp)
    · exact fun t ht => absurd ht (by simp [labelsOf, collectFrom])
    · rw [h.places]
      rfl
    · exact List.nodup_nil
  fixups := by rw [h.fixups]; rfl
  known := by simp [jumpsOf, collectFrom]
  failure := by rw [h.failure]; simp [labelsOf, collectFrom]
  mentioned := by rw [h.labels]; simp

end Draft

theorem extentOf_snoc (ss : List Statement) (st : Statement) :
    extentOf (ss ++ [st]) = extentOf ss + st.extent := by simp [extentOf]

theorem collectFrom_snoc {α : Type} (f : Nat → Statement → List α) (ss : List Statement)
    (st : Statement) : collectFrom f 0 (ss ++ [st]) = collectFrom f 0 ss ++ f (extentOf ss) st := by
  simp [collectFrom_append, collectFrom]

theorem wordsFrom_snoc (w : Spelling) (ss : List Statement) (st : Statement) :
    wordsFrom w 0 .empty (ss ++ [st]) =
      wordsFrom w 0 .empty ss ++ st.words w (extentOf ss) (enterAll .empty ss) := by
  simp [wordsFrom_append, wordsFrom]

theorem enterAll_snoc (T : Tables) (ss : List Statement) (st : Statement) :
    enterAll T (ss ++ [st]) = st.enter (enterAll T ss) := by simp [enterAll]

theorem collectFrom_snoc_of_nil {α : Type} {f : Nat → Statement → List α} {ss : List Statement}
    {st : Statement} (h : ∀ start, f start st = []) :
    collectFrom f 0 (ss ++ [st]) = collectFrom f 0 ss := by
  rw [collectFrom_snoc, h, List.append_nil]

theorem nestedOf_snoc_of_none {ss : List Statement} {st : Statement} (h : st.nested? = none) :
    nestedOf (ss ++ [st]) = nestedOf ss := by simp [nestedOf, h]

theorem nestedOf_snoc (ss : List Statement) (c : Code) :
    nestedOf (ss ++ [.nested c]) = nestedOf ss ++ [c] := by simp [nestedOf, Statement.nested?]

theorem handlersOf_snoc_of_none {ss : List Statement} {st : Statement} (h : st.handler? = none) :
    handlersOf (ss ++ [st]) = handlersOf ss := by simp [handlersOf, h]

theorem handlersOf_snoc (ss : List Statement) (h : HandlerLine) :
    handlersOf (ss ++ [.handler h]) = handlersOf ss ++ [h] := by
  simp [handlersOf, Statement.handler?]

theorem childrenOf_snoc (cs : List Code) (c : Code) :
    childrenOf (cs ++ [c]) = (c.name, cs.length) :: childrenOf cs := by
  simp [childrenOf, List.zipIdx_append]

theorem fixupsOf_congr {L L' : Text → Int} {jumps : List (Nat × Nat × Text)}
    (h : ∀ j ∈ jumps, L j.2.2 = L' j.2.2) : fixupsOf L jumps = fixupsOf L' jumps := by
  refine List.map_congr_left fun j hj => ?_
  exact congrArg (Fixup.mk j.1 j.2.1) (h j hj)

theorem jump_mem_of_places {start place : Nat} {as : List Argument} {j : Nat × Nat × Text}
    (h : j ∈ placesFrom (fun a => a.label?.map (start, ·)) place as) : .jump j.2.2 ∈ as := by
  induction as generalizing place with
  | nil => cases h
  | cons a as ih =>
    rw [placesFrom, List.mem_append] at h
    rcases h with h | h
    · cases a with
      | jump t =>
        rw [List.mem_singleton.1 (show j ∈ [(place, start, t)] from h)]
        exact List.mem_cons_self ..
      | _ => cases h
    · exact List.mem_cons_of_mem _ (ih h)

theorem places_of_jump_mem (start place : Nat) {as : List Argument} {t : Text} (h : .jump t ∈ as) :
    ∃ j ∈ placesFrom (fun a => a.label?.map (start, ·)) place as, j.2.2 = t := by
  induction as generalizing place with
  | nil => cases h
  | cons a as ih =>
    rw [placesFrom]
    rcases List.mem_cons.1 h with rfl | h
    · exact ⟨(place, start, t), List.mem_append_left _ (List.mem_singleton_self _), rfl⟩
    · obtain ⟨j, hj, heq⟩ := ih (place + 1) h
      exact ⟨j, List.mem_append_right _ hj, heq⟩

namespace Draft

variable {d₀ d : Draft} {ss : List Statement}

theorem Says.label (h : d₀.Says ss d) (t : Text) : d₀.Says (ss ++ [.label t]) (d.say (.label t)) := by
  obtain ⟨hbinds, hkeeps, hmentioned, hfailure, heq⟩ := bind_binds h.binds t
  have hlabels : labelsOf (ss ++ [.label t]) = labelsOf ss ++ [(t, d.builder.offset)] := by
    rw [labelsOf, labelsOf, collectFrom_snoc, h.offset]
    rfl
  have hjumps : jumpsOf (ss ++ [.label t]) = jumpsOf ss := collectFrom_snoc_of_nil fun _ => rfl
  rw [say]
  refine ⟨?_, ?_, ?_, ?_, ?_, ?_, ?_, ?_, ?_, ?_, ?_, ?_, ?_, ?_, ?_, ?_, ?_⟩
  · rw [extentOf_snoc, ← h.offset, heq]
    rfl
  · rw [wordsFrom_snoc, ← h.words, heq]
    exact (List.append_nil _).symm
  · rw [enterAll_snoc, ← h.tables, heq]
    rfl
  · rw [nestedOf_snoc_of_none rfl, heq]; exact h.codes
  · rw [nestedOf_snoc_of_none rfl, heq]; exact h.children
  · rw [referencesOf, collectFrom_snoc_of_nil fun _ => rfl, heq]; exact h.references
  · rw [handlersOf_snoc_of_none rfl, heq]; exact h.handlers
  · rw [heq]; exact h.entered
  · rw [heq]; exact h.name
  · rw [heq]; exact h.params
  · rw [heq]; exact h.strict
  · rw [heq]; exact h.registers
  · rw [hlabels]; exact hbinds
  · rw [hjumps, fixupsOf_congr fun j hj => hkeeps.labelOf_eq (h.known j hj), ← h.fixups, heq]
  · rw [hjumps]
    exact fun j hj => hkeeps.isSome (h.known j hj)
  · rw [hfailure, h.failure, hlabels, List.map_append, List.map_singleton, List.nodup_append]
    refine and_congr_right fun _ => ⟨fun hnew => ⟨by simp, ?_⟩, fun hall hmem => ?_⟩
    · rintro a ha b hb rfl
      rw [List.mem_singleton.1 hb] at ha
      exact hnew ha
    · exact hall.2 t hmem t (List.mem_singleton_self t) rfl
  · intro t' ht'
    rw [hlabels, hjumps, List.map_append, List.mem_append]
    rcases hmentioned t' ht' with rfl | ht'
    · exact .inl (.inr (List.mem_singleton_self _))
    · exact (h.mentioned t' ht').imp_left .inl

theorem Says.instruction (h : d₀.Says ss d) {op : Opcode} {as : List Argument}
    (hsuits : List.Forall₂ (fun kind a => Argument.Suits a kind) op.format as) :
    d₀.Says (ss ++ [.instruction op as]) (d.say (.instruction op as)) := by
  obtain ⟨htakes, hos⟩ := d.takeAll_takes 0 as
  set d' := (d.takeAll 0 as).2
  set jumps := placesFrom (fun a => a.label?.map (d.builder.offset, ·)) (d.builder.offset + 1) as
  have hperform : d.say (.instruction op as) = { d' with
      builder := d'.builder.extend
        (Word.ofOpcode op :: argumentWords .blank d.builder.offset d.builder.tables as)
        (fixupsOf d'.labelOf jumps) } := by
    have hemit := emit_eq hsuits d'.builder d'.labelOf d.builder.tables
    rw [htakes.offset_eq, ← hos] at hemit
    rw [← hemit]
    rfl
  have hcode : d'.builder.code = (d.builder.setTables d'.builder.tables).code := by
    rw [htakes.tables_eq, htakes.builder]
  have hbinds : d'.Binds (labelsOf ss) := htakes.binds _ h.binds
  have hlen : op.format.length = as.length := hsuits.length_eq
  have hlabels : labelsOf (ss ++ [.instruction op as]) = labelsOf ss :=
    collectFrom_snoc_of_nil fun _ => rfl
  have hjumps : jumpsOf (ss ++ [.instruction op as]) = jumpsOf ss ++ jumps := by
    rw [jumpsOf, collectFrom_snoc, ← h.offset]
    rfl
  rw [hperform]
  refine ⟨?_, ?_, ?_, ?_, ?_, ?_, ?_, ?_, ?_, ?_, ?_, ?_, ?_, ?_, ?_, ?_, ?_⟩
  · have hsize : d'.builder.code.data.size = extentOf ss := htakes.offset_eq.trans h.offset
    simp only [Builder.offset, Builder.extend, Array.size_append, hsize, extentOf_snoc,
      Statement.extent, Opcode.length, List.size_toArray, List.length_cons, length_argumentWords, hlen]
    omega
  · rw [wordsFrom_snoc, ← h.words, ← h.offset, ← h.tables]
    simp only [Builder.extend, Array.toList_append, hcode]
    rfl
  · rw [enterAll_snoc, ← h.tables]
    exact htakes.tables_eq
  · rw [nestedOf_snoc_of_none rfl, ← h.codes]
    exact (congrArg Code.codes hcode).trans rfl
  · rw [nestedOf_snoc_of_none rfl]
    exact htakes.children.trans h.children
  · rw [referencesOf, collectFrom_snoc, ← referencesOf, ← h.references, ← h.offset]
    exact htakes.references
  · rw [handlersOf_snoc_of_none rfl]
    exact htakes.handlers.trans h.handlers
  · exact (congrArg Code.handlers hcode).trans h.entered
  · exact (congrArg Code.name hcode).trans h.name
  · exact (congrArg Code.params hcode).trans h.params
  · exact (congrArg Code.strict hcode).trans h.strict
  · exact htakes.registers.trans h.registers
  · rw [hlabels]
    exact ⟨hbinds.given, hbinds.distinct, hbinds.known, hbinds.count, hbinds.once⟩
  · have hold : d'.builder.fixups = d.builder.fixups := by
      rw [htakes.builder]
      rfl
    have hkeep : fixupsOf d.labelOf (jumpsOf ss) = fixupsOf d'.labelOf (jumpsOf ss) :=
      fixupsOf_congr fun j hj => (htakes.keeps.labelOf_eq (h.known j hj)).symm
    simp only [Builder.extend, Array.toList_append, hold, h.fixups, hkeep, hjumps]
    exact List.map_append.symm
  · intro j hj
    rw [hjumps, List.mem_append] at hj
    rcases hj with hj | hj
    · exact htakes.keeps.isSome (h.known j hj)
    · exact htakes.known _ (jump_mem_of_places hj)
  · rw [hlabels, ← h.failure]
    refine Eq.to_iff (congrArg (· = none) ?_)
    exact (congrArg Builder.failure htakes.builder).trans rfl
  · intro t ht
    rw [hlabels, hjumps]
    rcases htakes.mentioned t ht with ht | ht
    · obtain ⟨j, hj, rfl⟩ := places_of_jump_mem d.builder.offset (d.builder.offset + 1) ht
      exact .inr ⟨j, List.mem_append_right _ hj, rfl⟩
    · refine (h.mentioned t ht).imp_right fun hmentioned => ?_
      obtain ⟨j, hj, heq⟩ := hmentioned
      exact ⟨j, List.mem_append_left _ hj, heq⟩

/-- A statement that gives no word binds no label and mentions none. -/
theorem Says.aside (h : d₀.Says ss d) {st : Statement} (hst : st.extent = 0)
    (hwords : ∀ start T, st.words .blank start T = []) (henter : ∀ T, st.enter T = T)
    (hlabels : ∀ start, st.labelAt start = []) (hjumps : ∀ start, st.jumpsAt start = [])
    (hreferences : ∀ start, st.referencesAt start = []) {d' : Draft}
    (hcode : d'.builder.code = { d.builder.code with codes := (nestedOf (ss ++ [st])).map some })
    (hbuilder : d'.builder = { d.builder with code := d'.builder.code })
    (hchildren : d'.children = childrenOf (nestedOf (ss ++ [st])))
    (hhandlers : d'.handlers = handlersOf (ss ++ [st]))
    (hrest : d'.labels = d.labels ∧ d'.references = d.references ∧ d'.registers = d.registers) :
    d₀.Says (ss ++ [st]) d' := by
  obtain ⟨hnumbers, hrefs, hregisters⟩ := hrest
  have hlabelOf : d'.labelOf = d.labelOf := by
    funext t
    rw [labelOf, labelOf, hnumbers]
  refine ⟨?_, ?_, ?_, ?_, hchildren, ?_, hhandlers, ?_, ?_, ?_, ?_, ?_, ?_, ?_, ?_, ?_, ?_⟩
  · rw [extentOf_snoc, hst, Builder.offset, hcode]
    exact h.offset
  · rw [wordsFrom_snoc, hwords, List.append_nil, hcode]
    exact h.words
  · rw [enterAll_snoc, henter, Builder.tables, hcode]
    exact h.tables
  · rw [hcode]
  · rw [referencesOf, collectFrom_snoc_of_nil hreferences, hrefs]
    exact h.references
  · rw [hcode]; exact h.entered
  · rw [hcode]; exact h.name
  · rw [hcode]; exact h.params
  · rw [hcode]; exact h.strict
  · exact hregisters.trans h.registers
  · rw [labelsOf, collectFrom_snoc_of_nil hlabels]
    refine ⟨?_, ?_, ?_, ?_, ?_⟩ <;> rw [hnumbers]
    · rw [hbuilder]
      exact h.binds.given
    · exact h.binds.distinct
    · exact h.binds.known
    · rw [hbuilder]
      exact h.binds.count
    · exact h.binds.once
  · rw [jumpsOf, collectFrom_snoc_of_nil hjumps, hlabelOf, hbuilder]
    exact h.fixups
  · rw [jumpsOf, collectFrom_snoc_of_nil hjumps, hnumbers]
    exact h.known
  · rw [labelsOf, collectFrom_snoc_of_nil hlabels, hbuilder]
    exact h.failure
  · rw [labelsOf, collectFrom_snoc_of_nil hlabels, jumpsOf, collectFrom_snoc_of_nil hjumps, hnumbers]
    exact h.mentioned

theorem Says.handler (h : d₀.Says ss d) (hd : HandlerLine) :
    d₀.Says (ss ++ [.handler hd]) (d.say (.handler hd)) := by
  refine h.aside rfl (fun _ _ => rfl) (fun _ => rfl) (fun _ => rfl) (fun _ => rfl) (fun _ => rfl)
    ?_ rfl ?_ ?_ ⟨rfl, rfl, rfl⟩
  · -- A code with its own nested codes is itself.
    rw [nestedOf_snoc_of_none rfl, ← h.codes]
    change d.builder.code = _
    cases d.builder.code
    rfl
  · rw [nestedOf_snoc_of_none rfl]
    exact h.children
  · rw [handlersOf_snoc, ← h.handlers]
    rfl

theorem Says.nested (h : d₀.Says ss d) (c : Code) :
    d₀.Says (ss ++ [.nested c]) (d.say (.nested c)) := by
  refine h.aside rfl (fun _ _ => rfl) (fun _ => rfl) (fun _ => rfl) (fun _ => rfl) (fun _ => rfl)
    ?_ rfl ?_ ?_ ⟨rfl, rfl, rfl⟩
  · rw [nestedOf_snoc, List.map_append, ← h.codes]
    rfl
  · have hcount : (nestedOf ss).length = d.builder.code.codes.length := by
      rw [h.codes, List.length_map]
    rw [nestedOf_snoc, childrenOf_snoc, ← h.children, hcount]
    rfl
  · rw [handlersOf_snoc_of_none rfl]
    exact h.handlers

theorem Says.say (h : d₀.Says ss d) {st : Statement} (hst : st.Suits) :
    d₀.Says (ss ++ [st]) (d.say st) := by
  cases st with
  | label t => exact h.label t
  | instruction op as => exact h.instruction hst
  | handler hd => exact h.handler hd
  | nested c => exact h.nested c

theorem Fresh.says_all (h : d₀.Fresh) {ss : List Statement} (hss : ∀ st ∈ ss, st.Suits) :
    d₀.Says ss (ss.foldl Draft.say d₀) := by
  induction ss using List.reverseRec with
  | nil => exact h.says
  | append_singleton ss st ih =>
    rw [List.foldl_append]
    exact (ih fun st' h' => hss st' (List.mem_append_left _ h')).say (hss st (by simp))

end Draft

end Listing

end RegisterJit
