import RegisterJit.Proofs.Restating

/-!
# What a builder is asked for

A builder is driven by requests. What a list of requests comes to is computed here from the list alone:
where each instruction starts, where each label is bound, and which words the instructions have once a
word is known for every jump. A builder that did not fail holds these words with nothing filled in
(`Built`), one request adding what it asks for (`Built.perform`), and finishing fills in the
displacements. So the finished code is that of the requests (`Built.build_ok`).

`Request` lists what a builder can be asked for. Instructions are words of a known number, so places can be
computed from the list: `placeOf` gives that of a label and `wordsFrom` all words, with a function for the words
of jumps. `Built` relates a builder to the requests so far; a request that fits keeps it (`Built.perform`), and
by induction so does a list of requests. Finishing overwrites the words of jumps, and `fill_wordsFrom` says that
this gives the words with displacements. `Resolution` derives from this what a reader of the finished code
finds.
-/

namespace RegisterJit

namespace Builder

/-! ## Requests -/

/-- What can be asked of a builder. -/
inductive Request
  | registers (n : UInt32)
  | params (n : UInt32)
  | strict (on : Bool)
  | newLabel
  | bind (l : Int)
  | name (t : Text)
  | constant (k : Constant)
  | number (x : Double)
  | string (t : Text)
  | child (c : Code)
  | emit (op : Opcode) (operands : List BuilderOperand)
  | catching (start stop : Int) (level : UInt32)
  | finally_ (start stop : Int) (jump flag : Register) (level : UInt32)

/-- The builder after a request; `none` if a label is to be bound that was not given out. -/
def perform? (b : Builder) : Request → Option Builder
  | .registers n => some (b.setRegisters n)
  | .params n => some (b.setParams n)
  | .strict on => some (b.setStrict on)
  | .newLabel => some b.newLabel.2
  | .bind l => b.bind? l
  | .name t => some (b.name t).2
  | .constant k => some (b.constant k).2
  | .number x => some (b.constant (Constant.ofNumber x)).2
  | .string t => some (b.constant (Constant.ofText t)).2
  | .child c => some (b.child c).2
  | .emit op os => some (b.emit op os)
  | .catching start stop level => some (b.catching start stop level)
  | .finally_ start stop jump flag level => some (b.finally_ start stop jump flag level)

def performAll? (b : Builder) (rs : List Request) : Option Builder := rs.foldlM perform? b

theorem performAll?_append {b : Builder} {rs rs' : List Request} :
    b.performAll? (rs ++ rs') = (b.performAll? rs).bind fun b' => b'.performAll? rs' :=
  List.foldlM_append

theorem performAll?_snoc {b b' : Builder} {rs : List Request} {r : Request} :
    b.performAll? (rs ++ [r]) = some b' ↔
      ∃ b₁, b.performAll? rs = some b₁ ∧ b₁.perform? r = some b' := by
  rw [performAll?_append, Option.bind_eq_some_iff]
  refine exists_congr fun b₁ => and_congr_right fun _ => ?_
  rw [performAll?, List.foldlM_cons]
  cases b₁.perform? r <;> exact Iff.rfl

/-! ## What requests come to -/

/-- Whether an operand can stand where a kind of operand is wanted. -/
def Suits : OperandKind → BuilderOperand → Prop
  | .register, .register _ | .jump, .label _ | .packed, .packed .. => True
  | .register, _ | .jump, _ | .packed, _ => False
  | _, _ => True

/-- The word of an operand, given those of jumps. -/
def operandWord (jump : Int → Word) : OperandKind → BuilderOperand → Word
  | .register, .register r => Word.ofRegister r
  | .jump, .label l => jump l
  | .packed, .packed x y c => Word.pack x y c
  | _, o => Word.ofUInt32 (UInt32.ofInt o.number)

def jumpLabel? : OperandKind → BuilderOperand → Option Int
  | .jump, .label l => some l
  | _, _ => none

/-- The displacements to fill in for operands from word `place` on, of the instruction at `start`. -/
def jumpsIn (start : Nat) : (place : Nat) → List (OperandKind × BuilderOperand) → List Fixup
  | _, [] => []
  | place, (kind, o) :: rest =>
    ((jumpLabel? kind o).map fun l => ⟨place, start, l⟩).toList ++ jumpsIn start (place + 1) rest

namespace Request

/-- The number of words that a request adds. -/
def extent : Request → Nat
  | .emit op _ => op.length
  | _ => 0

/-- The operands of an instruction are as many as its format has, and of the right kinds. -/
def Fits : Request → Prop
  | .emit op os => List.Forall₂ Suits op.format os
  | _ => True

def words (jump : Int → Word) : Request → List Word
  | .emit op os => Word.ofOpcode op :: (op.format.zip os).map fun p => operandWord jump p.1 p.2
  | _ => []

/-- The displacements that a request at word `start` leaves to fill in. -/
def jumpsAt (start : Nat) : Request → List Fixup
  | .emit op os => jumpsIn start (start + 1) (op.format.zip os)
  | _ => []

/-- The label that a request binds at word `start`. -/
def bindsAt (start : Nat) : Request → List (Int × Nat)
  | .bind l => [(l, start)]
  | _ => []

/-- The labels between which a request puts a handler, and the handler but for its range. -/
def handler? : Request → Option (Int × Int × Handler)
  | .catching start stop level =>
    some (start, stop, ⟨Handler.kindCatch, 0, 0, level, Register.invalid, Register.invalid⟩)
  | .finally_ start stop jump flag level =>
    some (start, stop, ⟨Handler.kindFinally, 0, 0, level, jump, flag⟩)
  | _ => none

/-- A handler with labels for its range, as a builder keeps it. -/
def entered (h : Int × Int × Handler) : Handler :=
  { h.2.2 with start := UInt32.ofInt h.1, stop := UInt32.ofInt h.2.1 }

/-- The instruction that a request adds at word `start`. -/
def instructionAt (jump : Int → Word) (start : Nat) : Request → List Instruction
  | .emit op os => [⟨start, op, (Request.emit op os).words jump⟩]
  | _ => []

def enter (T : Tables) : Request → Tables
  | .name t => (T.name t).2
  | .constant k => (T.constant k).2
  | .number x => (T.constant (Constant.ofNumber x)).2
  | .string t => (T.constant (Constant.ofText t)).2
  | _ => T

end Request

/-- What requests give at their places, from word `start` on. -/
def collectFrom {α : Type} (f : Nat → Request → List α) : (start : Nat) → List Request → List α
  | _, [] => []
  | start, r :: rs => f start r ++ collectFrom f (start + r.extent) rs

def extentOf (rs : List Request) : Nat := (rs.map Request.extent).sum

def bindings (rs : List Request) : List (Int × Nat) := collectFrom Request.bindsAt 0 rs

def jumpsOf (rs : List Request) : List Fixup := collectFrom Request.jumpsAt 0 rs

/-- The handlers that requests give, with the labels of their ranges. -/
def handlersOf (rs : List Request) : List (Int × Int × Handler) := rs.filterMap Request.handler?

/-- The words of requests from word `start` on, given those of jumps by the start of the instruction. -/
def wordsFrom (jump : Nat → Int → Word) (start : Nat) (rs : List Request) : List Word :=
  collectFrom (fun start r => r.words (jump start)) start rs

theorem wordsFrom_cons (jump : Nat → Int → Word) (start : Nat) (r : Request) (rs : List Request) :
    wordsFrom jump start (r :: rs) = r.words (jump start) ++ wordsFrom jump (start + r.extent) rs := rfl

/-- The instructions of requests, given the words of jumps by the start of the instruction. -/
def instructionsOf (jump : Nat → Int → Word) (rs : List Request) : List Instruction :=
  collectFrom (fun start r => r.instructionAt (jump start) start) 0 rs

section Collect

variable {α : Type}

theorem collectFrom_append (f : Nat → Request → List α) (start : Nat) (rs rs' : List Request) :
    collectFrom f start (rs ++ rs') =
      collectFrom f start rs ++ collectFrom f (start + extentOf rs) rs' := by
  induction rs generalizing start with
  | nil => simp [collectFrom, extentOf]
  | cons r rs ih =>
    simp only [List.cons_append, collectFrom, ih, List.append_assoc, extentOf, List.map_cons,
      List.sum_cons, Nat.add_assoc]

theorem collectFrom_snoc (f : Nat → Request → List α) (rs : List Request) (r : Request) :
    collectFrom f 0 (rs ++ [r]) = collectFrom f 0 rs ++ f (extentOf rs) r := by
  rw [collectFrom_append, Nat.zero_add]
  simp [collectFrom]

theorem extentOf_append (rs rs' : List Request) : extentOf (rs ++ rs') = extentOf rs + extentOf rs' := by
  simp [extentOf]

theorem mem_collectFrom {f : Nat → Request → List α} {start : Nat} {rs : List Request} {x : α} :
    x ∈ collectFrom f start rs ↔
      ∃ before r after, rs = before ++ r :: after ∧ x ∈ f (start + extentOf before) r := by
  constructor
  · intro h
    induction rs generalizing start with
    | nil => cases h
    | cons r rs ih =>
      rw [collectFrom, List.mem_append] at h
      rcases h with h | h
      · exact ⟨[], r, rs, rfl, h⟩
      · obtain ⟨before, r', after, rfl, hx⟩ := ih h
        refine ⟨r :: before, r', after, rfl, ?_⟩
        rwa [extentOf, List.map_cons, List.sum_cons, ← extentOf, ← Nat.add_assoc]
  · rintro ⟨before, r, after, rfl, hx⟩
    rw [collectFrom_append, collectFrom]
    exact List.mem_append_right _ (List.mem_append_left _ hx)

end Collect

theorem Request.length_words (jump : Int → Word) {r : Request} (h : r.Fits) :
    (r.words jump).length = r.extent := by
  cases r with
  | emit op os =>
    have hlength : op.format.length = os.length := List.Forall₂.length_eq h
    rw [words, List.length_cons, List.length_map, List.length_zip, ← hlength, Nat.min_self, extent,
      Opcode.length, Nat.add_comm]
  | _ => rfl

theorem length_wordsFrom (jump : Nat → Int → Word) (start : Nat) {rs : List Request}
    (h : ∀ r ∈ rs, r.Fits) : (wordsFrom jump start rs).length = extentOf rs := by
  induction rs generalizing start with
  | nil => rfl
  | cons r rs ih =>
    obtain ⟨hr, hrs⟩ := List.forall_mem_cons.1 h
    rw [wordsFrom_cons, List.length_append, r.length_words (jump start) hr, ih (start + r.extent) hrs,
      extentOf, extentOf, List.map_cons, List.sum_cons]

theorem readFrom_wordsFrom (jump : Nat → Int → Word) (before : List Word) {rs : List Request}
    (h : ∀ r ∈ rs, r.Fits) :
    Stream.readFrom (before ++ wordsFrom jump before.length rs).toArray before.length =
      (collectFrom (fun start r => r.instructionAt (jump start) start) before.length rs, none) := by
  induction rs generalizing before with
  | nil =>
    rw [Stream.readFrom, dif_neg (by simp [wordsFrom, collectFrom])]
    rfl
  | cons r rs ih =>
    obtain ⟨hr, hrs⟩ := List.forall_mem_cons.1 h
    have hlen := r.length_words (jump before.length) hr
    have hrest := ih (before ++ r.words (jump before.length)) hrs
    rw [List.length_append, hlen, List.append_assoc] at hrest
    cases r with
    | emit op os =>
      rw [wordsFrom_cons, Stream.readFrom_part before _ rfl hlen]
      rw [show (Request.emit op os).extent = op.length from rfl] at hrest ⊢
      rw [hrest]
      rfl
    | _ => exact hrest

theorem read_wordsFrom (jump : Nat → Int → Word) {rs : List Request} (h : ∀ r ∈ rs, r.Fits) :
    Stream.read (wordsFrom jump 0 rs).toArray = (instructionsOf jump rs, none) :=
  readFrom_wordsFrom jump [] h

theorem flatMap_words_instructionsOf (jump : Nat → Int → Word) (rs : List Request) :
    (instructionsOf jump rs).flatMap Instruction.words = wordsFrom jump 0 rs := by
  rw [instructionsOf, wordsFrom]
  generalize 0 = start
  induction rs generalizing start with
  | nil => rfl
  | cons r rs ih =>
    rw [collectFrom, collectFrom, List.flatMap_append, ih]
    congr 1
    cases r with
    | emit op os => exact List.append_nil _
    | _ => rfl

/-! ## Tables -/

theorem pushOperands_tables (b : Builder) (op : Opcode) (start index : Nat)
    (kos : List (OperandKind × BuilderOperand)) :
    (b.pushOperands op start index kos).tables = b.tables := by
  induction kos generalizing b index with
  | nil => rfl
  | cons p kos ih =>
    obtain ⟨kind, o⟩ := p
    rw [pushOperands]
    split
    · rfl
    · rename_i b' hpush
      rw [ih]
      cases kind <;> cases o <;> cases hpush <;> rfl

theorem emit_tables (b : Builder) (op : Opcode) (os : List BuilderOperand) :
    (b.emit op os).tables = b.tables := by
  rw [emit]
  split
  · exact pushOperands_tables ..
  · rfl

theorem tables_of_perform? {b b' : Builder} {r : Request} (hr : b.perform? r = some b') :
    b'.tables = r.enter b.tables := by
  cases r with
  | bind l =>
    rw [perform?, bind?] at hr
    split at hr <;> cases hr <;> rfl
  | emit op os =>
    cases hr
    exact b.emit_tables op os
  | name t =>
    cases hr
    rw [name_eq]
    rfl
  | constant | number | string =>
    cases hr
    rw [constant_eq]
    rfl
  | _ =>
    cases hr
    rfl

theorem below_enter (T : Tables) (r : Request) : T.Below (r.enter T) := by
  cases r with
  | name t => exact T.below_name t
  | constant | number | string => exact T.below_constant _
  | _ => exact .refl T

theorem below_of_performAll? {b b' : Builder} {rs : List Request} (h : b.performAll? rs = some b') :
    b.tables.Below b'.tables := by
  induction rs using List.reverseRecOn generalizing b' with
  | nil =>
    cases h
    exact .refl _
  | append_singleton rs r ih =>
    obtain ⟨b₁, hfirst, hr⟩ := performAll?_snoc.1 h
    rw [tables_of_perform? hr]
    exact (ih hfirst).trans (below_enter _ r)

/-! ## Instructions -/

theorem pushOperand_cases (b : Builder) (start : Nat) (kind : OperandKind) (o : BuilderOperand) :
    (Suits kind o ∧ b.pushOperand start kind o =
      .ok (b.extend [operandWord (fun _ => 0) kind o] (jumpsIn start b.offset [(kind, o)]))) ∨
      ∃ wanted, b.pushOperand start kind o = .error wanted := by
  cases kind <;> cases o
  all_goals first
    | exact .inr ⟨_, rfl⟩
    | refine .inl ⟨trivial, ?_⟩
      simp [pushOperand, operandWord, jumpsIn, jumpLabel?, extend, push, offset]

theorem fail_failure (b : Builder) (e : BuildError) : (b.fail e).failure ≠ none := by
  rw [fail]
  cases b.failure <;> exact Option.some_ne_none _

/-- Operands are all appended, or the builder has failed. -/
theorem pushOperands_eq (b : Builder) (op : Opcode) (start index : Nat)
    (kos : List (OperandKind × BuilderOperand))
    (h : (b.pushOperands op start index kos).failure = none) :
    (∀ p ∈ kos, Suits p.1 p.2) ∧
      b.pushOperands op start index kos =
        b.extend (kos.map fun p => operandWord (fun _ => 0) p.1 p.2) (jumpsIn start b.offset kos) := by
  induction kos generalizing b index with
  | nil =>
    obtain ⟨⟨_, _, _, _, _, _, _, _, _⟩, _, _, _⟩ := b
    exact ⟨by simp, by simp [pushOperands, extend, jumpsIn]⟩
  | cons p kos ih =>
    obtain ⟨kind, o⟩ := p
    rw [pushOperands] at h ⊢
    rcases b.pushOperand_cases start kind o with ⟨hsuits, hpush⟩ | ⟨wanted, hpush⟩
    · rw [hpush] at h ⊢
      dsimp only at h ⊢
      obtain ⟨hall, heq⟩ := ih _ (index + 1) h
      refine ⟨List.forall_mem_cons.2 ⟨hsuits, hall⟩, ?_⟩
      rw [heq]
      cases hjump : jumpLabel? kind o <;> simp [extend, offset, jumpsIn, hjump]
    · rw [hpush] at h
      exact absurd h (b.fail_failure _)

theorem emit_eq (b : Builder) (op : Opcode) (os : List BuilderOperand)
    (h : (b.emit op os).failure = none) :
    (Request.emit op os).Fits ∧
      b.emit op os = b.extend ((Request.emit op os).words fun _ => 0)
        ((Request.emit op os).jumpsAt b.offset) := by
  rw [emit] at h ⊢
  split at h
  · rename_i hlength
    rw [if_pos hlength]
    obtain ⟨hall, heq⟩ := pushOperands_eq _ _ _ _ _ h
    refine ⟨List.forall₂_iff_zip.2 ⟨hlength.symm, fun hp => hall _ hp⟩, ?_⟩
    rw [heq]
    simp [extend, push, offset, Request.words, Request.jumpsAt]
  · exact absurd h (b.fail_failure _)

/-! ## A builder that did not fail -/

/-- What a builder holds after requests none of which failed. -/
structure Built (rs : List Request) (b : Builder) : Prop where
  fits : ∀ r ∈ rs, r.Fits
  once : ((bindings rs).map Prod.fst).Nodup
  data : b.code.data.toList = wordsFrom (fun _ _ => 0) 0 rs
  fixups : b.fixups.toList = jumpsOf rs
  handlers : b.code.handlers.toList = (handlersOf rs).map Request.entered
  given : ∀ p ∈ bindings rs, b.HasLabel p.1
  labels : ∀ l : Nat, l < b.labels.size → b.labels[l]? = some ((bindings rs).lookup (l : Int))

theorem built_new (name : Text) : Built [] (new name) where
  fits := by simp
  once := by simp [bindings, collectFrom]
  data := rfl
  fixups := rfl
  handlers := rfl
  given := by simp [bindings, collectFrom]
  labels := by simp [new]

variable {rs : List Request} {b b' : Builder}

theorem Built.offset_eq (h : Built rs b) : b.offset = extentOf rs := by
  rw [offset, ← Array.length_toList, h.data, length_wordsFrom _ 0 h.fits]

theorem handlersOf_snoc (rs : List Request) (r : Request) :
    handlersOf (rs ++ [r]) = handlersOf rs ++ r.handler?.toList := by
  cases hr : r.handler? <;> simp [handlersOf, hr]

theorem Built.handlers_snoc (h : Built rs b) {r : Request} (hr : r.handler? = none)
    (hhandlers : b'.code.handlers = b.code.handlers) :
    b'.code.handlers.toList = (handlersOf (rs ++ [r])).map Request.entered := by
  rw [hhandlers, h.handlers, handlersOf_snoc, hr, Option.toList_none, List.append_nil]

/-- A request that adds no words and binds no label. -/
theorem Built.aside (h : Built rs b) {r : Request} (hfits : r.Fits)
    (hwords : ∀ jump, r.words jump = []) (hjumps : ∀ start, r.jumpsAt start = [])
    (hbinds : ∀ start, r.bindsAt start = []) (hdata : b'.code.data = b.code.data)
    (hfixups : b'.fixups = b.fixups) (hlabels : b'.labels = b.labels)
    (hhandlers : b'.code.handlers.toList = (handlersOf (rs ++ [r])).map Request.entered) :
    Built (rs ++ [r]) b' := by
  have hbindings : bindings (rs ++ [r]) = bindings rs := by
    rw [bindings, collectFrom_snoc, hbinds, List.append_nil]
    rfl
  refine ⟨?_, ?_, ?_, ?_, ?_, ?_, ?_⟩
  · exact fun r' hr' => (List.mem_append.1 hr').elim (h.fits r') fun hr' =>
      List.mem_singleton.1 hr' ▸ hfits
  · rw [hbindings]
    exact h.once
  · rw [hdata, h.data, wordsFrom, wordsFrom, collectFrom_snoc, hwords, List.append_nil]
  · rw [hfixups, h.fixups, jumpsOf, jumpsOf, collectFrom_snoc, hjumps, List.append_nil]
  · exact hhandlers
  · rw [hbindings]
    exact fun p hp => by simpa only [HasLabel, hlabels] using h.given p hp
  · rw [hbindings, hlabels]
    exact h.labels

theorem Built.newLabel (h : Built rs b) : Built (rs ++ [.newLabel]) b.newLabel.2 := by
  have hbindings : bindings (rs ++ [.newLabel]) = bindings rs := by
    rw [bindings, collectFrom_snoc]
    exact List.append_nil _
  refine ⟨?_, ?_, ?_, ?_, ?_, ?_, ?_⟩
  · exact fun r' hr' => (List.mem_append.1 hr').elim (h.fits r') fun hr' =>
      List.mem_singleton.1 hr' ▸ trivial
  · rw [hbindings]
    exact h.once
  · rw [wordsFrom, collectFrom_snoc]
    exact h.data.trans (List.append_nil _).symm
  · rw [jumpsOf, collectFrom_snoc]
    exact h.fixups.trans (List.append_nil _).symm
  · exact h.handlers_snoc rfl rfl
  · rw [hbindings]
    intro p hp
    obtain ⟨h0, h1⟩ := h.given p hp
    exact ⟨h0, by simp only [Builder.newLabel, Array.size_push]; omega⟩
  · rw [hbindings]
    intro l hl
    simp only [Builder.newLabel, Array.size_push] at hl ⊢
    rw [Array.getElem?_push]
    split
    · rename_i heq
      -- The new label is larger than all that are bound.
      have hnone : (bindings rs).lookup (l : Int) = none := by
        rw [List.lookup_eq_none_iff]
        intro p hp
        have := (h.given p hp).lt
        rw [bne_iff_ne]
        omega
      rw [hnone]
    · exact h.labels l (by omega)

theorem Built.bind (h : Built rs b) {l : Int} (hbind : b.bind? l = some b')
    (hfailure : b'.failure = none) : Built (rs ++ [.bind l]) b' := by
  have hbindings : bindings (rs ++ [.bind l]) = bindings rs ++ [(l, extentOf rs)] := by
    rw [bindings, collectFrom_snoc]
    rfl
  rw [bind?] at hbind
  split at hbind
  · cases hbind
  · cases hbind
    exact absurd hfailure (b.fail_failure _)
  · rename_i hplace
    cases hbind
    rw [place?] at hplace
    split at hplace
    · rename_i hnonneg
      have hlt : l.toNat < b.labels.size := (Array.getElem?_eq_some_iff.1 hplace).1
      have hl : ((l.toNat : Nat) : Int) = l := Int.toNat_of_nonneg hnonneg
      have hfree : (bindings rs).lookup l = none := by
        have hget := h.labels l.toNat hlt
        rw [hplace, hl] at hget
        exact (Option.some.inj hget).symm
      refine ⟨?_, ?_, ?_, ?_, ?_, ?_, ?_⟩
      · exact fun r' hr' => (List.mem_append.1 hr').elim (h.fits r') fun hr' =>
          List.mem_singleton.1 hr' ▸ trivial
      · rw [hbindings, List.map_append, List.map_singleton, List.nodup_append]
        refine ⟨h.once, List.nodup_singleton _, ?_⟩
        rintro k hk k' hk' rfl
        obtain ⟨p, hp, hpk⟩ := List.mem_map.1 hk
        have := List.lookup_eq_none_iff.1 hfree p hp
        rw [bne_iff_ne] at this
        exact this ((List.mem_singleton.1 hk').symm.trans hpk.symm)
      · rw [wordsFrom, collectFrom_snoc]
        exact h.data.trans (List.append_nil _).symm
      · rw [jumpsOf, collectFrom_snoc]
        exact h.fixups.trans (List.append_nil _).symm
      · exact h.handlers_snoc rfl rfl
      · rw [hbindings]
        intro p hp
        rcases List.mem_append.1 hp with hp | hp
        · simpa [HasLabel] using h.given p hp
        · rw [List.mem_singleton.1 hp]
          exact ⟨hnonneg, by simpa using hlt⟩
      · rw [hbindings]
        intro k hk
        simp only [Array.size_setIfInBounds] at hk
        rw [List.lookup_append, Array.getElem?_setIfInBounds, h.offset_eq]
        split
        · rename_i heq
          rw [← heq, hl, hfree, Option.none_or, List.lookup_cons_self]
        · rename_i hne
          have hne' : ((k : Int) == l) = false := by
            rw [beq_eq_false_iff_ne]
            omega
          rw [h.labels k hk, List.lookup_cons, hne', List.lookup_nil, Option.or_none]
    · cases hplace

theorem Built.emit (h : Built rs b) {op : Opcode} {os : List BuilderOperand}
    (hfailure : (b.emit op os).failure = none) : Built (rs ++ [.emit op os]) (b.emit op os) := by
  obtain ⟨hfits, heq⟩ := b.emit_eq op os hfailure
  have hbindings : bindings (rs ++ [.emit op os]) = bindings rs := by
    rw [bindings, collectFrom_snoc]
    exact List.append_nil _
  rw [heq, h.offset_eq]
  refine ⟨?_, ?_, ?_, ?_, ?_, ?_, ?_⟩
  · exact fun r' hr' => (List.mem_append.1 hr').elim (h.fits r') fun hr' =>
      List.mem_singleton.1 hr' ▸ hfits
  · rw [hbindings]
    exact h.once
  · rw [wordsFrom, collectFrom_snoc]
    simp only [extend, Array.toList_append, h.data]
    rfl
  · rw [jumpsOf, collectFrom_snoc]
    simp only [extend, Array.toList_append, h.fixups]
    rfl
  · exact h.handlers_snoc rfl rfl
  · rw [hbindings]
    exact h.given
  · rw [hbindings]
    exact h.labels

theorem Built.perform (h : Built rs b) {r : Request} (hr : b.perform? r = some b')
    (hfailure : b'.failure = none) : Built (rs ++ [r]) b' := by
  cases r with
  | newLabel =>
    cases hr
    exact h.newLabel
  | bind l => exact h.bind hr hfailure
  | emit op os =>
    cases hr
    exact h.emit hfailure
  | name t =>
    cases hr
    rw [name_eq]
    exact h.aside trivial (fun _ => rfl) (fun _ => rfl) (fun _ => rfl) rfl rfl rfl
      (h.handlers_snoc rfl rfl)
  | constant | number | string =>
    cases hr
    rw [constant_eq]
    exact h.aside trivial (fun _ => rfl) (fun _ => rfl) (fun _ => rfl) rfl rfl rfl
      (h.handlers_snoc rfl rfl)
  | registers | params | strict | child =>
    cases hr
    exact h.aside trivial (fun _ => rfl) (fun _ => rfl) (fun _ => rfl) rfl rfl rfl
      (h.handlers_snoc rfl rfl)
  | catching | finally_ =>
    cases hr
    refine h.aside trivial (fun _ => rfl) (fun _ => rfl) (fun _ => rfl) rfl rfl rfl ?_
    rw [handlersOf_snoc, List.map_append, ← h.handlers]
    exact Array.toList_push

theorem failure_of_perform? {r : Request} (hr : b.perform? r = some b') (h : b'.failure = none) :
    b.failure = none := by
  cases r with
  | bind l =>
    rw [perform?, bind?] at hr
    split at hr
    · cases hr
    · cases hr
      exact absurd h (b.fail_failure _)
    · cases hr
      exact h
  | emit op os =>
    cases hr
    rw [(b.emit_eq op os h).2] at h
    exact h
  | name t =>
    cases hr
    rwa [name_eq] at h
  | constant | number | string =>
    cases hr
    rwa [constant_eq] at h
  | _ =>
    cases hr
    exact h

theorem built_of_performAll? {name : Text} (hrun : (new name).performAll? rs = some b)
    (hfailure : b.failure = none) : Built rs b := by
  induction rs using List.reverseRecOn generalizing b with
  | nil =>
    cases hrun
    exact built_new name
  | append_singleton rs r ih =>
    obtain ⟨b₁, hfirst, hr⟩ := performAll?_snoc.1 hrun
    exact (ih hfirst (failure_of_perform? hr hfailure)).perform hr hfailure

/-! ## Finishing -/

/-- The word for a jump from the instruction at `start` to word `target`. -/
def displacement (start target : Nat) : Word := Word.ofInt32 (Int32.ofInt ((target : Int) - start))

/-- What is filled in for a jump, given the places of labels. -/
def patch (place : Int → Nat) (f : Fixup) : Nat × Word := (f.place, displacement f.start (place f.label))

theorem patchJumps_eq_fill (place : Int → Nat) {fs : List Fixup} {data data' : Array Word}
    (h : b.patchJumps fs data = .ok data')
    (hplace : ∀ f ∈ fs, ∀ n, b.resolve f.label = .ok n → place f.label = n) :
    data' = Listing.fill data (fs.map (patch place)) := by
  induction fs generalizing data with
  | nil =>
    cases h
    rfl
  | cons f fs ih =>
    obtain ⟨hf, hfs⟩ := List.forall_mem_cons.1 hplace
    rw [patchJumps] at h
    cases hresolve : b.resolve f.label with
    | error e => rw [hresolve] at h; cases h
    | ok n =>
      rw [hresolve] at h
      simp only [Bind.bind, Except.bind] at h
      split at h
      · rename_i hlt
        rw [ih h hfs, List.map_cons, patch, displacement, hf n hresolve, Listing.fill, Listing.fill,
          List.foldl_cons]
        simp only [Array.setIfInBounds_def, dif_pos hlt]
      · cases h

theorem operandWord_of_jumpLabel? {kind : OperandKind} {o : BuilderOperand} (jump : Int → Word) :
    operandWord jump kind o = ((jumpLabel? kind o).map jump).getD (operandWord (fun _ => 0) kind o) := by
  cases kind <;> cases o <;> rfl

theorem fill_jumpsIn (place : Int → Nat) (start : Nat) (before after : List Word)
    (kos : List (OperandKind × BuilderOperand)) :
    Listing.fill (before ++ (kos.map (fun p => operandWord (fun _ => 0) p.1 p.2) ++ after)).toArray
        ((jumpsIn start before.length kos).map (patch place)) =
      (before ++ (kos.map (fun p => operandWord (fun l => displacement start (place l)) p.1 p.2) ++
        after)).toArray := by
  induction kos generalizing before with
  | nil => rfl
  | cons p kos ih =>
    obtain ⟨kind, o⟩ := p
    set w := operandWord (fun l => displacement start (place l)) kind o with hw
    have hrest := ih (before ++ [w])
    rw [List.length_append, List.length_singleton] at hrest
    have hone : Listing.fill
        (before ++ (operandWord (fun _ => 0) kind o ::
          (kos.map (fun p => operandWord (fun _ => 0) p.1 p.2) ++ after))).toArray
        (((jumpLabel? kind o).map fun l => ⟨before.length, start, l⟩).toList.map (patch place)) =
        (before ++ [w] ++ (kos.map (fun p => operandWord (fun _ => 0) p.1 p.2) ++ after)).toArray := by
      rw [hw, operandWord_of_jumpLabel? fun l => displacement start (place l)]
      cases jumpLabel? kind o with
      | none => simp [Listing.fill]
      | some l => simp [Listing.fill, patch, List.setIfInBounds_toArray]
    rw [jumpsIn, List.map_append, Listing.fill_append, List.map_cons, List.cons_append, hone, hrest]
    simp [hw]

/-- Filling in the displacements turns the words left open into those of the requests. -/
theorem fill_wordsFrom (place : Int → Nat) (before : List Word) (hfits : ∀ r ∈ rs, r.Fits) :
    Listing.fill (before ++ wordsFrom (fun _ _ => 0) before.length rs).toArray
        ((collectFrom Request.jumpsAt before.length rs).map (patch place)) =
      (before ++ wordsFrom (fun start l => displacement start (place l)) before.length rs).toArray := by
  induction rs generalizing before with
  | nil => rfl
  | cons r rs ih =>
    obtain ⟨hr, hrs⟩ := List.forall_mem_cons.1 hfits
    set w := r.words fun l => displacement before.length (place l) with hw
    have hrest := ih (before ++ w) hrs
    rw [List.length_append, hw, r.length_words _ hr, ← hw] at hrest
    have hone (more : List Word) :
        Listing.fill (before ++ (r.words (fun _ => 0) ++ more)).toArray
          ((r.jumpsAt before.length).map (patch place)) = (before ++ w ++ more).toArray := by
      cases r with
      | emit op os =>
        have := fill_jumpsIn place before.length (before ++ [Word.ofOpcode op]) more (op.format.zip os)
        rw [List.length_append, List.length_singleton] at this
        simpa [Request.words, Request.jumpsAt, hw] using this
      | _ => simp [Request.words, Request.jumpsAt, hw, Listing.fill]
    rw [wordsFrom_cons, wordsFrom_cons, collectFrom, List.map_append, Listing.fill_append, hone, hrest,
      List.append_assoc]

def placeOf (rs : List Request) (l : Int) : Nat := ((bindings rs).lookup l).getD 0

theorem Built.lookup_of_resolve (h : Built rs b) {l : Int} {n : Nat} (hl : b.resolve l = .ok n) :
    (bindings rs).lookup l = some n := by
  rw [resolve] at hl
  split at hl
  · cases hl
  · rename_i hlt
    rw [place?] at hl
    by_cases hnonneg : 0 ≤ l
    · have hget := h.labels l.toNat (by omega)
      rw [Int.toNat_of_nonneg hnonneg] at hget
      rw [if_pos hnonneg, hget] at hl
      cases hlookup : (bindings rs).lookup l with
      | none => rw [hlookup] at hl; cases hl
      | some m =>
        rw [hlookup] at hl
        cases hl
        rfl
    · rw [if_neg hnonneg] at hl
      cases hl

theorem failure_of_build {c : Code} (h : b.build = .ok c) : b.failure = none := by
  rw [build] at h
  cases hfailure : b.failure with
  | some e => rw [hfailure] at h; cases h
  | none => rfl

theorem Built.build_ok (h : Built rs b) {c : Code} (hbuild : b.build = .ok c) :
    (∀ f ∈ jumpsOf rs, ∃ n, (bindings rs).lookup f.label = some n) ∧ c.validateOne = .ok () ∧
      ∃ hs, b.code.handlers.toList.mapM b.placeHandler = .ok hs ∧
        c = { b.code with
          data := (wordsFrom (fun start l => displacement start (placeOf rs l)) 0 rs).toArray
          handlers := hs.toArray } := by
  rw [build, failure_of_build hbuild] at hbuild
  cases hjumps : b.patchJumps b.fixups.toList b.code.data with
  | error e =>
    simp only [Bind.bind, Except.bind, hjumps] at hbuild
    cases hbuild
  | ok data =>
    have hresolve := Listing.resolve_of_patchJumps hjumps
    have hdata := patchJumps_eq_fill (placeOf rs) hjumps fun f _ n hn => by
      rw [placeOf, h.lookup_of_resolve hn, Option.getD_some]
    have hfill := fill_wordsFrom (placeOf rs) [] h.fits
    rw [List.nil_append, List.nil_append, List.length_nil, ← h.data, ← jumpsOf, ← h.fixups] at hfill
    rw [hfill] at hdata
    have hbound : ∀ f ∈ jumpsOf rs, ∃ n, (bindings rs).lookup f.label = some n := by
      intro f hf
      obtain ⟨n, hn⟩ := hresolve f (h.fixups ▸ hf)
      exact ⟨n, h.lookup_of_resolve hn⟩
    cases hhandlers : b.code.handlers.toList.mapM b.placeHandler with
    | error e =>
      simp only [Bind.bind, Except.bind, hjumps, Array.mapM_eq_mapM_toList, hhandlers] at hbuild
      cases hbuild
    | ok hs =>
      simp only [Bind.bind, Except.bind, hjumps, Array.mapM_eq_mapM_toList, hhandlers, Functor.map,
        Except.map] at hbuild
      cases hvalid : Code.validateOne { b.code with data := data, handlers := hs.toArray } with
      | error d => rw [hvalid] at hbuild; cases hbuild
      | ok u =>
        rw [hvalid] at hbuild
        cases hbuild
        exact ⟨hbound, hvalid, hs, rfl, by rw [hdata]⟩

end Builder

end RegisterJit
