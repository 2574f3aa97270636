import Mathlib.Data.List.Perm.Subperm
import RegisterJit.Proofs.Drafts

/-!
# Functions that were read

Once all statements were said, jumps get their displacements and references their indices. Filling
them in turns what reading left into what the statements spell, so the code of a function that was read
is a function of its statements, `codeOf`. Reading succeeds exactly if what the statements refer to is
there and the code is well formed.

`Spelling.jumping` and `Spelling.linked` are what the statements of a function spell with jumps and with
references filled in, as functions of the statements alone. The passes that finish a draft are compared with
them one after the other: `collectFrom_jumpFill` and `patchJumps_eq` for jumps, `linkReferences_eq` for
references, and `placeHandlers_eq` for handlers, each with its converse, that a pass that succeeded had
everything it needed. `Says.finish_eq` and `Says.finish_linkable` put them together. So reading is understood
without the tables of the reader, and `Restating` compares what is read with what was printed by comparing
statements.
-/

namespace RegisterJit

namespace Listing

/-! ## Filling in -/

def fill (data : Array Word) (ws : List (Nat × Word)) : Array Word :=
  ws.foldl (fun data (place, w) => data.setIfInBounds place w) data

theorem fill_append (data : Array Word) (ws ws' : List (Nat × Word)) :
    fill data (ws ++ ws') = fill (fill data ws) ws' := List.foldl_append

/-- The words to fill in for a statement at word `start`. -/
def fillsAt (v : Nat → Argument → Option Word) (start : Nat) : Statement → List (Nat × Word)
  | .instruction _ as => placesFrom (v start) (start + 1) as
  | _ => []

/-- Spelling `w'` is spelling `w` with the words `v` filled in. -/
def Refines (v : Nat → Argument → Option Word) (w w' : Spelling) : Prop :=
  ∀ start T a, Argument.word w' start T a = (v start a).getD (Argument.word w start T a)

variable {v : Nat → Argument → Option Word} {w w' : Spelling}

theorem fill_arguments (h : Refines v w w') (start : Nat) (T : Tables) (before after : List Word)
    (as : List Argument) :
    fill (before ++ (argumentWords w start T as ++ after)).toArray
        (placesFrom (v start) before.length as) =
      (before ++ (argumentWords w' start T as ++ after)).toArray := by
  induction as generalizing before T with
  | nil => rfl
  | cons a as ih =>
    have hrest := ih (a.enter T) (before ++ [a.word w' start T])
    rw [List.length_append, List.length_singleton] at hrest
    have hone : fill (before ++ (argumentWords w start T (a :: as) ++ after)).toArray
        ((v start a).map (before.length, ·)).toList =
          (before ++ [a.word w' start T] ++ (argumentWords w start (a.enter T) as ++ after)).toArray := by
      rw [h start T a]
      cases v start a with
      | none => simp [fill, argumentWords]
      | some x => simp [fill, argumentWords, List.setIfInBounds_toArray]
    rw [placesFrom, fill_append, hone, hrest]
    simp [argumentWords]

/-- Filling in what is left open turns one spelling into the other. -/
theorem fill_words (h : Refines v w w') (T : Tables) (before : List Word) {ss : List Statement}
    (hss : ∀ st ∈ ss, st.Suits) :
    fill (before ++ wordsFrom w before.length T ss).toArray
        (collectFrom (fillsAt v) before.length ss) =
      (before ++ wordsFrom w' before.length T ss).toArray := by
  induction ss generalizing before T with
  | nil => rfl
  | cons st ss ih =>
    obtain ⟨hst, hss⟩ := List.forall_mem_cons.1 hss
    have hrest := ih (st.enter T) (before ++ st.words w' before.length T) hss
    have hone : fill (before ++ wordsFrom w before.length T (st :: ss)).toArray
        (fillsAt v before.length st) =
          (before ++ st.words w' before.length T ++
            wordsFrom w (before.length + st.extent) (st.enter T) ss).toArray := by
      cases st with
      | instruction op as =>
        have := fill_arguments h before.length T (before ++ [Word.ofOpcode op])
          (wordsFrom w (before.length + op.length) (enterArguments T as) ss) as
        rw [List.length_append, List.length_singleton] at this
        simpa [wordsFrom, Statement.words, fillsAt, Statement.extent, Statement.enter] using this
      | _ => simp [wordsFrom, Statement.words, fillsAt, fill, Statement.enter]
    have hlength : (before ++ st.words w' before.length T).length = before.length + st.extent := by
      rw [List.length_append, Statement.length_words w' before.length T hst]
    rw [hlength] at hrest
    rw [collectFrom, fill_append, hone, hrest]
    simp [wordsFrom]

/-! ## Jumps -/

/-- The word for a jump to a label, given the places of labels. -/
def jumpWord (place : Text → Nat) (start : Nat) (t : Text) : Word :=
  Word.ofInt32 (Int32.ofInt ((place t : Int) - start))

def jumpFill (place : Text → Nat) (start : Nat) (a : Argument) : Option Word :=
  a.label?.map (jumpWord place start)

theorem placesFrom_jumpFill (place : Text → Nat) (start p : Nat) (as : List Argument) :
    placesFrom (jumpFill place start) p as =
      (placesFrom (fun a => a.label?.map (start, ·)) p as).map
        fun j => (j.1, jumpWord place j.2.1 j.2.2) := by
  induction as generalizing p with
  | nil => rfl
  | cons a as ih =>
    rw [placesFrom, placesFrom, List.map_append, ih]
    cases a <;> rfl

theorem collectFrom_map {α β : Type} {f : Nat → Statement → List α} {g : Nat → Statement → List β}
    {φ : α → β} (h : ∀ start st, g start st = (f start st).map φ) (start : Nat)
    (ss : List Statement) : collectFrom g start ss = (collectFrom f start ss).map φ := by
  induction ss generalizing start with
  | nil => rfl
  | cons st ss ih => rw [collectFrom, collectFrom, List.map_append, h, ih]

theorem collectFrom_jumpFill (place : Text → Nat) (ss : List Statement) :
    collectFrom (fillsAt (jumpFill place)) 0 ss =
      (jumpsOf ss).map fun j => (j.1, jumpWord place j.2.1 j.2.2) := by
  refine collectFrom_map (fun start st => ?_) 0 ss
  cases st with
  | instruction op as => exact placesFrom_jumpFill place start (start + 1) as
  | _ => rfl

theorem placesFrom_lt {α : Type} {f : Argument → Option α} {place : Nat} {as : List Argument}
    {p : Nat × α} (h : p ∈ placesFrom f place as) : p.1 < place + as.length := by
  induction as generalizing place with
  | nil => cases h
  | cons a as ih =>
    rw [placesFrom, List.mem_append] at h
    rw [List.length_cons]
    rcases h with h | h
    · obtain ⟨x, -, rfl⟩ := Option.map_eq_some_iff.1 (Option.mem_toList.1 h)
      dsimp only
      omega
    · have := ih h
      omega

theorem collectFrom_lt {α : Type} {f : Nat → Statement → List (Nat × α)} {ss : List Statement}
    (hss : ∀ st ∈ ss, st.Suits)
    (hf : ∀ start (st : Statement), st.Suits → ∀ p ∈ f start st, p.1 < start + st.extent)
    {start : Nat} {p : Nat × α} (h : p ∈ collectFrom f start ss) : p.1 < start + extentOf ss := by
  induction ss generalizing start with
  | nil => cases h
  | cons st ss ih =>
    obtain ⟨hst, hss⟩ := List.forall_mem_cons.1 hss
    rw [extentOf, List.map_cons, List.sum_cons, ← extentOf]
    rw [collectFrom, List.mem_append] at h
    rcases h with h | h
    · have := hf start st hst p h
      omega
    · have := ih hss h
      omega

theorem jumpsAt_lt {start : Nat} {st : Statement} (hst : st.Suits) :
    ∀ p ∈ st.jumpsAt start, p.1 < start + st.extent := by
  intro p hp
  cases st with
  | instruction op as =>
    have := placesFrom_lt hp
    have hlen : op.format.length = as.length := List.Forall₂.length_eq hst
    rw [Statement.extent, Opcode.length]
    omega
  | _ => cases hp

theorem referencesAt_lt {start : Nat} {st : Statement} (hst : st.Suits) :
    ∀ p ∈ st.referencesAt start, p.1 < start + st.extent := by
  intro p hp
  cases st with
  | instruction op as =>
    have := placesFrom_lt hp
    have hlen : op.format.length = as.length := List.Forall₂.length_eq hst
    rw [Statement.extent, Opcode.length]
    omega
  | _ => cases hp

theorem patchJumps_eq (b : Builder) (L : Text → Int) (place : Text → Nat)
    {jumps : List (Nat × Nat × Text)} (hplaces : ∀ j ∈ jumps, b.resolve (L j.2.2) = .ok (place j.2.2))
    {data : Array Word} (hdata : ∀ j ∈ jumps, j.1 < data.size) :
    b.patchJumps (fixupsOf L jumps) data =
      .ok (fill data (jumps.map fun j => (j.1, jumpWord place j.2.1 j.2.2))) := by
  induction jumps generalizing data with
  | nil => rfl
  | cons j jumps ih =>
    obtain ⟨p, start, t⟩ := j
    obtain ⟨hplace, hplaces⟩ := List.forall_mem_cons.1 hplaces
    obtain ⟨hlt, hdata⟩ := List.forall_mem_cons.1 hdata
    dsimp only at hplace hlt
    rw [fixupsOf, List.map_cons, ← fixupsOf, Builder.patchJumps]
    simp only [hplace, bind, Except.bind, dif_pos hlt]
    rw [ih hplaces (by simpa using hdata), List.map_cons, fill, fill, List.foldl_cons]
    simp only [jumpWord, Array.setIfInBounds_def, dif_pos hlt]

theorem resolve_of_patchJumps {b : Builder} {fs : List Fixup} {data data' : Array Word}
    (h : b.patchJumps fs data = .ok data') : ∀ f ∈ fs, ∃ n, b.resolve f.label = .ok n := by
  induction fs generalizing data with
  | nil => simp
  | cons f fs ih =>
    rw [Builder.patchJumps] at h
    cases hresolve : b.resolve f.label with
    | error e => rw [hresolve] at h; cases h
    | ok n =>
      rw [hresolve] at h
      simp only [bind, Except.bind] at h
      split at h
      · exact List.forall_mem_cons.2 ⟨⟨n, hresolve⟩, ih h⟩
      · cases h

/-! ## References -/

def codeWord (cs : List Code) (t : Text) : Word :=
  Word.ofUInt32 (((childrenOf cs).lookup t).getD 0).toUInt32

def codeFill (cs : List Code) (_start : Nat) (a : Argument) : Option Word :=
  a.code?.map (codeWord cs)

theorem placesFrom_codeFill (cs : List Code) (start p : Nat) (as : List Argument) :
    placesFrom (codeFill cs start) p as =
      (placesFrom Argument.code? p as).map fun r => (r.1, codeWord cs r.2) := by
  induction as generalizing p with
  | nil => rfl
  | cons a as ih =>
    rw [placesFrom, placesFrom, List.map_append, ih]
    cases a <;> rfl

theorem collectFrom_codeFill (cs : List Code) (ss : List Statement) :
    collectFrom (fillsAt (codeFill cs)) 0 ss =
      (referencesOf ss).map fun r => (r.1, codeWord cs r.2) := by
  refine collectFrom_map (fun start st => ?_) 0 ss
  cases st with
  | instruction op as => exact placesFrom_codeFill cs start (start + 1) as
  | _ => rfl

theorem linkReferences_eq {d : Draft} {cs : List Code} (hchildren : d.children = childrenOf cs)
    (name : Text) {refs : List (Nat × Text)} (hrefs : ∀ r ∈ refs, (d.children.lookup r.2).isSome)
    {data : Array Word} (hdata : ∀ r ∈ refs, r.1 < data.size) :
    d.linkReferences name refs data =
      .ok (fill data (refs.map fun r => (r.1, codeWord cs r.2))) := by
  induction refs generalizing data with
  | nil => rfl
  | cons r refs ih =>
    obtain ⟨p, t⟩ := r
    obtain ⟨hsome, hrefs⟩ := List.forall_mem_cons.1 hrefs
    obtain ⟨hlt, hdata⟩ := List.forall_mem_cons.1 hdata
    obtain ⟨i, hi⟩ := Option.isSome_iff_exists.1 hsome
    dsimp only at hi hlt
    rw [Draft.linkReferences, hi]
    simp only [dif_pos hlt]
    rw [ih hrefs (by simpa using hdata), List.map_cons, fill, fill, List.foldl_cons]
    simp only [codeWord, ← hchildren, hi, Option.getD_some, Array.setIfInBounds_def, dif_pos hlt]

theorem isSome_of_linkReferences {d : Draft} {name : Text} {refs : List (Nat × Text)}
    {data data' : Array Word} (h : d.linkReferences name refs data = .ok data') :
    ∀ r ∈ refs, (d.children.lookup r.2).isSome := by
  induction refs generalizing data with
  | nil => simp
  | cons r refs ih =>
    obtain ⟨p, t⟩ := r
    rw [Draft.linkReferences] at h
    split at h
    · cases h
    · rename_i i hi
      split at h
      · exact List.forall_mem_cons.2 ⟨by rw [hi, Option.isSome_some], ih h⟩
      · cases h

/-! ## Handlers -/

/-- The handler of a line, given what stands for its labels. -/
def HandlerLine.handler (f : Text → UInt32) (h : HandlerLine) : Handler :=
  if h.isFinally then ⟨Handler.kindFinally, f h.start, f h.stop, h.level, h.jump, h.flag⟩
  else ⟨Handler.kindCatch, f h.start, f h.stop, h.level, Register.invalid, Register.invalid⟩

namespace Draft

/-- What entering handlers does. -/
structure Enters (d d' : Draft) (hs : List HandlerLine) : Prop where
  handlers : d'.builder.code.handlers.toList =
    d.builder.code.handlers.toList ++ hs.map (HandlerLine.handler fun t => UInt32.ofInt (d'.labelOf t))
  code : d'.builder.code = { d.builder.code with handlers := d'.builder.code.handlers }
  fixups : d'.builder.fixups = d.builder.fixups
  failure : d'.builder.failure = d.builder.failure
  references : d'.references = d.references
  children : d'.children = d.children
  registers : d'.registers = d.registers
  keeps : d.Keeps d'
  known : ∀ h ∈ hs, (d'.labels.lookup h.start).isSome ∧ (d'.labels.lookup h.stop).isSome
  mentioned : ∀ t ∈ d'.labels.map Prod.fst,
    (∃ h ∈ hs, t = h.start ∨ t = h.stop) ∨ t ∈ d.labels.map Prod.fst
  binds : ∀ bound, d.Binds bound → d'.Binds bound

theorem enters_nil (d : Draft) : d.Enters d [] where
  handlers := (List.append_nil _).symm
  code := by cases d.builder.code; rfl
  fixups := rfl
  failure := rfl
  references := rfl
  children := rfl
  registers := rfl
  keeps := .refl d
  known := by simp
  mentioned _ := .inr
  binds _ h := h

theorem enterHandler_enters (d : Draft) (h : HandlerLine) : d.Enters (d.enterHandler h) [h] := by
  have hstart := d.label_mentions h.start
  have hstop := (d.label h.start).2.label_mentions h.stop
  set d₁ := (d.label h.start).2
  set d₂ := (d₁.label h.stop).2
  have hkeep : d.Keeps d₂ := hstart.keeps.trans hstop.keeps
  have hid : (d.label h.start).1 = d₂.labelOf h.start := by
    rw [label_fst, hstop.keeps.labelOf_eq hstart.known]
  have hid' : (d₁.label h.stop).1 = d₂.labelOf h.stop := label_fst d₁ h.stop
  have hbuilder : d₂.builder = { d.builder with labels := d₂.builder.labels } := by
    conv_lhs => rw [hstop.eq, hstart.eq]
  have hcode : d₂.builder.code = d.builder.code := by rw [hbuilder]
  have heq : d.enterHandler h = { d₂ with
      builder := { d₂.builder with code := { d.builder.code with
        handlers := d.builder.code.handlers.push
          (h.handler fun t => UInt32.ofInt (d₂.labelOf t)) } }
      highest := (d.enterHandler h).highest } := by
    rw [HandlerLine.handler, ← hid, ← hid', ← hcode]
    unfold enterHandler
    cases h.isFinally <;> rfl
  have hrest : d₂.references = d.references ∧ d₂.children = d.children ∧
      d₂.registers = d.registers ∧ d₂.builder.fixups = d.builder.fixups ∧
      d₂.builder.failure = d.builder.failure := by
    rw [hstop.eq, hstart.eq]
    exact ⟨rfl, rfl, rfl, rfl, rfl⟩
  obtain ⟨hreferences, hchildren, hregisters, hfixups, hfailure⟩ := hrest
  have hlabelOf : (d.enterHandler h).labelOf = d₂.labelOf := by
    rw [heq]
    rfl
  refine ⟨?_, ?_, ?_, ?_, ?_, ?_, ?_, ?_, ?_, ?_, ?_⟩
  · rw [hlabelOf, heq]
    simp
  · rw [heq]
  · rw [heq]; exact hfixups
  · rw [heq]; exact hfailure
  · rw [heq]; exact hreferences
  · rw [heq]; exact hchildren
  · rw [heq]; exact hregisters
  · rw [heq]; exact hkeep
  · rw [heq]
    intro h' hh'
    rw [List.mem_singleton.1 hh']
    exact ⟨hstop.keeps.isSome hstart.known, hstop.known⟩
  · rw [heq]
    intro t ht
    rcases hstop.mentioned t ht with rfl | ht
    · exact .inl ⟨h, List.mem_singleton_self h, .inr rfl⟩
    · rcases hstart.mentioned t ht with rfl | ht
      · exact .inl ⟨h, List.mem_singleton_self h, .inl rfl⟩
      · exact .inr ht
  · intro bound hb
    have := hstop.binds bound (hstart.binds bound hb)
    rw [heq]
    exact ⟨this.given, this.distinct, this.known, this.count, this.once⟩

theorem enterHandlers (d : Draft) (hs : List HandlerLine) :
    d.Enters (hs.foldl enterHandler d) hs := by
  induction hs generalizing d with
  | nil => exact d.enters_nil
  | cons h hs ih =>
    have hone := d.enterHandler_enters h
    have hrest := ih (d.enterHandler h)
    obtain ⟨hstart, hstop⟩ := hone.known h (List.mem_singleton_self h)
    rw [List.foldl_cons]
    refine ⟨?_, ?_, ?_, ?_, ?_, ?_, ?_, ?_, ?_, ?_, ?_⟩
    · have hlabels : HandlerLine.handler (fun t => UInt32.ofInt ((d.enterHandler h).labelOf t)) h =
          HandlerLine.handler
            (fun t => UInt32.ofInt ((hs.foldl enterHandler (d.enterHandler h)).labelOf t)) h := by
        rw [HandlerLine.handler, HandlerLine.handler, hrest.keeps.labelOf_eq hstart,
          hrest.keeps.labelOf_eq hstop]
      rw [hrest.handlers, hone.handlers, List.map_singleton, hlabels, List.append_assoc]
      rfl
    · rw [hrest.code, hone.code]
    · exact hrest.fixups.trans hone.fixups
    · exact hrest.failure.trans hone.failure
    · exact hrest.references.trans hone.references
    · exact hrest.children.trans hone.children
    · exact hrest.registers.trans hone.registers
    · exact hone.keeps.trans hrest.keeps
    · exact List.forall_mem_cons.2
        ⟨⟨hrest.keeps.isSome hstart, hrest.keeps.isSome hstop⟩, hrest.known⟩
    · intro t ht
      rcases hrest.mentioned t ht with ⟨h', hh', heq⟩ | ht
      · exact .inl ⟨h', List.mem_cons_of_mem _ hh', heq⟩
      · rcases hone.mentioned t ht with ⟨h', hh', heq⟩ | ht
        · rw [List.mem_singleton.1 hh'] at heq
          exact .inl ⟨h, List.mem_cons_self .., heq⟩
        · exact .inr ht
    · exact fun bound hb => hrest.binds bound (hone.binds bound hb)

end Draft

/-- Handlers whose labels have places are placed. -/
theorem placeHandlers_eq {b : Builder} {L : Text → Int} {p : Text → Nat}
    (hsmall : b.labels.size ≤ 2 ^ 32) {hs : List HandlerLine}
    (hlabels : ∀ h ∈ hs, (0 ≤ L h.start ∧ L h.start < b.labels.size) ∧
      (0 ≤ L h.stop ∧ L h.stop < b.labels.size))
    (hplaces : ∀ h ∈ hs, b.resolve (L h.start) = .ok (p h.start) ∧
      b.resolve (L h.stop) = .ok (p h.stop)) :
    (hs.map (HandlerLine.handler fun t => UInt32.ofInt (L t))).mapM b.placeHandler =
      .ok (hs.map (HandlerLine.handler fun t => (p t).toUInt32)) := by
  have hback {i : Int} (h : 0 ≤ i ∧ i < b.labels.size) : ((UInt32.ofInt i).toNat : Int) = i := by
    obtain ⟨n, rfl⟩ := Int.eq_ofNat_of_zero_le h.1
    rw [UInt32.ofInt, UInt32.toNat_ofNat']
    omega
  induction hs with
  | nil => rfl
  | cons h hs ih =>
    obtain ⟨⟨hs₁, hs₂⟩, hlabels⟩ := List.forall_mem_cons.1 hlabels
    obtain ⟨⟨hp₁, hp₂⟩, hplaces⟩ := List.forall_mem_cons.1 hplaces
    have hone : b.placeHandler (h.handler fun t => UInt32.ofInt (L t)) =
        .ok (h.handler fun t => (p t).toUInt32) := by
      rw [HandlerLine.handler, HandlerLine.handler]
      split <;> simp only [Builder.placeHandler, hback hs₁, hback hs₂, hp₁, hp₂, bind, Except.bind] <;>
        rfl
    rw [List.map_cons, List.mapM_cons, hone, ih hlabels hplaces]
    rfl

def unplaced (h : Handler) : Handler := { h with start := 0, stop := 0 }

/-- Each handler that is placed is one that was entered, with places for its labels. -/
theorem placed_of_placeHandlers {b : Builder} {hs hs' : List Handler}
    (h : hs.mapM b.placeHandler = .ok hs') :
    List.Forall₂ (fun hd hd' => ∃ n m, b.resolve hd.start.toNat = .ok n ∧
      b.resolve hd.stop.toNat = .ok m ∧ hd' = { hd with start := n.toUInt32, stop := m.toUInt32 })
      hs hs' := by
  induction hs generalizing hs' with
  | nil =>
    cases h
    exact .nil
  | cons hd hs ih =>
    rw [List.mapM_cons] at h
    cases hone : b.placeHandler hd with
    | error e => rw [hone] at h; cases h
    | ok hd' =>
      rw [hone] at h
      cases hrest : hs.mapM b.placeHandler with
      | error e => rw [hrest] at h; cases h
      | ok hs'' =>
        rw [hrest] at h
        cases h
        refine .cons ?_ (ih hrest)
        rw [Builder.placeHandler] at hone
        cases hstart : b.resolve hd.start.toNat with
        | error e => rw [hstart] at hone; cases hone
        | ok n =>
          rw [hstart] at hone
          cases hstop : b.resolve hd.stop.toNat with
          | error e =>
            simp only [Bind.bind, Except.bind, hstop] at hone
            cases hone
          | ok m =>
            simp only [Bind.bind, Except.bind, hstop] at hone
            cases hone
            exact ⟨n, m, rfl, rfl, rfl⟩

theorem unplaced_of_placeHandlers {b : Builder} {hs hs' : List Handler}
    (h : hs.mapM b.placeHandler = .ok hs') : hs'.map unplaced = hs.map unplaced := by
  have hall := placed_of_placeHandlers h
  clear h
  induction hall with
  | nil => rfl
  | cons hplaced hrest ih =>
    obtain ⟨n, m, -, -, rfl⟩ := hplaced
    exact congrArg₂ List.cons rfl ih

/-! ## Codes -/

def placeIn (ss : List Statement) (t : Text) : Nat := ((labelsOf ss).lookup t).getD 0

def Spelling.jumping (ss : List Statement) : Spelling := ⟨jumpWord (placeIn ss), fun _ => 0⟩

def Spelling.linked (ss : List Statement) : Spelling :=
  ⟨jumpWord (placeIn ss), codeWord (nestedOf ss)⟩

theorem refines_jumping (ss : List Statement) :
    Refines (jumpFill (placeIn ss)) .blank (.jumping ss) := by
  intro start T a
  cases a <;> rfl

theorem refines_linked (ss : List Statement) :
    Refines (codeFill (nestedOf ss)) (.jumping ss) (.linked ss) := by
  intro start T a
  cases a <;> rfl

/-- The code that statements give under a header. -/
def codeOf (head : Code) (w : Spelling) (ss : List Statement) : Code :=
  { head with
    data := (wordsFrom w 0 .empty ss).toArray
    constants := (enterAll .empty ss).constants
    names := (enterAll .empty ss).names
    codes := (nestedOf ss).map some
    handlers := ((handlersOf ss).map
      (HandlerLine.handler fun t => (placeIn ss t).toUInt32)).toArray }

/-- What instructions refer to is there, and no label is bound twice. -/
structure Linkable (ss : List Statement) : Prop where
  distinct : ((labelsOf ss).map Prod.fst).Nodup
  jumps : ∀ j ∈ jumpsOf ss, j.2.2 ∈ (labelsOf ss).map Prod.fst
  references : ∀ r ∈ referencesOf ss, r.2 ∈ (nestedOf ss).map Code.name

/-- What statements refer to is there, and no label is bound twice. -/
structure Closed (ss : List Statement) : Prop extends Linkable ss where
  handlers : ∀ h ∈ handlersOf ss,
    h.start ∈ (labelsOf ss).map Prod.fst ∧ h.stop ∈ (labelsOf ss).map Prod.fst

theorem map_fst_childrenOf (cs : List Code) :
    (childrenOf cs).map Prod.fst = (cs.map Code.name).reverse := by
  rw [childrenOf, List.map_reverse, List.map_map]
  congr 1
  refine List.ext_getElem (by simp) fun i h h' => ?_
  simp

theorem isSome_lookup_childrenOf {cs : List Code} {t : Text} :
    ((childrenOf cs).lookup t).isSome ↔ t ∈ cs.map Code.name := by
  rw [isSome_lookup_iff, map_fst_childrenOf, List.mem_reverse]

namespace Draft

variable {d₀ d : Draft} {ss : List Statement}

/-- The header of a code that is finished with `r` registers. -/
def head (d : Draft) (r : UInt32) : Code := { d.builder.code with registerCount := r }

/-- The number of registers that a code is finished with. -/
def registerCount (d : Draft) : UInt32 :=
  UInt32.ofInt (match d.registers with
    | some n => n
    | none => d.highest + 1)

theorem resolve_known {d : Draft} {bound : List (Text × Nat)} (h : d.Binds bound) {t : Text}
    (ht : (d.labels.lookup t).isSome) (hbound : t ∈ bound.map Prod.fst) :
    d.builder.resolve (d.labelOf t) = .ok ((bound.lookup t).getD 0) := by
  obtain ⟨n, hn⟩ := Option.isSome_iff_exists.1 (isSome_lookup_iff.2 hbound)
  rw [h.resolve_eq ht, hn]
  rfl

theorem known_of_resolve {d : Draft} {bound : List (Text × Nat)} (h : d.Binds bound) {t : Text}
    (ht : (d.labels.lookup t).isSome) {n : Nat} (hn : d.builder.resolve (d.labelOf t) = .ok n) :
    t ∈ bound.map Prod.fst := by
  rw [h.resolve_eq ht] at hn
  cases hb : bound.lookup t with
  | none => rw [hb] at hn; cases hn
  | some m => exact isSome_lookup_iff.1 (by rw [hb, Option.isSome_some])

theorem labelOf_lt {d : Draft} {bound : List (Text × Nat)} (h : d.Binds bound) {t : Text}
    (ht : (d.labels.lookup t).isSome) : 0 ≤ d.labelOf t ∧ d.labelOf t < d.builder.labels.size := by
  obtain ⟨l, hl⟩ := Option.isSome_iff_exists.1 ht
  obtain ⟨hnonneg, hget⟩ := h.given t l hl
  have hlt := (Array.getElem?_eq_some_iff.1 hget).1
  rw [labelOf, hl, Option.getD_some]
  omega

/-- Reading is finished by filling in jumps, placing handlers, checking the code and filling in
references. -/
theorem finish_eq (d : Draft) {d' : Draft} (hd' : d.handlers.foldl enterHandler d = d') :
    d.finish = do
      let code ← (d'.builder.setRegisters d'.registerCount).build.mapError
        (.build d'.builder.code.name)
      let data ← d'.linkReferences code.name d'.references code.data
      return { code with data := data } := by
  rw [finish, hd']
  rfl

theorem Says.size_labels_le (h : d₀.Says ss d) (hc : Closed ss) {d' : Draft}
    (henters : d.Enters d' d.handlers) : d'.builder.labels.size ≤ (labelsOf ss).length := by
  have hbinds := henters.binds _ h.binds
  have hsub : d'.labels.map Prod.fst ⊆ (labelsOf ss).map Prod.fst := by
    intro t ht
    rcases henters.mentioned t ht with ⟨hd, hhd, heq⟩ | ht
    · rw [h.handlers] at hhd
      rcases heq with rfl | rfl
      · exact (hc.handlers hd hhd).1
      · exact (hc.handlers hd hhd).2
    · rcases h.mentioned t ht with ht | ⟨j, hj, rfl⟩
      · exact ht
      · exact hc.jumps j hj
  have hlength := (List.subperm_of_subset hbinds.once hsub).length_le
  rw [List.length_map, List.length_map] at hlength
  rw [hbinds.count]
  exact hlength

/-- What the handlers of a function come to, its instructions being linkable. -/
theorem Says.finish_linkable (h : d₀.Says ss d) (hss : ∀ st ∈ ss, st.Suits) (hl : Linkable ss)
    {d' : Draft} (hd' : d.handlers.foldl enterHandler d = d') :
    d.finish =
      (d'.builder.code.handlers.mapM
        (d'.builder.setRegisters d'.registerCount).placeHandler).mapError
          (.build d₀.builder.code.name) >>= fun hs =>
      (({ codeOf (d₀.head d'.registerCount) (.jumping ss) ss with
          handlers := hs } : Code).validateOne.mapError fun e =>
            .build d₀.builder.code.name (.defective e)).map fun _ =>
        { codeOf (d₀.head d'.registerCount) (.linked ss) ss with handlers := hs } := by
  have henters := d.enterHandlers d.handlers
  rw [hd'] at henters
  have hbinds := henters.binds _ h.binds
  set b := d'.builder.setRegisters d'.registerCount
  -- What the builder holds.
  have hfailure : b.failure = none := henters.failure.trans (h.failure.2 hl.distinct)
  have hfixups : b.fixups.toList = fixupsOf d'.labelOf (jumpsOf ss) := by
    change d'.builder.fixups.toList = _
    rw [henters.fixups, h.fixups]
    exact fixupsOf_congr fun j hj => (henters.keeps.labelOf_eq (h.known j hj)).symm
  have hdata : b.code.data = (wordsFrom .blank 0 .empty ss).toArray := by
    rw [← h.words]
    change d'.builder.code.data = _
    rw [henters.code]
  have hlength : (wordsFrom .blank 0 .empty ss).length = extentOf ss := length_wordsFrom _ _ _ hss
  -- Jumps.
  have hjumps : b.patchJumps b.fixups.toList b.code.data =
      .ok (wordsFrom (.jumping ss) 0 .empty ss).toArray := by
    have hfill := fill_words (refines_jumping ss) .empty [] hss
    rw [List.nil_append, List.nil_append, List.length_nil, collectFrom_jumpFill] at hfill
    rw [hfixups, hdata, ← hfill]
    refine patchJumps_eq b _ _ (fun j hj => ?_) fun j hj => ?_
    · exact resolve_known hbinds (henters.keeps.isSome (h.known j hj)) (hl.jumps j hj)
    · have := collectFrom_lt hss (fun _ _ => jumpsAt_lt) hj
      rw [List.size_toArray, hlength]
      omega
  -- References.
  have hlinked : d'.linkReferences d₀.builder.code.name d'.references
      (wordsFrom (.jumping ss) 0 .empty ss).toArray =
        .ok (wordsFrom (.linked ss) 0 .empty ss).toArray := by
    have hfill := fill_words (refines_linked ss) .empty [] hss
    rw [List.nil_append, List.nil_append, List.length_nil, collectFrom_codeFill] at hfill
    have hchildren : d'.children = childrenOf (nestedOf ss) := henters.children.trans h.children
    rw [henters.references, h.references, ← hfill]
    refine linkReferences_eq hchildren _ (fun r hr => ?_) fun r hr => ?_
    · rw [hchildren]
      exact isSome_lookup_childrenOf.2 (hl.references r hr)
    · have := collectFrom_lt hss (fun _ _ => referencesAt_lt) hr
      rw [List.size_toArray, length_wordsFrom _ _ _ hss]
      omega
  have hcode (hs : Array Handler) : ({ b.code with
      data := (wordsFrom (.jumping ss) 0 .empty ss).toArray, handlers := hs } : Code) =
      { codeOf (d₀.head d'.registerCount) (.jumping ss) ss with handlers := hs } := by
    have htables : b.code.constants = (enterAll .empty ss).constants ∧
        b.code.names = (enterAll .empty ss).names := by
      rw [← h.tables]
      change d'.builder.code.constants = _ ∧ d'.builder.code.names = _
      rw [henters.code]
      exact ⟨rfl, rfl⟩
    have hrest : b.code.name = d₀.builder.code.name ∧ b.code.codes = (nestedOf ss).map some ∧
        b.code.params = d₀.builder.code.params ∧ b.code.strict = d₀.builder.code.strict := by
      rw [← h.name, ← h.codes, ← h.params, ← h.strict]
      change d'.builder.code.name = _ ∧ d'.builder.code.codes = _ ∧ d'.builder.code.params = _ ∧
        d'.builder.code.strict = _
      rw [henters.code]
      exact ⟨rfl, rfl, rfl, rfl⟩
    rw [codeOf, head, ← htables.1, ← htables.2, ← hrest.1, ← hrest.2.1, ← hrest.2.2.1,
      ← hrest.2.2.2]
    rfl
  have hname : d'.builder.code.name = d₀.builder.code.name := by
    rw [henters.code]
    exact h.name
  have hbuild : b.build = (d'.builder.code.handlers.mapM b.placeHandler) >>= fun hs =>
      (({ codeOf (d₀.head d'.registerCount) (.jumping ss) ss with
          handlers := hs } : Code).validateOne.mapError BuildError.defective).map fun _ =>
        { codeOf (d₀.head d'.registerCount) (.jumping ss) ss with handlers := hs } := by
    have hhandlers : b.code.handlers = d'.builder.code.handlers := rfl
    simp only [Builder.build, hfailure, hjumps, hhandlers, Bind.bind, Except.bind]
    cases d'.builder.code.handlers.mapM b.placeHandler with
    | error e => rfl
    | ok hs =>
      dsimp only
      rw [hcode hs]
      cases Code.validateOne { codeOf (d₀.head d'.registerCount) (.jumping ss) ss with
        handlers := hs } <;> rfl
  rw [d.finish_eq hd', hbuild, hname]
  cases d'.builder.code.handlers.mapM b.placeHandler with
  | error e => rfl
  | ok hs =>
    change (((Except.mapError BuildError.defective (Code.validateOne _)).map _).mapError _ >>= _) =
      (Except.mapError _ (Code.validateOne _)).map _
    cases Code.validateOne { codeOf (d₀.head d'.registerCount) (.jumping ss) ss with
      handlers := hs } with
    | error e => rfl
    | ok _ =>
      change (d'.linkReferences d₀.builder.code.name d'.references
        (wordsFrom (.jumping ss) 0 .empty ss).toArray >>= _) = _
      rw [hlinked]
      rfl

/-- A function is read if what its statements refer to is there and its code is well formed. -/
theorem Says.finish_eq (h : d₀.Says ss d) (hss : ∀ st ∈ ss, st.Suits) (hc : Closed ss)
    (hsmall : (labelsOf ss).length ≤ 2 ^ 32) :
    ∃ r, (∀ n, d₀.registers = some n → r = UInt32.ofInt n) ∧
      d.finish =
        ((codeOf (d₀.head r) (.jumping ss) ss).validateOne.mapError fun e =>
          .build d₀.builder.code.name (.defective e)).map fun _ =>
            codeOf (d₀.head r) (.linked ss) ss := by
  have henters := d.enterHandlers d.handlers
  generalize hd' : d.handlers.foldl enterHandler d = d' at henters
  have hbinds := henters.binds _ h.binds
  have hknown : ∀ hd ∈ handlersOf ss,
      (d'.labels.lookup hd.start).isSome ∧ (d'.labels.lookup hd.stop).isSome := by
    rw [← h.handlers]
    exact henters.known
  refine ⟨d'.registerCount, fun n hn => ?_, ?_⟩
  · rw [registerCount, henters.registers, h.registers, hn]
  have hhandlers : d'.builder.code.handlers.toList =
      (handlersOf ss).map (HandlerLine.handler fun t => UInt32.ofInt (d'.labelOf t)) := by
    rw [henters.handlers, h.entered, h.handlers]
    rfl
  have hplaced : d'.builder.code.handlers.mapM
      (d'.builder.setRegisters d'.registerCount).placeHandler = .ok (((handlersOf ss).map
        (HandlerLine.handler fun t => (placeIn ss t).toUInt32)).toArray) := by
    have hsize : (d'.builder.setRegisters d'.registerCount).labels.size ≤ 2 ^ 32 :=
      Nat.le_trans (h.size_labels_le hc henters) hsmall
    rw [Array.mapM_eq_mapM_toList, hhandlers, placeHandlers_eq hsize (p := placeIn ss)]
    · rfl
    · exact fun hd hhd => ⟨labelOf_lt hbinds (hknown hd hhd).1, labelOf_lt hbinds (hknown hd hhd).2⟩
    · exact fun hd hhd => ⟨resolve_known hbinds (hknown hd hhd).1 (hc.handlers hd hhd).1,
        resolve_known hbinds (hknown hd hhd).2 (hc.handlers hd hhd).2⟩
  rw [h.finish_linkable hss hc.toLinkable hd', hplaced]
  rfl

theorem Says.linkable_of_finish (h : d₀.Says ss d) {c : Code} (hfinish : d.finish = .ok c) :
    Linkable ss := by
  have henters := d.enterHandlers d.handlers
  generalize hd' : d.handlers.foldl enterHandler d = d' at henters
  have hbinds := henters.binds _ h.binds
  rw [d.finish_eq hd'] at hfinish
  set b := d'.builder.setRegisters d'.registerCount
  cases hbuild : b.build with
  | error e => rw [hbuild] at hfinish; cases hfinish
  | ok code =>
    rw [hbuild] at hfinish
    cases hlink : d'.linkReferences code.name d'.references code.data with
    | error e =>
      change (d'.linkReferences code.name d'.references code.data >>= _) = _ at hfinish
      rw [hlink] at hfinish
      cases hfinish
    | ok data =>
      clear hfinish
      rw [Builder.build] at hbuild
      cases hfailure : b.failure with
      | some e => rw [hfailure] at hbuild; cases hbuild
      | none =>
        rw [hfailure] at hbuild
        cases hjumps : b.patchJumps b.fixups.toList b.code.data with
        | error e =>
          simp only [Bind.bind, Except.bind, hjumps] at hbuild
          cases hbuild
        | ok data' =>
          refine ⟨h.failure.1 (henters.failure.symm.trans hfailure), fun j hj => ?_, fun r hr => ?_⟩
          · have hfixup : Fixup.mk j.1 j.2.1 (d'.labelOf j.2.2) ∈ b.fixups.toList := by
              change _ ∈ d'.builder.fixups.toList
              rw [henters.fixups, h.fixups,
                ← fixupsOf_congr fun j hj => henters.keeps.labelOf_eq (h.known j hj)]
              exact List.mem_map.2 ⟨j, hj, rfl⟩
            obtain ⟨n, hn⟩ := resolve_of_patchJumps hjumps _ hfixup
            exact known_of_resolve hbinds (henters.keeps.isSome (h.known j hj)) hn
          · rw [henters.references, h.references] at hlink
            have hsome := isSome_of_linkReferences hlink r hr
            rw [henters.children, h.children] at hsome
            exact isSome_lookup_childrenOf.1 hsome

theorem Says.eq_of_finish (h : d₀.Says ss d) (hss : ∀ st ∈ ss, st.Suits) {c : Code}
    (hfinish : d.finish = .ok c) :
    ∃ r hs, c = { codeOf (d₀.head r) (.linked ss) ss with handlers := hs } ∧
      ({ codeOf (d₀.head r) (.jumping ss) ss with handlers := hs } : Code).validateOne = .ok () ∧
      ∀ hd ∈ hs, ∃ line ∈ handlersOf ss, unplaced hd = line.handler fun _ => 0 := by
  have henters := d.enterHandlers d.handlers
  generalize hd' : d.handlers.foldl enterHandler d = d' at henters
  rw [h.finish_linkable hss (h.linkable_of_finish hfinish) hd'] at hfinish
  set b := d'.builder.setRegisters d'.registerCount
  cases hplaced : d'.builder.code.handlers.mapM b.placeHandler with
  | error e => rw [hplaced] at hfinish; cases hfinish
  | ok hs =>
    rw [hplaced] at hfinish
    change (Except.mapError _ (Code.validateOne _)).map _ = _ at hfinish
    cases hvalid : Code.validateOne { codeOf (d₀.head d'.registerCount) (.jumping ss) ss with
        handlers := hs } with
    | error e => rw [hvalid] at hfinish; cases hfinish
    | ok u =>
      rw [hvalid] at hfinish
      cases hfinish
      refine ⟨_, hs, rfl, hvalid, fun hd hhd => ?_⟩
      have hlist : d'.builder.code.handlers.toList.mapM b.placeHandler = .ok hs.toList := by
        rw [Array.mapM_eq_mapM_toList] at hplaced
        cases hmap : d'.builder.code.handlers.toList.mapM b.placeHandler with
        | error e => rw [hmap] at hplaced; cases hplaced
        | ok hs' => rw [hmap] at hplaced; cases hplaced; rfl
      have hmem : unplaced hd ∈ d'.builder.code.handlers.toList.map unplaced := by
        rw [← unplaced_of_placeHandlers hlist]
        exact List.mem_map_of_mem (Array.mem_toList_iff.2 hhd)
      rw [henters.handlers, h.entered, h.handlers] at hmem
      obtain ⟨hd₀, hhd₀, heq⟩ := List.mem_map.1 hmem
      obtain ⟨line, hline, rfl⟩ := List.mem_map.1 ((List.mem_append.1 hhd₀).resolve_left (by simp))
      refine ⟨line, hline, heq.symm.trans ?_⟩
      rw [HandlerLine.handler, HandlerLine.handler]
      split <;> rfl

end Draft

end Listing

end RegisterJit
