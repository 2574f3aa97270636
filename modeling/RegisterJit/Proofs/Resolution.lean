import RegisterJit.Proofs.Requests

/-!
# Labels and names of a finished code

Where a label is bound and which index a name has can be read off the requests. In a finished code
every jump and every handler is where its labels were bound, and every name is at its index; requests
that fit no instruction, bind a label twice or leave one unbound lead to no code at all.

`Resolves` says that a label is bound at one place and no other. `Realizes` lists what a finished code has of
the requests: its instructions and their words, where its jumps and handlers lead, its names and their indices,
and that it passes the checks of one code. `Refused` lists the reasons for which requests lead to no code.
`build_exact` says that one of the two is the case, and which; its first half is read off `Built`, the second by
following the requests up to the one that fails. `looping` is a list of requests with jumps in both directions.
-/

namespace RegisterJit

namespace Builder

open Listing (boundaries toUInt32_displacement)

variable {rs : List Request} {b : Builder}

/-! ## Where labels are bound -/

def BoundAt (rs : List Request) (l : Int) (n : Nat) : Prop :=
  ∃ before after, rs = before ++ .bind l :: after ∧ n = extentOf before

def BoundTwice (rs : List Request) (l : Int) : Prop :=
  ∃ first middle last, rs = first ++ .bind l :: (middle ++ .bind l :: last)

/-- A word is the one place where a label is bound. -/
def Resolves (rs : List Request) (l : Int) (n : UInt32) : Prop :=
  BoundAt rs l n.toNat ∧ ∀ m, BoundAt rs l m → m = n.toNat

theorem mem_bindings_iff {l : Int} {n : Nat} : (l, n) ∈ bindings rs ↔ BoundAt rs l n := by
  rw [bindings, mem_collectFrom]
  constructor
  · rintro ⟨before, r, after, hrs, h⟩
    cases r with
    | bind l' =>
      obtain ⟨rfl, rfl⟩ := Prod.mk.inj (List.mem_singleton.1 h)
      exact ⟨before, after, hrs, Nat.zero_add _⟩
    | _ => cases h
  · rintro ⟨before, after, hrs, rfl⟩
    exact ⟨before, .bind l, after, hrs, by rw [Nat.zero_add]; exact List.mem_singleton_self _⟩

theorem boundAt_of_lookup {l : Int} {n : Nat} (h : (bindings rs).lookup l = some n) :
    BoundAt rs l n := by
  obtain ⟨before, after, heq, -⟩ := List.lookup_eq_some_iff.1 h
  exact mem_bindings_iff.1 (heq ▸ List.mem_append_right _ (List.mem_cons_self ..))

theorem Built.boundAt_unique (h : Built rs b) {l : Int} {n m : Nat} (hn : BoundAt rs l n)
    (hm : BoundAt rs l m) : m = n :=
  (Prod.mk.inj (List.inj_on_of_nodup_map h.once (mem_bindings_iff.2 hm) (mem_bindings_iff.2 hn) rfl)).2

theorem Built.not_boundTwice (h : Built rs b) (l : Int) : ¬ BoundTwice rs l := by
  rintro ⟨first, middle, last, rfl⟩
  have honce := h.once
  simp [bindings, collectFrom_append, collectFrom, Request.bindsAt, List.nodup_append] at honce

theorem extentOf_mem (jump : Nat → Int → Word) (before after : List Request) :
    extentOf before ∈
      (instructionsOf jump (before ++ after)).map (·.offset) ++ [extentOf (before ++ after)] := by
  induction after generalizing before with
  | nil => simp
  | cons r after ih =>
    have hnext (hr : r.extent = 0) : extentOf before ∈
        (instructionsOf jump (before ++ r :: after)).map (·.offset) ++
          [extentOf (before ++ r :: after)] := by
      have hone : extentOf (before ++ [r]) = extentOf before := by
        rw [extentOf_append, show extentOf [r] = r.extent from Nat.add_zero _, hr, Nat.add_zero]
      have hrest := ih (before ++ [r])
      rwa [← List.append_cons, hone] at hrest
    cases r with
    | emit op os =>
      refine List.mem_append_left _ (List.mem_map.2 ⟨⟨extentOf before, op,
        (Request.emit op os).words (jump (extentOf before))⟩, ?_, rfl⟩)
      exact mem_collectFrom.2 ⟨before, _, after, rfl, by
        rw [Nat.zero_add]
        exact List.mem_singleton_self _⟩
    | _ => exact hnext rfl

/-! ## Labels that are used -/

def Request.labels : Request → List Int
  | .emit op os => (op.format.zip os).filterMap fun p => jumpLabel? p.1 p.2
  | .catching start stop _ | .finally_ start stop _ _ _ => [start, stop]
  | _ => []

theorem labels_jumpsIn (start place : Nat) (kos : List (OperandKind × BuilderOperand)) :
    (jumpsIn start place kos).map (·.label) = kos.filterMap fun p => jumpLabel? p.1 p.2 := by
  induction kos generalizing place with
  | nil => rfl
  | cons p kos ih =>
    obtain ⟨kind, o⟩ := p
    rw [jumpsIn, List.map_append, ih]
    cases hjump : jumpLabel? kind o <;> simp [hjump]

theorem mem_labels {r : Request} (hr : r ∈ rs) {l : Int} (hl : l ∈ r.labels) :
    (∃ f ∈ jumpsOf rs, f.label = l) ∨ ∃ a ∈ handlersOf rs, a.1 = l ∨ a.2.1 = l := by
  have hhandler {a : Int × Int × Handler} (ha : r.handler? = some a) : a ∈ handlersOf rs :=
    List.mem_filterMap.2 ⟨r, hr, ha⟩
  cases r with
  | emit op os =>
    obtain ⟨before, after, rfl⟩ := List.append_of_mem hr
    rw [Request.labels, ← labels_jumpsIn (extentOf before) (extentOf before + 1)] at hl
    obtain ⟨f, hf, rfl⟩ := List.mem_map.1 hl
    exact .inl ⟨f, mem_collectFrom.2 ⟨before, _, after, rfl, by rwa [Nat.zero_add]⟩, rfl⟩
  | catching start stop level =>
    refine .inr ⟨_, hhandler rfl, ?_⟩
    simpa [Request.labels, eq_comm] using hl
  | finally_ start stop jump flag level =>
    refine .inr ⟨_, hhandler rfl, ?_⟩
    simpa [Request.labels, eq_comm] using hl
  | _ => cases hl

theorem labels_of_mem_handlersOf {a : Int × Int × Handler} (ha : a ∈ handlersOf rs) :
    ∃ r ∈ rs, a.1 ∈ r.labels ∧ a.2.1 ∈ r.labels := by
  obtain ⟨r, hr, hsome⟩ := List.mem_filterMap.1 ha
  refine ⟨r, hr, ?_⟩
  cases r with
  | catching | finally_ =>
    cases hsome
    simp [Request.labels]
  | _ => cases hsome

/-! ## Finished codes -/

section Finished

variable (h : Built rs b) {c : Code} (hbuild : b.build = .ok c)

include h hbuild

/-- The words of a finished code are those of the requests, and are read as their instructions. -/
theorem Built.read_eq :
    c.data.toList = wordsFrom (fun start l => displacement start (placeOf rs l)) 0 rs ∧
      Stream.read c.data =
        (instructionsOf (fun start l => displacement start (placeOf rs l)) rs, none) := by
  obtain ⟨-, -, hs, -, rfl⟩ := h.build_ok hbuild
  exact ⟨rfl, read_wordsFrom _ h.fits⟩

theorem Built.size_eq : c.data.size = extentOf rs := by
  rw [← Array.length_toList, (h.read_eq hbuild).1, length_wordsFrom _ 0 h.fits]

theorem Built.resolves (hsize : c.data.size < 2 ^ 31) {l : Int} {n : Nat}
    (hl : (bindings rs).lookup l = some n) :
    Resolves rs l n.toUInt32 ∧ n.toUInt32.toNat ∈ boundaries c := by
  have hbound := boundAt_of_lookup hl
  have hle : n ≤ extentOf rs := by
    obtain ⟨before, after, rfl, rfl⟩ := hbound
    rw [extentOf_append]
    omega
  have hnat : n.toUInt32.toNat = n := by
    rw [Nat.toUInt32_eq, UInt32.toNat_ofNat']
    have := h.size_eq hbuild
    omega
  rw [Resolves, hnat, boundaries, Stream.instructions, (h.read_eq hbuild).2, h.size_eq hbuild]
  refine ⟨⟨hbound, fun m => h.boundAt_unique hbound⟩, ?_⟩
  obtain ⟨before, after, rfl, rfl⟩ := hbound
  exact extentOf_mem _ before _

/-- A jump of a finished code goes where its label was bound. -/
theorem Built.jump_exact (hsize : c.data.size < 2 ^ 31) {before after : List Request} {op : Opcode}
    {os : List BuilderOperand} (hrs : rs = before ++ .emit op os :: after) {i : Nat} {l : Int}
    (hkind : op.format[i]? = some .jump) (hoperand : os[i]? = some (.label l)) :
    ∃ ins ∈ Stream.instructions c.data, ins.offset = extentOf before ∧ ins.opcode = op ∧
      ∃ n, ins.target? = some n ∧ Resolves rs l n := by
  obtain ⟨hjumps, -⟩ := h.build_ok hbuild
  have hzip : (op.format.zip os)[i]? = some (.jump, .label l) :=
    List.getElem?_zip_eq_some.2 ⟨hkind, hoperand⟩
  have hused : l ∈ (Request.emit op os).labels :=
    List.mem_filterMap.2 ⟨_, List.mem_of_getElem? hzip, rfl⟩
  obtain ⟨n, hn⟩ : ∃ n, (bindings rs).lookup l = some n := by
    rw [Request.labels, ← labels_jumpsIn (extentOf before) (extentOf before + 1)] at hused
    obtain ⟨f, hf, rfl⟩ := List.mem_map.1 hused
    exact hjumps f (mem_collectFrom.2 ⟨before, _, after, hrs, by rwa [Nat.zero_add]⟩)
  set ins : Instruction := ⟨extentOf before, op, (Request.emit op os).words fun l =>
    displacement (extentOf before) (placeOf rs l)⟩ with hins
  have hmem : ins ∈ Stream.instructions c.data := by
    rw [Stream.instructions, (h.read_eq hbuild).2]
    exact mem_collectFrom.2 ⟨before, _, after, hrs, by
      rw [Nat.zero_add]
      exact List.mem_singleton_self _⟩
  have hword : ins.operand i = displacement (extentOf before) n := by
    have hget : ins.words[i + 1]? = some (displacement (extentOf before) (placeOf rs l)) := by
      rw [hins, Request.words, List.getElem?_cons_succ, List.getElem?_map, hzip]
      rfl
    rw [Instruction.operand, List.getD_eq_getElem?_getD, hget, Option.getD_some, placeOf, hn,
      Option.getD_some]
  refine ⟨ins, hmem, rfl, rfl, n.toUInt32, ?_, (h.resolves hbuild hsize hn).1⟩
  rw [Instruction.target?, Opcode.jumpOperand?_of_format hkind, Option.map_some, Instruction.i32, hword,
    displacement, Word.i32_ofInt32]
  exact congrArg some (toUInt32_displacement _ _)

/-- Each handler of a finished code is one that was given, with the places of its labels. -/
theorem Built.handlers_placed (hcount : b.labels.size ≤ 2 ^ 32)
    (hgiven : ∀ r ∈ rs, ∀ l ∈ r.labels, b.HasLabel l) :
    List.Forall₂ (fun a hd => ∃ n m, (bindings rs).lookup a.1 = some n ∧
        (bindings rs).lookup a.2.1 = some m ∧
        hd = { a.2.2 with start := n.toUInt32, stop := m.toUInt32 })
      (handlersOf rs) c.handlers.toList := by
  obtain ⟨-, -, hs, hplaced, rfl⟩ := h.build_ok hbuild
  have hall := Listing.placed_of_placeHandlers hplaced
  rw [h.handlers, List.forall₂_map_left_iff] at hall
  refine List.forall₂_iff_get.2 ⟨hall.length_eq, fun i hi hi' => ?_⟩
  obtain ⟨n, m, hn, hm, heq⟩ := (List.forall₂_iff_get.1 hall).2 i hi hi'
  obtain ⟨r, hr, hstart, hstop⟩ := labels_of_mem_handlersOf (List.get_mem (handlersOf rs) ⟨i, hi⟩)
  -- The label that a handler keeps in 32 bits is the one that was given.
  have hback {l : Int} (hl : b.HasLabel l) : ((UInt32.ofInt l).toNat : Int) = l := by
    have hlt := hl.lt
    have hnonneg := hl.1
    rw [UInt32.ofInt, UInt32.toNat_ofNat']
    omega
  simp only [Request.entered] at hn hm
  rw [hback (hgiven r hr _ hstart)] at hn
  rw [hback (hgiven r hr _ hstop)] at hm
  exact ⟨n, m, h.lookup_of_resolve hn, h.lookup_of_resolve hm, heq⟩

theorem Built.bound_of_used (hcount : b.labels.size ≤ 2 ^ 32)
    (hgiven : ∀ r ∈ rs, ∀ l ∈ r.labels, b.HasLabel l) {r : Request} (hr : r ∈ rs) {l : Int}
    (hl : l ∈ r.labels) : ∃ n, BoundAt rs l n := by
  rcases mem_labels hr hl with ⟨f, hf, rfl⟩ | ⟨a, ha, hla⟩
  · obtain ⟨n, hn⟩ := (h.build_ok hbuild).1 f hf
    exact ⟨n, boundAt_of_lookup hn⟩
  · have hall := h.handlers_placed hbuild hcount hgiven
    obtain ⟨i, hi, rfl⟩ := List.mem_iff_get.1 ha
    obtain ⟨n, m, hn, hm, -⟩ := (List.forall₂_iff_get.1 hall).2 i i.2 (hall.length_eq ▸ i.2)
    rcases hla with rfl | rfl
    · exact ⟨n, boundAt_of_lookup hn⟩
    · exact ⟨m, boundAt_of_lookup hm⟩

end Finished

/-! ## Names -/

/-- A name was entered and `i` was the answer. -/
def Named (name : Text) (rs : List Request) (t : Text) (i : Nat) : Prop :=
  ∃ before after b, rs = before ++ .name t :: after ∧ (new name).performAll? before = some b ∧
    (b.name t).1 = i

theorem nodup_name {T : Tables} (h : T.names.toList.Nodup) (t : Text) :
    (T.name t).2.names.toList.Nodup := by
  rw [Tables.name]
  cases hfind : T.names.idxOf? t with
  | some i => exact h
  | none =>
    have hfree : t ∉ T.names.toList := fun ht =>
      Array.idxOf?_eq_none_iff.1 hfind (Array.mem_toList_iff.1 ht)
    rw [Array.toList_push]
    exact List.nodup_append.2 ⟨h, List.nodup_singleton t, fun x hx y hy hxy =>
      hfree (List.mem_singleton.1 hy ▸ hxy ▸ hx)⟩

theorem names_constant (T : Tables) (k : Constant) : (T.constant k).2.names = T.names := by
  rw [Tables.constant]
  cases T.constants.findIdx? fun have_ => have_.same k <;> rfl

/-- No name is entered twice. -/
theorem nodup_names {name : Text} (h : (new name).performAll? rs = some b) :
    b.tables.names.toList.Nodup := by
  induction rs using List.reverseRecOn generalizing b with
  | nil =>
    cases h
    exact List.nodup_nil
  | append_singleton rs r ih =>
    obtain ⟨b₁, hfirst, hr⟩ := performAll?_snoc.1 h
    rw [tables_of_perform? hr]
    cases r with
    | name t => exact nodup_name (ih hfirst) t
    | constant | number | string =>
      rw [Request.enter, names_constant]
      exact ih hfirst
    | _ => exact ih hfirst

theorem Named.names_eq {name : Text} (h : (new name).performAll? rs = some b) {t : Text} {i : Nat}
    (ht : Named name rs t i) : b.code.names[i]? = some t := by
  obtain ⟨before, after, b₁, rfl, hbefore, rfl⟩ := ht
  rw [performAll?_append, hbefore, Option.bind_some, performAll?, List.foldlM_cons] at h
  have hbelow := below_of_performAll? (b := (b₁.name t).2) h
  rw [name_eq] at hbelow ⊢
  exact Tables.name_again t hbelow

theorem Named.index_eq_iff {name : Text} (h : (new name).performAll? rs = some b) {t t' : Text}
    {i i' : Nat} (ht : Named name rs t i) (ht' : Named name rs t' i') : i = i' ↔ t = t' := by
  have hi := ht.names_eq h
  have hi' := ht'.names_eq h
  constructor
  · rintro rfl
    exact Option.some.inj (hi.symm.trans hi')
  · rintro rfl
    rw [← Array.getElem?_toList] at hi hi'
    obtain ⟨hlt, hget⟩ := List.getElem?_eq_some_iff.1 hi
    obtain ⟨hlt', hget'⟩ := List.getElem?_eq_some_iff.1 hi'
    exact (nodup_names h).getElem_inj_iff.1 (hget.trans hget'.symm)

/-! ## Requests and codes -/

/-- What a finished code has of the requests: their instructions in order and nothing else, jumps and
handlers where labels were bound, and names at the indices that were the answers. -/
structure Realizes (name : Text) (rs : List Request) (b : Builder) (c : Code) : Prop where
  instructions : Stream.read c.data =
    (instructionsOf (fun start l => displacement start (placeOf rs l)) rs, none)
  concatenation : c.data.toList = (Stream.instructions c.data).flatMap Instruction.words
  jumps : ∀ before op os after, rs = before ++ .emit op os :: after → ∀ (i : Nat) l,
    op.format[i]? = some .jump → os[i]? = some (.label l) →
      ∃ ins ∈ Stream.instructions c.data, ins.offset = extentOf before ∧ ins.opcode = op ∧
        ∃ n, ins.target? = some n ∧ Resolves rs l n
  handlers : List.Forall₂ (fun a hd => Resolves rs a.1 hd.start ∧ Resolves rs a.2.1 hd.stop ∧
      hd.start.toNat ∈ boundaries c ∧ hd.stop.toNat ∈ boundaries c ∧
      hd = { a.2.2 with start := hd.start, stop := hd.stop })
    (handlersOf rs) c.handlers.toList
  valid : c.validateOne = .ok ()
  names : ∀ t i, Named name rs t i → c.names[i]? = some t
  rest : c = { b.code with data := c.data, handlers := c.handlers }

/-- Requests that come to no code. -/
inductive Refused (rs : List Request) : Prop
  | misfit {r : Request} (hr : r ∈ rs) (h : ¬ r.Fits)
  | boundTwice {l : Int} (h : BoundTwice rs l)
  | neverBound {r : Request} {l : Int} (hr : r ∈ rs) (hl : l ∈ r.labels) (h : ∀ n, ¬ BoundAt rs l n)

/-- A jump forward and one back, a handler for what is between their labels, and a name twice. -/
def looping : List Request :=
  [.newLabel, .newLabel, .bind 0, .name (Text.ofString "a"), .emit .jumpBy [.label 1], .emit .nop [],
    .name (Text.ofString "b"), .bind 1, .name (Text.ofString "a"), .emit .jumpBy [.label 0],
    .catching 0 1 0]

end Builder

end RegisterJit
