import RegisterJit.Proofs.Chains
import RegisterJit.Proofs.Stores

/-!
# The order of names

The names of an object are those of its properties, each once, whatever is done in a world. They stand in the
order in which they were last absent: a new name goes to the end, one that is assigned keeps its place, and one
that is deleted leaves the order of the others.

`Edit` is what can happen to a name, `History` the list of what did happen, and `lastAbsent` the last moment at
which a name was absent, which determines its place in the order. `Edited.keys` says what one edit does to the
names, and `History.ordered` is the induction along a history. `Orderly` says which worlds can follow each
other: assignments, definitions and deletions through the functions of the runtime, with what each of them
answers, and anything that leaves the names alone. A name that is absent or may be deleted is deleted, so a
refusal is for one that is fixed. `Loops` uses the order of the names for the order in which a loop visits them.
-/

namespace RegisterJit

/-! ## Names in worlds that are reached -/

namespace Heap

variable {h : Heap}

def Keyed (h : Heap) : Prop := ∀ r o, h.object? r = some o → o.Keyed

theorem Keyed.modify (hh : h.Keyed) {r : ObjectRef} {f : Object → Object}
    (hf : ∀ o, h.object? r = some o → o.Keyed → (f o).Keyed) : (h.modify r f).Keyed := by
  intro q o ho
  rw [object?_modify] at ho
  split at ho
  · next heq =>
    obtain ⟨o', ho', rfl⟩ := Option.map_eq_some_iff.1 ho
    exact hf o' (heq ▸ ho') (hh q o' ho')
  · exact hh q o ho

theorem Keyed.alloc (hh : h.Keyed) {o : Object} (hkeyed : o.Keyed) : (h.alloc o).2.Keyed := by
  intro q o' ho
  rw [object?_alloc] at ho
  split at ho
  · exact Option.some.inj ho ▸ hkeyed
  · exact hh q o' ho

theorem Keyed.intern (hh : h.Keyed) (t : Text) : (h.intern t).2.Keyed := fun q o ho =>
  hh q o (object?_intern h t q ▸ ho)

end Heap

namespace World

variable {m : Moment} {w w₁ : World}

theorem Change.keyed (h : w.Change m w₁) (hw : w.realm.heap.Keyed) : w₁.realm.heap.Keyed := by
  have hassign {r : ObjectRef} {key : Text} {p : Property} (hown : w.own? r key = some p) (body : PropertyBody) :
      (w.realm.heap.modify r fun o => o.define key { p with body := body }).Keyed := by
    refine hw.modify fun o ho hkeyed => hkeyed.define fun hdigits => ?_
    rw [own?, Heap.object_eq ho] at hown
    exact hkeyed.numerals key p hdigits hown
  cases h with
  | machine | print | leave | install => exact hw
  | enter | enterSlots | bind | unbind | write | settle | reset | name => exact hw
  | intern t => exact hw.intern t
  | create o hproto hmakes hcloses hkeyed => exact hw.alloc hkeyed
  | construct r f hr hf hkeyed => exact hw.modify fun o _ => hkeyed o
  | content r f hf => exact hw.modify fun o _ hkeyed => hkeyed.congr (hf o).props (hf o).keys
  | iterate hs r e => exact hw.modify fun o _ hkeyed => hkeyed.congr rfl rfl
  | add r key p hown hp => exact hw.modify fun o _ hkeyed => hkeyed.define fun _ => hp
  | assign r key p old v hown hbody => exact hassign hown _
  | redeclare configurable hs r key p old writable hown hbody => exact hassign hown _
  | delete r key p hown hp => exact hw.modify fun o _ hkeyed => hkeyed.remove key
  | literal part hs r key p hp =>
    refine hw.modify fun o ho hkeyed => hkeyed.define fun hdigits => ?_
    rcases hp with hp | ⟨q, hown, hp⟩
    · exact hp
    · rw [own?, Heap.object_eq ho] at hown
      exact hp.trans (hkeyed.numerals key q hdigits hown)

theorem Evolves.keyed (h : Evolves m w w₁) (hw : w.realm.heap.Keyed) : w₁.realm.heap.Keyed := by
  induction h with
  | refl => exact hw
  | tail _ hchange ih => exact hchange.keyed ih

theorem bare_keyed : Realm.bare.heap.Keyed := by
  intro q o ho
  match q with
  | 0 => cases ho
  | 1 | 2 | 3 | 4 | 5 => cases ho; exact Object.keyed_of_bare rfl rfl
  | q + 6 => cases ho

theorem Reachable.keyed (h : w.Reachable) : w.realm.heap.Keyed := by
  obtain ⟨config, hsteps⟩ := h
  exact (hsteps.evolves (past_moment _) (ofConfig_sound config)).keyed ((ofConfig_evolves config).keyed bare_keyed)

/-! ## Edits -/

section

variable {r : ObjectRef}

def names (w : World) (r : ObjectRef) : List Text := (w.realm.heap.object r).keys

/-- A property of an object is defined, stored or deleted, or something happens that leaves the object alone. -/
inductive Edit (r : ObjectRef) (w : World) : World → Prop
  | define (key : Text) (p : Property) : Edit r w ((Run.define r key p).after w)
  | store (ev : Evaluator) (base : Value) (key : Text) (v : Value) (strict : Bool)
      (hbase : Heap.ref? base = some r) (hsetter : ¬ w.MeetsSetter r key) :
      Edit r w ((Run.putProperty ev base key v strict).after w)
  | delete (base : Value) (key : Text) (strict : Bool) (hbase : Heap.ref? base = some r) :
      Edit r w ((Run.deleteProperty base key strict).after w)
  | other (w' : World) (h : w'.realm.heap.object? r = w.realm.heap.object? r) : Edit r w w'

/-- The worlds that a sequence of edits goes through from a first one on, the last one at the head. -/
inductive History (r : ObjectRef) (w : World) : List World → Prop
  | start : History r w [w]
  | edit {w₁ w₂ : World} {earlier : List World} (h : History r w (w₁ :: earlier)) (hedit : w₁.Edit r w₂) :
      History r w (w₂ :: w₁ :: earlier)

/-- When a name was last absent in a history: how many worlds had gone before. -/
def lastAbsent (r : ObjectRef) (key : Text) : List World → Option Nat
  | [] => none
  | w :: earlier => if (w.own? r key).isNone then some earlier.length else lastAbsent r key earlier

/-- One name was last absent before another, or the first world had both in this order and neither was ever
absent. -/
def Precedes (r : ObjectRef) (first : List Text) (history : List World) (a b : Text) : Prop :=
  match lastAbsent r a history, lastAbsent r b history with
  | none, none => [a, b].Sublist first
  | none, some _ => True
  | some _, none => False
  | some i, some j => i < j

theorem lastAbsent_lt {key : Text} {history : List World} {i : Nat}
    (h : lastAbsent r key history = some i) : i < history.length := by
  induction history with
  | nil => cases h
  | cons w earlier ih =>
    rw [lastAbsent] at h
    split at h
    · cases h
      exact Nat.lt_succ_self _
    · exact Nat.lt_succ_of_lt (ih h)

theorem lastAbsent_of_present {key : Text} (h : (w.own? r key).isSome = true) (earlier : List World) :
    lastAbsent r key (w :: earlier) = lastAbsent r key earlier := by
  rw [lastAbsent, if_neg (by simpa [Option.isNone_iff_eq_none, Option.isSome_iff_ne_none] using h)]

theorem lastAbsent_of_absent {key : Text} (h : w.own? r key = none) (earlier : List World) :
    lastAbsent r key (w :: earlier) = some earlier.length := by
  rw [lastAbsent, h, if_pos Option.isNone_none]

/-- The object after an edit: it is as it was, or a property was defined or dropped. -/
inductive Edited (o : Object) : Object → Prop
  | same : Edited o o
  | define (key : Text) (p : Property) : Edited o (o.define key p)
  | remove (key : Text) : Edited o (o.remove key)

section

variable {o o' : Object}

theorem Edited.cls (h : Edited o o') : o'.cls = o.cls := by
  cases h with
  | same => rfl
  | define key p => rfl
  | remove key => exact (o.same_remove key).cls

theorem Edited.listed (h : Edited o o') (ho : o.Listed) : o'.Listed := by
  cases h with
  | same => exact ho
  | define key p => exact ho.define key p
  | remove key => exact ho.remove key

/-- The names after an edit: some of those before in their order, or one more at the end. -/
theorem Edited.keys (h : Edited o o') (ho : o.Listed) :
    o'.keys.Sublist o.keys ∨ ∃ key, o.own? key = none ∧ o'.keys = o.keys ++ [key] := by
  cases h with
  | same => exact .inl (.refl _)
  | define key p =>
    rw [Object.keys_define]
    split
    · exact .inl (.refl _)
    · next hnone => exact .inr ⟨key, Option.not_isSome_iff_eq_none.1 hnone, rfl⟩
  | remove key =>
    rw [ho.keys_remove]
    exact .inl List.erase_sublist

theorem edited_withObject {f : Object → Object} (ho : w.realm.heap.object? r = some o)
    (hf : Edited o (f o)) :
    ∃ o', (w.withObject r f).realm.heap.object? r = some o' ∧ Edited o o' :=
  ⟨f o, object?_withObject ho f, hf⟩

theorem Extends.edited {w' : World} (h : w.Extends w') (ho : w.realm.heap.object? r = some o) :
    ∃ o', w'.realm.heap.object? r = some o' ∧ Edited o o' :=
  ⟨o, (h.object? r (Heap.has_iff.2 ⟨o, ho⟩)).trans ho, .same⟩

/-- What becomes of a store into an object that is no array. -/
theorem putProperty_stored (ev : Evaluator) {base : Value} {key : Text} (ho : w.realm.heap.object? r = some o)
    (hplain : o.cls ≠ .array) (v : Value) (strict : Bool) (hbase : Heap.ref? base = some r)
    (hsetter : ¬ w.MeetsSetter r key) :
    Run.Stored w r key v (Run.putProperty ev base key v strict) := by
  have hrun := Run.putProperty_eq hbase ho ev key v strict hplain
  cases Run.putNamed_stored ev base v strict hsetter with
  | put p hbody hx => exact .put p hbody (hrun.trans hx)
  | refused h hx => exact .refused h (hrun.trans hx)
  | raised h message hx => exact .raised h message (hrun.trans hx)

theorem Edit.edited {w' : World} (h : w.Edit r w') (ho : w.realm.heap.object? r = some o)
    (hplain : o.cls ≠ .array) : ∃ o', w'.realm.heap.object? r = some o' ∧ Edited o o' := by
  cases h with
  | define key p => exact edited_withObject ho (.define key p)
  | store ev base key v strict hbase hsetter =>
    rcases (putProperty_stored ev ho hplain v strict hbase hsetter).after with ⟨p, -, hafter⟩ | ⟨-, hextends⟩
    · exact hafter ▸ edited_withObject ho (.define key p)
    · exact hextends.edited ho
  | delete base key strict hbase =>
    rcases (Run.deleteProperty_dropped hbase ho key strict (fun h => hplain h.1) fun h => hplain h.1).after with
      hafter | hextends
    · exact hafter ▸ edited_withObject ho (.remove key)
    · exact hextends.edited ho
  | other w' h => exact ⟨o, h.trans ho, .same⟩

end

/-- In every history of an object that is no array, the names are in the order in which they were last absent. -/
theorem History.ordered {w' : World} {earlier : List World} (h : History r w (w' :: earlier)) {o : Object}
    (ho : w.realm.heap.object? r = some o) (hplain : o.cls ≠ .array) (hlisted : o.Listed) :
    ∃ o', w'.realm.heap.object? r = some o' ∧ o'.cls ≠ .array ∧ o'.Listed ∧
      o'.keys.Pairwise (Precedes r o.keys (w' :: earlier)) := by
  generalize hhistory : w' :: earlier = history at h
  induction h generalizing w' earlier with
  | start =>
    obtain ⟨rfl, rfl⟩ := List.cons.inj hhistory
    refine ⟨o, ho, hplain, hlisted, List.pairwise_iff_forall_sublist.2 fun {a b} hab => ?_⟩
    have hpresent {k : Text} (hk : k ∈ [a, b]) : lastAbsent r k [w'] = none := by
      rw [lastAbsent_of_present, lastAbsent]
      rw [own?, Heap.object_eq ho]
      exact (hlisted.mem_keys k).1 (hab.subset hk)
    rw [Precedes, hpresent (by simp), hpresent (by simp)]
    exact hab
  | @edit w₁ w₂ earlier₁ h hedit ih =>
    obtain ⟨rfl, rfl⟩ := List.cons.inj hhistory
    obtain ⟨o₁, ho₁, hplain₁, hlisted₁, horder⟩ := ih rfl
    obtain ⟨o₂, ho₂, hedited⟩ := hedit.edited ho₁ hplain₁
    refine ⟨o₂, ho₂, hedited.cls ▸ hplain₁, hedited.listed hlisted₁,
      List.pairwise_iff_forall_sublist.2 fun {a b} hab => ?_⟩
    have hpresent {k : Text} (hk : k ∈ [a, b]) :
        lastAbsent r k (w' :: w₁ :: earlier₁) = lastAbsent r k (w₁ :: earlier₁) := by
      refine lastAbsent_of_present ?_ _
      rw [own?, Heap.object_eq ho₂]
      exact ((hedited.listed hlisted₁).mem_keys k).1 (hab.subset hk)
    have hsame (hsub : [a, b].Sublist o₁.keys) : Precedes r o.keys (w' :: w₁ :: earlier₁) a b := by
      rw [Precedes, hpresent (by simp), hpresent (by simp)]
      exact List.pairwise_iff_forall_sublist.1 horder hsub
    rcases hedited.keys hlisted₁ with hsub | ⟨key, habsent, hkeys⟩
    · exact hsame (hab.trans hsub)
    · rw [hkeys] at hab
      obtain ⟨front, back, heq, hfront, hback⟩ := List.sublist_append_iff.1 hab
      rcases List.sublist_singleton.1 hback with rfl | rfl
      · exact hsame (by rwa [heq, List.append_nil])
      · -- the new name was absent just now, the other one was not
        obtain ⟨rfl, hkey⟩ := List.append_inj' (show [a] ++ [b] = front ++ [key] from heq) rfl
        obtain rfl := List.singleton_inj.1 hkey
        have ha : (w₁.own? r a).isSome = true := by
          rw [own?, Heap.object_eq ho₁]
          exact (hlisted₁.mem_keys a).1 (hfront.subset List.mem_cons_self)
        have hb : w₁.own? r b = none := by rw [own?, Heap.object_eq ho₁, habsent]
        rw [Precedes, hpresent (by simp), hpresent (by simp), lastAbsent_of_absent hb, lastAbsent_of_present ha]
        cases hlast : lastAbsent r a earlier₁ with
        | none => trivial
        | some i => exact lastAbsent_lt hlast

/-! ## Single edits -/

/-- A store under a key comes to an accessor. -/
def MeetsAccessor (w : World) (r : ObjectRef) (key : Text) : Prop :=
  ∃ owner p getter setter, w.realm.heap.find? r key = some (.property owner p) ∧
    p.body = .accessor getter setter

/-- A store under a key comes to a read-only property. -/
def MeetsReadOnly (w : World) (r : ObjectRef) (key : Text) : Prop :=
  ∃ owner p v, w.realm.heap.find? r key = some (.property owner p) ∧ p.body = .data v false

/-- What the operations on an object do to its names, its properties and other objects. -/
structure Orderly (w : World) (r : ObjectRef) : Prop where
  define : ∀ key p, ((Run.define r key p).after w).names r =
    if key ∈ w.names r then w.names r else w.names r ++ [key]
  assign : ∀ ev base key v strict, Heap.ref? base = some r → ¬ w.MeetsSetter r key → key ∈ w.names r →
    ((Run.putProperty ev base key v strict).after w).names r = w.names r
  delete : ∀ base key strict, Heap.ref? base = some r →
    (∀ p, w.own? r key = some p → p.configurable = true) →
      ∃ w', Run.deleteProperty base key strict w = .ok true w' ∧
        w'.names r = (w.names r).erase key ∧ key ∉ w'.names r ∧
        (∀ k, w'.own? r k = if k = key then none else w.own? r k) ∧
        (w'.realm.heap.object r).elements = (w.realm.heap.object r).elements ∧
        ∀ q, q ≠ r → w'.realm.heap.object? q = w.realm.heap.object? q
  keep : ∀ base key strict p, Heap.ref? base = some r → w.own? r key = some p → p.configurable = false →
    (strict = false → Run.deleteProperty base key strict w = .ok false w) ∧
    (strict = true → ∃ message, Run.deleteProperty base key strict w = Run.raise .typeError message w) ∧
      w.Extends ((Run.deleteProperty base key strict).after w)
  store : ∀ ev base key v strict w', Heap.ref? base = some r → ¬ w.MeetsAccessor r key →
    Run.putProperty ev base key v strict w = .ok () w' →
      (w.MeetsReadOnly r key ∧ w' = w) ∨ Run.getProperty ev base key w' = .ok v w'
  frame : ∀ ev base key v strict, Heap.ref? base = some r → ¬ w.MeetsSetter r key →
    ∀ w', w' = (Run.putProperty ev base key v strict).after w →
      (∀ k, k ≠ key → w'.own? r k = w.own? r k) ∧
      (w'.realm.heap.object r).elements = (w.realm.heap.object r).elements ∧
      ∀ q, w.realm.heap.Has q → q ≠ r → w'.realm.heap.object? q = w.realm.heap.object? q

section

variable {o : Object} (ho : w.realm.heap.object? r = some o) (hplain : o.cls ≠ .array)

include ho

theorem own?_eq (key : Text) : w.own? r key = o.own? key := by rw [own?, Heap.object_eq ho]

theorem names_eq : w.names r = o.keys := by rw [names, Heap.object_eq ho]

theorem object_withObject_of_some (f : Object → Object) : (w.withObject r f).realm.heap.object r = f o :=
  Heap.object_eq (object?_withObject ho f)

theorem object?_define (key : Text) (p : Property) :
    ((Run.define r key p).after w).realm.heap.object? r = some (o.define key p) :=
  object?_withObject ho _

theorem keep_extends {w' : World} (h : w.Extends w') : w'.realm.heap.object r = o :=
  Heap.object_eq ((h.object? r (Heap.has_iff.2 ⟨o, ho⟩)).trans ho)

include hplain

theorem not_indexes (key : Text) : ¬ Heap.Indexes (w.realm.heap.object r) key := by
  rw [Heap.object_eq ho]
  exact fun h => hplain h.1

theorem orderly (hlisted : o.Listed) : w.Orderly r where
  define key p := by
    rw [names, Heap.object_eq (object?_define ho key p), Object.keys_define, names_eq ho]
    simp only [hlisted.mem_keys]
  assign ev base key v strict hbase hsetter hkey := by
    rw [names_eq ho] at hkey ⊢
    rcases (putProperty_stored ev ho hplain v strict hbase hsetter).after with ⟨p, -, hafter⟩ | ⟨-, hextends⟩
    · rw [hafter, names, object_withObject_of_some ho, Object.keys_define,
        if_pos ((hlisted.mem_keys key).1 hkey)]
    · rw [names, keep_extends ho hextends]
  delete base key strict hbase hconfigurable := by
    cases Run.deleteProperty_dropped hbase ho key strict (fun h => hplain h.1) fun h => hplain h.1 with
    | absent hown hx =>
      have hkey : key ∉ w.names r := by
        rw [names_eq ho, hlisted.mem_keys, ← own?_eq ho, hown]
        simp
      refine ⟨w, hx, (List.erase_of_not_mem hkey).symm, hkey, fun k => ?_, rfl, fun q _ => rfl⟩
      split
      · next heq => rw [heq, hown]
      · rfl
    | drop p hown hp hx =>
      refine ⟨_, hx, ?_⟩
      rw [names, object_withObject_of_some ho, names_eq ho, hlisted.keys_remove]
      refine ⟨rfl, hlisted.nodup.not_mem_erase, fun k => ?_, ?_, fun q hq => object?_withObject_of_ne hq.symm _⟩
      · rw [World.own?, object_withObject_of_some ho, Object.own?_remove, own?_eq ho]
      · rw [Heap.object_eq ho, Object.remove]
        split <;> rfl
    | refused p hown hp hstrict hx => cases hp.symm.trans (hconfigurable p hown)
    | raised p hown hp hstrict message hx => cases hp.symm.trans (hconfigurable p hown)
  keep base key strict p hbase hown hp := by
    have heq {q : Property} (hq : w.own? r key = some q) : q = p := Option.some.inj (hq.symm.trans hown)
    cases Run.deleteProperty_dropped hbase ho key strict (fun h => hplain h.1) fun h => hplain h.1 with
    | absent hnone hx => cases hnone.symm.trans hown
    | drop q hq hdrop hx => cases hp.symm.trans (heq hq ▸ hdrop)
    | refused q hq hkept hstrict hx =>
      subst hstrict
      exact ⟨fun _ => hx, by simp, .of_eq (Run.after_ok hx)⟩
    | raised q hq hkept hstrict message hx =>
      subst hstrict
      exact ⟨by simp, fun _ => ⟨message, hx⟩, Run.after_congr hx ▸ Run.raise_extends _ _⟩
  store ev base key v strict w' hbase haccessor hrun := by
    have hsetter : ¬ w.MeetsSetter r key := by
      rintro ⟨owner, p, getter, setter, hfound, hbody, -⟩
      exact haccessor ⟨owner, p, getter, setter, hfound, hbody⟩
    cases putProperty_stored ev ho hplain v strict hbase hsetter with
    | put p hbody hx =>
      cases hx.symm.trans hrun
      exact .inr (Run.getProperty_define hbase (Heap.has_iff.2 ⟨o, ho⟩) (not_indexes ho hplain key) hbody)
    | refused hrefuses hx =>
      cases hx.symm.trans hrun
      obtain ⟨owner, p, hfound, ⟨old, hbody⟩ | ⟨getter, setter, hbody, -⟩⟩ := hrefuses
      · exact .inl ⟨⟨owner, p, old, hfound, hbody⟩, rfl⟩
      · exact absurd ⟨owner, p, getter, setter, hfound, hbody⟩ haccessor
    | raised hrefuses message hx => exact absurd (hx.symm.trans hrun) Run.raise_ne_ok
  frame ev base key v strict hbase hsetter w' hw' := by
    subst hw'
    rcases (putProperty_stored ev ho hplain v strict hbase hsetter).after with ⟨p, -, hafter⟩ | ⟨-, hextends⟩
    · rw [hafter]
      refine ⟨fun k hk => ?_, ?_, fun q _ hq => object?_withObject_of_ne hq.symm _⟩
      · rw [World.own?, object_withObject_of_some ho, Object.own?_define_of_ne hk, own?_eq ho]
      · rw [object_withObject_of_some ho, Heap.object_eq ho]
        rfl
    · refine ⟨fun k _ => ?_, ?_, fun q hq _ => hextends.object? q hq⟩
      · rw [World.own?, keep_extends ho hextends, own?_eq ho]
      · rw [keep_extends ho hextends, Heap.object_eq ho]

end

end

/-- Objects are maps in the order of insertion. In every world that is reached, the names of an object are those
of its properties, each once. However an object that is no array is edited from then on, its names stand in the
order in which they were last absent; one that is defined again or assigned keeps its place, a deletion takes
away one name and leaves the others in their order, a store that succeeds and comes to no accessor is read back
unless a read-only property is in force, and a store that calls no setter changes nothing else. -/
theorem names_in_order {w : World} (h : w.Reachable) :
    (∀ r o, w.realm.heap.object? r = some o →
      o.keys.Nodup ∧ ∀ key, key ∈ o.keys ↔ (o.own? key).isSome = true) ∧
    ∀ r o, w.realm.heap.object? r = some o → o.cls ≠ .array →
      ∀ w' earlier, History r w (w' :: earlier) →
        (w'.names r).Pairwise (Precedes r o.keys (w' :: earlier)) ∧ w'.Orderly r := by
  refine ⟨fun r o ho => ⟨(h.keyed r o ho).nodup, (h.keyed r o ho).mem_keys⟩,
    fun r o ho hplain w' earlier hhistory => ?_⟩
  obtain ⟨o', ho', hplain', hlisted, hpairwise⟩ := hhistory.ordered ho hplain (h.keyed r o ho).toListed
  exact ⟨names_eq ho' ▸ hpairwise, orderly ho' hplain' hlisted⟩

theorem exists_reachable_size : ∃ w : World, w.Reachable ∧ w.realm.heap.objects.size = 32 :=
  ⟨ofConfig ⟨0, 0, 0⟩, ⟨_, .refl⟩, by decide +kernel⟩

/-- There is a new object in some world that is reached, and its number fits into a handle. -/
theorem exists_newObject : ∃ (w : World) (r p : ObjectRef), w.Reachable ∧ Heap.ref? (Heap.value r) = some r ∧
    w.realm.heap.object? r = some (Object.ofClass .object (some p)) := by
  obtain ⟨w, ⟨config, hsteps⟩, hsize⟩ := exists_reachable_size
  have hstep := Step.stub (w := w) true 0 .loadObject 0 0 0 0 0
  rw [after_loadObject] at hstep
  have hobject := Heap.object?_alloc w.realm.heap
    (Object.ofClass .object (some w.realm.objectProto)) (w.realm.heap.objects.size + 1)
  rw [if_pos rfl] at hobject
  have hfits : w.realm.heap.objects.size + 1 < 2 ^ 32 := by omega
  exact ⟨_, _, _, ⟨config, hsteps.tail hstep⟩, Heap.ref?_value (Nat.succ_pos _) hfits, hobject⟩

/-- Two names of a new object, the first of which is deleted and defined again. It is the last one then. -/
theorem names_in_order_newObject : ∃ (w w₁ w₂ w₃ w₄ : World) (r : ObjectRef) (base : Value), w.Reachable ∧
    Heap.ref? base = some r ∧ History r w [w₄, w₃, w₂, w₁, w] ∧
      w₂.names r = [Text.ofString "b", Text.ofString "a"] ∧
      Run.deleteProperty base (Text.ofString "b") true w₂ = .ok true w₃ ∧ w₃.names r = [Text.ofString "a"] ∧
      w₄.names r = [Text.ofString "a", Text.ofString "b"] ∧
      (w₄.names r).Pairwise (Precedes r [] [w₄, w₃, w₂, w₁, w]) ∧ w₄.Orderly r := by
  obtain ⟨w, r, p, hreachable, hbase, ho⟩ := exists_newObject
  have horder {w' : World} {earlier : List World} (h : History r w (w' :: earlier)) :=
    (names_in_order hreachable).2 r _ ho nofun w' earlier h
  have h₁ := (History.start (w := w)).edit (.define (r := r) (Text.ofString "b") (Property.plain .null))
  have h₂ := h₁.edit (.define (Text.ofString "a") (Property.plain .null))
  have hnames₁ := (horder .start).2.define (Text.ofString "b") (Property.plain .null)
  have hnames₂ := (horder h₁).2.define (Text.ofString "a") (Property.plain .null)
  rw [names_eq ho] at hnames₁
  rw [hnames₁] at hnames₂
  have hown : ∀ q, ((Run.define r (Text.ofString "a") (Property.plain .null)).after
      ((Run.define r (Text.ofString "b") (Property.plain .null)).after w)).own? r (Text.ofString "b") = some q →
        q.configurable = true := by
    intro q hq
    rw [own?_eq (object?_define (object?_define ho _ _) _ _), Object.own?_define_of_ne (by decide),
      Object.own?_define_self] at hq
    exact Option.some.inj hq ▸ rfl
  obtain ⟨w₃, hdelete, hnames₃, -⟩ := (horder h₂).2.delete _ (Text.ofString "b") true hbase hown
  have h₃ := h₂.edit (.delete (Heap.value r) (Text.ofString "b") true hbase)
  rw [Run.after_ok hdelete] at h₃
  have h₄ := h₃.edit (.define (Text.ofString "b") (Property.plain .undefined))
  have hnames₄ := (horder h₃).2.define (Text.ofString "b") (Property.plain .undefined)
  rw [hnames₂] at hnames₃
  rw [hnames₃] at hnames₄
  exact ⟨w, _, _, w₃, _, r, Heap.value r, hreachable, hbase, h₄, hnames₂, hdelete, hnames₃, hnames₄, horder h₄⟩

end World

end RegisterJit
