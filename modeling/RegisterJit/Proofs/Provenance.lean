import RegisterJit.Proofs.Interning

/-!
# Where strings come from

The table of strings is the only source of strings: whatever else yields one hands on what was stored or passed to it.
So a step that starts with strings from the table only stores, yields and throws strings from the table only. Looking
properties up, storing them, converting values and the operators are such steps.

`Knows` says that a table has a text, `Genuine` that a value is no string or comes from the table, and a world
is genuine if all that it stores is. `Honest` is the predicate for steps: started in such a world, they end in
one, and what they yield or throw is genuine. It is closed under sequencing, branching and catching, so the
proof for a function of the runtime follows its text and stops at the functions it calls. `trail` is the case of
looking up along a chain of prototypes, `directOr_known` that of elements. `Possession` goes on with
environments, built-in functions and stubs.
-/

namespace RegisterJit

/-! ## Strings from the table -/

namespace Heap

variable {h h' h'' : Heap} {t : Text} {v : Value}

/-- A value that is no string, or one that the table gave out. -/
def Knows (h : Heap) (v : Value) : Prop := v.isString = true → ∃ t, h.string? t = some v

/-- Strings that were given out last. -/
structure Keeps (h h' : Heap) : Prop where
  string?_eq : ∀ {t : Text} {v : Value}, h.string? t = some v → h'.string? t = some v

theorem Keeps.refl (h : Heap) : h.Keeps h := ⟨id⟩

theorem Keeps.trans (hh : h.Keeps h') (hh' : h'.Keeps h'') : h.Keeps h'' :=
  ⟨fun ht => hh'.string?_eq (hh.string?_eq ht)⟩

theorem keeps_intern (h : Heap) (t : Text) : h.Keeps (h.intern t).2 := ⟨fun ht => string?_intern ht t⟩

theorem keeps_modify (h : Heap) (r : ObjectRef) (f : Object → Object) : h.Keeps (h.modify r f) :=
  ⟨fun ht => (string?_modify h r f _).trans ht⟩

theorem Knows.keep (hv : h.Knows v) (hh : h.Keeps h') : h'.Knows v := fun hstring => by
  obtain ⟨t, ht⟩ := hv hstring
  exact ⟨t, hh.string?_eq ht⟩

theorem knows_of_not_isString (hv : v.isString = false) : h.Knows v := fun hstring => by
  rw [hv] at hstring
  cases hstring

theorem knows_intern (h : Heap) (t : Text) : (h.intern t).2.Knows (h.intern t).1 := fun _ =>
  ⟨t, string?_intern_self h t⟩

theorem forall_mem_pair {u : Value} : (∀ x ∈ [v, u], h.Knows x) ↔ h.Knows v ∧ h.Knows u := by
  rw [List.forall_mem_cons, List.forall_mem_singleton]

/-! ### Values that are no strings -/

theorem knows_of_isNumber (hv : v.isNumber = true) : h.Knows v := knows_of_not_isString (Value.isString_of_isNumber hv)

theorem knows_number (x : Double) : h.Knows (Value.number x) := knows_of_isNumber (Value.isNumber_number x)

theorem knows_ofInt (i : Int) : h.Knows (Value.ofInt i) := knows_of_isNumber (Value.isNumber_ofInt i)

theorem knows_int32 (i : UInt32) : h.Knows (Value.int32 i) := by
  refine knows_of_isNumber (Value.isNumber_iff.2 ?_)
  rw [Value.toNat_int32]
  omega

theorem knows_double (x : Double) : h.Knows (Value.double x) :=
  knows_of_isNumber (Value.isNumber_iff.2 (Value.toNat_double x).1)

theorem knows_ofBool (b : Bool) : h.Knows (Value.ofBool b) := knows_of_not_isString (by cases b <;> rfl)

theorem knows_undefined : h.Knows Value.undefined := knows_of_not_isString rfl

theorem knows_empty : h.Knows Value.empty := knows_of_not_isString rfl

theorem knows_value (r : ObjectRef) : h.Knows (value r) := by
  refine knows_of_not_isString (Bool.eq_false_iff.2 fun hstring => ?_)
  have := (Value.isString_iff.1 hstring).2
  rw [value, Value.object, UInt64.toNat_shiftLeft, Nat.shiftLeft_eq] at this
  change _ * 16 % 2 ^ 64 % 16 = 8 at this
  omega

theorem knows_of_isObject (hv : v.isObject = true) : h.Knows v := by
  refine knows_of_not_isString (Bool.eq_false_iff.2 fun hstring => ?_)
  have := (Value.isString_iff.1 hstring).2
  have := (Value.isObject_iff.1 hv).2
  omega

end Heap

/-! ## What is stored -/

namespace PropertyBody

def values : PropertyBody → List Value
  | .data v _ => [v]
  | .accessor getter setter => [getter, setter]

end PropertyBody

namespace Elements

variable {e : Elements} {v x : Value}

/-- An element, here or at a place that was left behind. -/
def Contains (e : Elements) (v : Value) : Prop := v ∈ e.items ∨ ∃ place ∈ e.outgrown, v ∈ place

theorem Contains.of_reserve {need : Nat} (h : (e.reserve need).Contains v) : e.Contains v := by
  unfold reserve at h
  split at h
  · exact h
  · rcases h with h | ⟨place, hplace, h⟩
    · exact .inl h
    · rcases Array.mem_push.1 hplace with hplace | rfl
      · exact .inr ⟨place, hplace, h⟩
      · exact .inl h

theorem Contains.of_append {vs : Array Value} (h : (e.append vs).Contains v) : e.Contains v ∨ v ∈ vs := by
  rcases h with h | h
  · rw [items_append, Array.mem_append] at h
    exact h.imp_left .inl
  · exact .inl (.of_reserve (.inr h))

theorem Contains.of_setLength {n : Nat} (h : (e.setLength n).Contains v) : e.Contains v ∨ v = Value.empty := by
  unfold setLength at h
  split at h
  · rcases h with h | h
    · obtain ⟨i, _, rfl⟩ := Array.getElem_of_mem h
      rw [Array.getElem_shrink]
      exact .inl (.inl (Array.getElem_mem _))
    · exact .inl (.inr h)
  · exact (of_append h).imp_right Array.eq_of_mem_replicate

theorem Contains.of_set {i : Nat} (h : (e.set i x).Contains v) : e.Contains v ∨ v = x := by
  rcases h with h | h
  · rcases Array.mem_or_eq_of_mem_setIfInBounds h with h | h
    · exact .inl (.inl h)
    · exact .inr h
  · exact .inl (.inr h)

end Elements

namespace Object

variable {o : Object} {v x : Value} {key : Text} {p : Property}

/-- A value that an object has: the primitive that it wraps, an element, or a part of a property. -/
inductive Contains (o : Object) (v : Value) : Prop
  | primitive (h : v = o.primitive.value)
  | element (h : o.elements.Contains v)
  | property {key : Text} {p : Property} (h : (key, p) ∈ o.props) (hv : v ∈ p.body.values)

theorem not_contains_ofClass {cls : ObjectClass} {proto : Option ObjectRef} (h : (ofClass cls proto).Contains v) :
    v = Value.empty := by
  cases h with
  | primitive h => exact h
  | element h =>
    rcases h with h | ⟨_, h, _⟩
    · exact Array.eq_of_mem_replicate h
    · cases Array.not_mem_empty _ h
  | property h => cases h

theorem Contains.of_elements {e : Elements} (h : { o with elements := e }.Contains v) :
    o.Contains v ∨ e.Contains v := by
  cases h with
  | primitive h => exact .inl (.primitive h)
  | element h => exact .inr h
  | property h hv => exact .inl (.property h hv)

theorem mem_put {k : Text} {q : Property} {props : List (Text × Property)} (h : (k, q) ∈ put key p props) :
    (k, q) ∈ props ∨ q = p := by
  induction props with
  | nil =>
    cases List.mem_singleton.1 h
    exact .inr rfl
  | cons first rest ih =>
    rw [put] at h
    split at h
    · rcases List.mem_cons.1 h with heq | h
      · cases heq
        exact .inr rfl
      · exact .inl (List.mem_cons_of_mem _ h)
    · rcases List.mem_cons.1 h with heq | h
      · exact .inl (heq ▸ List.mem_cons_self)
      · exact (ih h).imp_left (List.mem_cons_of_mem _)

theorem Contains.of_define (h : (o.define key p).Contains v) : o.Contains v ∨ v ∈ p.body.values := by
  cases h with
  | primitive h => exact .inl (.primitive h)
  | element h => exact .inl (.element h)
  | property h hv =>
    rcases mem_put h with h | rfl
    · exact .inl (.property h hv)
    · exact .inr hv

theorem Contains.of_remove (h : (o.remove key).Contains v) : o.Contains v := by
  unfold remove at h
  split at h
  · cases h with
    | primitive h => exact .primitive h
    | element h => exact .element h
    | property h hv => exact .property (List.mem_filter.1 h).1 hv
  · exact h

theorem Contains.of_setLength {n : Nat} (h : (o.setLength n).Contains v) : o.Contains v ∨ v = Value.empty := by
  rcases of_elements h with h | h
  · exact .inl h
  · exact h.of_setLength.imp_left .element

theorem Contains.of_setElement {i : Nat} (h : (o.setElement i x).Contains v) :
    o.Contains v ∨ v = Value.empty ∨ v = x := by
  unfold setElement at h
  dsimp only at h
  rcases of_elements h with h | h
  · split at h
    · exact h.of_setLength.imp_right .inl
    · exact .inl h
  · rcases h.of_set with h | h
    · split at h
      · exact (of_setLength (.element h)).imp_right .inl
      · exact .inl (.element h)
    · exact .inr (.inr h)

theorem contains_place {i : Nat} {vs : List Value} {e : Elements} (h : (setElements.place i vs e).Contains v) :
    e.Contains v ∨ v ∈ vs := by
  induction vs generalizing i e with
  | nil => exact .inl h
  | cons x rest ih =>
    rcases ih (e := e.set i x) h with h | h
    · rcases h.of_set with h | rfl
      · exact .inl h
      · exact .inr List.mem_cons_self
    · exact .inr (List.mem_cons_of_mem _ h)

theorem Contains.of_setElements {i : Nat} {vs : List Value} (h : (o.setElements i vs).Contains v) :
    o.Contains v ∨ v = Value.empty ∨ v ∈ vs := by
  unfold setElements at h
  dsimp only at h
  rcases of_elements h with h | h
  · split at h
    · exact h.of_setLength.imp_right .inl
    · exact .inl h
  · rcases contains_place h with h | h
    · split at h
      · exact (of_setLength (.element h)).imp_right .inl
      · exact .inl (.element h)
    · exact .inr (.inr h)

theorem contains_of_own? (h : o.own? key = some p) (hv : v ∈ p.body.values) : o.Contains v := by
  obtain ⟨before, after, hprops, -⟩ := List.lookup_eq_some_iff.1 h
  exact .property (hprops ▸ List.mem_append_right _ List.mem_cons_self) hv

theorem contains_of_element? {i : Nat} (h : o.element? i = some v) : o.Contains v := by
  rw [element?] at h
  cases hitem : o.elements.items[i]? with
  | none =>
    rw [hitem] at h
    cases h
  | some x =>
    rw [hitem] at h
    dsimp only at h
    split at h
    · cases h
    · cases h
      exact .element (.inl (Array.mem_of_getElem? hitem))

end Object

namespace World

variable {w : World} {r : ObjectRef} {v : Value}

/-- A world whose objects and variables have strings from the table only, where no text stands twice. -/
structure Genuine (w : World) : Prop where
  canonical : w.realm.heap.Canonical
  objects : ∀ r v, (w.realm.heap.object r).Contains v → w.realm.heap.Knows v
  cells : ∀ c, w.realm.heap.Knows (w.realm.scopes.cell c).value

theorem Genuine.intern (hw : w.Genuine) (t : Text) : (w.withHeap fun h => (h.intern t).2).Genuine where
  canonical := hw.canonical.intern t
  objects r v hv := by
    have hsame : (w.realm.heap.intern t).2.object r = w.realm.heap.object r := by
      rw [Heap.object, Heap.object, Heap.object?_intern]
    rw [withHeap, hsame] at hv
    exact (hw.objects r v hv).keep (Heap.keeps_intern ..)
  cells c := (hw.cells c).keep (Heap.keeps_intern ..)

theorem Genuine.alloc (hw : w.Genuine) {o : Object} (ho : ∀ v, o.Contains v → w.realm.heap.Knows v) :
    (w.withHeap fun h => (h.alloc o).2).Genuine where
  canonical := hw.canonical
  objects r v hv := by
    rw [withHeap, Heap.object, Heap.object?_alloc] at hv
    split at hv
    · exact ho v hv
    · exact hw.objects r v hv
  cells c := hw.cells c

theorem Genuine.withObject (hw : w.Genuine) {f : Object → Object}
    (hf : ∀ v, (f (w.realm.heap.object r)).Contains v → (w.realm.heap.object r).Contains v ∨ w.realm.heap.Knows v) :
    (w.withObject r f).Genuine where
  canonical := by
    have hstrings : (w.realm.heap.modify r f).strings = w.realm.heap.strings := by
      unfold Heap.modify
      split <;> rfl
    intro i j t hi hj
    rw [World.withObject, World.withHeap, Heap.textAt?, hstrings] at hi hj
    exact hw.canonical i j t hi hj
  objects q v hv := by
    refine Heap.Knows.keep ?_ (Heap.keeps_modify ..)
    change (((w.realm.heap.modify r f).object q).Contains v) at hv
    by_cases hr : w.realm.heap.Has r
    · by_cases hq : r = q
      · subst hq
        rw [hr.object_modify] at hv
        exact (hf v hv).elim (hw.objects r v) id
      · rw [Heap.object_modify_of_ne hq] at hv
        exact hw.objects q v hv
    · rw [Heap.modify_of_not_has hr] at hv
      exact hw.objects q v hv
  cells c := (hw.cells c).keep (Heap.keeps_modify ..)

theorem Genuine.withScopes (hw : w.Genuine) {f : Scopes → Scopes}
    (hf : ∀ c, w.realm.heap.Knows ((f w.realm.scopes).cell c).value) : (w.withScopes f).Genuine :=
  ⟨hw.canonical, hw.objects, hf⟩

theorem Genuine.knows_of_found (hw : w.Genuine) {key : Text} {owner : ObjectRef} {p : Property}
    (h : w.realm.heap.find? r key = some (.property owner p)) (hv : v ∈ p.body.values) : w.realm.heap.Knows v :=
  hw.objects owner v (Object.contains_of_own? (Heap.own?_of_find? h) hv)

theorem Genuine.knows_of_found_element (hw : w.Genuine) {key : Text}
    (h : w.realm.heap.find? r key = some (.element v)) : w.realm.heap.Knows v := by
  obtain ⟨⟨q, o⟩, hmem, hfound⟩ := List.exists_of_findSome?_eq_some h
  change Heap.findOwn? q o key = _ at hfound
  rw [Heap.findOwn?] at hfound
  split at hfound
  · split at hfound
    · exact Heap.Found.element.inj (Option.some.inj hfound) ▸ Heap.knows_number _
    · split at hfound
      · next x hx =>
        obtain rfl : x = v := Heap.Found.element.inj (Option.some.inj hfound)
        obtain ⟨i, -, hi⟩ := Option.bind_eq_some_iff.1 hx
        exact hw.objects q x (Heap.object_of_mem_chainFrom hmem ▸ Object.contains_of_element? hi)
      · obtain ⟨_, _, heq⟩ := Option.map_eq_some_iff.1 hfound
        cases heq
  · obtain ⟨_, _, heq⟩ := Option.map_eq_some_iff.1 hfound
    cases heq

end World

/-! ## Steps that use strings from the table only -/

/-- What is thrown is no string, or one that the table gave out. -/
def Fault.Known (h : Heap) : Fault → Prop
  | .thrown v _ => h.Knows v
  | _ => True

namespace Run

variable {α β : Type} {w w' : World} {x : Run α} {f : α → Run β} {good : Heap → α → Prop} {fine : Heap → β → Prop}

/-- What comes of such a step. -/
def Outcome (good : Heap → α → Prop) (w : World) : EStateM.Result Fault World α → Prop
  | .ok a w' => w.realm.heap.Keeps w'.realm.heap ∧ w'.Genuine ∧ good w'.realm.heap a
  | .error e w' => w.realm.heap.Keeps w'.realm.heap ∧ w'.Genuine ∧ e.Known w'.realm.heap

/-- A step that stores and throws strings from the table only, and yields what is good. -/
structure Honest (good : Heap → α → Prop) (x : Run α) (w : World) : Prop where
  outcome : w.Genuine → Outcome good w (x w)

/-- Such a step whose result is no value. -/
abbrev Clean (x : Run α) (w : World) : Prop := Honest (fun _ _ => True) x w

/-- Such a step that yields a value. -/
abbrev Known (x : Run Value) (w : World) : Prop := Honest Heap.Knows x w

namespace Honest

theorem pure {a : α} (ha : good w.realm.heap a) : Honest good (pure a : Run α) w :=
  ⟨fun hw => ⟨.refl _, hw, ha⟩⟩

theorem throw {e : Fault} (he : e.Known w.realm.heap) : Honest good (throw e : Run α) w :=
  ⟨fun hw => ⟨.refl _, hw, he⟩⟩

/-- Steps one after the other; what the first one does may be used for the second. -/
theorem trail (hx : Honest good x w)
    (hf : ∀ a w', x w = .ok a w' → w.realm.heap.Keeps w'.realm.heap → good w'.realm.heap a → Honest fine (f a) w') :
    Honest fine (x >>= f) w := by
  refine ⟨fun hw => ?_⟩
  have hfirst := hx.outcome hw
  cases h : x w with
  | ok a w' =>
    rw [h] at hfirst
    obtain ⟨hkeeps, hw', ha⟩ := hfirst
    rw [bind_ok h]
    have hsecond := (hf a w' h hkeeps ha).outcome hw'
    cases h' : f a w' with
    | ok b w₂ =>
      rw [h'] at hsecond
      exact ⟨hkeeps.trans hsecond.1, hsecond.2⟩
    | error e w₂ =>
      rw [h'] at hsecond
      exact ⟨hkeeps.trans hsecond.1, hsecond.2⟩
  | error e w' =>
    rw [h] at hfirst
    rw [bind_error h]
    exact hfirst

theorem bind (hx : Honest good x w)
    (hf : ∀ a w', w.realm.heap.Keeps w'.realm.heap → good w'.realm.heap a → Honest fine (f a) w') :
    Honest fine (x >>= f) w := hx.trail fun a w' _ => hf a w'

theorem next (hx : Clean x w) (hf : ∀ a w', w.realm.heap.Keeps w'.realm.heap → Honest fine (f a) w') :
    Honest fine (x >>= f) w := hx.bind fun a w' hkeeps _ => hf a w' hkeeps

theorem read {a : α} (hx : x w = .ok a w) (hf : w.Genuine → Honest fine (f a) w) : Honest fine (x >>= f) w :=
  ⟨fun hw => by
    rw [bind_ok hx]
    exact (hf hw).outcome hw⟩

theorem of_eq {y : Run α} (h : x w = y w) (hy : Honest good y w) : Honest good x w :=
  ⟨fun hw => by
    rw [h]
    exact hy.outcome hw⟩

theorem mono {good' : Heap → α → Prop} (hx : Honest good x w) (h : ∀ h a, good h a → good' h a) :
    Honest good' x w := by
  refine ⟨fun hw => ?_⟩
  have houtcome := hx.outcome hw
  cases hrun : x w with
  | ok a w' =>
    rw [hrun] at houtcome
    exact ⟨houtcome.1, houtcome.2.1, h _ _ houtcome.2.2⟩
  | error e w' =>
    rw [hrun] at houtcome
    exact houtcome

theorem after (hx : Honest good x w) (hw : w.Genuine) : (x.after w).Genuine := by
  have houtcome := hx.outcome hw
  rw [Run.after]
  cases hrun : x w with
  | ok a w' =>
    rw [hrun] at houtcome
    exact houtcome.2.1
  | error e w' =>
    rw [hrun] at houtcome
    exact houtcome.2.1

theorem clean (hx : Honest good x w) : Clean x w := hx.mono fun _ _ _ => trivial

theorem map {g : α → β} (hx : Honest good x w) (hg : ∀ h a, good h a → fine h (g a)) : Honest fine (g <$> x) w :=
  hx.bind (f := fun a => Pure.pure (g a)) fun _ _ _ ha => .pure (hg _ _ ha)

theorem heap {f : Heap → Run β} (h : w.Genuine → Honest fine (f w.realm.heap) w) : Honest fine (heap >>= f) w :=
  .read rfl h

theorem realm {f : Realm → Run β} (h : w.Genuine → Honest fine (f w.realm) w) : Honest fine (realm >>= f) w :=
  .read rfl h

theorem machine {f : Machine → Run β} (h : Honest fine (f w.machine) w) : Honest fine (machine >>= f) w :=
  .read rfl fun _ => h

theorem forM {f : α → Run PUnit} (hf : ∀ a w', w.realm.heap.Keeps w'.realm.heap → Clean (f a) w') (xs : List α) :
    Clean (xs.forM f) w := by
  induction xs generalizing w with
  | nil => exact .pure trivial
  | cons a rest ih =>
    exact .next (hf a w (.refl _)) fun _ w' hkeeps => ih fun a w'' hkeeps' => hf a w'' (hkeeps.trans hkeeps')

end Honest

/-- What comes of a step that was tried. -/
def Tried (good : Heap → α → Prop) (h : Heap) : Except Fault α → Prop
  | .ok a => good h a
  | .error e => e.Known h

theorem attempt_honest (hx : Honest good x w) : Honest (Tried good) (attempt x) w := by
  refine ⟨fun hw => ?_⟩
  have houtcome := hx.outcome hw
  unfold attempt
  cases hrun : x w with
  | ok a w' =>
    rw [hrun] at houtcome
    exact houtcome
  | error e w' =>
    rw [hrun] at houtcome
    dsimp only
    split
    · exact houtcome
    · exact houtcome

/-! ## Changes of the world -/

section

variable {r : ObjectRef} {v : Value}

theorem intern_known (t : Text) : Known (intern t) w :=
  ⟨fun hw => ⟨Heap.keeps_intern .., hw.intern t, Heap.knows_intern w.realm.heap t⟩⟩

theorem internPrimitive_known (t : Text) : Honest (fun h p => h.Knows p.value) (internPrimitive t) w :=
  ⟨fun hw => ⟨Heap.keeps_intern .., hw.intern t, Heap.knows_intern w.realm.heap t⟩⟩

theorem alloc_clean {o : Object} (ho : ∀ v, o.Contains v → w.realm.heap.Knows v) : Clean (alloc o) w :=
  ⟨fun hw => ⟨⟨id⟩, hw.alloc ho, trivial⟩⟩

theorem allocClass_clean (cls : ObjectClass) (proto : Option ObjectRef) : Clean (alloc (Object.ofClass cls proto)) w :=
  alloc_clean fun _ hv => Object.not_contains_ofClass hv ▸ Heap.knows_empty

theorem modifyObject_clean {f : Object → Object} (hf : w.Genuine → ∀ v, (f (w.realm.heap.object r)).Contains v →
    (w.realm.heap.object r).Contains v ∨ w.realm.heap.Knows v) : Clean (modifyObject r f) w :=
  ⟨fun hw => ⟨Heap.keeps_modify .., hw.withObject (hf hw), trivial⟩⟩

theorem define_clean {key : Text} {p : Property} (hp : ∀ v ∈ p.body.values, w.realm.heap.Knows v) :
    Clean (define r key p) w :=
  modifyObject_clean fun _ v hv => hv.of_define.imp_right (hp v)

theorem defineData_clean {key : Text} {writable enumerable configurable : Bool} (hv : w.realm.heap.Knows v) :
    Clean (define r key ⟨.data v writable, enumerable, configurable⟩) w :=
  define_clean (List.forall_mem_singleton.2 hv)

theorem setLength_clean (r : ObjectRef) (length : Object → Nat) :
    Clean (modifyObject r fun o => o.setLength (length o)) w := by
  refine modifyObject_clean fun _ x hx => hx.of_setLength.imp_right ?_
  rintro rfl
  exact Heap.knows_empty

theorem modifyMachine_clean (f : Machine → Machine) : Clean (modifyMachine f) w :=
  ⟨fun hw => ⟨.refl _, ⟨hw.canonical, hw.objects, hw.cells⟩, trivial⟩⟩

theorem printLine_clean (t : Text) : Clean (printLine t) w :=
  ⟨fun hw => ⟨.refl _, ⟨hw.canonical, hw.objects, hw.cells⟩, trivial⟩⟩

theorem newObject_clean : Clean newObject w := .realm fun _ => allocClass_clean _ _

theorem newArray_clean (n : Nat) : Clean (newArray n) w := by
  refine .realm fun _ => alloc_clean fun v hv => ?_
  rcases hv.of_elements with hv | hv
  · exact Object.not_contains_ofClass hv ▸ Heap.knows_empty
  · rcases hv with hv | ⟨_, hplace, _⟩
    · exact Array.eq_of_mem_replicate hv ▸ Heap.knows_empty
    · cases Array.not_mem_empty _ hplace

/-! ## Looking things up -/

theorem object_honest {f : Object → Run β}
    (hf : w.Genuine → (∀ v, (w.realm.heap.object r).Contains v → w.realm.heap.Knows v) →
      Honest fine (f (w.realm.heap.object r)) w) : Honest fine (object r >>= f) w := by
  cases ho : w.realm.heap.object? r with
  | none =>
    refine ⟨fun hw => ?_⟩
    rw [bind_error (object_of_none ho)]
    exact ⟨.refl _, hw, trivial⟩
  | some o =>
    refine .read (object_of_some ho) fun hw => ?_
    rw [← Heap.object_eq ho]
    exact hf hw (hw.objects r)

theorem refOrCrash_clean (v : Value) : Clean (refOrCrash v) w := by
  refine .heap fun _ => ?_
  split
  · exact .pure trivial
  · exact .throw trivial

theorem protoOf_clean (v : Value) : Clean (protoOf v) w := by
  unfold protoOf
  split
  · exact refOrCrash_clean v
  · exact .realm fun _ => .pure trivial

theorem textOrCrash_clean (v : Value) : Clean (textOrCrash v) w := by
  refine .heap fun _ => ?_
  split
  · exact .pure trivial
  · exact .throw trivial

theorem newError_clean (proto : ObjectRef) (message : Text) : Clean (newError proto message) w := by
  refine .next (allocClass_clean _ _) fun r w₁ _ => ?_
  dsimp only
  split
  · exact .bind (intern_known _) fun v w₂ _ hv => .next (defineData_clean hv) fun _ _ _ => .pure trivial
  · exact .pure trivial

theorem raise_honest (kind : ErrorKind) (message : Text) : Honest good (raise kind message : Run α) w :=
  .realm fun _ => .next (protoOf_clean _) fun _ _ _ => .next (newError_clean _ _) fun _ _ _ =>
    .heap fun _ => .throw (Heap.knows_value _)

theorem internalError_honest (message : Text) : Honest good (internalError message : Run α) w := .throw trivial

theorem raise_next_honest (kind : ErrorKind) (message : Text) (f : α → Run β) :
    Honest fine (raise kind message >>= f) w := by
  have hraise : Honest (fun _ _ => False) (raise kind message : Run α) w := raise_honest kind message
  exact hraise.bind fun _ _ _ h => h.elim

theorem internalError_next_honest (message : Text) (f : α → Run β) : Honest fine (internalError message >>= f) w := by
  have herror : Honest (fun _ _ => False) (internalError message : Run α) w := internalError_honest message
  exact herror.bind fun _ _ _ h => h.elim

end

end Run

/-- What calls functions and converts objects with strings from the table only. -/
structure Evaluator.Honest (ev : Evaluator) : Prop where
  call : ∀ {fn this : Value} {args : List Value} {w : World}, w.realm.heap.Knows fn → w.realm.heap.Knows this →
    (∀ v ∈ args, w.realm.heap.Knows v) → Run.Known (ev.call fn this args) w
  toPrimitive : ∀ {v : Value} {hint : Hint} {w : World}, w.realm.heap.Knows v →
    Run.Honest (fun h p => h.Knows p.value) (ev.toPrimitive v hint) w
  display : ∀ {v : Value} {w : World}, Run.Clean (ev.display v) w

namespace Run

variable {α β : Type} {w w' : World} {good : Heap → α → Prop} {ev : Evaluator} {r : ObjectRef} {v : Value}

/-! ## Conversions -/

section

variable (hev : ev.Honest)

include hev

theorem toNumber_clean (v : Value) : Clean (toNumber ev v) w := by
  unfold toNumber
  dsimp only
  split
  · next hv =>
    exact .next (.map (hev.toPrimitive (Heap.knows_of_isObject hv)) fun _ _ _ => trivial) fun _ _ _ =>
      .heap fun _ => .pure trivial
  · exact .read rfl fun _ => .heap fun _ => .pure trivial

theorem toText_clean (v : Value) : Clean (toText ev v) w := by
  unfold toText
  dsimp only
  split
  · next hv =>
    exact .next (.map (hev.toPrimitive (Heap.knows_of_isObject hv)) fun _ _ _ => trivial) fun _ _ _ =>
      .heap fun _ => .pure trivial
  · exact .read rfl fun _ => .heap fun _ => .pure trivial

theorem propertyKey_clean (v : Value) : Clean (propertyKey ev v) w := by
  unfold propertyKey
  split
  · exact .pure trivial
  · exact toText_clean hev v

theorem elementTexts_clean (r : ObjectRef) (generation count i : Nat) (done : List Text) :
    Clean (elementTexts ev r generation count i done) w := by
  induction count generalizing i done w with
  | zero => exact .pure trivial
  | succ count ih =>
    refine object_honest fun _ _ => ?_
    dsimp only
    split
    · exact ih _ _
    · exact .next (toText_clean hev _) fun _ _ _ => ih _ _

theorem join_clean (r : ObjectRef) (sep : Text) : Clean (join ev r sep) w :=
  object_honest fun _ _ => .next (elementTexts_clean hev _ _ _ _ _) fun _ _ _ => .pure trivial

omit hev in
theorem classText_clean (o : Object) : Clean (classText o) w := by
  unfold classText
  split
  · exact .pure trivial
  · exact .heap fun _ => .pure trivial

theorem defaultText_clean (r : ObjectRef) : Clean (defaultText ev r) w := by
  refine object_honest fun _ _ => ?_
  split
  · refine .next (attempt_honest (join_clean hev _ _)).clean fun t w₁ _ => ?_
    split
    · exact .pure trivial
    · exact classText_clean _
  · exact .pure trivial
  · exact .heap fun _ => .pure trivial
  · exact .heap fun _ => .pure trivial
  · exact classText_clean _

theorem displayWith_clean (v : Value) : Clean (displayWith ev v) w := by
  unfold displayWith
  split
  · exact defaultText_clean hev _
  · exact .heap fun _ => .pure trivial

/-! ## Properties -/

theorem get_known (r : ObjectRef) (key : Text) {receiver : Value} (hreceiver : w.realm.heap.Knows receiver) :
    Known (get ev r key receiver) w := by
  refine .heap fun hw => ?_
  split
  · exact .pure Heap.knows_undefined
  · next hfound => exact .pure (hw.knows_of_found_element hfound)
  · next owner p hfound =>
    split
    · next hbody => exact .pure (hw.knows_of_found hfound (hbody ▸ List.mem_singleton_self _))
    · next hbody =>
      split
      · exact .pure Heap.knows_undefined
      · exact hev.call (hw.knows_of_found hfound (hbody ▸ List.mem_cons_self)) hreceiver nofun

theorem getProperty_known {base : Value} (key : Text) (hbase : w.realm.heap.Knows base) :
    Known (getProperty ev base key) w := by
  unfold getProperty
  dsimp only
  split
  · exact .next (refOrCrash_clean _) fun _ _ hkeeps => get_known hev _ _ (hbase.keep hkeeps)
  · split
    · refine .read rfl fun _ => ?_
      split
      · exact .pure (Heap.knows_ofInt _)
      · split
        · exact intern_known _
        · exact .realm fun _ => get_known hev _ _ hbase
    · split
      · exact .heap fun _ => raise_honest _ _
      · exact .realm fun _ => get_known hev _ _ hbase

theorem byMethod_known {name : Text} {otherwise : Run Primitive} (hv : w.realm.heap.Knows v)
    (h : ∀ w', w.realm.heap.Keeps w'.realm.heap → Honest (fun h p => h.Knows p.value) otherwise w') :
    Honest (fun h p => h.Knows p.value) (byMethod ev v name otherwise) w := by
  refine .bind (getProperty_known hev _ hv) fun fn w₁ hkeeps hfn => .read rfl fun _ => ?_
  split
  · refine .bind (hev.call hfn (hv.keep hkeeps) (by simp)) fun result w₂ hkeeps' hresult => ?_
    split
    · exact h _ (hkeeps.trans hkeeps')
    · exact .pure hresult
  · exact h _ hkeeps

theorem fallbackPrimitive_known (r : ObjectRef) {o : Object} (ho : w.realm.heap.Knows o.primitive.value) (hint : Hint) :
    Honest (fun h p => h.Knows p.value) (fallbackPrimitive ev r o hint) w := by
  unfold fallbackPrimitive
  split
  · exact .pure ho
  · exact .next (defaultText_clean hev _) fun _ _ _ => internPrimitive_known _

theorem toPrimitiveWith_known (hv : w.realm.heap.Knows v) (hint : Hint) :
    Honest (fun h p => h.Knows p.value) (toPrimitiveWith ev v hint) w := by
  unfold toPrimitiveWith
  split
  · exact .pure hv
  · next r _ =>
    refine object_honest fun _ ho => ?_
    dsimp only
    have hfallback {w' w'' : World} (hkeeps : w.realm.heap.Keeps w'.realm.heap)
        (hkeeps' : w'.realm.heap.Keeps w''.realm.heap) :=
      fallbackPrimitive_known hev r ((ho _ (.primitive rfl)).keep (hkeeps.trans hkeeps')) hint
    split
    · exact byMethod_known hev hv fun w' hkeeps => byMethod_known hev (hv.keep hkeeps) fun w'' hkeeps' =>
        hfallback hkeeps hkeeps'
    · exact byMethod_known hev hv fun w' hkeeps => byMethod_known hev (hv.keep hkeeps) fun w'' hkeeps' =>
        hfallback hkeeps hkeeps'

end

theorem toObject_clean (hv : w.realm.heap.Knows v) : Clean (toObject v) w := by
  unfold toObject
  split
  · exact refOrCrash_clean v
  · split
    · exact .heap fun _ => raise_honest _ _
    · refine .next newObject_clean fun r w₁ hkeeps => ?_
      refine .next (modifyObject_clean fun _ x hx => ?_) fun _ w₂ _ => ?_
      · cases hx with
        | primitive h => exact .inr (h ▸ hv.keep hkeeps)
        | element h => exact .inl (.element h)
        | property h hx => exact .inl (.property h hx)
      · dsimp only
        split
        · exact .read rfl fun _ => .next (.forM (fun c w' _ => .bind (intern_known _) fun _ _ _ hx =>
            defineData_clean hx) _) fun _ _ _ => .pure trivial
        · exact .pure trivial

section

variable (hev : ev.Honest)

include hev

theorem putNamed_clean (r : ObjectRef) {base : Value} (key : Text) (strict : Bool)
    (hbase : w.realm.heap.Knows base) (hv : w.realm.heap.Knows v) : Clean (putNamed ev r base key v strict) w := by
  refine .heap fun hw => ?_
  split
  · next owner p hfound =>
    split
    · next hbody =>
      split
      · split
        · exact raise_honest _ _
        · exact .pure trivial
      · refine .bind (hev.call (hw.knows_of_found hfound (hbody ▸ ?_)) hbase (List.forall_mem_singleton.2 hv))
          fun _ _ _ _ => .pure trivial
        exact List.mem_cons_of_mem _ (List.mem_singleton_self _)
    · split
      · split
        · exact raise_honest _ _
        · exact .pure trivial
      · split
        · exact defineData_clean hv
        · exact defineData_clean hv
  · exact defineData_clean hv

theorem putLength_clean (r : ObjectRef) (v : Value) : Clean (putLength ev r v) w := by
  refine .next (toNumber_clean hev _) fun n w₁ _ => ?_
  split
  · exact setLength_clean r fun _ => n.toUInt32.toNat
  · exact raise_honest _ _

theorem putProperty_clean {base : Value} (key : Text) (strict : Bool) (hbase : w.realm.heap.Knows base)
    (hv : w.realm.heap.Knows v) : Clean (putProperty ev base key v strict) w := by
  unfold putProperty
  dsimp only
  split
  · exact .heap fun _ => raise_next_honest _ _ _
  · split
    · split
      · exact .heap fun _ => raise_honest _ _
      · exact .pure trivial
    · refine object_honest fun _ _ => ?_
      split
      · exact putLength_clean hev _ _
      · split
        · split
          · refine modifyObject_clean fun _ x hx => hx.of_setElement.imp_right ?_
            rintro (rfl | rfl)
            · exact Heap.knows_empty
            · exact hv
          · exact putNamed_clean hev _ _ _ hbase hv
        · exact putNamed_clean hev _ _ _ hbase hv

omit hev in
theorem deleteProperty_clean (base : Value) (key : Text) (strict : Bool) :
    Clean (deleteProperty base key strict) w := by
  unfold deleteProperty
  dsimp only
  split
  · exact .heap fun _ => raise_next_honest _ _ _
  · split
    · exact .pure trivial
    · refine object_honest fun _ _ => ?_
      split
      · split
        · exact raise_honest _ _
        · exact .pure trivial
      · split
        · refine .next (modifyObject_clean fun _ x hx => ?_) fun _ _ _ => .pure trivial
          rcases hx.of_elements with hx | hx
          · exact .inl hx
          · rcases hx.of_set with hx | rfl
            · exact .inl (.element hx)
            · exact .inr Heap.knows_empty
        · split
          · exact .pure trivial
          · split
            · exact .next (modifyObject_clean fun _ x hx => .inl hx.of_remove) fun _ _ _ => .pure trivial
            · split
              · exact raise_honest _ _
              · exact .pure trivial

/-- A computed property that was found directly, or is looked up by its key. -/
theorem directOr_known {base : Value} (element : Value) (direct : Option Value) (hbase : w.realm.heap.Knows base) :
    (∀ v, direct = some v → w.realm.heap.Knows v) → Known (match direct with
      | some v => (return v : Run Value)
      | none => do getProperty ev base (← propertyKey ev element)) w := by
  intro hdirect
  cases direct with
  | some v => exact .pure (hdirect v rfl)
  | none => exact .next (propertyKey_clean hev _) fun _ _ hkeeps => getProperty_known hev _ (hbase.keep hkeeps)

theorem loadElement_known {base : Value} (element : Value) (hbase : w.realm.heap.Knows base) :
    Known (loadElement ev base element) w := by
  unfold loadElement
  split
  · split
    · refine object_honest fun _ ho => .read rfl fun _ => directOr_known hev _ _ hbase fun v hv => ?_
      split at hv
      · exact ho v (Object.contains_of_element? hv)
      · cases hv
    · exact .read rfl fun _ => directOr_known hev _ none hbase fun v hv => by cases hv
  · exact .read rfl fun _ => directOr_known hev _ none hbase fun v hv => by cases hv

theorem stepNumber_known (old : Value) (mode : UInt64) :
    Honest (fun h p => h.Knows p.1 ∧ h.Knows p.2) (stepNumber ev old mode) w := by
  refine .next (toNumber_clean hev _) fun n _ _ => .pure ⟨Heap.knows_number _, ?_⟩
  dsimp only
  split <;> exact Heap.knows_number _

theorem stepProperty_known {base : Value} (key : Text) (mode : UInt64) (hbase : w.realm.heap.Knows base) :
    Known (stepProperty ev base key mode) w :=
  .next (getProperty_known hev _ hbase).clean fun _ _ hkeeps => .bind (stepNumber_known hev _ _) fun _ _ hkeeps' hp =>
    .next (putProperty_clean hev _ _ (hbase.keep (hkeeps.trans hkeeps')) hp.1) fun _ _ hkeeps'' =>
      .pure (hp.2.keep hkeeps'')

end

/-- The accessor that a getter or setter makes, beside the other half of a known one. -/
theorem knows_storedHalf (part : PropertyPart) {getter setter : Value} (hv : w.realm.heap.Knows v)
    (hg : w.realm.heap.Knows getter) (hs : w.realm.heap.Knows setter) :
    ∀ x ∈ (match part with
      | .getter => PropertyBody.accessor v setter
      | _ => PropertyBody.accessor getter v).values, w.realm.heap.Knows x := by
  split
  · exact Heap.forall_mem_pair.2 ⟨hv, hs⟩
  · exact Heap.forall_mem_pair.2 ⟨hg, hv⟩

theorem storeObject_clean (part : PropertyPart) (r : ObjectRef) (name : Text) (merged : Bool)
    (hv : w.realm.heap.Knows v) : Clean (storeObject part r name v merged) w := by
  have hempty : w.realm.heap.Knows Value.empty := Heap.knows_empty
  have hpart {getter setter : Value} (hg : w.realm.heap.Knows getter) (hs : w.realm.heap.Knows setter) :=
    knows_storedHalf part hv hg hs
  unfold storeObject
  split
  · exact defineData_clean hv
  · refine object_honest fun _ ho => define_clean ?_
    dsimp only
    cases hown : (w.realm.heap.object r).own? name with
    | none => exact hpart hempty hempty
    | some p =>
      cases merged with
      | false => exact hpart hempty hempty
      | true =>
        cases hbody : p.body with
        | data =>
          simp only [if_true, hbody]
          exact hpart hempty hempty
        | accessor getter setter =>
          simp only [if_true, hbody]
          have hhalves := fun x hx => ho x (Object.contains_of_own? hown (hbody ▸ hx))
          exact hpart (hhalves _ List.mem_cons_self) (hhalves _ (List.mem_cons_of_mem _ (List.mem_singleton_self _)))

/-! ## Loops over keys -/

theorem enumerate_known (hv : w.realm.heap.Knows v) : Known (enumerate v) w := by
  refine .next (toObject_clean hv) fun r w₁ _ => .heap fun _ => ?_
  refine .next (alloc_clean fun x hx => ?_) fun _ _ _ => .pure (Heap.knows_value _)
  have hplain : (Object.ofClass .iterator none).Contains x := by
    cases hx with
    | primitive h => exact .primitive h
    | element h => exact .element h
    | property h hx => exact .property h hx
  exact Object.not_contains_ofClass hplain ▸ Heap.knows_empty

theorem modifyEnumeration_clean (r : ObjectRef) (e : Option Enumeration) :
    Clean (modifyObject r fun o => { o with enumeration := e }) w := by
  refine modifyObject_clean fun _ x hx => .inl ?_
  cases hx with
  | primitive h => exact .primitive h
  | element h => exact .element h
  | property h hx => exact .property h hx

theorem nextKey_known (v : Value) : Known (nextKey v) w := by
  refine .next (refOrCrash_clean v) fun r w₁ _ => object_honest fun _ _ => ?_
  split
  · exact .throw trivial
  · refine .heap fun _ => .next (modifyEnumeration_clean _ _) fun _ w₂ _ => ?_
    split
    · exact .pure Heap.knows_empty
    · exact intern_known _

theorem endEnumeration_clean (v : Value) : Clean (endEnumeration v) w := by
  unfold endEnumeration
  split
  · exact modifyEnumeration_clean _ _
  · exact .pure trivial

/-! ## Operators -/

theorem knows_arithmetic {h : Heap} {op : BinaryOp} {x y : Double} (hv : arithmetic? op x y = some v) : h.Knows v := by
  cases op with
  | subtract | multiply | divide | modulo | shiftRightLogical => exact Option.some.inj hv ▸ Heap.knows_number _
  | shiftLeft | bitAnd | bitXor | bitOr => exact Option.some.inj hv ▸ Heap.knows_int32 _
  | shiftRight => exact Option.some.inj hv ▸ Heap.knows_ofInt _
  | add | compare | instanceOf | memberOf => exact absurd hv (Option.some_ne_none v).symm

section

variable (hev : ev.Honest)

include hev

theorem looseEquals_clean (a b : Value) (w : World) : Clean (looseEquals ev a b) w := by
  rw [looseEquals_eq]
  refine .heap fun _ => ?_
  split
  · exact .pure trivial
  · next hs =>
    have := Heap.looseRank_of_replace hs
    exact looseEquals_clean _ _ _
  · next hs =>
    exact .next (hev.toPrimitive (Heap.knows_of_isObject (Heap.isObject_of_convert.1 hs))).clean fun p _ _ =>
      have := Heap.looseRank_of_convertLeft hs p
      looseEquals_clean _ _ _
  · next hs =>
    exact .next (hev.toPrimitive (Heap.knows_of_isObject (Heap.isObject_of_convert.2 hs))).clean fun p _ _ =>
      have := Heap.looseRank_of_convertRight hs p
      looseEquals_clean _ _ _
termination_by Heap.looseRank a + Heap.looseRank b

section

variable {a b : Value} (ha : w.realm.heap.Knows a) (hb : w.realm.heap.Knows b)

include ha hb

theorem add_known : Known (add ev a b) w := by
  unfold add
  split
  · exact .pure (Heap.knows_number _)
  · refine .next (hev.toPrimitive ha).clean fun _ _ hkeeps => .next (hev.toPrimitive (hb.keep hkeeps)).clean
      fun _ _ _ => .heap fun _ => ?_
    split
    · exact intern_known _
    · exact .pure (Heap.knows_number _)

theorem lessThan_clean (leftFirst : Bool) : Clean (lessThan ev a b leftFirst) w := by
  cases leftFirst with
  | true =>
    exact .next (hev.toPrimitive ha).clean fun _ _ hkeeps => .next (hev.toPrimitive (hb.keep hkeeps)).clean
      fun _ _ _ => .heap fun _ => .pure trivial
  | false =>
    exact .next (hev.toPrimitive hb).clean fun _ _ hkeeps => .next (hev.toPrimitive (ha.keep hkeeps)).clean
      fun _ _ _ => .heap fun _ => .pure trivial

theorem compare_clean (c : Comparison) : Clean (compare ev c a b) w := by
  cases c with
  | lt | gte => exact .next (lessThan_clean hev ha hb _) fun _ _ _ => .pure trivial
  | gt | lte => exact .next (lessThan_clean hev hb ha _) fun _ _ _ => .pure trivial
  | eq => exact looseEquals_clean hev _ _ _
  | ne => exact .next (looseEquals_clean hev _ _ _) fun _ _ _ => .pure trivial
  | strictEq | strictNe => exact .pure trivial

omit ha in
theorem instanceOf_clean : Clean (instanceOf ev a b) w := by
  refine .read rfl fun _ => ?_
  dsimp only
  split
  · exact raise_next_honest _ _ _
  · split
    · exact .pure trivial
    · refine .next (getProperty_known hev _ hb).clean fun proto w₁ _ => ?_
      split
      · exact raise_honest _ _
      · exact .heap fun _ => .pure trivial

omit ha hb in
theorem memberOf_clean (key container : Value) : Clean (memberOf ev key container) w := by
  unfold memberOf
  split
  · exact .heap fun _ => raise_honest _ _
  · exact .next (propertyKey_clean hev _) fun _ _ _ => .heap fun _ => .pure trivial

theorem binary_known (op : BinaryOp) : Known (binary ev op a b) w := by
  unfold binary
  split
  · exact add_known hev ha hb
  · exact .next (compare_clean hev ha hb _) fun _ _ _ => .pure (Heap.knows_ofBool _)
  · exact .next (instanceOf_clean hev hb) fun _ _ _ => .pure (Heap.knows_ofBool _)
  · exact .next (memberOf_clean hev _ _) fun _ _ _ => .pure (Heap.knows_ofBool _)
  · refine .next (toNumber_clean hev _) fun x _ _ => .next (toNumber_clean hev _) fun y _ _ => ?_
    split
    · next v hv => exact .pure (knows_arithmetic hv)
    · exact .throw trivial

end

theorem unaryStub_known (s : Stub) (hv : w.realm.heap.Knows v) : Known (unaryStub ev s v) w := by
  unfold unaryStub
  split
  · exact .heap fun _ => .pure (Heap.knows_ofBool _)
  · exact .heap fun _ => .pure (Heap.knows_ofBool _)
  · exact .heap fun _ => intern_known _
  · exact .next (hev.toPrimitive hv).clean fun _ _ _ => .heap fun _ => intern_known _
  · refine .next (toNumber_clean hev _) fun n _ _ => ?_
    split
    · exact .pure (Heap.knows_number _)
    · exact .pure (Heap.knows_number _)
    · exact .pure (Heap.knows_number _)
    · exact .pure (Heap.knows_int32 _)
    · exact .pure (Heap.knows_number _)
    · exact .pure (Heap.knows_number _)
    · exact internalError_honest _

theorem concatFrom_clean (done : List Text) (vs : List Value) : Clean (concatFrom ev done vs) w := by
  induction vs generalizing done w with
  | nil => exact .pure trivial
  | cons v rest ih => exact .next (toText_clean hev _) fun _ _ _ => ih _

theorem concat_known (vs : List Value) : Known (concat ev vs) w :=
  .next (concatFrom_clean hev _ _) fun _ _ _ => intern_known _

end

end Run

end RegisterJit
