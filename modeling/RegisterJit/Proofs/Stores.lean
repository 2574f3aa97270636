import RegisterJit.Proofs.Conduct
import RegisterJit.Proofs.Indices

/-!
# What a store does

A store under the name of a property ends in one of three ways: it calls a setter, it is refused by a property
that cannot be assigned, or it gives its object a property with the value. A deletion drops a property or
refuses to. Nothing else that exists changes, also when an error is raised.

`Stored` lists the ways in which a store under the name of a property ends, `Dropped` those of a deletion, with
the world that each of them leaves. They hold of the functions of the runtime whatever their strictness, by
cases on what is found along the chain of prototypes. `Extends` says what nothing changes: objects that exist. A
read after a store is computed from the outcome. `Names` reads from this what happens to the order of names,
`Arrays` what happens beside the elements, and `Capture` and `Rendering` use the frame.
-/

namespace RegisterJit

namespace World

variable {r : ObjectRef} {w w' w₁ w₂ : World} {key : Text}

/-- Objects that exist stay as they are. -/
structure Extends (w w' : World) : Prop where
  size_le : w.realm.heap.objects.size ≤ w'.realm.heap.objects.size
  object? : ∀ q, w.realm.heap.Has q → w'.realm.heap.object? q = w.realm.heap.object? q

theorem Extends.refl (w : World) : w.Extends w := ⟨Nat.le_refl _, fun _ _ => rfl⟩

theorem Extends.of_eq (h : w' = w) : w.Extends w' := h ▸ .refl w

theorem Extends.trans (h : w.Extends w₁) (h' : w₁.Extends w₂) : w.Extends w₂ :=
  ⟨Nat.le_trans h.size_le h'.size_le, fun q hq =>
    (h'.object? q (hq.mono h.size_le)).trans (h.object? q hq)⟩

theorem Extends.object_eq (h : w.Extends w') (hr : w.realm.heap.Has r) :
    w'.realm.heap.object r = w.realm.heap.object r := by
  rw [Heap.object, Heap.object, h.object? r hr]

theorem Extends.chainFrom_eq (h : w.Extends w') (hsound : w.realm.Sound) (fuel : Nat) {start : Option ObjectRef}
    (hstart : ∀ r, start = some r → w.realm.heap.Has r) :
    w'.realm.heap.chainFrom fuel start = w.realm.heap.chainFrom fuel start := by
  induction fuel generalizing start with
  | zero => cases start <;> rfl
  | succ fuel ih =>
    cases start with
    | none => rfl
    | some r =>
      have hr := hstart r rfl
      rw [Heap.chainFrom, Heap.chainFrom, h.object_eq hr]
      refine congrArg (_ :: ·) (ih fun p hp => ?_)
      obtain ⟨hpos, hlt⟩ := hsound.protos hr.object? hp
      exact ⟨hpos, Nat.le_trans (Nat.le_of_lt hlt) hr.2⟩

theorem Extends.find?_eq (h : w.Extends w') (hsound : w.realm.Sound) (hr : w.realm.heap.Has r) (key : Text) :
    w'.realm.heap.find? r key = w.realm.heap.find? r key := by
  rw [Heap.find?, Heap.find?, Heap.chain, Heap.chain, h.chainFrom_eq hsound _ fun _ heq => Option.some.inj heq ▸ hr]

theorem extends_alloc (w : World) (o : Object) : w.Extends (w.withHeap fun h => (h.alloc o).2) := by
  refine ⟨by simp [withHeap], fun q hq => ?_⟩
  exact (Heap.object?_alloc _ _ _).trans (if_neg hq.ne_new.symm)

theorem extends_intern (w : World) (t : Text) : w.Extends (w.withHeap fun h => (h.intern t).2) :=
  ⟨by simp [withHeap], fun _ _ => Heap.object?_intern ..⟩

theorem not_has_new : ¬ w.realm.heap.Has (w.realm.heap.objects.size + 1) := fun h =>
  Nat.not_succ_le_self _ h.2

theorem Extends.withObject (h : w.Extends w') (hr : ¬ w.realm.heap.Has r) (f : Object → Object) :
    w.Extends (w'.withObject r f) := by
  refine ⟨h.size_le.trans (Nat.le_of_eq (Heap.size_modify ..).symm), fun q hq => ?_⟩
  have hne : r ≠ q := fun heq => hr (heq ▸ hq)
  exact (Heap.object?_modify ..).trans ((if_neg hne).trans (h.object? q hq))

theorem object_withObject (hr : w.realm.heap.Has r) (f : Object → Object) :
    (w.withObject r f).realm.heap.object r = f (w.realm.heap.object r) :=
  hr.object_modify

theorem object?_withObject {o : Object} (ho : w.realm.heap.object? r = some o) (f : Object → Object) :
    (w.withObject r f).realm.heap.object? r = some (f o) := by
  rw [withObject, withHeap, Heap.object?_modify, if_pos rfl, ho, Option.map_some]

theorem object?_withObject_of_ne {q : ObjectRef} (h : r ≠ q) (f : Object → Object) :
    (w.withObject r f).realm.heap.object? q = w.realm.heap.object? q :=
  (Heap.object?_modify ..).trans (if_neg h)

theorem has_withObject {q : ObjectRef} (f : Object → Object) :
    (w.withObject r f).realm.heap.Has q ↔ w.realm.heap.Has q := by
  rw [Heap.Has, Heap.Has, withObject, withHeap, Heap.size_modify]

/-- A store under a key comes to a setter. -/
def MeetsSetter (w : World) (r : ObjectRef) (key : Text) : Prop :=
  ∃ owner p getter setter, w.realm.heap.find? r key = some (.property owner p) ∧
    p.body = .accessor getter setter ∧ setter.isEmpty = false

/-- A store under a key comes to a property that only reads. -/
def Refuses (w : World) (r : ObjectRef) (key : Text) : Prop :=
  ∃ owner p, w.realm.heap.find? r key = some (.property owner p) ∧
    ((∃ v, p.body = .data v false) ∨ ∃ getter setter, p.body = .accessor getter setter ∧ setter.isEmpty = true)

theorem find?_of_own? {p : Property} (hkey : ¬ Heap.Indexes (w.realm.heap.object r) key)
    (hown : w.own? r key = some p) : w.realm.heap.find? r key = some (.property r p) := by
  by_contra hne
  have hnone := Heap.own?_eq_none_of_find? hkey fun q hq => hne ?_
  · exact nomatch hnone.symm.trans hown
  · rw [hq, (Option.some.inj ((Heap.own?_of_find? hq).symm.trans hown) : q = p)]

end World

namespace Run

variable {ev : Evaluator} {w : World} {r : ObjectRef} {base v : Value} {key : Text} {strict : Bool}

/-! ## Errors -/

theorem extends_bind {α β : Type} {x : Run α} {f : α → Run β} (hx : w.Extends (x.after w))
    (hf : ∀ a w', x w = .ok a w' → w'.Extends ((f a).after w')) : w.Extends ((x >>= f).after w) := by
  cases h : x w with
  | ok a w' =>
    rw [after_bind_ok h]
    exact (after_ok h ▸ hx).trans (hf a w' h)
  | error e w' =>
    rw [after_bind_error h]
    exact after_error h ▸ hx

theorem newError_extends (proto : ObjectRef) (message : Text) : w.Extends ((newError proto message).after w) := by
  have halloc := w.extends_alloc (Object.ofClass .error (some proto))
  unfold newError
  by_cases hmessage : message = []
  · simp only [hmessage, ne_eq, not_true_eq_false, if_false]
    exact halloc
  · simp only [hmessage, ne_eq, not_false_eq_true, if_true]
    exact (halloc.trans (World.extends_intern _ message)).withObject World.not_has_new _

theorem protoOf_after (v : Value) : (protoOf v).after w = w := by
  unfold protoOf
  split
  · have hrun := refOrCrash_eq (w := w) v
    split at hrun
    · exact after_ok hrun
    · exact after_error hrun
  · rfl

theorem raise_extends (kind : ErrorKind) (message : Text) {α : Type} :
    w.Extends ((raise kind message : Run α).after w) := by
  unfold raise
  refine extends_bind (.refl _) fun realm _ hrealm => ?_
  refine extends_bind (protoOf_after _ ▸ .refl _) fun p _ _ => ?_
  exact extends_bind (newError_extends p message) fun _ _ _ => .refl _

/-! ## Stores -/

/-- What becomes of a store under a name: the object has a property with the value, or a property that only
reads stays as it is and perhaps an error is raised. -/
inductive Stored (w : World) (r : ObjectRef) (key : Text) (v : Value) (x : Run Unit) : Prop
  | put (p : Property) (hbody : p.body = .data v true)
      (hx : x w = .ok () (w.withObject r fun o => o.define key p))
  | refused (h : w.Refuses r key) (hx : x w = .ok () w)
  | raised (h : w.Refuses r key) (message : Text) (hx : x w = raise .typeError message w)

theorem Stored.heap {v : Value} {f : Heap → Run Unit} (h : Stored w r key v (f w.realm.heap)) :
    Stored w r key v (heap >>= f) := by
  cases h with
  | put p hbody hx => exact .put p hbody hx
  | refused h hx => exact .refused h hx
  | raised h message hx => exact .raised h message hx

theorem after_congr {α : Type} {x y : Run α} {w' : World} (h : x w = y w') : x.after w = y.after w' := by
  rw [after, h, after]

theorem Stored.after {v : Value} {x : Run Unit} (h : Stored w r key v x) :
    (∃ p, p.body = .data v true ∧ x.after w = w.withObject r fun o => o.define key p) ∨
      w.Refuses r key ∧ w.Extends (x.after w) := by
  cases h with
  | put p hbody hx => exact .inl ⟨p, hbody, after_ok hx⟩
  | refused h hx => exact .inr ⟨h, .of_eq (after_ok hx)⟩
  | raised h message hx => exact .inr ⟨h, after_congr hx ▸ raise_extends _ _⟩

theorem putNamed_stored (ev : Evaluator) (base v : Value) (strict : Bool) (hsetter : ¬ w.MeetsSetter r key) :
    Stored w r key v (putNamed ev r base key v strict) := by
  refine .heap ?_
  split
  · next owner p hfound =>
    split
    · next getter setter hbody =>
      by_cases hempty : setter.isEmpty = true
      · have hrefuses : w.Refuses r key := ⟨owner, p, hfound, .inr ⟨getter, setter, hbody, hempty⟩⟩
        rw [if_pos hempty]
        split
        · exact .raised hrefuses _ rfl
        · exact .refused hrefuses rfl
      · exact absurd ⟨owner, p, getter, setter, hfound, hbody, Bool.eq_false_iff.2 hempty⟩ hsetter
    · next old writable hbody =>
      cases writable with
      | false =>
        have hrefuses : w.Refuses r key := ⟨owner, p, hfound, .inl ⟨old, hbody⟩⟩
        rw [if_pos Bool.not_false]
        split
        · exact .raised hrefuses _ rfl
        · exact .refused hrefuses rfl
      | true =>
        rw [if_neg (by simp)]
        split
        · exact .put { p with body := .data v true } rfl rfl
        · exact .put (Property.plain v) rfl rfl
  · exact .put (Property.plain v) rfl rfl

section

variable {o : Object} (hbase : Heap.ref? base = some r) (ho : w.realm.heap.object? r = some o)

include hbase

theorem isNullish_of_ref? : isNullish base = false := by
  have hobject : base.isObject = true := by
    rw [Heap.ref?] at hbase
    split at hbase
    · assumption
    · cases hbase
  have hword := Value.isObject_iff.1 hobject
  refine Bool.eq_false_iff.2 fun h => ?_
  rw [isNullish, Bool.or_eq_true, Value.isNullOrUndefined_iff, Value.isEmpty_iff] at h
  omega

include ho

theorem putProperty_of_ref? (ev : Evaluator) (key : Text) (v : Value) (strict : Bool) :
    putProperty ev base key v strict w =
    (if o.cls = .array ∧ key = lengthKey then putLength ev r v
    else
      match arrayIndex? key with
      | some i =>
        if o.cls = .array ∧ i < o.elements.size + maxDenseGrowth then
          modifyObject r fun o => o.setElement i v
        else putNamed ev r base key v strict
      | none => putNamed ev r base key v strict) w := by
  unfold putProperty
  dsimp only
  rw [isNullish_of_ref? hbase, if_neg Bool.false_ne_true, hbase]
  exact bind_ok (object_of_some ho)

theorem putProperty_eq (ev : Evaluator) (key : Text) (v : Value) (strict : Bool) (hplain : o.cls ≠ .array) :
    putProperty ev base key v strict w = putNamed ev r base key v strict w := by
  refine (putProperty_of_ref? hbase ho ev key v strict).trans (congrFun ?_ w)
  rw [if_neg fun h => hplain h.1]
  split
  · rw [if_neg fun h => hplain h.1]
  · rfl

/-- What becomes of a deletion of a name: the name is gone, if there was one, or it is kept and perhaps an
error is raised. -/
inductive Dropped (w : World) (r : ObjectRef) (key : Text) (strict : Bool) (x : Run Bool) : Prop
  | absent (hown : w.own? r key = none) (hx : x w = .ok true w)
  | drop (p : Property) (hown : w.own? r key = some p) (hp : p.configurable = true)
      (hx : x w = .ok true (w.withObject r fun o => o.remove key))
  | refused (p : Property) (hown : w.own? r key = some p) (hp : p.configurable = false)
      (hstrict : strict = false) (hx : x w = .ok false w)
  | raised (p : Property) (hown : w.own? r key = some p) (hp : p.configurable = false) (hstrict : strict = true)
      (message : Text) (hx : x w = raise .typeError message w)

omit hbase ho in
theorem Dropped.after {strict : Bool} {x : Run Bool} (h : Dropped w r key strict x) :
    (x.after w = w.withObject r fun o => o.remove key) ∨ w.Extends (x.after w) := by
  cases h with
  | absent hown hx => exact .inr (.of_eq (after_ok hx))
  | drop p hown hp hx => exact .inl (after_ok hx)
  | refused p hown hp hstrict hx => exact .inr (.of_eq (after_ok hx))
  | raised p hown hp hstrict message hx => exact .inr (after_congr hx ▸ raise_extends _ _)

theorem deleteProperty_of_ref? (key : Text) (strict : Bool) : deleteProperty base key strict w =
    (if o.cls = .array ∧ key = lengthKey then
      if strict then raise .typeError (aboutKey "cannot delete property" key " of array") else pure false
    else if o.cls = .array ∧ (arrayIndex? key).any (· < o.elements.size) then do
      modifyObject r fun o => { o with elements := o.elements.set ((arrayIndex? key).getD 0) Value.empty }
      pure true
    else
      match o.own? key with
      | none => pure true
      | some p =>
        if p.configurable then do
          modifyObject r fun o => o.remove key
          pure true
        else if strict then raise .typeError (aboutKey "cannot delete property" key "")
        else pure false) w := by
  unfold deleteProperty
  dsimp only
  rw [isNullish_of_ref? hbase, if_neg Bool.false_ne_true, hbase]
  exact bind_ok (object_of_some ho)

/-- A deletion of what is neither an element nor the length goes by the name. -/
theorem deleteProperty_dropped (key : Text) (strict : Bool) (hlength : ¬ (o.cls = .array ∧ key = lengthKey))
    (hvector : ¬ (o.cls = .array ∧ (arrayIndex? key).any (· < o.elements.size))) :
    Dropped w r key strict (deleteProperty base key strict) := by
  have hrun := deleteProperty_of_ref? hbase ho key strict
  rw [if_neg hlength, if_neg hvector] at hrun
  have hown : w.own? r key = o.own? key := by rw [World.own?, Heap.object_eq ho]
  cases hp : o.own? key with
  | none =>
    rw [hp] at hrun
    exact .absent (hown.trans hp) hrun
  | some p =>
    rw [hp] at hrun hown
    dsimp only at hrun
    cases hconfigurable : p.configurable with
    | true =>
      rw [hconfigurable, if_pos rfl] at hrun
      exact .drop p hown hconfigurable hrun
    | false =>
      rw [hconfigurable, if_neg Bool.false_ne_true] at hrun
      cases strict with
      | true => exact .raised p hown hconfigurable rfl _ hrun
      | false => exact .refused p hown hconfigurable rfl hrun

end

/-! ## Reads after stores -/

theorem get_of_data {owner : ObjectRef} {p : Property} {writable : Bool}
    (hfound : w.realm.heap.find? r key = some (.property owner p)) (hbody : p.body = .data v writable)
    (receiver : Value) : get ev r key receiver w = .ok v w := by
  refine (get_eq ..).trans (congrFun (?_ : _ = pure v) w)
  rw [hfound]
  dsimp only
  rw [hbody]

theorem getProperty_define (hbase : Heap.ref? base = some r) (hr : w.realm.heap.Has r)
    (hkey : ¬ Heap.Indexes (w.realm.heap.object r) key) {p : Property} {writable : Bool}
    (hbody : p.body = .data v writable) :
    getProperty ev base key (w.withObject r fun o => o.define key p) =
      .ok v (w.withObject r fun o => o.define key p) := by
  have hobject := World.object_withObject hr fun o => o.define key p
  have hfound : (w.withObject r fun o => o.define key p).realm.heap.find? r key = some (.property r p) :=
    World.find?_of_own? (by rw [hobject]; exact hkey) (by rw [World.own?, hobject, Object.own?_define_self])
  rw [getProperty_of_ref? hbase, if_pos ((World.has_withObject _).2 hr)]
  exact get_of_data hfound hbody base

end Run

end RegisterJit
