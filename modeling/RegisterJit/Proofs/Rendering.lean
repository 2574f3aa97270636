import RegisterJit.Proofs.Cells
import RegisterJit.Proofs.Detached
import RegisterJit.Proofs.Stores

/-!
# Rendering values

Values are rendered for messages without a machine: no compiled code runs, and what is no array is rendered without
any effect. The elements of an array are converted by their own methods, though. As long as these only read, and
arrays do not contain each other, nothing that exists changes. A method that prints or cuts an array does so, and
arrays that contain only each other are never done.

`Undisturbed` says that a world differs from an earlier one in new objects and new strings only, `Gentle` that a
step leads to such a world, by a value or by an error that can be caught. Being gentle is kept by sequencing and
catching, so that it is proved of a conversion along its text. `Nested` bounds how deep arrays contain each
other, and the conversion of an array is gentle by induction on the bound, if the methods that are found for its
elements are calm. Without a bound there is a knot of arrays, and `elementTexts_exhausted` and `join_exhausted`
show that it uses up any fuel. `Branching` and `Wrappers` use the lemmas about methods that only read.
-/

namespace RegisterJit

/-! ## What is left alone -/

namespace Heap

theorem strings_intern (h : Heap) (t : Text) : h.strings.toList <+: (h.intern t).2.strings.toList := by
  rw [intern]
  cases h.handle? (InternedText.ofText t) with
  | some i => exact List.prefix_refl _
  | none => exact ⟨[InternedText.ofText t], Array.toList_push.symm⟩

end Heap

namespace World

variable {w w₁ : World} {r : ObjectRef} {key : Text}

/-- Nothing that exists changes: there are more strings and more objects at most. -/
structure Undisturbed (w w₁ : World) : Prop extends Beside w w₁ where
  objects : w.Extends w₁
  strings : w.realm.heap.strings.toList <+: w₁.realm.heap.strings.toList
  output : w₁.output = w.output

namespace Undisturbed

theorem refl (w : World) : w.Undisturbed w := ⟨.refl w, .refl w, List.prefix_refl _, rfl⟩

variable (h : w.Undisturbed w₁)

include h

theorem intern (t : Text) : w.Undisturbed (w₁.withHeap fun h => (h.intern t).2) where
  toBeside := h.toBeside.trans ⟨rfl, rfl, rfl⟩
  objects := h.objects.trans (w₁.extends_intern t)
  strings := h.strings.trans (Heap.strings_intern ..)
  output := h.output

theorem alloc (o : Object) : w.Undisturbed (w₁.withHeap fun h => (h.alloc o).2) where
  toBeside := h.toBeside.trans ⟨rfl, rfl, rfl⟩
  objects := h.objects.trans (w₁.extends_alloc o)
  strings := h.strings
  output := h.output

theorem withObject (hr : ¬ w.realm.heap.Has r) (f : Object → Object) : w.Undisturbed (w₁.withObject r f) where
  toBeside := h.toBeside.trans ⟨rfl, rfl, rfl⟩
  objects := h.objects.withObject hr f
  strings := by
    refine h.strings.trans ?_
    rw [World.withObject, withHeap]
    cases r <;> exact List.prefix_refl _
  output := h.output

theorem young (f : Object → Object) : w.Undisturbed
    ((w₁.withHeap fun h => (h.alloc o).2).withObject (w₁.realm.heap.objects.size + 1) f) :=
  (h.alloc _).withObject (fun hr => Nat.not_succ_le_self _ (Nat.le_trans hr.2 h.objects.size_le)) f

theorem has (hr : w.realm.heap.Has r) : w₁.realm.heap.Has r := hr.mono h.objects.size_le

theorem object_eq (hr : w.realm.heap.Has r) : w₁.realm.heap.object r = w.realm.heap.object r :=
  h.objects.object_eq hr

theorem find?_eq (hsound : w.realm.Sound) (hr : w.realm.heap.Has r) (key : Text) :
    w₁.realm.heap.find? r key = w.realm.heap.find? r key := h.objects.find?_eq hsound hr key

end Undisturbed

end World

/-! ## Steps that disturb nothing -/

namespace Run

variable {α β : Type} {w₀ w w₁ : World} {x : Run α} {f : α → Run β}

/-- A step after which nothing that existed once has changed. It may throw, but it does come to an end. -/
def Gentle (w₀ : World) (x : Run α) (w : World) : Prop :=
  ∃ w₁, w₀.Undisturbed w₁ ∧ ((∃ a, x w = .ok a w₁) ∨ ∃ e, x w = .error e w₁ ∧ e.isRecoverable = true)

theorem Gentle.ok {a : α} (h : x w = .ok a w₁) (hw : w₀.Undisturbed w₁) : Gentle w₀ x w := ⟨w₁, hw, .inl ⟨a, h⟩⟩

theorem Gentle.error {e : Fault} (h : x w = .error e w₁) (he : e.isRecoverable = true) (hw : w₀.Undisturbed w₁) :
    Gentle w₀ x w := ⟨w₁, hw, .inr ⟨e, h, he⟩⟩

theorem Gentle.next (hx : Gentle w₀ x w) (hf : ∀ a w₁, w₀.Undisturbed w₁ → Gentle w₀ (f a) w₁) :
    Gentle w₀ (x >>= f) w := by
  obtain ⟨w₁, hw, ⟨a, ha⟩ | ⟨e, he, hrecoverable⟩⟩ := hx
  · rw [Gentle, bind_ok ha]
    exact hf a w₁ hw
  · exact .error (bind_error he) hrecoverable hw

theorem Gentle.read {a : α} (hx : x w = .ok a w) (hf : Gentle w₀ (f a) w) : Gentle w₀ (x >>= f) w := by
  rw [Gentle, bind_ok hx]
  exact hf

theorem Gentle.attempt (hx : Gentle w₀ x w) : ∃ r w₁, attempt x w = .ok r w₁ ∧ w₀.Undisturbed w₁ := by
  obtain ⟨w₁, hw, ⟨a, ha⟩ | ⟨e, he, hrecoverable⟩⟩ := hx
  · exact ⟨.ok a, w₁, by rw [Run.attempt, ha], hw⟩
  · exact ⟨.error e, w₁, by rw [Run.attempt, he]; exact if_pos hrecoverable, hw⟩

theorem intern_gentle (hw : w₀.Undisturbed w) (t : Text) : Gentle w₀ (intern t) w :=
  ⟨_, hw.intern t, .inl ⟨_, rfl⟩⟩

theorem alloc_gentle (hw : w₀.Undisturbed w) (o : Object) : Gentle w₀ (alloc o) w :=
  ⟨_, hw.alloc o, .inl ⟨_, rfl⟩⟩

theorem object_run (hw : w₀.Undisturbed w) {r : ObjectRef} (hr : w₀.realm.heap.Has r) :
    object r w = .ok (w₀.realm.heap.object r) w :=
  object_of_some ((hw.objects.object? r hr).trans hr.object?)

end Run

/-! ## Methods that only read -/

/-- What a function that is built in does when it is called without arguments for an object of a class: it changes
nothing, and calls nothing but the method of its receiver that joins elements. -/
def Builtin.Calm (cls : ObjectClass) : Builtin → Prop
  | .functionCall | .functionApply | .arrayPush | .arrayPop | .print | .callback => False
  | .arrayJoin => cls = .array
  | _ => True

namespace World

variable {w w₁ : World} {r q : ObjectRef} {key : Text} {v fn : Value} {cls : ObjectClass}

/-- A value that may be called as a method: it is no function that is built in, or one that only reads. -/
def CalmMethod (w : World) (cls : ObjectClass) (v : Value) : Prop :=
  ∀ r, Heap.ref? v = some r → w.realm.heap.Has r ∧
    ∀ name b, (w.realm.heap.object r).function = some ⟨name, .builtin b⟩ → b.Calm cls

def CompiledFunction (w : World) (v : Value) : Prop :=
  ∃ r name code env, Heap.ref? v = some r ∧ w.realm.heap.Has r ∧
    (w.realm.heap.object r).function = some ⟨name, .compiled code env⟩

/-- What is found under a name is of one kind if it is data, and of another if a getter has to be called for it. -/
def Finds (w : World) (r : ObjectRef) (key : Text) (Data Getter : Value → Prop) : Prop :=
  match w.realm.heap.find? r key with
  | none => True
  | some (.element v) => Data v
  | some (.property _ p) =>
    match p.body with
    | .data v _ => Data v
    | .accessor getter _ => getter.isEmpty = true ∨ Getter getter

/-- What is found under a name is no method or one that only reads. A getter is not built in. -/
def Answers (w : World) (r : ObjectRef) (key : Text) : Prop :=
  match w.realm.heap.find? r key with
  | none => True
  | some (.element v) => w.CalmMethod (w.realm.heap.object r).cls v
  | some (.property _ p) =>
    match p.body with
    | .data v _ => w.CalmMethod (w.realm.heap.object r).cls v
    | .accessor getter _ => getter.isEmpty = true ∨ w.CompiledFunction getter

theorem Finds.of_data {owner : ObjectRef} {p : Property} {writable : Bool} {Data Getter : Value → Prop}
    (hfound : w.realm.heap.find? r key = some (.property owner p)) (hbody : p.body = .data v writable)
    (hv : Data v) : w.Finds r key Data Getter := by
  unfold Finds
  rw [hfound]
  dsimp only
  rw [hbody]
  exact hv

/-- Arrays are in arrays at most so deep, and what is in them has methods that only read. -/
inductive Nested (w : World) : Nat → ObjectRef → Prop
  | intro {n : Nat} {r : ObjectRef} (hr : w.realm.heap.Has r)
      (answers : (w.realm.heap.object r).cls = .array → ∀ v ∈ (w.realm.heap.object r).elements.items,
        ∀ q, Heap.ref? v = some q → w.Answers q "toString" ∧ w.Answers q "valueOf")
      (elements : (w.realm.heap.object r).cls = .array → ∀ v ∈ (w.realm.heap.object r).elements.items,
        ∀ q, Heap.ref? v = some q → Nested w n q) :
      Nested w (n + 1) r

theorem Nested.has {n : Nat} (h : w.Nested n r) : w.realm.heap.Has r := by
  cases h with
  | intro hr => exact hr

end World

namespace Run

variable {w₀ w w₁ : World} {ev : Evaluator} {r q : ObjectRef} {v fn : Value} {key : Text}

/-! ## Elements -/

theorem toText_of_isObject (hv : v.isObject = false) : toText ev v w = .ok (w.realm.heap.primitiveText v) w := by
  unfold toText
  rw [hv]
  rfl

theorem toText_of_ref? (hv : Heap.ref? v = some q) :
    toText ev v w = (do
      let p ← ev.toPrimitive v .string
      return (← heap).primitiveText p.value) w := by
  have hobject : v.isObject = true := by
    rw [Heap.ref?] at hv
    split at hv
    · assumption
    · cases hv
  unfold toText
  rw [hobject]
  simp only [if_true, map_eq_pure_bind, bind_assoc, pure_bind]

theorem toPrimitiveWith_of_ref? (hv : Heap.ref? v = some r) {o : Object} (ho : object r w = .ok o w) (hint : Hint) :
    toPrimitiveWith ev v hint w =
      (if hint = .string then byMethod ev v "toString" (byMethod ev v "valueOf" (fallbackPrimitive ev r o hint))
        else byMethod ev v "valueOf" (byMethod ev v "toString" (fallbackPrimitive ev r o hint))) w := by
  have heq : toPrimitiveWith ev v hint = (do
      let o ← object r
      let fallback := fallbackPrimitive ev r o hint
      if hint = .string then byMethod ev v "toString" (byMethod ev v "valueOf" fallback)
      else byMethod ev v "valueOf" (byMethod ev v "toString" fallback)) := by
    unfold toPrimitiveWith
    split
    · next hnone => cases hv.symm.trans hnone
    · next q hq =>
      obtain rfl : r = q := Option.some.inj (hv.symm.trans hq)
      rfl
  rw [heq, bind_ok ho]

theorem toPrimitiveWith_string (hv : Heap.ref? v = some r) {o : Object} (ho : object r w = .ok o w) :
    toPrimitiveWith ev v .string w =
      byMethod ev v "toString" (byMethod ev v "valueOf" (fallbackPrimitive ev r o .string)) w := by
  rw [toPrimitiveWith_of_ref? hv ho, if_pos rfl]

theorem seen_mem (e : Elements) (i : Nat) :
    e.seenFrom e.generation i ∈ e.items ∨ e.seenFrom e.generation i = Value.empty := by
  rw [Elements.seenFrom_generation, Array.getD_eq_getD_getElem?]
  cases h : e.items[i]? with
  | none => exact .inr rfl
  | some v => exact .inl (Array.mem_of_getElem? h)

section

variable (hr : w₀.realm.heap.Has r)
  (hconvert : ∀ v ∈ (w₀.realm.heap.object r).elements.items, ∀ w, w₀.Undisturbed w → Gentle w₀ (toText ev v) w)

include hr hconvert

theorem elementTexts_gentle (hw : w₀.Undisturbed w) (count i : Nat) (done : List Text) :
    Gentle w₀ (elementTexts ev r (w₀.realm.heap.object r).elements.generation count i done) w := by
  induction count generalizing i done w with
  | zero => exact .ok rfl hw
  | succ count ih =>
    refine .read (object_run hw hr) ?_
    dsimp only
    split
    · exact ih hw _ _
    · next hsome =>
      have hmem : (w₀.realm.heap.object r).elements.seenFrom (w₀.realm.heap.object r).elements.generation i ∈
          (w₀.realm.heap.object r).elements.items := by
        refine (seen_mem ..).resolve_right fun hempty => hsome ?_
        rw [hempty]
        rfl
      exact .next (hconvert _ hmem w hw) fun t w₁ hw₁ => ih hw₁ _ _

theorem join_gentle (hw : w₀.Undisturbed w) (sep : Text) : Gentle w₀ (join ev r sep) w :=
  .read (object_run hw hr) <| .next (elementTexts_gentle hr hconvert hw _ _ _) fun _ _ hw₁ => .ok rfl hw₁

end

/-! ## Objects -/

theorem classText_run (o : Object) (w : World) : ∃ t, classText o w = .ok t w := by
  unfold classText
  cases o.primitive.isEmpty with
  | true => exact ⟨_, rfl⟩
  | false => exact ⟨_, rfl⟩

theorem defaultText_run {o : Object} (ho : w.realm.heap.object? r = some o) (hcls : o.cls ≠ .array) :
    ∃ t, defaultText ev r w = .ok t w := by
  unfold defaultText
  rw [bind_ok (object_of_some ho)]
  cases hclass : o.cls with
  | array => exact absurd hclass hcls
  | function => exact ⟨_, rfl⟩
  | error => exact ⟨_, rfl⟩
  | regExp => exact ⟨_, rfl⟩
  | object | arguments | iterator => exact classText_run o w

section

variable (hr : w₀.realm.heap.Has r) (hjoin : (w₀.realm.heap.object r).cls = .array →
  ∀ (sep : Text) (w : World), w₀.Undisturbed w → Gentle w₀ (join ev r sep) w)

include hr hjoin

/-- An array that does not come to an end of its own accord has the text of its class. -/
theorem defaultText_quiet (hw : w₀.Undisturbed w) :
    ∃ t w₁, defaultText ev r w = .ok t w₁ ∧ w₀.Undisturbed w₁ := by
  by_cases harray : (w₀.realm.heap.object r).cls = .array
  · obtain ⟨result, w₁, hattempt, hw₁⟩ := (hjoin harray "," w hw).attempt
    obtain ⟨t, ht⟩ := classText_run (w₀.realm.heap.object r) w₁
    unfold defaultText
    rw [bind_ok (object_run hw hr), harray]
    dsimp only
    rw [bind_ok hattempt]
    cases result with
    | ok t => exact ⟨t, w₁, rfl, hw₁⟩
    | error e => exact ⟨t, w₁, ht, hw₁⟩
  · obtain ⟨t, ht⟩ : ∃ t, defaultText ev r w = .ok t w :=
      defaultText_run ((hw.objects.object? r hr).trans hr.object?) harray
    exact ⟨t, w, ht, hw⟩

theorem defaultText_gentle (hw : w₀.Undisturbed w) : Gentle w₀ (defaultText ev r) w := by
  obtain ⟨t, w₁, ht, hw₁⟩ := defaultText_quiet hr hjoin hw
  exact .ok ht hw₁

theorem builtin_gentle (hv : Heap.ref? v = some r) (hw : w₀.Undisturbed w) {b : Builtin}
    (hb : b.Calm (w₀.realm.heap.object r).cls) : Gentle w₀ (builtin ev b v []) w := by
  have hundefined : toText ev (argument [] 0) w = .ok (w.realm.heap.primitiveText Value.undefined) w :=
    toText_of_isObject rfl
  cases b with
  | functionCall | functionApply | arrayPush | arrayPop | print | callback => exact hb.elim
  | objectToString =>
    unfold builtin
    rw [hv]
    exact .next (defaultText_gentle hr hjoin hw) fun t w₁ hw₁ => intern_gentle hw₁ t
  | objectValueOf =>
    unfold builtin
    rw [hv]
    exact .read (object_run hw hr) (.ok rfl hw)
  | objectHasOwnProperty =>
    have hobject : toObject v w = .ok r w := by
      have href : toObject v = refOrCrash v := by
        unfold toObject
        split
        · rfl
        · next hnone => exact nomatch hv.symm.trans hnone
      rw [href, refOrCrash_eq, ← eq_handle_of_ref? hv, if_pos (hw.has hr)]
    exact .read hobject <| .read hundefined <| .read (object_run hw hr) <| .ok rfl hw
  | arrayJoin =>
    have hreceiver : arrayReceiver "join" v w = .ok r w := by
      unfold arrayReceiver
      rw [hv]
      dsimp only
      rw [bind_ok (object_run hw hr)]
      exact congrFun (if_pos (show (w₀.realm.heap.object r).cls = .array from hb)) w
    exact .read hreceiver <| .read rfl <| .next (hjoin hb "," w hw) fun t w₁ hw₁ => intern_gentle hw₁ t
  | errorToString =>
    unfold builtin
    rw [hv]
    exact .read rfl (intern_gentle hw _)
  | errorConstructor proto => exact .read rfl <| .next (alloc_gentle hw _) fun _ w₁ hw₁ => .ok rfl hw₁
  | eval => exact .ok rfl hw
  | isNaN => exact .ok rfl hw
  | stringFunction => exact intern_gentle hw []
  | numberFunction => exact .ok rfl hw
  | arrayFunction => exact ⟨_, hw.young fun o => { o with elements := o.elements.append #[] }, .inl ⟨_, rfl⟩⟩
  | objectFunction => exact .next (alloc_gentle hw _) fun _ w₁ hw₁ => .ok rfl hw₁
  | receiver => exact .ok rfl hw

end

/-! ## Calls -/

theorem function?_eq {r : ObjectRef} (hw : w₀.Undisturbed w) (hr : w₀.realm.heap.Has r)
    (hv : Heap.ref? fn = some r) :
    ((Heap.ref? fn).bind fun r => (w.realm.heap.object r).function) = (w₀.realm.heap.object r).function := by
  rw [hv, Option.bind_some, hw.object_eq hr]

theorem callWith_compiled (hw : w₀.Undisturbed w) (hfn : w₀.CompiledFunction fn) (this : Value) :
    ∃ message, callWith ev false fn this [] w = .error (.failure message) w := by
  obtain ⟨r, name, code, env, hv, hr, hfunction⟩ := hfn
  unfold callWith
  rw [bind_ok (heap_run w), function?_eq hw hr hv, hfunction]
  exact ⟨_, rfl⟩

section

variable (hr : w₀.realm.heap.Has r) (hjoin : (w₀.realm.heap.object r).cls = .array →
  ∀ (sep : Text) (w : World), w₀.Undisturbed w → Gentle w₀ (join ev r sep) w)

include hr hjoin

/-- A method that only reads is called for an object. No compiled function is called where that would need a machine. -/
theorem callWith_gentle {attached : Bool} (hcode : attached = true → ¬ w₀.CompiledFunction fn)
    (hv : Heap.ref? v = some r) (hw : w₀.Undisturbed w) (hfn : w₀.CalmMethod (w₀.realm.heap.object r).cls fn)
    (hcallable : w.realm.heap.isCallable fn = true) : Gentle w₀ (callWith ev attached fn v []) w := by
  cases href : Heap.ref? fn with
  | none =>
    rw [Heap.isCallable, href] at hcallable
    cases hcallable
  | some q =>
    obtain ⟨hq, hcalm⟩ := hfn q href
    have hfunction := function?_eq hw hq href
    cases hf : (w₀.realm.heap.object q).function with
    | none =>
      rw [Heap.isCallable, href] at hcallable
      dsimp only at hcallable
      rw [hw.object_eq hq, hf] at hcallable
      cases hcallable
    | some f =>
      obtain ⟨name, body⟩ := f
      cases body with
      | compiled code env =>
        have hcompiled : w₀.CompiledFunction fn := ⟨q, name, code, env, href, hq, hf⟩
        cases attached with
        | true => exact absurd hcompiled (hcode rfl)
        | false =>
          obtain ⟨message, hrun⟩ := callWith_compiled hw hcompiled v
          exact .error hrun rfl hw
      | builtin b =>
        have hrun : callWith ev attached fn v [] w = builtin ev b v [] w := by
          unfold callWith
          rw [bind_ok (heap_run w), hfunction, hf]
        rw [Gentle, hrun]
        exact builtin_gentle hr hjoin hv hw (hcalm name b hf)

end

/-! ## Methods -/

/-- A method of an object is read, or a getter is called for it. -/
theorem getProperty_finds (hsound : w₀.realm.Sound) (hr : w₀.realm.heap.Has r) (hv : Heap.ref? v = some r)
    {Data Getter : Value → Prop} (hnone : Data Value.undefined) (h : w₀.Finds r key Data Getter)
    (hw : w₀.Undisturbed w) (ev : Evaluator) :
    (∃ fn, Data fn ∧ getProperty ev v key w = .ok fn w) ∨
      ∃ getter, Getter getter ∧ getProperty ev v key w = ev.call getter v [] w := by
  have hget := (getProperty_of_ref? hv key).trans ((if_pos (hw.has hr)).trans (get_eq ev r key v w))
  rw [hw.find?_eq hsound hr] at hget
  rw [World.Finds] at h
  split at h
  · next hfound =>
    rw [hfound] at hget
    exact .inl ⟨_, hnone, hget⟩
  · next element hfound =>
    rw [hfound] at hget
    exact .inl ⟨_, h, hget⟩
  · next owner p hfound =>
    rw [hfound] at hget
    dsimp only at hget
    split at h
    · next method writable hbody =>
      rw [hbody] at hget
      exact .inl ⟨_, h, hget⟩
    · next getter setter hbody =>
      rw [hbody] at hget
      dsimp only at hget
      cases hempty : getter.isEmpty with
      | true =>
        rw [hempty, if_pos rfl] at hget
        exact .inl ⟨_, hnone, hget⟩
      | false =>
        rw [hempty] at h hget
        exact .inr ⟨_, h.resolve_left Bool.false_ne_true, hget⟩

theorem byMethod_found (hget : getProperty ev v key w = .ok fn w)
    (hcall : w.realm.heap.isCallable fn = true → Gentle w₀ (ev.call fn v []) w) {otherwise : Run Primitive}
    (hotherwise : ∀ w, w₀.Undisturbed w → Gentle w₀ otherwise w) (hw : w₀.Undisturbed w) :
    Gentle w₀ (byMethod ev v key otherwise) w := by
  unfold byMethod
  refine .read hget (.read (a := w.realm.heap.isCallable fn) rfl ?_)
  split
  · next hcallable =>
    refine (hcall hcallable).next fun result w₁ hw₁ => ?_
    split
    · exact hotherwise w₁ hw₁
    · exact .ok rfl hw₁
  · exact hotherwise w hw

/-! ## Conversions of elements -/

section

variable (hsound : w₀.realm.Sound) (hr : w₀.realm.heap.Has r) (hv : Heap.ref? v = some r) {fuel : Nat}
  (hjoin : (w₀.realm.heap.object r).cls = .array → ∀ fuel' (sep : Text) (w : World), fuel ≤ fuel' →
    w₀.Undisturbed w → Gentle w₀ (join (evaluator false fuel') r sep) w)

include hsound hr hv hjoin

/-- A method of an object is looked up and called, if there is one. -/
theorem byMethod_gentle (hanswers : w₀.Answers r key) {otherwise : Run Primitive}
    (hotherwise : ∀ w, w₀.Undisturbed w → Gentle w₀ otherwise w) (hw : w₀.Undisturbed w) :
    Gentle w₀ (byMethod (evaluator false (fuel + 1)) v key otherwise) w := by
  have hnone : w₀.CalmMethod (w₀.realm.heap.object r).cls Value.undefined := fun r h => by cases h
  have hfinds : w₀.Finds r key (w₀.CalmMethod (w₀.realm.heap.object r).cls) w₀.CompiledFunction := hanswers
  rcases getProperty_finds hsound hr hv hnone hfinds hw
      (evaluator false (fuel + 1)) with ⟨fn, hfn, hget⟩ | ⟨getter, hgetter, hget⟩
  · exact byMethod_found hget (fun hcallable => callWith_gentle hr
      (fun harray sep w => hjoin harray fuel sep w (Nat.le_refl _)) (fun h => by cases h) hv hw hfn hcallable)
      hotherwise hw
  · obtain ⟨message, hcall⟩ : ∃ message, callWith (evaluator false fuel) false getter v [] w =
        .error (.failure message) w := callWith_compiled hw hgetter v
    exact .error (bind_error (hget.trans hcall)) rfl hw

theorem toText_gentle (hstring : w₀.Answers r "toString") (hvalue : w₀.Answers r "valueOf")
    (hw : w₀.Undisturbed w) : Gentle w₀ (toText (evaluator false (fuel + 2)) v) w := by
  have hfallback (w : World) (hw : w₀.Undisturbed w) : Gentle w₀
      (fallbackPrimitive (evaluator false (fuel + 1)) r (w₀.realm.heap.object r) .string) w :=
    .next (defaultText_gentle hr (fun harray sep w => hjoin harray (fuel + 1) sep w (Nat.le_succ fuel)) hw)
      fun t w₁ hw₁ => ⟨_, hw₁.intern t, .inl ⟨_, rfl⟩⟩
  have hprimitive : Gentle w₀ ((evaluator false (fuel + 2)).toPrimitive v .string) w := by
    change Gentle w₀ (toPrimitiveWith (evaluator false (fuel + 1)) v .string) w
    rw [Gentle, toPrimitiveWith_string hv (object_run hw hr)]
    exact byMethod_gentle hsound hr hv hjoin hstring
      (fun w hw => byMethod_gentle hsound hr hv hjoin hvalue hfallback hw) hw
  rw [Gentle, toText_of_ref? hv]
  exact hprimitive.next fun p w₁ hw₁ => .ok rfl hw₁

end

/-- Arrays that are not nested too deep are joined. -/
theorem join_of_nested (hsound : w₀.realm.Sound) {n : Nat} (h : w₀.Nested n r)
    (harray : (w₀.realm.heap.object r).cls = .array) (fuel : Nat) (sep : Text) (w : World) (hfuel : 2 * n ≤ fuel)
    (hw : w₀.Undisturbed w) : Gentle w₀ (join (evaluator false fuel) r sep) w := by
  induction h generalizing fuel sep w with
  | @intro n r hr answers elements ih =>
    obtain ⟨fuel, rfl⟩ := Nat.exists_eq_add_of_le' (show 2 ≤ fuel by omega)
    refine join_gentle hr (fun v hv w hw => ?_) hw sep
    cases href : Heap.ref? v with
    | none => exact .ok (toText_of_isObject (Heap.isObject_of_ref?_eq_none href)) hw
    | some q =>
      obtain ⟨hstring, hvalue⟩ := answers harray v hv q href
      have hjoin (hq : (w₀.realm.heap.object q).cls = .array) (fuel' : Nat) (sep : Text) (w : World)
          (hfuel' : fuel ≤ fuel') (hw : w₀.Undisturbed w) : Gentle w₀ (join (evaluator false fuel') q sep) w :=
        ih harray v hv q href hq fuel' sep w (by omega) hw
      exact toText_gentle hsound (elements harray v hv q href).has href hjoin hstring hvalue hw

/-! ## Arrays that contain each other -/

end Run

/-- Arrays that contain only each other and primitives, each at least one of them, and whose method joins their
elements. -/
structure World.Knot (w : World) (arrays : ObjectRef → Prop) : Prop where
  has : ∀ r, arrays r → w.realm.heap.Has r
  array : ∀ r, arrays r → (w.realm.heap.object r).cls = .array
  closed : ∀ r, arrays r → ∀ v ∈ (w.realm.heap.object r).elements.items, ∀ q, Heap.ref? v = some q → arrays q
  tied : ∀ r, arrays r → ∃ v ∈ (w.realm.heap.object r).elements.items, (Heap.ref? v).isSome = true
  joins : ∀ r, arrays r → ∃ owner p fn writable f name b,
    w.realm.heap.find? r "toString" = some (.property owner p) ∧ p.body = .data fn writable ∧
      Heap.ref? fn = some f ∧ (w.realm.heap.object f).function = some ⟨name, .builtin b⟩ ∧
      (b = .objectToString ∨ b = .arrayJoin)

namespace Run

variable {w : World} {ev : Evaluator} {r q : ObjectRef} {v : Value} {arrays : ObjectRef → Prop}

/-- Elements are joined one after the other: the first that is an object decides if that never ends. -/
theorem elementTexts_exhausted (hr : w.realm.heap.Has r)
    (hconvert : ∀ v ∈ (w.realm.heap.object r).elements.items, ∀ q, Heap.ref? v = some q →
      toText ev v w = .error .exhausted w) (count i : Nat) (done : List Text)
    (htied : ∃ j v, i ≤ j ∧ j < i + count ∧ (w.realm.heap.object r).elements.items[j]? = some v ∧
      (Heap.ref? v).isSome = true) :
    elementTexts ev r (w.realm.heap.object r).elements.generation count i done w = .error .exhausted w := by
  induction count generalizing i done with
  | zero =>
    obtain ⟨j, v, hij, hj, -⟩ := htied
    omega
  | succ count ih =>
    unfold elementTexts
    rw [bind_ok (object_of_some hr.object?)]
    dsimp only
    have hseen := (w.realm.heap.object r).elements.seenFrom_generation i
    have hmem := seen_mem (w.realm.heap.object r).elements i
    generalize (w.realm.heap.object r).elements.seenFrom (w.realm.heap.object r).elements.generation i = v at hseen hmem
    cases href : Heap.ref? v with
    | some q =>
      have hnullish : ¬ (v.isEmpty || v.isNullOrUndefined) = true := by
        rw [Bool.or_comm]
        exact Bool.eq_false_iff.1 (isNullish_of_ref? href)
      have hv := hmem.resolve_right fun hempty => nomatch href.symm.trans (congrArg Heap.ref? hempty)
      rw [if_neg hnullish]
      exact bind_error (hconvert v hv q href)
    | none =>
      have hlater : ∃ j v, i + 1 ≤ j ∧ j < i + 1 + count ∧ (w.realm.heap.object r).elements.items[j]? = some v ∧
          (Heap.ref? v).isSome = true := by
        obtain ⟨j, v', hij, hj, hitem, hobject⟩ := htied
        have hne : j ≠ i := by
          rintro rfl
          rw [Array.getD_eq_getD_getElem?, hitem, Option.getD_some] at hseen
          rw [← hseen, href] at hobject
          cases hobject
        exact ⟨j, v', by omega, by omega, hitem, hobject⟩
      split
      · exact ih _ _ hlater
      · exact (bind_ok (toText_of_isObject (Heap.isObject_of_ref?_eq_none href))).trans (ih _ _ hlater)

theorem defaultText_exhausted (hr : w.realm.heap.Has r) (harray : (w.realm.heap.object r).cls = .array)
    (hjoin : ∀ sep, join ev r sep w = .error .exhausted w) : defaultText ev r w = .error .exhausted w := by
  have hattempt : attempt (join ev r ",") w = .error .exhausted w := by rw [attempt, hjoin]; rfl
  unfold defaultText
  rw [bind_ok (object_of_some hr.object?), harray]
  exact bind_error hattempt

theorem builtin_exhausted (hr : w.realm.heap.Has r) (harray : (w.realm.heap.object r).cls = .array)
    (hv : Heap.ref? v = some r) (hjoin : ∀ sep, join ev r sep w = .error .exhausted w) {b : Builtin}
    (hb : b = .objectToString ∨ b = .arrayJoin) : builtin ev b v [] w = .error .exhausted w := by
  rcases hb with rfl | rfl
  · unfold builtin
    rw [hv]
    exact bind_error (defaultText_exhausted hr harray hjoin)
  · have hreceiver : arrayReceiver "join" v w = .ok r w := by
      unfold arrayReceiver
      rw [hv]
      dsimp only
      rw [bind_ok (object_of_some hr.object?)]
      exact congrFun (if_pos harray) w
    have hcomma : (pure (Text.ofString ",") : Run Text) w = .ok (Text.ofString ",") w := rfl
    exact (bind_ok hreceiver).trans ((bind_ok hcomma).trans (bind_error (hjoin ",")))

/-- Arrays that contain only each other are joined without end, whatever the bound. -/
theorem join_exhausted (h : w.Knot arrays) (fuel : Nat) {r : ObjectRef} (hr : arrays r) (sep : Text) :
    join (evaluator false fuel) r sep w = .error .exhausted w := by
  induction fuel using Nat.strongRecOn generalizing r sep with
  | ind fuel ih =>
    have hconvert (v : Value) (hmem : v ∈ (w.realm.heap.object r).elements.items) (q : ObjectRef)
        (hv : Heap.ref? v = some q) : (evaluator false fuel).toPrimitive v .string w = .error .exhausted w := by
      have hq := h.closed r hr v hmem q hv
      obtain ⟨owner, p, fn, writable, f, name, b, hfound, hbody, hfn, hfunction, hb⟩ := h.joins q hq
      cases fuel with
      | zero => rfl
      | succ fuel =>
        have hmethod : getProperty (evaluator false fuel) v "toString" w = .ok fn w :=
          (getProperty_of_ref? hv "toString").trans ((if_pos (h.has q hq)).trans (get_of_data hfound hbody v))
        have hcallable : isCallable fn w = .ok true w := by
          refine congrArg (EStateM.Result.ok · w) ?_
          rw [Heap.isCallable, hfn]
          dsimp only
          rw [hfunction]
          rfl
        have hcall : (evaluator false fuel).call fn v [] w = .error .exhausted w := by
          cases fuel with
          | zero => rfl
          | succ fuel =>
            change callWith (evaluator false fuel) false fn v [] w = _
            unfold callWith
            rw [bind_ok (heap_run w), hfn, Option.bind_some, hfunction]
            exact builtin_exhausted (h.has q hq) (h.array q hq) hv (fun sep => ih fuel (by omega) hq sep) hb
        refine (toPrimitiveWith_string hv (object_of_some (h.has q hq).object?)).trans ?_
        rw [byMethod, bind_ok hmethod, bind_ok hcallable]
        exact bind_error hcall
    obtain ⟨v, hmem, hobject⟩ := h.tied r hr
    obtain ⟨j, hj, hitem⟩ := Array.getElem_of_mem hmem
    have htexts := elementTexts_exhausted (h.has r hr) (fun v hmem q hv => (toText_of_ref? hv).trans
      (bind_error (hconvert v hmem q hv))) (w.realm.heap.object r).elements.size 0 []
      ⟨j, v, Nat.zero_le _, by rw [Nat.zero_add]; exact hj, by rw [Array.getElem?_eq_getElem hj, hitem], hobject⟩
    unfold join
    rw [bind_ok (object_of_some (h.has r hr).object?)]
    exact bind_error htexts

end Run

namespace World

/-! ## Messages -/

/-- What rendering a value does. Whatever the value is, no compiled code runs: the machine, the environments and the
record of stubs stay as they are. What is no array is rendered without any effect. An array is rendered, and nothing
that exists changes, if arrays are not nested too deep in it and its elements have methods that only read. Arrays
that contain only each other are never done. -/
theorem rendering_effects {w : World} (hw : w.Arises) (v : Value) :
    w.Beside ((Run.displayWith Run.detached v).after w) ∧
    ((∀ r, Heap.ref? v = some r → w.realm.heap.Has r ∧ (w.realm.heap.object r).cls ≠ .array) →
      ∃ t, Run.displayWith Run.detached v w = .ok t w) ∧
    (∀ n r, Heap.ref? v = some r → w.Nested n r → n ≤ 2 ^ 61 →
      ∃ t w₁, Run.displayWith Run.detached v w = .ok t w₁ ∧ w.Undisturbed w₁) ∧
    ∀ arrays r, w.Knot arrays → Heap.ref? v = some r → arrays r →
      ∀ fuel, Run.displayWith (Run.evaluator false fuel) v w = .error .exhausted w := by
  have hobject {ev : Evaluator} {r : ObjectRef} (hv : Heap.ref? v = some r) :
      Run.displayWith ev v = Run.defaultText ev r := by rw [Run.displayWith, hv]
  refine ⟨Run.displayWith_local (Run.evaluator_local _) v w, fun hplain => ?_, fun n r hv hnested hn => ?_,
    fun arrays r hknot hv hr fuel => ?_⟩
  · cases hv : Heap.ref? v with
    | none =>
      rw [Run.displayWith, hv]
      exact ⟨_, rfl⟩
    | some r =>
      obtain ⟨hr, hcls⟩ := hplain r hv
      rw [hobject hv]
      exact Run.defaultText_run hr.object? hcls
  · rw [hobject hv]
    refine Run.defaultText_quiet hnested.has (fun harray sep w₁ hw₁ => ?_) (.refl w)
    exact Run.join_of_nested hw.sound hnested harray Run.nestingBound sep w₁ (by rw [Run.nestingBound]; omega) hw₁
  · rw [hobject hv]
    exact Run.defaultText_exhausted (hknot.has r hr) (hknot.array r hr) (Run.join_exhausted hknot fuel hr)

theorem Arises.create {w : World} (h : w.Arises) {o : Object}
    (hproto : ∀ p, o.proto = some p → w.realm.heap.Has p) (hfunction : ∀ f, o.function = some f →
      ∃ b, f.body = .builtin b ∧ ∀ p, b ≠ .errorConstructor p) (hkeyed : o.Keyed) :
    (w.withHeap fun h => (h.alloc o).2).Arises := by
  obtain ⟨config, hevolves⟩ := h
  refine ⟨config, hevolves.tail (.create o hproto (fun p hmakes => ?_) (fun e hcloses => ?_) hkeyed)⟩
  · obtain ⟨name, hname⟩ := hmakes
    obtain ⟨b, hb, hne⟩ := hfunction _ hname
    exact absurd (FunctionBody.builtin.inj hb).symm (hne p)
  · obtain ⟨name, code, hname⟩ := hcloses
    obtain ⟨b, hb, -⟩ := hfunction _ hname
    cases hb

/-- A world with a built-in function, an object that has it for its method, and an array that contains something. -/
def equipped (b : Builtin) (cls : ObjectClass) (elements : Array Value) (item : Value) : World :=
  (((blank ⟨0, 0, 0⟩).withHeap fun h => (h.alloc { Object.ofClass .function (some 2) with
      function := some ⟨[], .builtin b⟩ }).2).withHeap fun h => (h.alloc (Object.define
    { Object.ofClass cls (some 1) with elements := ⟨elements, 1, #[]⟩ } "toString"
      (Property.hidden (Heap.value 6)))).2).withHeap fun h => (h.alloc
    { Object.ofClass .array (some 3) with elements := ⟨#[item], 1, #[]⟩ }).2

theorem equipped_arises {b : Builtin} (hb : ∀ p, b ≠ .errorConstructor p) (cls : ObjectClass)
    (elements : Array Value) (item : Value) : (equipped b cls elements item).Arises := by
  have hblank : (blank ⟨0, 0, 0⟩).Arises := ⟨⟨0, 0, 0⟩, .refl⟩
  have hone : (blank ⟨0, 0, 0⟩).realm.heap.Has 1 := by decide
  have hthree : (blank ⟨0, 0, 0⟩).realm.heap.Has 3 := by decide
  refine ((hblank.create ?_ ?_ ?_).create ?_ ?_ ?_).create ?_ ?_ ?_
  · rintro p ⟨⟩
    decide
  · rintro f ⟨⟩
    exact ⟨b, rfl, hb⟩
  · exact Object.keyed_of_bare rfl rfl
  · rintro p ⟨⟩
    exact hone.mono (extends_alloc _ _).size_le
  · rintro f ⟨⟩
  · exact (Object.keyed_of_bare rfl rfl).define fun h => absurd h (by decide +kernel)
  · rintro p ⟨⟩
    exact hthree.mono ((extends_alloc _ _).trans (extends_alloc _ _)).size_le
  · rintro f ⟨⟩
  · exact Object.keyed_of_bare rfl rfl

/-- An array that contains itself, and one that contains an object without methods. -/
theorem rendering_effects_knotted : ∃ w : World, w.Arises ∧
    (∃ t w₁, Run.displayWith Run.detached (Heap.value 8) w = .ok t w₁ ∧ w.Undisturbed w₁) ∧
      ∀ fuel, Run.displayWith (Run.evaluator false fuel) (Heap.value 7) w = .error .exhausted w := by
  have harises := equipped_arises (b := .objectToString) nofun .array #[Heap.value 7] (Heap.value 1)
  have hplain :
      ((equipped .objectToString .array #[Heap.value 7] (Heap.value 1)).realm.heap.object 1).cls ≠ .array := by
    decide +kernel
  have helement (v : Value) (hv : v ∈ ((equipped .objectToString .array #[Heap.value 7]
      (Heap.value 1)).realm.heap.object 8).elements.items) (q : ObjectRef) (href : Heap.ref? v = some q) : q = 1 := by
    rw [show ((equipped .objectToString .array #[Heap.value 7] (Heap.value 1)).realm.heap.object 8).elements.items =
      #[Heap.value 1] from rfl] at hv
    rw [Array.mem_singleton.1 hv] at href
    exact (Option.some.inj href).symm
  refine ⟨_, harises, ?_, ?_⟩
  · refine (rendering_effects harises (Heap.value 8)).2.2.1 2 8 (by decide) (.intro (by decide) ?_ ?_) (by decide)
    · intro _ v hv q href
      obtain rfl := helement v hv q href
      have hnone (key : Text) (h : ((equipped .objectToString .array #[Heap.value 7]
          (Heap.value 1)).realm.heap.find? 1 key).isNone = true) :
          (equipped .objectToString .array #[Heap.value 7] (Heap.value 1)).Answers 1 key := by
        rw [Answers, Option.isNone_iff_eq_none.1 h]
        trivial
      exact ⟨hnone _ (by decide +kernel), hnone _ (by decide +kernel)⟩
    · intro _ v hv q href
      obtain rfl := helement v hv q href
      exact .intro (by decide) (fun h => absurd h hplain) fun h => absurd h hplain
  · refine (rendering_effects harises (Heap.value 7)).2.2.2 (· = 7) 7 ⟨?_, ?_, ?_, ?_, ?_⟩ (by decide) rfl
    · rintro r rfl
      decide
    · rintro r rfl
      rfl
    · rintro r rfl v hv q href
      rw [show ((equipped .objectToString .array #[Heap.value 7] (Heap.value 1)).realm.heap.object 7).elements.items =
        #[Heap.value 7] from rfl] at hv
      rw [Array.mem_singleton.1 hv] at href
      exact (Option.some.inj href).symm
    · rintro r rfl
      exact ⟨Heap.value 7, Array.mem_singleton_self _, rfl⟩
    · rintro r rfl
      refine ⟨7, Property.hidden (Heap.value 6), Heap.value 6, true, 6, [], .objectToString,
        find?_of_own? ?_ (Object.own?_define_self ..), rfl, rfl, rfl, .inl rfl⟩
      rintro ⟨-, hlength | hindex⟩
      · exact absurd hlength (by decide)
      · exact absurd hindex (by decide +kernel)

/-- An object in an array prints when the array is rendered. -/
theorem rendering_prints : ¬ ∀ (w : World) (v : Value), w.Arises →
    ∃ t w₁, Run.displayWith Run.detached v w = .ok t w₁ ∧ w.Undisturbed w₁ := by
  intro h
  obtain ⟨t, w₁, hrun, hsame⟩ := h _ (Heap.value 8) (equipped_arises (b := .print) nofun .object #[] (Heap.value 7))
  have hprinted : ((Run.displayWith Run.detached (Heap.value 8)).after
      (equipped .print .object #[] (Heap.value 7))).output.size = 1 := by decide +kernel
  rw [Run.after_ok hrun, hsame.output] at hprinted
  cases hprinted

end World

end RegisterJit
