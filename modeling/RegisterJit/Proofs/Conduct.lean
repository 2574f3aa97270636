import RegisterJit.Proofs.Evolution

/-!
# What values may do to the world

Steps that go on from a world by changes only, whatever comes of them, and how they are put together.
Looking properties up, storing and deleting them, converting values and the operators are such steps.

`Run.Tame` says of a step that whatever it comes to, it made changes only, as far as it came. `Tame.bind` and
`Tame.trail` put steps together, and there is one lemma for each function of the runtime that works on values:
lookups, stores, deletions, conversions, loops over keys and operators. A few of them may touch more than the
others because the object is young, such as the one that a wrapper or a function is made of; `defineYoung_tame`
and the lemmas whose names end in `bind_tame` are for these. Nested evaluation comes in as `Evaluator.Tame`,
a hypothesis here, which `Service` discharges for the evaluator of the machine by induction on its depth.
-/

namespace RegisterJit

namespace Run

variable {m : Moment} {w : World} {α β : Type}

/-- A step that goes on from a world by changes only, whatever comes of it. -/
structure Tame (m : Moment) (x : Run α) (w : World) : Prop where
  grows : w.Past m → w.realm.Sound → w.Grows m (x.after w)

/-! ## Putting steps together -/

namespace Tame

variable {x : Run α} {f : α → Run β}

theorem evolves (h : Tame m x w) (hpast : w.Past m) (hsound : w.realm.Sound) : w.Evolves m (x.after w) :=
  (h.grows hpast hsound).evolves

theorem of_growth (h : w.Growth m (x.after w)) : Tame m x w := ⟨fun _ _ => h.grows⟩

theorem of_change (h : w.Change m (x.after w))
    (henvs : (x.after w).realm.scopes.envs = w.realm.scopes.envs) : Tame m x w := .of_growth (h.growth henvs)

theorem pure (a : α) : Tame m (pure a : Run α) w := ⟨fun _ _ => .refl⟩

theorem throw (e : Fault) : Tame m (throw e : Run α) w := ⟨fun _ _ => .refl⟩

/-- Steps one after the other; what is known of the first one's result may be used for the second. -/
theorem bind (hx : Tame m x w)
    (hf : w.Past m → w.realm.Sound → ∀ a w', x w = .ok a w' → Tame m (f a) w') :
    Tame m (x >>= f) w := by
  refine ⟨fun hpast hsound => ?_⟩
  have hfirst := hx.grows hpast hsound
  cases h : x w with
  | ok a w' =>
    rw [after_ok h] at hfirst
    rw [after_bind_ok h]
    have hevolves := hfirst.evolves
    exact hfirst.trans ((hf hpast hsound a w' h).grows (hevolves.past hpast) (hevolves.sound hsound))
  | error e w' =>
    rw [after_error h] at hfirst
    rw [after_bind_error h]
    exact hfirst

theorem throw_next (e : Fault) (f : α → Run β) : Tame m ((MonadExcept.throw e : Run α) >>= f) w :=
  (throw e).bind fun _ _ _ _ h => nomatch h

theorem next (hx : Tame m x w) (hf : ∀ a w', Tame m (f a) w') : Tame m (x >>= f) w :=
  hx.bind fun _ _ a w' _ => hf a w'

/-- Steps one after the other; what lasts from before may be used for the second. -/
theorem trail (hx : Tame m x w) (hf : ∀ a w', w.Evolves m w' → Tame m (f a) w') :
    Tame m (x >>= f) w :=
  hx.bind fun hpast hsound a w' h => hf a w' (after_ok h ▸ hx.evolves hpast hsound)

theorem read (hx : x.after w = w) (hf : ∀ a, x w = .ok a w → Tame m (f a) w) :
    Tame m (x >>= f) w := by
  refine bind ⟨fun _ _ => by rw [hx]⟩ fun _ _ a w' h => ?_
  obtain rfl : w' = w := (after_ok h).symm.trans hx
  exact hf a h

theorem map {g : α → β} (hx : Tame m x w) : Tame m (g <$> x) w :=
  hx.next (f := fun a => Pure.pure (g a)) fun _ _ => .pure _

theorem forM {f : α → Run PUnit} (hf : ∀ a w, Tame m (f a) w) (xs : List α) :
    Tame m (xs.forM f) w := by
  induction xs generalizing w with
  | nil => exact .pure _
  | cons a rest ih => exact .next (hf a w) fun _ _ => ih

theorem heap {f : Heap → Run β} (h : Tame m (f w.realm.heap) w) : Tame m (heap >>= f) w := ⟨h.1⟩

theorem realm {f : Realm → Run β} (h : Tame m (f w.realm) w) : Tame m (realm >>= f) w := ⟨h.1⟩

theorem machine {f : Machine → Run β} (h : Tame m (f w.machine) w) :
    Tame m (machine >>= f) w := ⟨h.1⟩

theorem attempt (hx : Tame m x w) : Tame m (attempt x) w := by
  have hafter : (Run.attempt x).after w = x.after w := by
    unfold after Run.attempt
    cases x w with
    | ok a w' => rfl
    | error e w' => cases he : e.isRecoverable <;> simp [he]
  exact ⟨fun hpast hsound => hafter ▸ hx.grows hpast hsound⟩

theorem restoring (hx : Tame m x w) : Tame m (restoring x) w := by
  refine ⟨fun hpast hsound => (hx.grows hpast hsound).tail ?_⟩
  unfold after Run.restoring
  cases x w <;> exact (World.Change.machine _).growth rfl

end Tame

/-! ## Changes of the world -/

theorem modifyMachine_tame (f : Machine → Machine) : Tame m (modifyMachine f) w :=
  .of_change (.machine _) rfl

theorem intern_tame (t : Text) : Tame m (intern t) w := .of_change (.intern t) rfl

theorem internPrimitive_tame (t : Text) : Tame m (internPrimitive t) w := .of_change (.intern t) rfl

theorem printLine_tame (t : Text) : Tame m (printLine t) w := .of_change (.print _) rfl

theorem modifyContent_tame (r : ObjectRef) {f : Object → Object} (hf : ∀ o : Object, o.Alike (f o)) :
    Tame m (modifyObject r f) w := .of_change (.content r f hf) rfl

section

variable {r : Nat} (hr : m.objects < r)

include hr

theorem modifyYoung_tame {f : Object → Object} (hf : ∀ o : Object, o.Same (f o))
    (hkeyed : ∀ o : Object, o.Keyed → (f o).Keyed) : Tame m (modifyObject r f) w :=
  .of_change (.construct r f hr hf hkeyed) rfl

/-- A property that loops do not enumerate has a name that is no numeral. -/
theorem defineYoung_tame (key : Text) (p : Property)
    (hp : key.all Text.isDigit = true → p.enumerable = true) : Tame m (define r key p) w :=
  modifyYoung_tame hr (fun o => o.same_define ..) fun _ h => h.define hp

theorem defineNamed_tame {key : Text} (hkey : key.all Text.isDigit = false) {p : Property} :
    Tame m (define r key p) w :=
  defineYoung_tame hr key p fun h => by
    rw [hkey] at h
    cases h

end

theorem alloc_tame {o : Object} (hproto : w.realm.Sound → ∀ p, o.proto = some p → w.realm.heap.Has p)
    (hmakes : ∀ p, o.Makes p → w.realm.heap.Has p)
    (hcloses : ∀ e, o.Closes e → e < w.realm.scopes.envs.size) (hkeyed : o.Keyed) : Tame m (alloc o) w :=
  ⟨fun _ hsound => ((World.Change.create o (hproto hsound) hmakes hcloses hkeyed).growth rfl).grows⟩

theorem alloc_bind_tame {o : Object} {f : ObjectRef → Run β}
    (hproto : w.realm.Sound → ∀ p, o.proto = some p → w.realm.heap.Has p)
    (hmakes : ∀ p, o.Makes p → w.realm.heap.Has p)
    (hcloses : ∀ e, o.Closes e → e < w.realm.scopes.envs.size) (hkeyed : o.Keyed)
    (hf : ∀ r w', m.objects < r → Tame m (f r) w') : Tame m (alloc o >>= f) w :=
  (alloc_tame hproto hmakes hcloses hkeyed).bind fun hpast _ r w' h => by
    cases h
    exact hf _ _ (Nat.lt_succ_of_le hpast.objects)

/-! ## Looking things up -/

theorem refOrCrash_ok {v : Value} {r : ObjectRef} {w' : World} (h : refOrCrash v w = .ok r w') :
    w' = w ∧ r = v.handle.toNat ∧ w.realm.heap.Has r := by
  rw [refOrCrash_eq] at h
  split at h
  · cases h
    exact ⟨rfl, rfl, ‹_›⟩
  · cases h

theorem refOrCrash_tame (v : Value) : Tame m (refOrCrash v) w := by
  refine .heap ?_
  split
  · exact .pure _
  · exact .throw _

theorem object_ok {r : ObjectRef} {o : Object} {w' : World} (h : object r w = .ok o w') :
    w' = w ∧ w.realm.heap.object? r = some o := by
  cases ho : w.realm.heap.object? r with
  | none =>
    rw [object_of_none ho] at h
    cases h
  | some o =>
    rw [object_of_some ho] at h
    cases h
    exact ⟨rfl, rfl⟩

theorem object_tame (r : ObjectRef) : Tame m (object r) w := by
  refine .heap ?_
  split
  · exact .pure _
  · exact .throw _

theorem protoOf_ok {v : Value} {r : ObjectRef} {w' : World} (hw : w.realm.Sound)
    (h : protoOf v w = .ok r w') : w' = w ∧ w.realm.heap.Has r := by
  unfold protoOf at h
  split at h
  · obtain ⟨rfl, -, hr⟩ := refOrCrash_ok h
    exact ⟨rfl, hr⟩
  · cases h
    exact ⟨rfl, hw.objectProto⟩

theorem protoOf_tame (v : Value) : Tame m (protoOf v) w := by
  unfold protoOf
  split
  · exact refOrCrash_tame v
  · exact .realm (.pure _)

/-! ## Objects and errors -/

theorem newObject_bind_tame {f : ObjectRef → Run β}
    (hf : ∀ r w', m.objects < r → Tame m (f r) w') : Tame m (newObject >>= f) w :=
  ⟨(alloc_bind_tame (fun hw _ hp => by cases hp; exact hw.objectProto) (fun _ => nofun) (fun _ => nofun)
    Object.keyed_ofClass hf :
    Tame m (alloc (Object.ofClass .object (some w.realm.objectProto)) >>= f) w).1⟩

theorem newObject_tame : Tame m newObject w :=
  .realm (alloc_tame (fun hw _ hp => by cases hp; exact hw.objectProto) (fun _ => nofun) (fun _ => nofun)
    Object.keyed_ofClass)

theorem newArray_tame (n : Nat) : Tame m (newArray n) w :=
  .realm (alloc_tame (fun hw _ hp => by cases hp; exact hw.arrayProto) (fun _ => nofun) (fun _ => nofun)
    (Object.keyed_of_bare rfl rfl))

theorem newError_tame {proto : ObjectRef} (message : Text)
    (hproto : w.realm.Sound → w.realm.heap.Has proto) : Tame m (newError proto message) w := by
  refine alloc_bind_tame (fun hw p hp => by cases hp; exact hproto hw) (fun _ => nofun) (fun _ => nofun)
    Object.keyed_ofClass fun r w' hr => ?_
  dsimp only
  split
  · exact .next (intern_tame _) fun _ _ =>
      .next (defineNamed_tame hr (by decide +kernel)) fun _ _ => .pure _
  · exact .pure _

theorem raise_tame (kind : ErrorKind) (message : Text) : Tame m (raise kind message : Run α) w :=
  .realm <| .bind (protoOf_tame _) fun _ hsound proto w₁ h => by
    obtain ⟨rfl, hproto⟩ := protoOf_ok hsound h
    exact .next (newError_tame _ fun _ => hproto) fun _ _ => .heap (.throw _)

theorem raise_ne_ok {kind : ErrorKind} {message : Text} {a : α} {w' : World} :
    raise kind message w ≠ .ok a w' := by
  intro h
  unfold raise at h
  change EStateM.bind (protoOf _) _ w = _ at h
  unfold EStateM.bind at h
  split at h
  · next proto w₁ _ =>
    change EStateM.bind (newError _ _) _ w₁ = _ at h
    unfold EStateM.bind at h
    split at h <;> cases h
  · cases h

theorem raise_next_tame (kind : ErrorKind) (message : Text) (f : α → Run β) :
    Tame m (raise kind message >>= f) w :=
  (raise_tame kind message).bind fun _ _ _ _ h => absurd h raise_ne_ok

theorem internalError_tame (message : Text) : Tame m (internalError message : Run α) w := .throw _

/-! ## Conversions -/

end Run

/-- What calls functions and converts objects by changes only. -/
structure Evaluator.Tame (m : Moment) (ev : Evaluator) : Prop where
  call : ∀ {fn this args w}, Run.Tame m (ev.call fn this args) w
  toPrimitive : ∀ {v hint w}, Run.Tame m (ev.toPrimitive v hint) w
  display : ∀ {v w}, Run.Tame m (ev.display v) w

namespace Run

variable {m : Moment} {w : World} {α β : Type} {ev : Evaluator}

section

variable (hev : ev.Tame m)

include hev

theorem toNumber_tame (v : Value) : Tame m (toNumber ev v) w := by
  unfold toNumber
  dsimp only
  split
  · exact .next (.map hev.toPrimitive) fun _ _ => .heap (.pure _)
  · exact .read rfl fun _ _ => .heap (.pure _)

theorem toText_tame (v : Value) : Tame m (toText ev v) w := by
  unfold toText
  dsimp only
  split
  · exact .next (.map hev.toPrimitive) fun _ _ => .heap (.pure _)
  · exact .read rfl fun _ _ => .heap (.pure _)

theorem propertyKey_tame (v : Value) : Tame m (propertyKey ev v) w := by
  unfold propertyKey
  split
  · exact .pure _
  · exact toText_tame hev v

theorem elementTexts_tame (r : ObjectRef) (generation count i : Nat) (done : List Text) :
    Tame m (elementTexts ev r generation count i done) w := by
  induction count generalizing i done w with
  | zero => exact .pure _
  | succ count ih =>
    refine .next (object_tame r) fun o w₁ => ?_
    dsimp only
    split
    · exact ih _ _
    · exact .next (toText_tame hev _) fun t w₂ => ih _ _

theorem join_tame (r : ObjectRef) (sep : Text) : Tame m (join ev r sep) w :=
  .next (object_tame r) fun _ _ => .next (elementTexts_tame hev _ _ _ _ _) fun _ _ => .pure _

omit hev in
theorem classText_tame (o : Object) : Tame m (classText o) w := by
  unfold classText
  split
  · exact .pure _
  · exact .heap (.pure _)

theorem defaultText_tame (r : ObjectRef) : Tame m (defaultText ev r) w := by
  refine .next (object_tame r) fun o w₁ => ?_
  split
  · refine .next (.attempt (join_tame hev _ _)) fun t w₂ => ?_
    split
    · exact .pure _
    · exact classText_tame _
  · exact .pure _
  · exact .heap (.pure _)
  · exact .heap (.pure _)
  · exact classText_tame _

theorem displayWith_tame (v : Value) : Tame m (displayWith ev v) w := by
  unfold displayWith
  split
  · exact defaultText_tame hev _
  · exact .heap (.pure _)

/-! ## Properties -/

theorem get_tame (r : ObjectRef) (key : Text) (receiver : Value) :
    Tame m (get ev r key receiver) w := by
  refine .heap ?_
  split
  · exact .pure _
  · exact .pure _
  · split
    · exact .pure _
    · split
      · exact .pure _
      · exact hev.call

theorem getProperty_tame (base : Value) (key : Text) : Tame m (getProperty ev base key) w := by
  unfold getProperty
  dsimp only
  split
  · exact .next (refOrCrash_tame _) fun _ _ => get_tame hev _ _ _
  · split
    · refine .read rfl fun t _ => ?_
      split
      · exact .pure _
      · split
        · exact intern_tame _
        · exact .realm (get_tame hev _ _ _)
    · split
      · exact .heap (raise_tame _ _)
      · exact .realm (get_tame hev _ _ _)

theorem byMethod_tame {v : Value} {name : Text} {otherwise : Run Primitive}
    (h : ∀ w, Tame m otherwise w) (w : World) : Tame m (byMethod ev v name otherwise) w := by
  refine .next (getProperty_tame hev _ _) fun fn w₁ => .read rfl fun callable _ => ?_
  split
  · refine .next hev.call fun result w₂ => ?_
    split
    · exact h _
    · exact .pure _
  · exact h _

theorem fallbackPrimitive_tame (r : ObjectRef) (o : Object) (hint : Hint) (w : World) :
    Tame m (fallbackPrimitive ev r o hint) w := by
  unfold fallbackPrimitive
  split
  · exact .pure _
  · exact .next (defaultText_tame hev _) fun _ _ => internPrimitive_tame _

theorem toPrimitiveWith_tame (v : Value) (hint : Hint) :
    Tame m (toPrimitiveWith ev v hint) w := by
  unfold toPrimitiveWith
  split
  · exact .pure _
  · refine .next (object_tame _) fun o w₁ => ?_
    dsimp only
    have hfallback := fallbackPrimitive_tame hev
    split
    · exact byMethod_tame hev (byMethod_tame hev (hfallback _ _ _)) _
    · exact byMethod_tame hev (byMethod_tame hev (hfallback _ _ _)) _

end

/-- The wrapper of a primitive is young while its characters are defined, and it exists when it is used. -/
theorem toObject_bind_tame (v : Value) {f : ObjectRef → Run β}
    (hf : ∀ r w', w'.realm.heap.Has r → Tame m (f r) w') : Tame m (toObject v >>= f) w := by
  unfold toObject
  split
  · refine .bind (refOrCrash_tame v) fun _ _ r w₁ h => ?_
    obtain ⟨rfl, -, hr⟩ := refOrCrash_ok h
    exact hf r _ hr
  · split
    · simp only [bind_assoc]
      exact .heap (raise_next_tame _ _ _)
    · simp only [bind_assoc]
      refine .bind newObject_tame fun hpast _ r w₁ h => ?_
      have hyoung : m.objects < r := by
        cases h
        exact Nat.lt_succ_of_le hpast.objects
      have hr : w₁.realm.heap.Has r := by
        cases h
        exact ⟨Nat.succ_pos _, Nat.le_of_eq (Heap.size_alloc _ _).symm⟩
      refine .trail (modifyYoung_tame hyoung (fun _ => ⟨rfl, rfl, rfl⟩) fun _ h => h.congr rfl rfl)
        fun _ w₂ h₂ => ?_
      split
      · simp only [bind_assoc]
        refine .read rfl fun t _ => .trail (.forM (fun c w => .next (intern_tame _) fun _ _ =>
          defineYoung_tame hyoung _ _ fun _ => rfl) _) fun _ w₃ h₃ => ?_
        exact hf r w₃ (hr.mono (Nat.le_trans h₂.objects_le h₃.objects_le))
      · exact hf r w₂ (hr.mono h₂.objects_le)

theorem toObject_tame (v : Value) : Tame m (toObject v) w :=
  bind_pure (toObject v) ▸ toObject_bind_tame v fun _ _ _ => .pure _

section

variable (hev : ev.Tame m)

include hev

/-- A store changes a writable property of its object, or adds one where the object has none. -/
theorem putNamed_tame (r : ObjectRef) (base : Value) (key : Text) (v : Value) (strict : Bool)
    (hkey : ¬ Heap.Indexes (w.realm.heap.object r) key) :
    Tame m (putNamed ev r base key v strict) w := by
  refine .heap ?_
  split
  · next owner p hfound =>
    split
    · split
      · split
        · exact raise_tame _ _
        · exact .pure _
      · exact .next hev.call fun _ _ => .pure _
    · next old writable hbody =>
      split
      · split
        · exact raise_tame _ _
        · exact .pure _
      · next hwritable =>
        rw [Bool.not_eq_true, Bool.not_eq_false'] at hwritable
        split
        · next howner =>
          subst howner
          exact .of_change (.assign _ key p old v (Heap.own?_of_find? hfound) (hwritable ▸ hbody)) rfl
        · next howner =>
          refine .of_change (.add r key _ (Heap.own?_eq_none_of_find? hkey fun q hq => ?_) rfl) rfl
          rw [hfound] at hq
          cases hq
          exact howner rfl
  · next hfound =>
    exact .of_change (.add r key _ (Heap.own?_eq_none_of_find? hkey fun q hq => hfound r q hq) rfl) rfl

theorem putLength_tame (r : ObjectRef) (v : Value) : Tame m (putLength ev r v) w := by
  refine .next (toNumber_tame hev _) fun n w₁ => ?_
  split
  · exact modifyContent_tame r fun _ => ⟨⟨rfl, rfl, rfl⟩, rfl, rfl, rfl⟩
  · exact raise_tame _ _

theorem putProperty_tame (base : Value) (key : Text) (v : Value) (strict : Bool) :
    Tame m (putProperty ev base key v strict) w := by
  unfold putProperty
  dsimp only
  split
  · exact .heap (raise_next_tame _ _ _)
  · split
    · split
      · exact .heap (raise_tame _ _)
      · exact .pure _
    · next r _ =>
      refine .bind (object_tame r) fun _ _ o w₁ ho => ?_
      obtain ⟨rfl, ho⟩ := object_ok ho
      rw [← Heap.object_eq ho]
      split
      · exact putLength_tame hev _ _
      · next hlength =>
        split
        · next i hi =>
          split
          · exact modifyContent_tame r fun o => o.alike_setElement i v
          · next hfar =>
            refine putNamed_tame hev _ _ _ _ _ fun ⟨harray, hkey⟩ => hkey.elim
              (fun hkey => hlength ⟨harray, hkey⟩) fun helement =>
                hfar ⟨harray, Nat.lt_add_right _ (Object.lt_of_elementOf? hi helement)⟩
        · next hi =>
          refine putNamed_tame hev _ _ _ _ _ fun ⟨harray, hkey⟩ => hkey.elim
            (fun hkey => hlength ⟨harray, hkey⟩) fun helement => ?_
          rw [Object.elementOf?, hi] at helement
          cases helement

omit hev in
theorem deleteProperty_tame (base : Value) (key : Text) (strict : Bool) :
    Tame m (deleteProperty base key strict) w := by
  unfold deleteProperty
  dsimp only
  split
  · exact .heap (raise_next_tame _ _ _)
  · split
    · exact .pure _
    · next r _ =>
      refine .bind (object_tame r) fun _ _ o w₁ ho => ?_
      obtain ⟨rfl, ho⟩ := object_ok ho
      split
      · split
        · exact raise_tame _ _
        · exact .pure _
      · split
        · exact .next (modifyContent_tame r fun _ => ⟨⟨rfl, rfl, rfl⟩, rfl, rfl, rfl⟩) fun _ _ =>
            .pure _
        · split
          · exact .pure _
          · next p hp =>
            rw [← Heap.object_eq ho] at hp
            split
            · next hconfigurable =>
              exact .next (.of_change (.delete r key p hp hconfigurable) rfl) fun _ _ => .pure _
            · split
              · exact raise_tame _ _
              · exact .pure _

theorem loadKeyed_tame (base element : Value) (direct : Option Value) : Tame m (match direct with
    | some v => (return v : Run Value)
    | none => do getProperty ev base (← propertyKey ev element)) w := by
  split
  · exact .pure _
  · exact .next (propertyKey_tame hev _) fun _ _ => getProperty_tame hev _ _

theorem loadElement_tame (base element : Value) : Tame m (loadElement ev base element) w := by
  have hslow (direct : Option Value) (w : World) := loadKeyed_tame (m := m) (w := w) hev base element direct
  unfold loadElement
  dsimp only
  split
  · split
    · exact .next (object_tame _) fun _ _ => .read rfl fun _ _ => hslow _ _
    · exact .read rfl fun _ _ => hslow _ _
  · exact .read rfl fun _ _ => hslow _ _

theorem stepNumber_tame (old : Value) (mode : UInt64) : Tame m (stepNumber ev old mode) w :=
  .next (toNumber_tame hev _) fun _ _ => .pure _

theorem stepProperty_tame (base : Value) (key : Text) (mode : UInt64) :
    Tame m (stepProperty ev base key mode) w :=
  .next (getProperty_tame hev _ _) fun _ _ => .next (stepNumber_tame hev _ _) fun _ _ =>
    .next (putProperty_tame hev _ _ _ _) fun _ _ => .pure _

end

/-! ## Loops over keys -/

theorem enumerate_tame (v : Value) : Tame m (enumerate v) w :=
  .next (toObject_tame v) fun _ _ => .heap <|
    .next (alloc_tame (fun _ => nofun) (fun _ => nofun) (fun _ => nofun) (Object.keyed_of_bare rfl rfl)) fun _ _ =>
      .pure _

theorem nextKey_tame (v : Value) (hs : .forInEnumerate ∈ w.calledSince m) :
    Tame m (nextKey v) w := by
  refine .trail (refOrCrash_tame v) fun r w₁ h₁ => .trail (object_tame r) fun o w₂ h₂ => ?_
  split
  · exact .throw _
  · refine .heap (.next (.of_change (.iterate (.inl (h₂.calledSince (h₁.calledSince hs))) r _) rfl)
      fun _ w₃ => ?_)
    split
    · exact .pure _
    · exact intern_tame _

theorem endEnumeration_tame (v : Value) (hs : .forInLeave ∈ w.calledSince m) :
    Tame m (endEnumeration v) w := by
  unfold endEnumeration
  split
  · exact .of_change (.iterate (.inr hs) _ none) rfl
  · exact .pure _

/-! ## Operators -/

section

variable (hev : ev.Tame m)

include hev

theorem looseEquals_tame (a b : Value) (w : World) : Tame m (looseEquals ev a b) w := by
  rw [looseEquals_eq]
  refine .heap ?_
  split
  · exact .pure _
  · next hs =>
    have := Heap.looseRank_of_replace hs
    exact looseEquals_tame _ _ _
  · next hs =>
    exact .next hev.toPrimitive fun p _ =>
      have := Heap.looseRank_of_convertLeft hs p
      looseEquals_tame _ _ _
  · next hs =>
    exact .next hev.toPrimitive fun p _ =>
      have := Heap.looseRank_of_convertRight hs p
      looseEquals_tame _ _ _
termination_by Heap.looseRank a + Heap.looseRank b

theorem add_tame (a b : Value) : Tame m (add ev a b) w := by
  unfold add
  split
  · exact .pure _
  · refine .next hev.toPrimitive fun _ _ => .next hev.toPrimitive fun _ _ => .heap ?_
    split
    · exact intern_tame _
    · exact .pure _

theorem lessThan_tame (a b : Value) (leftFirst : Bool) : Tame m (lessThan ev a b leftFirst) w := by
  cases leftFirst with
  | false | true =>
    exact .next hev.toPrimitive fun _ _ => .next hev.toPrimitive fun _ _ => .heap (.pure _)

theorem compare_tame (c : Comparison) (a b : Value) : Tame m (compare ev c a b) w := by
  cases c with
  | lt | gt | lte | gte => exact .next (lessThan_tame hev _ _ _) fun _ _ => .pure _
  | eq => exact looseEquals_tame hev _ _ _
  | ne => exact .next (looseEquals_tame hev _ _ _) fun _ _ => .pure _
  | strictEq | strictNe => exact .pure _

theorem instanceOf_tame (v ctor : Value) : Tame m (instanceOf ev v ctor) w := by
  refine .read rfl fun callable _ => ?_
  dsimp only
  split
  · exact raise_next_tame _ _ _
  · split
    · exact .pure _
    · refine .next (getProperty_tame hev _ _) fun proto w₁ => ?_
      split
      · exact raise_tame _ _
      · exact .heap (.pure _)

theorem memberOf_tame (key container : Value) : Tame m (memberOf ev key container) w := by
  unfold memberOf
  split
  · exact .heap (raise_tame _ _)
  · exact .next (propertyKey_tame hev _) fun _ _ => .heap (.pure _)

theorem binary_tame (op : BinaryOp) (a b : Value) : Tame m (binary ev op a b) w := by
  unfold binary
  split
  · exact add_tame hev _ _
  · exact .next (compare_tame hev _ _ _) fun _ _ => .pure _
  · exact .next (instanceOf_tame hev _ _) fun _ _ => .pure _
  · exact .next (memberOf_tame hev _ _) fun _ _ => .pure _
  · refine .next (toNumber_tame hev _) fun x _ => .next (toNumber_tame hev _) fun y _ => ?_
    split
    · exact .pure _
    · exact .throw _

theorem unaryStub_tame (s : Stub) (v : Value) : Tame m (unaryStub ev s v) w := by
  unfold unaryStub
  split
  · exact .heap (.pure _)
  · exact .heap (.pure _)
  · exact .heap (intern_tame _)
  · exact .next hev.toPrimitive fun _ _ => .heap (intern_tame _)
  · refine .next (toNumber_tame hev _) fun n _ => ?_
    split
    all_goals first
      | exact .pure _
      | exact .throw _

theorem concatFrom_tame (done : List Text) (vs : List Value) :
    Tame m (concatFrom ev done vs) w := by
  induction vs generalizing done w with
  | nil => exact .pure _
  | cons v rest ih => exact .next (toText_tame hev _) fun _ _ => ih _

theorem concat_tame (vs : List Value) : Tame m (concat ev vs) w :=
  .next (concatFrom_tame hev _ _) fun _ _ => intern_tame _

end

end Run

end RegisterJit
