import RegisterJit.Script.World

/-!
# Reading a heap after a change

What the objects of a heap and the environments of a realm are after one of them was added or
changed, and what an own property is after another was defined or dropped.

There is a lemma for each pair of a change and a question: adding an object, changing one, adding an environment
or changing one on the one side, and asking for an object, a cell, a property or a key on the other. `Has` says
that an object with a property exists, `Listed` and `Keyed` that the names of an object are those of its
properties, each once, which is what makes reading a property after another was defined or dropped a matter of
names. The lemmas are rewriting rules: `Evolution` says with them what a step may change, and `Indices` where an
element is found.
-/

namespace RegisterJit

/-! ## Own properties -/

namespace Object

variable {o : Object} {key k : Text} {p : Property}

theorem lookup_put_self (key : Text) (p : Property) (props : List (Text × Property)) :
    (put key p props).lookup key = some p := by
  induction props with
  | nil => simp [put]
  | cons q rest ih =>
    obtain ⟨k, q⟩ := q
    rw [put]
    split
    · next h => simp [h]
    · next h => rw [List.lookup_cons, beq_false_of_ne (Ne.symm h), ih]

theorem lookup_put_of_ne (h : k ≠ key) (p : Property) (props : List (Text × Property)) :
    (put key p props).lookup k = props.lookup k := by
  induction props with
  | nil => simp [put, h]
  | cons q rest ih =>
    obtain ⟨k', q⟩ := q
    rw [put]
    split
    · next h' =>
      rw [List.lookup_cons, List.lookup_cons, h', beq_false_of_ne h]
    · rw [List.lookup_cons, List.lookup_cons, ih]

@[simp]
theorem own?_define_self (o : Object) (key : Text) (p : Property) :
    (o.define key p).own? key = some p :=
  lookup_put_self key p o.props

theorem own?_define_of_ne (h : k ≠ key) (p : Property) : (o.define key p).own? k = o.own? k :=
  lookup_put_of_ne h p o.props

theorem lookup_filter (key k : Text) (props : List (Text × Property)) :
    (props.filter fun q => q.1 != key).lookup k = if k = key then none else props.lookup k := by
  induction props with
  | nil => simp
  | cons q rest ih =>
    obtain ⟨k', q⟩ := q
    by_cases hk : k' = key
    · rw [List.filter_cons_of_neg (by simp [hk]), ih, List.lookup_cons, hk]
      split
      · rfl
      · next hne => rw [beq_false_of_ne hne]
    · rw [List.filter_cons_of_pos (by simp [hk]), List.lookup_cons, List.lookup_cons, ih]
      split
      · next heq => rw [if_neg fun hkey => hk ((eq_of_beq heq).symm.trans hkey)]
      · rfl

theorem own?_remove (o : Object) (key k : Text) :
    (o.remove key).own? k = if k = key then none else o.own? k := by
  rw [remove]
  split
  · exact lookup_filter key k o.props
  · next hnone =>
    split
    · next heq => rw [heq, Option.not_isSome_iff_eq_none.1 hnone]
    · rfl

theorem own?_remove_of_ne (h : k ≠ key) : (o.remove key).own? k = o.own? k := by
  rw [own?_remove, if_neg h]

theorem own?_eq_of_props_eq {o' : Object} (h : o'.props = o.props) (key : Text) :
    o'.own? key = o.own? key := by
  rw [own?, own?, h]

/-! ## Names -/

theorem keys_define (o : Object) (key : Text) (p : Property) :
    (o.define key p).keys = if (o.own? key).isSome then o.keys else o.keys ++ [key] :=
  rfl

theorem keys_remove (o : Object) (key : Text) :
    (o.remove key).keys = if (o.own? key).isSome then o.keys.erase key else o.keys := by
  rw [remove]
  split <;> rfl

/-- An object whose names are those of its properties, each once. -/
structure Listed (o : Object) : Prop where
  nodup : o.keys.Nodup
  mem_keys : ∀ key, key ∈ o.keys ↔ (o.own? key).isSome = true

theorem Listed.congr (h : o.Listed) {o' : Object} (hprops : o'.props = o.props)
    (hkeys : o'.keys = o.keys) : o'.Listed where
  nodup := hkeys ▸ h.nodup
  mem_keys key := by rw [hkeys, own?_eq_of_props_eq hprops, h.mem_keys]

theorem Listed.mem_keys_define (h : o.Listed) :
    k ∈ (o.define key p).keys ↔ k = key ∨ k ∈ o.keys := by
  rw [keys_define]
  split
  · next hsome =>
    refine ⟨.inr, ?_⟩
    rintro (rfl | hk)
    · exact (h.mem_keys _).2 hsome
    · exact hk
  · rw [List.mem_append, List.mem_singleton, or_comm]

theorem Listed.define (h : o.Listed) (key : Text) (p : Property) : (o.define key p).Listed := by
  constructor
  · rw [keys_define]
    split
    · exact h.nodup
    · next hnone =>
      refine List.nodup_append.2 ⟨h.nodup, List.pairwise_singleton _ _, fun k hk k' hk' heq => ?_⟩
      rw [List.mem_singleton] at hk'
      exact hnone ((h.mem_keys key).1 (hk' ▸ heq ▸ hk))
  · intro k
    rw [h.mem_keys_define, h.mem_keys]
    by_cases hk : k = key
    · simp [hk]
    · rw [own?_define_of_ne hk]
      exact or_iff_right hk

theorem Listed.keys_remove (h : o.Listed) (key : Text) : (o.remove key).keys = o.keys.erase key := by
  rw [Object.keys_remove]
  split
  · rfl
  · next hnone => rw [List.erase_of_not_mem (mt (h.mem_keys key).1 hnone)]

theorem Listed.remove (h : o.Listed) (key : Text) : (o.remove key).Listed := by
  constructor
  · exact h.keys_remove key ▸ h.nodup.erase key
  · intro k
    rw [h.keys_remove, h.nodup.mem_erase_iff, own?_remove, h.mem_keys]
    split
    · next heq => simp [heq]
    · next hne => exact and_iff_right hne

/-- Besides, a property that is named like an element is one that loops enumerate. -/
structure Keyed (o : Object) : Prop extends o.Listed where
  numerals : ∀ key p, key.all Text.isDigit = true → o.own? key = some p → p.enumerable = true

theorem keyed_of_bare (hprops : o.props = []) (hkeys : o.keys = []) : o.Keyed where
  nodup := hkeys ▸ List.nodup_nil
  mem_keys key := by rw [hkeys, own?, hprops]; simp
  numerals key p _ h := by
    rw [own?, hprops] at h
    cases h

theorem keyed_ofClass {cls : ObjectClass} {proto : Option ObjectRef} : (ofClass cls proto).Keyed :=
  keyed_of_bare rfl rfl

theorem Keyed.congr (h : o.Keyed) {o' : Object} (hprops : o'.props = o.props)
    (hkeys : o'.keys = o.keys) : o'.Keyed where
  toListed := h.toListed.congr hprops hkeys
  numerals key p hkey hown := h.numerals key p hkey (own?_eq_of_props_eq hprops key ▸ hown)

theorem Keyed.define (h : o.Keyed) (hp : key.all Text.isDigit = true → p.enumerable = true) :
    (o.define key p).Keyed := by
  refine ⟨h.toListed.define key p, fun k q hdigits hown => ?_⟩
  by_cases hk : k = key
  · subst hk
    rw [own?_define_self] at hown
    exact Option.some.inj hown ▸ hp hdigits
  · rw [own?_define_of_ne hk] at hown
    exact h.numerals k q hdigits hown

theorem Keyed.remove (h : o.Keyed) (key : Text) : (o.remove key).Keyed := by
  refine ⟨h.toListed.remove key, fun k q hdigits hown => ?_⟩
  rw [own?_remove] at hown
  split at hown
  · cases hown
  · exact h.numerals k q hdigits hown

theorem lt_of_elementOf? {i : Nat} (hi : arrayIndex? key = some i)
    (h : (o.elementOf? key).isSome = true) : i < o.elements.size := by
  rw [elementOf?, hi, Option.bind_some, element?] at h
  cases hitem : o.elements.items[i]? with
  | none =>
    rw [hitem] at h
    cases h
  | some v => exact (Array.getElem?_eq_some_iff.1 hitem).1

end Object

/-! ## Objects -/

namespace Heap

variable {h : Heap} {r q : Nat} {o : Object} {f : Object → Object}

/-- Whether there is an object with a number. -/
def Has (h : Heap) (r : Nat) : Prop := 0 < r ∧ r ≤ h.objects.size

instance (h : Heap) (r : Nat) : Decidable (h.Has r) := inferInstanceAs (Decidable (_ ∧ _))

theorem has_iff : h.Has r ↔ ∃ o, h.object? r = some o := by
  cases r with
  | zero => simp [Has, object?]
  | succ r =>
    rw [Has, object?, ← Option.isSome_iff_exists, Option.isSome_iff_ne_none, ne_eq,
      Array.getElem?_eq_none_iff]
    omega

theorem Has.mono (hr : h.Has r) {h' : Heap} (hle : h.objects.size ≤ h'.objects.size) : h'.Has r :=
  ⟨hr.1, Nat.le_trans hr.2 hle⟩

theorem object_eq (ho : h.object? r = some o) : h.object r = o := by rw [object, ho, Option.getD_some]

theorem Has.object? (hr : h.Has r) : h.object? r = some (h.object r) := by
  obtain ⟨o, ho⟩ := has_iff.1 hr
  rw [ho, object_eq ho]

theorem not_has_of_none (ho : h.object? r = none) : ¬ h.Has r := by
  intro hr
  rw [hr.object?] at ho
  cases ho

theorem object_of_not_has (hr : ¬ h.Has r) : h.object r = Object.ofClass .object none := by
  rw [object]
  cases ho : h.object? r with
  | none => rfl
  | some o => exact absurd (has_iff.2 ⟨o, ho⟩) hr

@[simp]
theorem size_modify (h : Heap) (r : ObjectRef) (f : Object → Object) :
    (h.modify r f).objects.size = h.objects.size := by
  cases r <;> simp [modify]

theorem object?_modify (h : Heap) (r : ObjectRef) (f : Object → Object) (q : ObjectRef) :
    (h.modify r f).object? q = if r = q then (h.object? q).map f else h.object? q := by
  cases q with
  | zero => simp [object?]
  | succ q =>
    cases r with
    | zero => simp [modify]
    | succ r => simp [modify, object?, Array.getElem?_modify]

theorem object_modify_of_ne (hr : r ≠ q) : (h.modify r f).object q = h.object q := by
  rw [object, object, object?_modify, if_neg hr]

theorem Has.object_modify (hr : h.Has r) : (h.modify r f).object r = f (h.object r) := by
  rw [object, object?_modify, if_pos rfl, hr.object?, Option.map_some, Option.getD_some]

theorem modify_of_not_has (hr : ¬ h.Has r) : h.modify r f = h := by
  cases r with
  | zero => rfl
  | succ r =>
    have hsize : h.objects.size ≤ r := by
      rw [Has] at hr
      omega
    rw [modify, Array.modify, Array.modifyM]
    simp [Nat.not_lt.2 hsize]

@[simp]
theorem size_alloc (h : Heap) (o : Object) :
    (h.alloc o).2.objects.size = h.objects.size + 1 := by
  simp [alloc]

theorem object?_alloc (h : Heap) (o : Object) (q : ObjectRef) :
    (h.alloc o).2.object? q = if q = h.objects.size + 1 then some o else h.object? q := by
  cases q with
  | zero => simp [object?]
  | succ q => simp [alloc, object?, Array.getElem?_push]

theorem Has.ne_new (hr : h.Has r) : h.objects.size + 1 ≠ r :=
  Nat.ne_of_gt (Nat.lt_succ_of_le hr.2)

theorem Has.object_alloc (hr : h.Has r) (o : Object) : (h.alloc o).2.object r = h.object r := by
  rw [object, object, object?_alloc, if_neg hr.ne_new.symm]

@[simp]
theorem objects_intern (h : Heap) (t : Text) : (h.intern t).2.objects = h.objects := by
  rw [intern]
  cases h.handle? (InternedText.ofText t) <;> rfl

theorem object?_intern (h : Heap) (t : Text) (q : ObjectRef) :
    (h.intern t).2.object? q = h.object? q := by
  cases q with
  | zero => rfl
  | succ q => rw [object?, object?, objects_intern]

theorem object_intern (h : Heap) (t : Text) (q : ObjectRef) :
    (h.intern t).2.object q = h.object q := by
  rw [object, object, object?_intern]

/-! ## Where keys are found -/

theorem chain_eq (h : Heap) (r : ObjectRef) :
    h.chain r = (r, h.object r) :: h.chainFrom r (h.object r).proto :=
  rfl

theorem object_of_mem_chainFrom {fuel : Nat} {start : Option ObjectRef}
    (hmem : (r, o) ∈ h.chainFrom fuel start) : o = h.object r := by
  induction fuel generalizing start with
  | zero => cases hmem
  | succ fuel ih =>
    cases start with
    | none => cases hmem
    | some s =>
      rw [chainFrom] at hmem
      rcases List.mem_cons.1 hmem with heq | hmem
      · cases heq
        rfl
      · exact ih hmem

theorem findOwn?_eq_property {key : Text} {p : Property}
    (hfound : findOwn? q o key = some (.property r p)) : r = q ∧ o.own? key = some p := by
  have hnamed (hfound : (o.own? key).map (Found.property q) = some (.property r p)) :
      r = q ∧ o.own? key = some p := by
    cases ho : o.own? key with
    | none =>
      rw [ho] at hfound
      cases hfound
    | some p' =>
      rw [ho] at hfound
      cases hfound
      exact ⟨rfl, rfl⟩
  rw [findOwn?] at hfound
  split at hfound
  · split at hfound
    · cases hfound
    · split at hfound
      · cases hfound
      · exact hnamed hfound
  · exact hnamed hfound

theorem own?_of_find? {key : Text} {owner : ObjectRef} {p : Property}
    (hfound : h.find? r key = some (.property owner p)) : (h.object owner).own? key = some p := by
  obtain ⟨⟨q, o⟩, hmem, hq⟩ := List.exists_of_findSome?_eq_some hfound
  obtain ⟨rfl, hown⟩ := findOwn?_eq_property hq
  rw [← object_of_mem_chainFrom hmem]
  exact hown

/-- Whether a key is that of an element or of the length of an object. -/
def Indexes (o : Object) (key : Text) : Prop :=
  o.cls = .array ∧ (key = lengthKey ∨ (o.elementOf? key).isSome)

theorem own?_eq_none_of_find? {key : Text} (hkey : ¬ Indexes (h.object r) key)
    (hfound : ∀ p, h.find? r key ≠ some (.property r p)) : (h.object r).own? key = none := by
  cases hown : (h.object r).own? key with
  | none => rfl
  | some p =>
    have howner : findOwn? r (h.object r) key = some (.property r p) := by
      rw [findOwn?, hown]
      dsimp only [Option.map_some]
      split
      · next harray =>
        rw [if_neg fun hlength => hkey ⟨harray, .inl hlength⟩]
        cases helement : (h.object r).elementOf? key with
        | none => rfl
        | some v => exact absurd ⟨harray, .inr (by rw [helement]; rfl)⟩ hkey
      · rfl
    refine absurd ?_ (hfound p)
    rw [find?, chain_eq, List.findSome?_cons]
    dsimp only
    rw [howner]

end Heap

/-! ## Environments -/

def Env.place (env : Env) : Option EnvRef × Nat := (env.parent, env.depth)

namespace Scopes

variable {s : Scopes} {e : Nat}

theorem env_eq {env : Env} (h : s.envs[e]? = some env) : s.env e = env := by
  rw [Scopes.env, Array.getD_eq_getD_getElem?, h, Option.getD_some]

def place? (s : Scopes) (e : Nat) : Option (Option EnvRef × Nat) := s.envs[e]?.map Env.place

@[simp]
theorem place?_setCell (s : Scopes) (c : CellRef) (x : Cell) :
    (s.setCell c x).place? e = s.place? e := rfl

@[simp]
theorem place?_setValue (s : Scopes) (c : CellRef) (v : Value) :
    (s.setValue c v).place? e = s.place? e := rfl

theorem place?_modify (envs : Array Env) (cells cells' : Array Cell) (k : EnvRef)
    (f : Env → EnvKind) :
    (⟨envs.modify k fun env => { env with kind := f env }, cells⟩ : Scopes).place? e =
      (⟨envs, cells'⟩ : Scopes).place? e := by
  rw [place?, place?, Array.getElem?_modify]
  split
  · cases envs[e]? <;> rfl
  · rfl

@[simp]
theorem place?_bind (s : Scopes) (k : EnvRef) (name : Text) (c : Cell) :
    (s.bind k name c).place? e = s.place? e := by
  rw [bind]
  split
  · rfl
  · exact place?_modify ..

@[simp]
theorem place?_unbind (s : Scopes) (k : EnvRef) (name : Text) :
    (s.unbind k name).place? e = s.place? e := by
  rw [unbind]
  split
  · rfl
  · exact place?_modify ..

theorem place?_push (s : Scopes) (parent : Nat) (kind : EnvKind) :
    (s.push (some parent) kind).2.place? e =
      if e = s.envs.size then some (some parent, (s.env parent).depth + 1) else s.place? e := by
  rw [push, place?, Array.getElem?_push]
  split
  · rfl
  · rfl

theorem place?_pushSlots (s : Scopes) (parent size start : Nat) :
    (s.pushSlots parent size start).2.place? e =
      if e = s.envs.size then some (some parent, (s.env parent).depth + 1) else s.place? e :=
  place?_push ..

theorem lt_size_iff : e < s.envs.size ↔ ∃ place, s.place? e = some place := by
  rw [place?, ← Option.isSome_iff_exists, Option.isSome_map, Option.isSome_iff_ne_none, ne_eq,
    Array.getElem?_eq_none_iff, Nat.not_le]

theorem place?_eq {env : Env} (h : s.envs[e]? = some env) : s.place? e = some env.place := by
  rw [place?, h, Option.map_some]

def kind? (s : Scopes) (e : Nat) : Option EnvKind := s.envs[e]?.map Env.kind

theorem lt_of_kind? {kind : EnvKind} (h : s.kind? e = some kind) : e < s.envs.size := by
  obtain ⟨env, henv, -⟩ := Option.map_eq_some_iff.1 h
  exact (Array.getElem?_eq_some_iff.1 henv).1

theorem kind_env {kind : EnvKind} (h : s.kind? e = some kind) : (s.env e).kind = kind := by
  obtain ⟨env, henv, rfl⟩ := Option.map_eq_some_iff.1 h
  rw [env_eq henv]

theorem kind?_of_lt (h : e < s.envs.size) : s.kind? e = some (s.env e).kind := by
  rw [kind?, Array.getElem?_eq_getElem h, Option.map_some, env_eq (Array.getElem?_eq_getElem h)]

theorem kind?_push (s : Scopes) (parent : Nat) (kind : EnvKind) : (s.push (some parent) kind).2.kind? e =
    if e = s.envs.size then some kind else s.kind? e := by
  rw [push, kind?, Array.getElem?_push]
  split <;> rfl

theorem kind?_pushSlots (s : Scopes) (parent size start : Nat) : (s.pushSlots parent size start).2.kind? e =
    if e = s.envs.size then some (.declarative [] s.cells.size size) else s.kind? e :=
  kind?_push ..

theorem kind?_modify (s : Scopes) (cells : Array Cell) (k : Nat) (kind : EnvKind) :
    (⟨s.envs.modify k fun env => { env with kind := kind }, cells⟩ : Scopes).kind? e =
      if k = e then (s.kind? e).map fun _ => kind else s.kind? e := by
  rw [kind?, Array.getElem?_modify, kind?]
  split
  · cases s.envs[e]? <;> rfl
  · rfl

theorem object_of_kind?_modify {cells : Array Cell} {k : Nat} {bindings : List (Text × CellRef)} {first count : Nat}
    {r : ObjectRef} (h : (⟨s.envs.modify k fun env => { env with kind := .declarative bindings first count },
      cells⟩ : Scopes).kind? e = some (.object r)) : s.kind? e = some (.object r) := by
  rw [kind?_modify] at h
  split at h
  · obtain ⟨_, _, hkind⟩ := Option.map_eq_some_iff.1 h
    cases hkind
  · exact h

theorem object_of_kind?_bind {k : EnvRef} {name : Text} {c : Cell} {r : ObjectRef}
    (h : (s.bind k name c).kind? e = some (.object r)) : s.kind? e = some (.object r) := by
  rw [bind] at h
  split at h
  · exact h
  · exact object_of_kind?_modify h

theorem object_of_kind?_unbind {k : EnvRef} {name : Text} {r : ObjectRef}
    (h : (s.unbind k name).kind? e = some (.object r)) : s.kind? e = some (.object r) := by
  rw [unbind] at h
  split at h
  · exact h
  · exact object_of_kind?_modify h

end Scopes

/-! ## Looking objects up -/

namespace Run

variable {w : World} {r : ObjectRef}

theorem object_of_some {o : Object} (ho : w.realm.heap.object? r = some o) : object r w = .ok o w := by
  rw [object, bind_ok (heap_run w), ho]
  rfl

theorem object_of_none (ho : w.realm.heap.object? r = none) : object r w = .error .crash w := by
  rw [object, bind_ok (heap_run w), ho]
  rfl

theorem refOrCrash_eq (v : Value) : refOrCrash v w =
    if w.realm.heap.Has v.handle.toNat then .ok v.handle.toNat w else .error .crash w := by
  rw [refOrCrash, bind_ok (heap_run w)]
  cases ho : w.realm.heap.object? v.handle.toNat with
  | none =>
    rw [if_neg (Heap.not_has_of_none ho)]
    rfl
  | some o =>
    rw [if_pos (Heap.has_iff.2 ⟨o, ho⟩)]
    rfl

end Run

end RegisterJit
