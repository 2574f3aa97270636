import RegisterJit.Proofs.Names

/-!
# Loops over keys

A loop over the keys of an object takes a snapshot of them: of every key the first object along the chain
that has it decides. Each call for the next key goes on from where the last one ended and passes over the keys
that the object has lost meanwhile, whatever else is done in between.

`Snapshot` says which keys a snapshot has and in which order, in terms of the objects along the chain; that the
recursion which collects keys gives it is `mem_enumerableFrom` and an induction on the chain. `Calls` is a sequence
of calls for the next key in worlds that may have anything else done to them in between, as long as the loop itself
is left alone, and `Visits` what such calls answer: the next key that is still there, until none is left.
`Calls.visits` is the induction on the calls. A run leaves a loop alone unless it calls the stubs for loops, which
`Change.loop?_eq` says of one change and `Evolves.loop?_eq` of a run. `loops_enumerate` has all of this for reachable
worlds; `Wrappers` uses it for the keys of the characters of a string.
-/

namespace RegisterJit

/-! ## First occurrences -/

namespace Heap

/-- Keys that are enumerated were not seen before, and the first occurrence of each is enumerable. -/
theorem mem_enumerableFrom {seen : List Text} {entries : List (Text × Bool)} {k : Text} :
    k ∈ enumerableFrom seen entries ↔ k ∉ seen ∧ entries.lookup k = some true := by
  induction entries generalizing seen with
  | nil => simp [enumerableFrom]
  | cons entry rest ih =>
    obtain ⟨key, enumerable⟩ := entry
    rw [enumerableFrom, List.lookup_cons]
    by_cases heq : k = key
    · subst heq
      rw [beq_self_eq_true]
      by_cases hseen : k ∈ seen <;> cases enumerable <;> simp [ih, hseen]
    · rw [beq_false_of_ne heq]
      by_cases hseen : key ∈ seen <;> cases enumerable <;> simp [ih, hseen, heq]

theorem pairwise_enumerableFrom (seen : List Text) (entries : List (Text × Bool)) :
    (enumerableFrom seen entries).Pairwise fun a b =>
      (entries.map Prod.fst).idxOf a < (entries.map Prod.fst).idxOf b := by
  induction entries generalizing seen with
  | nil => exact .nil
  | cons entry rest ih =>
    obtain ⟨key, enumerable⟩ := entry
    rw [List.map_cons]
    have hne {seen : List Text} (hkey : key ∈ seen) {k : Text} (hk : k ∈ enumerableFrom seen rest) :
        key ≠ k := fun heq => (mem_enumerableFrom.1 hk).1 (heq ▸ hkey)
    have hrest {seen : List Text} (hkey : key ∈ seen) : (enumerableFrom seen rest).Pairwise fun a b =>
        (key :: rest.map Prod.fst).idxOf a < (key :: rest.map Prod.fst).idxOf b := by
      refine (ih seen).imp_of_mem fun ha hb hlt => ?_
      rw [List.idxOf_cons_ne _ (hne hkey ha), List.idxOf_cons_ne _ (hne hkey hb)]
      exact Nat.succ_lt_succ hlt
    rw [enumerableFrom]
    split
    · next hseen => exact hrest (List.contains_iff_mem.1 hseen)
    · split
      · refine .cons (fun b hb => ?_) (hrest List.mem_cons_self)
        rw [List.idxOf_cons_self, List.idxOf_cons_ne _ (hne List.mem_cons_self hb)]
        exact Nat.succ_pos _
      · exact hrest List.mem_cons_self

end Heap

/-! ## Keys of one object -/

namespace Object

variable {o : Object} {k : Text}

/-- An object has an element with a key for its index. -/
def HasElement (o : Object) (k : Text) : Prop := ∃ i v, o.element? i = some v ∧ k = Text.ofNat i

/-- An object has an element or a named property with a key. -/
def HasKey (o : Object) (k : Text) : Prop := o.HasElement k ∨ (o.own? k).isSome = true

/-- The keys of an object are the indices of its elements in ascending order, and then its names. -/
theorem exists_ownKeys (o : Object) : ∃ indices : List Nat, indices.Pairwise (· < ·) ∧
    (∀ i, i ∈ indices ↔ ∃ v, o.element? i = some v) ∧ o.ownKeys = indices.map Text.ofNat ++ o.keys := by
  refine ⟨(o.elements.items.toList.zipIdx.filter fun e => !e.1.isEmpty).map Prod.snd, ?_, fun i => ?_, ?_⟩
  · refine List.Pairwise.sublist (List.filter_sublist.map Prod.snd) ?_
    rw [List.zipIdx_map_snd]
    exact List.pairwise_lt_range'
  · rw [List.mem_map, element?]
    constructor
    · rintro ⟨⟨v, i⟩, hmem, rfl⟩
      obtain ⟨hitem, hv⟩ := List.mem_filter.1 hmem
      rw [List.mem_zipIdx_iff_getElem?, Array.getElem?_toList] at hitem
      refine ⟨v, ?_⟩
      rw [hitem]
      exact if_neg (by simpa using hv)
    · rintro ⟨v, hv⟩
      cases hitem : o.elements.items[i]? with
      | none =>
        rw [hitem] at hv
        cases hv
      | some v' =>
        rw [hitem] at hv
        dsimp only at hv
        split at hv
        · cases hv
        · next hne =>
          refine ⟨(v', i), List.mem_filter.2 ⟨?_, by simpa using hne⟩, rfl⟩
          rw [List.mem_zipIdx_iff_getElem?, Array.getElem?_toList, hitem]
  · rw [ownKeys, List.map_map]
    rfl

theorem mem_ownKeys (ho : o.Listed) : k ∈ o.ownKeys ↔ o.HasKey k := by
  obtain ⟨indices, -, hmem, hkeys⟩ := o.exists_ownKeys
  rw [hkeys, List.mem_append, ho.mem_keys, List.mem_map, HasKey, HasElement]
  refine or_congr_left ⟨?_, ?_⟩
  · rintro ⟨i, hi, rfl⟩
    obtain ⟨v, hv⟩ := (hmem i).1 hi
    exact ⟨i, v, hv, rfl⟩
  · rintro ⟨i, v, hv, rfl⟩
    exact ⟨i, (hmem i).2 ⟨v, hv⟩, rfl⟩

end Object

namespace Heap

variable {h : Heap} {k : Text}

/-! ## Snapshots -/

/-- The keys of a chain of objects: those of an object before those that it inherits. -/
def chainKeys (h : Heap) (r : ObjectRef) : List Text := (h.chain r).flatMap fun link => link.2.ownKeys

/-- What a loop over an object enumerates. -/
structure Snapshot (h : Heap) (r : ObjectRef) (keys : List Text) : Prop where
  nodup : keys.Nodup
  order : keys.Pairwise fun a b => (h.chainKeys r).idxOf a < (h.chainKeys r).idxOf b
  mem_iff : ∀ k, k ∈ keys ↔ ∃ nearer owner o rest, h.chain r = nearer ++ (owner, o) :: rest ∧
    (∀ link ∈ nearer, ¬ link.2.HasKey k) ∧
    (o.HasElement k ∨ ∃ p, o.own? k = some p ∧ p.enumerable = true)

def enumerates (o : Object) (k : Text) : Bool := ((o.own? k).map (·.enumerable)).getD true

theorem enumerates_iff {o : Object} (ho : o.Keyed) : k ∈ o.ownKeys ∧ enumerates o k = true ↔
    o.HasElement k ∨ ∃ p, o.own? k = some p ∧ p.enumerable = true := by
  rw [Object.mem_ownKeys ho.toListed, Object.HasKey, enumerates]
  cases hown : o.own? k with
  | none => simp
  | some p =>
    have hnumeral : o.HasElement k → p.enumerable = true := by
      rintro ⟨i, v, -, rfl⟩
      exact ho.numerals _ p (all_isDigit_ofNat i) hown
    simpa using fun h => hnumeral h

theorem lookup_ownKeys (o : Object) (k : Text) :
    (o.ownKeys.map fun k => (k, enumerates o k)).lookup k =
      if k ∈ o.ownKeys then some (enumerates o k) else none := by
  split
  · next hk => exact List.lookup_graph _ hk
  · next hk =>
    rw [List.lookup_eq_none_iff]
    intro entry hentry
    obtain ⟨k', hk', rfl⟩ := List.mem_map.1 hentry
    exact bne_iff_ne.2 fun heq => hk (heq ▸ hk')

theorem lookup_links {links : List (ObjectRef × Object)} (hlinks : ∀ link ∈ links, link.2.Keyed) :
    (links.flatMap fun link => link.2.ownKeys.map fun k => (k, enumerates link.2 k)).lookup k = some true ↔
      ∃ nearer owner o rest, links = nearer ++ (owner, o) :: rest ∧
        (∀ link ∈ nearer, ¬ link.2.HasKey k) ∧
        (o.HasElement k ∨ ∃ p, o.own? k = some p ∧ p.enumerable = true) := by
  induction links with
  | nil => simp
  | cons link links ih =>
    obtain ⟨q, o⟩ := link
    obtain ⟨ho, hlinks⟩ := List.forall_mem_cons.1 hlinks
    have hkey := Object.mem_ownKeys (k := k) ho.toListed
    rw [List.flatMap_cons, List.lookup_append, lookup_ownKeys]
    by_cases hk : k ∈ o.ownKeys
    · rw [if_pos hk, Option.some_or, Option.some.injEq]
      constructor
      · exact fun htrue => ⟨[], q, o, links, rfl, by simp, (enumerates_iff ho).1 ⟨hk, htrue⟩⟩
      · rintro ⟨nearer, owner, o', rest, heq, hnearer, henumerable⟩
        cases nearer with
        | nil =>
          cases heq
          exact ((enumerates_iff ho).2 henumerable).2
        | cons link nearer =>
          cases heq
          exact absurd (hkey.1 hk) (hnearer _ List.mem_cons_self)
    · rw [if_neg hk, Option.none_or, ih hlinks]
      constructor
      · rintro ⟨nearer, owner, o', rest, rfl, hnearer, henumerable⟩
        exact ⟨(q, o) :: nearer, owner, o', rest, rfl,
          List.forall_mem_cons.2 ⟨mt hkey.2 hk, hnearer⟩, henumerable⟩
      · rintro ⟨nearer, owner, o', rest, heq, hnearer, henumerable⟩
        cases nearer with
        | nil =>
          cases heq
          exact absurd ((enumerates_iff ho).2 henumerable).1 hk
        | cons link nearer =>
          cases heq
          exact ⟨nearer, owner, o', rest, rfl, (List.forall_mem_cons.1 hnearer).2, henumerable⟩

theorem keyed_of_mem_chain (hkeyed : h.Keyed) {r : ObjectRef} {link : ObjectRef × Object}
    (hlink : link ∈ h.chain r) : link.2.Keyed := by
  rw [object_of_mem_chainFrom (r := link.1) (o := link.2) hlink]
  by_cases hhas : h.Has link.1
  · exact hkeyed _ _ hhas.object?
  · rw [object_of_not_has hhas]
    exact Object.keyed_ofClass

theorem enumerableKeys_snapshot (hkeyed : h.Keyed) (r : ObjectRef) : h.Snapshot r (h.enumerableKeys r) := by
  have hpairwise := pairwise_enumerableFrom [] ((h.chain r).flatMap fun link =>
    link.2.ownKeys.map fun k => (k, enumerates link.2 k))
  rw [List.map_flatMap] at hpairwise
  simp only [List.map_map, Function.comp_def, List.map_id'] at hpairwise
  refine ⟨hpairwise.imp fun hlt heq => ?_, hpairwise, fun k => ?_⟩
  · rw [heq] at hlt
    exact Nat.lt_irrefl _ hlt
  · refine mem_enumerableFrom.trans ?_
    rw [← lookup_links fun link => keyed_of_mem_chain hkeyed]
    simp [enumerates]

end Heap

namespace World

variable {r target : ObjectRef} {w w₁ w₂ : World} {keys found : List Text} {calls : List (World × Value)}

def loop? (w : World) (r : ObjectRef) : Option Enumeration :=
  (w.realm.heap.object? r).bind (·.enumeration)

theorem exists_of_loop? {e : Enumeration} (h : w.loop? r = some e) :
    ∃ o, w.realm.heap.object? r = some o ∧ o.enumeration = some e := by
  obtain ⟨o, ho, he⟩ := Option.bind_eq_some_iff.1 h
  exact ⟨o, ho, he⟩

end World

namespace Run

variable {r target : ObjectRef} {w : World}

/-! ## Calls -/

theorem enumerate_eq {v : Value} (hv : Heap.ref? v = some target) (hhas : w.realm.heap.Has target) :
    enumerate v w = .ok (Heap.value (w.realm.heap.objects.size + 1)) (w.withHeap fun h => (h.alloc
      { Object.ofClass .iterator none with
        enumeration := some ⟨target, w.realm.heap.enumerableKeys target⟩ }).2) := by
  have htarget : toObject v = refOrCrash v := by
    unfold toObject
    split
    · rfl
    · next hnone => cases hv.symm.trans hnone
  have hrun : toObject v w = .ok target w := by
    rw [htarget, refOrCrash_eq, ← eq_handle_of_ref? hv, if_pos hhas]
  exact bind_ok hrun

theorem intern_modify (h : Heap) (r : ObjectRef) (f : Object → Object) (t : Text) :
    ((h.modify r f).intern t).1 = (h.intern t).1 := by
  cases r with
  | zero => rfl
  | succ r =>
    have hhandle : (h.modify (r + 1) f).handle? (InternedText.ofText t) = h.handle? (InternedText.ofText t) := rfl
    rw [Heap.intern, Heap.intern, hhandle]
    cases h.handle? (InternedText.ofText t) <;> rfl

theorem nextKey_eq {it : Value} (hit : it.handle.toNat = r) {e : Enumeration} (hloop : w.loop? r = some e) :
    ∃ w', w'.loop? r = some { e with keys := (liveKeys w.realm.heap e.target e.keys).drop 1 } ∧
      (∀ q, q ≠ r → w'.realm.heap.object? q = w.realm.heap.object? q) ∧
      nextKey it w = match liveKeys w.realm.heap e.target e.keys with
        | [] => .ok Value.empty w'
        | k :: _ => .ok (w.realm.heap.intern k).1 w' := by
  obtain ⟨o, ho, he⟩ := World.exists_of_loop? hloop
  have href : refOrCrash it w = .ok r w := by
    rw [refOrCrash_eq, hit, if_pos (Heap.has_iff.2 ⟨o, ho⟩)]
  obtain ⟨w₁, hw₁⟩ : ∃ w₁, w₁ = w.withObject r fun o => { o with
      enumeration := some { e with keys := (liveKeys w.realm.heap e.target e.keys).drop 1 } } := ⟨_, rfl⟩
  have hloop₁ : w₁.loop? r = some { e with keys := (liveKeys w.realm.heap e.target e.keys).drop 1 } := by
    rw [World.loop?, hw₁, World.object?_withObject ho]
    rfl
  have hothers (q : ObjectRef) (hq : q ≠ r) : w₁.realm.heap.object? q = w.realm.heap.object? q := by
    rw [hw₁, World.object?_withObject_of_ne hq.symm]
  have hrun : nextKey it w = (match liveKeys w.realm.heap e.target e.keys with
      | [] => return Value.empty
      | k :: _ => intern k : Run Value) w₁ := by
    unfold nextKey
    rw [bind_ok href, bind_ok (object_of_some ho), he, hw₁]
    rfl
  cases hlive : liveKeys w.realm.heap e.target e.keys with
  | nil =>
    rw [hlive] at hrun hloop₁
    exact ⟨w₁, hloop₁, hothers, hrun⟩
  | cons k rest =>
    rw [hlive] at hrun hloop₁
    refine ⟨w₁.withHeap fun h => (h.intern k).2, ?_, fun q hq => ?_,
      hrun.trans (congrArg (EStateM.Result.ok · _) ?_)⟩
    · rw [← hloop₁, World.loop?, World.loop?, World.withHeap, Heap.object?_intern]
    · rw [← hothers q hq, World.withHeap, Heap.object?_intern]
    · rw [hw₁]
      exact intern_modify ..

theorem loop?_nextKey_of_ne {it : Value} (hit : it.handle.toNat ≠ r) :
    ((nextKey it).after w).loop? r = w.loop? r := by
  cases hloop : w.loop? it.handle.toNat with
  | none =>
    have hrun : nextKey it w = .error .crash w := by
      cases ho : w.realm.heap.object? it.handle.toNat with
      | none => exact bind_error (by rw [refOrCrash_eq, if_neg (Heap.not_has_of_none ho)])
      | some o =>
        have href : refOrCrash it w = .ok it.handle.toNat w := by
          rw [refOrCrash_eq, if_pos (Heap.has_iff.2 ⟨o, ho⟩)]
        have he : o.enumeration = none := by rwa [World.loop?, ho] at hloop
        unfold nextKey
        rw [bind_ok href, bind_ok (object_of_some ho), he]
        rfl
    rw [after_error hrun]
  | some e =>
    obtain ⟨w', -, hothers, hrun⟩ := nextKey_eq rfl hloop
    have hafter : (nextKey it).after w = w' := by
      cases hlive : liveKeys w.realm.heap e.target e.keys with
      | nil => exact after_ok (hrun.trans (by rw [hlive]))
      | cons k rest => exact after_ok (hrun.trans (by rw [hlive]))
    rw [hafter, World.loop?, World.loop?, hothers r hit.symm]

theorem loop?_endEnumeration_of_ne {it : Value} (hit : it.handle.toNat ≠ r) :
    ((endEnumeration it).after w).loop? r = w.loop? r := by
  unfold endEnumeration
  split
  · next q hq =>
    have hne : q ≠ r := eq_handle_of_ref? hq ▸ hit
    exact congrArg (Option.bind · _) (World.object?_withObject_of_ne hne _)
  · rfl

theorem exists_passed (h : Heap) (target : ObjectRef) (keys : List Text) :
    ∃ passed, keys = passed ++ liveKeys h target keys ∧ (∀ k ∈ passed, h.hasProperty target k = false) ∧
      ∀ k rest, liveKeys h target keys = k :: rest → h.hasProperty target k = true := by
  refine ⟨keys.takeWhile fun k => !h.hasProperty target k, List.takeWhile_append_dropWhile.symm, fun k hk => ?_,
    fun k rest heq => ?_⟩
  · simpa using List.mem_takeWhile_imp hk
  · have hhead := List.head?_dropWhile_not (fun k => !h.hasProperty target k) keys
    rw [show keys.dropWhile (fun k => !h.hasProperty target k) = k :: rest from heq] at hhead
    simpa using hhead

end Run

namespace World

variable {r target : ObjectRef} {w w₁ w₂ : World} {keys found : List Text} {calls : List (World × Value)}

/-- Calls for the next key of a loop, each with the world in which it was made and the value that it gave.
Between them anything may happen that leaves what the loop still enumerates alone. -/
inductive Calls (it : Value) (r : ObjectRef) : World → List (World × Value) → Prop
  | none (w : World) : Calls it r w []
  | call {w w₁ w₂ : World} {v : Value} {calls : List (World × Value)} (hkeep : w₁.loop? r = w.loop? r)
      (hcall : Run.nextKey it w₁ = .ok v w₂) (rest : Calls it r w₂ calls) : Calls it r w ((w₁, v) :: calls)

/-- How calls go through the keys of a snapshot. Each gives the first key that is present when it is made, and
the keys before this one are absent then; when no key is left, calls give the empty value. -/
inductive Visits (target : ObjectRef) : List Text → List (World × Value) → List Text → Prop
  | stop (keys : List Text) : Visits target keys [] []
  | key {passed : List Text} {k : Text} {keys found : List Text} {w : World} {calls : List (World × Value)}
      (hpassed : ∀ x ∈ passed, w.realm.heap.hasProperty target x = false)
      (hk : w.realm.heap.hasProperty target k = true) (rest : Visits target keys calls found) :
      Visits target (passed ++ k :: keys) ((w, (w.realm.heap.intern k).1) :: calls) (k :: found)
  | ended {keys : List Text} {w : World} {calls : List (World × Value)}
      (hpassed : ∀ x ∈ keys, w.realm.heap.hasProperty target x = false)
      (rest : Visits target [] calls []) : Visits target keys ((w, Value.empty) :: calls) []

theorem Visits.sublist (h : Visits target keys calls found) : found.Sublist keys := by
  induction h with
  | stop => exact List.nil_sublist _
  | key hpassed hk rest ih => exact (List.Sublist.cons_cons _ ih).trans (List.sublist_append_right _ _)
  | ended => exact List.nil_sublist _

theorem Visits.found_nil (h : Visits target [] calls found) : found = [] := List.sublist_nil.1 h.sublist

/-- Calls go through the keys that are left. -/
theorem Calls.visits {it : Value} (h : Calls it r w calls) (hit : it.handle.toNat = r)
    (hloop : w.loop? r = some ⟨target, keys⟩) : ∃ found, Visits target keys calls found := by
  induction h generalizing keys with
  | none => exact ⟨[], .stop keys⟩
  | @call w w₁ w₂ v calls hkeep hcall rest ih =>
    obtain ⟨w', hloop', -, hrun⟩ := Run.nextKey_eq hit (hkeep.trans hloop)
    dsimp only at hloop' hrun
    obtain ⟨passed, hkeys, hpassed, hlive⟩ := Run.exists_passed w₁.realm.heap target keys
    cases hrest : Run.liveKeys w₁.realm.heap target keys with
    | nil =>
      rw [hrest] at hrun hloop'
      rw [hrest, List.append_nil] at hkeys
      cases hcall.symm.trans hrun
      obtain ⟨found, hvisits⟩ := ih hloop'
      obtain rfl := hvisits.found_nil
      exact ⟨[], .ended (hkeys ▸ hpassed) hvisits⟩
    | cons k rest =>
      rw [hrest] at hrun hloop' hkeys
      cases hcall.symm.trans hrun
      obtain ⟨found, hvisits⟩ := ih hloop'
      exact ⟨k :: found, hkeys ▸ .key hpassed (hlive k rest hrest) hvisits⟩

theorem isString_intern (h : Heap) (t : Text) : (h.intern t).1.isString = true := by
  have hstring (handle : UInt32) : (Value.string handle).isString = true := by
    have hword := Value.toNat_string handle
    have := handle.toNat_lt
    rw [Value.isString_iff]
    omega
  rw [Heap.intern]
  cases h.handle? (InternedText.ofText t) <;> exact hstring _

theorem Visits.values (h : Visits target keys calls found) :
    (∀ call ∈ calls.take found.length, call.2.isString = true) ∧
      ∀ call ∈ calls.drop found.length, call.2 = Value.empty := by
  induction h with
  | stop => simp
  | @key passed k keys found w calls hpassed hk rest ih =>
    rw [List.length_cons, List.take_succ_cons, List.drop_succ_cons]
    exact ⟨List.forall_mem_cons.2 ⟨isString_intern _ _, ih.1⟩, ih.2⟩
  | @ended keys w calls hpassed rest ih =>
    rw [List.length_nil, List.drop_zero] at ih ⊢
    exact ⟨by simp, List.forall_mem_cons.2 ⟨rfl, ih.2⟩⟩

theorem Visits.ends (h : Visits target keys calls found) {i : Nat} {call : World × Value}
    (hi : keys.length ≤ i) (hcall : calls[i]? = some call) : call.2 = Value.empty := by
  refine h.values.2 call (List.mem_of_getElem? (i := i - found.length) ?_)
  rw [List.getElem?_drop, Nat.add_sub_cancel' (h.sublist.length_le.trans hi), hcall]

theorem Visits.of_present {k : Text} {w : World} {v : Value}
    (h : Visits target (k :: keys) ((w, v) :: calls) found) (hk : w.realm.heap.hasProperty target k = true) :
    ∃ found', found = k :: found' ∧ Visits target keys calls found' := by
  generalize hkeys : k :: keys = keys' at h
  cases h with
  | @key passed k' keys₁ found' w calls hpassed hk' rest =>
    cases passed with
    | nil =>
      obtain ⟨rfl, rfl⟩ := List.cons.inj hkeys
      exact ⟨found', rfl, rest⟩
    | cons x passed =>
      obtain ⟨rfl, -⟩ := List.cons.inj hkeys
      exact absurd (hpassed k List.mem_cons_self) (by simp [hk])
  | ended hpassed rest => exact absurd (hpassed k (hkeys ▸ List.mem_cons_self)) (by simp [hk])

theorem Visits.of_absent {k : Text} {w : World} {v : Value}
    (h : Visits target (k :: keys) ((w, v) :: calls) found) (hk : w.realm.heap.hasProperty target k = false) :
    Visits target keys ((w, v) :: calls) found := by
  generalize hkeys : k :: keys = keys' at h
  cases h with
  | @key passed k' keys₁ found' w calls hpassed hk' rest =>
    cases passed with
    | nil =>
      obtain ⟨rfl, rfl⟩ := List.cons.inj hkeys
      cases hk.symm.trans hk'
    | cons x passed =>
      obtain ⟨rfl, rfl⟩ := List.cons.inj hkeys
      exact .key (fun y hy => hpassed y (List.mem_cons_of_mem _ hy)) hk' rest
  | ended hpassed rest =>
    subst hkeys
    exact .ended (fun y hy => hpassed y (List.mem_cons_of_mem _ hy)) rest

/-! ## What leaves a loop alone -/

variable {m : Moment}

/-- The stubs that go on with loops and end them. -/
def LeavesLoops (m : Moment) (w : World) : Prop :=
  .forInEnumerate ∉ w.calledSince m ∧ .forInLeave ∉ w.calledSince m

theorem Change.loop?_eq (h : w.Change m w₁) (hs : LeavesLoops m w₁) (hr : w.realm.heap.Has r)
    (hold : r ≤ m.objects) : w₁.loop? r = w.loop? r := by
  have hmodify {q : ObjectRef} {f : Object → Object}
      (hf : ∀ o : Object, w.realm.heap.object? r = some o → q = r → (f o).enumeration = o.enumeration) :
      (w.withObject q f).loop? r = w.loop? r := by
    obtain ⟨o, ho⟩ := Heap.has_iff.1 hr
    rw [loop?, loop?, ho]
    by_cases hq : q = r
    · subst hq
      rw [object?_withObject ho]
      exact hf o ho rfl
    · rw [object?_withObject_of_ne hq, ho]
  cases h with
  | machine | print | leave | install => rfl
  | enter | enterSlots | bind | unbind | write | settle | reset | name => rfl
  | intern t => rw [loop?, loop?, (extends_intern w t).object? r hr]
  | create o => rw [loop?, loop?, (extends_alloc w o).object? r hr]
  | construct q f hq => exact hmodify fun o _ heq => absurd (heq ▸ hq) (Nat.not_lt.2 hold)
  | content q f hf => exact hmodify fun o _ _ => (hf o).enumeration
  | iterate hloop q e => exact absurd hloop (not_or.2 hs)
  | add | assign | literal | redeclare => exact hmodify fun o _ _ => rfl
  | delete q key =>
    refine hmodify fun o _ _ => ?_
    rw [Object.remove]
    split <;> rfl

theorem Evolves.loop?_eq (h : Evolves m w w₁) (hs : LeavesLoops m w₁) (hr : w.realm.heap.Has r)
    (hold : r ≤ m.objects) : w₁.loop? r = w.loop? r := by
  induction h with
  | refl => rfl
  | tail hevolves hchange ih =>
    have hbefore : LeavesLoops m _ := ⟨mt hchange.calledSince hs.1, mt hchange.calledSince hs.2⟩
    exact (hchange.loop?_eq hs (hr.mono (Evolves.objects_le hevolves)) hold).trans (ih hbefore)

theorem Step.loop?_eq (h : w.Step w₁) (hsound : w.realm.Sound) (hs : LeavesLoops w.moment w₁)
    (hr : w.realm.heap.Has r) : w₁.loop? r = w.loop? r :=
  (h.evolves (past_moment w) hsound).loop?_eq hs hr hr.2

/-- A loop enumerates each live key once. Its snapshot has a key exactly if the first object along the chain that
has it has an element or an enumerable property with it, and it has it once: the keys of an object come before
those that it inherits, and the indices of its elements, in ascending order, before its names. However calls for
the next key and other things that are done alternate, the calls give the keys of the snapshot in this order:
each is present when it is given, one is passed over only if it is absent then, and the empty value is given
after as many calls as there are keys, if not before. -/
theorem loops_enumerate {w : World} (h : w.Reachable) {v : Value} (hv : Heap.ref? v = some target)
    (hhas : w.realm.heap.Has target) :
    (∀ o : Object, ∃ indices : List Nat, indices.Pairwise (· < ·) ∧
      (∀ i, i ∈ indices ↔ ∃ v, o.element? i = some v) ∧ o.ownKeys = indices.map Text.ofNat ++ o.keys) ∧
    w.realm.heap.Ascends (some target) (w.realm.heap.chain target) ∧
    ∃ r w' keys, Run.enumerate v w = .ok (Heap.value r) w' ∧ w.Extends w' ∧
      w'.loop? r = some ⟨target, keys⟩ ∧ w.realm.heap.Snapshot target keys ∧
      (∀ w₁ w₂ : World, w₁.Reachable → w₁.realm.heap.Has r → w₁.Step w₂ → LeavesLoops w₁.moment w₂ →
        w₂.loop? r = w₁.loop? r) ∧
      (∀ (w₁ : World) (it : Value), it.handle.toNat ≠ r →
        ((Run.nextKey it).after w₁).loop? r = w₁.loop? r ∧
          ((Run.endEnumeration it).after w₁).loop? r = w₁.loop? r) ∧
      (r < 2 ^ 32 →
        (∀ (w₁ : World) rest, w₁.loop? r = some ⟨target, rest⟩ → ∃ v w₂ rest',
          Run.nextKey (Heap.value r) w₁ = .ok v w₂ ∧ w₂.loop? r = some ⟨target, rest'⟩) ∧
        ∀ calls, Calls (Heap.value r) r w' calls → ∃ found, Visits target keys calls found ∧
          found.Sublist keys ∧ found.Nodup ∧
          (∀ call ∈ calls.take found.length, call.2.isString = true) ∧
          (∀ call ∈ calls.drop found.length, call.2 = Value.empty) ∧
          ∀ i call, keys.length ≤ i → calls[i]? = some call → call.2 = Value.empty) := by
  have hsnapshot := Heap.enumerableKeys_snapshot h.keyed target
  have hloop : (w.withHeap fun heap => (heap.alloc { Object.ofClass .iterator none with
      enumeration := some ⟨target, w.realm.heap.enumerableKeys target⟩ }).2).loop?
        (w.realm.heap.objects.size + 1) = some ⟨target, w.realm.heap.enumerableKeys target⟩ := by
    rw [loop?, withHeap, Heap.object?_alloc, if_pos rfl]
    rfl
  refine ⟨Object.exists_ownKeys, Heap.chain_ascends h.sound hhas, _, _, _, Run.enumerate_eq hv hhas,
    extends_alloc w _, hloop, hsnapshot, fun w₁ w₂ h₁ hr hstep hs => hstep.loop?_eq h₁.sound hs hr,
    fun w₁ it hit => ⟨Run.loop?_nextKey_of_ne hit, Run.loop?_endEnumeration_of_ne hit⟩,
    fun hr => ⟨fun w₁ rest hloop₁ => ?_, fun calls hcalls => ?_⟩⟩
  · obtain ⟨w₂, hloop₂, -, hrun⟩ := Run.nextKey_eq (Heap.handle_value hr) hloop₁
    cases hrest : Run.liveKeys w₁.realm.heap target rest with
    | nil => exact ⟨_, w₂, _, hrun.trans (by rw [hrest]), hloop₂⟩
    | cons k rest' => exact ⟨_, w₂, _, hrun.trans (by rw [hrest]), hloop₂⟩
  · obtain ⟨found, hvisits⟩ := hcalls.visits (Heap.handle_value hr) hloop
    exact ⟨found, hvisits, hvisits.sublist, hsnapshot.nodup.sublist hvisits.sublist, hvisits.values.1,
      hvisits.values.2, fun i call => hvisits.ends⟩

/-- A world with a new object under whose keys 5, 3 and 8 something was stored in this order. -/
def numbered : World :=
  let w := (ofConfig ⟨0, 0, 0⟩).serving .loadObject 0 0 0 0 0
  let w := w.serving (.storeElement false) (Heap.value 33).word (Value.ofInt 5).word Value.null.word 0 0
  let w := w.serving (.storeElement false) (Heap.value 33).word (Value.ofInt 3).word Value.null.word 0 0
  w.serving (.storeElement false) (Heap.value 33).word (Value.ofInt 8).word Value.null.word 0 0

theorem numbered_reachable : numbered.Reachable :=
  .serving (.serving (.serving (.serving ⟨_, .refl⟩ _ _ _ _ _ _) _ _ _ _ _ _) _ _ _ _ _ _) _ _ _ _ _ _

/-- The worlds in which three calls for the next key are made. After the first one, the key 3 is deleted and a key
9 is added. -/
def firstCall : World := (Run.enumerate (Heap.value 33)).after numbered

def secondCall : World :=
  let w := (Run.nextKey (Heap.value 34)).after firstCall
  let w := w.serving (.deleteElement false) (Heap.value 33).word (Value.ofInt 3).word 0 0 0
  w.serving (.storeElement false) (Heap.value 33).word (Value.ofInt 9).word Value.null.word 0 0

def thirdCall : World := (Run.nextKey (Heap.value 34)).after secondCall

-- One evaluation for all of them, since each would build the first world again.
theorem numbered_run :
    numbered.realm.heap.objects.size = 33 ∧ firstCall.realm.heap.objects.size = 34 ∧
    (Run.enumerate (Heap.value 33)).yield? numbered = some (Heap.value 34) ∧
    firstCall.loop? 34 = some ⟨33, [Text.ofString "5", Text.ofString "3", Text.ofString "8"]⟩ ∧
    firstCall.realm.heap.hasProperty 33 (Text.ofString "5") = true ∧
    (Run.nextKey (Heap.value 34)).yield? firstCall = some (.string 23) ∧
    secondCall.loop? 34 = ((Run.nextKey (Heap.value 34)).after firstCall).loop? 34 ∧
    secondCall.realm.heap.enumerableKeys 33 = [Text.ofString "5", Text.ofString "8", Text.ofString "9"] ∧
    secondCall.realm.heap.hasProperty 33 (Text.ofString "3") = false ∧
    secondCall.realm.heap.hasProperty 33 (Text.ofString "8") = true ∧
    (Run.nextKey (Heap.value 34)).yield? secondCall = some (.string 24) ∧
    (Run.nextKey (Heap.value 34)).yield? thirdCall = some .empty := by
  decide +kernel

/-- A loop over an object with the keys 5, 3 and 8, of which 3 is deleted while it is under way. It gives the other
two and not the one that was added, and then it is at the end. -/
theorem loops_enumerate_numbered : ∃ keys : List Text, numbered.Reachable ∧ Heap.ref? (Heap.value 33) = some 33 ∧
    numbered.realm.heap.Has 33 ∧ Run.enumerate (Heap.value 33) numbered = .ok (Heap.value 34) firstCall ∧
      keys = [Text.ofString "5", Text.ofString "3", Text.ofString "8"] ∧
      numbered.realm.heap.Snapshot 33 keys ∧
      secondCall.realm.heap.enumerableKeys 33 = [Text.ofString "5", Text.ofString "8", Text.ofString "9"] ∧
      Calls (Heap.value 34) 34 firstCall
        [(firstCall, .string 23), (secondCall, .string 24), (thirdCall, .empty)] ∧
      Visits 33 keys [(firstCall, .string 23), (secondCall, .string 24), (thirdCall, .empty)]
        [Text.ofString "5", Text.ofString "8"] := by
  obtain ⟨hobjects, hsize, hyield, hfirst, h5, hcall₁, hkeep, hchanged, h3, h8, hcall₂, hcall₃⟩ := numbered_run
  have href : Heap.ref? (Heap.value 33) = some 33 := by decide
  have hhas : numbered.realm.heap.Has 33 := ⟨by decide, Nat.le_of_eq hobjects.symm⟩
  have hstart : Run.enumerate (Heap.value 33) numbered = .ok (Heap.value 34) firstCall := Run.eq_ok_of_yield? hyield
  have hcalls : Calls (Heap.value 34) 34 firstCall
      [(firstCall, .string 23), (secondCall, .string 24), (thirdCall, .empty)] := by
    have hthird := Calls.call (r := 34) rfl (Run.eq_ok_of_yield? hcall₃) (.none _)
    exact .call rfl (Run.eq_ok_of_yield? hcall₁) (.call hkeep (Run.eq_ok_of_yield? hcall₂) hthird)
  obtain ⟨-, -, r, w', keys, hrun, -, hloop, hsnapshot, -, -, hvisited⟩ :=
    loops_enumerate numbered_reachable href hhas
  obtain ⟨hvalue, hworld⟩ := EStateM.Result.ok.inj (hrun.symm.trans hstart)
  rw [hworld] at hloop hvisited
  have hr : r < 2 ^ 32 := by
    obtain ⟨o, ho, -⟩ := exists_of_loop? hloop
    exact Nat.lt_of_le_of_lt (hsize ▸ (Heap.has_iff.2 ⟨o, ho⟩).2) (by decide)
  obtain rfl : r = 34 := by
    rw [← Heap.handle_value hr, hvalue]
    decide
  obtain rfl : keys = [Text.ofString "5", Text.ofString "3", Text.ofString "8"] :=
    congrArg Enumeration.keys (Option.some.inj (hloop.symm.trans hfirst))
  obtain ⟨found, hvisits, -⟩ := (hvisited hr).2 _ hcalls
  obtain ⟨found, rfl, hsecond⟩ := hvisits.of_present h5
  obtain ⟨found, rfl, hthird⟩ := (hsecond.of_absent h3).of_present h8
  obtain rfl := hthird.found_nil
  exact ⟨_, numbered_reachable, href, hhas, hstart, rfl, hsnapshot, hchanged, hcalls, hvisits⟩

end World

end RegisterJit
