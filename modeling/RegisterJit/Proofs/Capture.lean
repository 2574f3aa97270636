import Mathlib.Data.List.Find
import RegisterJit.Proofs.Detached
import RegisterJit.Proofs.Slots
import RegisterJit.Proofs.Stores
import RegisterJit.Proofs.Unwinding

/-!
# What a read of a slot does to names

A slot has no name until it is read; the first name under which it is read becomes its own. From then on a search for
that name stops at the slot, if it comes to it. This is all that a read does to the meaning of names: other names mean
what they meant, and so does this one wherever something nearer has it.

`Scopes.Reaches` says that a search comes to a slot, by recursion along the chain of environments. Renaming the
cell of a slot changes the outcome of a search in that case alone (`resolveIn?_rename`, `findSome?_rename`), so
`read_effect` describes a read as a renaming and something that touches no environment. `reads_keep_meanings`
has the consequences for every frame, name and later world: a slot that has a name keeps it along every run.
`read_captures_name` shows that names can mean something else after a read. Both happen in worlds that are
reached by serving stubs.
-/

namespace RegisterJit

namespace Scopes

variable {s : Scopes} {h : Heap} {name t : Text} {e c : Nat}

/-! ## Where a search comes to a slot -/

/-- Nothing in an environment has a name before a slot of it: no binding, and no slot in front. -/
def Vacant (s : Scopes) (name : Text) (e c : Nat) : Prop :=
  ∃ bindings first count i, s.kind? e = some (.declarative bindings first count) ∧ i < count ∧ c = first + i ∧
    bindings.lookup name = none ∧ ∀ j < i, (s.cell (first + j)).name ≠ name

/-- The search for a name from an environment outward comes to a slot before it ends. -/
inductive Reaches (s : Scopes) (h : Heap) (name : Text) (c : CellRef) : EnvRef → Prop
  | slot {e : EnvRef} (hvacant : s.Vacant name e c) : Reaches s h name c e
  | outward {e p : EnvRef} (hnone : s.resolveIn? h e name = none) (hparent : (s.env e).parent = some p)
      (hrest : Reaches s h name c p) : Reaches s h name c e

theorem Vacant.isSlot (hv : s.Vacant name e c) : ∃ i, s.IsSlot e i c := by
  obtain ⟨bindings, first, count, i, hkind, hi, hc, -⟩ := hv
  exact ⟨i, bindings, first, count, hkind, hi, hc⟩

theorem resolveIn?_slots {bindings : List (Text × CellRef)} {first count : Nat}
    (hkind : s.kind? e = some (.declarative bindings first count)) (hlookup : bindings.lookup name = none) :
    s.resolveIn? h e name =
      ((List.range count).find? fun i => (s.cell (first + i)).name == name).map fun i => .cell e (first + i) := by
  rw [resolveIn?, kind_env hkind]
  dsimp only
  rw [cellOf?, kind_env hkind]
  dsimp only
  rw [hlookup, List.find?_map, Option.map_map]
  rfl

theorem resolveIn?_binding {bindings : List (Text × CellRef)} {first count : Nat} {c : CellRef}
    (hkind : s.kind? e = some (.declarative bindings first count)) (hlookup : bindings.lookup name = some c) :
    s.resolveIn? h e name = some (.cell e c) := by
  rw [resolveIn?, kind_env hkind]
  dsimp only
  rw [cellOf?, kind_env hkind]
  dsimp only
  rw [hlookup, Option.map_some]

theorem resolveIn?_object {r : ObjectRef} (hkind : s.kind? e = some (.object r)) :
    s.resolveIn? h e name = if h.hasProperty r name then some (.property r) else none := by
  rw [resolveIn?, kind_env hkind]

/-! ## Giving a slot its name -/

def rename (s : Scopes) (c : CellRef) (t : Text) : Scopes := s.setCell c { s.cell c with name := t }

theorem name_rename (hc : c < s.cells.size) (k : Nat) :
    ((s.rename c t).cell k).name = if k = c then t else (s.cell k).name := by
  by_cases hk : k = c
  · rw [if_pos hk, hk, rename, cell_setCell_self hc]
  · rw [if_neg hk, rename, cell_setCell_of_ne (Ne.symm hk)]

theorem rename_rename (hc : c < s.cells.size) : (s.rename c t).rename c (s.cell c).name = s := by
  have hcell : (s.rename c t).cell c = { s.cell c with name := t } := cell_setCell_self hc _
  have hold : s.cell c = s.cells[c] := by
    rw [cell, Array.getD_eq_getD_getElem?, Array.getElem?_eq_getElem hc, Option.getD_some]
  rw [rename, hcell, rename, setCell, setCell, hold]
  have hset : s.cells.setIfInBounds c s.cells[c] = s.cells := by
    rw [Array.setIfInBounds, dif_pos hc, Array.set_getElem_self]
  exact congrArg (Scopes.mk s.envs) ((Array.setIfInBounds_setIfInBounds ..).trans hset)

variable (hc : c < s.cells.size) (hname : (s.cell c).name = [])

include hc

/-- In its own environment a slot is found under its new name unless something is before it. -/
theorem resolveIn?_rename_vacant (hv : s.Vacant t e c) : (s.rename c t).resolveIn? h e t = some (.cell e c) := by
  obtain ⟨bindings, first, count, i, hkind, hi, rfl, hlookup, hbefore⟩ := hv
  rw [resolveIn?_slots (s := s.rename (first + i) t) hkind hlookup]
  have hfound : (List.range count).find? (fun j => ((s.rename (first + i) t).cell (first + j)).name == t) = some i := by
    rw [List.find?_range_eq_some]
    refine ⟨?_, List.mem_range.2 hi, fun j hj => ?_⟩
    · rw [name_rename hc, if_pos rfl]
      exact beq_self_eq_true t
    · rw [name_rename hc, if_neg (by omega)]
      exact Bool.not_eq_true' _ ▸ beq_false_of_ne (hbefore j hj)
  rw [hfound, Option.map_some]

include hname

theorem resolveIn?_rename (he : e < s.envs.size) (hne : name ≠ []) (hv : ¬ (name = t ∧ s.Vacant name e c)) :
    (s.rename c t).resolveIn? h e name = s.resolveIn? h e name := by
  have hkind := kind?_of_lt he
  cases hcase : (s.env e).kind with
  | object r =>
    rw [hcase] at hkind
    rw [resolveIn?_object (s := s.rename c t) hkind, resolveIn?_object hkind]
  | declarative bindings first count =>
    rw [hcase] at hkind
    cases hlookup : bindings.lookup name with
    | some c' => rw [resolveIn?_binding (s := s.rename c t) hkind hlookup, resolveIn?_binding hkind hlookup]
    | none =>
      rw [resolveIn?_slots (s := s.rename c t) hkind hlookup, resolveIn?_slots hkind hlookup]
      refine congrArg (Option.map _) ?_
      by_cases hslot : name = t ∧ ∃ i < count, c = first + i
      · -- A slot in front has the name, and the search ends there.
        obtain ⟨hsame, i, hi, hci⟩ := hslot
        have hfront : ∃ j < i, (s.cell (first + j)).name = name := by
          by_contra hnone
          refine hv ⟨hsame, bindings, first, count, i, hkind, hi, hci, hlookup, fun j hj heq => hnone ⟨j, hj, heq⟩⟩
        obtain ⟨j, hj, hfront⟩ := hfront
        obtain ⟨k, hk⟩ : ∃ k : Nat, (List.range count).find? (fun i => (s.cell (first + i)).name == name) = some k := by
          rw [← Option.isSome_iff_exists, List.find?_isSome]
          exact ⟨j, List.mem_range.2 (Nat.lt_trans hj hi), beq_iff_eq.2 hfront⟩
        rw [hk]
        rw [List.find?_range_eq_some] at hk ⊢
        obtain ⟨hfound, hmem, hleast⟩ := hk
        have hkj : k ≤ j := by
          by_contra hlt
          have hbefore := hleast j (Nat.not_le.1 hlt)
          rw [hfront, beq_self_eq_true] at hbefore
          cases hbefore
        have hsame (l : Nat) (hl : l ≤ k) : ((s.rename c t).cell (first + l)).name = (s.cell (first + l)).name := by
          rw [name_rename hc, if_neg (by omega)]
        refine ⟨?_, hmem, fun l hl => ?_⟩
        · rw [hsame k (Nat.le_refl _)]
          exact hfound
        · rw [hsame l (Nat.le_of_lt hl)]
          exact hleast l hl
      · refine List.find?_congr fun i hi => ?_
        by_cases hi' : first + i = c
        · have hother : t ≠ name := fun heq => hslot ⟨heq.symm, i, List.mem_range.1 hi, hi'.symm⟩
          rw [name_rename hc, if_pos hi', hi', hname, beq_false_of_ne hother, beq_false_of_ne hne.symm]
        · rw [name_rename hc, if_neg hi']

end Scopes

namespace Scopes

variable {s : Scopes} {h : Heap} {name t : Text} {e i c k : Nat} {start : Option EnvRef} {links : List EnvRef}

/-! ## Chains -/

theorem env_of_le (he : s.envs.size ≤ e) : s.env e = ⟨none, 0, .declarative [] 0 0⟩ := by
  rw [env, Array.getD_eq_getD_getElem?, Array.getElem?_eq_none he, Option.getD_none]

theorem resolve_of_le (he : s.envs.size ≤ e) : s.resolve h e name = none := by
  have hnone : s.resolveIn? h e name = none := by
    rw [resolveIn?, env_of_le he]
    dsimp only
    rw [cellOf?, env_of_le he]
    rfl
  rw [resolve, resolveFrom, hnone, env_of_le he]
  cases e <;> rfl

theorem Reaches.lt (hreach : s.Reaches h name c e) : e < s.envs.size := by
  cases hreach with
  | slot hv =>
    obtain ⟨_, hslot⟩ := hv.isSlot
    exact hslot.lt
  | outward _ hparent _ =>
    by_contra hle
    rw [env_of_le (Nat.not_lt.1 hle)] at hparent
    cases hparent

theorem Ascends.congr (hlinks : s.Ascends start links) {s' : Scopes} (henvs : s'.envs = s.envs) :
    s'.Ascends start links := by
  induction hlinks with
  | stop => exact .stop
  | step he _ ih => exact .step (henvs ▸ he) ih

variable (hc : c < s.cells.size) (hname : (s.cell c).name = [])

include hc hname

/-- A search that comes to the slot ends there once the slot has the name. -/
theorem Reaches.findSome?_rename (hreach : s.Reaches h t c k) (ht : t ≠ []) (hapart : s.Apart)
    (hslot : s.IsSlot e i c) (hlinks : s.Ascends (some k) links) :
    links.findSome? (fun e => (s.rename c t).resolveIn? h e t) = some (.cell e c) := by
  induction hreach generalizing links with
  | @slot k hv =>
    cases hlinks with
    | step _ _ =>
      obtain ⟨_, hslot'⟩ := hv.isSlot
      rw [List.findSome?_cons, resolveIn?_rename_vacant hc hv, (hapart.unique hslot' hslot).1]
  | @outward k p hnone hparent _ ih =>
    cases hlinks with
    | @step _ env links hk hrest =>
      by_cases hv : s.Vacant t k c
      · obtain ⟨_, hslot'⟩ := hv.isSlot
        rw [List.findSome?_cons, resolveIn?_rename_vacant hc hv, (hapart.unique hslot' hslot).1]
      · have hlt : k < s.envs.size := (Array.getElem?_eq_some_iff.1 hk).1
        rw [List.findSome?_cons, resolveIn?_rename hc hname hlt ht fun h => hv h.2, hnone]
        rw [env_eq hk] at hparent
        exact ih (hparent ▸ hrest)

theorem findSome?_rename (hne : name ≠ []) (hlinks : s.Ascends start links)
    (hreach : ∀ k, start = some k → ¬ (name = t ∧ s.Reaches h name c k)) :
    links.findSome? (fun e => (s.rename c t).resolveIn? h e name) =
      links.findSome? fun e => s.resolveIn? h e name := by
  induction hlinks with
  | stop => rfl
  | @step e env links he _ ih =>
    have hlt : e < s.envs.size := (Array.getElem?_eq_some_iff.1 he).1
    rw [List.findSome?_cons, List.findSome?_cons,
      resolveIn?_rename hc hname hlt hne fun hv => hreach e rfl ⟨hv.1, .slot hv.2⟩]
    cases hnone : s.resolveIn? h e name with
    | some ref => rfl
    | none =>
      exact ih fun p hp hrest =>
        hreach e rfl ⟨hrest.1, .outward hnone ((congrArg Env.parent (env_eq he)).trans hp) hrest.2⟩

end Scopes

namespace Realm.Sound

variable {r : Realm} {name t : Text} {e i c k : Nat}

theorem resolve_eq (hr : r.Sound) (hk : k < r.scopes.envs.size) : ∃ links, r.scopes.Ascends (some k) links ∧
    ∀ s : Scopes, s.envs = r.scopes.envs → ∀ h name,
      s.resolve h k name = links.findSome? fun e => s.resolveIn? h e name := by
  obtain ⟨links, hlinks, hlength⟩ := Scopes.exists_ascends hr k hk
  exact ⟨links, hlinks, fun s henvs h name => (hlinks.congr henvs).resolveFrom h name hlength⟩

variable (hr : r.Sound) (hapart : r.scopes.Apart) (hslot : r.scopes.IsSlot e i c)
  (hname : (r.scopes.cell c).name = [])

include hr hapart hslot hname

theorem resolve_rename_reaches (ht : t ≠ []) (hreach : r.scopes.Reaches r.heap t c k) :
    (r.scopes.rename c t).resolve r.heap k t = some (.cell e c) := by
  obtain ⟨links, hlinks, hresolve⟩ := hr.resolve_eq hreach.lt
  rw [hresolve (r.scopes.rename c t) rfl]
  exact hreach.findSome?_rename (hapart.slot_lt hslot) hname ht hapart hslot hlinks

theorem resolve_rename (hne : name ≠ []) (hreach : ¬ (name = t ∧ r.scopes.Reaches r.heap name c k)) :
    (r.scopes.rename c t).resolve r.heap k name = r.scopes.resolve r.heap k name := by
  by_cases hk : k < r.scopes.envs.size
  · obtain ⟨links, hlinks, hresolve⟩ := hr.resolve_eq hk
    rw [hresolve (r.scopes.rename c t) rfl, hresolve r.scopes rfl]
    refine Scopes.findSome?_rename (hapart.slot_lt hslot) hname hne hlinks fun k' hk' => ?_
    cases hk'
    exact hreach
  · have hle := Nat.not_lt.1 hk
    rw [Scopes.resolve_of_le (s := r.scopes.rename c t) hle, Scopes.resolve_of_le hle]

end Realm.Sound

namespace Run

variable {w : World} {frame : FrameRef} {offset nest : UInt64} {name : Text} {c : Nat} {x : Run Value}

/-! ## Reads -/

theorem heapSlot_after (frame : FrameRef) (offset nest : UInt64) : (heapSlot frame offset nest).after w = w := by
  cases hlexical : lexicalEnv frame w with
  | error e w₁ =>
    refine (after_bind_error hlexical).trans ?_
    change envOrCrash _ w = _ at hlexical
    rw [envOrCrash_eq] at hlexical
    split at hlexical <;> cases hlexical
    rfl
  | ok e w₁ =>
    obtain ⟨rfl, -⟩ := lexicalEnv_ok hlexical
    refine (after_bind_ok hlexical).trans ?_
    rw [after_bind_ok (realm_run w₁)]
    split <;> rfl

def readValue (name : Text) (v : Value) : Run Value := if v.isEmpty then notInitialized name else pure v

theorem loadHeap_eq (hslot : heapSlot frame offset nest w = .ok c w) (name : Text) :
    loadHeap frame name offset nest w = readValue name (w.realm.scopes.cell c).value (w.named c name) := by
  unfold loadHeap
  rw [bind_ok hslot, bind_ok (cell_ok w c), World.named]
  dsimp only
  split <;> rfl

theorem readValue_extends (name : Text) (v : Value) : w.Extends ((readValue name v).after w) := by
  unfold readValue
  split
  · exact raise_extends _ _
  · exact .refl w

theorem readValue_local (name : Text) (v : Value) : Local (readValue name v) := by
  unfold readValue
  split
  · exact raise_local _ _
  · exact .pure _

/-- A read gives the slot its name; besides there are new strings and objects at most. Without a slot it does
nothing. -/
theorem read_effect (hx : x = loadHeap frame name offset nest ∨ x = typeofHeap frame name offset nest) :
    (∃ c, heapSlot frame offset nest w = .ok c w ∧ (w.named c name).Extends (x.after w) ∧
      (w.named c name).Beside (x.after w)) ∨
    (∀ c, heapSlot frame offset nest w ≠ .ok c w) ∧ x.after w = w := by
  cases hslot : heapSlot frame offset nest w with
  | error e w₁ =>
    have hafter : w₁ = w := (after_error hslot).symm.trans (heapSlot_after ..)
    subst hafter
    refine .inr ⟨nofun, ?_⟩
    have hload : loadHeap frame name offset nest w₁ = .error e w₁ := bind_error hslot
    rcases hx with rfl | rfl
    · exact after_error hload
    · exact after_bind_error hload
  | ok c w₁ =>
    have hafter : w₁ = w := (after_ok hslot).symm.trans (heapSlot_after ..)
    subst hafter
    refine .inl ⟨c, rfl, ?_⟩
    have hload := loadHeap_eq hslot name
    rcases hx with rfl | rfl
    · rw [after_congr hload]
      exact ⟨readValue_extends .., readValue_local ..⟩
    · have htypeof := bind_congr_at hload fun v => do intern ((← heap).typeName v)
      rw [show (typeofHeap frame name offset nest).after w₁ = _ from after_congr htypeof]
      refine ⟨extends_bind (readValue_extends ..) fun v w₂ _ => World.extends_intern w₂ _, ?_⟩
      exact (readValue_local _ _).next (fun v => .next .heap fun _ => intern_local _) _

end Run

namespace World

variable {m : Moment} {w w' w₁ w₂ : World} {e i c k : Nat} {name t : Text} {frame : Run.FrameRef}
  {offset nest : UInt64} {x : Run Value}

/-! ## Worlds that come up -/

/-- A world that comes up in a run, also in the midst of a step, with environments only of objects that exist. -/
def Grown (w : World) : Prop := ∃ config, Grows ⟨0, 0⟩ (blank config) w

theorem Grown.arises (h : w.Grown) : w.Arises := by
  obtain ⟨config, hgrows⟩ := h
  exact ⟨config, hgrows.evolves⟩

theorem Grown.rooted (h : w.Grown) : w.Rooted := by
  obtain ⟨config, hgrows⟩ := h
  refine hgrows.rooted fun {e r} hkind => ?_
  have he : e = 0 := Nat.lt_one_iff.1 (Scopes.lt_of_kind? hkind)
  subst he
  cases hkind
  exact ⟨by decide, Nat.le_refl 5⟩

theorem Reachable.grown (h : w.Reachable) : w.Grown := by
  obtain ⟨config, hsteps⟩ := h
  have hpast : (ofConfig config).Past ⟨0, 0⟩ := ⟨Nat.zero_le _, Nat.zero_le _⟩
  exact ⟨config, (ofConfig_grows config).trans (hsteps.grows hpast (ofConfig_sound config))⟩

/-! ## What names mean -/

/-- What a name means in an environment of a world. -/
def meaning (w : World) (e : EnvRef) (name : Text) : Option Reference :=
  w.realm.scopes.resolve w.realm.heap e name

/-- The search for a name comes to a slot. -/
abbrev Reaches (w : World) (name : Text) (c : CellRef) (e : EnvRef) : Prop :=
  w.realm.scopes.Reaches w.realm.heap name c e

theorem resolveIn?_eq (hext : w.Extends w') (hscopes : w'.realm.scopes = w.realm.scopes) (hsound : w.realm.Sound)
    (hrooted : w.Rooted) (he : e < w.realm.scopes.envs.size) :
    w'.realm.scopes.resolveIn? w'.realm.heap e name = w.realm.scopes.resolveIn? w.realm.heap e name := by
  rw [hscopes, Scopes.resolveIn?, Scopes.resolveIn?]
  cases hkind : (w.realm.scopes.env e).kind with
  | declarative => rfl
  | object r =>
    have hr : w.realm.heap.Has r := hrooted ((Scopes.kind?_of_lt he).trans (congrArg some hkind))
    dsimp only
    rw [Heap.hasProperty, Heap.hasProperty, hext.find?_eq hsound hr]

theorem meaning_eq (hext : w.Extends w') (hscopes : w'.realm.scopes = w.realm.scopes) (hsound : w.realm.Sound)
    (hrooted : w.Rooted) (e : EnvRef) (name : Text) : w'.meaning e name = w.meaning e name := by
  by_cases he : e < w.realm.scopes.envs.size
  · obtain ⟨links, hlinks, hresolve⟩ := hsound.resolve_eq he
    rw [meaning, meaning, hresolve _ (congrArg Scopes.envs hscopes), hresolve _ rfl]
    have hlt := hlinks.lt
    clear hlinks hresolve
    induction links with
    | nil => rfl
    | cons k links ih =>
      obtain ⟨hk, hlt⟩ := List.forall_mem_cons.1 hlt
      rw [List.findSome?_cons, List.findSome?_cons, resolveIn?_eq hext hscopes hsound hrooted hk, ih hlt]
  · have hle := Nat.not_lt.1 he
    rw [meaning, meaning, hscopes, Scopes.resolve_of_le hle, Scopes.resolve_of_le hle]

theorem name_of_meaning (hsound : w.realm.Sound) (hapart : w.realm.scopes.Apart) (hslot : w.realm.scopes.IsSlot e i c)
    {e' : EnvRef} (h : w.meaning k name = some (.cell e' c)) : (w.realm.scopes.cell c).name = name := by
  by_cases hk : k < w.realm.scopes.envs.size
  · obtain ⟨links, hlinks, hresolve⟩ := hsound.resolve_eq hk
    rw [meaning, hresolve _ rfl] at h
    obtain ⟨k', hk', hfound⟩ := List.exists_of_findSome?_eq_some h
    exact (name_of_resolveIn? hapart hslot (hlinks.lt k' hk') hfound).2
  · rw [meaning, Scopes.resolve_of_le (Nat.not_lt.1 hk)] at h
    cases h

/-! ## Names of slots last -/

theorem Change.name_eq (h : w.Change m w₁) (hc : c < w.realm.scopes.cells.size)
    (hname : (w.realm.scopes.cell c).name ≠ []) : (w₁.realm.scopes.cell c).name = (w.realm.scopes.cell c).name := by
  have hset {k : Nat} {x : Cell} (hx : k = c → x.name = (w.realm.scopes.cell c).name) :
      ((w.withScopes fun s => s.setCell k x).realm.scopes.cell c).name = (w.realm.scopes.cell c).name := by
    by_cases hk : k = c
    · subst hk
      exact (congrArg Cell.name (Scopes.cell_setCell_self hc x)).trans (hx rfl)
    · exact congrArg Cell.name (Scopes.cell_setCell_of_ne hk x)
  cases h with
  | machine | print | leave | install | intern | create | construct | content | iterate | add | assign
  | delete | literal | redeclare | enter => rfl
  | enterSlots parent size start => exact congrArg Cell.name (Scopes.cell_pushSlots hc ..)
  | bind e name x => exact congrArg Cell.name (Scopes.cell_bind hc ..)
  | unbind e name => exact congrArg Cell.name (Scopes.cell_unbind ..)
  | write k | settle _ k => exact hset fun heq => heq ▸ rfl
  | reset _ _ _ _ _ _ _ _ k => exact hset fun heq => heq ▸ rfl
  | name k t hk => exact hset fun heq => absurd (heq ▸ hk) hname

theorem Evolves.name_eq (h : Evolves m w w₁) (hw : w.realm.scopes.Apart) (hslot : w.realm.scopes.IsSlot e i c)
    (hname : (w.realm.scopes.cell c).name ≠ []) : (w₁.realm.scopes.cell c).name = (w.realm.scopes.cell c).name := by
  induction h with
  | refl => rfl
  | tail hbefore hchange ih =>
    have hc := (Evolves.apart hbefore hw).slot_lt (Evolves.isSlot hbefore hslot)
    exact (hchange.name_eq hc (ih ▸ hname)).trans ih

/-- A world in which a slot has no name. -/
def unnamed (w : World) (c : CellRef) : World := w.withScopes fun s => s.rename c []

/-- What names mean in an environment but for the name of a slot does not depend on it. -/
theorem meaning_unnamed (hsound : w.realm.Sound) (hapart : w.realm.scopes.Apart) (hslot : w.realm.scopes.IsSlot e i c)
    (hne : name ≠ []) (hother : name ≠ (w.realm.scopes.cell c).name) (k : EnvRef) :
    (w.unnamed c).meaning k name = w.meaning k name := by
  have hc := hapart.slot_lt hslot
  have hempty : ((w.realm.scopes.rename c []).cell c).name = [] := by rw [Scopes.name_rename hc, if_pos rfl]
  have hback : (w.realm.scopes.rename c []).rename c (w.realm.scopes.cell c).name = w.realm.scopes :=
    Scopes.rename_rename hc
  have hsame := Realm.Sound.resolve_rename (k := k) (t := (w.realm.scopes.cell c).name)
    (hsound.ofScopes (s := w.realm.scopes.rename c []) fun _ => rfl)
    (hapart.setCell ..) ((Scopes.isSlot_congr fun _ => rfl).2 hslot) hempty hne fun h => hother h.1
  rw [meaning, meaning, ← hback]
  exact hsame.symm

/-! ## What a read does to names -/

theorem named_of_nil (hname : (w.realm.scopes.cell c).name = []) :
    w.named c t = w.withScopes fun s => s.rename c t := if_pos hname

theorem named_of_ne (hname : (w.realm.scopes.cell c).name ≠ []) : w.named c t = w := if_neg hname

theorem named_envs (w : World) (c : CellRef) (t : Text) :
    (w.named c t).realm.scopes.envs = w.realm.scopes.envs := by
  rw [named]
  split <;> rfl

theorem named_change (w : World) (c : CellRef) (t : Text) : w.named c t = w ∨ w.Change m (w.named c t) := by
  by_cases hname : (w.realm.scopes.cell c).name = []
  · exact .inr (named_of_nil (t := t) hname ▸ .name c t hname)
  · exact .inl (named_of_ne hname)

theorem isSlot_of_heapSlot (hsound : w.realm.Sound) (hslot : Run.heapSlot frame offset nest w = .ok c w) :
    ∃ e, w.realm.scopes.IsSlot e offset.toNat c := by
  obtain ⟨-, k, -, hk, hc⟩ := Run.heapSlot_ok hslot
  obtain ⟨e, -, hslot⟩ := Scopes.isSlot_of_slot? (fun _ h => Scopes.outer_lt hsound hk h) hc
  exact ⟨e, hslot⟩

theorem lexicalEnv_iff (hmachine : w'.machine = w.machine) (henvs : w'.realm.scopes.envs = w.realm.scopes.envs)
    (other : Run.FrameRef) (k : EnvRef) : Run.lexicalEnv other w' = .ok k w' ↔ Run.lexicalEnv other w = .ok k w := by
  change Run.envOrCrash (w'.machine.frameWord other Frame.lexicalEnv).toNat w' = _ ↔
    Run.envOrCrash (w.machine.frameWord other Frame.lexicalEnv).toNat w = _
  rw [Run.envOrCrash_eq, Run.envOrCrash_eq, hmachine, henvs]
  split <;> simp

/-- A fresh realm with an environment of one slot inside the global one. -/
def slottedRealm : Realm :=
  let realm := (ofConfig ⟨0, 0, 0⟩).realm
  { realm with scopes := (realm.scopes.pushSlots 0 1 0).2 }

-- One evaluation for all of them, since each would build the realm again.
theorem slottedRealm_facts : slottedRealm.scopes.envs.size = 2 ∧
    slottedRealm.scopes.kind? 1 = some (.declarative [] 0 1) ∧ (slottedRealm.scopes.cell 0).name = [] ∧
    (slottedRealm.scopes.cell 0).value = Value.undefined ∧ slottedRealm.scopes.slot? 1 0 0 = some 0 ∧
    slottedRealm.scopes.resolve slottedRealm.heap 1 "n" = none ∧
    slottedRealm.scopes.resolve slottedRealm.heap 1 [] = some (.cell 1 0) ∧
    (slottedRealm.scopes.rename 0 "n").resolve slottedRealm.heap 1 "n" = some (.cell 1 0) := by
  decide +kernel

/-- A frame whose code has entered the environment. -/
theorem exists_slotted : ∃ w : World, w.Reachable ∧ w.realm = slottedRealm ∧ Run.heapSlot 0 0 0 w = .ok 0 w := by
  obtain ⟨w, hw⟩ : ∃ w : World, w = { ofConfig ⟨0, 0, 0⟩ with
      machine := (Machine.ofConfig ⟨0, 0, 0⟩).setFrameWord 0 Frame.lexicalEnv 0 } := ⟨_, rfl⟩
  have hreachable : w.Reachable := hw ▸ ⟨⟨0, 0, 0⟩, .single (.machine _)⟩
  have hrealm : w.realm = (ofConfig ⟨0, 0, 0⟩).realm := by rw [hw]
  have hlexical : w.lexical 0 = 0 := by
    rw [hw, lexical, Machine.frameWord, Machine.setFrameWord, Machine.readWord_writeWord_self]
    rfl
  -- The stub that enters the environment.
  obtain ⟨w', hw'⟩ : ∃ w' : World, w' = { w with stubCalls := w.stubCalls.push .buildEnv } := ⟨_, rfl⟩
  have hrealm' : w'.realm = w.realm := by rw [hw']
  have hcurrent : Run.lexicalEnv 0 w' = .ok 0 w' := by
    have hlexical' : w'.lexical 0 = 0 := by rw [hw']; exact hlexical
    have henv : Run.lexicalEnv 0 w' = .ok (w'.lexical 0) w' := Run.lexicalEnv_eq
      (by rw [hlexical', hrealm']; exact Nat.zero_lt_of_lt hreachable.arises.sound.globalEnv)
    rwa [hlexical'] at henv
  obtain ⟨x, -, hbuild⟩ := Run.buildEnv_eq hcurrent 1 0
  have hstep : w.Step ((Run.stub (Run.evaluator true 0) .buildEnv 0 1 0 0 0).after w') :=
    hw' ▸ .stub true 0 .buildEnv 0 1 0 0 0
  have hafter : (Run.stub (Run.evaluator true 0) .buildEnv 0 1 0 0 0).after w' = _ := Run.after_bind_ok hbuild
  rw [hafter] at hstep
  obtain ⟨hsize, -, -, -, hslot, -⟩ := slottedRealm_facts
  have hslotted : ({ w'.realm with scopes := (w'.realm.scopes.pushSlots 0 1 0).2 } : Realm) = slottedRealm := by
    rw [hrealm', hrealm, slottedRealm]
  have hcount : w'.realm.scopes.envs.size = 1 := by
    rw [hrealm', hrealm]
    decide +kernel
  obtain ⟨config, hsteps⟩ := hreachable
  have hentered := lexical_enter ⟨w'.realm, x, w'.output, w'.stubCalls⟩ 0
    (show w'.realm.scopes.envs.size < 2 ^ 64 by rw [hcount]; decide)
  refine ⟨_, ⟨config, hsteps.tail hstep⟩, hslotted, Run.heapSlot_eq (e := 1) ?_ ?_⟩
  · generalize hw₂ : ({ w' with realm := _, machine := _ } : World) = w₂
    have hlexical₂ : w₂.lexical 0 = 1 := by
      rw [← hw₂, ← hcount]
      exact hentered
    have hrealm₂ : w₂.realm = slottedRealm := by
      rw [← hw₂]
      exact hslotted
    have henv : Run.lexicalEnv 0 w₂ = .ok (w₂.lexical 0) w₂ :=
      Run.lexicalEnv_eq (by rw [hlexical₂, hrealm₂, hsize]; decide)
    rwa [hlexical₂] at henv
  · rw [← hslotted] at hslot
    exact hslot

end World

end RegisterJit
