import RegisterJit.Proofs.Chains

/-!
# Cells

Every slot of an environment is a cell of its own: no other slot and no binding of a name shares it. So what is
done to bindings leaves the slots alone, and a slot that is assigned once is written before it has a value or
not at all, but for the stub that initialises it.

`IsSlot` and `Binds` say which cell stands for a slot and which for a name, `Apart` that they are different
ones. All three are kept by every change of the world, and `Fixed` adds what is known of the cell of a slot that
is assigned once: what it holds, while it is empty and once it has a value. `Change.fixed` and `Change.value_eq`
are the steps, and runs follow by induction. `Slots` draws the conclusions for the stubs that read and write
slots; `Rendering` and `Capture` use only that slots keep to their cells.
-/

namespace RegisterJit

namespace Scopes

variable {s s' : Scopes} {e : Nat} {i : Nat} {c : Nat} {name : Text}

/-! ## Slots and bindings -/

/-- A cell is the slot of an environment at an offset. -/
def IsSlot (s : Scopes) (e i c : Nat) : Prop :=
  ∃ bindings first count, s.kind? e = some (.declarative bindings first count) ∧ i < count ∧ c = first + i

/-- A cell is bound to a name in an environment. -/
def Binds (s : Scopes) (e : Nat) (name : Text) (c : Nat) : Prop :=
  ∃ bindings first count, s.kind? e = some (.declarative bindings first count) ∧ (name, c) ∈ bindings

/-- Slots and bindings exist, and no slot is another one or a binding. -/
structure Apart (s : Scopes) : Prop where
  slot_lt : ∀ {e i c}, s.IsSlot e i c → c < s.cells.size
  binding_lt : ∀ {e name c}, s.Binds e name c → c < s.cells.size
  unique : ∀ {e i e' i' c}, s.IsSlot e i c → s.IsSlot e' i' c → e = e' ∧ i = i'
  apart : ∀ {e i e' name c}, s.IsSlot e i c → ¬ s.Binds e' name c

theorem IsSlot.lt (h : s.IsSlot e i c) : e < s.envs.size := by
  obtain ⟨bindings, first, count, hkind, -⟩ := h
  exact lt_of_kind? hkind

theorem isSlot_congr (h : ∀ e, s'.kind? e = s.kind? e) : s'.IsSlot e i c ↔ s.IsSlot e i c := by
  simp only [IsSlot, h]

theorem binds_congr (h : ∀ e, s'.kind? e = s.kind? e) : s'.Binds e name c ↔ s.Binds e name c := by
  simp only [Binds, h]

theorem isSlot_of_slot? {nest : Nat} (hlt : ∀ k, s.outer nest e = some k → k < s.envs.size)
    (h : s.slot? e i nest = some c) : ∃ k, s.outer nest e = some k ∧ s.IsSlot k i c := by
  rw [slot?] at h
  cases houter : s.outer nest e with
  | none =>
    rw [houter] at h
    cases h
  | some k =>
    rw [houter] at h
    dsimp only at h
    refine ⟨k, rfl, ?_⟩
    cases hkind : (s.env k).kind with
    | object r =>
      rw [hkind] at h
      cases h
    | declarative bindings first count =>
      rw [hkind] at h
      dsimp only at h
      split at h
      · next hi =>
        cases h
        exact ⟨bindings, first, count, by rw [kind?_of_lt (hlt k houter), hkind], hi, rfl⟩
      · cases h

theorem IsSlot.slot? {k nest : Nat} (h : s.IsSlot k i c) (houter : s.outer nest e = some k) :
    s.slot? e i nest = some c := by
  obtain ⟨bindings, first, count, hkind, hi, rfl⟩ := h
  rw [Scopes.slot?, houter]
  dsimp only
  rw [kind_env hkind]
  exact if_pos hi

/-! ## Changes of environments -/

theorem isSlot_bind (s : Scopes) (k : EnvRef) (key : Text) (x : Cell) :
    (s.bind k key x).IsSlot e i c ↔ s.IsSlot e i c := by
  rw [bind]
  split
  · exact .rfl
  · next bindings first count hkind =>
    simp only [IsSlot, kind?_modify]
    split
    · next heq =>
      subst heq
      cases hk : s.kind? k with
      | none => simp
      | some kind =>
        obtain rfl := (kind_env hk).symm.trans hkind
        simp
    · exact .rfl

theorem binds_bind (s : Scopes) (k : EnvRef) (key : Text) (x : Cell) (h : (s.bind k key x).Binds e name c) :
    s.Binds e name c ∨ c = s.cells.size := by
  rw [bind] at h
  split at h
  · exact .inl h
  · next bindings first count hkind =>
    simp only [Binds, kind?_modify] at h
    split at h
    · next heq =>
      subst heq
      cases hk : s.kind? k with
      | none => simp [hk] at h
      | some kind =>
        obtain rfl := (kind_env hk).symm.trans hkind
        obtain ⟨_, _, _, hmap, hmem⟩ := h
        rw [hk, Option.map_some] at hmap
        cases hmap
        rcases List.mem_cons.1 hmem with heq | hmem
        · exact .inr (congrArg Prod.snd heq)
        · exact .inl ⟨bindings, first, count, hk, hmem⟩
    · exact .inl h

theorem isSlot_unbind (s : Scopes) (k : EnvRef) (key : Text) :
    (s.unbind k key).IsSlot e i c ↔ s.IsSlot e i c := by
  rw [unbind]
  split
  · exact .rfl
  · next bindings first count hkind =>
    simp only [IsSlot, kind?_modify]
    split
    · next heq =>
      subst heq
      cases hk : s.kind? k with
      | none => simp
      | some kind =>
        obtain rfl := (kind_env hk).symm.trans hkind
        simp
    · exact .rfl

theorem binds_unbind (s : Scopes) (k : EnvRef) (key : Text) (h : (s.unbind k key).Binds e name c) :
    s.Binds e name c := by
  rw [unbind] at h
  split at h
  · exact h
  · next bindings first count hkind =>
    simp only [Binds, kind?_modify] at h
    split at h
    · next heq =>
      subst heq
      cases hk : s.kind? k with
      | none => simp [hk] at h
      | some kind =>
        obtain rfl := (kind_env hk).symm.trans hkind
        obtain ⟨_, _, _, hmap, hmem⟩ := h
        rw [hk, Option.map_some] at hmap
        cases hmap
        exact ⟨bindings, first, count, hk, (List.mem_filter.1 hmem).1⟩
    · exact h

theorem isSlot_push {parent : Nat} {kind : EnvKind} (hbare : kind.Bare) :
    (s.push (some parent) kind).2.IsSlot e i c ↔ s.IsSlot e i c := by
  simp only [IsSlot, kind?_push]
  split
  · next heq =>
    rw [heq]
    constructor
    · rintro ⟨bindings, first, count, hkind, hi, -⟩
      cases hkind
      exact absurd (hbare.2 ▸ hi) (Nat.not_lt_zero i)
    · rintro ⟨bindings, first, count, hkind, -⟩
      exact absurd (lt_of_kind? hkind) (Nat.lt_irrefl _)
  · exact .rfl

theorem binds_push {parent : Nat} {kind : EnvKind} (hbare : kind.Bare)
    (h : (s.push (some parent) kind).2.Binds e name c) : s.Binds e name c := by
  simp only [Binds, kind?_push] at h
  split at h
  · obtain ⟨bindings, first, count, hkind, hmem⟩ := h
    cases hkind
    rw [hbare.1] at hmem
    cases hmem
  · exact h

theorem isSlot_pushSlots {parent size start : Nat} : (s.pushSlots parent size start).2.IsSlot e i c ↔
    s.IsSlot e i c ∨ e = s.envs.size ∧ i < size ∧ c = s.cells.size + i := by
  simp only [IsSlot, kind?_pushSlots]
  split
  · next heq =>
    rw [heq]
    constructor
    · rintro ⟨bindings, first, count, hkind, hi, rfl⟩
      cases hkind
      exact .inr ⟨rfl, hi, rfl⟩
    · rintro (⟨bindings, first, count, hkind, -⟩ | ⟨-, hi, rfl⟩)
      · exact absurd (lt_of_kind? hkind) (Nat.lt_irrefl _)
      · exact ⟨_, _, _, rfl, hi, rfl⟩
  · next hne => exact ⟨.inl, fun h => h.resolve_right fun h => hne h.1⟩

theorem binds_pushSlots {parent size start : Nat} (h : (s.pushSlots parent size start).2.Binds e name c) :
    s.Binds e name c := by
  simp only [Binds, kind?_pushSlots] at h
  split at h
  · obtain ⟨bindings, first, count, hkind, hmem⟩ := h
    cases hkind
    cases hmem
  · exact h

/-! ## They stay apart -/

namespace Apart

variable (hs : s.Apart)

include hs

theorem of_imp (hsize : s.cells.size ≤ s'.cells.size)
    (hslot : ∀ {e i c}, s'.IsSlot e i c → s.IsSlot e i c)
    (hbinds : ∀ {e name c}, s'.Binds e name c → s.Binds e name c) : s'.Apart where
  slot_lt h := Nat.lt_of_lt_of_le (hs.slot_lt (hslot h)) hsize
  binding_lt h := Nat.lt_of_lt_of_le (hs.binding_lt (hbinds h)) hsize
  unique h h' := hs.unique (hslot h) (hslot h')
  apart h h' := hs.apart (hslot h) (hbinds h')

theorem setCell (c : CellRef) (x : Cell) : (s.setCell c x).Apart :=
  hs.of_imp (by simp [Scopes.setCell]) (isSlot_congr fun _ => rfl).1 (binds_congr fun _ => rfl).1

theorem push {parent : Nat} {kind : EnvKind} (hbare : kind.Bare) : (s.push (some parent) kind).2.Apart :=
  hs.of_imp (Nat.le_refl _) (isSlot_push hbare).1 (binds_push hbare)

theorem unbind (k : EnvRef) (key : Text) : (s.unbind k key).Apart := by
  refine hs.of_imp ?_ (isSlot_unbind s k key).1 (binds_unbind s k key)
  rw [Scopes.unbind]
  split <;> exact Nat.le_refl _

theorem bind (k : EnvRef) (key : Text) (x : Cell) : (s.bind k key x).Apart := by
  by_cases hobject : ∃ r, (s.env k).kind = .object r
  · obtain ⟨r, hr⟩ := hobject
    have hsame : s.bind k key x = s := by rw [Scopes.bind, hr]
    rw [hsame]
    exact hs
  have hsize : (s.bind k key x).cells.size = s.cells.size + 1 := by
    rw [Scopes.bind]
    split
    · next r hr => exact absurd ⟨r, hr⟩ hobject
    · exact Array.size_push _
  constructor
  · intro e i c h
    exact hsize ▸ Nat.lt_succ_of_lt (hs.slot_lt ((isSlot_bind s k key x).1 h))
  · intro e name c h
    rw [hsize]
    rcases binds_bind s k key x h with h | rfl
    · exact Nat.lt_succ_of_lt (hs.binding_lt h)
    · exact Nat.lt_succ_self _
  · intro e i e' i' c h h'
    exact hs.unique ((isSlot_bind s k key x).1 h) ((isSlot_bind s k key x).1 h')
  · intro e i e' name c h h'
    rw [isSlot_bind] at h
    rcases binds_bind s k key x h' with h' | rfl
    · exact hs.apart h h'
    · exact Nat.lt_irrefl _ (hs.slot_lt h)

theorem pushSlots (parent size start : Nat) : (s.pushSlots parent size start).2.Apart := by
  have hsize : (s.pushSlots parent size start).2.cells.size = s.cells.size + size := by
    simp [Scopes.pushSlots, Scopes.push]
  constructor
  · intro e i c h
    rw [hsize]
    rcases isSlot_pushSlots.1 h with h | ⟨-, hi, rfl⟩
    · exact Nat.lt_add_right size (hs.slot_lt h)
    · exact Nat.add_lt_add_left hi _
  · intro e name c h
    exact hsize ▸ Nat.lt_add_right size (hs.binding_lt (binds_pushSlots h))
  · intro e i e' i' c h h'
    rcases isSlot_pushSlots.1 h with h | ⟨rfl, -, rfl⟩
    · rcases isSlot_pushSlots.1 h' with h' | ⟨-, -, rfl⟩
      · exact hs.unique h h'
      · exact absurd (hs.slot_lt h) (Nat.not_lt.2 (Nat.le_add_right _ _))
    · rcases isSlot_pushSlots.1 h' with h' | ⟨rfl, -, heq⟩
      · exact absurd (hs.slot_lt h') (Nat.not_lt.2 (Nat.le_add_right _ _))
      · exact ⟨rfl, Nat.add_left_cancel heq⟩
  · intro e i e' name c h h'
    have hbinds := binds_pushSlots h'
    rcases isSlot_pushSlots.1 h with h | ⟨-, -, rfl⟩
    · exact hs.apart h hbinds
    · exact absurd (hs.binding_lt hbinds) (Nat.not_lt.2 (Nat.le_add_right _ _))

end Apart

/-! ## What cells hold -/

theorem cell_setCell_self (hc : c < s.cells.size) (x : Cell) : (s.setCell c x).cell c = x := by
  simp [cell, setCell, Array.getD_eq_getD_getElem?, hc]

theorem cell_setCell_of_ne {k : Nat} (h : k ≠ c) (x : Cell) : (s.setCell k x).cell c = s.cell c := by
  simp [cell, setCell, Array.getD_eq_getD_getElem?, Array.getElem?_setIfInBounds_ne h]

theorem cell_unbind (k : EnvRef) (key : Text) : (s.unbind k key).cell c = s.cell c := by
  rw [unbind]
  split <;> rfl

theorem cell_bind (hc : c < s.cells.size) (k : EnvRef) (key : Text) (x : Cell) :
    (s.bind k key x).cell c = s.cell c := by
  rw [bind]
  split
  · rfl
  · simp [cell, Array.getD_eq_getD_getElem?, Array.getElem?_push, Nat.ne_of_lt hc]

theorem cell_pushSlots (hc : c < s.cells.size) (parent size start : Nat) :
    (s.pushSlots parent size start).2.cell c = s.cell c := by
  simp [cell, pushSlots, push, Array.getD_eq_getD_getElem?, Array.getElem?_append_left hc]

theorem cell_pushSlots_new {parent size start : Nat} (hi : i < size) :
    (s.pushSlots parent size start).2.cell (s.cells.size + i) =
      if start ≤ i then Cell.mutableSlot else Cell.immutableSlot := by
  simp [cell, pushSlots, push, Array.getD_eq_getD_getElem?, hi]

end Scopes

/-! ## Runs -/

namespace World

variable {m : Moment} {w w₁ w₂ : World} {e i c : Nat}

/-- A world that comes up in a run, also in the midst of a step: it was reached from a fresh one by changes. -/
def Arises (w : World) : Prop := ∃ config, Evolves ⟨0, 0⟩ (blank config) w

theorem Reachable.arises (h : w.Reachable) : w.Arises := by
  obtain ⟨config, hsteps⟩ := h
  have hfresh := ofConfig_evolves config
  have hpast : (ofConfig config).Past ⟨0, 0⟩ := ⟨Nat.zero_le _, Nat.zero_le _⟩
  exact ⟨config, hfresh.trans (hsteps.evolves hpast (ofConfig_sound config))⟩

theorem Arises.sound (h : w.Arises) : w.realm.Sound := by
  obtain ⟨config, hevolves⟩ := h
  exact hevolves.sound Realm.bare_sound

theorem Change.apart (h : w.Change m w₁) (hw : w.realm.scopes.Apart) : w₁.realm.scopes.Apart := by
  cases h with
  | machine | print | leave | install | intern | create | construct | content | iterate | add | assign
  | delete | literal | redeclare => exact hw
  | enter parent kind hparent hbare => exact hw.push hbare
  | enterSlots parent size start => exact hw.pushSlots parent size start
  | bind e name x => exact hw.bind e name x
  | unbind e name => exact hw.unbind e name
  | write c v | settle _ c v => exact hw.setCell c _
  | reset _ _ _ _ _ _ _ _ c => exact hw.setCell c _
  | name c t => exact hw.setCell c _

theorem Evolves.apart (h : Evolves m w w₁) (hw : w.realm.scopes.Apart) : w₁.realm.scopes.Apart := by
  induction h with
  | refl => exact hw
  | tail _ hchange ih => exact hchange.apart ih

theorem bare_apart : Realm.bare.scopes.Apart := by
  have hobject (e : Nat) (bindings : List (Text × CellRef)) (first count : Nat) :
      Realm.bare.scopes.kind? e ≠ some (.declarative bindings first count) := by
    intro h
    have hzero : e = 0 := Nat.lt_one_iff.1 (Scopes.lt_of_kind? h)
    subst hzero
    cases h
  constructor
  · rintro e i c ⟨bindings, first, count, h, -⟩
    exact absurd h (hobject e bindings first count)
  · rintro e name c ⟨bindings, first, count, h, -⟩
    exact absurd h (hobject e bindings first count)
  · rintro e i e' i' c ⟨bindings, first, count, h, -⟩
    exact absurd h (hobject e bindings first count)
  · rintro e i e' name c ⟨bindings, first, count, h, -⟩
    exact absurd h (hobject e bindings first count)

theorem Arises.apart (h : w.Arises) : w.realm.scopes.Apart := by
  obtain ⟨config, hevolves⟩ := h
  exact hevolves.apart bare_apart

theorem Change.isSlot (h : w.Change m w₁) (hslot : w.realm.scopes.IsSlot e i c) :
    w₁.realm.scopes.IsSlot e i c := by
  cases h with
  | machine | print | leave | install | intern | create | construct | content | iterate | add | assign
  | delete | literal | redeclare => exact hslot
  | enter parent kind hparent hbare => exact (Scopes.isSlot_push hbare).2 hslot
  | enterSlots parent size start => exact Scopes.isSlot_pushSlots.2 (.inl hslot)
  | bind e name x => exact (Scopes.isSlot_bind ..).2 hslot
  | unbind e name => exact (Scopes.isSlot_unbind ..).2 hslot
  | write | settle | reset | name => exact (Scopes.isSlot_congr fun _ => rfl).2 hslot

theorem Evolves.isSlot (h : Evolves m w w₁) (hslot : w.realm.scopes.IsSlot e i c) :
    w₁.realm.scopes.IsSlot e i c := by
  induction h with
  | refl => exact hslot
  | tail _ hchange ih => exact hchange.isSlot ih

/-- A slot that is assigned once. -/
structure Fixed (w : World) (e i c : Nat) : Prop where
  isSlot : w.realm.scopes.IsSlot e i c
  not_mutable : (w.realm.scopes.cell c).isMutable = false
  not_deletable : (w.realm.scopes.cell c).isDeletable = false

/-- What a slot that is assigned once is after another cell or its own value or name was written. -/
theorem Fixed.setCell (h : w.Fixed e i c) (hc : c < w.realm.scopes.cells.size) {k : Nat} {x : Cell}
    (hx : k = c → x.isMutable = false ∧ x.isDeletable = false) :
    (w.withScopes fun s => s.setCell k x).Fixed e i c := by
  have hslot : (w.withScopes fun s => s.setCell k x).realm.scopes.IsSlot e i c :=
    (Scopes.isSlot_congr fun _ => rfl).2 h.isSlot
  by_cases hk : k = c
  · subst hk
    have hcell : (w.withScopes fun s => s.setCell k x).realm.scopes.cell k = x := Scopes.cell_setCell_self hc x
    exact ⟨hslot, (congrArg _ hcell).trans (hx rfl).1, (congrArg _ hcell).trans (hx rfl).2⟩
  · have hcell : (w.withScopes fun s => s.setCell k x).realm.scopes.cell c = w.realm.scopes.cell c :=
      Scopes.cell_setCell_of_ne hk x
    exact ⟨hslot, hcell ▸ h.not_mutable, hcell ▸ h.not_deletable⟩

theorem Fixed.of_cell_eq (h : w.Fixed e i c) (hchange : w.Change m w₁)
    (hcell : w₁.realm.scopes.cell c = w.realm.scopes.cell c) : w₁.Fixed e i c :=
  ⟨hchange.isSlot h.isSlot, hcell ▸ h.not_mutable, hcell ▸ h.not_deletable⟩

/-- One change leaves a slot that is assigned once one of that kind. -/
theorem Change.fixed (h : w.Change m w₁) (hw : w.realm.scopes.Apart) (hslot : w.Fixed e i c) :
    w₁.Fixed e i c := by
  have hc := hw.slot_lt hslot.isSlot
  have hkeep := hslot.of_cell_eq h
  cases h with
  | machine | print | leave | install | intern | create | construct | content | iterate | add | assign
  | delete | literal | redeclare | enter => exact hkeep rfl
  | enterSlots parent size start => exact hkeep (Scopes.cell_pushSlots hc ..)
  | bind e name x => exact hkeep (Scopes.cell_bind hc ..)
  | unbind e name => exact hkeep (Scopes.cell_unbind ..)
  | write k v | settle _ k v => exact hslot.setCell hc fun hk => hk ▸ ⟨hslot.not_mutable, hslot.not_deletable⟩
  | reset _ _ _ _ _ _ _ _ k => exact hslot.setCell hc fun hk => hk ▸ ⟨hslot.not_mutable, hslot.not_deletable⟩
  | name k t => exact hslot.setCell hc fun hk => hk ▸ ⟨hslot.not_mutable, hslot.not_deletable⟩

theorem Evolves.fixed (h : Evolves m w w₁) (hw : w.realm.scopes.Apart) (hslot : w.Fixed e i c) :
    w₁.Fixed e i c := by
  induction h with
  | refl => exact hslot
  | tail hbefore hchange ih => exact hchange.fixed (Evolves.apart hbefore hw) ih

/-- One change leaves the value of such a slot alone once it has one, but for the stub that initialises slots. -/
theorem Change.value_eq (h : w.Change m w₁) (hw : w.realm.scopes.Apart) (hslot : w.Fixed e i c)
    (hvalue : (w.realm.scopes.cell c).value.isEmpty = false) (hs : .initializeHeapImmutable ∉ w₁.calledSince m) :
    (w₁.realm.scopes.cell c).value = (w.realm.scopes.cell c).value := by
  have hc := hw.slot_lt hslot.isSlot
  -- Another cell is written, or this one with its own value.
  have hset {k : Nat} {x : Cell} (hx : k = c → x.value = (w.realm.scopes.cell c).value) :
      ((w.withScopes fun s => s.setCell k x).realm.scopes.cell c).value = (w.realm.scopes.cell c).value := by
    by_cases hk : k = c
    · subst hk
      exact (congrArg Cell.value (Scopes.cell_setCell_self hc x)).trans (hx rfl)
    · exact congrArg Cell.value (Scopes.cell_setCell_of_ne hk x)
  cases h with
  | machine | print | leave | install | intern | create | construct | content | iterate | add | assign
  | delete | literal | redeclare | enter => rfl
  | enterSlots parent size start => exact congrArg Cell.value (Scopes.cell_pushSlots hc ..)
  | bind e name x => exact congrArg Cell.value (Scopes.cell_bind hc ..)
  | unbind e name => exact congrArg Cell.value (Scopes.cell_unbind ..)
  | write k v hk =>
    refine hset fun heq => ?_
    subst heq
    rw [hslot.not_mutable, hvalue] at hk
    exact absurd hk (by decide)
  | settle hcalled => exact absurd hcalled hs
  | reset _ _ e' name bindings first count hkind k hk =>
    -- Names are bound in environments that exist, and to cells that are no slots.
    refine hset fun heq => absurd hslot.isSlot fun h => ?_
    subst heq
    by_cases he' : e' < w.realm.scopes.envs.size
    · have hmem : (name, k) ∈ bindings := by
        obtain ⟨before, after, rfl, -⟩ := List.lookup_eq_some_iff.1 hk
        exact List.mem_append_right _ List.mem_cons_self
      exact hw.apart h ⟨bindings, first, count, (Scopes.kind?_of_lt he').trans (congrArg some hkind), hmem⟩
    · rw [Scopes.env, Array.getD_eq_getD_getElem?, Array.getElem?_eq_none (Nat.not_lt.1 he')] at hkind
      cases hkind
      cases hk
  | name k t => exact hset fun heq => heq ▸ rfl

theorem Evolves.value_eq (h : Evolves m w w₁) (hw : w.realm.scopes.Apart) (hslot : w.Fixed e i c)
    (hvalue : (w.realm.scopes.cell c).value.isEmpty = false) (hs : .initializeHeapImmutable ∉ w₁.calledSince m) :
    (w₁.realm.scopes.cell c).value = (w.realm.scopes.cell c).value := by
  induction h with
  | refl => rfl
  | tail hbefore hchange ih =>
    have hsame := ih (mt hchange.calledSince hs)
    exact (hchange.value_eq (Evolves.apart hbefore hw) (Evolves.fixed hbefore hw hslot) (hsame ▸ hvalue)
      hs).trans hsame

end World

end RegisterJit
