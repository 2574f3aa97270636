import RegisterJit.Proofs.Cells
import RegisterJit.Proofs.State

/-!
# Slots that are assigned once

The slots of an environment before its mutable ones are empty at first. While such a slot is empty, everything that
reads it throws an error, by its place or by its name. Once it has a value, stores and increments that come to
it are refused, and nothing that a run does changes it but the stub that initialises slots.

A slot is reached by its place, as an offset and a level, or by its name. `heapSlot_iff` and its counterpart for
names say which accesses come to a given slot of an environment. `Guarded` lists what all of them do while the
slot is empty, `Kept` what stores and steps do when it has a value; both are proved for the slot of any world in
which environments are sound. That a value stays is a run lemma over the changes of `Evolution`, in which one
stub alone initialises slots. `slots_written_once` puts the two phases together for a new environment.
-/

namespace RegisterJit

namespace Run

variable {w w₁ w₂ : World} {frame : FrameRef} {name : Text} {e c : Nat} {offset nest : UInt64} {ev : Evaluator}

/-! ## Which slot is meant -/

theorem envOrCrash_eq (e : EnvRef) :
    envOrCrash e w = if e < w.realm.scopes.envs.size then .ok e w else .error .crash w := by
  change (if e < w.realm.scopes.envs.size then (return e : Run EnvRef) else throw Fault.crash) w = _
  split <;> rfl

theorem heapSlot_eq (h : lexicalEnv frame w = .ok e w)
    (hslot : w.realm.scopes.slot? e offset.toNat nest.toNat = some c) :
    heapSlot frame offset nest w = .ok c w := by
  rw [heapSlot, bind_ok h, bind_ok (realm_run w), hslot]
  rfl

theorem heapSlot_ok (h : heapSlot frame offset nest w = .ok c w₁) : w₁ = w ∧ ∃ e,
    lexicalEnv frame w = .ok e w ∧ e < w.realm.scopes.envs.size ∧
      w.realm.scopes.slot? e offset.toNat nest.toNat = some c := by
  cases hlexical : lexicalEnv frame w with
  | error fault w' => exact nomatch (bind_error hlexical).symm.trans h
  | ok e w' =>
    obtain ⟨rfl, he⟩ := lexicalEnv_ok hlexical
    have hrun := (bind_ok hlexical).symm.trans h
    rw [bind_ok (realm_run w')] at hrun
    cases hslot : w'.realm.scopes.slot? e offset.toNat nest.toNat with
    | none =>
      rw [hslot] at hrun
      cases hrun
    | some c' =>
      rw [hslot] at hrun
      cases hrun
      exact ⟨rfl, e, rfl, he, hslot⟩

end Run

namespace Scopes

theorem Ascends.lt {s : Scopes} {start : Option EnvRef} {links : List EnvRef} (h : s.Ascends start links) :
    ∀ k ∈ links, k < s.envs.size := by
  induction h with
  | stop => simp
  | step he _ ih => exact List.forall_mem_cons.2 ⟨(Array.getElem?_eq_some_iff.1 he).1, ih⟩

theorem outer_lt {realm : Realm} (hsound : realm.Sound) {nest e k : Nat} (he : e < realm.scopes.envs.size)
    (h : realm.scopes.outer nest e = some k) : k < realm.scopes.envs.size := by
  obtain ⟨links, hlinks, -⟩ := exists_ascends hsound e he
  rw [hlinks.outer] at h
  exact hlinks.lt k (List.mem_of_getElem? h)

end Scopes

namespace World

variable {m : Moment} {w w₁ w₂ : World} {e i c : Nat} {frame : Run.FrameRef} {name : Text}

/-- A slot is reached from the frames that have its environment around them, at its offset. -/
theorem heapSlot_iff (hsound : w.realm.Sound) (hapart : w.realm.scopes.Apart) (hslot : w.realm.scopes.IsSlot e i c)
    (offset nest : UInt64) : Run.heapSlot frame offset nest w = .ok c w ↔
      ∃ k, Run.lexicalEnv frame w = .ok k w ∧ w.realm.scopes.outer nest.toNat k = some e ∧ offset.toNat = i := by
  constructor
  · intro h
    obtain ⟨-, k, hlexical, hk, hc⟩ := Run.heapSlot_ok h
    obtain ⟨e', houter, hslot'⟩ := Scopes.isSlot_of_slot? (fun _ h => Scopes.outer_lt hsound hk h) hc
    obtain ⟨rfl, rfl⟩ := hapart.unique hslot hslot'
    exact ⟨k, hlexical, houter, rfl⟩
  · rintro ⟨k, hlexical, houter, rfl⟩
    exact Run.heapSlot_eq hlexical (hslot.slot? houter)

theorem name_of_resolveIn? (hapart : w.realm.scopes.Apart) (hslot : w.realm.scopes.IsSlot e i c) {k : Nat}
    (hk : k < w.realm.scopes.envs.size) {e' : EnvRef}
    (h : w.realm.scopes.resolveIn? w.realm.heap k name = some (.cell e' c)) :
    e' = e ∧ (w.realm.scopes.cell c).name = name := by
  rw [Scopes.resolveIn?] at h
  split at h
  · split at h <;> cases h
  · obtain ⟨c', hc', heq⟩ := Option.map_eq_some_iff.1 h
    cases heq
    rw [Scopes.cellOf?] at hc'
    split at hc'
    · cases hc'
    · next bindings first count hkind =>
      have hkind' : w.realm.scopes.kind? k = some (.declarative bindings first count) := by
        rw [Scopes.kind?_of_lt hk, hkind]
      split at hc'
      · next c' hlookup =>
        cases hc'
        obtain ⟨before, after, rfl, -⟩ := List.lookup_eq_some_iff.1 hlookup
        exact absurd ⟨_, first, count, hkind', List.mem_append_right _ List.mem_cons_self⟩ (hapart.apart hslot)
      · obtain ⟨j, hj, rfl⟩ := List.mem_map.1 (List.mem_of_find?_eq_some hc')
        have hslot' : w.realm.scopes.IsSlot k j (first + j) :=
          ⟨bindings, first, count, hkind', List.mem_range.1 hj, rfl⟩
        have hname := List.find?_some hc'
        exact ⟨(hapart.unique hslot' hslot).1, eq_of_beq hname⟩

theorem name_of_resolve (hsound : w.realm.Sound) (hapart : w.realm.scopes.Apart)
    (hslot : w.realm.scopes.IsSlot e i c) {e' : EnvRef} (h : Run.resolve frame name w = .ok (some (.cell e' c)) w) :
    e' = e ∧ (w.realm.scopes.cell c).name = name := by
  cases hlexical : Run.lexicalEnv frame w with
  | error fault w' => exact nomatch (Run.bind_error hlexical).symm.trans h
  | ok k w' =>
    obtain ⟨rfl, hk⟩ := Run.lexicalEnv_ok hlexical
    have hrun : EStateM.Result.ok (w'.realm.scopes.resolve w'.realm.heap k name) w' = _ :=
      (Run.bind_ok hlexical).symm.trans h
    obtain ⟨links, hlinks, hlength⟩ := Scopes.exists_ascends hsound k hk
    have hresolve := EStateM.Result.ok.inj hrun |>.1
    rw [Scopes.resolve, hlinks.resolveFrom _ _ hlength] at hresolve
    obtain ⟨k', hk', hfound⟩ := List.exists_of_findSome?_eq_some hresolve
    exact name_of_resolveIn? hapart hslot (hlinks.lt k' hk') hfound

end World

/-! ## Empty slots -/

namespace Run

variable {α : Type} {w w₁ w₂ : World} {frame : FrameRef} {name : Text} {e c : Nat} {offset nest : UInt64}
  {ev : Evaluator}

def uninitializedText (name : Text) : Text := aboutKey "cannot access" name " before initialization"

/-- What comes of a second assignment to a constant: strict code throws, other code goes on. -/
def refusal (strict : Bool) (name : Text) (a : α) : Run α :=
  if strict then raise .typeError (aboutKey "assignment to constant variable" name "") else pure a

end Run

namespace World

variable {w : World} {c : Nat}

/-- A world in which a cell has a name, given one by a read if need be. -/
def named (w : World) (c : CellRef) (name : Text) : World :=
  if (w.realm.scopes.cell c).name = [] then
    w.withScopes fun s => s.setCell c { s.cell c with name := name }
  else w

/-- Everything that reads a slot, by its place or by its name, throws an error. -/
structure Guarded (w : World) (c : CellRef) : Prop where
  load : ∀ {frame name offset nest}, Run.heapSlot frame offset nest w = .ok c w →
    Run.loadHeap frame name offset nest w = Run.raise .referenceError (Run.uninitializedText name) (w.named c name)
  typeof : ∀ {frame name offset nest}, Run.heapSlot frame offset nest w = .ok c w →
    Run.typeofHeap frame name offset nest w = Run.raise .referenceError (Run.uninitializedText name) (w.named c name)
  step : ∀ ev mode {frame offset nest}, Run.heapSlot frame offset nest w = .ok c w →
    Run.stepHeap ev frame mode offset nest w =
      Run.raise .referenceError (Run.uninitializedText (w.realm.scopes.cell c).name) w
  loadName : ∀ ev {frame name e}, Run.resolve frame name w = .ok (some (.cell e c)) w →
    Run.loadName ev frame name w = Run.raise .referenceError (Run.uninitializedText name) w
  typeofName : ∀ ev {frame name e}, Run.resolve frame name w = .ok (some (.cell e c)) w →
    Run.typeofName ev frame name w = Run.raise .referenceError (Run.uninitializedText name) w
  stepName : ∀ ev mode {frame name e}, Run.resolve frame name w = .ok (some (.cell e c)) w →
    Run.stepName ev frame name mode w = Run.raise .referenceError (Run.uninitializedText name) w
  prepareDynamicCall : ∀ ev receiver {frame name e}, Run.resolve frame name w = .ok (some (.cell e c)) w →
    Run.prepareDynamicCall ev frame name receiver w = Run.raise .referenceError (Run.uninitializedText name) w

/-- Everything that assigns to a slot, by its place or by its name, is refused, and its name is not deleted. What an
increment makes of the old value comes first. -/
structure Kept (w : World) (c : CellRef) : Prop where
  store : ∀ v strict {frame offset nest}, Run.heapSlot frame offset nest w = .ok c w →
    Run.storeHeap frame v offset nest strict w = Run.refusal strict (w.realm.scopes.cell c).name () w
  step : ∀ attached fuel mode {frame offset nest}, Run.heapSlot frame offset nest w = .ok c w →
    Run.stepHeap (Run.evaluator attached fuel) frame mode offset nest w = (do
      let (_, result) ← Run.stepNumber (Run.evaluator attached fuel) (w.realm.scopes.cell c).value mode
      Run.refusal (Run.isStrictMode mode) (← Run.cell c).name result) w
  storeName : ∀ ev v strict {frame name e}, Run.resolve frame name w = .ok (some (.cell e c)) w →
    Run.storeName ev frame name v strict w = Run.refusal strict name () w
  stepName : ∀ attached fuel mode {frame name e}, Run.resolve frame name w = .ok (some (.cell e c)) w →
    .initializeHeapImmutable ∉ ((Run.stepNumber (Run.evaluator attached fuel) (w.realm.scopes.cell c).value
      mode).after w).calledSince w.moment →
    Run.stepName (Run.evaluator attached fuel) frame name mode w = (do
      let (_, result) ← Run.stepNumber (Run.evaluator attached fuel) (w.realm.scopes.cell c).value mode
      Run.refusal (Run.isStrictMode mode) name result) w
  deleteName : ∀ {frame name e}, Run.resolve frame name w = .ok (some (.cell e c)) w →
    Run.deleteName frame name w = .ok false w

end World

namespace Run

variable {α β : Type} {w w₁ w₂ : World} {frame : FrameRef} {name : Text} {e i c : Nat} {offset nest : UInt64}
  {ev : Evaluator}

theorem raise_bind (kind : ErrorKind) (message : Text) (f : α → Run β) :
    ((raise kind message : Run α) >>= f) w = raise kind message w := by
  unfold raise
  simp only [bind_assoc]
  rfl

theorem bind_congr_at {x y : Run α} {w' : World} (h : x w = y w') (f : α → Run β) : (x >>= f) w = (y >>= f) w' := by
  change EStateM.bind x f w = EStateM.bind y f w'
  rw [EStateM.bind, EStateM.bind, h]

theorem cell_ok (w : World) (c : CellRef) : cell c w = .ok (w.realm.scopes.cell c) w := rfl

theorem getReference_empty (hempty : (w.realm.scopes.cell c).value.isEmpty = true) (ev : Evaluator) (e : EnvRef)
    (name : Text) :
    getReference ev (.cell e c) name w = raise .referenceError (uninitializedText name) w := by
  unfold getReference
  exact (bind_ok (cell_ok w c)).trans (congrFun (if_pos hempty) w)

theorem loadHeap_empty (hempty : (w.realm.scopes.cell c).value.isEmpty = true)
    (hslot : heapSlot frame offset nest w = .ok c w) (name : Text) :
    loadHeap frame name offset nest w = raise .referenceError (uninitializedText name) (w.named c name) := by
  unfold loadHeap
  rw [bind_ok hslot, bind_ok (cell_ok w c)]
  dsimp only
  rw [if_pos hempty, World.named]
  split <;> rfl

end Run

namespace World

variable {m : Moment} {w w₁ w₂ : World} {e i c : Nat} {frame : Run.FrameRef} {name : Text}

theorem guarded_of_isEmpty (hempty : (w.realm.scopes.cell c).value.isEmpty = true) : w.Guarded c where
  load hslot := Run.loadHeap_empty hempty hslot _
  typeof hslot := (Run.bind_congr_at (Run.loadHeap_empty hempty hslot _) _).trans (Run.raise_bind ..)
  step ev mode frame offset nest hslot := by
    unfold Run.stepHeap
    rw [Run.bind_ok hslot, Run.bind_ok (Run.cell_ok w c), if_pos hempty]
    rfl
  loadName ev frame name e href := by
    unfold Run.loadName
    rw [Run.bind_ok href]
    exact Run.getReference_empty hempty ..
  typeofName ev frame name e href := by
    unfold Run.typeofName
    rw [Run.bind_ok href]
    exact (Run.bind_congr_at (Run.getReference_empty hempty ..) _).trans (Run.raise_bind ..)
  stepName ev mode frame name e href := by
    unfold Run.stepName
    rw [Run.bind_ok href]
    exact (Run.bind_congr_at (Run.getReference_empty hempty ..) _).trans (Run.raise_bind ..)
  prepareDynamicCall ev receiver frame name e href := by
    unfold Run.prepareDynamicCall
    rw [Run.bind_ok href]
    exact (Run.bind_congr_at (Run.getReference_empty hempty ..) _).trans (Run.raise_bind ..)

end World

/-! ## Slots with a value -/

namespace Run

variable {α β : Type} {w w₁ w₂ : World} {frame : FrameRef} {name : Text} {e i c : Nat} {offset nest : UInt64}
  {ev : Evaluator}

theorem setCell_refused (hmutable : (w.realm.scopes.cell c).isMutable = false)
    (hvalue : (w.realm.scopes.cell c).value.isEmpty = false) (name : Text) (v : Value) (strict : Bool) :
    setCell c name v strict w = refusal strict name () w := by
  unfold setCell
  rw [bind_ok (cell_ok w c), hmutable, hvalue]
  cases strict <;> rfl

/-- What comes after an increment may use that the slot stayed as it was. -/
theorem stepNumber_bind (hsound : w.realm.Sound) (hapart : w.realm.scopes.Apart) (hfixed : w.Fixed e i c)
    (attached : Bool) (fuel : Nat) (old : Value) (mode : UInt64) {f g : Value × Value → Run α}
    (h : ∀ r w', stepNumber (evaluator attached fuel) old mode w = .ok r w' → w.Evolves w.moment w' →
      w'.Fixed e i c → f r w' = g r w') :
    (stepNumber (evaluator attached fuel) old mode >>= f) w =
      (stepNumber (evaluator attached fuel) old mode >>= g) w := by
  have hevolves := (stepNumber_tame (evaluator_tame attached fuel) old mode).evolves w.past_moment hsound
  cases hrun : stepNumber (evaluator attached fuel) old mode w with
  | error fault w' => rw [bind_error hrun, bind_error hrun]
  | ok r w' =>
    rw [after_ok hrun] at hevolves
    rw [bind_ok hrun, bind_ok hrun, h r w' hrun hevolves (hevolves.fixed hapart hfixed)]

theorem stepHeap_refused (hsound : w.realm.Sound) (hapart : w.realm.scopes.Apart) (hfixed : w.Fixed e i c)
    (hvalue : (w.realm.scopes.cell c).value.isEmpty = false) (attached : Bool) (fuel : Nat) (mode : UInt64)
    (hslot : heapSlot frame offset nest w = .ok c w) :
    stepHeap (evaluator attached fuel) frame mode offset nest w = (do
      let (_, result) ← stepNumber (evaluator attached fuel) (w.realm.scopes.cell c).value mode
      refusal (isStrictMode mode) (← cell c).name result) w := by
  unfold stepHeap
  rw [bind_ok hslot, bind_ok (cell_ok w c), if_neg (by rw [hvalue]; decide)]
  refine stepNumber_bind hsound hapart hfixed attached fuel _ _ fun r w' _ _ hfixed' => ?_
  dsimp only
  rw [bind_ok (cell_ok w' c), bind_ok (cell_ok w' c), hfixed'.not_mutable]
  rfl

theorem stepName_refused (hsound : w.realm.Sound) (hapart : w.realm.scopes.Apart) (hfixed : w.Fixed e i c)
    (hvalue : (w.realm.scopes.cell c).value.isEmpty = false) (attached : Bool) (fuel : Nat) (mode : UInt64)
    {k : EnvRef} (href : resolve frame name w = .ok (some (.cell k c)) w)
    (hs : .initializeHeapImmutable ∉ ((stepNumber (evaluator attached fuel) (w.realm.scopes.cell c).value
      mode).after w).calledSince w.moment) :
    stepName (evaluator attached fuel) frame name mode w = (do
      let (_, result) ← stepNumber (evaluator attached fuel) (w.realm.scopes.cell c).value mode
      refusal (isStrictMode mode) name result) w := by
  have hread : getReference (evaluator attached fuel) (.cell k c) name w = .ok (w.realm.scopes.cell c).value w :=
    (bind_ok (cell_ok w c)).trans (congrFun (if_neg (by rw [hvalue]; decide)) w)
  unfold stepName
  rw [bind_ok href]
  refine (bind_ok hread).trans ?_
  refine stepNumber_bind hsound hapart hfixed attached fuel _ _ fun r w' hrun hevolves hfixed' => ?_
  rw [after_ok hrun] at hs
  have hvalue' : (w'.realm.scopes.cell c).value.isEmpty = false := by
    rw [hevolves.value_eq hapart hfixed hvalue hs, hvalue]
  dsimp only
  refine (bind_congr_at (setCell_refused hfixed'.not_mutable hvalue' ..) _).trans ?_
  cases isStrictMode mode with
  | false => rfl
  | true => exact raise_bind ..

end Run

namespace World

variable {m : Moment} {w w₁ w₂ : World} {e i c : Nat} {frame : Run.FrameRef} {name : Text}

theorem kept_of_value (hsound : w.realm.Sound) (hapart : w.realm.scopes.Apart) (hfixed : w.Fixed e i c)
    (hvalue : (w.realm.scopes.cell c).value.isEmpty = false) : w.Kept c where
  store v strict frame offset nest hslot := by
    unfold Run.storeHeap
    rw [Run.bind_ok hslot, Run.bind_ok (Run.cell_ok w c)]
    exact Run.setCell_refused hfixed.not_mutable hvalue ..
  step attached fuel mode frame offset nest hslot :=
    Run.stepHeap_refused hsound hapart hfixed hvalue attached fuel mode hslot
  storeName ev v strict frame name k href := by
    unfold Run.storeName
    rw [Run.bind_ok href]
    exact Run.setCell_refused hfixed.not_mutable hvalue ..
  stepName attached fuel mode frame name k href hs :=
    Run.stepName_refused hsound hapart hfixed hvalue attached fuel mode href hs
  deleteName {frame name k} href := by
    unfold Run.deleteName
    rw [Run.bind_ok href]
    exact (Run.bind_ok (Run.cell_ok w c)).trans
      (congrFun (if_neg (by rw [hfixed.not_deletable]; decide)) w)

end World

/-! ## New environments -/

namespace World

/-- The environment that a frame's function was made in. -/
def closure (w : World) (frame : Run.FrameRef) : EnvRef :=
  match Heap.ref? (w.machine.frameCallee frame) with
  | none => w.realm.globalEnv
  | some r =>
    match (w.realm.heap.object r).function with
    | some ⟨_, .compiled _ env⟩ => env
    | _ => w.realm.globalEnv

/-- The cell that the slot at an offset of the next environment gets. -/
def nextSlot (w : World) (i : Nat) : CellRef := w.realm.scopes.cells.size + i

end World

namespace Run

variable {w w₁ : World} {frame : FrameRef} {size start : UInt64}

theorem closureEnv_eq (frame : FrameRef) : closureEnv frame w = .ok (w.closure frame) w := by
  change (match Heap.ref? (w.machine.frameCallee frame) with
    | none => (return w.realm.globalEnv : Run EnvRef)
    | some r =>
      match (w.realm.heap.object r).function with
      | some ⟨_, .compiled _ env⟩ => return env
      | _ => return w.realm.globalEnv) w = _
  unfold World.closure
  cases Heap.ref? (w.machine.frameCallee frame) with
  | none => rfl
  | some r =>
    dsimp only
    rcases (w.realm.heap.object r).function with _ | ⟨_, _ | _⟩ <;> rfl

/-- Entering an environment with slots adds it inside the current one and moves the frame there. -/
theorem buildEnv_eq {outer : EnvRef} (h : lexicalEnv frame w = .ok outer w) (size start : UInt64) :
    ∃ x : Machine, (x = w.machine ∨
        x = w.machine.setFrameWord frame Frame.variableEnv w.realm.scopes.envs.size.toUInt64) ∧
      buildEnv frame size start w = .ok () { w with
        realm := { w.realm with scopes := (w.realm.scopes.pushSlots outer size.toNat start.toNat).2 }
        machine := x.setFrameWord frame Frame.lexicalEnv w.realm.scopes.envs.size.toUInt64 } := by
  obtain ⟨w', hw'⟩ : ∃ w' : World, w' = { w with
      realm := { w.realm with scopes := (w.realm.scopes.pushSlots outer size.toNat start.toNat).2 } } := ⟨_, rfl⟩
  have hrun : buildEnv frame size start w = (do
      let closure ← closureEnv frame
      if (Heap.ref? (w.machine.frameCallee frame)).isSome &&
          (w.machine.frameWord frame Frame.variableEnv).toNat == closure then
        modifyMachine fun m => m.setFrameWord frame Frame.variableEnv w.realm.scopes.envs.size.toUInt64
      setLexicalEnv frame w.realm.scopes.envs.size : Run Unit) w' := by
    subst hw'
    unfold buildEnv
    rw [bind_ok h]
    rfl
  rw [hrun, bind_ok (closureEnv_eq frame)]
  subst hw'
  split
  · exact ⟨_, .inr rfl, rfl⟩
  · exact ⟨_, .inl rfl, rfl⟩

theorem buildEnv_scopes (h : buildEnv frame size start w = .ok () w₁) : ∃ outer,
    w₁.realm.scopes = (w.realm.scopes.pushSlots outer size.toNat start.toNat).2 := by
  cases hlexical : lexicalEnv frame w with
  | error fault w' => exact nomatch (bind_error hlexical).symm.trans h
  | ok outer w' =>
    obtain ⟨rfl, -⟩ := lexicalEnv_ok hlexical
    obtain ⟨x, -, hrun⟩ := buildEnv_eq hlexical size start
    rw [hrun] at h
    cases h
    exact ⟨outer, rfl⟩

end Run

namespace World

variable {m : Moment} {w w₁ w₂ : World} {i : Nat} {frame : Run.FrameRef} {size start : UInt64}

/-- Slots that are assigned once. However a run goes on after an environment with slots was entered, each slot before
the mutable ones is reached at its place only, and only its own name resolves to it. While it is empty, everything
that reads it throws an error; once it has a value, everything that assigns to it is refused, and the value stays
until the stub that initialises slots is called. -/
theorem slots_written_once (hw : w.Arises) (hbuild : Run.buildEnv frame size start w = .ok () w₁)
    (hrun : Evolves m w₁ w₂) (hi : i < size.toNat) (hstart : i < start.toNat) :
    ∃ c, c = w.nextSlot i ∧ w₁.realm.scopes.cell c = Cell.immutableSlot ∧
      (∀ frame offset nest, Run.heapSlot frame offset nest w₂ = .ok c w₂ ↔ ∃ k,
        Run.lexicalEnv frame w₂ = .ok k w₂ ∧
          w₂.realm.scopes.outer nest.toNat k = some w.realm.scopes.envs.size ∧ offset.toNat = i) ∧
      (∀ frame name e, Run.resolve frame name w₂ = .ok (some (.cell e c)) w₂ →
        e = w.realm.scopes.envs.size ∧ (w₂.realm.scopes.cell c).name = name) ∧
      ((w₂.realm.scopes.cell c).value = Value.empty → w₂.Guarded c) ∧
      ((w₂.realm.scopes.cell c).value ≠ Value.empty → w₂.Kept c ∧
        (∀ m w₃, Evolves m w₂ w₃ → .initializeHeapImmutable ∉ w₃.calledSince m →
          (w₃.realm.scopes.cell c).value = (w₂.realm.scopes.cell c).value) ∧
        ∀ w₃, w₂.Steps w₃ → Evolves w₂.moment w₂ w₃) := by
  -- The world after the environment was entered comes up in a run, too.
  have hbuilt := (Run.buildEnv_tame (m := ⟨0, 0⟩) frame size start).evolves
    ⟨Nat.zero_le _, Nat.zero_le _⟩ hw.sound
  rw [Run.after_ok hbuild] at hbuilt
  have hsound := hrun.sound (hbuilt.sound hw.sound)
  have hapart₁ := hbuilt.apart hw.apart
  have hapart := hrun.apart hapart₁
  obtain ⟨outer, hscopes⟩ := Run.buildEnv_scopes hbuild
  have hslot : w₁.realm.scopes.IsSlot w.realm.scopes.envs.size i (w.realm.scopes.cells.size + i) := by
    rw [hscopes]
    exact Scopes.isSlot_pushSlots.2 (.inr ⟨rfl, hi, rfl⟩)
  have hcell : w₁.realm.scopes.cell (w.realm.scopes.cells.size + i) = Cell.immutableSlot := by
    rw [hscopes, Scopes.cell_pushSlots_new hi, if_neg (Nat.not_le.2 hstart)]
  have hfixed : w₂.Fixed w.realm.scopes.envs.size i (w.realm.scopes.cells.size + i) :=
    hrun.fixed hapart₁ ⟨hslot, by rw [hcell]; rfl, by rw [hcell]; rfl⟩
  refine ⟨_, rfl, hcell, fun frame offset nest => heapSlot_iff hsound hapart hfixed.isSlot offset nest,
    fun frame name e => name_of_resolve hsound hapart hfixed.isSlot, fun hempty => guarded_of_isEmpty ?_,
    fun hvalue => ?_⟩
  · rw [hempty]
    rfl
  · have hvalue' := beq_false_of_ne hvalue
    exact ⟨kept_of_value hsound hapart hfixed hvalue', fun m w₃ h hs => h.value_eq hapart hfixed hvalue' hs,
      fun w₃ h => h.evolves w₂.past_moment hsound⟩

/-- A slot of a new environment, before and after it is given a value. -/
theorem slots_written_once_first : ∃ w w₁ w₂ c, w.Arises ∧ Run.buildEnv 0 1 1 w = .ok () w₁ ∧
    w₂ = w₁.withScopes (fun s => s.setValue c (Value.int32 7)) ∧ w₁.Guarded c ∧ w₂.Kept c := by
  obtain ⟨w, hw⟩ : ∃ w : World, w = { ofConfig ⟨0, 0, 0⟩ with
      machine := (Machine.ofConfig ⟨0, 0, 0⟩).setFrameWord 0 Frame.lexicalEnv 0 } := ⟨_, rfl⟩
  have harises : w.Arises := hw ▸ Reachable.arises ⟨⟨0, 0, 0⟩, .single (.machine _)⟩
  have hlexical : Run.lexicalEnv 0 w = .ok 0 w := by
    have hframe : (w.machine.frameWord 0 Frame.lexicalEnv).toNat = 0 := by
      rw [hw, Machine.frameWord, Machine.setFrameWord, Machine.readWord_writeWord_self]
      rfl
    change Run.envOrCrash (w.machine.frameWord 0 Frame.lexicalEnv).toNat w = _
    rw [hframe, Run.envOrCrash_eq, if_pos (Nat.zero_lt_of_lt harises.sound.globalEnv)]
  obtain ⟨x, -, hbuild⟩ := Run.buildEnv_eq hlexical 1 1
  obtain ⟨c, hc, hcell, -, -, hempty, -⟩ := slots_written_once (i := 0) harises hbuild
    (.refl : Evolves ⟨0, 0⟩ _ _) (by decide) (by decide)
  refine ⟨w, _, _, c, harises, hbuild, rfl, hempty (by rw [hcell]; rfl), ?_⟩
  obtain ⟨c', hc', -, -, -, -, hkept⟩ := slots_written_once (i := 0) harises hbuild
    (Change.write (m := ⟨0, 0⟩) c (Value.int32 7) (.inr (by rw [hcell]; rfl))).evolves (by decide) (by decide)
  obtain rfl : c' = c := hc'.trans hc.symm
  refine (hkept fun hempty => ?_).1
  have hlt : c' < (w.realm.scopes.pushSlots 0 1 1).2.cells.size := by
    rw [hc, nextSlot]
    simp [Scopes.pushSlots, Scopes.push]
  have hvalue : Value.int32 7 = Value.empty :=
    (congrArg Cell.value (Scopes.cell_setCell_self hlt _)).symm.trans hempty
  exact absurd hvalue (by decide)

end World

end RegisterJit
