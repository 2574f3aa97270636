import RegisterJit.Proofs.Detached
import RegisterJit.Proofs.Slots

/-!
# Leaving scopes for a handler

A handler tells how many environments there were in its region, counted from the one that the function was made
in, and not which. It is the same: a region that never leaves the environment in which it was entered goes on
inside it, and environments stay at their levels, so the level finds it again.

Environments form a tree in which each one knows its depth. `Region` lists what may happen in the region of a
handler: environments are built and left, inner handlers catch, and anything else that leaves the environment of
the frame as it is. `Inside` is the invariant, kept by each of these (`Region.inside`): the environment in which
the region was entered is found outwards from the current one, at the depth that the level of the handler says.
So `unwind_stops` applies, and going out stops in that environment. `LeavesFrames` says that catching changes
nothing else.
-/

namespace RegisterJit

/-! ## Going out -/

namespace Scopes

variable {s s' : Scopes} {realm : Realm} {n depth fuel : Nat} {e k p base : Nat}

theorem env_place {place : Option EnvRef × Nat} (h : s.place? e = some place) : (s.env e).place = place := by
  obtain ⟨env, henv, rfl⟩ := Option.map_eq_some_iff.1 h
  rw [env_eq henv]

theorem place?_of_lt (he : e < s.envs.size) : s.place? e = some (s.env e).place := by
  obtain ⟨place, hplace⟩ := lt_size_iff.1 he
  rw [hplace, env_place hplace]

theorem outer_succ (hp : (s.env e).parent = some p) (n : Nat) : s.outer (n + 1) e = s.outer n p := by
  rw [outer, hp]

theorem outer_succ_none (hp : (s.env e).parent = none) (n : Nat) : s.outer (n + 1) e = none := by
  rw [outer, hp]

theorem parent_of_sound (hsound : realm.Sound) (he : e < realm.scopes.envs.size)
    (hp : (realm.scopes.env e).parent = some p) :
    p < e ∧ (realm.scopes.env e).depth = (realm.scopes.env p).depth + 1 := by
  have hplace : realm.scopes.place? e = some (some p, (realm.scopes.env e).depth) := by
    rw [place?_of_lt he, Env.place, hp]
  obtain ⟨hlt, parent, hparent, hpos⟩ := hsound.parents hplace
  have hdepth : (realm.scopes.env p).depth = (realm.scopes.env e).depth - 1 :=
    congrArg Prod.snd (env_place hparent)
  exact ⟨hlt, by omega⟩

theorem depth_outer (hsound : realm.Sound) (he : e < realm.scopes.envs.size)
    (h : realm.scopes.outer n e = some k) :
    k ≤ e ∧ (realm.scopes.env e).depth = (realm.scopes.env k).depth + n := by
  induction n generalizing e with
  | zero =>
    cases h
    exact ⟨Nat.le_refl _, rfl⟩
  | succ n ih =>
    cases hp : (realm.scopes.env e).parent with
    | none => exact nomatch (outer_succ_none hp n).symm.trans h
    | some p =>
      obtain ⟨hlt, hdepth⟩ := parent_of_sound hsound he hp
      obtain ⟨hle, hn⟩ := ih (Nat.lt_trans hlt he) ((outer_succ hp n).symm.trans h)
      exact ⟨Nat.le_trans hle (Nat.le_of_lt hlt), by omega⟩

theorem outer_congr (hsound : realm.Sound)
    (hplace : ∀ k, k < realm.scopes.envs.size → s'.place? k = realm.scopes.place? k)
    (he : e < realm.scopes.envs.size) (n : Nat) : s'.outer n e = realm.scopes.outer n e := by
  have hparent (k : Nat) (hk : k < realm.scopes.envs.size) : (s'.env k).parent = (realm.scopes.env k).parent :=
    congrArg Prod.fst (env_place ((hplace k hk).trans (place?_of_lt hk)))
  induction n generalizing e with
  | zero => rfl
  | succ n ih =>
    cases hp : (realm.scopes.env e).parent with
    | none => rw [outer_succ_none hp, outer_succ_none ((hparent e he).trans hp)]
    | some p =>
      rw [outer_succ hp, outer_succ ((hparent e he).trans hp)]
      exact ih (Nat.lt_trans (parent_of_sound hsound he hp).1 he)

theorem exists_outer_unwindFrom (s : Scopes) (depth fuel e : Nat) :
    ∃ n, s.outer n e = some (s.unwindFrom depth fuel e) := by
  induction fuel generalizing e with
  | zero => exact ⟨0, rfl⟩
  | succ fuel ih =>
    rw [unwindFrom]
    cases hp : (s.env e).parent with
    | none => exact ⟨0, rfl⟩
    | some p =>
      dsimp only
      split
      · obtain ⟨n, hn⟩ := ih p
        exact ⟨n + 1, (outer_succ hp n).trans hn⟩
      · exact ⟨0, rfl⟩

theorem unwindFrom_inside (h : s.outer n e = some base) (hbase : (s.env base).depth ≤ depth) (fuel : Nat) :
    ∃ k, s.outer k (s.unwindFrom depth fuel e) = some base := by
  induction fuel generalizing e n with
  | zero => exact ⟨n, h⟩
  | succ fuel ih =>
    rw [unwindFrom]
    cases hp : (s.env e).parent with
    | none => exact ⟨n, h⟩
    | some p =>
      dsimp only
      split
      · next hdeep =>
        cases n with
        | zero =>
          cases h
          exact absurd hdeep (Nat.not_lt.2 hbase)
        | succ n => exact ih ((outer_succ hp n).symm.trans h)
      · exact ⟨n, h⟩

/-- It ends where no more is to be left, or at the outermost environment. -/
theorem unwind_stops (hsound : realm.Sound) (he : e < realm.scopes.envs.size) (depth : Nat) :
    (realm.scopes.env (realm.scopes.unwind depth e)).depth ≤ depth ∨
      (realm.scopes.env (realm.scopes.unwind depth e)).parent = none := by
  obtain ⟨links, hlinks, hlength⟩ := exists_ascends hsound e he
  have hstop := List.find?_some (hlinks.unwindFrom depth hlength)
  rw [Bool.or_eq_true, decide_eq_true_iff, Option.isNone_iff_eq_none] at hstop
  exact hstop

theorem unwind_le (hsound : realm.Sound) (depth e : Nat) : realm.scopes.unwind depth e ≤ e := by
  by_cases he : e < realm.scopes.envs.size
  · obtain ⟨n, hn⟩ := exists_outer_unwindFrom realm.scopes depth (e + 1) e
    exact (depth_outer hsound he hn).1
  · have hnone : (realm.scopes.env e).parent = none := by
      rw [env, Array.getD_eq_getD_getElem?, Array.getElem?_eq_none (Nat.not_lt.1 he), Option.getD_none]
    rw [unwind, unwindFrom, hnone]

theorem unwind_eq (hsound : realm.Sound) (he : e < realm.scopes.envs.size)
    (h : realm.scopes.outer n e = some base) :
    realm.scopes.unwind (realm.scopes.env base).depth e = base := by
  obtain ⟨k, hk⟩ := exists_outer_unwindFrom realm.scopes (realm.scopes.env base).depth (e + 1) e
  obtain ⟨j, hj⟩ := unwindFrom_inside h (Nat.le_refl _) (e + 1)
  have hlt := outer_lt hsound he hk
  rw [← unwind] at hj hlt
  cases j with
  | zero => exact Option.some.inj hj
  | succ j =>
    obtain ⟨-, hdepth⟩ := depth_outer hsound hlt hj
    rcases unwind_stops hsound he (realm.scopes.env base).depth with hle | hnone
    · omega
    · exact nomatch (outer_succ_none hnone j).symm.trans hj

end Scopes

/-! ## What stays -/

namespace World

variable {m : Moment} {w w₁ w₂ : World} {frame other : Run.FrameRef} {base e : EnvRef} {r : ObjectRef}

def Closed (w : World) : Prop :=
  ∀ r o e, w.realm.heap.object? r = some o → o.Closes e → e < w.realm.scopes.envs.size

theorem Change.envs_le (h : w.Change m w₁) : w.realm.scopes.envs.size ≤ w₁.realm.scopes.envs.size := by
  cases h with
  | enter | enterSlots => simp [withScopes, Scopes.push, Scopes.pushSlots]
  | bind | unbind =>
    simp only [withScopes, Scopes.bind, Scopes.unbind]
    split <;> simp
  | _ => exact Nat.le_refl _

theorem Evolves.envs_le (h : Evolves m w w₁) : w.realm.scopes.envs.size ≤ w₁.realm.scopes.envs.size := by
  induction h with
  | refl => exact Nat.le_refl _
  | tail _ hchange ih => exact Nat.le_trans ih hchange.envs_le

/-- An object of a changed world is new or was one that is the same. -/
theorem Change.object? (h : w.Change m w₁) {o : Object} (ho : w₁.realm.heap.object? r = some o) :
    (∃ o', w.realm.heap.object? r = some o' ∧ o'.Same o) ∨
      ¬ w.realm.heap.Has r ∧ ∀ e, o.Closes e → e < w.realm.scopes.envs.size := by
  have hsame (q : ObjectRef) (f : Object → Object) (hf : ∀ o : Object, o.Same (f o))
      (ho : (w.withObject q f).realm.heap.object? r = some o) :
      ∃ o', w.realm.heap.object? r = some o' ∧ o'.Same o := by
    rw [withObject, withHeap, Heap.object?_modify] at ho
    split at ho
    · obtain ⟨o', ho', rfl⟩ := Option.map_eq_some_iff.1 ho
      exact ⟨o', ho', hf o'⟩
    · exact ⟨o, ho, .refl o⟩
  cases h with
  | intern t => exact .inl ⟨o, (Heap.object?_intern ..).symm.trans ho, .refl o⟩
  | create o' hproto hmakes hcloses =>
    rw [withHeap, Heap.object?_alloc] at ho
    split at ho
    · next heq =>
      cases ho
      exact .inr ⟨fun hr => hr.ne_new heq.symm, hcloses⟩
    · exact .inl ⟨o, ho, .refl o⟩
  | construct q f hq hf => exact .inl (hsame q f hf ho)
  | content q f hf => exact .inl (hsame q f (fun o => (hf o).toSame) ho)
  | iterate hs q e => exact .inl (hsame q (fun o => { o with enumeration := e }) (fun _ => ⟨rfl, rfl, rfl⟩) ho)
  | add q | assign q | literal _ _ q | redeclare _ _ q => exact .inl (hsame q _ (fun o => o.same_define ..) ho)
  | delete q => exact .inl (hsame q _ (fun o => o.same_remove _) ho)
  | _ => exact .inl ⟨o, ho, .refl o⟩

theorem Change.closed (h : w.Change m w₁) (hw : w.Closed) : w₁.Closed := by
  intro r o e ho hcloses
  refine Nat.lt_of_lt_of_le ?_ h.envs_le
  rcases h.object? ho with ⟨o', ho', hsame⟩ | ⟨-, hnew⟩
  · exact hw r o' e ho' (hsame.closes.1 hcloses)
  · exact hnew e hcloses

theorem Evolves.closed (h : Evolves m w w₁) (hw : w.Closed) : w₁.Closed := by
  induction h with
  | refl => exact hw
  | tail _ hchange ih => exact hchange.closed ih

theorem Arises.closed (h : w.Arises) : w.Closed := by
  obtain ⟨config, hevolves⟩ := h
  refine hevolves.closed fun r o e ho hcloses => ?_
  obtain ⟨name, code, hfunction⟩ := hcloses
  match r with
  | 0 => cases ho
  | 1 | 2 | 3 | 4 | 5 => cases ho; cases hfunction
  | r + 6 => cases ho

theorem Change.function_eq (h : w.Change m w₁) (hr : w.realm.heap.Has r) :
    (w₁.realm.heap.object r).function = (w.realm.heap.object r).function := by
  rcases h.object? (hr.mono h.objects_le).object? with ⟨o, ho, hsame⟩ | ⟨hnew, -⟩
  · rw [hsame.function, Heap.object_eq ho]
  · exact absurd hr hnew

theorem Evolves.function_eq (h : Evolves m w w₁) (hr : w.realm.heap.Has r) :
    (w₁.realm.heap.object r).function = (w.realm.heap.object r).function := by
  induction h with
  | refl => rfl
  | tail hbefore hchange ih => exact (hchange.function_eq (hr.mono (Evolves.objects_le hbefore))).trans ih

theorem Change.globalEnv_eq (h : w.Change m w₁) : w₁.realm.globalEnv = w.realm.globalEnv := by
  cases h <;> rfl

theorem Evolves.globalEnv_eq (h : Evolves m w w₁) : w₁.realm.globalEnv = w.realm.globalEnv := by
  induction h with
  | refl => rfl
  | tail _ hchange ih => exact hchange.globalEnv_eq.trans ih

theorem Change.place?_eq (h : w.Change m w₁) (he : e < w.realm.scopes.envs.size) :
    w₁.realm.scopes.place? e = w.realm.scopes.place? e := by
  cases h with
  | enter parent kind => exact (Scopes.place?_push ..).trans (if_neg (Nat.ne_of_lt he))
  | enterSlots parent size start => exact (Scopes.place?_pushSlots ..).trans (if_neg (Nat.ne_of_lt he))
  | bind k name c => exact Scopes.place?_bind ..
  | unbind k name => exact Scopes.place?_unbind ..
  | _ => rfl

theorem Evolves.place?_eq (h : Evolves m w w₁) (he : e < w.realm.scopes.envs.size) :
    w₁.realm.scopes.place? e = w.realm.scopes.place? e := by
  induction h with
  | refl => rfl
  | tail hbefore hchange ih => exact (hchange.place?_eq (Nat.lt_of_lt_of_le he (Evolves.envs_le hbefore))).trans ih

/-! ## Frames -/

def lexical (w : World) (frame : Run.FrameRef) : EnvRef := (w.machine.frameWord frame Frame.lexicalEnv).toNat

/-- A world in which a frame goes on in another environment. -/
def enter (w : World) (frame : Run.FrameRef) (e : EnvRef) : World :=
  { w with machine := w.machine.setFrameWord frame Frame.lexicalEnv e.toUInt64 }

theorem lexical_enter (w : World) (frame : Run.FrameRef) (he : e < 2 ^ 64) : (w.enter frame e).lexical frame = e := by
  rw [lexical, enter, Machine.frameWord, Machine.setFrameWord, Machine.readWord_writeWord_self, Nat.toUInt64_eq,
    UInt64.toNat_ofNat', Nat.mod_eq_of_lt he]

/-- A frame that runs a function that exists, or top-level code. -/
def Serves (w : World) (frame : Run.FrameRef) : Prop :=
  ∀ r, Heap.ref? (w.machine.frameCallee frame) = some r → w.realm.heap.Has r

theorem lexical_lt (w : World) (frame : Run.FrameRef) : w.lexical frame < 2 ^ 64 := UInt64.toNat_lt _

theorem closure_lt (hclosed : w.Closed) (hsound : w.realm.Sound) (hframe : w.Serves frame) :
    w.closure frame < w.realm.scopes.envs.size := by
  unfold closure
  cases hcallee : Heap.ref? (w.machine.frameCallee frame) with
  | none => exact hsound.globalEnv
  | some r =>
    dsimp only
    split
    · next name code env hfunction => exact hclosed r _ env (hframe r hcallee).object? ⟨name, code, hfunction⟩
    · exact hsound.globalEnv

theorem Evolves.closure_eq (h : Evolves m w w₁) (hframe : w.Serves frame)
    (hcallee : w₁.machine.frameCallee frame = w.machine.frameCallee frame) :
    w₁.closure frame = w.closure frame := by
  unfold closure
  rw [hcallee, h.globalEnv_eq]
  cases hr : Heap.ref? (w.machine.frameCallee frame) with
  | none => rfl
  | some r =>
    dsimp only
    rw [h.function_eq (hframe r hr)]

end World

namespace Run

variable {w w₁ : World} {frame other : FrameRef} {e : EnvRef}

theorem lexicalEnv_eq (h : w.lexical frame < w.realm.scopes.envs.size) :
    lexicalEnv frame w = .ok (w.lexical frame) w := (envOrCrash_eq _).trans (if_pos h)

theorem frameWord_setFrameWord (x : Machine) {d d' : Int32} (h : X86.displacementWord d ≠ X86.displacementWord d')
    (word : UInt64) : (x.setFrameWord frame d word).frameWord frame d' = x.frameWord frame d' :=
  Machine.setFrameWord_read (fun heq => h ((UInt64.add_right_inj _).1 heq)) word

theorem frameCallee_setFrameWord (x : Machine) {d : Int32}
    (h : X86.displacementWord d ≠ X86.displacementWord Frame.callee) (word : UInt64) :
    (x.setFrameWord frame d word).frameCallee frame = x.frameCallee frame :=
  congrArg Value.mk (frameWord_setFrameWord x h word)

theorem unwindEnv_eq (frame : FrameRef) (level : UInt32) (w : World) :
    unwindEnv frame level w = .ok () (w.enter frame
      (w.realm.scopes.unwind ((w.realm.scopes.env (w.closure frame)).depth + level.toNat) (w.lexical frame))) :=
  bind_ok (closureEnv_eq frame)

end Run

namespace World

variable {m : Moment} {w w₁ w₂ : World} {frame other : Run.FrameRef} {base e : EnvRef} {level : UInt32}

/-! ## Regions -/

/-- How a run goes on in a region of a frame's code that was entered in an environment: the frame enters and leaves
others, but not that one, handlers of regions inside take exceptions, and whatever else is done, also by functions
that are called, leaves the frame where it is. -/
inductive Region (frame : Run.FrameRef) (base : EnvRef) (level : UInt32) (w : World) : World → Prop
  | start : Region frame base level w w
  | buildEnv {w₁ : World} (h : Region frame base level w w₁) (size mutableStart : UInt64) :
      Region frame base level w ((Run.buildEnv frame size mutableStart).after w₁)
  | withSetup {w₁ : World} (h : Region frame base level w w₁) (v : Value) :
      Region frame base level w ((Run.withSetup frame v).after w₁)
  | tryCatchSetup {w₁ : World} (h : Region frame base level w w₁) (name : Text) :
      Region frame base level w ((Run.tryCatchSetup frame name).after w₁)
  | popEnv {w₁ : World} (h : Region frame base level w w₁) (hbase : w₁.lexical frame ≠ base) :
      Region frame base level w ((Run.popEnv frame).after w₁)
  | caught {w₁ : World} (h : Region frame base level w w₁) (inner : UInt32) (hinner : level ≤ inner) :
      Region frame base level w ((Run.unwindEnv frame inner).after w₁)
  | other {w₁ w₂ : World} (h : Region frame base level w w₁) (hrun : Evolves ⟨0, 0⟩ w₁ w₂)
      (hlexical : w₂.lexical frame = w₁.lexical frame)
      (hcallee : w₂.machine.frameCallee frame = w₁.machine.frameCallee frame) : Region frame base level w w₂

/-- A frame that is inside an environment at a level of its function's environment. -/
structure Inside (w : World) (frame : Run.FrameRef) (base : EnvRef) (level : UInt32) : Prop where
  sound : w.realm.Sound
  closed : w.Closed
  serves : w.Serves frame
  current : w.lexical frame < w.realm.scopes.envs.size
  inside : ∃ n, w.realm.scopes.outer n (w.lexical frame) = some base
  depth : (w.realm.scopes.env base).depth = (w.realm.scopes.env (w.closure frame)).depth + level.toNat

namespace Inside

variable (h : w.Inside frame base level)

include h

theorem base_lt : base < w.realm.scopes.envs.size := by
  obtain ⟨n, hn⟩ := h.inside
  exact Scopes.outer_lt h.sound h.current hn

theorem evolves (hrun : Evolves ⟨0, 0⟩ w w₁)
    (hcallee : w₁.machine.frameCallee frame = w.machine.frameCallee frame)
    (hcurrent : w₁.lexical frame < w₁.realm.scopes.envs.size)
    (hinside : ∃ n, w₁.realm.scopes.outer n (w₁.lexical frame) = some base) : w₁.Inside frame base level where
  sound := hrun.sound h.sound
  closed := hrun.closed h.closed
  serves r hr := (h.serves r (hcallee ▸ hr)).mono hrun.objects_le
  current := hcurrent
  inside := hinside
  depth := by
    have hdepth {k : Nat} (hk : k < w.realm.scopes.envs.size) :
        (w₁.realm.scopes.env k).depth = (w.realm.scopes.env k).depth :=
      congrArg Prod.snd (Scopes.env_place ((hrun.place?_eq hk).trans (Scopes.place?_of_lt hk)))
    rw [hrun.closure_eq h.serves hcallee, hdepth h.base_lt, hdepth (closure_lt h.closed h.sound h.serves), h.depth]

theorem outer_eq (hrun : Evolves ⟨0, 0⟩ w w₁) {k : Nat} (hk : k < w.realm.scopes.envs.size) (n : Nat) :
    w₁.realm.scopes.outer n k = w.realm.scopes.outer n k :=
  Scopes.outer_congr h.sound (fun _ hk => hrun.place?_eq hk) hk n

theorem stay (hrun : Evolves ⟨0, 0⟩ w w₁) (hlexical : w₁.lexical frame = w.lexical frame)
    (hcallee : w₁.machine.frameCallee frame = w.machine.frameCallee frame) : w₁.Inside frame base level := by
  refine h.evolves hrun hcallee ?_ ?_
  · rw [hlexical]
    exact Nat.lt_of_lt_of_le h.current hrun.envs_le
  · obtain ⟨n, hn⟩ := h.inside
    exact ⟨n, by rw [hlexical, h.outer_eq hrun h.current, hn]⟩

/-- The frame goes on in an environment that exists and is inside the one that the region was entered in. -/
theorem move (hrun : Evolves ⟨0, 0⟩ w (w₁.enter frame e))
    (hcallee : w₁.machine.frameCallee frame = w.machine.frameCallee frame) (hfits : e < 2 ^ 64)
    (he : e < w₁.realm.scopes.envs.size) (hinside : ∃ n, w₁.realm.scopes.outer n e = some base) :
    (w₁.enter frame e).Inside frame base level := by
  have hlexical := lexical_enter w₁ frame hfits
  refine h.evolves hrun ((Run.frameCallee_setFrameWord _ (by decide) _).trans hcallee) ?_ ?_
  · rw [hlexical]
    exact he
  · rw [hlexical]
    exact hinside

theorem push (hrun : Evolves ⟨0, 0⟩ w (w₁.enter frame w.realm.scopes.envs.size))
    (hcallee : w₁.machine.frameCallee frame = w.machine.frameCallee frame) {depth : Nat}
    (hplace : w₁.realm.scopes.place? w.realm.scopes.envs.size = some (some (w.lexical frame), depth))
    (hsize : w₁.realm.scopes.envs.size ≤ 2 ^ 64) :
    (w₁.enter frame w.realm.scopes.envs.size).Inside frame base level := by
  have hnew := Scopes.lt_size_iff.2 ⟨_, hplace⟩
  refine h.move hrun hcallee (Nat.lt_of_lt_of_le hnew hsize) hnew ?_
  obtain ⟨n, hn⟩ := h.inside
  refine ⟨n + 1, (Scopes.outer_succ (congrArg Prod.fst (Scopes.env_place hplace)) n).trans ?_⟩
  exact (h.outer_eq hrun h.current n).trans hn

end Inside

end World

namespace Run

variable {α : Type} {w : World} {frame : FrameRef} {base : EnvRef} {level : UInt32}

theorem Tame.run {x : Run α} (hx : Tame ⟨0, 0⟩ x w) (hsound : w.realm.Sound) :
    World.Evolves ⟨0, 0⟩ w (x.after w) :=
  hx.evolves ⟨Nat.zero_le _, Nat.zero_le _⟩ hsound

variable (h : w.Inside frame base level)

include h

theorem buildEnv_inside (size start : UInt64)
    (hsize : ((buildEnv frame size start).after w).realm.scopes.envs.size ≤ 2 ^ 64) :
    ((buildEnv frame size start).after w).Inside frame base level := by
  have hevolves := (buildEnv_tame frame size start).run h.sound
  obtain ⟨x, hx, hbuild⟩ := buildEnv_eq (lexicalEnv_eq h.current) size start
  have hrun : buildEnv frame size start w = .ok () (World.enter { w with
      realm := { w.realm with scopes := (w.realm.scopes.pushSlots (w.lexical frame) size.toNat start.toNat).2 }
      machine := x } frame w.realm.scopes.envs.size) := hbuild
  rw [after_ok hrun] at hevolves hsize ⊢
  refine h.push hevolves ?_ ((Scopes.place?_pushSlots ..).trans (if_pos rfl)) hsize
  rcases hx with rfl | rfl
  · rfl
  · exact frameCallee_setFrameWord _ (by decide) _

theorem withSetup_inside (v : Value) (hsize : ((withSetup frame v).after w).realm.scopes.envs.size ≤ 2 ^ 64) :
    ((withSetup frame v).after w).Inside frame base level := by
  -- Making an object of the value leaves the frame alone, whatever comes of it.
  have hobject := h.stay ((toObject_tame v).run h.sound)
    (congrArg (fun x : Machine => (x.frameWord frame Frame.lexicalEnv).toNat) (toObject_local v w).machine)
    (congrArg (fun x : Machine => x.frameCallee frame) (toObject_local v w).machine)
  cases hv : toObject v w with
  | error fault w' =>
    have hrun : withSetup frame v w = .error fault w' := bind_error hv
    rw [after_error hrun, ← after_error hv]
    exact hobject
  | ok r w' =>
    rw [after_ok hv] at hobject
    have hrun : withSetup frame v w = .ok () ((w'.withScopes fun s =>
        (s.push (some (w'.lexical frame)) (.object r)).2).enter frame w'.realm.scopes.envs.size) :=
      (bind_ok hv).trans (bind_ok (lexicalEnv_eq hobject.current))
    rw [after_ok hrun] at hsize ⊢
    exact hobject.push ((World.Change.enter (w'.lexical frame) (.object r) hobject.current trivial).evolves.tail
      (.machine _)) rfl ((Scopes.place?_push ..).trans (if_pos rfl)) hsize

theorem tryCatchSetup_inside (name : Text)
    (hsize : ((tryCatchSetup frame name).after w).realm.scopes.envs.size ≤ 2 ^ 64) :
    ((tryCatchSetup frame name).after w).Inside frame base level := by
  have hevolves := (tryCatchSetup_tame frame name).run h.sound
  obtain ⟨x, hrun⟩ : ∃ x : Cell, tryCatchSetup frame name w = .ok x.value ((w.withScopes fun s =>
      (s.push (some (w.lexical frame)) (.declarative [] 0 0)).2.bind s.envs.size name x).enter frame
        w.realm.scopes.envs.size) :=
    ⟨⟨⟨w.machine.contextWord Context.exception⟩, name, true, false⟩, bind_ok (lexicalEnv_eq h.current)⟩
  rw [after_ok hrun] at hevolves hsize ⊢
  exact h.push hevolves rfl ((Scopes.place?_bind ..).trans ((Scopes.place?_push ..).trans (if_pos rfl))) hsize

theorem popEnv_inside (hbase : w.lexical frame ≠ base) : ((popEnv frame).after w).Inside frame base level := by
  have hevolves := (popEnv_tame frame).run h.sound
  obtain ⟨n, hn⟩ := h.inside
  cases n with
  | zero => exact absurd (Option.some.inj hn) hbase
  | succ n =>
    cases hp : (w.realm.scopes.env (w.lexical frame)).parent with
    | none => exact nomatch (Scopes.outer_succ_none hp n).symm.trans hn
    | some p =>
      have hrun : popEnv frame w = .ok () (w.enter frame p) := by
        rw [popEnv, bind_ok (realm_run w), bind_ok (lexicalEnv_eq h.current), hp]
        rfl
      obtain ⟨hlt, -⟩ := Scopes.parent_of_sound h.sound h.current hp
      rw [after_ok hrun] at hevolves ⊢
      exact h.move hevolves rfl (Nat.lt_trans hlt (w.lexical_lt frame)) (Nat.lt_trans hlt h.current)
        ⟨n, (Scopes.outer_succ hp n).symm.trans hn⟩

theorem unwindEnv_inside {inner : UInt32} (hinner : level ≤ inner) :
    ((unwindEnv frame inner).after w).Inside frame base level := by
  have hevolves := (unwindEnv_tame frame inner).run h.sound
  obtain ⟨n, hn⟩ := h.inside
  rw [after_ok (unwindEnv_eq frame inner w)] at hevolves ⊢
  obtain ⟨k, hk⟩ := Scopes.exists_outer_unwindFrom w.realm.scopes
    ((w.realm.scopes.env (w.closure frame)).depth + inner.toNat) (w.lexical frame + 1) (w.lexical frame)
  refine h.move hevolves rfl (Nat.lt_of_le_of_lt (Scopes.unwind_le h.sound _ _) (w.lexical_lt frame))
    (Scopes.outer_lt h.sound h.current hk) (Scopes.unwindFrom_inside hn ?_ _)
  rw [h.depth]
  exact Nat.add_le_add_left (UInt32.le_iff_toNat_le.1 hinner) _

end Run

namespace World

variable {m : Moment} {w w₁ w₂ : World} {frame other : Run.FrameRef} {base e : EnvRef} {level : UInt32}

theorem Region.evolves (h : w.Region frame base level w₁) (hsound : w.realm.Sound) : Evolves ⟨0, 0⟩ w w₁ := by
  induction h with
  | start => exact .refl
  | buildEnv _ size start ih => exact ih.trans ((Run.buildEnv_tame frame size start).run (ih.sound hsound))
  | withSetup _ v ih => exact ih.trans ((Run.withSetup_tame frame v).run (ih.sound hsound))
  | tryCatchSetup _ name ih => exact ih.trans ((Run.tryCatchSetup_tame frame name).run (ih.sound hsound))
  | popEnv _ _ ih => exact ih.trans ((Run.popEnv_tame frame).run (ih.sound hsound))
  | caught _ inner _ ih => exact ih.trans ((Run.unwindEnv_tame frame inner).run (ih.sound hsound))
  | other _ hrun _ _ ih => exact ih.trans hrun

/-- A region stays inside the environment that it was entered in. -/
theorem Region.inside (hregion : w.Region frame base level w₁) (h : w.Inside frame base level)
    (hsize : w₁.realm.scopes.envs.size ≤ 2 ^ 64) : w₁.Inside frame base level := by
  -- Environments are never dropped, so there were not too many before, either.
  have hbefore {w₁ : World} {α : Type} {x : Run α} (hregion : w.Region frame base level w₁)
      (hx : Run.Tame ⟨0, 0⟩ x w₁) (hsize : (x.after w₁).realm.scopes.envs.size ≤ 2 ^ 64) :
      w₁.realm.scopes.envs.size ≤ 2 ^ 64 :=
    Nat.le_trans (hx.run ((hregion.evolves h.sound).sound h.sound)).envs_le hsize
  induction hregion with
  | start => exact h
  | buildEnv hregion size start ih =>
    exact Run.buildEnv_inside (ih (hbefore hregion (Run.buildEnv_tame ..) hsize)) size start hsize
  | withSetup hregion v ih =>
    exact Run.withSetup_inside (ih (hbefore hregion (Run.withSetup_tame ..) hsize)) v hsize
  | tryCatchSetup hregion name ih =>
    exact Run.tryCatchSetup_inside (ih (hbefore hregion (Run.tryCatchSetup_tame ..) hsize)) name hsize
  | popEnv hregion hbase ih => exact Run.popEnv_inside (ih (hbefore hregion (Run.popEnv_tame ..) hsize)) hbase
  | caught hregion inner hinner ih =>
    exact Run.unwindEnv_inside (ih (hbefore hregion (Run.unwindEnv_tame ..) hsize)) hinner
  | other hregion hrun hlexical hcallee ih =>
    exact (ih (Nat.le_trans hrun.envs_le hsize)).stay hrun hlexical hcallee

/-- What unwinding leaves alone: everything but the word with the environment of the frame. -/
structure LeavesFrames (w w₁ : World) (frame : Run.FrameRef) : Prop where
  realm : w₁.realm = w.realm
  output : w₁.output = w.output
  word : ∀ a, a ≠ frame + X86.displacementWord Frame.lexicalEnv → w₁.machine.readWord a = w.machine.readWord a
  variableEnv : Run.variableEnv frame w₁ = .ok (w.machine.frameWord frame Frame.variableEnv).toNat w₁
  others : ∀ other, other ≠ frame → other + 8 ≠ frame → w₁.lexical other = w.lexical other ∧
    Run.variableEnv other w₁ = .ok (w.machine.frameWord other Frame.variableEnv).toNat w₁

theorem leavesFrames (w : World) (frame : Run.FrameRef) (e : EnvRef) : w.LeavesFrames (w.enter frame e) frame := by
  have hword {a : UInt64} (ha : a ≠ frame + X86.displacementWord Frame.lexicalEnv) :
      (w.enter frame e).machine.readWord a = w.machine.readWord a := Machine.setFrameWord_read ha.symm _
  have hvariable {other : Run.FrameRef} (hother : other + 8 ≠ frame) :
      (w.enter frame e).machine.frameWord other Frame.variableEnv = w.machine.frameWord other Frame.variableEnv := by
    refine hword fun heq => hother ?_
    have hshift :
        other + 8 + X86.displacementWord Frame.lexicalEnv = frame + X86.displacementWord Frame.lexicalEnv := by
      rw [← heq, UInt64.add_assoc]
      rfl
    exact (UInt64.add_left_inj _).1 hshift
  have hself : frame + 8 ≠ frame := by
    intro heq
    have hzero : frame + 8 = frame + 0 := heq.trans (UInt64.add_zero frame).symm
    exact absurd ((UInt64.add_right_inj _).1 hzero) (by decide)
  refine ⟨rfl, rfl, fun a ha => hword ha, ?_, fun other hne hother => ⟨?_, ?_⟩⟩
  · exact congrArg (fun x : UInt64 => EStateM.Result.ok x.toNat _) (hvariable hself)
  · exact congrArg UInt64.toNat (hword fun heq => hne ((UInt64.add_left_inj _).1 heq))
  · exact congrArg (fun x : UInt64 => EStateM.Result.ok x.toNat _) (hvariable hother)

/-- Unwinding restores scopes. It always ends in the environment where the frame is or in one around it. And
however a region goes on that was entered in an environment at the level of its handler, and wherever in it an
exception is thrown, unwinding ends in that environment. It changes nothing else: not the environment for the
variables of the frame, and not those of other frames. -/
theorem unwinding_restores_scopes (hw : w.Arises) :
    (∀ frame level, ∃ w₁, Run.unwindEnv frame level w = .ok () w₁ ∧ w.LeavesFrames w₁ frame ∧
      ∃ n, w.realm.scopes.outer n (w.lexical frame) = some (w₁.lexical frame)) ∧
    ∀ frame base level, w.Serves frame → Run.lexicalEnv frame w = .ok base w →
      (w.realm.scopes.env base).depth = (w.realm.scopes.env (w.closure frame)).depth + level.toNat →
      ∀ w₁, w.Region frame base level w₁ → w₁.realm.scopes.envs.size ≤ 2 ^ 64 →
        ∃ w₂, Run.unwindEnv frame level w₁ = .ok () w₂ ∧ Run.lexicalEnv frame w₂ = .ok base w₂ ∧
          w₁.LeavesFrames w₂ frame := by
  constructor
  · intro frame level
    refine ⟨_, Run.unwindEnv_eq frame level w, w.leavesFrames frame _, ?_⟩
    rw [lexical_enter w frame (Nat.lt_of_le_of_lt (Scopes.unwind_le hw.sound _ _) (w.lexical_lt frame))]
    exact Scopes.exists_outer_unwindFrom ..
  · intro frame base level hserves hbase hdepth w₁ hregion hsize
    obtain ⟨-, hlexical, hcurrent⟩ := Run.envOrCrash_ok hbase
    have hinside : w₁.Inside frame base level := hregion.inside
      ⟨hw.sound, hw.closed, hserves, hcurrent, ⟨0, congrArg some hlexical.symm⟩, hdepth⟩ hsize
    obtain ⟨n, hn⟩ := hinside.inside
    have htarget := Scopes.unwind_eq hinside.sound hinside.current hn
    rw [hinside.depth] at htarget
    have hfound := lexical_enter w₁ frame (Nat.lt_of_lt_of_le hinside.base_lt hsize)
    refine ⟨w₁.enter frame base, ?_, ?_, w₁.leavesFrames frame base⟩
    · rw [Run.unwindEnv_eq, htarget]
    · have henv : Run.lexicalEnv frame (w₁.enter frame base) = _ :=
        Run.lexicalEnv_eq (hfound.symm ▸ hinside.base_lt)
      rwa [hfound] at henv

/-- An exception in a region that entered an environment of its own. -/
theorem unwinding_restores_scopes_entered : ∃ w w₁ w₂ : World, w.Arises ∧ Run.lexicalEnv 0 w = .ok 0 w ∧
    Run.buildEnv 0 1 1 w = .ok () w₁ ∧ w₁.lexical 0 = 1 ∧ Run.unwindEnv 0 0 w₁ = .ok () w₂ ∧
      Run.lexicalEnv 0 w₂ = .ok 0 w₂ := by
  obtain ⟨w, hw⟩ : ∃ w : World, w = World.enter { blank ⟨0, 0, 0⟩ with
      machine := (Machine.ofConfig ⟨0, 0, 0⟩).setFrameWord 0 Frame.callee Value.undefined.word } 0 0 := ⟨_, rfl⟩
  have harises : w.Arises := hw ▸ ⟨⟨0, 0, 0⟩, (Change.machine _).evolves⟩
  have hsize : w.realm.scopes.envs.size = 1 := hw ▸ rfl
  have hlexical : w.lexical 0 = 0 := hw ▸ lexical_enter _ 0 (by decide)
  have hcurrent : Run.lexicalEnv 0 w = .ok (w.lexical 0) w := Run.lexicalEnv_eq (by rw [hlexical, hsize]; decide)
  have hcallee : w.machine.frameCallee 0 = Value.undefined := by
    rw [hw, enter, Run.frameCallee_setFrameWord _ (by decide)]
    exact congrArg Value.mk (Machine.readWord_writeWord_self ..)
  have htop : Heap.ref? (w.machine.frameCallee 0) = none := by
    rw [hcallee]
    decide
  have hclosure : w.closure 0 = 0 := by
    rw [closure, htop, hw]
    rfl
  rw [hlexical] at hcurrent
  obtain ⟨x, hx, hbuild⟩ := Run.buildEnv_eq hcurrent 1 1
  obtain ⟨w₂, hunwind, hfound, -⟩ := (unwinding_restores_scopes harises).2 0 0 0
    (fun r hr => nomatch htop.symm.trans hr) hcurrent (by rw [hclosure]; rfl) _
    (Run.after_ok hbuild ▸ Region.start.buildEnv 1 1) (by simp [Scopes.pushSlots, Scopes.push, hsize])
  have hentered := lexical_enter ⟨w.realm, x, w.output, w.stubCalls⟩ 0
    (show w.realm.scopes.envs.size < 2 ^ 64 by rw [hsize]; decide)
  exact ⟨w, _, w₂, harises, hcurrent, hbuild, hentered.trans hsize, hunwind, hfound⟩

end World

end RegisterJit
