import RegisterJit.Proofs.Chains
import RegisterJit.Proofs.State

/-!
# Fixed properties last

A data property that is neither writable nor configurable stays as it is, whatever is done, unless an
object literal replaces it or the declaration of a function names it as a variable: that makes it
undefined without asking whether it may be written.

`Keeps` says what an object keeps of a property while other things happen to it, and `Lasts` that a property
stays along a run until an exceptional step. `Lasts.change` is the step and goes through the changes that
`Evolution` allows, so no stub is looked at here except the one that instantiates declarations.
`after_declaration` tells what that stub does: an existing property is made undefined for a function, whether it
may be written or not. `declared_function_overwrites` runs a program on which this can be seen.
-/

namespace RegisterJit

def Property.ofConstant (v : Value) (enumerable : Bool) : Property :=
  ⟨.data v false, enumerable, false⟩

namespace World

variable {m : Moment} {w w₁ : World} {r : Nat} {key : Text} {v : Value} {enumerable : Bool}

/-- The value that a fixed property has: its own, or undefined if a function was declared since. -/
def Keeps (m : Moment) (w : World) (v v' : Value) : Prop :=
  v' = v ∨ v' = Value.undefined ∧ ∃ configurable, .instantiate false configurable ∈ w.calledSince m

/-! ## Properties after a change of an object -/

theorem own?_withObject_of_ne {q : ObjectRef} {f : Object → Object} (hq : q ≠ r) :
    (w.withObject q f).own? r key = w.own? r key :=
  congrArg (Object.own? · key) (Heap.object_modify_of_ne hq)

theorem own?_withObject_self {f : Object → Object} (hr : w.realm.heap.Has r) :
    (w.withObject r f).own? r key = (f (w.realm.heap.object r)).own? key :=
  congrArg (Object.own? · key) hr.object_modify

theorem own?_withObject_props (hr : w.realm.heap.Has r) {q : ObjectRef} {f : Object → Object}
    (hf : ∀ o, (f o).props = o.props) : (w.withObject q f).own? r key = w.own? r key := by
  by_cases hq : q = r
  · subst hq
    exact (own?_withObject_self hr).trans (Object.own?_eq_of_props_eq (hf _) key)
  · exact own?_withObject_of_ne hq

theorem own?_withObject_define {q : ObjectRef} {k : Text} {p : Property}
    (hne : q = r → k ≠ key) : (w.withObject q fun o => o.define k p).own? r key = w.own? r key := by
  by_cases hq : q = r
  · subst hq
    by_cases hr : w.realm.heap.Has q
    · rw [own?_withObject_self hr, Object.own?_define_of_ne (Ne.symm (hne rfl))]
      rfl
    · rw [withObject, withHeap, own?]
      dsimp only
      rw [Heap.modify_of_not_has hr]
      rfl
  · exact own?_withObject_of_ne hq

theorem has_of_own? {p : Property} (hown : w.own? r key = some p) : w.realm.heap.Has r := by
  by_contra h
  rw [own?, Heap.object_of_not_has h] at hown
  cases hown

/-! ## One change -/

/-- A fixed property that has its value or was made undefined, unless an object literal came in
between. -/
def Lasts (m : Moment) (r : Nat) (key : Text) (v : Value) (enumerable : Bool) (w : World) : Prop :=
  (∃ part, .storeObject part ∈ w.calledSince m) ∨
    ∃ v', w.own? r key = some (Property.ofConstant v' enumerable) ∧ Keeps m w v v'

theorem Lasts.of_own?_eq (h : Lasts m r key v enumerable w) (hchange : w.Change m w₁)
    (hown : w₁.own? r key = w.own? r key) : Lasts m r key v enumerable w₁ := by
  rcases h with ⟨part, hpart⟩ | ⟨v', hv', hkeeps⟩
  · exact .inl ⟨part, hchange.calledSince hpart⟩
  · refine .inr ⟨v', hown.trans hv', hkeeps.imp_right fun ⟨hundefined, c, hc⟩ => ?_⟩
    exact ⟨hundefined, c, hchange.calledSince hc⟩

/-- A fixed property of an object that is no longer under construction lasts through a change. -/
theorem Lasts.change (h : Lasts m r key v enumerable w) (hr : w.realm.heap.Has r)
    (hold : r ≤ m.objects) (hchange : w.Change m w₁) : Lasts m r key v enumerable w₁ := by
  have hkeep := h.of_own?_eq hchange
  rcases h with ⟨part, hpart⟩ | ⟨v', hv', hkeeps⟩
  · exact .inl ⟨part, hchange.calledSince hpart⟩
  cases hchange with
  | machine | print | leave | install | enter | enterSlots | bind | unbind | write | settle | reset
  | name => exact hkeep rfl
  | intern t => exact hkeep (congrArg (Object.own? · key) (Heap.object_intern _ _ _))
  | create o => exact hkeep (congrArg (Object.own? · key) (hr.object_alloc o))
  | construct q f hq => exact hkeep (own?_withObject_of_ne (Nat.ne_of_gt (Nat.lt_of_le_of_lt hold hq)))
  | content q f hf => exact hkeep (own?_withObject_props hr fun o => (hf o).props)
  | iterate hs q e => exact hkeep (own?_withObject_props hr fun _ => rfl)
  | add q k p hown =>
    refine hkeep (own?_withObject_define fun hq hk => ?_)
    rw [hq, hk, hv'] at hown
    cases hown
  | assign q k p old new hown hbody =>
    refine hkeep (own?_withObject_define fun hq hk => ?_)
    rw [hq, hk, hv'] at hown
    cases hown
    cases hbody
  | delete q k p hown hp =>
    by_cases hq : q = r
    · subst hq
      have hk : key ≠ k := fun hk => by
        rw [← hk, hv'] at hown
        cases hown
        cases hp
      exact hkeep ((own?_withObject_self hr).trans (Object.own?_remove_of_ne hk))
    · exact hkeep (own?_withObject_of_ne hq)
  | literal part hs => exact .inl ⟨part, hs⟩
  | redeclare configurable hs q k p old writable hown hbody =>
    by_cases hsame : q = r ∧ k = key
    · obtain ⟨rfl, rfl⟩ := hsame
      rw [hv'] at hown
      cases hown
      cases hbody
      refine .inr ⟨Value.undefined, ?_, .inr ⟨rfl, configurable, hs⟩⟩
      rw [own?_withObject_self hr, Object.own?_define_self]
      rfl
    · exact hkeep (own?_withObject_define fun hq hk => hsame ⟨hq, hk⟩)

theorem Lasts.evolves (h : Lasts m r key v enumerable w) (hr : w.realm.heap.Has r)
    (hold : r ≤ m.objects) (hevolves : w.Evolves m w₁) : Lasts m r key v enumerable w₁ := by
  induction hevolves with
  | refl => exact h
  | tail hbefore hchange ih => exact ih.change (hr.mono (Evolves.objects_le hbefore)) hold hchange

/-- Fixed properties last. Whatever is done in a world that was reached, a data property that is neither
writable nor configurable is there with its attributes as long as no object literal is built. It has
its value too, unless the declaration of a function makes it undefined. -/
theorem constants_last (hw : w.Reachable) (hsteps : w.Steps w₁)
    (hown : w.own? r key = some (Property.ofConstant v enumerable))
    (hliteral : ∀ part, .storeObject part ∉ w₁.calledSince w.moment) :
    ∃ v', w₁.own? r key = some (Property.ofConstant v' enumerable) ∧ (v' = v ∨ v' = Value.undefined ∧
      ∃ configurable, .instantiate false configurable ∈ w₁.calledSince w.moment) := by
  have hr := has_of_own? hown
  have hlasts : Lasts w.moment r key v enumerable w := .inr ⟨v, hown, .inl rfl⟩
  rcases hlasts.evolves hr hr.2 (hsteps.evolves (past_moment w) hw.sound) with ⟨part, hpart⟩ | hkept
  · exact absurd hpart (hliteral part)
  · exact hkept

end World

/-! ## Declarations -/

namespace Run

variable {w : World} {frame : FrameRef} {e : EnvRef} {r : ObjectRef} {name : Text} {p : Property}
  {old : Value} {writable : Bool}

/-- The declaration of a name that is a property of the variable object. A variable leaves it alone; a
function makes it undefined, whether or not it may be written. -/
theorem instantiate_declared (hframe : (w.machine.frameWord frame Frame.variableEnv).toNat = e)
    (he : e < w.realm.scopes.envs.size) (hkind : (w.realm.scopes.env e).kind = .object r)
    (hown : w.own? r name = some p) (hbody : p.body = .data old writable)
    (isFunction configurable : Bool) :
    instantiate frame name isFunction configurable w = .ok () (if isFunction then
      w.withObject r fun o => o.define name { p with body := .data Value.undefined writable } else w) := by
  have henv : (envOrCrash e) w = .ok e w := by
    change (if e < w.realm.scopes.envs.size then (return e : Run EnvRef) else throw Fault.crash) w = _
    rw [if_pos he]
    rfl
  have hobject : object r w = .ok (w.realm.heap.object r) w :=
    object_of_some (World.has_of_own? hown).object?
  have hvariable : variableEnv frame w = .ok e w := by
    rw [← hframe]
    rfl
  rw [World.own?] at hown
  unfold instantiate
  rw [bind_ok hvariable, bind_ok henv, bind_ok (realm_run w), hkind]
  dsimp only
  rw [bind_ok hobject, hown]
  dsimp only
  rw [hbody]
  cases isFunction <;> rfl

end Run

namespace World

/-- A code that names a variable. -/
def declaringCode : MachineCode :=
  ⟨⟨0, 0, { Code.ofName [] with names := #["NaN"] }, #[]⟩, 0⟩

/-- A machine that knows it, with a frame whose variables are global. -/
def declaringMachine : Machine :=
  ({ Machine.ofConfig ⟨0, 0, 0⟩ with codes := #[declaringCode] } : Machine).setFrameWord 0
    Frame.variableEnv 0

def definesNan (w : World) : Bool :=
  match (w.realm.scopes.env 0).kind with
  | .object r =>
    match w.own? r "NaN" with
    | some ⟨.data v false, false, false⟩ => v == Value.double Double.nan
    | _ => false
  | _ => false

theorem ofConfig_nan : ∃ w r, Reachable w ∧ w.machine = declaringMachine ∧
    0 < w.realm.scopes.envs.size ∧ (w.realm.scopes.env 0).kind = .object r ∧
    w.own? r "NaN" = some (Property.ofConstant (Value.double Double.nan) false) := by
  have hcheck : (ofConfig ⟨0, 0, 0⟩).definesNan = true := by decide +kernel
  have hglobal := Realm.Sound.globalEnv (ofConfig_sound ⟨0, 0, 0⟩)
  have hreachable : Reachable { ofConfig ⟨0, 0, 0⟩ with machine := declaringMachine } :=
    ⟨⟨0, 0, 0⟩, .single (.machine _)⟩
  generalize ofConfig ⟨0, 0, 0⟩ = w at hcheck hglobal hreachable
  rw [definesNan] at hcheck
  split at hcheck
  · next r hkind =>
    split at hcheck
    · next v hown =>
      rw [eq_of_beq hcheck] at hown
      exact ⟨_, r, hreachable, rfl, Nat.zero_lt_of_lt hglobal, hkind, hown⟩
    · cases hcheck
  · cases hcheck

/-- The stub that declares the variable there. -/
theorem after_declaration {w : World} {r : ObjectRef} {v : Value} {enumerable : Bool}
    (hmachine : w.machine = declaringMachine) (hsize : 0 < w.realm.scopes.envs.size)
    (hkind : (w.realm.scopes.env 0).kind = .object r)
    (hown : w.own? r "NaN" = some (Property.ofConstant v enumerable)) (ev : Evaluator)
    (isVariable configurable : Bool) :
    (Run.stub ev (.instantiate isVariable configurable) 0 0 0 0 0).after w =
      if isVariable then w else w.withObject r fun o =>
        o.define "NaN" (Property.ofConstant Value.undefined enumerable) := by
  have hframe : (w.machine.frameWord 0 Frame.variableEnv).toNat = 0 := by
    rw [hmachine, declaringMachine, Machine.frameWord, Machine.setFrameWord,
      Machine.readWord_writeWord_self]
    rfl
  have hsymbol : Run.symbol 0 w = .ok "NaN" w := by
    obtain ⟨realm, machine, output, stubCalls⟩ := w
    cases hmachine
    rfl
  have hdeclared := Run.instantiate_declared hframe hsize hkind hown rfl (!isVariable) configurable
  have hnamed : (do Run.instantiate 0 (← Run.symbol 0) (!isVariable) configurable : Run Unit) w =
      .ok () (if !isVariable then w.withObject r fun o =>
        o.define "NaN" (Property.ofConstant Value.undefined enumerable) else w) :=
    (Run.bind_ok hsymbol).trans hdeclared
  change ((do Run.instantiate 0 (← Run.symbol 0) (!isVariable) configurable : Run Unit) >>=
    fun _ => (pure (0, 0) : Run (UInt64 × UInt64))).after w = _
  rw [Run.after_bind_ok hnamed]
  cases isVariable <;> rfl

theorem calledSince_push (w : World) (s : Stub) :
    ({ w with stubCalls := w.stubCalls.push s } : World).calledSince w.moment = [s] := by
  rw [calledSince, Array.toList_push]
  exact List.drop_left

/-- A variable of the name of a fixed property leaves it as it is. -/
theorem constants_last_variable : ∃ (w w₁ : World) (r : ObjectRef), w.Reachable ∧ w.Steps w₁ ∧
    w.own? r "NaN" = some (Property.ofConstant (Value.double Double.nan) false) ∧
      w₁.calledSince w.moment = [.instantiate true false] ∧
      w₁.own? r "NaN" = some (Property.ofConstant (Value.double Double.nan) false) := by
  obtain ⟨w, r, hreachable, hmachine, hsize, hkind, hown⟩ := ofConfig_nan
  have hstep := Step.stub (w := w) true 0 (.instantiate true false) 0 0 0 0 0
  have hafter := after_declaration (w := { w with
    stubCalls := w.stubCalls.push (.instantiate true false) }) hmachine hsize hkind hown
      (Run.evaluator true 0) true false
  rw [hafter, if_pos rfl] at hstep
  have hcalled := calledSince_push w (.instantiate true false)
  obtain ⟨v', hv', hkept⟩ := constants_last hreachable (.single hstep) hown fun part => by
    rw [hcalled]
    simp
  refine ⟨w, _, r, hreachable, .single hstep, hown, hcalled, ?_⟩
  rw [hcalled] at hkept
  rcases hkept with rfl | ⟨-, configurable, hmem⟩
  · exact hv'
  · simp at hmem

/-- A function of the name of a fixed property makes it undefined. -/
theorem declared_function_overwrites : ∃ (w w₁ : World) (r : ObjectRef), w.Reachable ∧ w.Steps w₁ ∧
    w.own? r "NaN" = some (Property.ofConstant (Value.double Double.nan) false) ∧
      w₁.calledSince w.moment = [.instantiate false false] ∧
      w₁.own? r "NaN" = some (Property.ofConstant Value.undefined false) := by
  obtain ⟨w, r, hreachable, hmachine, hsize, hkind, hown⟩ := ofConfig_nan
  have hstep := Step.stub (w := w) true 0 (.instantiate false false) 0 0 0 0 0
  have hafter := after_declaration (w := { w with
    stubCalls := w.stubCalls.push (.instantiate false false) }) hmachine hsize hkind hown
      (Run.evaluator true 0) false false
  rw [hafter, if_neg (by decide)] at hstep
  refine ⟨w, _, r, hreachable, .single hstep, hown, calledSince_push w _, ?_⟩
  refine (own?_withObject_self ?_).trans (Object.own?_define_self ..)
  exact has_of_own? hown

end World

end RegisterJit
