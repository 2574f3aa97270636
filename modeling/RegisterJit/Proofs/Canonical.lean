import RegisterJit.Proofs.Delivery
import RegisterJit.Proofs.Possession

/-!
# Canonical strings

A fresh realm has strings from the table only, and stubs keep it so. So whatever strings stubs yield one after the
other, they are equal as words just if their texts are, and strict equality may compare the words.

`Yields` is a sequence of stub calls with the values that are at hand: those that were given at the start and those
that stubs yielded or threw since. Each stub takes only strings that are at hand. What happens between two stubs is
left open, except that it does not touch the realm. A stub may call compiled code, which calls stubs in turn.
`Sequential` says that such code is a sequence of stub calls, too, which starts with what it is given, and so on as
deep as evaluation goes. By `Yields.genuine` and `Sequential.honest` all strings at hand come from the table.

That compiled code on a machine is sequential is `Run.heedful_sequential`. A run is followed from one stub to the
next: everything but the stubs is `Run.Still`, so `Run.serveStub_yields` is the step and `Run.serve_yields` the
induction. Code might make up a word and take it for a string, and nothing is claimed about such code: `Run.heeding`
makes it crash.
-/

namespace RegisterJit

namespace Run

variable {w : World} {ev : Evaluator}

/-! ## A fresh realm -/

theorem modifyRealm_clean {f : Realm → Realm} (hheap : ∀ r, (f r).heap = r.heap)
    (hscopes : ∀ r, (f r).scopes = r.scopes) : Clean (modifyRealm f) w := by
  refine ⟨fun hw => ?_⟩
  change w.realm.heap.Keeps (f w.realm).heap ∧ World.Genuine { w with realm := f w.realm } ∧ True
  refine ⟨hheap _ ▸ .refl _, ⟨?_, ?_, ?_⟩, trivial⟩
  · exact (hheap w.realm).symm ▸ hw.canonical
  · exact (hheap w.realm).symm ▸ hw.objects
  · simp only [hheap, hscopes]
    exact hw.cells

theorem install_clean (r : ObjectRef) (name : Text) (arity : Int) (b : Builtin) : Clean (install r name arity b) w :=
  .next (newBuiltin_clean _ _ _) fun _ _ _ => .next (defineData_clean (Heap.knows_value _)) fun _ _ _ => .pure trivial

theorem installError_clean (kind : ErrorKind) : Clean (installError kind) w := by
  refine .realm fun _ => ?_
  have hrest (proto : ObjectRef) (w' : World) : Clean (do
      let ctor ← install w.realm.globalObject kind.name 1 (.errorConstructor proto)
      define ctor "prototype" (Property.fixed (Heap.value proto))
      define proto "constructor" (Property.hidden (Heap.value ctor))
      modifyRealm fun r => { r with constructors := r.constructors ++ [(kind, ctor)] }) w' :=
    .next (install_clean _ _ _ _) fun _ _ _ => .next (defineData_clean (Heap.knows_value _)) fun _ _ _ =>
      .next (defineData_clean (Heap.knows_value _)) fun _ _ _ => modifyRealm_clean (fun _ => rfl) fun _ => rfl
  dsimp only
  split
  · exact .read rfl fun _ => hrest _ _
  · exact .next (allocClass_clean _ _) fun _ _ _ => .bind (intern_known _) fun _ _ _ hname =>
      .next (defineData_clean hname) fun _ _ _ => .read rfl fun _ => hrest _ _

theorem installAll_clean : Clean installAll w := by
  have install {r : ObjectRef} {name : Text} {arity : Int} {b : Builtin} {β : Type} {f : ObjectRef → Run β}
      (hf : ∀ r w, Clean (f r) w) (w : World) : Clean (install r name arity b >>= f) w :=
    .next (install_clean _ _ _ _) fun r w' _ => hf r w'
  have fixed {r q : ObjectRef} {key : Text} {β : Type} {f : Unit → Run β} (hf : ∀ w, Clean (f ()) w) (w : World) :
      Clean (define r key (Property.fixed (Heap.value q)) >>= f) w :=
    .next (defineData_clean (Heap.knows_value _)) fun _ w' _ => hf w'
  have named {r : ObjectRef} {key t : Text} {β : Type} {f : Unit → Run β} (hf : ∀ w, Clean (f ()) w) (w : World) :
      Clean (intern t >>= fun v => define r key (Property.hidden v) >>= f) w :=
    .bind (intern_known _) fun _ _ _ hv => .next (defineData_clean hv) fun _ w' _ => hf w'
  refine .realm fun _ => ?_
  dsimp only
  iterate 8 refine install (fun _ w => ?_) w
  iterate 2 refine named (fun w => ?_) w
  refine install (fun _ w => ?_) w
  refine .next (.forM (fun kind w _ => installError_clean kind) _) fun _ w _ => ?_
  iterate 2 refine install (fun _ w => ?_) w
  refine .next (modifyRealm_clean (fun _ => rfl) fun _ => rfl) fun _ w _ => ?_
  iterate 4 refine install (fun _ w => ?_) w
  refine fixed (fun w => ?_) w
  refine install (fun _ w => ?_) w
  refine fixed (fun w => ?_) w
  refine .next (defineData_clean Heap.knows_undefined) fun _ w _ => ?_
  iterate 2 refine .next (defineData_clean (Heap.knows_double _)) fun _ w _ => ?_
  exact defineData_clean (Heap.knows_value _)

/-! ## Evaluation -/

theorem receiver_known (code : Code) {this : Value} (hthis : w.realm.heap.Knows this) :
    Known (receiver code this) w := by
  unfold receiver
  split
  · exact .realm fun _ => .pure (Heap.knows_value _)
  · exact .pure hthis

theorem callWith_known (hev : ev.Honest) {fn this : Value} {args : List Value} (hthis : w.realm.heap.Knows this)
    (hargs : ∀ v ∈ args, w.realm.heap.Knows v) : Known (callWith ev false fn this args) w := by
  refine .heap fun _ => ?_
  split
  · exact .next hev.display fun _ _ _ => raise_honest _ _
  · exact builtin_known hev _ hthis hargs
  · exact internalError_next_honest _ _

theorem evaluator_honest (fuel : Nat) : (evaluator false fuel).Honest := by
  induction fuel with
  | zero => exact ⟨fun _ _ _ => .throw trivial, fun _ => .throw trivial, .throw trivial⟩
  | succ fuel ih =>
    exact ⟨fun _ hthis hargs => callWith_known ih hthis hargs, fun hv => toPrimitiveWith_known ih hv _,
      displayWith_clean ih _⟩

/-- Call a function, with a way to run compiled code. -/
def callThrough (ev : Evaluator) (run : Call → Run Value) (fn this : Value) (args : List Value) : Run Value := do
  let h ← heap
  match (Heap.ref? fn).bind fun r => (h.object r).function with
  | none => raise .typeError ((← ev.display fn) ++ Text.ofString " is not a function")
  | some ⟨_, .builtin b⟩ => builtin ev b this args
  | some ⟨_, .compiled code env⟩ =>
    let target ← codeOrCrash code.toUInt32
    let this ← receiver target.unit.code this
    match ← attempt (run ⟨target, fn, this, args, env.toUInt64, false⟩) with
    | .ok v => return v
    | .error .stackOverflow => tooDeep
    | .error fault => throw fault

/-- Evaluation by one that is a level deeper, with a way to run compiled code. Messages are rendered without it. -/
def evaluatorOver (inner : Evaluator) (run : Call → Run Value) (depth : Nat) : Evaluator :=
  ⟨callThrough inner run, toPrimitiveWith inner, displayWith (evaluator false depth)⟩

-- On a machine, the way to run compiled code is the machine's.
example (fuel : Nat) :
    evaluator true (fuel + 1) = evaluatorOver (evaluator true fuel) (invoke (evaluator true fuel)) fuel := rfl

/-- Compiled code stores, yields and throws only such strings as it was given or stubs gave it. -/
def Faithful (run : Call → Run Value) : Prop :=
  ∀ (call : Call) (w : World), w.realm.heap.Knows call.callee → w.realm.heap.Knows call.this →
    (∀ v ∈ call.args, w.realm.heap.Knows v) → Known (run call) w

theorem callThrough_known (hev : ev.Honest) {run : Call → Run Value} {fn this : Value} {args : List Value}
    (hrun : Faithful run) (hfn : w.realm.heap.Knows fn) (hthis : w.realm.heap.Knows this)
    (hargs : ∀ v ∈ args, w.realm.heap.Knows v) : Known (callThrough ev run fn this args) w := by
  refine .heap fun _ => ?_
  split
  · exact .next hev.display fun _ _ _ => raise_honest _ _
  · exact builtin_known hev _ hthis hargs
  · refine .next (codeOrCrash_clean _) fun target w₁ h₁ => ?_
    refine .bind (receiver_known _ (hthis.keep h₁)) fun this w₂ h₂ hthis => ?_
    have hkeeps := h₁.trans h₂
    refine .bind (attempt_honest (hrun _ w₂ (hfn.keep hkeeps) hthis fun v hv => (hargs v hv).keep hkeeps))
      fun result w₃ _ hresult => ?_
    split
    · exact .pure hresult
    · exact tooDeep_honest
    · exact .throw hresult

theorem evaluatorOver_honest {inner : Evaluator} (hinner : inner.Honest) {run : Call → Run Value}
    (hrun : Faithful run) (depth : Nat) : (evaluatorOver inner run depth).Honest :=
  ⟨callThrough_known hinner hrun, fun hv => toPrimitiveWith_known hinner hv _,
    displayWith_clean (evaluator_honest depth) _⟩

end Run

def Fault.values : Fault → List Value
  | .thrown v _ => [v]
  | _ => []

namespace Run

variable {α : Type} {w : World} {x : Run α} {value : α → Value}

/-- The value that comes of a step: the one in its result, or the one that it throws. -/
def passed (value : α → Value) : EStateM.Result Fault World α → List Value
  | .ok a _ => [value a]
  | .error e _ => e.values

theorem Honest.passed (h : Honest (fun h a => h.Knows (value a)) x w) (hw : w.Genuine) :
    w.realm.heap.Keeps (x.after w).realm.heap ∧ (x.after w).Genuine ∧
      ∀ v ∈ passed value (x w), (x.after w).realm.heap.Knows v := by
  have houtcome := h.outcome hw
  rw [Run.after]
  cases hrun : x w with
  | ok a w' =>
    rw [hrun] at houtcome
    exact ⟨houtcome.1, houtcome.2.1, fun v hv => List.mem_singleton.1 hv ▸ houtcome.2.2⟩
  | error e w' =>
    rw [hrun] at houtcome
    refine ⟨houtcome.1, houtcome.2.1, fun v hv => ?_⟩
    cases e with
    | thrown u message => exact List.mem_singleton.1 hv ▸ houtcome.2.2
    | _ => cases hv

theorem Honest.of_passed {x : Run Value} (h : w.Genuine → w.realm.heap.Keeps (x.after w).realm.heap ∧
    (x.after w).Genuine ∧ ∀ v ∈ Run.passed id (x w), (x.after w).realm.heap.Knows v) : Known x w := by
  refine ⟨fun hw => ?_⟩
  have hpassed := h hw
  rw [Run.after] at hpassed
  cases hrun : x w with
  | ok v w' =>
    rw [hrun] at hpassed
    exact ⟨hpassed.1, hpassed.2.1, hpassed.2.2 v List.mem_cons_self⟩
  | error e w' =>
    rw [hrun] at hpassed
    refine ⟨hpassed.1, hpassed.2.1, ?_⟩
    cases e with
    | thrown v message => exact hpassed.2.2 v List.mem_cons_self
    | _ => trivial

end Run

namespace World

variable {w : World} {ev : Evaluator} {v : Value} {vs : List Value} {config : MachineConfig}

theorem blank_genuine (config : MachineConfig) : (blank config).Genuine where
  canonical _ _ _ hi := nomatch hi
  objects r v hv := by
    obtain ⟨proto, hbare⟩ : ∃ proto, (blank config).realm.heap.object r = Object.ofClass .object proto := by
      match r with
      | 0 | 1 => exact ⟨none, rfl⟩
      | 2 | 3 | 4 | 5 => exact ⟨some 1, rfl⟩
      | r + 6 => exact ⟨none, rfl⟩
    rw [hbare] at hv
    exact Object.not_contains_ofClass hv ▸ Heap.knows_empty
  cells c := by
    rw [Scopes.cell, Array.getD_eq_getD_getElem?, Array.getElem?_eq_none (Nat.zero_le c)]
    exact Heap.knows_empty

theorem ofConfig_genuine (config : MachineConfig) : (ofConfig config).Genuine := by
  rw [ofConfig_eq]
  exact Run.installAll_clean.after (blank_genuine config)

end World

/-! ## Sequences of stub calls -/

def Call.values (call : Call) : List Value := call.callee :: call.this :: call.args

/-- The strings among values are at hand. -/
def AtHand (vs us : List Value) : Prop := ∀ v ∈ us, v.isString = true → v ∈ vs

instance (vs us : List Value) : Decidable (AtHand vs us) :=
  inferInstanceAs (Decidable (∀ v ∈ us, v.isString = true → v ∈ vs))

/-- Stub calls one after the other, from a world on in which some values are at hand, and the values that are at hand
after them, the latest first: what they yielded or threw comes in addition. Compiled code in between leaves the
realm alone, but for literals, and passes on only such strings as are at hand. Stubs evaluate what they need with
one of some evaluators. -/
inductive Yields (Nest : Evaluator → Prop) (start : World) (given : List Value) : World → List Value → Prop
  | start : Yields Nest start given start given
  | between {w w₁ : World} {vs : List Value} (h : Yields Nest start given w vs) (hrealm : w₁.realm = w.realm) :
      Yields Nest start given w₁ vs
  | literal {w : World} {vs : List Value} (h : Yields Nest start given w vs) (t : Text) :
      Yields Nest start given (w.withHeap fun heap => (heap.intern t).2) ((w.realm.heap.intern t).1 :: vs)
  | stub {w : World} {vs : List Value} {ev : Evaluator} {s : Stub} {a b c d : UInt64}
      (h : Yields Nest start given w vs) (hev : Nest ev) (htaken : AtHand vs (s.taken w.machine a b c d)) (e : UInt64) :
      Yields Nest start given ((Run.stub ev s a b c d e).after w)
        (Run.passed s.yielded (Run.stub ev s a b c d e w) ++ vs)

/-- Evaluation in which every run of compiled code is a sequence of stub calls, too. It starts with what the call was
given, and ends with a string that is at hand then. Its stubs evaluate a level deeper; at the deepest level
nothing is evaluated any more. -/
def Sequential : (depth : Nat) → Evaluator → Prop
  | 0 => fun ev => ev = Run.evaluator false 0
  | depth + 1 => fun ev => ∃ inner run, Sequential depth inner ∧ ev = Run.evaluatorOver inner run depth ∧
      ∀ call w, ∃ vs, Yields (Sequential depth) w call.values ((run call).after w) vs ∧
        AtHand vs (Run.passed id (run call w))

section

variable {Nest : Evaluator → Prop} {ev : Evaluator} {w w' start : World} {vs given : List Value} {depth : Nat}

theorem Yields.served {s : Stub} {a b c d e : UInt64} {r : UInt64 × UInt64} (h : Yields Nest start given w vs)
    (hev : Nest ev) (htaken : AtHand vs (s.taken w.machine a b c d)) (hrun : Run.stub ev s a b c d e w = .ok r w') :
    Yields Nest start given w' (s.yielded r :: vs) := by
  have hyields := h.stub hev htaken e
  rw [Run.after_ok hrun, hrun] at hyields
  exact hyields

/-- All strings at hand come from the table, if those at the start do. -/
theorem Yields.genuine (hNest : ∀ ev, Nest ev → ev.Honest) (h : Yields Nest start given w vs)
    (hstart : start.Genuine) (hgiven : ∀ v ∈ given, start.realm.heap.Knows v) :
    start.realm.heap.Keeps w.realm.heap ∧ w.Genuine ∧ ∀ v ∈ vs, w.realm.heap.Knows v := by
  induction h with
  | start => exact ⟨.refl _, hstart, hgiven⟩
  | between _ hrealm ih =>
    obtain ⟨hkeeps, hw, hvs⟩ := ih
    rw [hrealm]
    exact ⟨hkeeps, ⟨hrealm ▸ hw.canonical, hrealm ▸ hw.objects, hrealm ▸ hw.cells⟩, hvs⟩
  | @literal w vs _ t ih =>
    obtain ⟨hkeeps, hw, hvs⟩ := ih
    obtain ⟨hlater, hgenuine, hv⟩ :=
      Run.Honest.passed (Run.intern_known t : Run.Honest (fun h v => h.Knows (id v)) (Run.intern t) w) hw
    exact ⟨hkeeps.trans hlater, hgenuine,
      List.forall_mem_cons.2 ⟨hv _ List.mem_cons_self, fun x hx => (hvs x hx).keep hlater⟩⟩
  | @stub w vs ev s a b c d _ hev htaken e ih =>
    obtain ⟨hkeeps, hw, hvs⟩ := ih
    have hhonest := Run.stub_honest (hNest ev hev) s e fun v hv hstring => hvs v (htaken v hv hstring) hstring
    obtain ⟨hlater, hgenuine, hpassed⟩ := hhonest.passed hw
    exact ⟨hkeeps.trans hlater, hgenuine,
      List.forall_mem_append.2 ⟨hpassed, fun x hx => (hvs x hx).keep hlater⟩⟩

theorem Sequential.honest (h : Sequential depth ev) : ev.Honest := by
  induction depth generalizing ev with
  | zero => exact h.symm ▸ Run.evaluator_honest 0
  | succ depth ih =>
    obtain ⟨inner, run, hinner, rfl, hrun⟩ := h
    refine Run.evaluatorOver_honest (ih hinner) (fun call w hcallee hthis hargs => .of_passed fun hw => ?_) depth
    obtain ⟨vs, hyields, hathand⟩ := hrun call w
    obtain ⟨hkeeps, hgenuine, hvs⟩ := hyields.genuine (fun ev => ih) hw
      (List.forall_mem_cons.2 ⟨hcallee, List.forall_mem_cons.2 ⟨hthis, hargs⟩⟩)
    exact ⟨hkeeps, hgenuine, fun v hv hstring => hvs v (hathand v hv hstring) hstring⟩

end

/-! ## Runs on a machine -/

namespace Run

section

variable {α β : Type} {us : List Value} {x : Run α} {f : α → Run β} {w w₁ : World}

/-- A step that leaves the realm alone and throws nothing but some values. -/
structure Still (us : List Value) (x : Run α) (w : World) : Prop where
  realm : (x.after w).realm = w.realm
  thrown : ∀ {v message w₁}, x w = .error (.thrown v message) w₁ → v ∈ us

theorem Still.of_ok {a : α} (h : x w = .ok a w₁) (hrealm : w₁.realm = w.realm) : Still us x w :=
  ⟨(after_ok h).symm ▸ hrealm, fun heq => by cases h.symm.trans heq⟩

theorem Still.of_error {e : Fault} (h : x w = .error e w₁) (hrealm : w₁.realm = w.realm)
    (he : ∀ v ∈ e.values, v ∈ us) : Still us x w := by
  refine ⟨(after_error h).symm ▸ hrealm, fun heq => ?_⟩
  cases h.symm.trans heq
  exact he _ List.mem_cons_self

theorem Still.pure (a : α) : Still us (Pure.pure a : Run α) w := .of_ok rfl rfl

theorem Still.throw {e : Fault} (he : ∀ v ∈ e.values, v ∈ us) : Still us (throw e : Run α) w := .of_error rfl rfl he

theorem Still.throw_next {e : Fault} (he : ∀ v ∈ e.values, v ∈ us) (f : α → Run β) :
    Still us ((MonadExcept.throw e : Run α) >>= f) w := .of_error rfl rfl he

theorem Still.next (hx : Still us x w) (hf : ∀ a w₁, Still us (f a) w₁) : Still us (x >>= f) w := by
  cases hrun : x w with
  | ok a w₁ =>
    have hrealm := hx.realm
    rw [after_ok hrun] at hrealm
    refine ⟨?_, fun heq => (hf a w₁).thrown ((bind_ok hrun).symm.trans heq)⟩
    rw [after_bind_ok hrun, (hf a w₁).realm, hrealm]
  | error e w₁ =>
    have hrealm := hx.realm
    rw [after_error hrun] at hrealm
    refine ⟨(after_bind_error hrun).symm ▸ hrealm, fun heq => ?_⟩
    cases (bind_error hrun).symm.trans heq
    exact hx.thrown hrun

theorem Still.machine {f : Machine → Run β} (hf : Still us (f w.machine) w) : Still us (machine >>= f) w :=
  ⟨(after_bind_ok (machine_run w)).symm ▸ hf.realm, fun heq => hf.thrown ((bind_ok (machine_run w)).symm.trans heq)⟩

theorem modifyMachine_still (f : Machine → Machine) : Still us (modifyMachine f) w := .of_ok rfl rfl

theorem execute_still : Still us execute w := by
  obtain ⟨realm, machine, output, stubCalls⟩ := w
  cases hrun : machine.execute with
  | some m =>
    have h : execute ⟨realm, machine, output, stubCalls⟩ = .ok (m.cpu.reg .rax) ⟨realm, m, output, stubCalls⟩ := by
      rw [execute, hrun]
    exact .of_ok h rfl
  | none =>
    have h : execute ⟨realm, machine, output, stubCalls⟩ =
        .error .crash ⟨realm, Machine.ofConfig ⟨0, 0, 0⟩, output, stubCalls⟩ := by
      rw [execute, hrun]
    exact .of_error h rfl (by simp [Fault.values])

theorem resume_still (r0 r1 : UInt64) : Still us (resume r0 r1) w :=
  .next (modifyMachine_still _) fun _ _ => execute_still

theorem setRegister_still (frame : FrameRef) (r : Register) (v : Value) : Still us (setRegister frame r v) w := by
  unfold setRegister
  split
  · exact modifyMachine_still _
  · exact .throw (by simp [Fault.values])

theorem enterHandler_still (v : Value) (sp : UInt64) (frame : FrameRef) (p : PlacedUnit) (h : Handler)
    (target : UInt64) : Still us (enterHandler v sp frame p h target) w := by
  have hrest (w : World) : Still us (do unwindEnv frame h.level; resume 0 0) w := by
    obtain ⟨e, he⟩ := unwindEnv_ok w frame h.level
    exact .next (.of_ok he rfl) fun _ _ => resume_still _ _
  refine .next (modifyMachine_still _) fun _ _ => ?_
  dsimp only
  split
  · exact .next (modifyMachine_still _) fun _ _ => hrest _
  · exact .next (setRegister_still _ _ _) fun _ _ => .next (setRegister_still _ _ _) fun _ _ => hrest _

theorem deliverFrom_still (v : Value) (message : Text) (fuel : Nat) (sp : UInt64) (frame : FrameRef) :
    Still [v] (deliverFrom v message fuel sp frame) w := by
  induction fuel generalizing sp frame w with
  | zero => exact .throw (by simp [Fault.values])
  | succ fuel ih =>
    refine .machine ?_
    dsimp only
    split
    · exact .throw (by simp [Fault.values])
    · split
      · exact .throw_next (by simp [Fault.values]) _
      · split
        · exact .throw (by simp [Fault.values])
        · split
          · exact enterHandler_still _ _ _ _ _ _
          · exact ih _ _

theorem nativeStart_still : Still us nativeStart w := by
  refine .machine ?_
  dsimp only
  split
  · exact .pure _
  · split
    · exact .pure _
    · exact .throw (by simp [Fault.values])

theorem pushFrame_still (prev : UInt64) (call : Call) : Still us (pushFrame prev call) w := by
  refine .machine ?_
  split
  · exact .of_ok rfl rfl
  · exact .pure _

end

/-- What a run does before compiled code leaves for the first time. -/
def enterRun (image : Image) (call : Call) : Run UInt64 := do
  let (sp, prev) ← nativeStart
  modifyMachine fun m => m.setContextWord Context.nativeSP sp
  match ← pushFrame prev call with
  | none => throw .stackOverflow
  | some frame =>
    modifyMachine fun m => m.enter image frame call.code.entry
    execute

theorem runCall_eq (ev : Evaluator) (image : Image) (call : Call) :
    runCall ev image call = enterRun image call >>= serve ev Machine.stepBound := by
  simp only [runCall, enterRun, bind_assoc]
  refine bind_congr fun start => bind_congr fun _ => bind_congr fun frame? => ?_
  cases frame? with
  | none => rfl
  | some frame => rw [bind_assoc]

theorem enterRun_still {us : List Value} {w : World} (image : Image) (call : Call) :
    Still us (enterRun image call) w := by
  refine .next nativeStart_still fun start _ => ?_
  dsimp only
  refine .next (modifyMachine_still _) fun _ _ => .next (pushFrame_still _ _) fun frame? _ => ?_
  split
  · exact .throw (by simp [Fault.values])
  · exact .next (modifyMachine_still _) fun _ _ => execute_still

def leaving (w : World) : List Value :=
  let p := w.machine.pendingStub
  match Stub.ofNat? p.number.toNat with
  | none => []
  | some s => s.taken w.machine p.a p.b p.c p.d

/-- What comes of the stub that it leaves for. -/
def handed (ev : Evaluator) (w : World) : List Value :=
  let p := w.machine.pendingStub
  match Stub.ofNat? p.number.toNat with
  | none => []
  | some s => passed s.yielded (stub ev s p.a p.b p.c p.d p.e { w with stubCalls := w.stubCalls.push s })

/-- How a run goes on after a stub. -/
def goOn (s : Stub) : Except Fault (UInt64 × UInt64) → Run UInt64
  | .ok (r0, r1) => resume r0 r1
  | .error (.thrown v message) => deliver v message
  | .error (.failure message) =>
    throw (.failure (Text.ofString "stub " ++ Text.ofString s.name ++ Text.ofString ": " ++ message))
  | .error fault => throw fault

/-- Compiled code leaves for stubs with strings that are at hand, until it returns with one. -/
def Frugal (ev : Evaluator) : (fuel : Nat) → (status : UInt64) → List Value → World → Prop
  | 0, _, _, _ => True
  | fuel + 1, status, vs, w =>
    if status = exitReturn.toUInt64 then AtHand vs [⟨w.machine.contextWord Context.result⟩]
    else AtHand vs (leaving w) ∧
      ∀ status' w', serveStub ev w = .ok status' w' → Frugal ev fuel status' (handed ev w ++ vs) w'

section

variable {α β : Type} {x : Run α} {f : Except Fault α → Run β} {us : List Value} {w : World}

/-- After a step that may fail, one that leaves the realm alone. -/
theorem attempt_next_still (hf : ∀ r w₁, (∀ v message, r = .error (.thrown v message) →
      x w = .error (.thrown v message) w₁) → Still us (f r) w₁) :
    ((attempt x >>= f).after w).realm = (x.after w).realm ∧
      ∀ {v message w₁}, (attempt x >>= f) w = .error (.thrown v message) w₁ → v ∈ us := by
  cases hx : x w with
  | ok a w₁ =>
    have hrun : attempt x w = .ok (.ok a) w₁ := by rw [attempt, hx]
    have hstill := hf (.ok a) w₁ fun _ _ heq => by cases heq
    rw [after_bind_ok hrun, bind_ok hrun, after_ok hx]
    exact ⟨hstill.realm, hstill.thrown⟩
  | error e w₁ =>
    rw [after_error hx]
    by_cases he : e.isRecoverable
    · have hrun : attempt x w = .ok (.error e) w₁ := by
        rw [attempt, hx]
        exact if_pos he
      have hstill := hf (.error e) w₁ fun _ _ heq => by rw [hx, Except.error.inj heq]
      rw [after_bind_ok hrun, bind_ok hrun]
      exact ⟨hstill.realm, hstill.thrown⟩
    · have hrun : attempt x w = .error e w₁ := by
        rw [attempt, hx]
        exact if_neg he
      rw [after_bind_error hrun, bind_error hrun]
      refine ⟨rfl, fun heq => ?_⟩
      cases heq
      exact absurd rfl he

end

section

variable {Nest : Evaluator → Prop} {ev : Evaluator} {w start : World} {vs given : List Value}

theorem serveStub_yields (hev : Nest ev) (h : Yields Nest start given w vs) (htaken : AtHand vs (leaving w)) :
    Yields Nest start given ((serveStub ev).after w) (handed ev w ++ vs) ∧
      ∀ {v message w'}, serveStub ev w = .error (.thrown v message) w' → v ∈ handed ev w ++ vs := by
  cases hs : Stub.ofNat? w.machine.pendingStub.number.toNat with
  | none =>
    have hrun : serveStub ev w = .error .crash w := by
      rw [serveStub, bind_ok (machine_run w)]
      dsimp only
      rw [hs]
      rfl
    rw [handed, hs, after_error hrun, hrun]
    exact ⟨h, fun heq => by cases heq⟩
  | some s =>
    rw [leaving, hs] at htaken
    obtain ⟨w₁, hw₁⟩ : ∃ w₁ : World, w₁ = { w with stubCalls := w.stubCalls.push s } := ⟨_, rfl⟩
    obtain ⟨x, hx⟩ : ∃ x, x = stub ev s w.machine.pendingStub.a w.machine.pendingStub.b w.machine.pendingStub.c
        w.machine.pendingStub.d w.machine.pendingStub.e := ⟨_, rfl⟩
    have hrun : serveStub ev w = (attempt x >>= goOn s) w₁ := by
      rw [serveStub, bind_ok (machine_run w), hx, hw₁]
      dsimp only
      rw [hs]
      rfl
    have hhanded : handed ev w = passed s.yielded (x w₁) := by rw [handed, hs, hx, hw₁]
    have hyields : Yields Nest start given (x.after w₁) (handed ev w ++ vs) := by
      rw [hhanded, hx]
      exact .stub (h.between (hw₁ ▸ rfl)) hev (hw₁ ▸ htaken) _
    have hstill : ∀ r w₂, (∀ v message, r = .error (.thrown v message) → x w₁ = .error (.thrown v message) w₂) →
        Still (handed ev w) (goOn s r) w₂ := by
      intro r w₂ hr
      rcases r with e | ⟨r0, r1⟩
      · cases e with
        | thrown v message =>
          rw [hhanded, hr v message rfl]
          exact .machine (deliverFrom_still _ _ _ _ _)
        | _ => exact .throw (by simp [Fault.values])
      · exact resume_still r0 r1
    have hafter : (serveStub ev).after w = (attempt x >>= goOn s).after w₁ := by rw [after, after, hrun]
    obtain ⟨hrealm, hthrown⟩ := attempt_next_still hstill
    rw [hrun, hafter]
    exact ⟨hyields.between hrealm, fun heq => List.mem_append_left vs (hthrown heq)⟩

theorem serve_yields (hev : Nest ev) {fuel : Nat} {status : UInt64} (h : Yields Nest start given w vs)
    (hfrugal : Frugal ev fuel status vs w) :
    ∃ us, Yields Nest start given ((serve ev fuel status).after w) us ∧
      AtHand us (passed id (serve ev fuel status w)) := by
  induction fuel generalizing status w vs with
  | zero => exact ⟨vs, h, fun v hv _ => by cases hv⟩
  | succ fuel ih =>
    rw [Frugal] at hfrugal
    split at hfrugal
    · next hreturn =>
      have hrun : serve ev (fuel + 1) status w = .ok ⟨w.machine.contextWord Context.result⟩ w := by
        rw [serve, if_pos hreturn]
        rfl
      rw [after_ok hrun, hrun]
      exact ⟨vs, h, hfrugal⟩
    · next hstub =>
      obtain ⟨htaken, hnext⟩ := hfrugal
      obtain ⟨hyields, hthrown⟩ := serveStub_yields hev h htaken
      rw [serve, if_neg hstub]
      cases hrun : serveStub ev w with
      | ok status' w' =>
        rw [after_bind_ok hrun, bind_ok hrun]
        exact ih (after_ok hrun ▸ hyields) (hnext status' w' hrun)
      | error e w' =>
        rw [after_bind_error hrun, bind_error hrun]
        refine ⟨_, after_error hrun ▸ hyields, fun v hv _ => ?_⟩
        cases e with
        | thrown u message => exact List.mem_singleton.1 hv ▸ hthrown hrun
        | _ => cases hv

theorem Still.yields {α : Type} {x : Run α} {us : List Value} (hx : Still us x w) (h : Yields Nest start given w vs) :
    Yields Nest start given (x.after w) vs := h.between hx.realm

end

/-- A call of compiled code whose run leaves for stubs only with strings that are at hand. -/
def FrugalCall (ev : Evaluator) (call : Call) (w : World) : Prop :=
  ∀ image status w₁, w.machine.imageOf call.code.entry = some image →
    enterRun image.toImage call w = .ok status w₁ → Frugal ev Machine.stepBound status call.values w₁

section

variable {Nest : Evaluator → Prop} {ev : Evaluator} {call : Call} {w : World}

theorem realm_restoring {α : Type} (x : Run α) : ((restoring x).after w).realm = (x.after w).realm := by
  rw [after, after, restoring]
  cases x w <;> rfl

theorem passed_restoring {α : Type} (x : Run α) (value : α → Value) :
    passed value (restoring x w) = passed value (x w) := by
  rw [restoring]
  cases x w <;> simp only [passed]

theorem invoke_cases (ev : Evaluator) (call : Call) (w : World) :
    (∃ message, invoke ev call w = .error (.failure message) w) ∨
      ∃ image, w.machine.imageOf call.code.entry = some image ∧
        invoke ev call w = restoring (runCall ev image.toImage call) w := by
  unfold invoke
  dsimp only
  split
  · exact .inl ⟨_, rfl⟩
  · rw [bind_ok (machine_run w)]
    cases himage : w.machine.imageOf call.code.entry with
    | none => exact .inl ⟨_, rfl⟩
    | some image => exact .inr ⟨image, rfl, rfl⟩

theorem runCall_yields (hev : Nest ev) {image : LoadedImage} (himage : w.machine.imageOf call.code.entry = some image)
    (hfrugal : FrugalCall ev call w) : ∃ us, Yields Nest w call.values ((runCall ev image.toImage call).after w) us ∧
      AtHand us (passed id (runCall ev image.toImage call w)) := by
  have hstill : Still [] (enterRun image.toImage call) w := enterRun_still image.toImage call
  rw [runCall_eq]
  cases henter : enterRun image.toImage call w with
  | ok status w₁ =>
    rw [after_bind_ok henter, bind_ok henter]
    exact serve_yields hev (after_ok henter ▸ hstill.yields .start) (hfrugal image status w₁ himage henter)
  | error e w₁ =>
    rw [after_bind_error henter, bind_error henter]
    refine ⟨_, after_error henter ▸ hstill.yields .start, fun v hv _ => ?_⟩
    cases e with
    | thrown u message => cases hstill.thrown henter
    | _ => cases hv

theorem invoke_yields (hev : Nest ev) (hfrugal : FrugalCall ev call w) :
    ∃ us, Yields Nest w call.values ((invoke ev call).after w) us ∧ AtHand us (passed id (invoke ev call w)) := by
  rcases invoke_cases ev call w with ⟨message, hrun⟩ | ⟨image, himage, hrun⟩
  · rw [after_error hrun, hrun]
    exact ⟨_, .start, fun v hv _ => by cases hv⟩
  · obtain ⟨us, hyields, hathand⟩ := runCall_yields hev himage hfrugal
    have hafter : (invoke ev call).after w = (restoring (runCall ev image.toImage call)).after w := by
      rw [after, after, hrun]
    refine ⟨us, hyields.between (hafter ▸ realm_restoring _), ?_⟩
    rw [hrun, passed_restoring]
    exact hathand

end

open Classical in
/-- Compiled code on a machine, as long as it makes up no strings. -/
noncomputable def heeding (ev : Evaluator) (call : Call) : Run Value := fun w =>
  if FrugalCall ev call w then invoke ev call w else .error .crash w

/-- Evaluation on a machine on which compiled code makes up no strings. -/
noncomputable def heedful : (fuel : Nat) → Evaluator
  | 0 => evaluator true 0
  | fuel + 1 => evaluatorOver (heedful fuel) (heeding (heedful fuel)) fuel

/-- The runs of such code are sequences of stub calls. -/
theorem heedful_sequential (fuel : Nat) : Sequential fuel (heedful fuel) := by
  induction fuel with
  | zero => rfl
  | succ fuel ih =>
    refine ⟨heedful fuel, heeding (heedful fuel), ih, rfl, fun call w => ?_⟩
    by_cases h : FrugalCall (heedful fuel) call w
    · have hrun : heeding (heedful fuel) call w = invoke (heedful fuel) call w := if_pos h
      rw [after, hrun]
      exact invoke_yields ih h
    · have hrun : heeding (heedful fuel) call w = .error .crash w := if_neg h
      rw [after_error hrun, hrun]
      exact ⟨_, .start, fun v hv _ => by cases hv⟩

end Run

namespace World

variable {w : World} {ev : Evaluator} {v : Value} {vs : List Value} {config : MachineConfig}

/-! ## Canonical strings -/

/-- A text has one value for good: once it is in the table, interning it again gives the same value and changes
nothing, and the text of the value stays. -/
theorem Arises.intern (hw : w.Arises) (t : Text) : ∃ v w₁, Run.intern t w = .ok v w₁ ∧
    (w₁.realm.heap.strings.size < 2 ^ 32 → ∃ n : UInt32, v = Value.string n ∧ n ≠ 0 ∧
      ∀ m w₂, Evolves m w₁ w₂ → w₂.realm.heap.text? v = some t ∧ Run.intern t w₂ = .ok v w₂) := by
  refine ⟨_, _, rfl, fun hsize => ?_⟩
  have hgiven := Heap.string?_intern_self w.realm.heap t
  obtain ⟨n, hv, hn, htext⟩ := (Heap.string?_eq_some_iff (hw.canonical.intern t) hsize).1 hgiven
  refine ⟨n, hv, hn, fun m w₂ hevolves => ⟨Heap.text?_mono hevolves.strings htext, ?_⟩⟩
  exact Run.intern_of_string? (hevolves.string?_eq hgiven)

/-- A compiled function that yields the type of its receiver. -/
def kindOf (call : Call) : Run Value :=
  return ⟨(← Run.stub (Run.evaluator false 0) .typeof call.this.word 0 0 0 0).1⟩

def kindEvaluator : Evaluator := Run.evaluatorOver (Run.evaluator false 0) kindOf 0

theorem kindEvaluator_sequential : Sequential 1 kindEvaluator := by
  refine ⟨_, kindOf, rfl, rfl, fun call w => ?_⟩
  have htaken : AtHand call.values (Stub.typeof.taken w.machine call.this.word 0 0 0) :=
    fun v hv _ => List.mem_singleton.1 hv ▸ List.mem_cons_of_mem _ List.mem_cons_self
  have hnest : Sequential 0 (Run.evaluator false 0) := rfl
  have hyields := Yields.start.stub hnest htaken 0
  have hrun : kindOf call w = .ok (w.realm.heap.intern (w.realm.heap.typeName call.this)).1
      ((Run.stub (Run.evaluator false 0) .typeof call.this.word 0 0 0 0).after w) := rfl
  rw [Run.after_ok hrun, hrun]
  exact ⟨_, hyields, fun v hv _ => List.mem_append_left _ hv⟩

/-- A code with a name in it, under a number. -/
def kindCode (id : UInt32) : MachineCode :=
  ⟨⟨0, id, { Code.ofName [] with names := #[Text.ofString "kind"] }, #[]⟩, 0⟩

/-- Two codes on a machine, a function made of the second one, and an object with this function as a getter. -/
def kinds : World :=
  { ofConfig ⟨0, 0, 0⟩ with machine := { (Machine.ofConfig ⟨0, 0, 0⟩).setFrameWord 0 Frame.lexicalEnv 0 with
    codes := #[kindCode 0, kindCode 1] } }

def kinds₁ : World := (Run.newFunction (kindCode 1) 0).after kinds

def kinds₂ : World := (Run.stub kindEvaluator .loadObject 0 0 0 0 0).after kinds₁

def kinds₃ : World :=
  (Run.stub kindEvaluator (.storeObject .getter) (Heap.value 35).word 0 (Heap.value 33).word 0 0).after kinds₂

def kinds₄ : World := (Run.stub kindEvaluator .loadProp (Heap.value 35).word 0 0 0 0).after kinds₃

def kinds₅ : World := (Run.stub kindEvaluator .typeof (Heap.value 35).word 0 0 0 0).after kinds₄

-- One evaluation for all of them, since each would build the first world again.
theorem kinds_run :
    0 < kinds.realm.scopes.envs.size ∧ (Run.newFunction (kindCode 1) 0).yield? kinds = some 33 ∧
    (Run.stub kindEvaluator .loadObject 0 0 0 0 0).yield? kinds₁ = some ((Heap.value 35).word, 0) ∧
    (Run.stub kindEvaluator (.storeObject .getter) (Heap.value 35).word 0 (Heap.value 33).word 0 0).yield? kinds₂ =
      some (0, 0) ∧
    (Run.stub kindEvaluator .loadProp (Heap.value 35).word 0 0 0 0).yield? kinds₃ = some ((Value.string 23).word, 0) ∧
    (Run.stub kindEvaluator .typeof (Heap.value 35).word 0 0 0 0).yield? kinds₄ = some ((Value.string 23).word, 0) ∧
    kinds₅.realm.heap.strings.size = 23 ∧
    kinds₅.realm.heap.text? (Value.string 23) = some (Text.ofString "object") := by
  decide +kernel

theorem kinds_loadFunction :
    Run.stub kindEvaluator .loadFunction 0 0 0 0 0 kinds = .ok ((Heap.value 33).word, 0) kinds₁ := by
  obtain ⟨hglobal, hfunction, -⟩ := kinds_run
  have hframe : (kinds.machine.frameWord 0 Frame.lexicalEnv).toNat = 0 := by
    rw [kinds]
    exact congrArg UInt64.toNat (Machine.readWord_writeWord_self ..)
  have hlexical : Run.lexicalEnv 0 kinds = .ok 0 kinds := by
    rw [Run.lexicalEnv, Run.bind_ok (Run.machine_run kinds), hframe, Run.envOrCrash, Run.bind_ok (Run.realm_run kinds),
      if_pos hglobal]
    rfl
  have hload : Run.loadFunction 0 0 kinds = .ok (Heap.value 33) kinds₁ := by
    have hparent : Run.codeOrCrash 0 kinds = .ok (kindCode 0) kinds := rfl
    have hcode : Run.codeOrCrash ((kindCode 0).nested 0).toUInt32 kinds = .ok (kindCode 1) kinds := rfl
    have hmake : (Run.newFunction (kindCode 1) 0 >>= fun r => return Heap.value r : Run Value) kinds =
        .ok (Heap.value 33) kinds₁ := Run.bind_ok (Run.eq_ok_of_yield? hfunction)
    exact (Run.bind_ok hparent).trans ((Run.bind_ok hcode).trans ((Run.bind_ok hlexical).trans hmake))
  exact Run.bind_ok hload

end World

end RegisterJit
