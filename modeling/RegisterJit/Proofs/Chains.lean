import RegisterJit.Proofs.Service

/-!
# Chains end

A world is reached from a fresh one by calls of stubs and functions, by compiling and running
programs, and by whatever compiled code does to the memory of its machine. In every world that is
reached, objects inherit from older ones and environments are inside older ones, so the walks along
their chains end where the chain does.

`Step` is one thing that may be done in a world, `Reachable` what steps lead to from a fresh realm. `Step.grows`
shows that every step is made of the changes in `Evolution`, so invariants of changes hold in every world that
is reached. Here it is `Realm.Sound`: prototypes are older than what inherits from them, and environments inside
older ones. A walk is told by `Heap.Ascends` and `Scopes.Ascends`, which follow the links one by one, and
`chains_finite` says that the walks of the runtime, which count down a bound, give exactly these lists and never
stop at the bound. `Reachable` is also what the theorems about arrays, names, loops and permanence are stated
for.
-/

namespace RegisterJit

/-! ## Worlds that are reached -/

namespace World

/-- One thing that is done in a world. Compiled code may leave its machine in any state, and stubs may
be called with any words. -/
inductive Step (w : World) : World → Prop
  | machine (x : Machine) : Step w { w with machine := x }
  | stub (attached : Bool) (fuel : Nat) (s : Stub) (a b c d e : UInt64) :
      Step w ((Run.stub (Run.evaluator attached fuel) s a b c d e).after
        { w with stubCalls := w.stubCalls.push s })
  | call (attached : Bool) (fuel : Nat) (fn this : Value) (args : List Value) :
      Step w ((Run.callWith (Run.evaluator attached fuel) attached fn this args).after w)
  | native (name : Text) (arity : Int) (b : Builtin) (hb : ∀ p, b ≠ .errorConstructor p) :
      Step w ((Run.newBuiltin name arity b).after w)
  | compile (c : Code) : Step w ((Run.compile c).after w)
  | run (code : MachineCode) (this : Value) (args : List Value) :
      Step w ((Run.runProgram code this args).after w)
  | unwind (frame : UInt64) (level : UInt32) : Step w ((Run.unwindEnv frame level).after w)

/-- Any number of things that are done. -/
abbrev Steps : World → World → Prop := Relation.ReflTransGen Step

/-- A world that is reached from a fresh one. -/
def Reachable (w : World) : Prop := ∃ config, (ofConfig config).Steps w

/-- The world after a stub that no machine code waits for. -/
def serving (w : World) (s : Stub) (a b c d e : UInt64) : World :=
  (Run.stub (Run.evaluator false 0) s a b c d e).after { w with stubCalls := w.stubCalls.push s }

theorem Reachable.serving {w : World} (h : w.Reachable) (s : Stub) (a b c d e : UInt64) :
    (w.serving s a b c d e).Reachable := by
  obtain ⟨config, hsteps⟩ := h
  exact ⟨config, hsteps.tail (.stub false 0 s a b c d e)⟩

variable {m : Moment} {w w₁ : World}

theorem Step.grows (h : w.Step w₁) (hpast : w.Past m) (hsound : w.realm.Sound) : Grows m w w₁ := by
  cases h with
  | machine x => exact ((Change.machine x).growth rfl).grows
  | stub attached fuel s a b c d e =>
    have hleave : w.Change m { w with stubCalls := w.stubCalls.push s } := .leave s
    refine (hleave.growth rfl).grows.trans ((Run.stub_tame (Run.evaluator_tame _ _) s a b c d e ?_).grows
      (hleave.past hpast) (hleave.sound hsound))
    exact mem_calledSince_push hpast s
  | call attached fuel fn this args =>
    exact (Run.callWith_tame (Run.evaluator_tame _ _) _ _ _ _).grows hpast hsound
  | native name arity b hb =>
    exact (Run.newBuiltin_tame _ _ fun p hp => absurd hp (hb p)).grows hpast hsound
  | compile c => exact (Run.compile_tame c).grows hpast hsound
  | run code this args => exact (Run.runProgram_tame _ _ _).grows hpast hsound
  | unwind frame level => exact (Run.unwindEnv_tame _ _).grows hpast hsound

theorem Step.evolves (h : w.Step w₁) (hpast : w.Past m) (hsound : w.realm.Sound) :
    Evolves m w w₁ := (h.grows hpast hsound).evolves

theorem Steps.grows (h : w.Steps w₁) (hpast : w.Past m) (hsound : w.realm.Sound) : Grows m w w₁ := by
  induction h with
  | refl => exact .refl
  | tail _ hstep ih => exact ih.trans (hstep.grows (ih.evolves.past hpast) (ih.evolves.sound hsound))

theorem Steps.evolves (h : w.Steps w₁) (hpast : w.Past m) (hsound : w.realm.Sound) :
    Evolves m w w₁ := (h.grows hpast hsound).evolves

end World

/-! ## The first world -/

namespace Realm

theorem bare_sound : bare.Sound := by
  refine ⟨by decide, by decide, by decide, by decide, by decide, by decide, fun {q o p} ho hp => ?_,
    fun {q o p} ho hmakes => ?_, fun {e p d} he => ?_⟩
  · match q with
    | 0 => cases ho
    | 1 => cases ho; cases hp
    | 2 | 3 | 4 | 5 => cases ho; cases hp; decide
    | q + 6 => cases ho
  · obtain ⟨name, hfunction⟩ := hmakes
    match q with
    | 0 => cases ho
    | 1 | 2 | 3 | 4 | 5 => cases ho; cases hfunction
    | q + 6 => cases ho
  · match e with
    | 0 => cases he; rfl
    | e + 1 => cases he

end Realm

namespace Run

variable {m : Moment} {w : World} (hm : m.objects = 0)

include hm

theorem defineAny_tame (r : ObjectRef) {key : Text} (hkey : key.all Text.isDigit = false)
    (p : Property) : Tame m (define r key p) w := by
  cases r with
  | zero => exact ⟨fun _ _ => .refl⟩
  | succ r => exact defineNamed_tame (hm ▸ Nat.succ_pos r) hkey

theorem install_tame (r : ObjectRef) {name : Text} (hname : name.all Text.isDigit = false)
    (arity : Int) {b : Builtin} (hb : ∀ p, b = .errorConstructor p → w.realm.heap.Has p) :
    Tame m (install r name arity b) w :=
  .next (newBuiltin_tame _ _ hb) fun _ _ => .next (defineAny_tame hm _ hname _) fun _ _ => .pure _

theorem installError_tame (kind : ErrorKind) : Tame m (installError kind) w := by
  refine .realm ?_
  have hrest {proto : ObjectRef} {w' : World} (hproto : w'.realm.heap.Has proto) : Tame m (do
      let ctor ← install w.realm.globalObject kind.name 1 (.errorConstructor proto)
      define ctor "prototype" (Property.fixed (Heap.value proto))
      define proto "constructor" (Property.hidden (Heap.value ctor))
      modifyRealm fun r => { r with constructors := r.constructors ++ [(kind, ctor)] }) w' :=
    .next (install_tame hm _ (by cases kind <;> decide +kernel) _ fun p hp => by
        cases hp; exact hproto) fun _ _ =>
      .next (defineAny_tame hm _ (by decide +kernel) _) fun _ _ =>
        .next (defineAny_tame hm _ (by decide +kernel) _) fun _ w₁ =>
          .of_change (.install hm _ w₁.realm.evalFunction) rfl
  dsimp only
  split
  · exact .bind (.pure _) fun _ hsound _ _ h => by cases h; exact hrest hsound.errorProto
  · refine .bind (alloc_tame (fun hw p hp => by cases hp; exact hw.errorProto) (fun _ => nofun) (fun _ => nofun)
      Object.keyed_ofClass) fun _ _ proto w₁ h => ?_
    have hproto : w₁.realm.heap.Has proto := by
      cases h
      exact ⟨Nat.succ_pos _, Nat.le_of_eq (Heap.size_alloc _ _).symm⟩
    exact .trail (intern_tame _) fun _ _ h => .trail (defineAny_tame hm _ (by decide +kernel) _) fun _ _ h' =>
      .read rfl fun _ h'' => by
        cases h''
        exact hrest (hproto.mono (Nat.le_trans h.objects_le h'.objects_le))

theorem installAll_tame : Tame m installAll w := by
  have install {r : ObjectRef} {name : Text} (hname : name.all Text.isDigit = false) {arity : Int}
      {b : Builtin} {β : Type} {f : ObjectRef → Run β} (hb : ∀ p, b ≠ .errorConstructor p)
      (hf : ∀ r w, Tame m (f r) w) (w : World) : Tame m (install r name arity b >>= f) w :=
    .next (install_tame hm _ hname _ fun p hp => absurd hp (hb p)) hf
  have define {r : ObjectRef} {key : Text} (hkey : key.all Text.isDigit = false) {p : Property}
      {β : Type} {f : Unit → Run β} (hf : ∀ w, Tame m (f ()) w) (w : World) :
      Tame m (define r key p >>= f) w :=
    .next (defineAny_tame hm _ hkey _) fun _ => hf
  have intern {t : Text} {β : Type} {f : Value → Run β} (hf : ∀ v w, Tame m (f v) w) (w : World) :
      Tame m (intern t >>= f) w := .next (intern_tame _) hf
  refine .realm ?_
  dsimp only
  iterate 8 refine install (by decide +kernel) (by simp) (fun _ w => ?_) w
  refine intern (fun _ w => define (by decide +kernel) (fun w => ?_) w) w
  refine intern (fun _ w => define (by decide +kernel) (fun w => ?_) w) w
  refine install (by decide +kernel) (by simp) (fun _ w => ?_) w
  refine .next (.forM (fun kind w => installError_tame hm kind) _) fun _ w => ?_
  iterate 2 refine install (by decide +kernel) (by simp) (fun _ w => ?_) w
  refine .next (.of_change (.install hm w.realm.constructors _) rfl) fun _ w => ?_
  iterate 4 refine install (by decide +kernel) (by simp) (fun _ w => ?_) w
  refine define (by decide +kernel) (fun w => ?_) w
  refine install (by decide +kernel) (by simp) (fun _ w => ?_) w
  iterate 4 refine define (by decide +kernel) (fun w => ?_) w
  exact defineAny_tame hm _ (by decide +kernel) _

end Run

namespace World

def blank (config : MachineConfig) : World := ⟨Realm.bare, Machine.ofConfig config, #[], #[]⟩

theorem ofConfig_eq (config : MachineConfig) :
    ofConfig config = Run.installAll.after (blank config) := by
  rw [ofConfig, Run.after, EStateM.run, ← blank]
  generalize Run.installAll (blank config) = result
  cases result <;> rfl

theorem ofConfig_grows (config : MachineConfig) : Grows ⟨0, 0⟩ (blank config) (ofConfig config) := by
  rw [ofConfig_eq]
  exact (Run.installAll_tame (m := ⟨0, 0⟩) rfl).grows ⟨Nat.zero_le _, Nat.zero_le _⟩ Realm.bare_sound

theorem ofConfig_evolves (config : MachineConfig) : Evolves ⟨0, 0⟩ (blank config) (ofConfig config) :=
  (ofConfig_grows config).evolves

theorem ofConfig_sound (config : MachineConfig) : (ofConfig config).realm.Sound :=
  (ofConfig_evolves config).sound Realm.bare_sound

theorem Reachable.sound {w : World} (h : w.Reachable) : w.realm.Sound := by
  obtain ⟨config, hsteps⟩ := h
  exact (hsteps.evolves (past_moment _) (ofConfig_sound config)).sound (ofConfig_sound config)

end World

/-! ## Walks -/

namespace Heap

theorem toNat_value {r : Nat} (hr : r < 2 ^ 32) : (value r).word.toNat = 16 * r := by
  rw [value, Value.object, UInt64.toNat_shiftLeft, Nat.shiftLeft_eq]
  simp only [UInt32.toNat_toUInt64, Nat.toUInt32_eq, UInt32.toNat_ofNat', Nat.mod_eq_of_lt hr]
  change r * 16 % 2 ^ 64 = 16 * r
  omega

theorem handle_value {r : Nat} (hr : r < 2 ^ 32) : (value r).handle.toNat = r := by
  rw [Value.handle, UInt64.toNat_toUInt32, UInt64.toNat_shiftRight, toNat_value hr, Nat.shiftRight_eq_div_pow]
  change 16 * r / 16 % 2 ^ 32 = r
  omega

theorem ref?_value {r : Nat} (hpos : 0 < r) (hr : r < 2 ^ 32) : ref? (value r) = some r := by
  have hword := toNat_value hr
  rw [ref?, if_pos (Value.isObject_iff.2 ⟨by omega, by omega, by omega⟩), handle_value hr]

/-- Going up from an object to those it inherits from, however many there are. -/
inductive Ascends (h : Heap) : Option ObjectRef → List (ObjectRef × Object) → Prop
  | stop : Ascends h none []
  | step {r : ObjectRef} {o : Object} {links : List (ObjectRef × Object)}
      (ho : h.object? r = some o) (rest : Ascends h o.proto links) :
      Ascends h (some r) ((r, o) :: links)

theorem Ascends.unique {h : Heap} {start : Option ObjectRef} {links links' : List (ObjectRef × Object)}
    (hlinks : h.Ascends start links) (hlinks' : h.Ascends start links') : links = links' := by
  induction hlinks generalizing links' with
  | stop =>
    cases hlinks'
    rfl
  | step ho _ ih =>
    cases hlinks' with
    | step ho' rest' =>
      obtain rfl := Option.some.inj (ho.symm.trans ho')
      rw [ih rest']

theorem chainFrom_ascends {realm : Realm} (hsound : realm.Sound) {fuel : Nat}
    {start : Option ObjectRef} (hstart : ∀ r, start = some r → realm.heap.Has r ∧ r < fuel) :
    realm.heap.Ascends start (realm.heap.chainFrom fuel start) := by
  induction fuel generalizing start with
  | zero =>
    cases start with
    | none => exact .stop
    | some r => exact absurd (hstart r rfl).2 (Nat.not_lt_zero _)
  | succ fuel ih =>
    cases start with
    | none => exact .stop
    | some r =>
      obtain ⟨hr, hlt⟩ := hstart r rfl
      refine .step hr.object? (ih fun p hp => ?_)
      obtain ⟨hpos, hless⟩ := hsound.protos hr.object? hp
      exact ⟨⟨hpos, Nat.le_trans (Nat.le_of_lt hless) hr.2⟩,
        Nat.lt_of_lt_of_le hless (Nat.le_of_lt_succ hlt)⟩

theorem chain_ascends {realm : Realm} (hsound : realm.Sound) {r : ObjectRef}
    (hr : realm.heap.Has r) : realm.heap.Ascends (some r) (realm.heap.chain r) :=
  chainFrom_ascends hsound fun q hq => by
    cases hq
    exact ⟨hr, Nat.lt_succ_self _⟩

end Heap

namespace Scopes

/-- Going out from an environment to those around it, however many there are. -/
inductive Ascends (s : Scopes) : Option EnvRef → List EnvRef → Prop
  | stop : Ascends s none []
  | step {e : EnvRef} {env : Env} {links : List EnvRef} (he : s.envs[e]? = some env)
      (rest : Ascends s env.parent links) : Ascends s (some e) (e :: links)

theorem exists_ascends {realm : Realm} (hsound : realm.Sound) (e : Nat)
    (he : e < realm.scopes.envs.size) :
    ∃ links, realm.scopes.Ascends (some e) links ∧ links.length ≤ e + 1 := by
  induction e using Nat.strongRecOn with
  | ind e ih =>
    obtain ⟨env, henv⟩ : ∃ env, realm.scopes.envs[e]? = some env :=
      ⟨_, Array.getElem?_eq_getElem he⟩
    have hparents := hsound.parents (Scopes.place?_eq henv)
    cases hp : env.parent with
    | none => exact ⟨[e], .step henv (hp ▸ .stop), Nat.succ_le_succ (Nat.zero_le _)⟩
    | some p =>
      simp only [hp] at hparents
      obtain ⟨hless, parent', hplace, -⟩ := hparents
      obtain ⟨links, hlinks, hlength⟩ := ih p hless (lt_size_iff.2 ⟨_, hplace⟩)
      exact ⟨e :: links, .step henv (hp ▸ hlinks), Nat.succ_le_succ (Nat.le_trans hlength hless)⟩

section

variable {s : Scopes} {start : Option EnvRef} {links : List EnvRef}

theorem Ascends.resolveFrom (h : s.Ascends start links) (heap : Heap) (name : Text) {fuel : Nat}
    (hfuel : links.length ≤ fuel) :
    s.resolveFrom heap name fuel start = links.findSome? fun e => s.resolveIn? heap e name := by
  induction h generalizing fuel with
  | stop => cases fuel <;> rfl
  | @step e env links he rest ih =>
    cases fuel with
    | zero => exact absurd hfuel (Nat.not_succ_le_zero _)
    | succ fuel =>
      rw [Scopes.resolveFrom, List.findSome?_cons]
      cases s.resolveIn? heap e name with
      | some ref => rfl
      | none =>
        dsimp only
        rw [env_eq he, ih (Nat.le_of_succ_le_succ hfuel)]

theorem Ascends.outer {e : EnvRef} (h : s.Ascends (some e) links) (nest : Nat) :
    s.outer nest e = links[nest]? := by
  induction nest generalizing e links with
  | zero => cases h; rfl
  | succ nest ih =>
    cases h with
    | @step _ env links he rest =>
      rw [Scopes.outer, env_eq he, List.getElem?_cons_succ]
      cases hp : env.parent with
      | none =>
        rw [hp] at rest
        cases rest
        rfl
      | some p => exact ih (hp ▸ rest)

theorem Ascends.unwindFrom {e : EnvRef} (h : s.Ascends (some e) links) (depth : Nat) {fuel : Nat}
    (hfuel : links.length ≤ fuel) :
    links.find? (fun e => (s.env e).depth ≤ depth || (s.env e).parent.isNone) =
      some (s.unwindFrom depth fuel e) := by
  induction fuel generalizing e links with
  | zero => cases h; exact absurd hfuel (Nat.not_succ_le_zero _)
  | succ fuel ih =>
    cases h with
    | @step _ env links he rest =>
      rw [Scopes.unwindFrom, List.find?_cons, env_eq he]
      cases hp : env.parent with
      | none => simp
      | some p =>
        simp only [Option.isNone_some, Bool.or_false]
        by_cases hdepth : depth < env.depth
        · rw [if_pos hdepth, decide_eq_false (Nat.not_le.2 hdepth)]
          exact ih (hp ▸ rest) (Nat.le_of_succ_le_succ hfuel)
        · rw [if_neg hdepth, decide_eq_true (Nat.not_lt.1 hdepth)]

end

end Scopes

namespace World

/-- Chains are finite. In every world that is reached, an object inherits from nothing or from an object
with a smaller number, an environment is inside nothing or an environment with a smaller number and
one level less, and both are found under their numbers: in the handles of values, as long as the
numbers fit, and in the words of frames. So the walks along the chains are complete: the bounds with
which objects are searched for keys and environments for names are never reached. -/
theorem chains_finite {w : World} (h : w.Reachable) :
    (∀ r o, w.realm.heap.object? r = some o →
      (∀ p, o.proto = some p → p < r ∧ ∃ o', w.realm.heap.object? p = some o') ∧
      (r < 2 ^ 32 → w.realm.heap.object? (Heap.value r).handle.toNat = some o) ∧
      w.realm.heap.Ascends (some r) (w.realm.heap.chain r)) ∧
    ∀ (e : EnvRef) env, w.realm.scopes.envs[e]? = some env →
      (∀ p, env.parent = some p → p < e ∧
        ∃ env', w.realm.scopes.envs[p]? = some env' ∧ env.depth = env'.depth + 1) ∧
      (e < 2 ^ 64 → w.realm.scopes.envs[e.toUInt64.toNat]? = some env) ∧
      ∃ links, w.realm.scopes.Ascends (some e) links ∧
        (∀ name, w.realm.scopes.resolve w.realm.heap e name =
          links.findSome? fun e => w.realm.scopes.resolveIn? w.realm.heap e name) ∧
        (∀ nest, w.realm.scopes.outer nest e = links[nest]?) ∧
        ∀ depth, links.find? (fun e => (w.realm.scopes.env e).depth ≤ depth ||
          (w.realm.scopes.env e).parent.isNone) = some (w.realm.scopes.unwind depth e) := by
  have hsound := h.sound
  refine ⟨fun r o ho => ⟨fun p hp => ?_, fun hr => ?_, ?_⟩, fun e env he => ⟨fun p hp => ?_, fun h => ?_, ?_⟩⟩
  · have hr : w.realm.heap.Has r := Heap.has_iff.2 ⟨o, ho⟩
    obtain ⟨hpos, hlt⟩ := hsound.protos ho hp
    exact ⟨hlt, Heap.has_iff.1 ⟨hpos, Nat.le_trans (Nat.le_of_lt hlt) hr.2⟩⟩
  · rw [Heap.handle_value hr]
    exact ho
  · exact Heap.chain_ascends hsound (Heap.has_iff.2 ⟨o, ho⟩)
  · have hparents := hsound.parents (Scopes.place?_eq he)
    simp only [hp] at hparents
    obtain ⟨hlt, parent', hplace, hpos⟩ := hparents
    rw [Scopes.place?] at hplace
    obtain ⟨env', henv', heq⟩ := Option.map_eq_some_iff.1 hplace
    refine ⟨hlt, env', henv', ?_⟩
    have : env'.depth = env.depth - 1 := congrArg Prod.snd heq
    omega
  · rw [Nat.toUInt64_eq, UInt64.toNat_ofNat', Nat.mod_eq_of_lt h]
    exact he
  · obtain ⟨links, hlinks, hlength⟩ := Scopes.exists_ascends hsound e
      (Array.getElem?_eq_some_iff.1 he).1
    exact ⟨links, hlinks, fun name => hlinks.resolveFrom _ name hlength, fun nest => hlinks.outer nest,
      fun depth => hlinks.unwindFrom depth hlength⟩

theorem after_loadObject (ev : Evaluator) (a b c d e : UInt64) (w : World) :
    (Run.stub ev .loadObject a b c d e).after w =
      w.withHeap fun h => (h.alloc (Object.ofClass .object (some w.realm.objectProto))).2 :=
  rfl

theorem chains_finite_newObject : ∃ (w : World) (r : ObjectRef) (o : Object), w.Reachable ∧
    w.realm.heap.object? r = some o ∧ (∃ p, o.proto = some p ∧ p < r) ∧
      w.realm.heap.Ascends (some r) (w.realm.heap.chain r) := by
  obtain ⟨w, config, hsteps⟩ : ∃ w : World, w.Reachable := ⟨_, ⟨0, 0, 0⟩, .refl⟩
  have hstep := Step.stub (w := w) true 0 .loadObject 0 0 0 0 0
  rw [after_loadObject] at hstep
  have hobject := Heap.object?_alloc w.realm.heap
    (Object.ofClass .object (some w.realm.objectProto)) (w.realm.heap.objects.size + 1)
  rw [if_pos rfl] at hobject
  have hreachable : Reachable _ := ⟨config, hsteps.tail hstep⟩
  obtain ⟨hproto, -, hascends⟩ := (chains_finite hreachable).1 _ _ hobject
  exact ⟨_, _, _, hreachable, hobject, ⟨_, rfl, (hproto _ rfl).1⟩, hascends⟩

end World

end RegisterJit
