import Mathlib.Logic.Relation
import RegisterJit.Proofs.Heaps
import RegisterJit.Proofs.Ownership

/-!
# How a world changes

Everything that a run does to its world is done by a few kinds of changes: compiled code runs, a text
is interned, an object is made, a property is added, assigned or deleted where its attributes allow
it, an environment is entered, a cell is written. Three stubs may do more. Facts about runs follow
from what one change does.

`World.Change` lists the changes, each with what has to hold for it. `Change.sound`, `Change.objects_le` and the
like say what one change keeps, and `Evolves` is any number of them after a moment, so that each of these facts
is also one about runs. `Realm.Sound` is the main one: chains of prototypes and environments lead to older
things and end. The changes of three stubs are kept apart by the record of calls, so that a theorem can say
which of them have to be absent. `Conduct` and `Service` show that everything the runtime does is made of these
changes, and from then on only single changes have to be looked at.
-/

namespace RegisterJit

/-! ## What does not change -/

namespace Object

/-- Two states of one object. What it is and what it inherits from is settled when it is made. -/
structure Same (o o' : Object) : Prop where
  cls : o'.cls = o.cls
  proto : o'.proto = o.proto
  function : o'.function = o.function

theorem Same.refl (o : Object) : o.Same o := ⟨rfl, rfl, rfl⟩

theorem same_define (o : Object) (key : Text) (p : Property) : o.Same (o.define key p) :=
  ⟨rfl, rfl, rfl⟩

theorem same_remove (o : Object) (key : Text) : o.Same (o.remove key) := by
  unfold remove
  split <;> exact ⟨rfl, rfl, rfl⟩

/-- Two states of one object that differ in its elements and in what it wraps. -/
structure Alike (o o' : Object) : Prop extends o.Same o' where
  props : o'.props = o.props
  keys : o'.keys = o.keys
  enumeration : o'.enumeration = o.enumeration

theorem alike_setElements (o : Object) (i : Nat) (vs : List Value) : o.Alike (o.setElements i vs) := by
  unfold setElements
  dsimp only
  split <;> exact ⟨⟨rfl, rfl, rfl⟩, rfl, rfl, rfl⟩

theorem alike_setElement (o : Object) (i : Nat) (v : Value) : o.Alike (o.setElement i v) := by
  unfold setElement
  dsimp only
  split <;> exact ⟨⟨rfl, rfl, rfl⟩, rfl, rfl, rfl⟩

/-- Whether an object is a constructor whose instances inherit from another. -/
def Makes (o : Object) (p : ObjectRef) : Prop :=
  ∃ name, o.function = some ⟨name, .builtin (.errorConstructor p)⟩

theorem Same.makes {o o' : Object} (h : o.Same o') {p : ObjectRef} : o'.Makes p ↔ o.Makes p := by
  rw [Makes, Makes, h.function]

/-- Whether an object is a function that was made in an environment. -/
def Closes (o : Object) (e : EnvRef) : Prop :=
  ∃ name code, o.function = some ⟨name, .compiled code e⟩

theorem Same.closes {o o' : Object} (h : o.Same o') {e : EnvRef} : o'.Closes e ↔ o.Closes e := by
  rw [Closes, Closes, h.function]

end Object

/-- The order of creation is that of the chains: objects inherit from older ones, and environments
are inside older ones. -/
structure Realm.Sound (r : Realm) : Prop where
  objectProto : r.heap.Has r.objectProto
  functionProto : r.heap.Has r.functionProto
  arrayProto : r.heap.Has r.arrayProto
  errorProto : r.heap.Has r.errorProto
  globalObject : r.heap.Has r.globalObject
  globalEnv : r.globalEnv < r.scopes.envs.size
  protos : ∀ {q : Nat} {o p}, r.heap.object? q = some o → o.proto = some p → 0 < p ∧ p < q
  makers : ∀ {q o p}, r.heap.object? q = some o → o.Makes p → r.heap.Has p
  parents : ∀ {e : Nat} {parent depth}, r.scopes.place? e = some (parent, depth) →
    match parent with
    | none => depth = 0
    | some p => p < e ∧ ∃ parent', r.scopes.place? p = some (parent', depth - 1) ∧ 0 < depth

/-- A moment of a run: how many objects there are, and how many stubs were called. -/
structure Moment where
  objects : Nat
  stubs : Nat

namespace World

variable {m : Moment} {w w₁ w₂ : World}

def withHeap (w : World) (f : Heap → Heap) : World :=
  { w with realm := { w.realm with heap := f w.realm.heap } }

def withScopes (w : World) (f : Scopes → Scopes) : World :=
  { w with realm := { w.realm with scopes := f w.realm.scopes } }

def withObject (w : World) (r : ObjectRef) (f : Object → Object) : World :=
  w.withHeap fun h => h.modify r f

def own? (w : World) (r : ObjectRef) (key : Text) : Option Property :=
  (w.realm.heap.object r).own? key

/-- How far a run has come. -/
def moment (w : World) : Moment := ⟨w.realm.heap.objects.size, w.stubCalls.size⟩

/-- Whether a moment has passed. -/
structure Past (w : World) (m : Moment) : Prop where
  objects : m.objects ≤ w.realm.heap.objects.size
  stubs : m.stubs ≤ w.stubCalls.size

theorem past_moment (w : World) : w.Past w.moment := ⟨Nat.le_refl _, Nat.le_refl _⟩

/-- The stubs that were called since a moment. -/
def calledSince (w : World) (m : Moment) : List Stub := w.stubCalls.toList.drop m.stubs

end World

/-- An environment that is entered with neither bindings nor slots. -/
def EnvKind.Bare : EnvKind → Prop
  | .declarative bindings _ count => bindings = [] ∧ count = 0
  | .object _ => True

namespace World

variable {m : Moment} {w w₁ w₂ : World}

/-! ## Changes -/

/-- A change that a run makes. Objects that were made after the moment may still be under
construction. Object literals replace properties, declarations of functions make variables undefined,
constants are initialised, and loops over keys go on or end, by the stubs for that. -/
inductive Change (m : Moment) (w : World) : World → Prop
  | machine (x : Machine) : Change m w { w with machine := x }
  | print (t : Text) : Change m w { w with output := w.output.push t }
  | leave (s : Stub) : Change m w { w with stubCalls := w.stubCalls.push s }
  | install (hm : m.objects = 0) (constructors : List (ErrorKind × ObjectRef))
      (evalFunction : ObjectRef) :
      Change m w { w with realm :=
        { w.realm with constructors := constructors, evalFunction := evalFunction } }
  | intern (t : Text) : Change m w (w.withHeap fun h => (h.intern t).2)
  | create (o : Object) (hproto : ∀ p, o.proto = some p → w.realm.heap.Has p)
      (hmakes : ∀ p, o.Makes p → w.realm.heap.Has p)
      (hcloses : ∀ e, o.Closes e → e < w.realm.scopes.envs.size) (hkeyed : o.Keyed) :
      Change m w (w.withHeap fun h => (h.alloc o).2)
  | construct (r : Nat) (f : Object → Object) (hr : m.objects < r) (hf : ∀ o : Object, o.Same (f o))
      (hkeyed : ∀ o : Object, o.Keyed → (f o).Keyed) : Change m w (w.withObject r f)
  | content (r : ObjectRef) (f : Object → Object) (hf : ∀ o : Object, o.Alike (f o)) :
      Change m w (w.withObject r f)
  | iterate (hs : .forInEnumerate ∈ w.calledSince m ∨ .forInLeave ∈ w.calledSince m) (r : ObjectRef)
      (e : Option Enumeration) : Change m w (w.withObject r fun o => { o with enumeration := e })
  | add (r : ObjectRef) (key : Text) (p : Property) (hown : w.own? r key = none)
      (hp : p.enumerable = true) : Change m w (w.withObject r fun o => o.define key p)
  | assign (r : ObjectRef) (key : Text) (p : Property) (old v : Value)
      (hown : w.own? r key = some p) (hbody : p.body = .data old true) :
      Change m w (w.withObject r fun o => o.define key { p with body := .data v true })
  | delete (r : ObjectRef) (key : Text) (p : Property) (hown : w.own? r key = some p)
      (hp : p.configurable = true) : Change m w (w.withObject r fun o => o.remove key)
  | literal (part : PropertyPart) (hs : .storeObject part ∈ w.calledSince m) (r : ObjectRef)
      (key : Text) (p : Property)
      (hp : p.enumerable = true ∨ ∃ q, w.own? r key = some q ∧ p.enumerable = q.enumerable) :
      Change m w (w.withObject r fun o => o.define key p)
  | redeclare (configurable : Bool) (hs : .instantiate false configurable ∈ w.calledSince m)
      (r : ObjectRef) (key : Text) (p : Property) (old : Value) (writable : Bool)
      (hown : w.own? r key = some p) (hbody : p.body = .data old writable) :
      Change m w (w.withObject r fun o =>
        o.define key { p with body := .data Value.undefined writable })
  | enter (parent : Nat) (kind : EnvKind) (hparent : parent < w.realm.scopes.envs.size)
      (hbare : kind.Bare) : Change m w (w.withScopes fun s => (s.push (some parent) kind).2)
  | enterSlots (parent : Nat) (size start : Nat) (hparent : parent < w.realm.scopes.envs.size) :
      Change m w (w.withScopes fun s => (s.pushSlots parent size start).2)
  | bind (e : EnvRef) (name : Text) (c : Cell) : Change m w (w.withScopes fun s => s.bind e name c)
  | unbind (e : EnvRef) (name : Text) : Change m w (w.withScopes fun s => s.unbind e name)
  | write (c : CellRef) (v : Value)
      (hc : (w.realm.scopes.cell c).isMutable = true ∨
        (w.realm.scopes.cell c).value.isEmpty = true) :
      Change m w (w.withScopes fun s => s.setValue c v)
  | settle (hs : .initializeHeapImmutable ∈ w.calledSince m) (c : CellRef) (v : Value) :
      Change m w (w.withScopes fun s => s.setValue c v)
  | reset (configurable : Bool) (hs : .instantiate false configurable ∈ w.calledSince m)
      (e : EnvRef) (name : Text) (bindings : List (Text × CellRef)) (first count : Nat)
      (hkind : (w.realm.scopes.env e).kind = .declarative bindings first count) (c : CellRef)
      (hc : bindings.lookup name = some c) :
      Change m w (w.withScopes fun s => s.setValue c Value.undefined)
  | name (c : CellRef) (t : Text) (hc : (w.realm.scopes.cell c).name = []) :
      Change m w (w.withScopes fun s => s.setCell c { s.cell c with name := t })

/-- What a run makes of a world by changes. -/
abbrev Evolves (m : Moment) : World → World → Prop := Relation.ReflTransGen (Change m)

theorem Change.evolves (h : w.Change m w₁) : Evolves m w w₁ := .single h

/-! ## What every change keeps -/

section

variable {r : Nat} {f : Object → Object}

theorem Change.objects_le (h : w.Change m w₁) :
    w.realm.heap.objects.size ≤ w₁.realm.heap.objects.size := by
  cases h <;> simp [withHeap, withObject, withScopes]

theorem Change.calledSince (h : w.Change m w₁) {s : Stub} (hs : s ∈ w.calledSince m) :
    s ∈ w₁.calledSince m := by
  cases h
  case leave t =>
    rw [World.calledSince, Array.toList_push, List.drop_append]
    exact List.mem_append_left _ hs
  all_goals exact hs

theorem mem_calledSince_push (hpast : w.Past m) (s : Stub) :
    s ∈ ({ w with stubCalls := w.stubCalls.push s } : World).calledSince m := by
  rw [World.calledSince, Array.toList_push, List.drop_append_of_le_length hpast.stubs]
  exact List.mem_append_right _ (List.mem_singleton_self s)

theorem Change.past (h : w.Change m w₁) (hpast : w.Past m) : w₁.Past m := by
  refine ⟨Nat.le_trans hpast.objects h.objects_le, ?_⟩
  cases h
  case leave => exact Nat.le_trans hpast.stubs (by simp)
  all_goals exact hpast.stubs

end

end World

/-! ## Chains stay sound -/

namespace Realm.Sound

variable {r : Realm}

theorem ofHeap (hr : r.Sound) {h : Heap} (hle : r.heap.objects.size ≤ h.objects.size)
    (hprotos : ∀ {q : Nat} {o p}, h.object? q = some o → o.proto = some p → 0 < p ∧ p < q)
    (hmakers : ∀ {q o p}, h.object? q = some o → o.Makes p → h.Has p) :
    ({ r with heap := h } : Realm).Sound :=
  ⟨hr.objectProto.mono hle, hr.functionProto.mono hle, hr.arrayProto.mono hle,
    hr.errorProto.mono hle, hr.globalObject.mono hle, hr.globalEnv, hprotos, hmakers, hr.parents⟩

theorem modify (hr : r.Sound) (q : ObjectRef) {f : Object → Object}
    (hf : ∀ o : Object, o.Same (f o)) :
    ({ r with heap := r.heap.modify q f } : Realm).Sound := by
  -- Every object was one that is the same.
  have hsame {k : Nat} {o : Object} (ho : (r.heap.modify q f).object? k = some o) :
      ∃ o', r.heap.object? k = some o' ∧ o'.Same o := by
    rw [Heap.object?_modify] at ho
    split at ho
    · obtain ⟨o', ho', rfl⟩ := Option.map_eq_some_iff.1 ho
      exact ⟨o', ho', hf o'⟩
    · exact ⟨o, ho, .refl o⟩
  refine hr.ofHeap (Nat.le_of_eq (by simp)) (fun ho hp => ?_) fun ho hp => ?_
  · obtain ⟨o', ho', hsame⟩ := hsame ho
    exact hr.protos ho' (hsame.proto ▸ hp)
  · obtain ⟨o', ho', hsame⟩ := hsame ho
    exact (hr.makers ho' (hsame.makes.1 hp)).mono (Nat.le_of_eq (by simp))

theorem alloc (hr : r.Sound) {o : Object} (hproto : ∀ p, o.proto = some p → r.heap.Has p)
    (hmakes : ∀ p, o.Makes p → r.heap.Has p) :
    ({ r with heap := (r.heap.alloc o).2 } : Realm).Sound := by
  have hle : r.heap.objects.size ≤ (r.heap.alloc o).2.objects.size := by simp
  refine hr.ofHeap hle (fun ho hp => ?_) fun ho hp => ?_
  · rw [Heap.object?_alloc] at ho
    split at ho
    · next hq =>
      cases ho
      obtain ⟨hpos, hlt⟩ := hproto _ hp
      exact ⟨hpos, hq ▸ Nat.lt_succ_of_le hlt⟩
    · exact hr.protos ho hp
  · rw [Heap.object?_alloc] at ho
    split at ho
    · cases ho
      exact (hmakes _ hp).mono hle
    · exact (hr.makers ho hp).mono hle

theorem intern (hr : r.Sound) (t : Text) :
    ({ r with heap := (r.heap.intern t).2 } : Realm).Sound := by
  have hle : r.heap.objects.size ≤ (r.heap.intern t).2.objects.size := by simp
  refine hr.ofHeap hle (fun ho hp => ?_) fun ho hp => ?_
  · rw [Heap.object?_intern] at ho
    exact hr.protos ho hp
  · rw [Heap.object?_intern] at ho
    exact (hr.makers ho hp).mono hle

theorem ofScopes (hr : r.Sound) {s : Scopes} (hplace : ∀ e, s.place? e = r.scopes.place? e) :
    ({ r with scopes := s } : Realm).Sound := by
  refine ⟨hr.objectProto, hr.functionProto, hr.arrayProto, hr.errorProto, hr.globalObject, ?_,
    hr.protos, hr.makers, fun he => ?_⟩
  · rw [Scopes.lt_size_iff, hplace, ← Scopes.lt_size_iff]
    exact hr.globalEnv
  · rw [hplace] at he
    simp only [hplace]
    exact hr.parents he

theorem push (hr : r.Sound) {s : Scopes} {parent : Nat} (hparent : parent < r.scopes.envs.size)
    (hplace : ∀ e, s.place? e =
      if e = r.scopes.envs.size then some (some parent, (r.scopes.env parent).depth + 1)
      else r.scopes.place? e) :
    ({ r with scopes := s } : Realm).Sound := by
  have hold {e : Nat} (he : e < r.scopes.envs.size) : s.place? e = r.scopes.place? e := by
    rw [hplace, if_neg (Nat.ne_of_lt he)]
  refine ⟨hr.objectProto, hr.functionProto, hr.arrayProto, hr.errorProto, hr.globalObject, ?_,
    hr.protos, hr.makers, fun {e p d} he => ?_⟩
  · rw [Scopes.lt_size_iff, hold hr.globalEnv, ← Scopes.lt_size_iff]
    exact hr.globalEnv
  · rw [hplace] at he
    split at he
    · next hlast =>
      cases he
      obtain ⟨env, henv⟩ : ∃ env, r.scopes.envs[parent]? = some env :=
        ⟨_, Array.getElem?_eq_getElem hparent⟩
      refine ⟨hlast ▸ hparent, env.parent, ?_, Nat.succ_pos _⟩
      rw [hold hparent, Scopes.place?_eq henv, Scopes.env_eq henv]
      rfl
    · next hne =>
      have hparents := hr.parents he
      cases p with
      | none => exact hparents
      | some p =>
        obtain ⟨hlt, parent', hp, hd⟩ := hparents
        exact ⟨hlt, parent', by rw [hold (Scopes.lt_size_iff.2 ⟨_, hp⟩), hp], hd⟩

end Realm.Sound

namespace World

variable {m : Moment} {w w₁ w₂ : World}

theorem Change.sound (h : w.Change m w₁) (hw : w.realm.Sound) : w₁.realm.Sound := by
  cases h with
  | machine | print | leave => exact hw
  | install => exact ⟨hw.1, hw.2, hw.3, hw.4, hw.5, hw.6, hw.7, hw.8, hw.9⟩
  | intern t => exact hw.intern t
  | create o hproto hmakes => exact hw.alloc hproto hmakes
  | construct r f hr hf => exact hw.modify r hf
  | content r f hf => exact hw.modify r fun o => (hf o).toSame
  | iterate hs r => exact hw.modify r fun o => ⟨rfl, rfl, rfl⟩
  | add r | assign r | literal _ _ r | redeclare _ _ r =>
    exact hw.modify r fun o => o.same_define ..
  | delete r => exact hw.modify r fun o => o.same_remove _
  | enter parent kind hparent => exact hw.push hparent fun e => Scopes.place?_push ..
  | enterSlots parent size start hparent => exact hw.push hparent fun e => Scopes.place?_pushSlots ..
  | bind | unbind | write | settle | reset | name => exact hw.ofScopes fun e => by simp

/-- A run keeps the chains sound. -/
theorem Evolves.sound (h : Evolves m w w₁) (hw : w.realm.Sound) : w₁.realm.Sound := by
  induction h with
  | refl => exact hw
  | tail _ hchange ih => exact hchange.sound ih

theorem Evolves.past (h : Evolves m w w₁) (hw : w.Past m) : w₁.Past m := by
  induction h with
  | refl => exact hw
  | tail _ hchange ih => exact hchange.past ih

theorem Evolves.objects_le (h : Evolves m w w₁) :
    w.realm.heap.objects.size ≤ w₁.realm.heap.objects.size := by
  induction h with
  | refl => exact Nat.le_refl _
  | tail _ hchange ih => exact Nat.le_trans ih hchange.objects_le

theorem Evolves.calledSince (h : Evolves m w w₁) {s : Stub} (hs : s ∈ w.calledSince m) :
    s ∈ w₁.calledSince m := by
  induction h with
  | refl => exact hs
  | tail _ hchange ih => exact hchange.calledSince ih

/-! ## Environments of objects -/

/-- Every environment of an object's properties is one of an object that exists. -/
def Rooted (w : World) : Prop :=
  ∀ {e : Nat} {r : ObjectRef}, w.realm.scopes.kind? e = some (.object r) → w.realm.heap.Has r

/-- A change as runs make them: environments are given to objects only that exist. -/
structure Growth (m : Moment) (w w₁ : World) : Prop where
  change : w.Change m w₁
  entered : ∀ {e : Nat} {r : ObjectRef}, w₁.realm.scopes.kind? e = some (.object r) →
    w.realm.scopes.kind? e = some (.object r) ∨ w.realm.heap.Has r

/-- What a run makes of a world by such changes. -/
abbrev Grows (m : Moment) : World → World → Prop := Relation.ReflTransGen (Growth m)

theorem Change.growth (h : w.Change m w₁) (henvs : w₁.realm.scopes.envs = w.realm.scopes.envs) : Growth m w w₁ := by
  refine ⟨h, fun hkind => .inl ?_⟩
  rwa [Scopes.kind?, henvs] at hkind

theorem Growth.bind (e : EnvRef) (name : Text) (c : Cell) :
    w.Growth m (w.withScopes fun s => s.bind e name c) :=
  ⟨.bind e name c, fun hkind => .inl (Scopes.object_of_kind?_bind hkind)⟩

theorem Growth.unbind (e : EnvRef) (name : Text) : w.Growth m (w.withScopes fun s => s.unbind e name) :=
  ⟨.unbind e name, fun hkind => .inl (Scopes.object_of_kind?_unbind hkind)⟩

theorem Growth.enter {parent : Nat} {kind : EnvKind} (hparent : parent < w.realm.scopes.envs.size)
    (hbare : kind.Bare) (hobject : ∀ r, kind = .object r → w.realm.heap.Has r) :
    w.Growth m (w.withScopes fun s => (s.push (some parent) kind).2) := by
  refine ⟨.enter parent kind hparent hbare, fun hkind => ?_⟩
  rw [withScopes, Scopes.kind?_push] at hkind
  split at hkind
  · exact .inr (hobject _ (Option.some.inj hkind))
  · exact .inl hkind

theorem Growth.enterSlots {parent : Nat} (size start : Nat) (hparent : parent < w.realm.scopes.envs.size) :
    w.Growth m (w.withScopes fun s => (s.pushSlots parent size start).2) := by
  refine ⟨.enterSlots parent size start hparent, fun hkind => .inl ?_⟩
  rw [withScopes, Scopes.kind?_pushSlots] at hkind
  split at hkind
  · cases hkind
  · exact hkind

theorem Growth.grows (h : w.Growth m w₁) : Grows m w w₁ := .single h

theorem Grows.evolves (h : Grows m w w₁) : Evolves m w w₁ :=
  Relation.ReflTransGen.mono (fun _ _ hgrowth => hgrowth.change) _ _ h

theorem Growth.rooted (h : w.Growth m w₁) (hw : w.Rooted) : w₁.Rooted := by
  intro e r hkind
  have hr : w.realm.heap.Has r := (h.entered hkind).elim hw id
  exact hr.mono h.change.objects_le

theorem Grows.rooted (h : Grows m w w₁) (hw : w.Rooted) : w₁.Rooted := by
  induction h with
  | refl => exact hw
  | tail _ hgrowth ih => exact hgrowth.rooted ih

end World

end RegisterJit
