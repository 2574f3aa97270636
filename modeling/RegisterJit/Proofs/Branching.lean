import RegisterJit.Proofs.Chains
import RegisterJit.Proofs.Poised
import RegisterJit.Proofs.Rendering
import RegisterJit.Proofs.Forks

/-!
# Branching

Runs of compiled code at conditional jumps. A conditional jump goes where the truth of its operand says. A
comparison and a jump in one does what a comparison and a conditional jump on its result do: it asks the same
stub, and goes to the same place.

`World.Decides` is the statement about one branch: the run comes to its target or to what follows, or it asks a
stub with the operands, and goes on from the answer. It is `Machine.Decides` from `Decisions` read in a world,
where stubs are served. A comparison of primitives leaves the world alone. Objects are converted first, and
their methods may run compiled code; for objects whose methods are built in and only read,
`Run.serves_compare_native` says that the stub comes to an end and changes nothing that exists, so the host
leaves alone what suspended code relies on. `conditions_agree` has all of this for every pair of operands, and
that a fused comparison and an unfused one decide alike.
-/

namespace RegisterJit

open X86 (Reg Cond Instr Label Cpu)

/-! ## Answers -/

namespace Run

variable (ev : Evaluator)

theorem serves_toBoolean {p : Machine.PendingStub} {v : Value} (w : World)
    (hp : p.words.take Stub.toBoolean.arity = [v.word]) :
    serves ev .toBoolean p w = .ok ((Value.ofBool (w.realm.heap.toBoolean v)).word, 0) w := by
  have ha : p.a = v.word := (List.cons.inj hp).1
  obtain ⟨w'⟩ := v
  obtain rfl : p.a = w' := ha
  rfl

theorem serves_compare_eq (k : Comparison) (p : Machine.PendingStub) (w : World) :
    serves ev (.binary (.compare k)) p w = match compare ev k ⟨p.a⟩ ⟨p.b⟩ w with
      | .ok t w' => .ok ((Value.ofBool t).word, 0) w'
      | .error f w' => .error f w' := by
  change EStateM.bind (EStateM.bind (compare ev k ⟨p.a⟩ ⟨p.b⟩) _) _ w = _
  rw [EStateM.bind, EStateM.bind]
  cases compare ev k ⟨p.a⟩ ⟨p.b⟩ w <;> rfl

theorem serves_compare {k : Comparison} {p : Machine.PendingStub} {w w₁ : World} {r0 r1 : UInt64}
    (h : serves ev (.binary (.compare k)) p w = .ok (r0, r1) w₁) : ∃ t, r0 = (Value.ofBool t).word := by
  rw [serves_compare_eq] at h
  cases hc : compare ev k ⟨p.a⟩ ⟨p.b⟩ w with
  | ok t w' =>
    rw [hc] at h
    cases h
    exact ⟨t, rfl⟩
  | error f w' =>
    rw [hc] at h
    cases h

theorem toPrimitive_onMachine {v : Value} (hv : v.isObject = false) (hint : Hint) (w : World) :
    onMachine.toPrimitive v hint w = .ok ⟨v, hv⟩ w := by
  obtain ⟨n, hn⟩ : ∃ n, nestingBound = n + 1 := ⟨2 ^ 62 - 1, by decide⟩
  rw [onMachine, hn, evaluator]
  change toPrimitiveWith _ v hint w = _
  rw [toPrimitiveWith_of_isObject hv]
  rfl

theorem looseEquals_primitive (ev : Evaluator) {a b : Value} (ha : a.isObject = false)
    (hb : b.isObject = false) (w : World) : ∃ t, looseEquals ev a b w = .ok t w := by
  cases hs : w.realm.heap.looseStep a b with
  | answer t => exact ⟨t, looseEquals_of_answer hs⟩
  | replace a' b' =>
    rw [looseEquals_of_replace hs]
    have hrank := Heap.looseRank_of_replace hs
    have hobject := Heap.isObject_of_replace hs
    exact looseEquals_primitive ev (hobject.1 ▸ ha) (hobject.2 ▸ hb) w
  | convertLeft => cases ha.symm.trans (Heap.isObject_of_convert.1 hs)
  | convertRight => cases hb.symm.trans (Heap.isObject_of_convert.2 hs)
termination_by Heap.looseRank a + Heap.looseRank b

theorem lessThan_primitive {a b : Value} (ha : a.isObject = false) (hb : b.isObject = false)
    (leftFirst : Bool) (w : World) :
    lessThan onMachine a b leftFirst w = .ok (w.realm.heap.lessThan a b) w := by
  cases leftFirst with
  | true =>
    change EStateM.bind (onMachine.toPrimitive a .number) _ w = _
    rw [EStateM.bind, toPrimitive_onMachine ha]
    change EStateM.bind (onMachine.toPrimitive b .number) _ w = _
    rw [EStateM.bind, toPrimitive_onMachine hb]
    rfl
  | false =>
    change EStateM.bind (onMachine.toPrimitive b .number) _ w = _
    rw [EStateM.bind, toPrimitive_onMachine hb]
    change EStateM.bind (onMachine.toPrimitive a .number) _ w = _
    rw [EStateM.bind, toPrimitive_onMachine ha]
    rfl

theorem compare_primitive (k : Comparison) {a b : Value} (ha : a.isObject = false)
    (hb : b.isObject = false) (w : World) : ∃ t, compare onMachine k a b w = .ok t w := by
  have horder {p q : Value} (hp : p.isObject = false) (hq : q.isObject = false) (leftFirst : Bool)
      (f : Ordered → Bool) : ∃ t,
      (do return f (← lessThan onMachine p q leftFirst) : Run Bool) w = .ok t w := by
    refine ⟨f (w.realm.heap.lessThan p q), ?_⟩
    change EStateM.bind (lessThan onMachine p q leftFirst) _ w = _
    rw [EStateM.bind, lessThan_primitive hp hq]
    rfl
  obtain ⟨t, hloose⟩ := looseEquals_primitive onMachine ha hb w
  cases k with
  | lt => exact horder ha hb true fun o => o = .holds
  | gt => exact horder hb ha false fun o => o = .holds
  | lte => exact horder hb ha false fun o => o = .fails
  | gte => exact horder ha hb true fun o => o = .fails
  | eq => exact ⟨t, hloose⟩
  | ne =>
    refine ⟨!t, ?_⟩
    change EStateM.bind (looseEquals onMachine a b) _ w = _
    rw [EStateM.bind, hloose]
    rfl
  | strictEq | strictNe => exact ⟨_, rfl⟩

end Run

/-! ## Conversions without compiled code -/

namespace Heap

/-- Whether a function that is built in is found under a name. -/
def callsBuiltin (h : Heap) (r : ObjectRef) (key : Text) (b : Builtin) : Bool :=
  match h.find? r key with
  | some (.property _ p) =>
    match p.body with
    | .data fn _ => (ref? fn).any fun q => decide (h.Has q) && (h.object q).function.any fun f =>
      match f.body with
      | .builtin b' => decide (b' = b)
      | .compiled .. => false
    | .accessor .. => false
  | _ => false

end Heap

namespace World

variable {w w₀ : World} {a b v : Value}

/-- A method that only reads and is no compiled function. -/
def NativeMethod (w : World) (cls : ObjectClass) (v : Value) : Prop := w.CalmMethod cls v ∧ ¬ w.CompiledFunction v

/-- A value whose conversion to a primitive runs no compiled code: a primitive, or an object other than an array whose
methods are built in and only read. -/
def ConvertsNatively (w : World) (v : Value) : Prop :=
  ∀ r, Heap.ref? v = some r → w.realm.heap.Has r ∧ (w.realm.heap.object r).cls ≠ .array ∧
    ∀ key ∈ [Text.ofString "toString", Text.ofString "valueOf"],
      w.Finds r key (w.NativeMethod (w.realm.heap.object r).cls) fun _ => False

theorem ConvertsNatively.of_isObject (hv : v.isObject = false) : w.ConvertsNatively v := fun r hr => by
  rw [Heap.ref?, hv] at hr
  cases hr

theorem ConvertsNatively.of_replace {h : Heap} {a' b' : Value} (hs : h.looseStep a b = .replace a' b')
    (ha : w.ConvertsNatively a) (hb : w.ConvertsNatively b) : w.ConvertsNatively a' ∧ w.ConvertsNatively b' := by
  have hfits := h.looseStep_fits a b
  rw [hs] at hfits
  cases hfits with
  | boolLeft => exact ⟨.of_isObject (Heap.isObject_boolNumber a), hb⟩
  | boolRight => exact ⟨ha, .of_isObject (Heap.isObject_boolNumber b)⟩
  | textRight => exact ⟨ha, .of_isObject (Heap.isObject_textNumber h b)⟩
  | textLeft => exact ⟨.of_isObject (Heap.isObject_textNumber h a), hb⟩

theorem Finds.of_callsBuiltin {w : World} {r : ObjectRef} {key : Text} {b : Builtin} {cls : ObjectClass}
    {Getter : Value → Prop} (h : w.realm.heap.callsBuiltin r key b = true) (hb : b.Calm cls) :
    w.Finds r key (w.NativeMethod cls) Getter := by
  unfold Heap.callsBuiltin at h
  split at h
  · next owner p hfound =>
    split at h
    · next fn writable hbody =>
      refine .of_data hfound hbody ?_
      obtain ⟨q, hq, hfunction⟩ := (Option.any_eq_true _ _).1 h
      rw [Bool.and_eq_true, decide_eq_true_eq] at hfunction
      obtain ⟨hhas, hfunction⟩ := hfunction
      obtain ⟨f, hf, hbody'⟩ := (Option.any_eq_true _ _).1 hfunction
      obtain ⟨name, body⟩ := f
      cases body with
      | compiled => cases hbody'
      | builtin b' =>
        obtain rfl := of_decide_eq_true hbody'
        refine ⟨fun q' hq' => ?_, fun hcompiled => ?_⟩
        · cases hq.symm.trans hq'
          refine ⟨hhas, fun name' b'' hf' => ?_⟩
          cases hf.symm.trans hf'
          exact hb
        · obtain ⟨q', name', code, env, hq', -, hf'⟩ := hcompiled
          cases hq.symm.trans hq'
          cases hf.symm.trans hf'
    · cases h
  · cases h

theorem ConvertsNatively.of_callsBuiltin {w : World} {v : Value} {r : ObjectRef} (hv : Heap.ref? v = some r)
    (hr : w.realm.heap.Has r) (hcls : (w.realm.heap.object r).cls = .object)
    (hstring : w.realm.heap.callsBuiltin r "toString" .objectToString = true)
    (hvalue : w.realm.heap.callsBuiltin r "valueOf" .objectValueOf = true) : w.ConvertsNatively v := by
  intro q hq
  cases hv.symm.trans hq
  refine ⟨hr, fun h => (by cases hcls.symm.trans h), fun key hkey => ?_⟩
  simp only [List.mem_cons, List.not_mem_nil, or_false] at hkey
  rcases hkey with rfl | rfl
  · exact .of_callsBuiltin hstring trivial
  · exact .of_callsBuiltin hvalue trivial

end World

namespace Run

variable {w w₀ : World} {a b v : Value}

section

variable (hsound : w₀.realm.Sound)

include hsound

theorem toPrimitive_gentle (h : w₀.ConvertsNatively v) (hint : Hint) (hw : w₀.Undisturbed w) :
    Gentle w₀ (onMachine.toPrimitive v hint) w := by
  cases hv : Heap.ref? v with
  | none => exact .ok (toPrimitive_onMachine (Heap.isObject_of_ref?_eq_none hv) hint w) hw
  | some r =>
    obtain ⟨hr, hcls, hfinds⟩ := h r hv
    obtain ⟨n, hn⟩ : ∃ n, nestingBound = n + 2 := ⟨2 ^ 62 - 2, by decide⟩
    have hjoin (harray : (w₀.realm.heap.object r).cls = .array) (sep : Text) (w : World) (_ : w₀.Undisturbed w)
        (ev : Evaluator) : Gentle w₀ (join ev r sep) w := absurd harray hcls
    have hfallback (w : World) (hw : w₀.Undisturbed w) :
        Gentle w₀ (fallbackPrimitive (evaluator true (n + 1)) r (w₀.realm.heap.object r) hint) w := by
      unfold fallbackPrimitive
      split
      · exact .ok rfl hw
      · exact .next (defaultText_gentle hr (fun harray sep w hw => hjoin harray sep w hw _) hw)
          fun t w₁ hw₁ => ⟨_, hw₁.intern t, .inl ⟨_, rfl⟩⟩
    have hmethod {key : Text} (hkey : key ∈ [Text.ofString "toString", Text.ofString "valueOf"])
        {otherwise : Run Primitive} (hotherwise : ∀ w, w₀.Undisturbed w → Gentle w₀ otherwise w) (w : World)
        (hw : w₀.Undisturbed w) : Gentle w₀ (byMethod (evaluator true (n + 1)) v key otherwise) w := by
      have hnone : w₀.NativeMethod (w₀.realm.heap.object r).cls Value.undefined :=
        ⟨fun r h => (by cases h), fun hcompiled => by
          obtain ⟨r, -, -, -, h, -⟩ := hcompiled
          cases h⟩
      rcases getProperty_finds hsound hr hv hnone (hfinds key hkey) hw (evaluator true (n + 1)) with
        ⟨fn, ⟨hcalm, hnative⟩, hget⟩ | ⟨getter, hgetter, -⟩
      · exact byMethod_found hget (fun hcallable => callWith_gentle hr
          (fun harray sep w hw => hjoin harray sep w hw _) (fun _ => hnative) hv hw hcalm hcallable) hotherwise hw
      · exact hgetter.elim
    rw [onMachine, hn]
    change Gentle w₀ (toPrimitiveWith (evaluator true (n + 1)) v hint) w
    rw [Gentle, toPrimitiveWith_of_ref? hv (object_run hw hr)]
    split
    · exact hmethod (by simp) (hmethod (by simp) hfallback) w hw
    · exact hmethod (by simp) (hmethod (by simp) hfallback) w hw

theorem looseEquals_gentle {a b : Value} (ha : w₀.ConvertsNatively a) (hb : w₀.ConvertsNatively b) {w : World}
    (hw : w₀.Undisturbed w) : Gentle w₀ (looseEquals onMachine a b) w := by
  cases hs : w.realm.heap.looseStep a b with
  | answer t => exact .ok (looseEquals_of_answer hs) hw
  | replace a' b' =>
    have hrank := Heap.looseRank_of_replace hs
    obtain ⟨ha', hb'⟩ := ha.of_replace hs hb
    rw [Gentle, looseEquals_of_replace hs]
    exact looseEquals_gentle ha' hb' hw
  | convertLeft =>
    have hrank := Heap.looseRank_of_isObject (Heap.isObject_of_convert.1 hs)
    rw [Gentle, looseEquals_of_convertLeft hs]
    refine (toPrimitive_gentle hsound ha .default hw).next fun p w₁ hw₁ => ?_
    have hp := Heap.looseRank_le_one p.isObject_eq
    exact looseEquals_gentle (.of_isObject p.isObject_eq) hb hw₁
  | convertRight =>
    have hrank := Heap.looseRank_of_isObject (Heap.isObject_of_convert.2 hs)
    rw [Gentle, looseEquals_of_convertRight hs]
    refine (toPrimitive_gentle hsound hb .default hw).next fun p w₁ hw₁ => ?_
    have hp := Heap.looseRank_le_one p.isObject_eq
    exact looseEquals_gentle ha (.of_isObject p.isObject_eq) hw₁
termination_by Heap.looseRank a + Heap.looseRank b

theorem lessThan_gentle (ha : w₀.ConvertsNatively a) (hb : w₀.ConvertsNatively b) (leftFirst : Bool)
    (hw : w₀.Undisturbed w) : Gentle w₀ (lessThan onMachine a b leftFirst) w := by
  cases leftFirst with
  | true =>
    exact (toPrimitive_gentle hsound ha .number hw).next fun p w₁ hw₁ =>
      (toPrimitive_gentle hsound hb .number hw₁).next fun q w₂ hw₂ => .ok rfl hw₂
  | false =>
    exact (toPrimitive_gentle hsound hb .number hw).next fun q w₁ hw₁ =>
      (toPrimitive_gentle hsound ha .number hw₁).next fun p w₂ hw₂ => .ok rfl hw₂

/-- A comparison whose operands run no compiled code when they are converted changes nothing that exists. -/
theorem compare_gentle (k : Comparison) (ha : w₀.ConvertsNatively a) (hb : w₀.ConvertsNatively b)
    (hw : w₀.Undisturbed w) : Gentle w₀ (compare onMachine k a b) w := by
  have horder {p q : Value} (hp : w₀.ConvertsNatively p) (hq : w₀.ConvertsNatively q) (leftFirst : Bool)
      (f : Ordered → Bool) : Gentle w₀ (do return f (← lessThan onMachine p q leftFirst) : Run Bool) w :=
    (lessThan_gentle hsound hp hq leftFirst hw).next fun o w₁ hw₁ => .ok rfl hw₁
  have hloose := looseEquals_gentle hsound ha hb hw
  cases k with
  | lt => exact horder ha hb true fun o => o = .holds
  | gt => exact horder hb ha false fun o => o = .holds
  | lte => exact horder hb ha false fun o => o = .fails
  | gte => exact horder ha hb true fun o => o = .fails
  | eq => exact hloose
  | ne => exact hloose.next fun t w₁ hw₁ => .ok rfl hw₁
  | strictEq | strictNe => exact .ok rfl hw

end

end Run

namespace World

variable {ev : Evaluator} {w : World} {s : Session} {image : Image} {c : CompiledUnit}
  {ins : Instruction} {span : Span}

theorem Runs.of_comes (ev : Evaluator) {w : World} {Q : Machine → Prop} (h : w.machine.Comes Q) :
    ∃ w', Runs ev w [] w' ∧ w'.realm = w.realm ∧ Q w'.machine := by
  obtain ⟨x, hgoes, hq⟩ := h
  exact ⟨_, .code hgoes (.here _), rfl, hq⟩

/-- A run decides on a condition: it comes to a state that depends on a truth. When it asks a stub, what the
stub throws is delivered, and it comes to the state after the stub's answer. -/
def Decides (ev : Evaluator) (w : World) (d : Decision) (Q : Bool → Machine → Prop) : Prop :=
  match d with
  | .known t => ∃ w', Runs ev w [] w' ∧ Q t w'.machine
  | .asked stub args => ∃ w', Runs ev w [] w' ∧ w'.machine.Asks stub (args.map Value.word) ∧
      (∀ v message w₁, Run.serves ev stub w'.machine.pendingStub (w'.counts stub) =
        .error (.thrown v message) w₁ → Run.serveStub ev w' = Run.deliver v message w₁) ∧
      ∀ r0 r1 w₁, Run.serves ev stub w'.machine.pendingStub (w'.counts stub) = .ok (r0, r1) w₁ →
        w'.machine.Preserves w₁.machine → ∃ t w₂, r0 = (Value.ofBool t).word ∧
          Runs ev w [(stub, args.map Value.word)] w₂ ∧ Q t w₂.machine

theorem Decides.of_machine {d : Decision} {Q : Bool → Machine → Prop} (h : w.machine.Decides d Q)
    (hanswers : ∀ stub args, d = .asked stub args → ∀ p w' r0 r1 w₁,
      Run.serves ev stub p w' = .ok (r0, r1) w₁ → ∃ t, r0 = (Value.ofBool t).word) :
    w.Decides ev d Q := by
  cases d with
  | known t =>
    obtain ⟨w', hruns, -, hq⟩ := Runs.of_comes ev (Machine.decides_known.1 h)
    exact ⟨w', hruns, hq⟩
  | asked stub args =>
    obtain ⟨w', hruns, -, hasks, hresumes⟩ := Runs.of_comes ev (Machine.decides_asked.1 h)
    refine ⟨w', hruns, hasks, fun v message w₁ hthrown => Run.serveStub_thrown hasks hthrown,
      fun r0 r1 w₁ hok hkeeps => ?_⟩
    obtain ⟨t, rfl⟩ := hanswers stub args rfl _ _ _ _ _ hok
    obtain ⟨w₂, hruns₂, -, hq⟩ := Runs.of_comes ev
      (w := w₁.withMachine (w₁.machine.resume (Value.ofBool t).word r1)) (hresumes _ t r1 hkeeps)
    exact ⟨t, w₂, rfl, hruns.trans (.stub hasks hok hruns₂), hq⟩

/-- The stubs that a conditional jump on a value asks. -/
def truthCalls (v : Value) : List (Stub × List UInt64) :=
  if v.isDouble || v.isString || v.isObject || v.isEmpty then [(.toBoolean, [v.word])] else []

/-- A conditional jump goes where the truth of its operand says. -/
theorem condition {sense : Bool} {target : UInt32} {v : Value}
    (h : w.machine.Reaches s image c ins.offset.toUInt32) (ht : s.Translates c ins span)
    (hop : ins.opcode = .jumpIf sense) (htarget : ins.target? = some target)
    (hv : w.machine.cpu.Operand span.event.cached (ins.reg 0) v) (hbuilt : v.Built) :
    ∃ w', Runs ev w (truthCalls v) w' ∧ w'.machine.Reaches s image c
      (if w.realm.heap.toBoolean v = sense then target else ins.next.toUInt32) := by
  have hdecides := h.condition ht hop htarget hv
  have hasked : v.shownTruth? = none ↔ (v.isDouble || v.isString || v.isObject || v.isEmpty) = true := by
    rw [hbuilt.shownTruth?_eq_none]
    simp [or_assoc]
  unfold Value.decision at hdecides
  cases hshown : v.shownTruth? with
  | some t =>
    rw [hshown] at hdecides
    obtain ⟨w', hruns, -, hq⟩ := Runs.of_comes ev (Machine.decides_known.1 hdecides)
    rw [truthCalls, if_neg (by rw [← hasked, hshown]; nofun), hbuilt.toBoolean hshown]
    exact ⟨w', hruns, hq⟩
  | none =>
    rw [hshown] at hdecides
    obtain ⟨w', hruns, hrealm, hasks, hresumes⟩ := Runs.of_comes ev (Machine.decides_asked.1 hdecides)
    rw [truthCalls, if_pos (hasked.1 hshown)]
    have hserves := Run.serves_toBoolean ev (w'.counts .toBoolean) hasks.args
    have hheap : (w'.counts .toBoolean).realm = w.realm := hrealm
    rw [hheap] at hserves
    obtain ⟨w₂, hruns₂, -, hq⟩ := Runs.of_comes ev
      (w := (w'.counts .toBoolean).withMachine (w'.machine.resume _ 0))
      (hresumes w'.machine (w.realm.heap.toBoolean v) 0 (.refl _))
    exact ⟨w₂, hruns.trans (.stub hasks hserves hruns₂), hq⟩

end World

namespace Run

variable {k : Comparison} {a b : Value} {p : Machine.PendingStub} {w : World}

theorem serves_compare_of_args (ev : Evaluator) (w : World)
    (hp : p.words.take (Stub.binary (.compare k)).arity = [a.word, b.word]) :
    serves ev (.binary (.compare k)) p w = match compare ev k a b w with
      | .ok t w' => .ok ((Value.ofBool t).word, 0) w'
      | .error f w' => .error f w' := by
  obtain ⟨ha, hrest⟩ := List.cons.inj (show [p.a, p.b] = [a.word, b.word] from hp)
  have hb : p.b = b.word := (List.cons.inj hrest).1
  rw [serves_compare_eq, ha, hb]

theorem serves_compare_primitive (ha : a.isObject = false) (hb : b.isObject = false)
    (hp : p.words.take (Stub.binary (.compare k)).arity = [a.word, b.word]) (w : World) :
    ∃ t, serves onMachine (.binary (.compare k)) p w = .ok ((Value.ofBool t).word, 0) w := by
  obtain ⟨t, ht⟩ := compare_primitive k ha hb w
  refine ⟨t, ?_⟩
  rw [serves_compare_of_args _ _ hp, ht]

/-- The stub of a comparison whose operands run no compiled code when they are converted comes to an end, and the host
leaves alone what suspended code relies on. -/
theorem serves_compare_native (hsound : w.realm.Sound) (ha : w.ConvertsNatively a) (hb : w.ConvertsNatively b)
    (hp : p.words.take (Stub.binary (.compare k)).arity = [a.word, b.word]) :
    ∃ w₁, w.Undisturbed w₁ ∧ w.machine.Preserves w₁.machine ∧
      ((∃ t, serves onMachine (.binary (.compare k)) p w = .ok ((Value.ofBool t).word, 0) w₁) ∨
        ∃ e, serves onMachine (.binary (.compare k)) p w = .error e w₁ ∧ e.isRecoverable = true) := by
  obtain ⟨w₁, hw, h⟩ := compare_gentle hsound k ha hb (.refl w)
  refine ⟨w₁, hw, hw.machine ▸ .refl _, ?_⟩
  rw [serves_compare_of_args _ _ hp]
  rcases h with ⟨t, ht⟩ | ⟨e, he, hrecoverable⟩
  · exact .inl ⟨t, by rw [ht]⟩
  · exact .inr ⟨e, by rw [he], hrecoverable⟩

end Run

namespace World

variable {ev : Evaluator} {w : World} {s : Session} {image : Image} {c : CompiledUnit}
  {ins : Instruction} {span : Span} {k : Comparison} {a b : Value}

theorem answers_decision (k : Comparison) (a b : Value) {stub : Stub} {args : List Value}
    (h : k.decision a b = .asked stub args) {p : Machine.PendingStub} {w w₁ : World} {r0 r1 : UInt64}
    (hserves : Run.serves ev stub p w = .ok (r0, r1) w₁) : ∃ t, r0 = (Value.ofBool t).word := by
  unfold Comparison.decision at h
  split at h
  · cases h
  · cases h
    exact Run.serves_compare ev hserves

end World

/-- Conditional control flow. A conditional jump on a built value goes to its target if the truth of the value
is the one that it is for, and asks the stub of truth for a double, a string, an object or the empty value only.
A comparison and a jump in one, and a comparison followed by a conditional jump on its result, decide on the
same truth in the same way: inline on two integers, and otherwise by asking the stub of the comparison with both
operands, whose exceptions are delivered and whose answer is followed. A comparison of primitives leaves the world
alone; one of objects whose conversion runs no compiled code comes to an end, changes nothing that exists, and leaves
alone what suspended code relies on. The inline tests of tags agree with the classes of values. -/
theorem conditions_agree (ev : Evaluator) (s : Session) (image : Image) (c : CompiledUnit) :
    (∀ (w : World) (ins : Instruction) (span : Span) (sense : Bool) (target : UInt32) (v : Value),
      w.machine.Reaches s image c ins.offset.toUInt32 → s.Translates c ins span →
      ins.opcode = .jumpIf sense → ins.target? = some target →
      w.machine.cpu.Operand span.event.cached (ins.reg 0) v → v.Built →
        ∃ w', World.Runs ev w (World.truthCalls v) w' ∧ w'.machine.Reaches s image c
          (if w.realm.heap.toBoolean v = sense then target else ins.next.toUInt32)) ∧
    (∀ (k : Comparison) (sense : Bool) (a b : Value),
      (∀ (w : World) (ins : Instruction) (span : Span) (target : UInt32),
        w.machine.Reaches s image c ins.offset.toUInt32 → s.Translates c ins span →
        ins.opcode = .branch sense k → ins.target? = some target →
        w.machine.cpu.Operand span.event.cached (ins.reg 0) a →
        w.machine.cpu.Operand span.event.cached (ins.reg 1) b →
          w.Decides ev (k.decision a b) fun t m =>
            m.Reaches s image c (if t = sense then target else ins.next.toUInt32)) ∧
      ∀ (w : World) (ins jump : Instruction) (span span' : Span) (target : UInt32),
        w.machine.Reaches s image c ins.offset.toUInt32 → s.Translates c ins span →
        s.Translates c jump span' → ins.opcode = .binary (.compare k) → jump.opcode = .jumpIf sense →
        jump.target? = some target → jump.offset = ins.next → jump.reg 0 = ins.reg 0 →
        w.machine.cpu.Operand span.event.cached (ins.reg 1) a →
        w.machine.cpu.Operand span.event.cached (ins.reg 2) b →
        (∀ d, Frame.registerOffset? (ins.reg 0) = some d →
          w.machine.OnRegisterStack (w.machine.cpu.reg frameReg + X86.displacementWord d)) →
          w.Decides ev (k.decision a b) fun t m =>
            m.Reaches s image c (if t = sense then target else jump.next.toUInt32)) ∧
    (∀ (k : Comparison) (a b : Value) (p : Machine.PendingStub) (w : World),
      a.isObject = false → b.isObject = false →
      p.words.take (Stub.binary (.compare k)).arity = [a.word, b.word] →
        ∃ t, Run.serves Run.onMachine (.binary (.compare k)) p w = .ok ((Value.ofBool t).word, 0) w) ∧
    (∀ (k : Comparison) (a b : Value) (p : Machine.PendingStub) (w : World),
      w.realm.Sound → w.ConvertsNatively a → w.ConvertsNatively b →
      p.words.take (Stub.binary (.compare k)).arity = [a.word, b.word] →
        ∃ w₁, w.Undisturbed w₁ ∧ w.machine.Preserves w₁.machine ∧
          ((∃ t, Run.serves Run.onMachine (.binary (.compare k)) p w = .ok ((Value.ofBool t).word, 0) w₁) ∨
            ∃ e, Run.serves Run.onMachine (.binary (.compare k)) p w = .error e w₁ ∧ e.isRecoverable = true)) ∧
    ∀ (site : Site) (e : Emitter), Emit.TestsAgree site e := by
  refine ⟨fun w ins span sense target v h ht hop htarget hv hbuilt =>
    World.condition h ht hop htarget hv hbuilt, fun k sense a b => ⟨?_, ?_⟩,
    fun k a b p w ha hb hp => Run.serves_compare_primitive ha hb hp w,
    fun k a b p w hsound ha hb hp => Run.serves_compare_native hsound ha hb hp, Emit.testsAgree⟩
  · intro w ins span target h ht hop htarget ha hb
    exact .of_machine (h.branch ht hop htarget ha hb) fun stub args hd p w' r0 r1 w₁ =>
      World.answers_decision k a b hd
  · intro w ins jump span span' target h ht ht' hop hop' htarget hnext hreg ha hb hdst
    exact .of_machine (h.compare_condition ht ht' hop hop' htarget hnext hreg ha hb hdst)
      fun stub args hd p w' r0 r1 w₁ => World.answers_decision k a b hd

/-- A code that compares two registers, twice. -/
def comparingText : Text := Text.ofString
  "function main regs=3
  again:
    BINARY_LT r2, r0, r1
    IF_TRUE r2, again
    IF_TRUE_BINARY_LT r0, r1, again
    RETURN r0
  end"

def comparingUnit : CodeUnit :=
  ⟨0, 0, (Listing.parse comparingText).toOption.getD (Code.ofName []), #[]⟩

/-- Whether instructions are a comparison, a jump at its result to itself, and the same in one. -/
def comparesTwice : List Instruction → Bool
  | [compare, jump, branch, _] =>
    decide ((compare.opcode = .binary (.compare .lt) ∧ compare.reg 0 = .ofNat 2 ∧
      compare.reg 1 = .ofNat 0 ∧ compare.reg 2 = .ofNat 1) ∧
    (jump.opcode = .jumpIf true ∧ jump.target? = some 0 ∧ jump.offset = compare.next ∧
      jump.reg 0 = .ofNat 2) ∧
    branch.opcode = .branch true .lt ∧ branch.target? = some 0 ∧ branch.reg 0 = .ofNat 0 ∧
      branch.reg 1 = .ofNat 1)
  | _ => false

-- One evaluation of the parsed text serves all facts.
theorem comparingUnit_facts : comparingUnit.linksAlone = true ∧ ∃ compare jump branch last : Instruction,
    Stream.instructions comparingUnit.code.data = [compare, jump, branch, last] ∧
      (compare.opcode = .binary (.compare .lt) ∧ compare.reg 0 = .ofNat 2 ∧ compare.reg 1 = .ofNat 0 ∧
        compare.reg 2 = .ofNat 1) ∧
      (jump.opcode = .jumpIf true ∧ jump.target? = some 0 ∧ jump.offset = compare.next ∧
        jump.reg 0 = .ofNat 2) ∧
      branch.opcode = .branch true .lt ∧ branch.target? = some 0 ∧ branch.reg 0 = .ofNat 0 ∧
        branch.reg 1 = .ofNat 1 := by
  have hrun : (comparingUnit.piecesLinkAlone &&
      comparesTwice (Stream.instructions comparingUnit.code.data)) = true := by decide +kernel
  rw [Bool.and_eq_true, comparesTwice.eq_def] at hrun
  obtain ⟨hlinks, hrun⟩ := hrun
  refine ⟨CodeUnit.linksAlone_of_pieces hlinks, ?_⟩
  split at hrun
  · rename_i compare jump branch last hlist
    exact ⟨compare, jump, branch, last, hlist, of_decide_eq_true hrun⟩
  · cases hrun

/-- A machine that has come to the code for an offset with one value in the registers of its frame. -/
theorem Machine.exists_filled {img : LoadedImage} {s : Session} {image : Image} {c : CompiledUnit} {offset : UInt32}
    {place : Nat} (h : Loaded #[img] s image) (hstarts : s.Starts c offset place) (v : Value) :
    ∃ m : Machine, m.Reaches s image c offset ∧ ∀ r ∈ [Register.ofNat 0, .ofNat 1, .ofNat 2],
      (∀ cached, m.cpu.Operand cached r v) ∧
        ∀ d, Frame.registerOffset? r = some d →
          m.OnRegisterStack (m.cpu.reg frameReg + X86.displacementWord d) := by
  have hslot (d : Int32) (hd : d ∈ [(72 : Int32), 80, 88]) :
      (poised img (image.address place)).OnRegisterStack (poisedFrame + X86.displacementWord d) := by
    rw [OnRegisterStack, Beyond, show (poised img (image.address place)).context = dataBase from rfl,
      show (poised img (image.address place)).nativeBase = nativeStackBase from rfl]
    simp only [List.mem_cons, List.not_mem_nil, or_false] at hd
    rcases hd with rfl | rfl | rfl <;> decide
  generalize hm : (poised img (image.address place)).withCpu ((((((poised img (image.address place)).cpu.setReg .rax
    v.word).write (poisedFrame + X86.displacementWord 72) v.word).write (poisedFrame + X86.displacementWord 80)
      v.word).write (poisedFrame + X86.displacementWord 88) v.word)) = m
  have hread (a : UInt64) : m.readWord a =
      if poisedFrame + X86.displacementWord 88 = a then v.word
      else if poisedFrame + X86.displacementWord 80 = a then v.word
      else if poisedFrame + X86.displacementWord 72 = a then v.word
      else (poised img (image.address place)).readWord a := by
    rw [← hm]
    exact (X86.Cpu.read_write ..).trans (by rw [X86.Cpu.read_write, X86.Cpu.read_write]; rfl)
  have hframe : m.cpu.reg frameReg = poisedFrame := by rw [← hm]; rfl
  have hworks : (poised img (image.address place)).Works m := by
    rw [← hm]
    refine ⟨rfl, fun r hr => ?_, fun a ha => ?_⟩
    · exact X86.Cpu.reg_setReg_of_ne _ _ ((show ∀ q ∈ roleRegs, Reg.rax.slot ≠ q.slot by decide) r hr)
    · have hne (d : Int32) (hd : d ∈ [(72 : Int32), 80, 88]) : poisedFrame + X86.displacementWord d ≠ a :=
        fun heq => ha (heq ▸ hslot d hd)
      rw [hm, hread, if_neg (hne 88 (by decide)), if_neg (hne 80 (by decide)), if_neg (hne 72 (by decide))]
  have hrip : m.cpu.rip = image.address place := by rw [← hm]; rfl
  have hrax : m.cpu.reg .rax = v.word := by
    rw [← hm]
    exact X86.Cpu.reg_setReg_self ..
  refine ⟨m, ⟨(poised_running img (image.address place) h).works hworks, place, hstarts, hrip⟩, fun r hr => ?_⟩
  have hoffset (d : Int32) (hd : Frame.registerOffset? r = some d) : d ∈ [(72 : Int32), 80, 88] := by
    have hall : ∀ r ∈ [Register.ofNat 0, .ofNat 1, .ofNat 2],
        (Frame.registerOffset? r).any (· ∈ [(72 : Int32), 80, 88]) = true := by decide
    simpa [hd] using hall r hr
  refine ⟨fun cached => ⟨fun d hd => ?_, fun _ => hrax⟩, fun d hd => ?_⟩
  · rw [hframe]
    refine (hread _).trans ?_
    have hmem := hoffset d hd
    simp only [List.mem_cons, List.not_mem_nil, or_false] at hmem
    rcases hmem with rfl | rfl | rfl
    · rw [if_neg (by decide), if_neg (by decide), if_pos rfl]
    · rw [if_neg (by decide), if_pos rfl]
    · rw [if_pos rfl]
  · obtain ⟨-, hbase, -, hcontext⟩ := hworks.regions
    rw [hframe, OnRegisterStack, Beyond, hbase, hcontext]
    exact hslot d (hoffset d hd)

theorem World.ofConfig_convertsNatively : (ofConfig ⟨0, 0, 0⟩).ConvertsNatively (Heap.value 1) := by
  have hfacts : Heap.ref? (Heap.value 1) = some 1 ∧ (ofConfig ⟨0, 0, 0⟩).realm.heap.Has 1 ∧
      ((ofConfig ⟨0, 0, 0⟩).realm.heap.object 1).cls = .object ∧
      (ofConfig ⟨0, 0, 0⟩).realm.heap.callsBuiltin 1 "toString" .objectToString = true ∧
      (ofConfig ⟨0, 0, 0⟩).realm.heap.callsBuiltin 1 "valueOf" .objectValueOf = true := by decide +kernel
  exact .of_callsBuiltin hfacts.1 hfacts.2.1 hfacts.2.2.1 hfacts.2.2.2.1 hfacts.2.2.2.2

/-- A code that jumps at the truth of an object, that falls through at zero, and that compares two equal integers and
an object with itself, by a comparison and a jump and by both in one. The object is the one that objects inherit
from, and its methods are built in. -/
theorem conditions_agree_comparing :
    ∃ (s : Session) (image : Image) (c : CompiledUnit) (compare jump branch : Instruction) (x : Value),
      c.unit = comparingUnit ∧ x.isObject = true ∧
      (∃ w w' : World, w.machine.Reaches s image c jump.offset.toUInt32 ∧
        World.Runs Run.onMachine w [(.toBoolean, [x.word])] w' ∧ w'.machine.Reaches s image c 0) ∧
      (∃ w w' : World, w.machine.Reaches s image c jump.offset.toUInt32 ∧
        World.Runs Run.onMachine w [] w' ∧ w'.machine.Reaches s image c jump.next.toUInt32) ∧
      (∀ d ∈ [Decision.known false, .asked (.binary (.compare .lt)) [x, x]], ∃ w w' : World,
        w.machine.Reaches s image c branch.offset.toUInt32 ∧
        w'.machine.Reaches s image c compare.offset.toUInt32 ∧
        (w.Decides Run.onMachine d fun t m =>
          m.Reaches s image c (if t = true then 0 else branch.next.toUInt32)) ∧
        w'.Decides Run.onMachine d fun t m =>
          m.Reaches s image c (if t = true then 0 else jump.next.toUInt32)) ∧
      (∃ (t : Bool) (w : World), Run.serves Run.onMachine (.binary (.compare .lt)) ⟨0, 0, 0, 0, 0, 0⟩ w =
        .ok ((Value.ofBool t).word, 0) w) ∧
      ∃ w w₁ : World, w.machine.Preserves w₁.machine ∧
        ((∃ t, Run.serves Run.onMachine (.binary (.compare .lt)) ⟨0, x.word, x.word, 0, 0, 0⟩ w =
          .ok ((Value.ofBool t).word, 0) w₁) ∨
        ∃ e, Run.serves Run.onMachine (.binary (.compare .lt)) ⟨0, x.word, x.word, 0, 0, 0⟩ w = .error e w₁ ∧
          e.isRecoverable = true) := by
  obtain ⟨hlinks, compare, jump, branch, last, hlist, ⟨hcompare, hdst, hleft, hright⟩,
    ⟨hjump, htarget, hoffset, hreg⟩, hbranch, htarget', hleft', hright'⟩ := comparingUnit_facts
  obtain ⟨s, image, c, hplaced, hloaded, -, hc, hunit⟩ := CodeUnit.exists_image hlinks
  obtain ⟨parts, hparts⟩ := hplaced.placed
  have hcode (ins : Instruction) (h : ins ∈ [compare, jump, branch, last]) :
      ∃ span, s.Translates c ins span := hparts.translates hc (by rw [hunit, hlist]; exact h)
  obtain ⟨span, ht⟩ := hcode compare (by simp)
  obtain ⟨span', ht'⟩ := hcode jump (by simp)
  obtain ⟨span'', ht''⟩ := hcode branch (by simp)
  have hfilled {ins : Instruction} {span : Span} (h : s.Translates c ins span) (v : Value) : ∃ w : World,
      w.machine.Reaches s image c ins.offset.toUInt32 ∧
        ∀ r ∈ [Register.ofNat 0, .ofNat 1, .ofNat 2], (∀ cached, w.machine.cpu.Operand cached r v) ∧
          ∀ d, Frame.registerOffset? r = some d →
            w.machine.OnRegisterStack (w.machine.cpu.reg frameReg + X86.displacementWord d) := by
    obtain ⟨jumps, b, front, back, hst⟩ := hparts.stands h
    obtain ⟨m, hm⟩ := Machine.exists_filled hloaded hst.here v
    exact ⟨⟨Realm.bare, m, #[], #[]⟩, hm⟩
  obtain ⟨hif, hdecide, hprimitive, hnative, -⟩ := conditions_agree Run.onMachine s image c
  have hdecides (v : Value) : ∃ w w' : World,
      w.machine.Reaches s image c branch.offset.toUInt32 ∧
      w'.machine.Reaches s image c compare.offset.toUInt32 ∧
      (w.Decides Run.onMachine (Comparison.lt.decision v v) fun t m =>
        m.Reaches s image c (if t = true then 0 else branch.next.toUInt32)) ∧
      w'.Decides Run.onMachine (Comparison.lt.decision v v) fun t m =>
        m.Reaches s image c (if t = true then 0 else jump.next.toUInt32) := by
    obtain ⟨w, hreaches, hregisters⟩ := hfilled ht'' v
    obtain ⟨w', hreaches', hregisters'⟩ := hfilled ht v
    obtain ⟨hfused, hunfused⟩ := hdecide .lt true v v
    exact ⟨w, w', hreaches, hreaches', hfused w branch span'' 0 hreaches ht'' hbranch htarget'
        ((hregisters _ (by simp [hleft'])).1 _) ((hregisters _ (by simp [hright'])).1 _),
      hunfused w' compare jump span span' 0 hreaches' ht ht' hcompare hjump htarget hoffset (hreg.trans hdst.symm)
        ((hregisters' _ (by simp [hleft])).1 _) ((hregisters' _ (by simp [hright])).1 _)
        (hregisters' _ (by simp [hdst])).2⟩
  have hasked : World.truthCalls (Heap.value 1) = [(.toBoolean, [(Heap.value 1).word])] := by
    rw [World.truthCalls, if_pos (by decide)]
  have hshown : World.truthCalls (Value.int32 0) = [] := by rw [World.truthCalls, if_neg (by decide)]
  have htrue (h : Heap) : h.toBoolean (Heap.value 1) = true := by
    rw [Heap.toBoolean, if_neg (by decide), if_neg (by decide), if_neg (by decide), if_neg (by decide)]
    decide
  have hfalse (h : Heap) : ¬ h.toBoolean (Value.int32 0) = true := by
    rw [Heap.toBoolean, if_neg (by decide), if_pos (by decide)]
    decide
  refine ⟨s, image, c, compare, jump, branch, Heap.value 1, hunit, by decide, ?_, ?_, fun d hd => ?_, ?_, ?_⟩
  · obtain ⟨w, hreaches, hregisters⟩ := hfilled ht' (Heap.value 1)
    obtain ⟨w', hruns, hnext⟩ := hif w jump span' true 0 (Heap.value 1) hreaches ht' hjump htarget
      ((hregisters _ (by simp [hreg])).1 _) (.object _)
    rw [hasked] at hruns
    rw [if_pos (htrue _)] at hnext
    exact ⟨w, w', hreaches, hruns, hnext⟩
  · obtain ⟨w, hreaches, hregisters⟩ := hfilled ht' (Value.int32 0)
    obtain ⟨w', hruns, hnext⟩ := hif w jump span' true 0 (Value.int32 0) hreaches ht' hjump htarget
      ((hregisters _ (by simp [hreg])).1 _) (.int32 0)
    rw [hshown] at hruns
    rw [if_neg (hfalse _)] at hnext
    exact ⟨w, w', hreaches, hruns, hnext⟩
  · simp only [List.mem_cons, List.not_mem_nil, or_false] at hd
    rcases hd with rfl | rfl
    · have hknown : Comparison.lt.decision (Value.int32 5) (Value.int32 5) = .known false := by
        rw [Comparison.decision, if_pos (by decide),
          show Comparison.lt.holds (Value.int32 5).toInt32 (Value.int32 5).toInt32 = false by decide]
      rw [← hknown]
      exact hdecides (Value.int32 5)
    · have hasks : Comparison.lt.decision (Heap.value 1) (Heap.value 1) =
          .asked (.binary (.compare .lt)) [Heap.value 1, Heap.value 1] := by
        rw [Comparison.decision, if_neg (by decide)]
      rw [← hasks]
      exact hdecides (Heap.value 1)
  · obtain ⟨t, h⟩ := hprimitive .lt .empty .empty ⟨0, 0, 0, 0, 0, 0⟩ (World.ofConfig ⟨0, 0, 0⟩) rfl rfl rfl
    exact ⟨t, _, h⟩
  · obtain ⟨w₁, -, hpreserves, h⟩ := hnative .lt (Heap.value 1) (Heap.value 1)
      ⟨0, (Heap.value 1).word, (Heap.value 1).word, 0, 0, 0⟩ _ (World.ofConfig_sound _)
      World.ofConfig_convertsNatively World.ofConfig_convertsNatively rfl
    exact ⟨_, w₁, hpreserves, h⟩

end RegisterJit
