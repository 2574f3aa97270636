import RegisterJit.Proofs.Service

/-!
# Evaluation without a machine

Without a machine no compiled code runs, so evaluation stays among the strings, the objects and what is printed:
the machine, the environments and the record of stubs are left alone, whatever comes of it.

`World.Beside` relates worlds that differ in strings, objects and output only, `Local` says that a step stays
beside where it started. The lemmas go through the functions of the runtime in the order in which they call each
other, up to `evaluator_local`, an induction on the depth of evaluation. There is no hypothesis on the world:
calling a compiled function without a machine is an error. `Rendering` uses this for messages, which are made
without a machine even while one is there, and the modules about environments use it for what leaves them alone.
-/

namespace RegisterJit

namespace World

variable {w w₁ w₂ : World}

/-- A world that differs from another in its strings, its objects and what was printed only. -/
structure Beside (w w₁ : World) : Prop where
  realm : w₁.realm = { w.realm with heap := w₁.realm.heap }
  machine : w₁.machine = w.machine
  stubCalls : w₁.stubCalls = w.stubCalls

theorem Beside.refl (w : World) : w.Beside w := ⟨rfl, rfl, rfl⟩

theorem Beside.trans (h : w.Beside w₁) (h' : w₁.Beside w₂) : w.Beside w₂ :=
  ⟨by rw [h'.realm, h.realm], h'.machine.trans h.machine, h'.stubCalls.trans h.stubCalls⟩

theorem Beside.scopes (h : w.Beside w₁) : w₁.realm.scopes = w.realm.scopes := by rw [h.realm]

end World

namespace Run

variable {α β : Type} {ev : Evaluator}

/-- A step that stays among strings, objects and what is printed. -/
def Local (x : Run α) : Prop := ∀ w : World, w.Beside (x.after w)

/-! ## Putting steps together -/

namespace Local

variable {x : Run α} {f : α → Run β}

theorem of_after (h : ∀ w, x.after w = w) : Local x := fun w => (h w).symm ▸ .refl w

theorem pure (a : α) : Local (pure a : Run α) := .of_after fun _ => rfl

theorem throw (e : Fault) : Local (throw e : Run α) := .of_after fun _ => rfl

theorem heap : Local heap := .of_after fun _ => rfl

theorem realm : Local realm := .of_after fun _ => rfl

theorem machine : Local machine := .of_after fun _ => rfl

theorem modifyHeap (f : Heap → Heap) : Local (modifyHeap f) := fun _ => ⟨rfl, rfl, rfl⟩

/-- Steps one after the other; what the first one yields may be used for the second. -/
theorem bind (hx : Local x) (hf : ∀ a w w', x w = .ok a w' → Local (f a)) : Local (x >>= f) := by
  intro w
  have hfirst := hx w
  cases h : x w with
  | ok a w' =>
    rw [after_ok h] at hfirst
    rw [after_bind_ok h]
    exact hfirst.trans (hf a w w' h w')
  | error e w' =>
    rw [after_error h] at hfirst
    rw [after_bind_error h]
    exact hfirst

theorem next (hx : Local x) (hf : ∀ a, Local (f a)) : Local (x >>= f) := hx.bind fun a _ _ _ => hf a

theorem map {g : α → β} (hx : Local x) : Local (g <$> x) := hx.next (f := fun a => Pure.pure (g a)) fun _ => .pure _

theorem forM {f : α → Run PUnit} (hf : ∀ a, Local (f a)) (xs : List α) : Local (xs.forM f) := by
  induction xs with
  | nil => exact .pure _
  | cons a rest ih => exact .next (hf a) fun _ => ih

theorem attempt (hx : Local x) : Local (attempt x) := by
  intro w
  have hafter : (Run.attempt x).after w = x.after w := by
    unfold after Run.attempt
    cases x w with
    | ok a w' => rfl
    | error e w' => cases he : e.isRecoverable <;> simp [he]
  exact hafter ▸ hx w

end Local

/-! ## Objects and errors -/

theorem intern_local (t : Text) : Local (intern t) := fun _ => ⟨rfl, rfl, rfl⟩

theorem internPrimitive_local (t : Text) : Local (internPrimitive t) := fun _ => ⟨rfl, rfl, rfl⟩

theorem alloc_local (o : Object) : Local (alloc o) := fun _ => ⟨rfl, rfl, rfl⟩

theorem printLine_local (t : Text) : Local (printLine t) := fun _ => ⟨rfl, rfl, rfl⟩

theorem modifyObject_local (r : ObjectRef) (f : Object → Object) : Local (modifyObject r f) := .modifyHeap _

theorem define_local (r : ObjectRef) (key : Text) (p : Property) : Local (define r key p) :=
  modifyObject_local r _

theorem object_local (r : ObjectRef) : Local (object r) := by
  refine .next .heap fun h => ?_
  split
  · exact .pure _
  · exact .throw _

theorem refOrCrash_local (v : Value) : Local (refOrCrash v) := by
  refine .next .heap fun h => ?_
  split
  · exact .pure _
  · exact .throw _

theorem protoOf_local (v : Value) : Local (protoOf v) := by
  unfold protoOf
  split
  · exact refOrCrash_local v
  · exact .next .realm fun _ => .pure _

theorem newObject_local : Local newObject := .next .realm fun _ => alloc_local _

theorem newArray_local (n : Nat) : Local (newArray n) := .next .realm fun _ => alloc_local _

theorem newError_local (proto : ObjectRef) (message : Text) : Local (newError proto message) := by
  refine .next (alloc_local _) fun r => ?_
  dsimp only
  split
  · exact .next (intern_local _) fun _ => .next (define_local _ _ _) fun _ => .pure _
  · exact .pure _

theorem raise_local (kind : ErrorKind) (message : Text) : Local (raise kind message : Run α) :=
  .next .realm fun _ => .next (protoOf_local _) fun _ => .next (newError_local _ _) fun _ =>
    .next .heap fun _ => .throw _

/-! ## Conversions and properties -/

end Run

/-- What calls functions and converts objects in that way. -/
structure Evaluator.Local (ev : Evaluator) : Prop where
  call : ∀ {fn this args}, Run.Local (ev.call fn this args)
  toPrimitive : ∀ {v hint}, Run.Local (ev.toPrimitive v hint)
  display : ∀ {v}, Run.Local (ev.display v)

namespace Run

variable {α β : Type} {ev : Evaluator}

theorem toObject_local (v : Value) : Local (toObject v) := by
  unfold toObject
  split
  · exact refOrCrash_local v
  · split
    · exact .next .heap fun _ => raise_local _ _
    · refine .next newObject_local fun r => .next (modifyObject_local r _) fun _ => ?_
      dsimp only
      split
      · exact .next (.next .heap fun _ => .pure _) fun t => .next (.forM (fun c => .next (intern_local _) fun _ =>
          define_local _ _ _) _) fun _ => .pure _
      · exact .pure _

theorem classText_local (o : Object) : Local (classText o) := by
  unfold classText
  split
  · exact .pure _
  · exact .next .heap fun _ => .pure _

section

variable (hev : ev.Local)

include hev

theorem toNumber_local (v : Value) : Local (toNumber ev v) := by
  unfold toNumber
  dsimp only
  split
  · exact .next (.map hev.toPrimitive) fun _ => .next .heap fun _ => .pure _
  · exact .next (.pure _) fun _ => .next .heap fun _ => .pure _

theorem toText_local (v : Value) : Local (toText ev v) := by
  unfold toText
  dsimp only
  split
  · exact .next (.map hev.toPrimitive) fun _ => .next .heap fun _ => .pure _
  · exact .next (.pure _) fun _ => .next .heap fun _ => .pure _

theorem propertyKey_local (v : Value) : Local (propertyKey ev v) := by
  unfold propertyKey
  split
  · exact .pure _
  · exact toText_local hev v

theorem elementTexts_local (r : ObjectRef) (generation count i : Nat) (done : List Text) :
    Local (elementTexts ev r generation count i done) := by
  induction count generalizing i done with
  | zero => exact .pure _
  | succ count ih =>
    refine .next (object_local r) fun o => ?_
    dsimp only
    split
    · exact ih _ _
    · exact .next (toText_local hev _) fun t => ih _ _

theorem join_local (r : ObjectRef) (sep : Text) : Local (join ev r sep) :=
  .next (object_local r) fun _ => .next (elementTexts_local hev _ _ _ _ _) fun _ => .pure _

theorem defaultText_local (r : ObjectRef) : Local (defaultText ev r) := by
  refine .next (object_local r) fun o => ?_
  split
  · refine .next (.attempt (join_local hev _ _)) fun t => ?_
    split
    · exact .pure _
    · exact classText_local _
  · exact .pure _
  · exact .next .heap fun _ => .pure _
  · exact .next .heap fun _ => .pure _
  · exact classText_local _

theorem displayWith_local (v : Value) : Local (displayWith ev v) := by
  unfold displayWith
  split
  · exact defaultText_local hev _
  · exact .next .heap fun _ => .pure _

theorem get_local (r : ObjectRef) (key : Text) (receiver : Value) : Local (get ev r key receiver) := by
  refine .next .heap fun h => ?_
  split
  · exact .pure _
  · exact .pure _
  · split
    · exact .pure _
    · split
      · exact .pure _
      · exact hev.call

theorem getProperty_local (base : Value) (key : Text) : Local (getProperty ev base key) := by
  have hinherited : Local (do get ev (← realm).objectProto key base) :=
    .next .realm fun _ => get_local hev _ _ _
  unfold getProperty
  dsimp only
  split
  · exact .next (refOrCrash_local _) fun _ => get_local hev _ _ _
  · split
    · refine .next (.next .heap fun _ => .pure _) fun t => ?_
      split
      · exact .pure _
      · split
        · exact intern_local _
        · exact hinherited
    · split
      · exact .next .heap fun _ => raise_local _ _
      · exact hinherited

theorem byMethod_local {v : Value} {name : Text} {otherwise : Run Primitive} (h : Local otherwise) :
    Local (byMethod ev v name otherwise) := by
  refine .next (getProperty_local hev _ _) fun fn => .next (.next .heap fun _ => .pure _) fun callable => ?_
  split
  · refine .next hev.call fun result => ?_
    split
    · exact h
    · exact .pure _
  · exact h

theorem fallbackPrimitive_local (r : ObjectRef) (o : Object) (hint : Hint) :
    Local (fallbackPrimitive ev r o hint) := by
  unfold fallbackPrimitive
  split
  · exact .pure _
  · exact .next (defaultText_local hev _) fun _ => internPrimitive_local _

theorem toPrimitiveWith_local (v : Value) (hint : Hint) : Local (toPrimitiveWith ev v hint) := by
  unfold toPrimitiveWith
  split
  · exact .pure _
  · refine .next (object_local _) fun o => ?_
    have hfallback := fallbackPrimitive_local hev
    dsimp only
    split
    · exact byMethod_local hev (byMethod_local hev (hfallback _ _ _))
    · exact byMethod_local hev (byMethod_local hev (hfallback _ _ _))

end

/-! ## Built-in functions -/

theorem arrayReceiver_local (method : String) (this : Value) : Local (arrayReceiver method this) := by
  unfold arrayReceiver
  dsimp only
  split
  · refine .next (object_local _) fun o => ?_
    split
    · exact .pure _
    · exact raise_local _ _
  · exact raise_local _ _

theorem evaluate_local (args : List Value) : Local (evaluate args) := by
  unfold evaluate
  split
  · exact .pure _
  · split
    · exact raise_local _ _
    · exact .pure _

theorem makeArray_local (args : List Value) : Local (makeArray args) := by
  have hfill : Local (makeArray.fill args) :=
    .next (newArray_local 0) fun r => .next (modifyObject_local r _) fun _ => .pure _
  unfold makeArray
  split
  · split
    · dsimp only
      split
      · exact .next (newArray_local _) fun _ => .pure _
      · exact raise_local _ _
    · exact hfill
  · exact hfill

section

variable (hev : ev.Local)

include hev

theorem listItems_local (list : Value) (count i : Nat) (done : List Value) :
    Local (listItems ev list count i done) := by
  induction count generalizing i done with
  | zero => exact .pure _
  | succ count ih => exact .next (getProperty_local hev _ _) fun _ => ih _ _

theorem applyArguments_local (v : Value) : Local (applyArguments ev v) := by
  unfold applyArguments
  split
  · exact .pure _
  · exact .next (get_local hev _ _ _) fun _ => .next (toNumber_local hev _) fun _ => listItems_local hev _ _ _ _

theorem textsOf_local (done : List Text) (vs : List Value) : Local (textsOf ev done vs) := by
  induction vs generalizing done with
  | nil => exact .pure _
  | cons v rest ih => exact .next (toText_local hev _) fun _ => ih _

theorem builtin_local (b : Builtin) (this : Value) (args : List Value) : Local (builtin ev b this args) := by
  cases b with
  | objectToString =>
    unfold builtin
    dsimp only
    split
    · exact .next (defaultText_local hev _) fun _ => intern_local _
    · exact .next .heap fun _ => intern_local _
  | objectValueOf =>
    unfold builtin
    dsimp only
    split
    · exact .next (object_local _) fun _ => .pure _
    · exact .pure _
  | objectHasOwnProperty =>
    exact .next (toObject_local _) fun _ => .next (propertyKey_local hev _) fun _ =>
      .next (object_local _) fun _ => .pure _
  | functionCall => exact hev.call
  | functionApply => exact .next (applyArguments_local hev _) fun _ => hev.call
  | arrayPush =>
    exact .next (arrayReceiver_local _ _) fun r => .next (modifyObject_local r _) fun _ =>
      .next (object_local _) fun _ => .pure _
  | arrayPop =>
    refine .next (arrayReceiver_local _ _) fun r => .next (object_local _) fun o => ?_
    split
    · exact .pure _
    · exact .next (modifyObject_local r _) fun _ => .pure _
  | arrayJoin =>
    refine .next (arrayReceiver_local _ _) fun r => ?_
    have hjoin (sep : Text) : Local (do intern (← join ev r sep)) :=
      .next (join_local hev _ _) fun _ => intern_local _
    dsimp only
    split
    · exact .next (.pure _) fun _ => hjoin _
    · split
      · exact .next (.pure _) fun _ => hjoin _
      · exact .next (toText_local hev _) fun _ => hjoin _
  | errorToString =>
    unfold builtin
    dsimp only
    split
    · exact raise_local _ _
    · exact .next .heap fun _ => intern_local _
  | errorConstructor proto =>
    have hnew (message : Text) : Local (do return Heap.value (← newError proto message)) :=
      .next (newError_local _ _) fun _ => .pure _
    unfold builtin
    dsimp only
    split
    · exact .next (.pure _) fun _ => hnew _
    · split
      · exact .next (.pure _) fun _ => hnew _
      · exact .next (toText_local hev _) fun _ => hnew _
  | print => exact .next (textsOf_local hev _ _) fun _ => .next (printLine_local _) fun _ => .pure _
  | eval => exact evaluate_local _
  | isNaN => exact .next (toNumber_local hev _) fun _ => .pure _
  | stringFunction =>
    unfold builtin
    dsimp only
    split
    · exact intern_local _
    · exact .next (toText_local hev _) fun _ => intern_local _
  | numberFunction =>
    unfold builtin
    dsimp only
    split
    · exact .pure _
    · exact .next (toNumber_local hev _) fun _ => .pure _
  | arrayFunction => exact makeArray_local _
  | objectFunction =>
    unfold builtin
    dsimp only
    split
    · exact .next newObject_local fun _ => .pure _
    · exact .next (toObject_local _) fun _ => .pure _
  | receiver => exact .pure _
  | callback =>
    unfold builtin
    dsimp only
    split
    · exact .throw _
    · exact hev.call

theorem callWith_local (fn this : Value) (args : List Value) : Local (callWith ev false fn this args) := by
  refine .next .heap fun h => ?_
  split
  · exact .next hev.display fun _ => raise_local _ _
  · exact builtin_local hev _ _ _
  · exact .bind (.throw _) fun _ _ _ h => nomatch h

end

theorem evaluator_local (fuel : Nat) : (evaluator false fuel).Local := by
  induction fuel with
  | zero => exact ⟨.throw _, .throw _, .throw _⟩
  | succ fuel ih => exact ⟨callWith_local ih _ _ _, toPrimitiveWith_local ih _ _, displayWith_local ih _⟩

end Run

end RegisterJit
