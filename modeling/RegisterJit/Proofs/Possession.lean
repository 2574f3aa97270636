import RegisterJit.Proofs.Provenance

/-!
# Strings of stubs

Variables, built-in functions and calls use strings from the table only, too. So does the work of every stub, if the
values that it takes from compiled code are no strings or come from the table.

`Provenance` describes steps that use strings from the table only; here it is shown that all stubs are. A stub
hands on what it was given, so its arguments must be from the table or no strings (`taken`), and then so is what
it yields (`yielded`). The lemmas go through variables, environments, built-in functions and calls in the order
in which they use each other, each by the rules for sequences and branches from `Provenance`. `stub_honest` is
the conclusion for all stubs, and `Canonical` carries it through whole runs.
-/

namespace RegisterJit

/-! ## Cells -/

namespace Scopes

variable {s : Scopes} {c d : CellRef} {x : Cell} {v : Value}

theorem value_setCell (s : Scopes) (c d : CellRef) (x : Cell) :
    ((s.setCell c x).cell d).value = x.value ∨ ((s.setCell c x).cell d).value = (s.cell d).value := by
  rw [setCell, cell, cell, Array.getD_eq_getD_getElem?, Array.getD_eq_getD_getElem?, Array.getElem?_setIfInBounds]
  split
  · next heq =>
    subst heq
    split
    · exact .inl rfl
    · next hout => exact .inr (by rw [Array.getElem?_eq_none (Nat.le_of_not_lt hout)])
  · exact .inr rfl

theorem value_bind (s : Scopes) (e : EnvRef) (name : Text) (x : Cell) (d : CellRef) :
    ((s.bind e name x).cell d).value = x.value ∨ ((s.bind e name x).cell d).value = (s.cell d).value := by
  unfold bind
  split
  · exact .inr rfl
  · rw [cell, cell, Array.getD_eq_getD_getElem?, Array.getD_eq_getD_getElem?, Array.getElem?_push]
    split
    · exact .inl rfl
    · exact .inr rfl

theorem value_pushSlots (s : Scopes) (parent size start : Nat) (d : CellRef) :
    ((s.pushSlots parent size start).2.cell d).value = Value.undefined ∨
      ((s.pushSlots parent size start).2.cell d).value = Value.empty ∨
      ((s.pushSlots parent size start).2.cell d).value = (s.cell d).value := by
  change ((s.cells ++ _).getD d _).value = _ ∨ ((s.cells ++ _).getD d _).value = _ ∨ ((s.cells ++ _).getD d _).value = _
  rw [cell, Array.getD_eq_getD_getElem?, Array.getD_eq_getD_getElem?, Array.getElem?_append]
  split
  · exact .inr (.inr rfl)
  · rw [Array.getElem?_ofFn]
    split
    · rw [Option.getD_some]
      split
      · exact .inl rfl
      · exact .inr (.inl rfl)
    · exact .inr (.inl rfl)

end Scopes

namespace Run

variable {α β : Type} {w w' : World} {good : Heap → α → Prop} {fine : Heap → β → Prop} {ev : Evaluator} {v : Value}

/-! ## Variables -/

theorem modifyScopes_clean {f : Scopes → Scopes}
    (hf : w.Genuine → ∀ c, w.realm.heap.Knows ((f w.realm.scopes).cell c).value) : Clean (modifyScopes f) w :=
  ⟨fun hw => ⟨.refl _, hw.withScopes (hf hw), trivial⟩⟩

theorem setCellTo_clean (c : CellRef) {x : Cell} (hx : w.realm.heap.Knows x.value) :
    Clean (modifyScopes fun s => s.setCell c x) w :=
  modifyScopes_clean fun hw d => (w.realm.scopes.value_setCell c d x).elim (· ▸ hx) (· ▸ hw.cells d)

theorem setValue_clean (c : CellRef) (hv : w.realm.heap.Knows v) : Clean (modifyScopes fun s => s.setValue c v) w :=
  modifyScopes_clean fun hw d =>
    (w.realm.scopes.value_setCell c d { w.realm.scopes.cell c with value := v }).elim (· ▸ hv) (· ▸ hw.cells d)

theorem bind_clean (e : EnvRef) (name : Text) {x : Cell} (hx : w.realm.heap.Knows x.value) :
    Clean (modifyScopes fun s => s.bind e name x) w :=
  modifyScopes_clean fun hw d => (w.realm.scopes.value_bind e name x d).elim (· ▸ hx) (· ▸ hw.cells d)

theorem unbind_clean (e : EnvRef) (name : Text) : Clean (modifyScopes fun s => s.unbind e name) w :=
  modifyScopes_clean fun hw d => Scopes.cell_unbind (s := w.realm.scopes) e name ▸ hw.cells d

theorem pushEnv_clean (parent : EnvRef) (kind : EnvKind) : Clean (pushEnv parent kind) w :=
  ⟨fun hw => ⟨.refl _, hw.withScopes (f := fun s => (s.push (some parent) kind).2) hw.cells, trivial⟩⟩

theorem envOrCrash_clean (e : EnvRef) : Clean (envOrCrash e) w := by
  refine .realm fun _ => ?_
  split
  · exact .pure trivial
  · exact .throw trivial

theorem lexicalEnv_clean (frame : FrameRef) : Clean (lexicalEnv frame) w := .machine (envOrCrash_clean _)

theorem setLexicalEnv_clean (frame : FrameRef) (e : EnvRef) : Clean (setLexicalEnv frame e) w := modifyMachine_clean _

theorem closureEnv_clean (frame : FrameRef) : Clean (closureEnv frame) w := by
  refine .realm fun _ => .machine ?_
  split
  · exact .pure trivial
  · split <;> exact .pure trivial

theorem resolve_clean (frame : FrameRef) (name : Text) : Clean (resolve frame name) w :=
  .next (lexicalEnv_clean _) fun _ _ _ => .realm fun _ => .pure trivial

theorem notDefined_honest (name : Text) : Honest good (notDefined name : Run α) w := raise_honest _ _

theorem notInitialized_honest (name : Text) : Honest good (notInitialized name : Run α) w := raise_honest _ _

theorem constantAssigned_honest (name : Text) : Honest good (constantAssigned name : Run α) w := raise_honest _ _

theorem cell_honest {c : CellRef} {f : Cell → Run β}
    (hf : w.realm.heap.Knows (w.realm.scopes.cell c).value → Honest fine (f (w.realm.scopes.cell c)) w) :
    Honest fine (cell c >>= f) w :=
  .read rfl fun hw => hf (hw.cells c)

theorem setCell_clean (c : CellRef) (name : Text) (strict : Bool) (hv : w.realm.heap.Knows v) :
    Clean (setCell c name v strict) w := by
  refine cell_honest fun _ => ?_
  split
  · split
    · exact constantAssigned_honest _
    · exact .pure trivial
  · exact setValue_clean c hv

section

variable (hev : ev.Honest)

include hev

theorem getReference_known (ref : Reference) (name : Text) : Known (getReference ev ref name) w := by
  unfold getReference
  split
  · exact get_known hev _ _ (Heap.knows_value _)
  · refine cell_honest fun hvalue => ?_
    dsimp only
    split
    · exact notInitialized_honest _
    · exact .pure hvalue

theorem setReference_clean (ref : Reference) (name : Text) (strict : Bool) (hv : w.realm.heap.Knows v) :
    Clean (setReference ev ref name v strict) w := by
  unfold setReference
  split
  · exact putProperty_clean hev _ _ (Heap.knows_value _) hv
  · exact setCell_clean _ _ _ hv

theorem loadName_known (frame : FrameRef) (name : Text) : Known (loadName ev frame name) w := by
  refine .next (resolve_clean _ _) fun ref w₁ _ => ?_
  split
  · exact notDefined_honest _
  · exact getReference_known hev _ _

theorem storeName_clean (frame : FrameRef) (name : Text) (strict : Bool) (hv : w.realm.heap.Knows v) :
    Clean (storeName ev frame name v strict) w := by
  refine .next (resolve_clean _ _) fun ref w₁ hkeeps => ?_
  split
  · exact setReference_clean hev _ _ _ (hv.keep hkeeps)
  · split
    · exact notDefined_honest _
    · exact .realm fun _ => putProperty_clean hev _ _ (Heap.knows_value _) (hv.keep hkeeps)

omit hev in
theorem deleteName_clean (frame : FrameRef) (name : Text) : Clean (deleteName frame name) w := by
  refine .next (resolve_clean _ _) fun ref w₁ _ => ?_
  split
  · exact .pure trivial
  · exact deleteProperty_clean _ _ _
  · refine cell_honest fun _ => ?_
    split
    · exact .next (unbind_clean _ _) fun _ _ _ => .pure trivial
    · exact .pure trivial

theorem typeofName_known (frame : FrameRef) (name : Text) : Known (typeofName ev frame name) w := by
  refine .next (resolve_clean _ _) fun ref w₁ _ => ?_
  split
  · exact intern_known _
  · exact .next (getReference_known hev _ _).clean fun _ _ _ => .heap fun _ => intern_known _

theorem stepName_known (frame : FrameRef) (name : Text) (mode : UInt64) : Known (stepName ev frame name mode) w := by
  refine .next (resolve_clean _ _) fun ref w₁ _ => ?_
  split
  · exact notDefined_honest _
  · exact .next (getReference_known hev _ _).clean fun _ _ _ => .bind (stepNumber_known hev _ _) fun _ _ _ hp =>
      .next (setReference_clean hev _ _ _ hp.1) fun _ _ hkeeps => .pure (hp.2.keep hkeeps)

theorem prepareDynamicCall_known (frame : FrameRef) (name : Text) (receiver : UInt64) :
    Known (prepareDynamicCall ev frame name receiver) w := by
  refine .next (resolve_clean _ _) fun ref w₁ _ => ?_
  split
  · exact notDefined_honest _
  · exact .bind (getReference_known hev _ _) fun _ _ _ hfn => .realm fun _ => .next (modifyMachine_clean _)
      fun _ _ hkeeps => .pure (hfn.keep hkeeps)

/-! ## Global variables -/

theorem loadGlobal_known (name : Text) : Known (loadGlobal ev name) w := by
  refine .realm fun _ => .heap fun _ => ?_
  split
  · exact get_known hev _ _ (Heap.knows_value _)
  · exact notDefined_honest _

theorem storeGlobal_clean (name : Text) (strict : Bool) (hv : w.realm.heap.Knows v) :
    Clean (storeGlobal ev name v strict) w := by
  refine .realm fun _ => .heap fun _ => ?_
  split
  · exact notDefined_honest _
  · exact putProperty_clean hev _ _ (Heap.knows_value _) hv

omit hev in
theorem deleteGlobal_clean (name : Text) : Clean (deleteGlobal name) w := .realm fun _ => deleteProperty_clean _ _ _

theorem typeofGlobal_known (name : Text) : Known (typeofGlobal ev name) w := by
  refine .heap fun _ => .realm fun _ => ?_
  split
  · exact .next (loadGlobal_known hev _).clean fun _ _ _ => .heap fun _ => intern_known _
  · exact intern_known _

theorem stepGlobal_known (name : Text) (mode : UInt64) : Known (stepGlobal ev name mode) w :=
  .next (loadGlobal_known hev _).clean fun _ _ _ => .bind (stepNumber_known hev _ _) fun _ _ _ hp => .realm fun _ =>
    .next (putProperty_clean hev _ _ (Heap.knows_value _) hp.1) fun _ _ hkeeps => .pure (hp.2.keep hkeeps)

end

/-! ## Slots -/

theorem heapSlot_clean (frame : FrameRef) (offset nest : UInt64) : Clean (heapSlot frame offset nest) w := by
  refine .next (lexicalEnv_clean _) fun e w₁ _ => .realm fun _ => ?_
  split
  · exact .pure trivial
  · exact internalError_honest _

theorem loadHeap_known (frame : FrameRef) (name : Text) (offset nest : UInt64) :
    Known (loadHeap frame name offset nest) w := by
  refine .next (heapSlot_clean _ _ _) fun c w₁ _ => cell_honest fun hvalue => ?_
  have hrest {x : Value} {w' : World} (hx : w'.realm.heap.Knows x) :
      Known (if x.isEmpty then notInitialized name else return x : Run Value) w' := by
    split
    · exact notInitialized_honest _
    · exact .pure hx
  dsimp only
  split
  · exact .next (setCellTo_clean c hvalue) fun _ _ hkeeps => hrest (hvalue.keep hkeeps)
  · exact hrest hvalue

theorem storeHeap_clean (frame : FrameRef) (offset nest : UInt64) (strict : Bool) (hv : w.realm.heap.Knows v) :
    Clean (storeHeap frame v offset nest strict) w :=
  .next (heapSlot_clean _ _ _) fun _ _ hkeeps => cell_honest fun _ => setCell_clean _ _ _ (hv.keep hkeeps)

theorem typeofHeap_known (frame : FrameRef) (name : Text) (offset nest : UInt64) :
    Known (typeofHeap frame name offset nest) w :=
  .next (loadHeap_known _ _ _ _).clean fun _ _ _ => .heap fun _ => intern_known _

theorem stepHeap_known (hev : ev.Honest) (frame : FrameRef) (mode offset nest : UInt64) :
    Known (stepHeap ev frame mode offset nest) w := by
  refine .next (heapSlot_clean _ _ _) fun c w₁ _ => cell_honest fun _ => ?_
  split
  · exact notInitialized_honest _
  · refine .bind (stepNumber_known hev _ _) fun p w₂ _ hp => cell_honest fun _ => ?_
    split
    · exact .next (setValue_clean c hp.1) fun _ _ hkeeps => .pure (hp.2.keep hkeeps)
    · split
      · exact constantAssigned_honest _
      · exact .pure hp.2

theorem initializeHeapImmutable_clean (frame : FrameRef) (offset : UInt64) (hv : w.realm.heap.Knows v) :
    Clean (initializeHeapImmutable frame v offset) w :=
  .next (heapSlot_clean _ _ _) fun c _ hkeeps => setValue_clean c (hv.keep hkeeps)

/-! ## Environments -/

theorem pushSlots_clean (parent size start : Nat) : Clean (modifyGet fun w =>
    let (e, scopes) := w.realm.scopes.pushSlots parent size start
    (e, { w with realm := { w.realm with scopes := scopes } }) : Run EnvRef) w := by
  refine ⟨fun hw => ⟨.refl _, hw.withScopes (f := fun s => (s.pushSlots parent size start).2) fun c => ?_, trivial⟩⟩
  rcases w.realm.scopes.value_pushSlots parent size start c with h | h | h
  · exact h ▸ Heap.knows_undefined
  · exact h ▸ Heap.knows_empty
  · exact h ▸ hw.cells c

theorem buildEnv_clean (frame : FrameRef) (size mutableStart : UInt64) :
    Clean (buildEnv frame size mutableStart) w := by
  refine .next (lexicalEnv_clean _) fun outer w₁ _ => .next (pushSlots_clean _ _ _) fun e w₂ _ => .machine ?_
  refine .next (f := fun current => _) (.machine (.pure trivial)) fun current w₃ _ => ?_
  refine .next (closureEnv_clean _) fun closure w₄ _ => ?_
  dsimp only
  split
  · exact .next (modifyMachine_clean _) fun _ _ _ => setLexicalEnv_clean _ _
  · exact setLexicalEnv_clean _ _

theorem instantiate_clean (frame : FrameRef) (name : Text) (isFunction configurable : Bool) :
    Clean (instantiate frame name isFunction configurable) w := by
  refine .read rfl fun _ => .next (envOrCrash_clean _) fun e w₁ _ => .realm fun _ => ?_
  split
  · refine object_honest fun _ _ => ?_
    split
    · split
      · split
        · exact define_clean (List.forall_mem_singleton.2 Heap.knows_undefined)
        · exact .pure trivial
      · exact .pure trivial
    · exact defineData_clean Heap.knows_undefined
  · split
    · split
      · exact setValue_clean _ Heap.knows_undefined
      · exact .pure trivial
    · exact bind_clean _ _ Heap.knows_undefined

theorem withSetup_clean (frame : FrameRef) (hv : w.realm.heap.Knows v) : Clean (withSetup frame v) w :=
  .next (toObject_clean hv) fun _ _ _ => .next (lexicalEnv_clean _) fun _ _ _ => .next (pushEnv_clean _ _) fun _ _ _ =>
    setLexicalEnv_clean _ _

theorem popEnv_clean (frame : FrameRef) : Clean (popEnv frame) w := by
  refine .realm fun _ => .next (lexicalEnv_clean _) fun e w₁ _ => ?_
  split
  · exact setLexicalEnv_clean _ _
  · exact .pure trivial

theorem tryCatchSetup_known (frame : FrameRef) (name : Text)
    (hv : w.realm.heap.Knows ⟨w.machine.contextWord Context.exception⟩) : Known (tryCatchSetup frame name) w :=
  .machine <| .next (lexicalEnv_clean _) fun _ _ hkeeps => .next (pushEnv_clean _ _) fun e _ hkeeps' =>
    have hv' := (hv.keep hkeeps).keep hkeeps'
    .next (bind_clean e name hv') fun _ _ hkeeps'' => .next (setLexicalEnv_clean _ _) fun _ _ hlast =>
      .pure ((hv'.keep hkeeps'').keep hlast)

/-! ## Built-in functions -/

theorem knows_argument {h : Heap} {args : List Value} (hargs : ∀ v ∈ args, h.Knows v) (i : Nat) :
    h.Knows (argument args i) := by
  rw [argument, List.getD_eq_getElem?_getD]
  cases hi : args[i]? with
  | none => exact Heap.knows_undefined
  | some v => exact hargs v (List.mem_of_getElem? hi)

theorem arrayReceiver_clean (method : String) (this : Value) : Clean (arrayReceiver method this) w := by
  unfold arrayReceiver
  dsimp only
  split
  · refine object_honest fun _ _ => ?_
    split
    · exact .pure trivial
    · exact raise_honest _ _
  · exact raise_honest _ _

theorem append_clean (r : ObjectRef) {args : List Value} (hargs : ∀ v ∈ args, w.realm.heap.Knows v) :
    Clean (modifyObject r fun o => { o with elements := o.elements.append args.toArray }) w := by
  refine modifyObject_clean fun _ x hx => ?_
  rcases hx.of_elements with hx | hx
  · exact .inl hx
  · exact hx.of_append.imp .element fun hx => hargs x (List.mem_toArray.1 hx)

section

variable {args : List Value} (hargs : ∀ v ∈ args, w.realm.heap.Knows v)

include hargs

theorem evaluate_known : Known (evaluate args) w := by
  unfold evaluate
  split
  · exact .pure Heap.knows_undefined
  · split
    · exact raise_honest _ _
    · exact .pure (hargs _ List.mem_cons_self)

theorem fill_known : Known (makeArray.fill args) w :=
  .next (newArray_clean 0) fun r _ hkeeps => .next (append_clean r fun v hv => (hargs v hv).keep hkeeps) fun _ _ _ =>
    .pure (Heap.knows_value _)

theorem makeArray_known : Known (makeArray args) w := by
  unfold makeArray
  split
  · split
    · dsimp only
      split
      · exact .next (newArray_clean _) fun _ _ _ => .pure (Heap.knows_value _)
      · exact raise_honest _ _
    · exact fill_known hargs
  · exact fill_known hargs

end

section

variable (hev : ev.Honest)

include hev

theorem listItems_known {list : Value} (hlist : w.realm.heap.Knows list) (count i : Nat) {done : List Value}
    (hdone : ∀ v ∈ done, w.realm.heap.Knows v) :
    Honest (fun h vs => ∀ v ∈ vs, h.Knows v) (listItems ev list count i done) w := by
  induction count generalizing i done w with
  | zero => exact .pure fun v hv => hdone v (List.mem_reverse.1 hv)
  | succ count ih =>
    exact .bind (getProperty_known hev _ hlist) fun v _ hkeeps hv => ih (hlist.keep hkeeps) _
      (List.forall_mem_cons.2 ⟨hv, fun x hx => (hdone x hx).keep hkeeps⟩)

theorem applyArguments_known (hv : w.realm.heap.Knows v) :
    Honest (fun h vs => ∀ v ∈ vs, h.Knows v) (applyArguments ev v) w := by
  unfold applyArguments
  split
  · exact .pure fun _ => nofun
  · exact .next (get_known hev _ _ hv).clean fun _ _ hkeeps => .next (toNumber_clean hev _) fun _ _ hkeeps' =>
      listItems_known hev (hv.keep (hkeeps.trans hkeeps')) _ _ fun _ => nofun

theorem textsOf_clean (done : List Text) (vs : List Value) : Clean (textsOf ev done vs) w := by
  induction vs generalizing done w with
  | nil => exact .pure trivial
  | cons v rest ih => exact .next (toText_clean hev _) fun _ _ _ => ih _

theorem builtin_known (b : Builtin) {this : Value} {args : List Value} (hthis : w.realm.heap.Knows this)
    (hargs : ∀ v ∈ args, w.realm.heap.Knows v) : Known (builtin ev b this args) w := by
  cases b with
  | objectToString =>
    unfold builtin
    dsimp only
    split
    · exact .next (defaultText_clean hev _) fun _ _ _ => intern_known _
    · exact .heap fun _ => intern_known _
  | objectValueOf =>
    unfold builtin
    dsimp only
    split
    · refine object_honest fun _ ho => .pure ?_
      split
      · exact hthis
      · exact ho _ (.primitive rfl)
    · exact .pure hthis
  | objectHasOwnProperty =>
    exact .next (toObject_clean hthis) fun _ _ _ => .next (propertyKey_clean hev _) fun _ _ _ =>
      object_honest fun _ _ => .pure (Heap.knows_ofBool _)
  | functionCall => exact hev.call hthis (knows_argument hargs 0) fun v hv => hargs v (List.mem_of_mem_drop hv)
  | functionApply =>
    exact .bind (applyArguments_known hev (knows_argument hargs 1)) fun _ _ hkeeps hrest =>
      hev.call (hthis.keep hkeeps) ((knows_argument hargs 0).keep hkeeps) hrest
  | arrayPush =>
    exact .next (arrayReceiver_clean _ _) fun r _ hkeeps => .next (append_clean r fun v hv => (hargs v hv).keep hkeeps)
      fun _ _ _ => object_honest fun _ _ => .pure (Heap.knows_ofInt _)
  | arrayPop =>
    refine .next (arrayReceiver_clean _ _) fun r _ _ => object_honest fun _ ho => ?_
    split
    · exact .pure Heap.knows_undefined
    · next last hlast =>
      refine .next (setLength_clean r fun o => o.elements.size - 1) fun _ _ hkeeps => .pure ?_
      split
      · exact Heap.knows_undefined
      · exact (ho last (.element (.inl (Array.mem_of_back? hlast)))).keep hkeeps
  | arrayJoin =>
    refine .next (arrayReceiver_clean _ _) fun r _ _ => ?_
    have hjoin (sep : Text) (w : World) : Known (do intern (← join ev r sep)) w :=
      .next (join_clean hev _ _) fun _ _ _ => intern_known _
    dsimp only
    split
    · exact .read rfl fun _ => hjoin _ _
    · split
      · exact .read rfl fun _ => hjoin _ _
      · exact .next (toText_clean hev _) fun _ _ _ => hjoin _ _
  | errorToString =>
    unfold builtin
    dsimp only
    split
    · exact raise_honest _ _
    · exact .heap fun _ => intern_known _
  | errorConstructor proto =>
    have hnew (message : Text) (w : World) : Known (do return Heap.value (← newError proto message)) w :=
      .next (newError_clean _ _) fun _ _ _ => .pure (Heap.knows_value _)
    unfold builtin
    dsimp only
    split
    · exact .read rfl fun _ => hnew _ _
    · split
      · exact .read rfl fun _ => hnew _ _
      · exact .next (toText_clean hev _) fun _ _ _ => hnew _ _
  | print =>
    exact .next (textsOf_clean hev _ _) fun _ _ _ => .next (printLine_clean _) fun _ _ _ => .pure Heap.knows_undefined
  | eval => exact evaluate_known hargs
  | isNaN => exact .next (toNumber_clean hev _) fun _ _ _ => .pure (Heap.knows_ofBool _)
  | stringFunction =>
    unfold builtin
    dsimp only
    split
    · exact intern_known _
    · exact .next (toText_clean hev _) fun _ _ _ => intern_known _
  | numberFunction =>
    unfold builtin
    dsimp only
    split
    · exact .pure (Heap.knows_ofInt _)
    · exact .next (toNumber_clean hev _) fun _ _ _ => .pure (Heap.knows_number _)
  | arrayFunction => exact makeArray_known hargs
  | objectFunction =>
    unfold builtin
    dsimp only
    split
    · exact .next newObject_clean fun _ _ _ => .pure (Heap.knows_value _)
    · exact .next (toObject_clean (knows_argument hargs 0)) fun _ _ _ => .pure (Heap.knows_value _)
  | receiver => exact .pure hthis
  | callback =>
    unfold builtin
    dsimp only
    split
    · exact .throw trivial
    · exact hev.call (hargs _ List.mem_cons_self) hthis fun v hv => hargs v (List.mem_cons_of_mem _ hv)

end

/-! ## Functions as objects -/

theorem allocFunction_clean (proto : Option ObjectRef) (f : Function) :
    Clean (alloc { Object.ofClass .function proto with function := some f }) w := by
  refine alloc_clean fun x hx => ?_
  have hplain : (Object.ofClass .function proto).Contains x := by
    cases hx with
    | primitive h => exact .primitive h
    | element h => exact .element h
    | property h hx => exact .property h hx
  exact Object.not_contains_ofClass hplain ▸ Heap.knows_empty

theorem newBuiltin_clean (name : Text) (arity : Int) (b : Builtin) : Clean (newBuiltin name arity b) w :=
  .realm fun _ => .next (allocFunction_clean _ _) fun _ _ _ => .next (defineData_clean (Heap.knows_ofInt _))
    fun _ _ _ => .bind (intern_known _) fun _ _ _ hname => .next (defineData_clean hname) fun _ _ _ => .pure trivial

theorem newFunction_clean (code : MachineCode) (env : EnvRef) : Clean (newFunction code env) w :=
  .realm fun _ => .next (allocFunction_clean _ _) fun _ _ _ => .next newObject_clean fun _ _ _ =>
    .next (defineData_clean (Heap.knows_value _)) fun _ _ _ => .next (defineData_clean (Heap.knows_value _))
      fun _ _ _ => .next (defineData_clean (Heap.knows_int32 _)) fun _ _ _ => .bind (intern_known _) fun _ _ _ hname =>
        .next (defineData_clean hname) fun _ _ _ => .pure trivial

theorem newArguments_clean (frame : FrameRef) (hcallee : w.realm.heap.Knows (w.machine.frameCallee frame))
    (hargs : ∀ i, w.realm.heap.Knows (w.machine.frameArgument frame i)) : Clean (newArguments frame) w := by
  refine .realm fun _ => (allocClass_clean _ _).trail fun r w₁ hrun h₁ _ => .machine ?_
  cases hrun
  refine .next (.forM (fun i _ h₂ => defineData_clean ((hargs i).keep (h₁.trans h₂))) _) fun _ _ h₂ => ?_
  exact .next (defineData_clean (Heap.knows_ofInt _)) fun _ _ h₃ =>
    .next (defineData_clean (((hcallee.keep h₁).keep h₂).keep h₃)) fun _ _ _ => .pure trivial

theorem newRegExp_known {pattern flags : Value} (hpattern : w.realm.heap.Knows pattern)
    (hflags : w.realm.heap.Knows flags) : Known (newRegExp pattern flags) w := by
  refine .next (textOrCrash_clean _) fun source w₁ h₁ => .next (textOrCrash_clean _) fun flagText w₂ h₂ => ?_
  dsimp only
  split
  · exact raise_next_honest _ _ _
  · refine .realm fun _ => .next (allocClass_clean _ _) fun r w₃ h₃ => ?_
    have hkeeps := (h₁.trans h₂).trans h₃
    refine .next (defineData_clean (hpattern.keep hkeeps)) fun _ w₄ h₄ => ?_
    refine .next (defineData_clean (hflags.keep (hkeeps.trans h₄))) fun _ w₅ _ => ?_
    refine .next (defineData_clean (Heap.knows_ofBool _)) fun _ _ _ => .next (defineData_clean (Heap.knows_ofBool _))
      fun _ _ _ => .next (defineData_clean (Heap.knows_ofBool _)) fun _ _ _ =>
        .next (defineData_clean (Heap.knows_ofInt _)) fun _ _ _ => ?_
    split
    · exact .bind (intern_known _) fun _ _ _ hsource => .next (defineData_clean hsource) fun _ _ _ =>
        .pure (Heap.knows_value _)
    · exact .pure (Heap.knows_value _)

/-! ## Calls -/

theorem codeOrCrash_run (id : UInt32) (w : World) :
    (∃ c, codeOrCrash id w = .ok c w) ∨ codeOrCrash id w = .error .crash w := by
  rw [codeOrCrash, bind_ok (machine_run w)]
  cases w.machine.code? id with
  | some c => exact .inl ⟨c, rfl⟩
  | none => exact .inr rfl

theorem codeOrCrash_clean (id : UInt32) : Clean (codeOrCrash id) w := by
  refine .machine ?_
  split
  · exact .pure trivial
  · exact .throw trivial

theorem symbol_run (ref : UInt64) (w : World) :
    (∃ name, symbol ref w = .ok name w) ∨ symbol ref w = .error .crash w := by
  rcases codeOrCrash_run (splitReference ref).1 w with ⟨c, hc⟩ | hc
  · unfold symbol
    dsimp only
    rw [bind_ok hc]
    cases c.unit.code.names[(splitReference ref).2.toNat]? with
    | some name => exact .inl ⟨name, rfl⟩
    | none => exact .inr rfl
  · exact .inr (bind_error hc)

theorem symbol_honest {ref : UInt64} {f : Text → Run β} (hf : ∀ name, Honest fine (f name) w) :
    Honest fine (symbol ref >>= f) w := by
  rcases symbol_run ref w with ⟨name, hrun⟩ | hrun
  · exact .read hrun fun _ => hf name
  · refine ⟨fun hw => ?_⟩
    rw [bind_error hrun]
    exact ⟨.refl _, hw, trivial⟩

theorem siteText_clean (ref : UInt64) : Clean (siteText ref) w := by
  refine .machine ?_
  split <;> exact .pure trivial

theorem frameStrict_clean (frame : FrameRef) : Clean (frameStrict frame) w :=
  .machine <| .next (codeOrCrash_clean _) fun _ _ _ => .pure trivial

theorem receiver_clean (code : Code) (this : Value) : Clean (receiver code this) w := by
  unfold receiver
  split
  · exact .realm fun _ => .pure trivial
  · exact .pure trivial

theorem tooDeep_honest : Honest good (tooDeep : Run α) w := raise_honest _ _

theorem pushFrame_clean (prev : UInt64) (call : Call) : Clean (pushFrame prev call) w := by
  refine .machine ?_
  split
  · exact ⟨fun hw => ⟨.refl _, ⟨hw.canonical, hw.objects, hw.cells⟩, trivial⟩⟩
  · exact .pure trivial

theorem pushedFrame_clean (prev : UInt64) (call : Call) : Clean (do
    match ← pushFrame prev call with
    | none => tooDeep
    | some frame => return frame : Run UInt64) w := by
  refine .next (pushFrame_clean _ _) fun frame? _ _ => ?_
  split
  · exact tooDeep_honest
  · exact .pure trivial

theorem enterCompiled_clean (callee this : Value) (args : List Value) (code : Nat) (env : EnvRef) (construct : Bool)
    (nativeSP : UInt64) : Clean (enterCompiled callee this args code env construct nativeSP) w := by
  refine .machine ?_
  dsimp only
  split
  · exact raise_next_honest _ _ _
  · refine .next (codeOrCrash_clean _) fun target _ _ => ?_
    split
    · exact .read rfl fun _ => .machine (pushedFrame_clean _ _)
    · exact .next (receiver_clean _ _) fun _ _ _ => .machine (pushedFrame_clean _ _)

theorem loadFunction_known (frame : FrameRef) (ref : UInt64) : Known (loadFunction frame ref) w :=
  .next (codeOrCrash_clean _) fun _ _ _ => .next (codeOrCrash_clean _) fun _ _ _ => .next (lexicalEnv_clean _)
    fun _ _ _ => .next (newFunction_clean _ _) fun _ _ _ => .pure (Heap.knows_value _)

section

variable (hev : ev.Honest)

include hev

theorem newInstance_known {callee : Value} (fn : ObjectRef) (hcallee : w.realm.heap.Knows callee) :
    Known (newInstance ev callee fn) w :=
  .next (get_known hev _ _ hcallee).clean fun _ _ _ => .next (protoOf_clean _) fun _ _ _ =>
    .next (allocClass_clean _ _) fun _ _ _ => .pure (Heap.knows_value _)

theorem notCallable_honest (callee : Value) (site : UInt64) : Honest good (notCallable ev callee site : Run α) w :=
  .next hev.display fun _ _ _ => .next (siteText_clean _) fun _ _ _ => raise_honest _ _

theorem callFunction_honest (frame : UInt64) (f : Function) (callee : Value) {this : Value} {args : List Value}
    (construct : Bool) (nativeSP : UInt64) (hthis : w.realm.heap.Knows this)
    (hargs : ∀ v ∈ args, w.realm.heap.Knows v) :
    Honest (fun h r => h.Knows ⟨r.2⟩) (callFunction ev frame f callee this args construct nativeSP) w := by
  unfold callFunction
  split
  · refine .bind (builtin_known hev _ hthis hargs) fun result _ hkeeps hresult => .pure ?_
    dsimp only
    split
    · exact hthis.keep hkeeps
    · exact hresult
  · exact .next (enterCompiled_clean _ _ _ _ _ _ _) fun _ _ _ => .pure (Heap.knows_of_not_isString (v := ⟨0⟩) rfl)

theorem callStub_honest (s : Stub) {callee : Value} {address count : UInt64} (nativeSP site : UInt64)
    (hcallee : w.realm.heap.Knows callee) (hthis : w.realm.heap.Knows ⟨w.machine.readWord address⟩)
    (hargs : ∀ v ∈ w.machine.window (address + 8) count.toNat, w.realm.heap.Knows v) :
    Honest (fun h r => h.Knows ⟨r.2⟩) (callStub ev s callee address count nativeSP site) w := by
  unfold callStub
  refine .machine <| .machine <| .machine <| .realm fun _ => ?_
  split
  · exact notCallable_honest hev _ _
  · split
    · exact notCallable_honest hev _ _
    · split
      · exact .bind (evaluate_known hargs) fun _ _ _ hv => .pure hv
      · split
        · exact .bind (newInstance_known hev _ hcallee) fun this _ hkeeps hthis => .next (modifyMachine_clean _)
            fun _ _ hkeeps' => callFunction_honest hev _ _ _ _ _ (hthis.keep hkeeps') fun v hv =>
              (hargs v hv).keep (hkeeps.trans hkeeps')
        · exact callFunction_honest hev _ _ _ _ _ hthis hargs

end

end Run

/-! ## Stubs -/

namespace Stub

/-- The values that a stub takes from compiled code: those of its words that are values, those that it reads from
memory, and the exception that is pending. -/
def taken (m : Machine) (a b c d : UInt64) : Stub → List Value
  | .concat => m.window a b.toNat
  | .loadArguments =>
    m.frameCallee a :: (List.range (m.frameWord a Frame.argumentCount).toNat).map (m.frameArgument a)
  | .initVectorElement => m.window b d.toNat
  | .initSparseElement | .storeObject _ | .storeName _ => [⟨c⟩]
  | .storeGlobal _ | .storeHeap | .initializeHeapImmutable | .withSetup => [⟨b⟩]
  | .storeProp _ => [⟨a⟩, ⟨c⟩]
  | .storeElement _ => [⟨a⟩, ⟨b⟩, ⟨c⟩]
  | .tryCatchSetup => [⟨m.contextWord Context.exception⟩]
  | .call | .construct | .eval => ⟨a⟩ :: ⟨m.readWord b⟩ :: m.window (b + 8) c.toNat
  | .binary _ | .loadRegExp | .loadElement | .deleteElement _ | .stepElement => [⟨a⟩, ⟨b⟩]
  | .unaryPositive | .unaryNegative | .unaryNot | .unaryBitNot | .typeof | .increment | .decrement | .toNumber
  | .toPrimitiveString | .toBoolean | .loadProp | .deleteProp _ | .stepProp | .raiseNotCoercible | .throw
  | .forInSetup | .forInEnumerate | .forInLeave => [⟨a⟩]
  | .loadFunction | .loadArray | .loadObject | .loadGlobal | .deleteGlobal | .typeofGlobal | .stepGlobal | .loadHeap
  | .typeofHeap | .stepHeap | .loadName | .deleteName | .typeofName | .stepName | .raiseReference | .raiseImmutable
  | .debugger | .buildEnv | .instantiate _ _ | .popEnv | .prepareDynamicCall => []

/-- The value among the results of a stub. The first result of a call is a frame. -/
def yielded (r : UInt64 × UInt64) : Stub → Value
  | .call | .construct | .eval => ⟨r.2⟩
  | _ => ⟨r.1⟩

end Stub

namespace Run

/-- The work of a stub. -/
theorem stub_honest {w : World} {ev : Evaluator} (hev : ev.Honest) (s : Stub) {a b c d : UInt64} (e : UInt64)
    (htaken : ∀ v ∈ s.taken w.machine a b c d, w.realm.heap.Knows v) :
    Honest (fun h r => h.Knows (s.yielded r)) (stub ev s a b c d e) w := by
  have result {x : Run Value} (h : Known x w) :
      Honest (fun h r => h.Knows ⟨r.1⟩) (do return ((← x).word, (0 : UInt64)) : Run (UInt64 × UInt64)) w :=
    .bind h fun _ _ _ hv => .pure hv
  have truth {x : Run Bool} (h : Clean x w) :
      Honest (fun h r => h.Knows ⟨r.1⟩)
        (do return ((Value.ofBool (← x)).word, (0 : UInt64)) : Run (UInt64 × UInt64)) w :=
    .next h fun _ _ _ => .pure (Heap.knows_ofBool _)
  have done {x : Run Unit} (h : Clean x w) :
      Honest (fun h r => h.Knows ⟨r.1⟩) (do x; return ((0 : UInt64), (0 : UInt64)) : Run (UInt64 × UInt64)) w :=
    .next h fun _ _ _ => .pure (Heap.knows_of_not_isString (v := ⟨0⟩) rfl)
  cases s with
  | binary op =>
    obtain ⟨ha, hb⟩ := Heap.forall_mem_pair.1 htaken
    exact result (binary_known hev ha hb op)
  | unaryPositive | unaryNegative | unaryNot | unaryBitNot | typeof | increment | decrement
  | toNumber | toPrimitiveString | toBoolean =>
    exact result (unaryStub_known hev _ (List.forall_mem_singleton.1 htaken))
  | concat => exact result (.machine (concat_known hev _))
  | loadFunction => exact result (loadFunction_known _ _)
  | loadRegExp =>
    obtain ⟨ha, hb⟩ := Heap.forall_mem_pair.1 htaken
    exact result (newRegExp_known ha hb)
  | loadArguments =>
    obtain ⟨hcallee, hargs⟩ := List.forall_mem_cons.1 htaken
    refine result (.next (newArguments_clean _ hcallee fun i => ?_) fun _ _ _ => .pure (Heap.knows_value _))
    by_cases hi : i < (w.machine.frameWord a Frame.argumentCount).toNat
    · exact hargs _ (List.mem_map.2 ⟨i, List.mem_range.2 hi, rfl⟩)
    · rw [Machine.frameArgument, if_pos (Nat.le_of_not_lt hi)]
      exact Heap.knows_undefined
  | loadArray => exact result (.next (newArray_clean _) fun _ _ _ => .pure (Heap.knows_value _))
  | initVectorElement =>
    refine done <| (refOrCrash_clean _).trail fun r w₁ hrun hkeeps _ => .machine ?_
    obtain ⟨rfl, -, -⟩ := refOrCrash_ok hrun
    refine modifyObject_clean fun _ x hx => hx.of_setElements.imp_right ?_
    rintro (rfl | hx)
    · exact Heap.knows_empty
    · exact htaken x hx
  | initSparseElement =>
    refine done <| .next (refOrCrash_clean _) fun r w₁ hkeeps => modifyObject_clean fun _ x hx =>
      hx.of_setElement.imp_right ?_
    rintro (rfl | rfl)
    · exact Heap.knows_empty
    · exact (List.forall_mem_singleton.1 htaken).keep hkeeps
  | loadObject => exact result (.next newObject_clean fun _ _ _ => .pure (Heap.knows_value _))
  | storeObject part =>
    exact done <| symbol_honest fun _ => .next (refOrCrash_clean _) fun _ _ hkeeps =>
      storeObject_clean part _ _ _ ((List.forall_mem_singleton.1 htaken).keep hkeeps)
  | loadGlobal => exact result (symbol_honest fun _ => loadGlobal_known hev _)
  | storeGlobal strict =>
    exact done (symbol_honest fun _ => storeGlobal_clean hev _ _ (List.forall_mem_singleton.1 htaken))
  | deleteGlobal => exact truth (symbol_honest fun _ => deleteGlobal_clean _)
  | typeofGlobal => exact result (symbol_honest fun _ => typeofGlobal_known hev _)
  | stepGlobal => exact result (symbol_honest fun _ => stepGlobal_known hev _ _)
  | loadHeap => exact result (symbol_honest fun _ => loadHeap_known _ _ _ _)
  | storeHeap =>
    exact done <| .next (frameStrict_clean _) fun _ _ hkeeps =>
      storeHeap_clean _ _ _ _ ((List.forall_mem_singleton.1 htaken).keep hkeeps)
  | typeofHeap => exact result (symbol_honest fun _ => typeofHeap_known _ _ _ _)
  | stepHeap => exact result (stepHeap_known hev _ _ _ _)
  | loadName => exact result (symbol_honest fun _ => loadName_known hev _ _)
  | storeName strict =>
    exact done (symbol_honest fun _ => storeName_clean hev _ _ _ (List.forall_mem_singleton.1 htaken))
  | deleteName => exact truth (symbol_honest fun _ => deleteName_clean _ _)
  | typeofName => exact result (symbol_honest fun _ => typeofName_known hev _ _)
  | stepName => exact result (symbol_honest fun _ => stepName_known hev _ _ _)
  | loadProp => exact result (symbol_honest fun _ => getProperty_known hev _ (List.forall_mem_singleton.1 htaken))
  | storeProp strict =>
    obtain ⟨ha, hc⟩ := Heap.forall_mem_pair.1 htaken
    exact done (symbol_honest fun _ => putProperty_clean hev _ _ ha hc)
  | deleteProp strict => exact truth (symbol_honest fun _ => deleteProperty_clean _ _ _)
  | stepProp => exact result (symbol_honest fun _ => stepProperty_known hev _ _ (List.forall_mem_singleton.1 htaken))
  | loadElement => exact result (loadElement_known hev _ (Heap.forall_mem_pair.1 htaken).1)
  | storeElement strict =>
    obtain ⟨ha, htaken⟩ := List.forall_mem_cons.1 htaken
    have hc := (Heap.forall_mem_pair.1 htaken).2
    exact done <| .next (propertyKey_clean hev _) fun _ _ hkeeps =>
      putProperty_clean hev _ _ (ha.keep hkeeps) (hc.keep hkeeps)
  | deleteElement strict =>
    exact truth <| .next (propertyKey_clean hev _) fun _ _ _ => deleteProperty_clean _ _ _
  | stepElement =>
    have ha := (Heap.forall_mem_pair.1 htaken).1
    exact result <| .next (propertyKey_clean hev _) fun _ _ hkeeps => stepProperty_known hev _ _ (ha.keep hkeeps)
  | raiseNotCoercible => exact .next hev.display fun _ _ _ => raise_honest _ _
  | raiseReference => exact raise_honest _ _
  | raiseImmutable => exact symbol_honest fun _ => constantAssigned_honest _
  | throw =>
    exact .next hev.display fun _ _ hkeeps => .throw ((List.forall_mem_singleton.1 htaken).keep hkeeps)
  | debugger => exact .pure (Heap.knows_of_not_isString (v := ⟨0⟩) rfl)
  | tryCatchSetup =>
    exact result (symbol_honest fun _ => tryCatchSetup_known _ _ (List.forall_mem_singleton.1 htaken))
  | buildEnv => exact done (buildEnv_clean _ _ _)
  | instantiate isVariable configurable => exact done (symbol_honest fun _ => instantiate_clean _ _ _ _)
  | initializeHeapImmutable => exact done (initializeHeapImmutable_clean _ _ (List.forall_mem_singleton.1 htaken))
  | withSetup => exact done (withSetup_clean _ (List.forall_mem_singleton.1 htaken))
  | popEnv => exact done (popEnv_clean _)
  | forInSetup => exact result (enumerate_known (List.forall_mem_singleton.1 htaken))
  | forInEnumerate => exact result (nextKey_known _)
  | forInLeave => exact done (endEnumeration_clean _)
  | call | construct | eval =>
    obtain ⟨hcallee, htaken⟩ := List.forall_mem_cons.1 htaken
    obtain ⟨hthis, hargs⟩ := List.forall_mem_cons.1 htaken
    exact callStub_honest hev _ _ _ hcallee hthis hargs
  | prepareDynamicCall => exact result (symbol_honest fun _ => prepareDynamicCall_known hev _ _ _)

end Run

end RegisterJit
