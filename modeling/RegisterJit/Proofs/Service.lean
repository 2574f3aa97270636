import RegisterJit.Proofs.Conduct

/-!
# What the runtime may do to the world

Variables, environments, built-in functions and calls go on by changes only, and so does the work of
every stub. By induction on the stubs that are served and on the nesting of runs, so does every run
of compiled code.

`Change` and `Tame` are from `Evolution`: a step is tame if what it does to the world is a sequence of changes.
The lemmas here go through the runtime in the order in which functions use each other, down to the table of
stubs, each by the rules for sequencing and branching. Compiled code calls stubs and stubs run compiled code, so
the evaluator is tame by induction on its fuel (`evaluator_tame`). `Chains` and `Detached`, and through them all
invariants of reachable worlds, only need to look at the changes and not at the functions.
-/

namespace RegisterJit

namespace Run

variable {m : Moment} {w : World} {α β : Type} {ev : Evaluator}

/-! ## Variables -/

theorem envOrCrash_ok {e k : EnvRef} {w' : World} (h : envOrCrash e w = .ok k w') :
    w' = w ∧ k = e ∧ e < w.realm.scopes.envs.size := by
  change (if e < w.realm.scopes.envs.size then (return e : Run EnvRef) else throw Fault.crash) w =
    .ok k w' at h
  split at h
  · next he =>
    cases h
    exact ⟨rfl, rfl, he⟩
  · cases h

theorem envOrCrash_tame (e : EnvRef) : Tame m (envOrCrash e) w := by
  refine .realm ?_
  split
  · exact .pure _
  · exact .throw _

theorem lexicalEnv_tame (frame : FrameRef) : Tame m (lexicalEnv frame) w :=
  .machine (envOrCrash_tame _)

theorem lexicalEnv_ok {frame : FrameRef} {e : EnvRef} {w' : World}
    (h : lexicalEnv frame w = .ok e w') : w' = w ∧ e < w.realm.scopes.envs.size := by
  obtain ⟨hw, rfl, he⟩ := envOrCrash_ok h
  exact ⟨hw, he⟩

theorem closureEnv_after (frame : FrameRef) : (closureEnv frame).after w = w := by
  rw [closureEnv, after_bind_ok (realm_run w), after_bind_ok (machine_run w)]
  split
  · rfl
  · split <;> rfl

theorem pushEnv_tame {parent : EnvRef} {kind : EnvKind} (hbare : kind.Bare)
    (hparent : parent < w.realm.scopes.envs.size) (hobject : ∀ r, kind = .object r → w.realm.heap.Has r) :
    Tame m (pushEnv parent kind) w :=
  .of_growth (.enter hparent hbare hobject)

theorem resolve_tame (frame : FrameRef) (name : Text) : Tame m (resolve frame name) w :=
  .next (lexicalEnv_tame _) fun _ _ => .realm (.pure _)

theorem notDefined_tame (name : Text) : Tame m (notDefined name : Run α) w := raise_tame _ _

theorem notInitialized_tame (name : Text) : Tame m (notInitialized name : Run α) w := raise_tame _ _

theorem constantAssigned_tame (name : Text) : Tame m (constantAssigned name : Run α) w :=
  raise_tame _ _

theorem setCell_tame (c : CellRef) (name : Text) (v : Value) (strict : Bool) :
    Tame m (setCell c name v strict) w := by
  refine .read rfl fun x hx => ?_
  split
  · split
    · exact constantAssigned_tame _
    · exact .pure _
  · next hmutable =>
    refine .of_change (.write c v ?_) rfl
    cases hx
    cases h : (w.realm.scopes.cell c).isMutable with
    | true => exact .inl rfl
    | false => simpa [h] using hmutable

section

variable (hev : ev.Tame m)

include hev

theorem getReference_tame (ref : Reference) (name : Text) : Tame m (getReference ev ref name) w := by
  unfold getReference
  split
  · exact get_tame hev _ _ _
  · refine .read rfl fun x _ => ?_
    dsimp only
    split
    · exact notInitialized_tame _
    · exact .pure _

theorem setReference_tame (ref : Reference) (name : Text) (v : Value) (strict : Bool) :
    Tame m (setReference ev ref name v strict) w := by
  unfold setReference
  split
  · exact putProperty_tame hev _ _ _ _
  · exact setCell_tame _ _ _ _

theorem loadName_tame (frame : FrameRef) (name : Text) : Tame m (loadName ev frame name) w := by
  refine .next (resolve_tame _ _) fun ref w₁ => ?_
  split
  · exact notDefined_tame _
  · exact getReference_tame hev _ _

theorem storeName_tame (frame : FrameRef) (name : Text) (v : Value) (strict : Bool) :
    Tame m (storeName ev frame name v strict) w := by
  refine .next (resolve_tame _ _) fun ref w₁ => ?_
  split
  · exact setReference_tame hev _ _ _ _
  · split
    · exact notDefined_tame _
    · exact .realm (putProperty_tame hev _ _ _ _)

omit hev in
theorem deleteName_tame (frame : FrameRef) (name : Text) : Tame m (deleteName frame name) w := by
  refine .next (resolve_tame _ _) fun ref w₁ => ?_
  split
  · exact .pure _
  · exact deleteProperty_tame _ _ _
  · refine .read rfl fun x _ => ?_
    split
    · exact .next (.of_growth (.unbind _ name)) fun _ _ => .pure _
    · exact .pure _

theorem typeofName_tame (frame : FrameRef) (name : Text) :
    Tame m (typeofName ev frame name) w := by
  refine .next (resolve_tame _ _) fun ref w₁ => ?_
  split
  · exact intern_tame _
  · exact .next (getReference_tame hev _ _) fun _ _ => .heap (intern_tame _)

theorem stepName_tame (frame : FrameRef) (name : Text) (mode : UInt64) :
    Tame m (stepName ev frame name mode) w := by
  refine .next (resolve_tame _ _) fun ref w₁ => ?_
  split
  · exact notDefined_tame _
  · exact .next (getReference_tame hev _ _) fun _ _ => .next (stepNumber_tame hev _ _) fun _ _ =>
      .next (setReference_tame hev _ _ _ _) fun _ _ => .pure _

theorem prepareDynamicCall_tame (frame : FrameRef) (name : Text) (receiver : UInt64) :
    Tame m (prepareDynamicCall ev frame name receiver) w := by
  refine .next (resolve_tame _ _) fun ref w₁ => ?_
  split
  · exact notDefined_tame _
  · exact .next (getReference_tame hev _ _) fun _ _ => .realm <|
      .next (modifyMachine_tame _) fun _ _ => .pure _

/-! ## Global variables -/

theorem loadGlobal_tame (name : Text) : Tame m (loadGlobal ev name) w := by
  refine .realm (.heap ?_)
  split
  · exact get_tame hev _ _ _
  · exact notDefined_tame _

theorem storeGlobal_tame (name : Text) (v : Value) (strict : Bool) :
    Tame m (storeGlobal ev name v strict) w := by
  refine .realm (.heap ?_)
  split
  · exact notDefined_tame _
  · exact putProperty_tame hev _ _ _ _

omit hev in
theorem deleteGlobal_tame (name : Text) : Tame m (deleteGlobal name) w :=
  .realm (deleteProperty_tame _ _ _)

theorem typeofGlobal_tame (name : Text) : Tame m (typeofGlobal ev name) w := by
  refine .heap (.realm ?_)
  split
  · exact .next (loadGlobal_tame hev _) fun _ _ => .heap (intern_tame _)
  · exact intern_tame _

theorem stepGlobal_tame (name : Text) (mode : UInt64) : Tame m (stepGlobal ev name mode) w :=
  .next (loadGlobal_tame hev _) fun _ _ => .next (stepNumber_tame hev _ _) fun _ _ => .realm <|
    .next (putProperty_tame hev _ _ _ _) fun _ _ => .pure _

end

/-! ## Slots -/

theorem heapSlot_tame (frame : FrameRef) (offset nest : UInt64) :
    Tame m (heapSlot frame offset nest) w := by
  refine .next (lexicalEnv_tame _) fun e w₁ => .realm ?_
  split
  · exact .pure _
  · exact internalError_tame _

theorem loadHeap_tame (frame : FrameRef) (name : Text) (offset nest : UInt64) :
    Tame m (loadHeap frame name offset nest) w := by
  refine .next (heapSlot_tame _ _ _) fun c w₁ => .read rfl fun x hx => ?_
  have hrest (w : World) : Tame m (if x.value.isEmpty then notInitialized name
      else return x.value : Run Value) w := by
    split
    · exact notInitialized_tame _
    · exact .pure _
  dsimp only
  split
  · next hname =>
    cases hx
    exact .next (.of_change (.name c name hname) rfl) fun _ _ => hrest _
  · exact hrest _

theorem storeHeap_tame (frame : FrameRef) (v : Value) (offset nest : UInt64) (strict : Bool) :
    Tame m (storeHeap frame v offset nest strict) w :=
  .next (heapSlot_tame _ _ _) fun _ _ => .read rfl fun _ _ => setCell_tame _ _ _ _

theorem typeofHeap_tame (frame : FrameRef) (name : Text) (offset nest : UInt64) :
    Tame m (typeofHeap frame name offset nest) w :=
  .next (loadHeap_tame _ _ _ _) fun _ _ => .heap (intern_tame _)

theorem stepHeap_tame (hev : ev.Tame m) (frame : FrameRef) (mode offset nest : UInt64) :
    Tame m (stepHeap ev frame mode offset nest) w := by
  refine .next (heapSlot_tame _ _ _) fun c w₁ => .read rfl fun x _ => ?_
  split
  · exact notInitialized_tame _
  · refine .next (stepNumber_tame hev _ _) fun r w₂ => .read rfl fun x hx => ?_
    split
    · next hmutable =>
      cases hx
      exact .next (.of_change (.write c _ (.inl hmutable)) rfl) fun _ _ => .pure _
    · split
      · exact constantAssigned_tame _
      · exact .pure _

/-! ## Environments -/

theorem setLexicalEnv_tame (frame : FrameRef) (e : EnvRef) : Tame m (setLexicalEnv frame e) w :=
  modifyMachine_tame _

theorem initializeHeapImmutable_tame (frame : FrameRef) (v : Value) (offset : UInt64)
    (hs : .initializeHeapImmutable ∈ w.calledSince m) :
    Tame m (initializeHeapImmutable frame v offset) w :=
  (heapSlot_tame frame offset 0).trail fun c _ h => .of_change (.settle (h.calledSince hs) c v) rfl

theorem buildEnv_tame (frame : FrameRef) (size mutableStart : UInt64) :
    Tame m (buildEnv frame size mutableStart) w := by
  refine .bind (lexicalEnv_tame _) fun _ _ outer w₁ h => ?_
  obtain ⟨rfl, houter⟩ := lexicalEnv_ok h
  refine .next (.of_growth (.enterSlots size.toNat mutableStart.toNat houter)) fun e w₂ =>
    .machine ?_
  refine .read rfl fun current _ => .read (closureEnv_after _) fun closure _ => ?_
  dsimp only
  split
  · exact .next (modifyMachine_tame _) fun _ _ => setLexicalEnv_tame _ _
  · exact setLexicalEnv_tame _ _

/-- A declaration adds a property or a binding. Only that of a function changes one that exists, and
it does not ask whether it may. -/
theorem instantiate_tame (frame : FrameRef) (name : Text) (isVariable configurable : Bool)
    (hs : .instantiate isVariable configurable ∈ w.calledSince m) :
    Tame m (instantiate frame name (!isVariable) configurable) w := by
  refine .read rfl fun e _ => .bind (envOrCrash_tame e) fun _ _ e w₁ h => .realm ?_
  obtain ⟨rfl, -, -⟩ := envOrCrash_ok h
  split
  · next r _ =>
    refine .bind (object_tame r) fun _ _ o w₂ ho => ?_
    obtain ⟨rfl, ho⟩ := object_ok ho
    split
    · next p hp =>
      rw [← Heap.object_eq ho] at hp
      split
      · next old writable hbody =>
        cases isVariable with
        | true => exact .pure _
        | false => exact .of_change (.redeclare configurable hs r name p old writable hp hbody) rfl
      · exact .pure _
    · next hnone =>
      rw [← Heap.object_eq ho] at hnone
      exact .of_change (.add r name _ hnone rfl) rfl
  · next bindings first count hkind =>
    split
    · next c hc =>
      cases isVariable with
      | true => exact .pure _
      | false => exact .of_change (.reset configurable hs e name bindings first count hkind c hc) rfl
    · exact .of_growth (.bind e name _)

theorem withSetup_tame (frame : FrameRef) (v : Value) : Tame m (withSetup frame v) w := by
  refine toObject_bind_tame v fun r w₁ hr => .bind (lexicalEnv_tame _) fun _ _ outer w₂ h => ?_
  obtain ⟨rfl, houter⟩ := lexicalEnv_ok h
  exact .next (pushEnv_tame trivial houter fun q hq => by cases hq; exact hr) fun _ _ => setLexicalEnv_tame _ _

theorem popEnv_tame (frame : FrameRef) : Tame m (popEnv frame) w := by
  refine .realm (.next (lexicalEnv_tame _) fun e w₁ => ?_)
  split
  · exact setLexicalEnv_tame _ _
  · exact .pure _

theorem tryCatchSetup_tame (frame : FrameRef) (name : Text) :
    Tame m (tryCatchSetup frame name) w := by
  refine .machine (.bind (lexicalEnv_tame _) fun _ _ outer w₁ h => ?_)
  obtain ⟨rfl, houter⟩ := lexicalEnv_ok h
  exact .next (pushEnv_tame ⟨rfl, rfl⟩ houter fun _ => nofun) fun e _ => .next (.of_growth (.bind e name _)) fun _ _ =>
    .next (setLexicalEnv_tame _ _) fun _ _ => .pure _

theorem unwindEnv_tame (frame : FrameRef) (level : UInt32) : Tame m (unwindEnv frame level) w :=
  .read (closureEnv_after _) fun _ _ => .machine (.realm (setLexicalEnv_tame _ _))

/-! ## Built-in functions -/

theorem arrayReceiver_tame (method : String) (this : Value) :
    Tame m (arrayReceiver method this) w := by
  unfold arrayReceiver
  dsimp only
  split
  · refine .next (object_tame _) fun o w₁ => ?_
    split
    · exact .pure _
    · exact raise_tame _ _
  · exact raise_tame _ _

theorem evaluate_tame (args : List Value) : Tame m (evaluate args) w := by
  unfold evaluate
  split
  · exact .pure _
  · split
    · exact raise_tame _ _
    · exact .pure _

theorem makeArray_tame (args : List Value) : Tame m (makeArray args) w := by
  have hfill (w : World) : Tame m (makeArray.fill args) w :=
    .next (newArray_tame 0) fun r _ =>
      .next (modifyContent_tame r fun _ => ⟨⟨rfl, rfl, rfl⟩, rfl, rfl, rfl⟩) fun _ _ => .pure _
  unfold makeArray
  split
  · split
    · dsimp only
      split
      · exact .next (newArray_tame _) fun _ _ => .pure _
      · exact raise_tame _ _
    · exact hfill _
  · exact hfill _

section

variable (hev : ev.Tame m)

include hev

theorem listItems_tame (list : Value) (count i : Nat) (done : List Value) :
    Tame m (listItems ev list count i done) w := by
  induction count generalizing i done w with
  | zero => exact .pure _
  | succ count ih => exact .next (getProperty_tame hev _ _) fun _ _ => ih _ _

theorem applyArguments_tame (v : Value) : Tame m (applyArguments ev v) w := by
  unfold applyArguments
  split
  · exact .pure _
  · exact .next (get_tame hev _ _ _) fun _ _ => .next (toNumber_tame hev _) fun _ _ =>
      listItems_tame hev _ _ _ _

theorem textsOf_tame (done : List Text) (vs : List Value) : Tame m (textsOf ev done vs) w := by
  induction vs generalizing done w with
  | nil => exact .pure _
  | cons v rest ih => exact .next (toText_tame hev _) fun _ _ => ih _

/-- A built-in function; one that makes errors has an object for them to inherit from. -/
theorem builtin_tame (b : Builtin) (this : Value) (args : List Value)
    (hb : ∀ p, b = .errorConstructor p → w.realm.heap.Has p) :
    Tame m (builtin ev b this args) w := by
  cases b with
  | objectToString =>
    unfold builtin
    dsimp only
    split
    · exact .next (defaultText_tame hev _) fun _ _ => intern_tame _
    · exact .heap (intern_tame _)
  | objectValueOf =>
    unfold builtin
    dsimp only
    split
    · exact .next (object_tame _) fun _ _ => .pure _
    · exact .pure _
  | objectHasOwnProperty =>
    exact .next (toObject_tame _) fun _ _ => .next (propertyKey_tame hev _) fun _ _ =>
      .next (object_tame _) fun _ _ => .pure _
  | functionCall => exact hev.call
  | functionApply => exact .next (applyArguments_tame hev _) fun _ _ => hev.call
  | arrayPush =>
    exact .next (arrayReceiver_tame _ _) fun r _ =>
      .next (modifyContent_tame r fun _ => ⟨⟨rfl, rfl, rfl⟩, rfl, rfl, rfl⟩) fun _ _ =>
        .next (object_tame _) fun _ _ => .pure _
  | arrayPop =>
    refine .next (arrayReceiver_tame _ _) fun r _ => .next (object_tame _) fun o _ => ?_
    split
    · exact .pure _
    · exact .next (modifyContent_tame r fun _ => ⟨⟨rfl, rfl, rfl⟩, rfl, rfl, rfl⟩) fun _ _ => .pure _
  | arrayJoin =>
    refine .next (arrayReceiver_tame _ _) fun r _ => ?_
    have hjoin (sep : Text) (w : World) : Tame m (do intern (← join ev r sep)) w :=
      .next (join_tame hev _ _) fun _ _ => intern_tame _
    dsimp only
    split
    · exact .read rfl fun _ _ => hjoin _ _
    · split
      · exact .read rfl fun _ _ => hjoin _ _
      · exact .next (toText_tame hev _) fun _ _ => hjoin _ _
  | errorToString =>
    unfold builtin
    dsimp only
    split
    · exact raise_tame _ _
    · exact .heap (intern_tame _)
  | errorConstructor proto =>
    have hnew (message : Text) {w' : World} (hle : w.realm.heap.objects.size ≤
        w'.realm.heap.objects.size) :
        Tame m (do return Heap.value (← newError proto message)) w' :=
      .next (newError_tame _ fun _ => (hb proto rfl).mono hle) fun _ _ => .pure _
    unfold builtin
    dsimp only
    split
    · exact .read rfl fun _ _ => hnew _ (Nat.le_refl _)
    · next v _ =>
      split
      · exact .read rfl fun _ _ => hnew _ (Nat.le_refl _)
      · exact .trail (toText_tame hev _) fun _ _ h => hnew _ h.objects_le
  | print =>
    exact .next (textsOf_tame hev _ _) fun _ _ => .next (printLine_tame _) fun _ _ => .pure _
  | eval => exact evaluate_tame _
  | isNaN => exact .next (toNumber_tame hev _) fun _ _ => .pure _
  | stringFunction =>
    unfold builtin
    dsimp only
    split
    · exact intern_tame _
    · exact .next (toText_tame hev _) fun _ _ => intern_tame _
  | numberFunction =>
    unfold builtin
    dsimp only
    split
    · exact .pure _
    · exact .next (toNumber_tame hev _) fun _ _ => .pure _
  | arrayFunction => exact makeArray_tame _
  | objectFunction =>
    unfold builtin
    dsimp only
    split
    · exact .next newObject_tame fun _ _ => .pure _
    · exact .next (toObject_tame _) fun _ _ => .pure _
  | receiver => exact .pure _
  | callback =>
    unfold builtin
    dsimp only
    split
    · exact .throw _
    · exact hev.call

end

/-! ## Functions as objects -/

theorem newFunction_tame (code : MachineCode) {env : EnvRef} (henv : env < w.realm.scopes.envs.size) :
    Tame m (newFunction code env) w :=
  .realm <| alloc_bind_tame (fun hw _ hp => by cases hp; exact hw.functionProto) (fun _ => nofun)
    (fun _ ⟨_, _, h⟩ => by cases h; exact henv) (Object.keyed_of_bare rfl rfl) fun r _ hr =>
    newObject_bind_tame fun proto _ hproto =>
      .next (defineNamed_tame hproto (by decide +kernel)) fun _ _ =>
        .next (defineNamed_tame hr (by decide +kernel)) fun _ _ =>
          .next (defineNamed_tame hr (by decide +kernel)) fun _ _ => .next (intern_tame _) fun _ _ =>
            .next (defineNamed_tame hr (by decide +kernel)) fun _ _ => .pure _

theorem newArguments_tame (frame : FrameRef) : Tame m (newArguments frame) w :=
  .realm <| alloc_bind_tame (fun hw _ hp => by cases hp; exact hw.objectProto) (fun _ => nofun) (fun _ => nofun)
    Object.keyed_ofClass fun r _ hr => .machine <|
      .next (.forM (fun _ _ => defineYoung_tame hr _ _ fun _ => rfl) _) fun _ _ =>
        .next (defineNamed_tame hr (by decide +kernel)) fun _ _ =>
          .next (defineNamed_tame hr (by decide +kernel)) fun _ _ => .pure _

theorem textOrCrash_tame (v : Value) : Tame m (textOrCrash v) w := by
  refine .heap ?_
  split
  · exact .pure _
  · exact .throw _

theorem newRegExp_tame (pattern flags : Value) : Tame m (newRegExp pattern flags) w := by
  refine .next (textOrCrash_tame _) fun source _ => .next (textOrCrash_tame _) fun flagText _ => ?_
  dsimp only
  split
  · exact raise_next_tame _ _ _
  · refine .realm <| alloc_bind_tame (fun hw _ hp => by cases hp; exact hw.objectProto)
      (fun _ => nofun) (fun _ => nofun) Object.keyed_ofClass fun r _ hr =>
        .next (defineNamed_tame hr (by decide +kernel)) fun _ _ =>
        .next (defineNamed_tame hr (by decide +kernel)) fun _ _ =>
        .next (defineNamed_tame hr (by decide +kernel)) fun _ _ =>
        .next (defineNamed_tame hr (by decide +kernel)) fun _ _ =>
        .next (defineNamed_tame hr (by decide +kernel)) fun _ _ =>
        .next (defineNamed_tame hr (by decide +kernel)) fun _ _ => ?_
    split
    · exact .next (intern_tame _) fun _ _ =>
        .next (defineNamed_tame hr (by decide +kernel)) fun _ _ => .pure _
    · exact .pure _

/-- A function that makes errors is made when there is an object for them to inherit from. -/
theorem newBuiltin_tame (name : Text) (arity : Int) {b : Builtin}
    (hb : ∀ p, b = .errorConstructor p → w.realm.heap.Has p) :
    Tame m (newBuiltin name arity b) w :=
  .realm <| alloc_bind_tame (fun hw _ hp => by cases hp; exact hw.functionProto)
    (fun p ⟨_, h⟩ => hb p (by cases h; rfl)) (fun _ ⟨_, _, h⟩ => nomatch h) (Object.keyed_of_bare rfl rfl) fun r _ hr =>
      .next (defineNamed_tame hr (by decide +kernel)) fun _ _ => .next (intern_tame _) fun _ _ =>
        .next (defineNamed_tame hr (by decide +kernel)) fun _ _ => .pure _

/-! ## Calls -/

theorem codeOrCrash_tame (id : UInt32) : Tame m (codeOrCrash id) w := by
  refine .machine ?_
  split
  · exact .pure _
  · exact .throw _

theorem symbol_tame (ref : UInt64) : Tame m (symbol ref) w := by
  refine .next (codeOrCrash_tame _) fun c _ => ?_
  split
  · exact .pure _
  · exact .throw _

theorem siteText_tame (ref : UInt64) : Tame m (siteText ref) w := by
  refine .machine ?_
  split <;> exact .pure _

theorem frameStrict_tame (frame : FrameRef) : Tame m (frameStrict frame) w :=
  .machine <| .next (codeOrCrash_tame _) fun _ _ => .pure _

theorem receiver_tame (code : Code) (this : Value) : Tame m (receiver code this) w := by
  unfold receiver
  split
  · exact .realm (.pure _)
  · exact .pure _

theorem tooDeep_tame : Tame m (tooDeep : Run α) w := raise_tame _ _

theorem pushFrame_tame (prev : UInt64) (call : Call) : Tame m (pushFrame prev call) w := by
  refine .machine ?_
  split
  · exact .of_change (.machine _) rfl
  · exact .pure _

theorem pushedFrame_tame (prev : UInt64) (call : Call) : Tame m (do
    match ← pushFrame prev call with
    | none => tooDeep
    | some frame => return frame : Run UInt64) w := by
  refine .next (pushFrame_tame _ _) fun frame? _ => ?_
  split
  · exact tooDeep_tame
  · exact .pure _

theorem enterCompiled_tame (callee this : Value) (args : List Value) (code : Nat) (env : EnvRef)
    (construct : Bool) (nativeSP : UInt64) :
    Tame m (enterCompiled callee this args code env construct nativeSP) w := by
  refine .machine ?_
  dsimp only
  split
  · exact raise_next_tame _ _ _
  · refine .next (codeOrCrash_tame _) fun target _ => ?_
    split
    · exact .read rfl fun _ _ => .machine (pushedFrame_tame _ _)
    · exact .next (receiver_tame _ _) fun _ _ => .machine (pushedFrame_tame _ _)

theorem loadFunction_tame (frame : FrameRef) (ref : UInt64) : Tame m (loadFunction frame ref) w :=
  .next (codeOrCrash_tame _) fun _ _ => .next (codeOrCrash_tame _) fun _ _ =>
    .bind (lexicalEnv_tame _) fun _ _ _ _ h => by
      obtain ⟨rfl, henv⟩ := lexicalEnv_ok h
      exact .next (newFunction_tame _ henv) fun _ _ => .pure _

section

variable (hev : ev.Tame m)

include hev

theorem newInstance_tame (callee : Value) (fn : ObjectRef) :
    Tame m (newInstance ev callee fn) w :=
  .next (get_tame hev _ _ _) fun _ _ => .bind (protoOf_tame _) fun _ hsound base _ h => by
    obtain ⟨rfl, hbase⟩ := protoOf_ok hsound h
    exact .next (alloc_tame (fun _ _ hp => by cases hp; exact hbase) (fun _ => nofun) (fun _ => nofun)
      Object.keyed_ofClass) fun _ _ => .pure _

omit hev in
/-- A function that makes errors was made when there was an object for them to inherit from. -/
theorem makes_has (hsound : w.realm.Sound) {fn p : ObjectRef} {f : Function}
    (hf : (w.realm.heap.object fn).function = some f)
    (hp : f.body = .builtin (.errorConstructor p)) : w.realm.heap.Has p := by
  have hfn : w.realm.heap.Has fn := by
    by_contra h
    rw [Heap.object_of_not_has h] at hf
    cases hf
  exact hsound.makers hfn.object? ⟨f.name, by rw [hf, ← hp]⟩

theorem notCallable_tame (callee : Value) (site : UInt64) :
    Tame m (notCallable ev callee site : Run α) w :=
  .next hev.display fun _ _ => .next (siteText_tame _) fun _ _ => raise_tame _ _

theorem callFunction_tame (frame : UInt64) (f : Function) (callee this : Value)
    (args : List Value) (construct : Bool) (nativeSP : UInt64)
    (hf : ∀ p, f.body = .builtin (.errorConstructor p) → w.realm.heap.Has p) :
    Tame m (callFunction ev frame f callee this args construct nativeSP) w := by
  unfold callFunction
  split
  · next b hb =>
    exact .next (builtin_tame hev b _ _ fun p hp => hf p (by rw [hb, hp])) fun _ _ => .pure _
  · exact .next (enterCompiled_tame _ _ _ _ _ _ _) fun _ _ => .pure _

theorem callStub_tame (s : Stub) (callee : Value) (address count nativeSP site : UInt64) :
    Tame m (callStub ev s callee address count nativeSP site) w := by
  unfold callStub
  refine .machine <| .machine <| .machine <| .realm ?_
  split
  · exact notCallable_tame hev _ _
  · next fn _ =>
    split
    · exact notCallable_tame hev _ _
    · next f hf =>
      split
      · exact .next (evaluate_tame _) fun _ _ => .pure _
      · split
        · exact ⟨fun hpast hsound => (Tame.trail (newInstance_tame hev _ _) fun _ _ h =>
            .trail (modifyMachine_tame _) fun _ _ h' => callFunction_tame hev _ _ _ _ _ _ _ fun p hp =>
              (makes_has hsound hf hp).mono
                (Nat.le_trans h.objects_le h'.objects_le)).grows hpast hsound⟩
        · exact ⟨fun hpast hsound =>
            (callFunction_tame hev _ _ _ _ _ _ _ fun p hp =>
              makes_has hsound hf hp).grows hpast hsound⟩

omit hev in
theorem storeObject_tame (part : PropertyPart) (r : ObjectRef) (name : Text) (v : Value)
    (merged : Bool) (hs : .storeObject part ∈ w.calledSince m) :
    Tame m (storeObject part r name v merged) w := by
  unfold storeObject
  split
  · exact .of_change (.literal .data hs r name _ (.inl rfl)) rfl
  · refine .bind (object_tame r) fun _ _ o w₁ h => ?_
    obtain ⟨rfl, ho⟩ := object_ok h
    refine .of_change (.literal part hs r name _ ?_) rfl
    dsimp only
    -- A property that is not kept is fresh, and loops enumerate it.
    cases hown : o.own? name with
    | none => exact .inl rfl
    | some p =>
      cases merged with
      | false => exact .inl rfl
      | true =>
        cases hbody : p.body with
        | data => simp [hbody]
        | accessor => exact .inr ⟨p, by rw [World.own?, Heap.object_eq ho, hown], by simp [hbody]⟩

theorem stub_tame (s : Stub) (a b c d e : UInt64) (hs : s ∈ w.calledSince m) :
    Tame m (stub ev s a b c d e) w := by
  have result {x : Run Value} (h : Tame m x w) :
      Tame m (do return ((← x).word, (0 : UInt64)) : Run (UInt64 × UInt64)) w :=
    .next h fun _ _ => .pure _
  have truth {x : Run Bool} (h : Tame m x w) :
      Tame m (do return ((Value.ofBool (← x)).word, (0 : UInt64)) : Run (UInt64 × UInt64)) w :=
    .next h fun _ _ => .pure _
  have done {x : Run Unit} (h : Tame m x w) :
      Tame m (do x; return ((0 : UInt64), (0 : UInt64)) : Run (UInt64 × UInt64)) w :=
    .next h fun _ _ => .pure _
  -- A step with a name, and one with a key.
  have named {α : Type} {ref : UInt64} {f : Text → Run α} (h : ∀ name w, Tame m (f name) w) :
      Tame m (symbol ref >>= f) w := .next (symbol_tame ref) h
  have keyed {α : Type} {f : Text → Run α} (h : ∀ key w, Tame m (f key) w) :
      Tame m (propertyKey ev ⟨b⟩ >>= f) w := .next (propertyKey_tame hev _) h
  cases s with
  | binary op => exact result (binary_tame hev op _ _)
  | unaryPositive | unaryNegative | unaryNot | unaryBitNot | typeof | increment | decrement
  | toNumber | toPrimitiveString | toBoolean => exact result (unaryStub_tame hev _ _)
  | concat => exact result (.machine (concat_tame hev _))
  | loadFunction => exact result (loadFunction_tame _ _)
  | loadRegExp => exact result (newRegExp_tame _ _)
  | loadArguments => exact result (.next (newArguments_tame _) fun _ _ => .pure _)
  | loadArray => exact result (.next (newArray_tame _) fun _ _ => .pure _)
  | initVectorElement =>
    exact done <| .next (refOrCrash_tame _) fun r _ => .machine <|
      modifyContent_tame r fun o => o.alike_setElements _ _
  | initSparseElement =>
    exact done <| .next (refOrCrash_tame _) fun r _ =>
      modifyContent_tame r fun o => o.alike_setElement _ _
  | loadObject => exact result (.next newObject_tame fun _ _ => .pure _)
  | storeObject part =>
    exact done <| (symbol_tame b).trail fun _ _ h => (refOrCrash_tame _).trail fun _ _ h' =>
      storeObject_tame part _ _ _ _ (h'.calledSince (h.calledSince hs))
  | loadGlobal => exact result (named fun _ _ => loadGlobal_tame hev _)
  | storeGlobal strict => exact done (named fun _ _ => storeGlobal_tame hev _ _ _)
  | deleteGlobal => exact truth (named fun _ _ => deleteGlobal_tame _)
  | typeofGlobal => exact result (named fun _ _ => typeofGlobal_tame hev _)
  | stepGlobal => exact result (named fun _ _ => stepGlobal_tame hev _ _)
  | loadHeap => exact result (named fun _ _ => loadHeap_tame _ _ _ _)
  | storeHeap => exact done (.next (frameStrict_tame _) fun _ _ => storeHeap_tame _ _ _ _ _)
  | typeofHeap => exact result (named fun _ _ => typeofHeap_tame _ _ _ _)
  | stepHeap => exact result (stepHeap_tame hev _ _ _ _)
  | loadName => exact result (named fun _ _ => loadName_tame hev _ _)
  | storeName strict => exact done (named fun _ _ => storeName_tame hev _ _ _ _)
  | deleteName => exact truth (named fun _ _ => deleteName_tame _ _)
  | typeofName => exact result (named fun _ _ => typeofName_tame hev _ _)
  | stepName => exact result (named fun _ _ => stepName_tame hev _ _ _)
  | loadProp => exact result (named fun _ _ => getProperty_tame hev _ _)
  | storeProp strict => exact done (named fun _ _ => putProperty_tame hev _ _ _ _)
  | deleteProp strict => exact truth (named fun _ _ => deleteProperty_tame _ _ _)
  | stepProp => exact result (named fun _ _ => stepProperty_tame hev _ _ _)
  | loadElement => exact result (loadElement_tame hev _ _)
  | storeElement strict => exact done (keyed fun _ _ => putProperty_tame hev _ _ _ _)
  | deleteElement strict => exact truth (keyed fun _ _ => deleteProperty_tame _ _ _)
  | stepElement => exact result (keyed fun _ _ => stepProperty_tame hev _ _ _)
  | raiseNotCoercible => exact .next hev.display fun _ _ => raise_tame _ _
  | raiseReference => exact raise_tame _ _
  | raiseImmutable => exact named fun _ _ => constantAssigned_tame _
  | throw => exact .next hev.display fun _ _ => .throw _
  | debugger => exact .pure _
  | tryCatchSetup => exact result (named fun _ _ => tryCatchSetup_tame _ _)
  | buildEnv => exact done (buildEnv_tame _ _ _)
  | instantiate isVariable configurable =>
    exact done <| (symbol_tame b).trail fun _ _ h => instantiate_tame _ _ _ _ (h.calledSince hs)
  | initializeHeapImmutable => exact done (initializeHeapImmutable_tame _ _ _ hs)
  | withSetup => exact done (withSetup_tame _ _)
  | popEnv => exact done (popEnv_tame _)
  | forInSetup => exact result (enumerate_tame _)
  | forInEnumerate => exact result (nextKey_tame _ hs)
  | forInLeave => exact done (endEnumeration_tame _ hs)
  | call | construct | eval => exact callStub_tame hev _ _ _ _ _ _
  | prepareDynamicCall => exact result (named fun _ _ => prepareDynamicCall_tame hev _ _ _)

/-! ## Runs of compiled code -/

omit hev in
theorem setRegister_tame (frame : FrameRef) (r : Register) (v : Value) :
    Tame m (setRegister frame r v) w := by
  unfold setRegister
  split
  · exact modifyMachine_tame _
  · exact .throw _

omit hev in
theorem execute_tame : Tame m execute w := by
  refine .of_growth ?_
  obtain ⟨realm, machine, output, stubCalls⟩ := w
  unfold execute after
  dsimp only
  cases machine.execute <;> exact (World.Change.machine _).growth rfl

omit hev in
theorem resume_tame (r0 r1 : UInt64) : Tame m (resume r0 r1) w :=
  .next (modifyMachine_tame _) fun _ _ => execute_tame

omit hev in
theorem enterHandler_tame (v : Value) (sp : UInt64) (frame : FrameRef) (p : PlacedUnit)
    (h : Handler) (target : UInt64) : Tame m (enterHandler v sp frame p h target) w := by
  have hrest (w : World) : Tame m (do unwindEnv frame h.level; resume 0 0) w :=
    .next (unwindEnv_tame _ _) fun _ _ => resume_tame _ _
  refine .next (modifyMachine_tame _) fun _ _ => ?_
  dsimp only
  split
  · exact .next (modifyMachine_tame _) fun _ _ => hrest _
  · exact .next (setRegister_tame _ _ _) fun _ _ => .next (setRegister_tame _ _ _) fun _ _ =>
      hrest _

omit hev in
theorem deliverFrom_tame (v : Value) (message : Text) (fuel : Nat) (sp : UInt64)
    (frame : FrameRef) : Tame m (deliverFrom v message fuel sp frame) w := by
  induction fuel generalizing sp frame w with
  | zero => exact .throw _
  | succ fuel ih =>
    refine .machine ?_
    dsimp only
    split
    · exact .throw _
    · split
      · exact .throw_next _ _
      · split
        · exact .throw _
        · split
          · exact enterHandler_tame _ _ _ _ _ _
          · exact ih _ _

theorem serveStub_tame : Tame m (serveStub ev) w := by
  refine .machine ?_
  dsimp only
  split
  · exact .throw _
  · next s _ =>
    refine (Tame.of_change (.leave s) rfl).bind fun hpast _ _ w₁ h => ?_
    have hs : s ∈ w₁.calledSince m := by
      cases h
      exact World.mem_calledSince_push hpast s
    refine .next (.attempt (stub_tame hev s _ _ _ _ _ hs)) fun result _ => ?_
    split
    · exact resume_tame _ _
    · exact .machine (deliverFrom_tame _ _ _ _ _)
    · exact .throw _
    · exact .throw _

theorem serve_tame (fuel : Nat) (status : UInt64) : Tame m (serve ev fuel status) w := by
  induction fuel generalizing status w with
  | zero => exact .throw _
  | succ fuel ih =>
    unfold serve
    split
    · exact .machine (.pure _)
    · exact .next (serveStub_tame hev) fun _ _ => ih _

omit hev in
theorem nativeStart_tame : Tame m nativeStart w := by
  refine .machine ?_
  dsimp only
  split
  · exact .pure _
  · split
    · exact .pure _
    · exact .throw _

theorem runCall_tame (image : Image) (call : Call) : Tame m (runCall ev image call) w := by
  refine .next nativeStart_tame fun start _ => ?_
  dsimp only
  refine .next (modifyMachine_tame _) fun _ _ => .next (pushFrame_tame _ _) fun frame? _ => ?_
  split
  · exact .throw _
  · exact .next (modifyMachine_tame _) fun _ _ => .next execute_tame fun _ _ => serve_tame hev _ _

theorem invoke_tame (call : Call) : Tame m (invoke ev call) w := by
  unfold invoke
  dsimp only
  split
  · exact .throw_next _ _
  · refine .machine ?_
    split
    · exact .throw _
    · exact .restoring (runCall_tame hev _ _)

theorem callWith_tame (attached : Bool) (fn this : Value) (args : List Value) :
    Tame m (callWith ev attached fn this args) w := by
  refine .heap ?_
  split
  · exact .next hev.display fun _ _ => raise_tame _ _
  · next b hb =>
    refine ⟨fun hpast hsound => (builtin_tame hev b _ _ fun p hp => ?_).grows hpast hsound⟩
    obtain ⟨r, -, hr⟩ := Option.bind_eq_some_iff.1 hb
    exact makes_has hsound hr (by rw [hp])
  · dsimp only
    split
    · exact (internalError_tame _).bind fun _ _ _ _ h => nomatch h
    · refine .next (codeOrCrash_tame _) fun _ _ => .next (receiver_tame _ _) fun _ _ =>
        .next (.attempt (invoke_tame hev _)) fun result _ => ?_
      split
      · exact .pure _
      · exact tooDeep_tame
      · exact .throw _

end

/-- Evaluation makes changes only, however deep it goes. -/
theorem evaluator_tame (attached : Bool) (fuel : Nat) : (evaluator attached fuel).Tame m := by
  induction fuel generalizing attached with
  | zero => exact ⟨.throw _, .throw _, .throw _⟩
  | succ fuel ih =>
    exact ⟨callWith_tame (ih _) _ _ _ _, toPrimitiveWith_tame (ih _) _ _,
      displayWith_tame (ih _) _⟩

/-! ## Programs -/

theorem boxConstant_tame (k : Constant) : Tame m (boxConstant k) w := by
  unfold boxConstant
  split
  · exact .pure _
  · split
    · exact .next (intern_tame _) fun _ _ => .pure _
    · iterate 3
        split
        · exact .pure _
      exact .pure _

theorem prepare_tame (c : Code) : Tame m (prepare c) w := by
  have hconstants (pool : Array Value) (ks : List Constant) (w : World) :
      Tame m (boxConstants pool ks) w := by
    induction ks generalizing pool w with
    | nil => exact .pure _
    | cons k rest ih =>
      refine .next (boxConstant_tame k) fun v? _ => ?_
      split
      · exact ih _ _
      · exact .throw _
  exact hconstants _ _ _

theorem register_tame (c : Code) : Tame m (register c) w :=
  .machine <| .next (modifyMachine_tame _) fun _ _ => .next (prepare_tame _) fun _ _ =>
    .next (modifyMachine_tame _) fun _ _ => .pure _

theorem unitsOf_tame (cs : List (Option Code)) : Tame m (unitsOf register cs) w := by
  induction cs generalizing w with
  | nil => exact .pure _
  | cons c rest ih =>
    cases c with
    | none => exact .throw _
    | some c =>
      refine .next (.attempt (register_tame c)) fun result _ => ?_
      split
      · split <;> exact .throw _
      · exact .next ih fun _ _ => .pure _

theorem compile_tame (c : Code) : Tame m (compile c) w := by
  unfold compile
  refine .machine ?_
  dsimp only
  refine .next (.attempt (unitsOf_tame _)) fun units _ => ?_
  split
  · refine .read rfl fun units _ => ?_
    split
    · exact .throw _
    · exact .throw _
    · refine .machine <| .next (modifyMachine_tame _) fun _ _ => ?_
      split
      · exact .throw _
      · exact .throw _
      · exact .next (modifyMachine_tame _) fun _ _ => .pure _
  · exact .throw_next _ _
  · exact .throw_next _ _

theorem runProgram_tame (code : MachineCode) (this : Value) (args : List Value) :
    Tame m (runProgram code this args) w := invoke_tame (evaluator_tame _ _) _

end Run

end RegisterJit
