import RegisterJit.Machine.Run
import RegisterJit.Proofs.Boxing

/-!
# Loose equality

The loop of loose equality as a relation that records the conversions it makes. Every run of the loop has
exactly one record, however the evaluator answers; the record is bounded, and it is the same when the
operands are exchanged.

`Loosely` has one rule for each way in which the loop goes on or ends, with the conversion that it makes, if it
makes one. `looseStep_eq` connects it with the step of the loop, by cases on the classes of the two operands,
and that is all that is ever said about the step. Existence and uniqueness of records, the bound on their
length, and that exchanging the operands exchanges nothing in a record but the side, are then inductions over
`Loosely`. Conversions are left to an evaluator that may do anything, so the bound holds also when objects are
converted by scripts.
-/

namespace RegisterJit

/-! ## Classes of values -/

/-- What loose equality asks of an operand. -/
inductive LooseClass
  | number
  | string
  | object
  | bool
  | nullish
  /-- Words that no value has. -/
  | other
  deriving DecidableEq

/-- The class of a value. The tests exclude each other, so their order does not matter. -/
def Value.looseClass (v : Value) : LooseClass :=
  if v.isNumber then .number
  else if v.isString then .string
  else if v.isObject then .object
  else if v.isBool then .bool
  else if Run.isNullish v then .nullish
  else .other

theorem Run.isNullish_iff {v : Value} : isNullish v ↔ v = .null ∨ v = .undefined ∨ v = .empty := by
  rw [isNullish, Bool.or_eq_true, Value.isNullOrUndefined_iff, Value.isEmpty_iff, Value.eq_iff_toNat,
    Value.eq_iff_toNat, Value.eq_iff_toNat, or_assoc]
  rfl

theorem Value.looseClass_tests (v : Value) :
    v.isNumber = decide (v.looseClass = .number) ∧ v.isString = decide (v.looseClass = .string) ∧
      v.isObject = decide (v.looseClass = .object) ∧ v.isBool = decide (v.looseClass = .bool) ∧
      Run.isNullish v = decide (v.looseClass = .nullish) := by
  have hnumber := v.isNumber_iff
  have hstring := v.isString_iff
  have hobject := v.isObject_iff
  have hbool := v.isBool_iff
  have hnullish : Run.isNullish v ↔ (v.word.toNat = 2 ∨ v.word.toNat = 10) ∨ v.word.toNat = 0 := by
    rw [Run.isNullish, Bool.or_eq_true, isNullOrUndefined_iff, isEmpty_iff]
  unfold looseClass
  refine ⟨?_, ?_, ?_, ?_, ?_⟩ <;> rw [Bool.eq_iff_iff, decide_eq_true_eq] <;>
    split_ifs <;> simp_all <;> omega

namespace Heap

theorem strictEquals_comm (a b : Value) : strictEquals a b = strictEquals b a := by
  have heq (x y : Double) : x.eq y = y.eq x := by
    rw [Double.eq, Double.eq, Bool.and_comm (!x.isNaN), Bool.beq_comm]
  rw [strictEquals, strictEquals, Bool.and_comm, heq, Bool.beq_comm]

theorem looseRank_le_two (v : Value) : looseRank v ≤ 2 := by
  unfold looseRank
  split_ifs <;> decide

/-- The steps by the classes of the operands. -/
theorem looseStep_eq (h : Heap) (a b : Value) : h.looseStep a b =
    match a.looseClass, b.looseClass with
    | .number, .number | .string, .string | .object, .object | .bool, .bool =>
      .answer (strictEquals a b)
    | .nullish, .nullish => .answer true
    | .nullish, _ | _, .nullish => .answer false
    | .bool, _ => .replace (boolNumber a) b
    | _, .bool => .replace a (boolNumber b)
    | .number, .string => .replace a (h.textNumber b)
    | .string, .number => .replace (h.textNumber a) b
    | .object, _ => .convertLeft
    | _, .object => .convertRight
    | _, _ => .answer false := by
  simp only [looseStep, sameType, a.looseClass_tests, b.looseClass_tests]
  cases a.looseClass <;> cases b.looseClass <;> rfl

def LooseStep.swap : LooseStep → LooseStep
  | .answer r => .answer r
  | .replace a b => .replace b a
  | .convertLeft => .convertRight
  | .convertRight => .convertLeft

theorem looseStep_swap (h : Heap) (a b : Value) : h.looseStep b a = (h.looseStep a b).swap := by
  rw [looseStep_eq, looseStep_eq, strictEquals_comm b a]
  cases a.looseClass <;> cases b.looseClass <;> rfl

theorem looseStep_of_objects (h : Heap) {a b : Value} (ha : a.isObject) (hb : b.isObject) :
    h.looseStep a b = .answer (strictEquals a b) := by
  simp only [a.looseClass_tests, b.looseClass_tests, decide_eq_true_eq] at ha hb
  rw [looseStep_eq, ha, hb]

theorem isObject_of_convertLeft {h : Heap} {a b : Value} (hs : h.looseStep a b = .convertLeft) :
    a.isObject ∧ b.isObject = false := by
  rw [looseStep_eq] at hs
  simp only [a.looseClass_tests, b.looseClass_tests]
  cases ha : a.looseClass <;> cases hb : b.looseClass <;> simp_all

theorem isObject_of_convertRight {h : Heap} {a b : Value} (hs : h.looseStep a b = .convertRight) :
    b.isObject ∧ a.isObject = false :=
  isObject_of_convertLeft (h := h) (by rw [looseStep_swap, hs, LooseStep.swap])

end Heap

/-! ## Records of conversions -/

namespace Run

/-- A conversion that loose equality makes. -/
inductive Conversion
  /-- A boolean or a string becomes its number. -/
  | number
  /-- An object is asked for its primitive. -/
  | primitive (v : Value) (hint : Hint)

def calls (cs : List Conversion) : List (Value × Hint) :=
  cs.filterMap fun
    | .number => none
    | .primitive v hint => some (v, hint)

@[simp] theorem calls_number (cs : List Conversion) : calls (.number :: cs) = calls cs := rfl

@[simp] theorem calls_primitive (v : Value) (hint : Hint) (cs : List Conversion) :
    calls (.primitive v hint :: cs) = (v, hint) :: calls cs := rfl

/-- The loop of loose equality from two operands in a world: its conversions, and what it ends with. -/
inductive Loosely (ev : Evaluator) :
    Value → Value → World → List Conversion → EStateM.Result Fault World Bool → Prop
  | answer {a b w r} (hs : w.realm.heap.looseStep a b = .answer r) : Loosely ev a b w [] (.ok r w)
  | replace {a b w a' b' cs result} (hs : w.realm.heap.looseStep a b = .replace a' b')
      (rest : Loosely ev a' b' w cs result) : Loosely ev a b w (.number :: cs) result
  | left {a b w p w' cs result} (hs : w.realm.heap.looseStep a b = .convertLeft)
      (hp : ev.toPrimitive a .default w = .ok p w') (rest : Loosely ev p b w' cs result) :
      Loosely ev a b w (.primitive a .default :: cs) result
  | leftFails {a b w e w'} (hs : w.realm.heap.looseStep a b = .convertLeft)
      (hp : ev.toPrimitive a .default w = .error e w') :
      Loosely ev a b w [.primitive a .default] (.error e w')
  | right {a b w p w' cs result} (hs : w.realm.heap.looseStep a b = .convertRight)
      (hp : ev.toPrimitive b .default w = .ok p w') (rest : Loosely ev a p w' cs result) :
      Loosely ev a b w (.primitive b .default :: cs) result
  | rightFails {a b w e w'} (hs : w.realm.heap.looseStep a b = .convertRight)
      (hp : ev.toPrimitive b .default w = .error e w') :
      Loosely ev a b w [.primitive b .default] (.error e w')

variable {ev ev' : Evaluator} {a b : Value} {w : World} {cs ds : List Conversion}
  {result result' : EStateM.Result Fault World Bool}

theorem loosely_looseEquals (ev : Evaluator) (a b : Value) (w : World) :
    ∃ cs, Loosely ev a b w cs (looseEquals ev a b w) := by
  cases hs : w.realm.heap.looseStep a b with
  | answer r =>
    rw [looseEquals_of_answer hs]
    exact ⟨_, .answer hs⟩
  | replace a' b' =>
    have hrank := Heap.looseRank_of_replace hs
    rw [looseEquals_of_replace hs]
    obtain ⟨cs, h⟩ := loosely_looseEquals ev a' b' w
    exact ⟨_, .replace hs h⟩
  | convertLeft =>
    rw [looseEquals_of_convertLeft hs]
    cases hp : ev.toPrimitive a .default w with
    | ok p w' =>
      have hrank := Heap.looseRank_of_convertLeft hs p
      rw [bind_ok hp]
      obtain ⟨cs, h⟩ := loosely_looseEquals ev p b w'
      exact ⟨_, .left hs hp h⟩
    | error e w' =>
      rw [bind_error hp]
      exact ⟨_, .leftFails hs hp⟩
  | convertRight =>
    rw [looseEquals_of_convertRight hs]
    cases hp : ev.toPrimitive b .default w with
    | ok p w' =>
      have hrank := Heap.looseRank_of_convertRight hs p
      rw [bind_ok hp]
      obtain ⟨cs, h⟩ := loosely_looseEquals ev a p w'
      exact ⟨_, .right hs hp h⟩
    | error e w' =>
      rw [bind_error hp]
      exact ⟨_, .rightFails hs hp⟩
termination_by Heap.looseRank a + Heap.looseRank b

namespace Loosely

theorem result_eq (h : Loosely ev a b w cs result) : result = looseEquals ev a b w := by
  induction h with
  | answer hs => rw [looseEquals_of_answer hs]
  | replace hs _ ih => rw [ih, looseEquals_of_replace hs]
  | left hs hp _ ih => rw [ih, looseEquals_of_convertLeft hs, bind_ok hp]
  | leftFails hs hp => rw [looseEquals_of_convertLeft hs, bind_error hp]
  | right hs hp _ ih => rw [ih, looseEquals_of_convertRight hs, bind_ok hp]
  | rightFails hs hp => rw [looseEquals_of_convertRight hs, bind_error hp]

/-! ### Exchange -/

theorem symm (h : Loosely ev a b w cs result) : Loosely ev b a w cs result := by
  induction h with
  | answer hs => exact .answer (by rw [Heap.looseStep_swap, hs, Heap.LooseStep.swap])
  | replace hs _ ih => exact .replace (by rw [Heap.looseStep_swap, hs, Heap.LooseStep.swap]) ih
  | left hs hp _ ih => exact .right (by rw [Heap.looseStep_swap, hs, Heap.LooseStep.swap]) hp ih
  | leftFails hs hp => exact .rightFails (by rw [Heap.looseStep_swap, hs, Heap.LooseStep.swap]) hp
  | right hs hp _ ih => exact .left (by rw [Heap.looseStep_swap, hs, Heap.LooseStep.swap]) hp ih
  | rightFails hs hp => exact .leftFails (by rw [Heap.looseStep_swap, hs, Heap.LooseStep.swap]) hp

/-! ### Bounds -/

theorem length_le_rank (h : Loosely ev a b w cs result) :
    cs.length ≤ Heap.looseRank a + Heap.looseRank b := by
  induction h with
  | answer => exact Nat.zero_le _
  | replace hs _ ih =>
    have hrank := Heap.looseRank_of_replace hs
    rw [List.length_cons]
    omega
  | @left _ _ _ p _ _ _ hs _ _ ih =>
    have hrank := Heap.looseRank_of_convertLeft hs p
    rw [List.length_cons]
    omega
  | @leftFails a b _ _ _ hs =>
    have hrank := Heap.looseRank_of_convertLeft hs Primitive.empty
    rw [List.length_singleton]
    omega
  | @right _ _ _ p _ _ _ hs _ _ ih =>
    have hrank := Heap.looseRank_of_convertRight hs p
    rw [List.length_cons]
    omega
  | @rightFails a b _ _ _ hs =>
    have hrank := Heap.looseRank_of_convertRight hs Primitive.empty
    rw [List.length_singleton]
    omega

theorem length_le_three (h : Loosely ev a b w cs result) : cs.length ≤ 3 := by
  have hrank := h.length_le_rank
  have ha := Heap.looseRank_le_two a
  have hb := Heap.looseRank_le_two b
  cases hao : a.isObject with
  | false =>
    have := Heap.looseRank_le_one hao
    omega
  | true =>
    cases hbo : b.isObject with
    | false =>
      have := Heap.looseRank_le_one hbo
      omega
    | true =>
      have hs := Heap.looseStep_of_objects w.realm.heap hao hbo
      cases h with
      | answer => exact Nat.zero_le _
      | replace hs' | left hs' | leftFails hs' | right hs' | rightFails hs' => cases hs.symm.trans hs'

theorem calls_of_primitives (h : Loosely ev a b w cs result) (ha : a.isObject = false)
    (hb : b.isObject = false) : calls cs = [] := by
  induction h with
  | answer => rfl
  | replace hs _ ih =>
    obtain ⟨ha', hb'⟩ := Heap.isObject_of_replace hs
    exact ih (ha'.trans ha) (hb'.trans hb)
  | left hs | leftFails hs => cases ha.symm.trans (Heap.isObject_of_convertLeft hs).1
  | right hs | rightFails hs => cases hb.symm.trans (Heap.isObject_of_convertRight hs).1

theorem calls_left {p : Primitive} {w' : World} (hs : w.realm.heap.looseStep a b = .convertLeft)
    (rest : Loosely ev p b w' cs result) : calls cs = [] :=
  rest.calls_of_primitives p.isObject_eq (Heap.isObject_of_convertLeft hs).2

theorem calls_right {p : Primitive} {w' : World} (hs : w.realm.heap.looseStep a b = .convertRight)
    (rest : Loosely ev a p w' cs result) : calls cs = [] :=
  rest.calls_of_primitives (Heap.isObject_of_convertRight hs).2 p.isObject_eq

theorem calls_convertLeft (h : Loosely ev a b w cs result)
    (hs : w.realm.heap.looseStep a b = .convertLeft) : calls cs = [(a, .default)] := by
  cases h with
  | left _ _ rest => rw [calls_primitive, calls_left hs rest]
  | leftFails => rfl
  | answer hs' | replace hs' | right hs' | rightFails hs' => cases hs.symm.trans hs'

theorem calls_convertRight (h : Loosely ev a b w cs result)
    (hs : w.realm.heap.looseStep a b = .convertRight) : calls cs = [(b, .default)] :=
  h.symm.calls_convertLeft (by rw [Heap.looseStep_swap, hs, Heap.LooseStep.swap])

theorem length_calls_le_one (h : Loosely ev a b w cs result) : (calls cs).length ≤ 1 := by
  induction h with
  | answer => exact Nat.zero_le _
  | replace _ _ ih => exact ih
  | left hs hp rest => exact ((left hs hp rest).calls_convertLeft hs ▸ Nat.le_refl 1)
  | right hs hp rest => exact ((right hs hp rest).calls_convertRight hs ▸ Nat.le_refl 1)
  | leftFails | rightFails => exact Nat.le_refl _

/-! ### Other evaluators -/

theorem calls_eq (h : Loosely ev a b w cs result) (h' : Loosely ev' a b w ds result') :
    calls ds = calls cs := by
  induction h generalizing ds with
  | answer hs =>
    cases h' with
    | answer => rfl
    | replace hs' | left hs' | leftFails hs' | right hs' | rightFails hs' => cases hs.symm.trans hs'
  | replace hs _ ih =>
    cases h' with
    | replace hs' rest' =>
      cases hs.symm.trans hs'
      rw [calls_number, calls_number, ih rest']
    | answer hs' | left hs' | leftFails hs' | right hs' | rightFails hs' => cases hs.symm.trans hs'
  | left hs hp rest => rw [h'.calls_convertLeft hs, (left hs hp rest).calls_convertLeft hs]
  | leftFails hs => exact h'.calls_convertLeft hs
  | right hs hp rest => rw [h'.calls_convertRight hs, (right hs hp rest).calls_convertRight hs]
  | rightFails hs => exact h'.calls_convertRight hs

theorem of_agree (h : Loosely ev a b w cs result)
    (hagree : ∀ c ∈ calls cs, ev'.toPrimitive c.1 c.2 w = ev.toPrimitive c.1 c.2 w) :
    Loosely ev' a b w cs result := by
  induction h with
  | answer hs => exact .answer hs
  | replace hs _ ih => exact .replace hs (ih hagree)
  | left hs hp rest ih =>
    refine .left hs ((hagree _ (.head _)).trans hp) (ih fun c hc => ?_)
    rw [calls_left hs rest] at hc
    cases hc
  | right hs hp rest ih =>
    refine .right hs ((hagree _ (.head _)).trans hp) (ih fun c hc => ?_)
    rw [calls_right hs rest] at hc
    cases hc
  | leftFails hs hp => exact .leftFails hs ((hagree _ (.head _)).trans hp)
  | rightFails hs hp => exact .rightFails hs ((hagree _ (.head _)).trans hp)

end Loosely

/-! ## Loose equality ends and is symmetric -/

theorem looseEquals_of_sameClass (ev : Evaluator) (w : World)
    (h : a.isNumber ∧ b.isNumber ∨ a.isString ∧ b.isString ∨ a.isBool ∧ b.isBool ∨
      a.isObject ∧ b.isObject) :
    looseEquals ev a b w = .ok (Heap.strictEquals a b) w := by
  refine looseEquals_of_answer ?_
  simp only [a.looseClass_tests, b.looseClass_tests, decide_eq_true_eq] at h
  rw [Heap.looseStep_eq]
  rcases h with ⟨ha, hb⟩ | ⟨ha, hb⟩ | ⟨ha, hb⟩ | ⟨ha, hb⟩ <;> rw [ha, hb]

theorem looseEquals_of_isNullish (ev : Evaluator) (w : World) (ha : isNullish a) :
    looseEquals ev a b w = .ok (isNullish b) w := by
  refine looseEquals_of_answer ?_
  simp only [a.looseClass_tests, b.looseClass_tests, decide_eq_true_eq] at ha ⊢
  rw [Heap.looseStep_eq, ha]
  cases b.looseClass <;> rfl

/-- For any two values and any evaluator, the loop of loose equality ends with the answer after at most
three conversions, of which at most one is a call for a primitive. The loop from the operands in the
other order makes the same call, even if an evaluator `ev'` answers there, and has the same end if the call
returns the same. Operands of one class are compared strictly; null, undefined and the empty value equal
each other and nothing else. -/
theorem looseEquals_ends_symmetric (ev : Evaluator) (a b : Value) (w : World) :
    (∃ cs, Loosely ev a b w cs (looseEquals ev a b w) ∧ cs.length ≤ 3 ∧ (calls cs).length ≤ 1 ∧
      ∀ ev', ∃ ds, Loosely ev' b a w ds (looseEquals ev' b a w) ∧ calls ds = calls cs ∧
        ((∀ c ∈ calls cs, ev'.toPrimitive c.1 c.2 w = ev.toPrimitive c.1 c.2 w) →
          looseEquals ev' b a w = looseEquals ev a b w)) ∧
    (a.isNumber ∧ b.isNumber ∨ a.isString ∧ b.isString ∨ a.isBool ∧ b.isBool ∨
        a.isObject ∧ b.isObject →
      looseEquals ev a b w = .ok (Heap.strictEquals a b) w) ∧
    (a = .null ∨ a = .undefined ∨ a = .empty →
      looseEquals ev a b w = .ok (b = .null ∨ b = .undefined ∨ b = .empty) w ∧
      looseEquals ev b a w = .ok (b = .null ∨ b = .undefined ∨ b = .empty) w) := by
  obtain ⟨cs, h⟩ := loosely_looseEquals ev a b w
  refine ⟨⟨cs, h, h.length_le_three, h.length_calls_le_one, fun ev' => ?_⟩,
    looseEquals_of_sameClass ev w, fun ha => ?_⟩
  · obtain ⟨ds, h'⟩ := loosely_looseEquals ev' b a w
    exact ⟨ds, h', h.calls_eq h'.symm, fun hagree => ((h.of_agree hagree).symm.result_eq).symm⟩
  · have hnullish : decide (b = .null ∨ b = .undefined ∨ b = .empty) = isNullish b := by
      rw [Bool.eq_iff_iff, decide_eq_true_eq, isNullish_iff]
    have hanswer := looseEquals_of_isNullish (b := b) ev w (isNullish_iff.2 ha)
    rw [hnullish]
    refine ⟨hanswer, ?_⟩
    obtain ⟨cs, h⟩ := loosely_looseEquals ev a b w
    rw [← hanswer, h.symm.result_eq]

/-- An object beside a string, an object beside the empty value, null beside undefined, two booleans. -/
theorem looseEquals_ends_symmetric_values :
    looseEquals { detached with display := fun _ => throw .crash } (.string 1) (.object 1)
          (World.ofConfig ⟨0, 0, 0⟩) =
        looseEquals detached (.object 1) (.string 1) (World.ofConfig ⟨0, 0, 0⟩) ∧
      looseEquals detached (.object 1) .empty (World.ofConfig ⟨0, 0, 0⟩) =
        .ok false (World.ofConfig ⟨0, 0, 0⟩) ∧
      looseEquals detached .null .undefined (World.ofConfig ⟨0, 0, 0⟩) =
        .ok true (World.ofConfig ⟨0, 0, 0⟩) ∧
      looseEquals detached .true .false (World.ofConfig ⟨0, 0, 0⟩) =
        .ok false (World.ofConfig ⟨0, 0, 0⟩) := by
  obtain ⟨⟨_, -, -, -, hexchange⟩, -⟩ :=
    looseEquals_ends_symmetric detached (.object 1) (.string 1) (World.ofConfig ⟨0, 0, 0⟩)
  obtain ⟨_, -, -, hsame⟩ := hexchange { detached with display := fun _ => throw .crash }
  obtain ⟨-, -, hempty⟩ :=
    looseEquals_ends_symmetric detached .empty (.object 1) (World.ofConfig ⟨0, 0, 0⟩)
  obtain ⟨-, -, hnull⟩ :=
    looseEquals_ends_symmetric detached .null .undefined (World.ofConfig ⟨0, 0, 0⟩)
  obtain ⟨-, hbooleans, -⟩ :=
    looseEquals_ends_symmetric detached .true .false (World.ofConfig ⟨0, 0, 0⟩)
  exact ⟨hsame fun _ _ => rfl, (hempty (.inr (.inr rfl))).2, (hnull (.inl rfl)).1,
    hbooleans (.inr (.inr (.inl ⟨rfl, rfl⟩)))⟩

end Run

end RegisterJit
