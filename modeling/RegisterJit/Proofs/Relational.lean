import Mathlib.Data.List.Lex
import RegisterJit.Machine.Run

/-!
# Relational operators

Less, greater and their negations are one comparison of two primitives, read in four ways. Its laws are
laws of that comparison: strings are compared by their units, everything else by its number.

`Relation` lists the four operators and `holds` reads each of them off the comparison of two primitives, which
knows three answers: less, not less, and not to be compared. `relate_eq` is the only statement about the
runtime: an operator converts its left operand, then its right one, and the answer is read off. Antisymmetry,
duality and transitivity are then facts about the order of doubles and of lists of units, and a NaN satisfies no
relation. `relations_coherent` collects them for all values, `IntegerStubs` uses the case of two numbers.
-/

namespace RegisterJit

/-! ## Units -/

namespace Text

theorem compareUnits_neg_iff (as bs : List Nat) : compareUnits as bs < 0 ↔ as < bs := by
  induction as generalizing bs with
  | nil =>
    cases bs with
    | nil => exact ⟨fun h => absurd h (Int.lt_irrefl 0), fun h => absurd h (List.lt_irrefl [])⟩
    | cons b bs =>
      refine iff_of_true ?_ (List.nil_lt_cons b bs)
      rw [compareUnits, List.length_nil, List.length_cons]
      · omega
      · exact nofun
  | cons a as ih =>
    cases bs with
    | nil =>
      refine iff_of_false ?_ (List.not_lt_nil _)
      rw [compareUnits, List.length_nil, List.length_cons]
      · omega
      · exact nofun
    | cons b bs =>
      rw [compareUnits, List.cons_lt_cons_iff, ← ih]
      split
      · next heq => simp [heq]
      · next hne =>
        have : (a : Int) - b < 0 ↔ a < b := by omega
        rw [this]
        simp [hne]

end Text

/-! ## Primitives -/

/-- The relational operators. -/
inductive Relation
  | lt
  | gt
  | lte
  | gte

namespace Relation

def comparison : Relation → Comparison
  | lt => .lt
  | gt => .gt
  | lte => .lte
  | gte => .gte

/-- Whether a relation holds of two primitives: one of them is less than the other, or is comparable
and not less. -/
def holds (h : Heap) (a b : Value) : Relation → Bool
  | lt => h.lessThan a b = .holds
  | gt => h.lessThan b a = .holds
  | lte => h.lessThan b a = .fails
  | gte => h.lessThan a b = .fails

end Relation

namespace Heap

variable (h : Heap) {a b c : Value}

/-- Whether a primitive converts to a number that is not NaN. -/
def IsNumeric (v : Value) : Prop := (h.primitiveNumber v).isNaN = false

theorem lessThan_of_strings (ha : a.isString) (hb : b.isString) : h.lessThan a b =
    if Text.units (h.text a) < Text.units (h.text b) then .holds else .fails := by
  rw [lessThan, ha, hb, Bool.and_true, if_pos rfl]
  simp only [Text.compareUnits_neg_iff]

theorem lessThan_of_isNumeric (hstrings : ¬ (a.isString ∧ b.isString)) (ha : h.IsNumeric a)
    (hb : h.IsNumeric b) : h.lessThan a b =
      if (h.primitiveNumber a).lt (h.primitiveNumber b) then .holds else .fails := by
  rw [lessThan, if_neg (by rwa [Bool.and_eq_true])]
  dsimp only
  rw [ha, hb, Bool.or_false, if_neg Bool.false_ne_true]

theorem lessThan_of_not_isNumeric (hstrings : ¬ (a.isString ∧ b.isString))
    (hnan : ¬ h.IsNumeric a ∨ ¬ h.IsNumeric b) : h.lessThan a b = .incomparable := by
  simp only [IsNumeric, Bool.not_eq_false] at hnan
  rw [lessThan, if_neg (by rwa [Bool.and_eq_true])]
  dsimp only
  rw [if_pos (by rwa [Bool.or_eq_true])]

theorem lessThan_ne_incomparable (hab : a.isString ∧ b.isString ∨ h.IsNumeric a ∧ h.IsNumeric b) :
    h.lessThan a b ≠ .incomparable := by
  by_cases hstrings : a.isString ∧ b.isString
  · rw [h.lessThan_of_strings hstrings.1 hstrings.2]
    split <;> exact nofun
  · obtain ⟨ha, hb⟩ := hab.resolve_left hstrings
    rw [h.lessThan_of_isNumeric hstrings ha hb]
    split <;> exact nofun

theorem lessThan_fails (hab : a.isString ∧ b.isString ∨ h.IsNumeric a ∧ h.IsNumeric b) :
    decide (h.lessThan a b = .fails) = !decide (h.lessThan a b = .holds) := by
  have hcomparable := h.lessThan_ne_incomparable hab
  cases ho : h.lessThan a b with
  | holds | fails => rfl
  | incomparable => exact absurd ho hcomparable

theorem lessThan_strings_iff (ha : a.isString) (hb : b.isString) :
    h.lessThan a b = .holds ↔ Text.units (h.text a) < Text.units (h.text b) := by
  rw [h.lessThan_of_strings ha hb]
  split <;> simp [*]

theorem not_isString_of_isNumber {v : Value} (hv : v.isNumber) : ¬ v.isString := by
  rw [Value.isNumber_iff] at hv
  rw [Value.isString_iff]
  omega

/-- Numbers are compared as the keys of their order; what is no number is less than nothing. -/
theorem lessThan_numbers_iff (ha : a.isNumber) (hb : b.isNumber) :
    h.lessThan a b = .holds ↔ a.toNumber.lt b.toNumber := by
  have hstrings : ¬ (a.isString ∧ b.isString) := fun hs => not_isString_of_isNumber ha hs.1
  have hnumber {v : Value} (hv : v.isNumber) : h.primitiveNumber v = v.toNumber := if_pos hv
  by_cases hnumeric : h.IsNumeric a ∧ h.IsNumeric b
  · rw [h.lessThan_of_isNumeric hstrings hnumeric.1 hnumeric.2, hnumber ha, hnumber hb]
    split <;> simp [*]
  · rw [h.lessThan_of_not_isNumeric hstrings (not_and_or.1 hnumeric)]
    simp only [IsNumeric, hnumber ha, hnumber hb] at hnumeric
    refine iff_of_false nofun fun hlt => hnumeric ?_
    simp only [Double.lt, Bool.and_eq_true, Bool.not_eq_true'] at hlt
    exact hlt.1

theorem lessThan_irrefl (ha : a.isString ∨ a.isNumber) : h.lessThan a a ≠ .holds := by
  rcases ha with ha | ha
  · rw [ne_eq, h.lessThan_strings_iff ha ha]
    exact List.lt_irrefl _
  · rw [ne_eq, h.lessThan_numbers_iff ha ha, Double.lt]
    simp

theorem lessThan_trans
    (hclass : a.isString ∧ b.isString ∧ c.isString ∨ a.isNumber ∧ b.isNumber ∧ c.isNumber)
    (hab : h.lessThan a b = .holds) (hbc : h.lessThan b c = .holds) : h.lessThan a c = .holds := by
  rcases hclass with ⟨ha, hb, hc⟩ | ⟨ha, hb, hc⟩
  · rw [h.lessThan_strings_iff ha hb] at hab
    rw [h.lessThan_strings_iff hb hc] at hbc
    exact (h.lessThan_strings_iff ha hc).2 (List.lt_trans hab hbc)
  · rw [h.lessThan_numbers_iff ha hb] at hab
    rw [h.lessThan_numbers_iff hb hc] at hbc
    rw [h.lessThan_numbers_iff ha hc]
    simp only [Double.lt, Bool.and_eq_true, decide_eq_true_eq] at hab hbc ⊢
    exact ⟨⟨hab.1.1, hbc.1.2⟩, Int.lt_trans hab.2 hbc.2⟩

end Heap

/-! ## Operands of any kind -/

namespace Run

def relate (ev : Evaluator) (r : Relation) (a b : Value) : Run Value :=
  binaryStub ev (.binary (.compare r.comparison)) a b

/-- The left operand is converted first, then the right one, whichever relation is asked for. -/
theorem relate_eq (ev : Evaluator) (r : Relation) (a b : Value) : relate ev r a b = (do
    let p ← ev.toPrimitive a .number
    let q ← ev.toPrimitive b .number
    return Value.ofBool (r.holds (← heap) p q)) := by
  funext w
  cases hp : ev.toPrimitive a .number w with
  | error e w' =>
    rw [bind_error hp]
    cases r <;> exact bind_error (bind_error (bind_error hp))
  | ok p w' =>
    rw [bind_ok hp]
    cases hq : ev.toPrimitive b .number w' with
    | error e w'' =>
      rw [bind_error hq]
      have hboth {α : Type} (f : Primitive → Primitive → Run α) :
          (ev.toPrimitive a .number >>= fun p => ev.toPrimitive b .number >>= f p) w = .error e w'' := by
        rw [bind_ok hp, bind_error hq]
      cases r <;> exact bind_error (bind_error (hboth _))
    | ok q w'' =>
      rw [bind_ok hq]
      have hboth {α : Type} (f : Primitive → Primitive → Run α) :
          (ev.toPrimitive a .number >>= fun p => ev.toPrimitive b .number >>= f p) w = f p q w'' := by
        rw [bind_ok hp, bind_ok hq]
      cases r <;> exact bind_ok (bind_ok (hboth _))

theorem relate_of_error {ev : Evaluator} {a : Value} {w w' : World} {e : Fault} (r : Relation)
    (b : Value) (hp : ev.toPrimitive a .number w = .error e w') : relate ev r a b w = .error e w' := by
  rw [relate_eq, bind_error hp]

theorem relate_of_primitives (attached : Bool) (fuel : Nat) (r : Relation) {a b : Value}
    (ha : a.isObject = false) (hb : b.isObject = false) (w : World) :
    relate (evaluator attached (fuel + 1)) r a b w =
      .ok (Value.ofBool (r.holds w.realm.heap a b)) w := by
  have hself {v : Value} (hv : v.isObject = false) :
      (evaluator attached (fuel + 1)).toPrimitive v .number w = .ok ⟨v, hv⟩ w := by
    change toPrimitiveWith _ v .number w = _
    rw [toPrimitiveWith_of_isObject hv]
    rfl
  rw [relate_eq, bind_ok (hself ha), bind_ok (hself hb)]
  rfl

/-! ## Coherence -/

/-- Every relation converts its left operand before its right one, and the right one not at all if the
left one throws. On primitives the relations are coherent: each is another one with the operands
exchanged, each is the negation of another one unless a number is missing, and less is an order among
strings and among numbers, which on strings is the lexicographic order of their units. -/
theorem relations_coherent (ev : Evaluator) (attached : Bool) (fuel : Nat) (a b c : Value) (w : World) :
    (∀ r, relate ev r a b = (do
        let p ← ev.toPrimitive a .number
        let q ← ev.toPrimitive b .number
        return Value.ofBool (r.holds (← heap) p q)) ∧
      ∀ e w', ev.toPrimitive a .number w = .error e w' → relate ev r a b w = .error e w') ∧
    (a.isObject = false → b.isObject = false → c.isObject = false →
      let answers (r : Relation) (a b : Value) (t : Bool) : Prop :=
        relate (evaluator attached (fuel + 1)) r a b w = .ok (Value.ofBool t) w
      let h := w.realm.heap
      (∃ s t, answers .lt a b s ∧ answers .gt b a s ∧ answers .lte a b t ∧ answers .gte b a t) ∧
      (a.isString ∧ b.isString ∨ h.IsNumeric a ∧ h.IsNumeric b →
        ∃ s t, answers .lt a b s ∧ answers .gte a b (!s) ∧ answers .gt a b t ∧ answers .lte a b (!t)) ∧
      (¬ (a.isString ∧ b.isString) → ¬ h.IsNumeric a ∨ ¬ h.IsNumeric b →
        ∀ r, answers r a b false) ∧
      (a.isString ∨ a.isNumber → answers .lt a a false) ∧
      (a.isString ∧ b.isString ∧ c.isString ∨ a.isNumber ∧ b.isNumber ∧ c.isNumber →
        answers .lt a b true → answers .lt b c true → answers .lt a c true) ∧
      (a.isString → b.isString →
        answers .lt a b (Text.units (h.text a) < Text.units (h.text b)))) := by
  refine ⟨fun r => ⟨relate_eq ev r a b, fun e w' => relate_of_error r b⟩, ?_⟩
  intro ha hb hc answers h
  have hanswer (r : Relation) {a b : Value} (ha : a.isObject = false) (hb : b.isObject = false) {t : Bool}
      (ht : r.holds h a b = t) : answers r a b t :=
    ht ▸ relate_of_primitives attached fuel r ha hb w
  have hholds {r : Relation} {a b : Value} (ha : a.isObject = false) (hb : b.isObject = false)
      (hr : answers r a b true) : r.holds h a b = true := by
    have heq := (relate_of_primitives attached fuel r ha hb w).symm.trans hr
    cases hr : r.holds h a b with
    | true => rfl
    | false =>
      rw [hr] at heq
      cases heq
  refine ⟨⟨_, _, hanswer _ ha hb rfl, hanswer _ hb ha rfl, hanswer _ ha hb rfl, hanswer _ hb ha rfl⟩,
    fun hab => ⟨_, _, hanswer _ ha hb rfl, ?_, hanswer _ ha hb rfl, ?_⟩,
    fun hstrings hnan r => hanswer _ ha hb ?_, fun hclass => hanswer _ ha ha ?_,
    fun hclass hab hbc => hanswer _ ha hc ?_, fun hsa hsb => hanswer _ ha hb ?_⟩
  · exact hanswer _ ha hb (h.lessThan_fails hab)
  · exact hanswer _ ha hb (h.lessThan_fails (hab.imp And.symm And.symm))
  · have hleft := h.lessThan_of_not_isNumeric hstrings hnan
    have hright := h.lessThan_of_not_isNumeric (mt And.symm hstrings) hnan.symm
    cases r <;> simp [Relation.holds, hleft, hright]
  · exact decide_eq_false (h.lessThan_irrefl hclass)
  · exact decide_eq_true (h.lessThan_trans hclass (of_decide_eq_true (hholds ha hb hab))
      (of_decide_eq_true (hholds hb hc hbc)))
  · exact decide_eq_decide.2 (h.lessThan_strings_iff hsa hsb)

/-- One, two and three in the first world. -/
theorem relations_coherent_integers :
    relate detached .lt (Value.ofInt 1) (Value.ofInt 3) (World.ofConfig ⟨0, 0, 0⟩) =
        .ok Value.true (World.ofConfig ⟨0, 0, 0⟩) ∧
      relate detached .lt (Value.ofInt 1) (Value.ofInt 1) (World.ofConfig ⟨0, 0, 0⟩) =
        .ok Value.false (World.ofConfig ⟨0, 0, 0⟩) ∧
      relate detached .gte Value.undefined (Value.ofInt 1) (World.ofConfig ⟨0, 0, 0⟩) =
        .ok Value.false (World.ofConfig ⟨0, 0, 0⟩) := by
  have hnumber (i : Int) := Value.isObject_of_isNumber (Value.isNumber_ofInt i)
  obtain ⟨n, hn⟩ : ∃ n, nestingBound = n + 1 := ⟨2 ^ 62 - 1, by decide⟩
  have hdetached : detached = evaluator Bool.false (n + 1) := by rw [detached, hn]
  obtain ⟨-, hintegers⟩ := relations_coherent detached Bool.false n (Value.ofInt 1) (Value.ofInt 2)
    (Value.ofInt 3) (World.ofConfig ⟨0, 0, 0⟩)
  obtain ⟨-, -, -, hirrefl, htrans, -⟩ := hintegers (hnumber 1) (hnumber 2) (hnumber 3)
  obtain ⟨-, hundefined⟩ := relations_coherent detached Bool.false n Value.undefined (Value.ofInt 1)
    (Value.ofInt 1) (World.ofConfig ⟨0, 0, 0⟩)
  obtain ⟨-, -, hnan, -⟩ := hundefined rfl (hnumber 1) (hnumber 1)
  have hless {i j : Int} (h : (Value.ofInt i).toNumber.lt (Value.ofInt j).toNumber) :=
    relate_of_primitives Bool.false n .lt (hnumber i) (hnumber j) (World.ofConfig ⟨0, 0, 0⟩) |>.trans
      (congrArg (fun t => EStateM.Result.ok (Value.ofBool t) _) (decide_eq_true
        ((Heap.lessThan_numbers_iff _ (Value.isNumber_ofInt i) (Value.isNumber_ofInt j)).2 h)))
  rw [hdetached]
  refine ⟨htrans (.inr ⟨Value.isNumber_ofInt 1, Value.isNumber_ofInt 2, Value.isNumber_ofInt 3⟩)
    (hless (by decide +kernel)) (hless (by decide +kernel)), hirrefl (.inr (Value.isNumber_ofInt 1)),
    hnan (fun h => nomatch h.1) (.inl ?_) .gte⟩
  exact fun h => nomatch (show Bool.true = Bool.false from h)

end Run

end RegisterJit
