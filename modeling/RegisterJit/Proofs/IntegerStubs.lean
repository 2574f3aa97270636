import RegisterJit.Proofs.Arithmetic
import RegisterJit.Proofs.Branching
import RegisterJit.Proofs.Relational
import RegisterJit.Proofs.Residues

/-!
# Stubs on integers

What the operators of the host make of boxed integers: arithmetic of doubles, boxed again.

`arithmetic?_eq` computes what an operator makes of two numbers, given their residues by `2 ^ 32`: an operation
on doubles, or an operation on the residues. For operands that are integers of 32 bits, `arithmetic?_integers`
compares this with `onIntegers`, the function that the inline paths compute, wherever these do not leave for the
stub. The proof is by cases on the operator and uses that doubles are exact on such integers (`Integers`), the
residues for the operators on bits (`Residues`) and the comparison of numbers (`Relational`). `Operators` puts
this beside what `Arithmetic` says about the inline paths.
-/

namespace RegisterJit

namespace Double

theorem natAbs_signed32 (u : UInt32) : (signed32 u).natAbs < 2 ^ 53 := by
  obtain ⟨hlow, hhigh⟩ := fitsInt32_signed32 u
  omega

theorem toUInt32_ofInt_signed32 (u : UInt32) : (ofInt (signed32 u)).toUInt32 = u := by
  have hmeans := ofInt_means (natAbs_signed32 u)
  have hlt := u.toNat_lt
  rw [← UInt32.toNat_inj, toNat_toUInt32, residue, if_pos hmeans.1, hmeans.integerPart_eq, signed32_eq]
  split <;> omega

theorem one_eq : one = ofInt 1 := by decide +kernel

end Double

namespace Value

theorem isInt32_int32 (u : UInt32) : (int32 u).isInt32 = Bool.true := by
  rw [isInt32_iff, toNat_int32]
  omega

theorem isNumber_int32 (u : UInt32) : (int32 u).isNumber = Bool.true := by
  rw [isNumber_iff, toNat_int32]
  omega

theorem toNumber_int32 (u : UInt32) : (int32 u).toNumber = Double.ofInt (signed32 u) := by
  rw [toNumber, if_pos (isInt32_int32 u), toInt32_int32]

end Value

/-! ## Binary operators -/

namespace Run

variable {op : BinaryOp} {u v : UInt32}

/-- Arithmetic of numbers. Shifts and bitwise operators look at them modulo `2 ^ 32`. -/
theorem arithmetic?_eq {x y : Double} (hx : x.toUInt32 = u) (hy : y.toUInt32 = v) :
    arithmetic? op x y = match op with
      | .add | .compare _ | .instanceOf | .memberOf => none
      | .subtract => some (.number (x.sub y))
      | .multiply => some (.number (x.mul y))
      | .divide => some (.number (x.div y))
      | .modulo => some (.number (x.rem y))
      | .shiftLeft => some (.int32 (u <<< (v &&& 31)))
      | .shiftRight => some (.ofInt (signed32 u >>> (v &&& 31).toNat))
      | .shiftRightLogical => some (.number (.ofInt (u >>> (v &&& 31)).toNat))
      | .bitAnd => some (.int32 (u &&& v))
      | .bitXor => some (.int32 (u ^^^ v))
      | .bitOr => some (.int32 (u ||| v)) := by
  subst hx hy
  cases op <;> rfl

theorem multiply_integers (hleaves : BinaryOp.multiply.leaves (signed32 u) (signed32 v) = false) :
    (Double.ofInt (signed32 u)).mul (.ofInt (signed32 v)) = .ofInt (signed32 u * signed32 v) := by
  have hnot := of_decide_eq_false hleaves
  exact Double.mul_ofInt (Double.natAbs_signed32 u) (Double.natAbs_signed32 v) fun hzero => by omega

theorem divide_integers (hleaves : BinaryOp.divide.leaves (signed32 u) (signed32 v) = false) :
    .number ((Double.ofInt (signed32 u)).div (.ofInt (signed32 v))) =
      Value.int32 (.ofInt ((signed32 u).tdiv (signed32 v))) := by
  have hnot := of_decide_eq_false hleaves
  simp only [not_or, not_and, not_not] at hnot
  obtain ⟨hzero, hminus, hneg, hdvd⟩ := hnot
  have hexact : signed32 u = (signed32 u).tdiv (signed32 v) * signed32 v := (Int.tdiv_mul_cancel hdvd).symm
  have hpos : signed32 u = 0 → 0 < signed32 v := fun h => by
    have := hneg h
    omega
  have hquotient : Double.div (.ofInt (signed32 u)) (.ofInt (signed32 v)) =
      .ofInt ((signed32 u).tdiv (signed32 v)) :=
    Double.div_ofInt (Double.natAbs_signed32 u) (Double.natAbs_signed32 v) hexact hzero hpos
  rw [hquotient, Value.number_ofInt_fits ((fitsInt32_signed32 u).tdiv hzero hminus)]

theorem modulo_integers (hleaves : BinaryOp.modulo.leaves (signed32 u) (signed32 v) = false) :
    .number ((Double.ofInt (signed32 u)).rem (.ofInt (signed32 v))) =
      Value.int32 (.ofInt (signed32 u % signed32 v)) := by
  have hnot := of_decide_eq_false hleaves
  rw [not_or, Int.not_lt, Int.not_le] at hnot
  obtain ⟨hlow, hpos⟩ := hnot
  have hremainder := Double.rem_ofInt (Double.natAbs_signed32 u) (Double.natAbs_signed32 v) hlow hpos
  have hfits : FitsInt32 (signed32 u % signed32 v) := by
    rw [← Int.tmod_eq_emod_of_nonneg hlow]
    exact (fitsInt32_signed32 v).tmod hpos.ne' _
  rw [hremainder, Value.number_ofInt_fits hfits]

/-- Integers that an operator does not leave to its stub make what their doubles make. -/
theorem arithmetic?_integers (hop : op.inline = true) (hcompare : ∀ k, op ≠ .compare k) (hadd : op ≠ .add) :
    ∃ value, arithmetic? op (.ofInt (signed32 u)) (.ofInt (signed32 v)) = some value ∧
      (op.leaves (signed32 u) (signed32 v) = false → value = op.onIntegers u v) := by
  have hvalue : arithmetic? op _ _ = _ :=
    arithmetic?_eq (Double.toUInt32_ofInt_signed32 u) (Double.toUInt32_ofInt_signed32 v)
  have hsub := Double.sub_ofInt (Double.natAbs_signed32 u) (Double.natAbs_signed32 v)
  cases op with
  | add => exact absurd rfl hadd
  | subtract => exact ⟨_, hvalue, fun _ => congrArg Value.number hsub⟩
  | multiply => exact ⟨_, hvalue, fun hleaves => congrArg Value.number (multiply_integers hleaves)⟩
  | divide => exact ⟨_, hvalue, divide_integers⟩
  | modulo => exact ⟨_, hvalue, modulo_integers⟩
  | shiftLeft | shiftRight | shiftRightLogical | bitAnd | bitXor | bitOr => exact ⟨_, hvalue, fun _ => rfl⟩
  | compare k => exact absurd rfl (hcompare k)
  | instanceOf | memberOf => cases hop

end Run

namespace Run

variable (ev : Evaluator) (w : World) (u v : UInt32)

theorem toNumber_int32 : toNumber ev (.int32 u) w = .ok (Double.ofInt (signed32 u)) w := by
  have hobject := Value.isObject_of_isNumber (Value.isNumber_int32 u)
  rw [toNumber, hobject]
  change EStateM.Result.ok (w.realm.heap.primitiveNumber (.int32 u)) w = _
  rw [Heap.primitiveNumber, if_pos (Value.isNumber_int32 u), Value.toNumber_int32]

theorem compare_integers (k : Comparison) :
    compare onMachine k (.int32 u) (.int32 v) w = .ok (k.holds (signed32 u) (signed32 v)) w := by
  have hnumber := Value.isNumber_int32
  have hobject (u : UInt32) : (Value.int32 u).isObject = false := Value.isObject_of_isNumber (hnumber u)
  have hnumeric (u : UInt32) : w.realm.heap.IsNumeric (.int32 u) := by
    rw [Heap.IsNumeric, Heap.primitiveNumber, if_pos (hnumber u), Value.toNumber_int32]
    exact (Double.ofInt_means (Double.natAbs_signed32 u)).finite.1
  have hless (u v : UInt32) : decide (w.realm.heap.lessThan (.int32 u) (.int32 v) = .holds) =
      decide (signed32 u < signed32 v) := by
    rw [decide_eq_decide, Heap.lessThan_numbers_iff _ (hnumber u) (hnumber v), Value.toNumber_int32,
      Value.toNumber_int32, Double.lt_ofInt (Double.natAbs_signed32 u) (Double.natAbs_signed32 v), decide_eq_true_eq]
  have hnot (u v : UInt32) : decide (w.realm.heap.lessThan (.int32 u) (.int32 v) = .fails) =
      decide (signed32 v ≤ signed32 u) := by
    rw [Heap.lessThan_fails _ (.inr ⟨hnumeric u, hnumeric v⟩), hless, ← decide_not, decide_eq_decide, Int.not_lt]
  have horder (u v : UInt32) (leftFirst : Bool) (f : Ordered → Bool) :
      (do return f (← lessThan onMachine (.int32 u) (.int32 v) leftFirst) : Run Bool) w =
        .ok (f (w.realm.heap.lessThan (.int32 u) (.int32 v))) w := by
    change EStateM.bind (lessThan onMachine _ _ _) _ w = _
    rw [EStateM.bind, lessThan_primitive (hobject u) (hobject v)]
    rfl
  have hstrict : Heap.strictEquals (.int32 u) (.int32 v) = decide (signed32 u = signed32 v) := by
    rw [Heap.strictEquals, hnumber, hnumber, Bool.and_self, if_pos rfl, Value.toNumber_int32, Value.toNumber_int32,
      Double.eq_ofInt_iff (Double.natAbs_signed32 u) (Double.natAbs_signed32 v)]
  have hloose : looseEquals onMachine (.int32 u) (.int32 v) w = .ok (decide (signed32 u = signed32 v)) w := by
    rw [← hstrict]
    refine looseEquals_of_answer (if_pos ?_)
    rw [hnumber, hnumber]
    rfl
  cases k with
  | lt => exact (horder u v true fun o => o = .holds).trans (by rw [hless]; rfl)
  | gt => exact (horder v u false fun o => o = .holds).trans (by rw [hless]; rfl)
  | lte => exact (horder v u false fun o => o = .fails).trans (by rw [hnot]; rfl)
  | gte => exact (horder u v true fun o => o = .fails).trans (by rw [hnot]; rfl)
  | eq => exact hloose
  | ne =>
    change EStateM.bind (looseEquals onMachine _ _) _ w = _
    rw [EStateM.bind, hloose]
    exact congrArg (EStateM.Result.ok · w) (decide_not ..).symm
  | strictEq => exact congrArg (EStateM.Result.ok · w) hstrict
  | strictNe => exact congrArg (EStateM.Result.ok · w) ((congrArg _ hstrict).trans (decide_not ..).symm)

theorem binary_arithmetic {op : BinaryOp} (hop : op.inline = true) (hcompare : ∀ k, op ≠ .compare k)
    (hadd : op ≠ .add) {value : Value}
    (hvalue : arithmetic? op (.ofInt (signed32 u)) (.ofInt (signed32 v)) = some value) :
    binary ev op (.int32 u) (.int32 v) w = .ok value w := by
  cases op with
  | compare k => exact absurd rfl (hcompare k)
  | instanceOf | memberOf => cases hop
  | add => exact absurd rfl hadd
  | _ =>
    refine (bind_ok (toNumber_int32 ..)).trans ((bind_ok (toNumber_int32 ..)).trans ?_)
    rw [hvalue]
    rfl

theorem add_integers : add ev (.int32 u) (.int32 v) w =
    .ok (.number (.ofInt (signed32 u + signed32 v))) w := by
  rw [add, Value.isNumber_int32, Value.isNumber_int32, Value.toNumber_int32, Value.toNumber_int32,
    Double.add_ofInt (Double.natAbs_signed32 u) (Double.natAbs_signed32 v)]
  rfl

theorem binary_integers {op : BinaryOp} (hop : op.inline = true) : ∃ value,
    (∀ w, binary onMachine op (.int32 u) (.int32 v) w = .ok value w) ∧
      (op.leaves (signed32 u) (signed32 v) = false → value = op.onIntegers u v) := by
  by_cases hadd : op = .add
  · subst hadd
    exact ⟨_, fun w => add_integers onMachine w u v, fun _ => rfl⟩
  by_cases hcompare : ∀ k, op ≠ .compare k
  · obtain ⟨value, hvalue, hinline⟩ := arithmetic?_integers hop hcompare hadd
    exact ⟨value, fun w => binary_arithmetic _ w u v hop hcompare hadd hvalue, hinline⟩
  · simp only [ne_eq, not_forall, not_not] at hcompare
    obtain ⟨k, rfl⟩ := hcompare
    refine ⟨.ofBool (k.holds (signed32 u) (signed32 v)), fun w => ?_, fun _ => rfl⟩
    change EStateM.bind (compare onMachine k _ _) _ w = _
    rw [EStateM.bind, compare_integers]
    rfl

/-! ## Unary operators -/

theorem negate_integer (hleaves : Stub.unaryNegative.leaves (signed32 u) = false) :
    .number (Double.ofInt (signed32 u)).neg = Value.int32 (.ofInt (-signed32 u)) := by
  have hnot := of_decide_eq_false hleaves
  obtain ⟨hlow, hhigh⟩ := fitsInt32_signed32 u
  have hne : signed32 u ≠ 0 ∧ signed32 u ≠ -2 ^ 31 := by
    rw [← not_or]
    exact fun h => hnot ⟨rfl, h⟩
  have hfits : FitsInt32 (-signed32 u) := ⟨by omega, by omega⟩
  rw [Double.neg_ofInt (Double.natAbs_signed32 u) hne.1, Value.number_ofInt_fits hfits]

theorem unary_integer {s : Stub} (hs : s.inline = true ∨ s = .toNumber) : ∃ value,
    (∀ ev w, unaryStub ev s (.int32 u) w = .ok value w) ∧
      (s.leaves (signed32 u) = false → value = s.onInteger u) := by
  have hu := Double.natAbs_signed32 u
  have hnumber (f : Double → Value) (ev : Evaluator) (w : World) :
      (do return f (← toNumber ev (.int32 u)) : Run Value) w = .ok (f (.ofInt (signed32 u))) w := by
    rw [bind_ok (toNumber_int32 ..)]
    rfl
  cases s
  case toNumber => exact ⟨_, hnumber .number, fun _ => Value.number_ofInt_signed32 u⟩
  case unaryNegative => exact ⟨_, hnumber fun x => .number x.neg, negate_integer u⟩
  case unaryBitNot =>
    refine ⟨_, hnumber fun x => .int32 (~~~x.toUInt32), fun _ => ?_⟩
    rw [Double.toUInt32_ofInt_signed32]
    rfl
  case increment =>
    refine ⟨_, hnumber fun x => .number (x.add .one), fun _ => ?_⟩
    rw [Double.one_eq, Double.add_ofInt hu (by decide)]
    rfl
  case decrement =>
    refine ⟨_, hnumber fun x => .number (x.sub .one), fun _ => ?_⟩
    rw [Double.one_eq, Double.sub_ofInt hu (by decide), Int.sub_eq_add_neg]
    rfl
  all_goals exact hs.elim nofun nofun

end Run

end RegisterJit
