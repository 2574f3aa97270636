import RegisterJit.Proofs.Rounding
import RegisterJit.Value.Tags

/-!
# Tagged words

Every constructor of values builds words of one kind, no word is of two kinds, and what was boxed is read back,
a NaN as the one that stands for all. A number is boxed as an integer exactly if it is one of 32 bits and not
negative zero; so the words of two numbers are the same exactly if the numbers are, zeros with their signs.

`Kind` lists the kinds of values, `Content` what a value of each kind is made of. `read_box` and `box_eq_iff`
make the representation a bijection onto the words that are built, and `number_eq_number_iff` says the same of
numbers as scripts see them. A number may also be boxed through a conversion of the processor whose result is
only defined for numbers in range: `boxThrough_eq` allows any such conversion, since the result is checked by
converting it back. `boxing_faithful` states all of this at once. The modules about keys, arithmetic and
equality use the lemmas one by one: two values are compared as words there.
-/

namespace RegisterJit.Value

/-! ## Kinds -/

/-- The kinds of values. -/
inductive Kind
  | int32
  | double
  | empty
  | null
  | undefined
  | bool
  | object
  | string
  deriving DecidableEq

def is (v : Value) : Kind → Bool
  | .int32 => v.isInt32
  | .double => v.isDouble
  | .empty => v.isEmpty
  | .null => v.isNull
  | .undefined => v.isUndefined
  | .bool => v.isBool
  | .object => v.isObject
  | .string => v.isString

theorem isDouble_iff {v : Value} :
    v.isDouble ↔ 2 ^ 48 ≤ v.word.toNat ∧ v.word.toNat < 2 ^ 64 - 2 ^ 48 := by
  rw [isDouble, Bool.and_eq_true, isNumber_iff, Bool.not_eq_true', ← Bool.not_eq_true, isInt32_iff,
    Nat.not_le]

theorem eq_iff_toNat {v w : Value} : v = w ↔ v.word.toNat = w.word.toNat := by
  obtain ⟨v⟩ := v
  obtain ⟨w⟩ := w
  rw [mk.injEq, UInt64.toNat_inj]

theorem isNull_iff {v : Value} : v.isNull ↔ v.word.toNat = 2 := by
  rw [isNull, beq_iff_eq, eq_iff_toNat]
  rfl

theorem isUndefined_iff {v : Value} : v.isUndefined ↔ v.word.toNat = 10 := by
  rw [isUndefined, beq_iff_eq, eq_iff_toNat]
  rfl

def Kind.Holds : Kind → Nat → Prop
  | .int32, n => 2 ^ 64 - 2 ^ 48 ≤ n
  | .double, n => 2 ^ 48 ≤ n ∧ n < 2 ^ 64 - 2 ^ 48
  | .empty, n => n = 0
  | .null, n => n = 2
  | .undefined, n => n = 10
  | .bool, n => n = 6 ∨ n = 7
  | .object, n => n < 2 ^ 48 ∧ n % 16 = 0 ∧ n ≠ 0
  | .string, n => n < 2 ^ 48 ∧ n % 16 = 8

theorem is_iff {v : Value} {k : Kind} : v.is k ↔ k.Holds v.word.toNat := by
  cases k
  exacts [isInt32_iff, isDouble_iff, isEmpty_iff, isNull_iff, isUndefined_iff, isBool_iff, isObject_iff,
    isString_iff]

theorem is_unique {v : Value} {k k' : Kind} (h : v.is k) (h' : v.is k') : k = k' := by
  rw [is_iff] at h h'
  cases k <;> cases k' <;> first | rfl | (simp only [Kind.Holds] at h h'; omega)

/-! ## Contents -/

/-- What values are built from. -/
inductive Content
  | int32 (i : Int32)
  | double (x : Double)
  | empty
  | null
  | undefined
  | bool (b : Bool)
  | object (handle : UInt32)
  | string (handle : UInt32)

namespace Content

def kind : Content → Kind
  | .int32 _ => .int32
  | .double _ => .double
  | .empty => .empty
  | .null => .null
  | .undefined => .undefined
  | .bool _ => .bool
  | .object _ => .object
  | .string _ => .string

def box : Content → Value
  | .int32 i => Value.int32 i.toUInt32
  | .double x => Value.double x
  | .empty => Value.empty
  | .null => Value.null
  | .undefined => Value.undefined
  | .bool b => ofBool b
  | .object handle => Value.object handle
  | .string handle => Value.string handle

def Proper : Content → Prop
  | .object handle | .string handle => 0 < handle
  | _ => True

/-- Every NaN gives way to the one that stands for all. -/
def canonical : Content → Content
  | .double x => .double (if x.isNaN then Double.nan else x)
  | c => c

/-- What is read from a value of a kind. -/
def read (v : Value) : Kind → Content
  | .int32 => .int32 (Int32.ofInt v.toInt32)
  | .double => .double v.toDouble
  | .empty => .empty
  | .null => .null
  | .undefined => .undefined
  | .bool => .bool v.toBool
  | .object => .object v.handle
  | .string => .string v.handle

end Content

theorem holds_box {c : Content} (h : c.Proper) : c.kind.Holds c.box.word.toNat := by
  cases c with
  | int32 i => exact (toNat_int32 i.toUInt32).symm ▸ Nat.le_add_right ..
  | double x => exact toNat_double x
  | empty => rfl
  | null => rfl
  | undefined => rfl
  | bool b =>
    cases b
    · exact .inl rfl
    · exact .inr rfl
  | object handle =>
    have hpos := UInt32.lt_iff_toNat_lt.1 h
    have hlt := handle.toNat_lt
    simp only [Content.kind, Content.box, Kind.Holds, toNat_object]
    omega
  | string handle =>
    have hlt := handle.toNat_lt
    simp only [Content.kind, Content.box, Kind.Holds, toNat_string]
    omega

theorem is_box_iff {c : Content} (h : c.Proper) (k : Kind) : c.box.is k ↔ k = c.kind := by
  have hkind : c.box.is c.kind := is_iff.2 (holds_box h)
  exact ⟨fun hk => is_unique hk hkind, fun hk => hk ▸ hkind⟩

theorem toInt32_int32_toUInt32 (i : Int32) : (int32 i.toUInt32).toInt32 = i.toInt := by
  rw [toInt32_int32]
  rfl

theorem toDouble_double (x : Double) :
    (double x).toDouble = if x.isNaN then Double.nan else x := by
  rw [toDouble, double, UInt64.add_sub_cancel]

theorem handle_of_word {v : Value} {handle : UInt32} (h : v.word.toNat / 16 = handle.toNat) :
    v.handle = handle := by
  rw [Value.handle, ← UInt32.toNat_inj, UInt64.toNat_toUInt32, UInt64.toNat_shiftRight]
  have hlt := handle.toNat_lt
  change v.word.toNat >>> 4 % 2 ^ 32 = _
  rw [Nat.shiftRight_eq_div_pow]
  omega

theorem read_box (c : Content) : Content.read c.box c.kind = c.canonical := by
  cases c with
  | int32 i => exact congrArg Content.int32 (by rw [Content.box, toInt32_int32_toUInt32, Int32.ofInt_toInt])
  | double x => exact congrArg Content.double (toDouble_double x)
  | empty => rfl
  | null => rfl
  | undefined => rfl
  | bool b => cases b <;> rfl
  | object handle =>
    refine congrArg Content.object (handle_of_word ?_)
    rw [Content.box, toNat_object]
    omega
  | string handle =>
    refine congrArg Content.string (handle_of_word ?_)
    rw [Content.box, toNat_string]
    omega

/-- Values are the same word exactly if they are built from the same, all NaNs being one. -/
theorem box_eq_iff {c d : Content} (hc : c.Proper) (hd : d.Proper) :
    c.box = d.box ↔ c.canonical = d.canonical := by
  constructor
  · intro h
    have hkind : c.kind = d.kind := ((is_box_iff hd c.kind).1 (h ▸ (is_box_iff hc c.kind).2 rfl))
    rw [← read_box c, ← read_box d, h, hkind]
  · intro h
    have hbox (c : Content) : c.canonical.box = c.box := by
      cases c with
      | double x =>
        have hnan : Double.nan.isNaN := by decide
        simp only [Content.canonical, Content.box, double]
        cases hx : x.isNaN <;> simp [hx, hnan]
      | _ => rfl
    rw [← hbox c, ← hbox d, h]

/-! ## Numbers -/

/-- A double is an integer of 32 bits that may be boxed as one. -/
def IsSmall (x : Double) (i : Int32) : Prop := x.Means i.toInt ∧ x ≠ Double.signedZero Bool.true

theorem IsSmall.eq_ofInt {x : Double} {i : Int32} (h : IsSmall x i) : x = Double.ofInt i.toInt :=
  Double.eq_ofInt h.1 h.2

theorem int32_ne_double (i : UInt32) (x : Double) : int32 i ≠ double x := by
  rw [Ne, eq_iff_toNat, toNat_int32]
  have := toNat_double x
  omega

theorem uInt32_ofInt_toInt (i : Int32) : UInt32.ofInt i.toInt = i.toUInt32 := by
  have hi : i.toInt = if 2 * i.toUInt32.toNat < 2 ^ 32 then (i.toUInt32.toNat : Int)
      else i.toUInt32.toNat - 2 ^ 32 := BitVec.toInt_eq_toNat_cond ..
  have hlt := i.toUInt32.toNat_lt
  rw [← UInt32.toNat_inj, UInt32.ofInt, UInt32.toNat_ofNat', hi]
  split <;> omega

theorem number_of_isSmall {x : Double} {i : Int32} (h : IsSmall x i) : number x = int32 i.toUInt32 := by
  have hlow := Int32.le_toInt i
  have hhigh := Int32.toInt_lt i
  have hpositive : ¬ (i.toInt = 0 ∧ x.isNegative) := by
    rintro ⟨hi, hneg⟩
    rw [h.eq_ofInt, hi] at hneg
    exact absurd hneg (by decide +kernel)
  rw [number, Double.toInt?_eq_some_iff.2 h.1]
  dsimp only
  rw [if_pos ⟨hlow, hhigh, hpositive⟩, ofInt, uInt32_ofInt_toInt]

theorem number_of_not_isSmall {x : Double} (h : ∀ i, ¬ IsSmall x i) : number x = double x := by
  rw [number]
  cases hint : x.toInt? with
  | none => rfl
  | some j =>
    dsimp only
    split
    · rename_i hj
      obtain ⟨hlow, hhigh, hpositive⟩ := hj
      have hback : (Int32.ofInt j).toInt = j := Int32.toInt_ofInt_of_le hlow hhigh
      refine absurd ⟨?_, ?_⟩ (h (Int32.ofInt j))
      · rw [hback]
        exact Double.toInt?_eq_some_iff.1 hint
      · rintro rfl
        have hzero : j = 0 := by
          have : (Double.signedZero Bool.true).toInt? = some 0 := by decide +kernel
          rw [this] at hint
          exact (Option.some.inj hint).symm
        exact hpositive ⟨hzero, by decide⟩
    · rfl

theorem number_eq_int32_iff {x : Double} {i : Int32} : number x = int32 i.toUInt32 ↔ IsSmall x i := by
  refine ⟨fun h => ?_, number_of_isSmall⟩
  by_cases hsmall : ∃ j, IsSmall x j
  · obtain ⟨j, hj⟩ := hsmall
    have hij : j = i := by
      have hword : (int32 j.toUInt32).toInt32 = (int32 i.toUInt32).toInt32 := by
        rw [← number_of_isSmall hj, h]
      rw [toInt32_int32_toUInt32, toInt32_int32_toUInt32] at hword
      exact Int32.toInt_inj.1 hword
    exact hij ▸ hj
  · rw [number_of_not_isSmall fun j hj => hsmall ⟨j, hj⟩] at h
    exact absurd h.symm (int32_ne_double _ _)

theorem toNumber_number (x : Double) :
    (number x).toNumber = if x.isNaN then Double.nan else x := by
  by_cases hsmall : ∃ i, IsSmall x i
  · obtain ⟨i, hi⟩ := hsmall
    have hnan : x.isNaN = Bool.false := by
      have := Double.isFinite_iff.1 hi.1.1
      exact decide_eq_false (by omega)
    have hint : (int32 i.toUInt32).isInt32 := (is_box_iff (c := .int32 i) trivial .int32).2 rfl
    rw [number_of_isSmall hi, toNumber, if_pos hint, toInt32_int32_toUInt32, hnan]
    exact hi.eq_ofInt.symm
  · rw [number_of_not_isSmall fun i hi => hsmall ⟨i, hi⟩, toNumber, if_neg, toDouble_double]
    intro hint
    cases (is_box_iff (c := .double x) trivial .int32).1 hint

/-- Numbers, but for NaNs, are the same word exactly if they are equal, zeros with their signs. -/
theorem number_eq_number_iff {x y : Double} (hx : x.isNaN = Bool.false) (hy : y.isNaN = Bool.false) :
    number x = number y ↔ x.eq y ∧ (x.isZero → x.isNegative = y.isNegative) := by
  have hwords : number x = number y ↔ x = y := by
    refine ⟨fun h => ?_, fun h => h ▸ rfl⟩
    have hnumber := congrArg toNumber h
    rw [toNumber_number, toNumber_number, hx, hy] at hnumber
    exact hnumber
  rw [hwords, Double.eq_iff]
  constructor
  · rintro rfl
    exact ⟨⟨hx, .inl rfl⟩, fun _ => rfl⟩
  · rintro ⟨⟨-, rfl | ⟨hx0, hy0⟩⟩, hsign⟩
    · rfl
    · exact Double.eq_of_sign_of_magnitude (hsign hx0) ((of_decide_eq_true hx0).trans
        (of_decide_eq_true hy0).symm)

/-! ## Boxing through a conversion -/

/-- Box a number as the integer to which it is converted, if that is the same number. -/
def boxThrough (convert : Double → Int32) (x : Double) : Value :=
  if (Double.ofInt (convert x).toInt).eq x ∧ ¬ (convert x = 0 ∧ x.isNegative) then
    int32 (convert x).toUInt32
  else double x

theorem natAbs_toInt_lt (i : Int32) : i.toInt.natAbs < 2 ^ 53 := by
  have := Int32.le_toInt i
  have := Int32.toInt_lt i
  omega

theorem isSmall_ofInt (i : Int32) : IsSmall (Double.ofInt i.toInt) i := by
  have hmeans := Double.ofInt_means (natAbs_toInt_lt i)
  refine ⟨hmeans, fun hzero => ?_⟩
  have hint : (Double.signedZero Bool.true).toInt? = some 0 := by decide +kernel
  rw [← hzero, Double.toInt?_eq_some_iff.2 hmeans] at hint
  rw [Option.some.inj hint] at hzero
  exact absurd hzero (by decide +kernel)

theorem isSmall_iff {x : Double} {i : Int32} :
    IsSmall x i ↔ (Double.ofInt i.toInt).eq x ∧ ¬ (i = 0 ∧ x.isNegative) := by
  have hself := isSmall_ofInt i
  constructor
  · intro h
    obtain rfl := h.eq_ofInt
    refine ⟨Double.eq_iff.2 ⟨?_, .inl rfl⟩, ?_⟩
    · have := Double.isFinite_iff.1 h.1.1
      exact decide_eq_false (by omega)
    · rintro ⟨rfl, hneg⟩
      exact absurd hneg (by decide +kernel)
  · rintro ⟨heq, hpositive⟩
    rcases (Double.eq_iff.1 heq).2 with rfl | ⟨hzero, hxzero⟩
    · exact hself
    · have hunits : i.toInt.natAbs * Double.unitsPerOne = 0 := by
        rw [← hself.1.units_eq, Double.units, of_decide_eq_true hzero]
        rfl
      obtain rfl : i = 0 := Int32.toInt_inj.1 (Int.natAbs_eq_zero.1
        ((Nat.mul_eq_zero.1 hunits).resolve_right Double.unitsPerOne_pos.ne'))
      have hx : x = Double.ofInt (0 : Int32).toInt := by
        refine Double.eq_of_sign_of_magnitude ?_
          ((of_decide_eq_true hxzero).trans (of_decide_eq_true hzero).symm)
        rw [Bool.eq_false_iff.2 fun hneg => hpositive ⟨rfl, hneg⟩]
        decide +kernel
      exact hx ▸ hself

/-- What a conversion gives for numbers whose integer part is no integer of 32 bits makes no difference. -/
theorem boxThrough_eq {convert : Double → Int32}
    (h : ∀ x : Double, x.isFinite → -(2 ^ 31) ≤ x.truncInt → x.truncInt < 2 ^ 31 →
      (convert x).toInt = x.truncInt) (x : Double) : boxThrough convert x = number x := by
  by_cases hsmall : IsSmall x (convert x)
  · rw [boxThrough, if_pos (isSmall_iff.1 hsmall), number_of_isSmall hsmall]
  · rw [boxThrough, if_neg (mt isSmall_iff.2 hsmall)]
    refine (number_of_not_isSmall fun i hi => hsmall ?_).symm
    have htrunc : x.truncInt = i.toInt := by
      have hint := Double.toInt?_eq_some_iff.2 hi.1
      rw [Double.toInt?] at hint
      split at hint
      · exact Option.some.inj hint
      · cases hint
    have hlow := Int32.le_toInt i
    have hhigh := Int32.toInt_lt i
    have hconvert : convert x = i :=
      Int32.toInt_inj.1 ((h x hi.1.1 (by omega) (by omega)).trans htrunc)
    rwa [hconvert]

/-! ## The representation -/

/-- Boxing is faithful and unambiguous. -/
theorem boxing_faithful (c d : Content) (v : Value) (k k' : Kind) (x y : Double) (i : Int32) :
    (c.Proper → (∀ k, c.box.is k ↔ k = c.kind) ∧ Content.read c.box c.kind = c.canonical) ∧
      (c.Proper → d.Proper → (c.box = d.box ↔ c.canonical = d.canonical)) ∧
      (v.is k → v.is k' → k = k') ∧
      (number x = int32 i.toUInt32 ↔ x.Means i.toInt ∧ x ≠ Double.signedZero Bool.true) ∧
      ((∀ i : Int32, number x ≠ int32 i.toUInt32) → number x = double x) ∧
      (number x).toNumber = (if x.isNaN then Double.nan else x) ∧
      (x.isNaN = Bool.false → y.isNaN = Bool.false →
        (number x = number y ↔ x.eq y ∧ (x.isZero → x.isNegative = y.isNegative))) ∧
      ∀ convert : Double → Int32,
        (∀ x : Double, x.isFinite → -(2 ^ 31) ≤ x.truncInt → x.truncInt < 2 ^ 31 →
          (convert x).toInt = x.truncInt) → boxThrough convert x = number x := by
  refine ⟨fun hc => ⟨is_box_iff hc, read_box c⟩, box_eq_iff, is_unique, number_eq_int32_iff,
    fun h => ?_, toNumber_number x, number_eq_number_iff, fun convert h => boxThrough_eq h x⟩
  exact number_of_not_isSmall fun i hi => h i (number_of_isSmall hi)

/-- Conversion toward zero that gives the least integer where the result does not fit. -/
def convertIndefinite (x : Double) : Int32 :=
  if x.isFinite ∧ -(2 ^ 31) ≤ x.truncInt ∧ x.truncInt < 2 ^ 31 then Int32.ofInt x.truncInt
  else Int32.minValue

/-- Cells with one handle, zeros with different signs, and `2 ^ 31` through a conversion. -/
theorem boxing_faithful_corners :
    (Content.object 7).Proper ∧ (Content.string 7).Proper ∧ Value.object 7 ≠ Value.string 7 ∧
      number ⟨0x8000000000000000⟩ ≠ number ⟨0⟩ ∧
      boxThrough convertIndefinite ⟨0x41e0000000000000⟩ = number ⟨0x41e0000000000000⟩ := by
  have hobject : (Content.object 7).Proper := show (0 : UInt32) < 7 by decide
  have hstring : (Content.string 7).Proper := show (0 : UInt32) < 7 by decide
  obtain ⟨-, hcells, -, -, -, -, hzeros, -⟩ :=
    boxing_faithful (.object 7) (.string 7) Value.empty .empty .empty ⟨0x8000000000000000⟩ ⟨0⟩ 0
  obtain ⟨-, -, -, -, -, -, -, hthrough⟩ :=
    boxing_faithful .null .null Value.empty .empty .empty ⟨0x41e0000000000000⟩ ⟨0⟩ 0
  refine ⟨hobject, hstring, fun h => ?_, fun h => ?_, hthrough _ fun x hfinite hlow hhigh => ?_⟩
  · cases (hcells hobject hstring).1 h
  · exact absurd ((hzeros (by decide) (by decide)).1 h).2 (by decide)
  · rw [convertIndefinite, if_pos ⟨hfinite, hlow, hhigh⟩]
    exact Int32.toInt_ofInt_of_le hlow hhigh

end RegisterJit.Value
