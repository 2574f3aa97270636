import RegisterJit.Proofs.Boxing
import RegisterJit.Proofs.Heaps
import RegisterJit.Proofs.Integers
import RegisterJit.Proofs.Nearest
import RegisterJit.Proofs.NumberLayouts
import RegisterJit.Script.Property

/-!
# Indices

A key names an element exactly if it is the numeral of an index, and a number that is an index has this numeral
for its key, whichever way it is boxed. So an element of an array can be read without its key.

An index is recognised twice in the runtime: from the text of a key, and directly from a boxed integer or
double. Both ways are compared with one fact, that a double for a whole number, not too large a one, is shown as
the numeral of the number. A decimal that is rounded to a whole number of at most 53 bits is near to it
(`near_of_has`, `near_of_ofDecimal`), so the shortest one has no fraction and no digits other than those of the
number (`shortestDigits_of_means`), and the layout puts the zeros at their end back.

So the key of an index is its numeral and nothing else has this key. `element_access` draws the conclusion for
reading: the direct path and the path through the key give the same value and leave the same world, for every
base, every element and every world. `Stores` needs the converse, that storing under a name touches no element.
-/

namespace RegisterJit

/-! ## Whole numbers -/

namespace Double

theorem two_pow_le_unitsPerOne {k : Nat} (h : k ≤ 1074) : 2 ^ k ≤ unitsPerOne :=
  Nat.pow_le_pow_right Nat.two_pos h

/-- What rounds to a double of one or more differs from it by no more than one part in `2 ^ 53`. -/
theorem near_of_has {m : Nat} (hlarge : unitsPerOne ≤ unitsOfMagnitude m) {q : ℚ}
    (h : (interval m).Has q) : |q - (interval m).value| * 2 ^ 53 ≤ (interval m).value := by
  obtain ⟨e, r, hnormal, rfl⟩ := exists_normal m
  rw [unitsOfMagnitude_eq hnormal.bits.le hnormal.full] at hlarge
  have hfull : 2 ^ 52 ≤ r := by
    refine hnormal.full.resolve_left ?_
    rintro rfl
    have hsmall := two_pow_le_unitsPerOne (show 53 ≤ 1074 by decide)
    have := hnormal.bits
    omega
  obtain ⟨hlow, hhigh, -⟩ := h.bounds
  rw [interval_eq hnormal] at hlow hhigh ⊢
  dsimp only at hlow hhigh ⊢
  have hsize : 2 ^ 52 * 2 ^ e ≤ r * 2 ^ e := Nat.mul_le_mul_right _ hfull
  have hlower : 4 * (r * 2 ^ e) ≤
      (4 * (r * 2 ^ e) - if r = 2 ^ 52 ∧ 0 < e then 2 ^ e else 2 * 2 ^ e) + 2 * 2 ^ e := by
    split <;> omega
  have hsize' : (2 : ℚ) ^ 52 * ((2 ^ e : Nat) : ℚ) ≤ ((r * 2 ^ e : Nat) : ℚ) := by exact_mod_cast hsize
  have hlower' := (Nat.cast_le (α := ℚ)).2 hlower
  rw [Nat.cast_add, Nat.cast_mul 2 (2 ^ e), Nat.cast_mul 4] at hlower'
  rw [Nat.cast_add, Nat.cast_mul 2 (2 ^ e), Nat.cast_mul 4] at hhigh
  rw [Nat.cast_mul 4]
  have hnear : |q - 4 * ((r * 2 ^ e : Nat) : ℚ)| ≤ 2 * ((2 ^ e : Nat) : ℚ) := by
    rw [abs_le]
    push_cast at *
    constructor <;> linarith
  push_cast at *
  linarith

variable {x : Double} {n : Nat}

/-- A decimal that rounds to a double standing for a whole number is near the number. -/
theorem near_of_ofDecimal (h : x.Means n) (hpos : 0 < n) {d : Nat} {e : Int}
    (hreads : ofDecimal d e = x.magnitude) : |(d : ℚ) * 10 ^ e - n| * 2 ^ 53 ≤ n := by
  have hunits : unitsOfMagnitude x.magnitude = n * unitsPerOne := h.units_eq
  have hvalue : ((interval x.magnitude).value : ℚ) = n * (4 * unitsPerOne) := by
    rw [show (interval x.magnitude).value = 4 * unitsOfMagnitude x.magnitude from rfl, hunits]
    push_cast
    ring
  have hnear := near_of_has (hunits ▸ Nat.le_mul_of_pos_left _ hpos)
    ((ofDecimal_eq_iff (isFinite_iff.1 h.1)).1 hreads)
  rw [hvalue, quarters, ← sub_mul, abs_mul, abs_of_pos four_units_pos, mul_right_comm] at hnear
  exact le_of_mul_le_mul_right hnear four_units_pos

theorem ofDecimal_of_means (h : x.Means n) : ofDecimal n 0 = x.magnitude := by
  have hunits : unitsOfMagnitude x.magnitude = n * unitsPerOne := h.units_eq
  rw [ofDecimal, if_pos le_rfl]
  simp only [Int.toNat_zero, Nat.pow_zero, Nat.mul_one]
  rw [← hunits]
  simpa using roundUnits_units (isFinite_iff.1 h.1) Nat.one_pos

/-- The shortest digits of a double that stands for a whole number are those of the number but for zeros at
its end. -/
theorem shortestDigits_of_means (h : x.Means n) (hpos : 0 < n) (hn : 10 * n < 2 ^ 53) :
    ∃ z : Nat, x.shortestDigits.point = x.shortestDigits.digits.length + z ∧
      decimalDigits n = x.shortestDigits.digits ++ List.replicate z 0 := by
  have hmagnitude : 0 < x.magnitude := by
    refine Nat.pos_of_ne_zero fun h0 => ?_
    have hunits := Nat.mul_pos hpos unitsPerOne_pos
    rw [← Int.natAbs_natCast n, ← h.units_eq, units, h0] at hunits
    exact absurd hunits (by decide)
  have hshort := shortestDigits_spec hmagnitude (isFinite_iff.1 h.1)
  obtain ⟨⟨ds, point⟩, hdigits⟩ : ∃ d, d = x.shortestDigits := ⟨_, rfl⟩
  rw [← hdigits] at hshort ⊢
  obtain ⟨hdigit, ⟨a, rest, hcons, ha⟩, hreads, hfewest, -⟩ := hshort
  dsimp only at hdigit hcons hreads hfewest ⊢
  have hnear := near_of_ofDecimal h hpos hreads
  have hn' : 10 * (n : ℚ) < 2 ^ 53 := by exact_mod_cast hn
  rcases le_or_gt 0 (point - (ds.length : Int)) with hwhole | hfraction
  · -- a whole number that is nearer than one
    obtain ⟨z, hz⟩ := Int.eq_ofNat_of_zero_le hwhole
    refine ⟨z, by omega, ?_⟩
    rw [hz, ten_zpow_of_nonneg (Int.natCast_nonneg z), Int.toNat_natCast] at hnear
    have hlt : |((numberOf ds * 10 ^ z : Nat) : ℤ) - n| < 1 := by
      have : |((numberOf ds * 10 ^ z : Nat) : ℚ) - n| < 1 := by
        push_cast at hnear ⊢
        linarith
      exact_mod_cast this
    have heq : numberOf ds * 10 ^ z = n := by
      rw [Int.abs_lt_one_iff] at hlt
      omega
    have hnumber : numberOf (ds ++ List.replicate z 0) = n := by
      rw [numberOf_append, numberOf_zeros, List.length_replicate, Nat.add_zero, heq]
    rw [← hnumber, hcons, List.cons_append, decimalDigits_numberOf _ fun h0 => absurd h0 ha]
    intro b hb
    rcases List.mem_append.1 (List.cons_append ▸ hb) with hb | hb
    · exact hdigit b (hcons ▸ hb)
    · rw [List.eq_of_mem_replicate hb]
      decide
  · -- a fraction that has no more digits is below the number by a tenth or more
    obtain ⟨b, rest', hcons', hb⟩ := exists_decimalDigits_cons hpos
    have hlow := pow_le_numberOf hb rest'
    rw [← hcons', numberOf_decimalDigits] at hlow
    have hhigh := numberOf_lt fun c => lt_of_mem_decimalDigits (n := n) (d := c)
    rw [numberOf_decimalDigits] at hhigh
    have hfew : ds.length ≤ rest'.length + 1 := by
      have := hfewest n 0 _ (ofDecimal_of_means h) hhigh
      rwa [hcons', List.length_cons] at this
    have hupper : numberOf ds + 1 ≤ 10 ^ rest'.length * 10 := by
      rw [← Nat.pow_succ]
      exact (numberOf_lt hdigit).trans_le (Nat.pow_le_pow_right (by decide) hfew)
    have htenth : (10 : ℚ) ^ (point - (ds.length : Int)) ≤ 1 / 10 := by
      have := zpow_le_zpow_right₀ (show (1 : ℚ) ≤ 10 by norm_num) (Int.le_sub_one_of_lt hfraction)
      norm_num at this ⊢
      exact this
    have hscaled : (numberOf ds : ℚ) * 10 ^ (point - (ds.length : Int)) ≤ numberOf ds * (1 / 10) :=
      mul_le_mul_of_nonneg_left htenth (Nat.cast_nonneg _)
    have hlow' : ((10 ^ rest'.length : Nat) : ℚ) ≤ n := by exact_mod_cast hlow
    have hupper' : (numberOf ds : ℚ) + 1 ≤ (10 ^ rest'.length : Nat) * 10 := by exact_mod_cast hupper
    have hgap := neg_abs_le ((numberOf ds : ℚ) * 10 ^ (point - (ds.length : Int)) - n)
    linarith

theorem scriptText_of_means (h : x.Means n) (hn : 10 * n < 2 ^ 53) : x.scriptText = Text.ofNat n := by
  have hnan := h.finite.1
  rcases Nat.eq_zero_or_pos n with rfl | hpos
  · have hzero : x.isZero = true := h.isZero_iff.2 rfl
    rw [scriptText, scriptText?, hnan, if_neg Bool.false_ne_true, if_pos hzero]
    decide
  · have hzero : x.isZero = false := by
      refine Bool.eq_false_iff.2 fun htrue => hpos.ne' ?_
      exact_mod_cast h.isZero_iff.1 htrue
    obtain ⟨t, htext, hprescribed, -⟩ := scriptText_spec h.1 hzero
    obtain ⟨z, hpoint, hdigits⟩ := shortestDigits_of_means h hpos hn
    have hlength : x.shortestDigits.digits.length + z ≤ 16 := by
      have := length_decimalDigits_le (show n < 10 ^ 16 by omega) (by decide)
      rwa [hdigits, List.length_append, List.length_replicate] at this
    have hsign : x.isNegative = false := by
      refine Bool.eq_false_iff.2 fun hneg => ?_
      have hsigned := h.2
      have hunits := Nat.mul_pos hpos unitsPerOne_pos
      rw [signedUnits, if_pos hneg] at hsigned
      omega
    rw [scriptText, htext, hprescribed.whole (by omega) (by omega), hpoint, hsign,
      add_sub_cancel_left, Int.toNat_natCast, zeros_eq, ← digitsText_append, ← hdigits,
      ← ofNat_eq_digitsText]
    rfl

end Double

open Double (digitsText numberOf decimalDigits)

/-! ## Numerals -/

theorem digitsText_map_digitValue {key : Text} (h : key.all Text.isDigit = true) :
    digitsText (key.map Text.digitValue) = key := by
  rw [digitsText, List.map_map]
  refine (List.map_congr_left fun b hb => ?_).trans key.map_id
  exact (Double.digitByte_digitValue b (List.all_eq_true.1 h b hb)).1

theorem map_digitValue_digitsText {ds : List Nat} (h : ∀ d ∈ ds, d < 10) :
    (digitsText ds).map Text.digitValue = ds := by
  rw [digitsText, List.map_map]
  exact (List.map_congr_left fun d hd => (Double.digitByte_read (h d hd)).2).trans ds.map_id

theorem foldl_digitValue (key : Text) :
    key.foldl (fun n b => n * 10 + Text.digitValue b) 0 = numberOf (key.map Text.digitValue) := by
  rw [numberOf, List.foldl_map]

theorem all_isDigit_ofNat (n : Nat) : (Text.ofNat n).all Text.isDigit = true := by
  rw [Double.ofNat_eq_digitsText, List.all_eq_true]
  intro b hb
  obtain ⟨d, hd, rfl⟩ := List.mem_map.1 hb
  exact (Double.digitByte_read (Double.lt_of_mem_decimalDigits hd)).1

theorem foldl_ofNat (i : Nat) : (Text.ofNat i).foldl (fun n b => n * 10 + Text.digitValue b) 0 = i := by
  rw [foldl_digitValue, Double.ofNat_eq_digitsText,
    map_digitValue_digitsText fun d => Double.lt_of_mem_decimalDigits, Double.numberOf_decimalDigits]

theorem ofNat_injective : Function.Injective Text.ofNat := Function.LeftInverse.injective foldl_ofNat

theorem arrayIndex?_ofNat {i : Nat} (hi : i < 2 ^ 32 - 1) : arrayIndex? (Text.ofNat i) = some i := by
  obtain ⟨d, hd, rest, hcons, hzero⟩ := Text.exists_ofNat_cons i
  have hlength : (Text.ofNat i).length ≤ 10 := by
    rw [Double.ofNat_eq_digitsText, Double.length_digitsText]
    exact Double.length_decimalDigits_le (by omega) (by decide)
  have hfold := foldl_ofNat i
  have hdigits := all_isDigit_ofNat i
  have hcanonical : ¬ (10 < (Text.ofNat i).length ∨ (Text.digitByte d = 0x30 ∧ rest ≠ [])) := by
    rintro (h | ⟨hbyte, hrest⟩)
    · omega
    · exact hrest (hzero ((Text.digitByte_facts hd).2.1 hbyte)).2
  rw [hcons] at hcanonical hdigits hfold ⊢
  rw [arrayIndex?, if_neg hcanonical, if_pos hdigits]
  dsimp only
  rw [hfold, if_pos hi]

theorem arrayIndex?_ofInt {i : Int} (h0 : 0 ≤ i) (hi : i < 2 ^ 31) :
    arrayIndex? (Text.ofInt i) = some i.toNat := by
  rw [Text.ofInt, if_neg (by omega), show i.natAbs = i.toNat by omega]
  exact arrayIndex?_ofNat (by omega)

theorem eq_ofNat_of_arrayIndex? {key : Text} {i : Nat} (h : arrayIndex? key = some i) :
    i < 2 ^ 32 - 1 ∧ key = Text.ofNat i := by
  cases key with
  | nil => cases h
  | cons first rest =>
    rw [arrayIndex?] at h
    split at h
    · cases h
    · next hcanonical =>
      split at h
      · next hdigits =>
        dsimp only at h
        split at h
        · next hlt =>
          obtain rfl := Option.some.inj h
          refine ⟨hlt, ?_⟩
          have hvalues : ∀ d ∈ (first :: rest).map Text.digitValue, d < 10 := by
            intro d hd
            obtain ⟨b, hb, rfl⟩ := List.mem_map.1 hd
            exact (Double.digitByte_digitValue b (List.all_eq_true.1 hdigits b hb)).2
          have hfirst : Text.digitValue first = 0 → rest.map Text.digitValue = [] := by
            intro h0
            have hbyte := (Double.digitByte_digitValue first
              (List.all_eq_true.1 hdigits first List.mem_cons_self)).1
            rw [h0] at hbyte
            by_contra hrest
            exact hcanonical (.inr ⟨hbyte.symm, fun hnil => hrest (by rw [hnil, List.map_nil])⟩)
          rw [foldl_digitValue, Double.ofNat_eq_digitsText, List.map_cons,
            Double.decimalDigits_numberOf hvalues hfirst, ← List.map_cons, digitsText_map_digitValue hdigits]
        · cases h
      · cases h

theorem arrayIndex?_eq_some_iff {key : Text} {i : Nat} :
    arrayIndex? key = some i ↔ i < 2 ^ 32 - 1 ∧ key = Text.ofNat i := by
  refine ⟨eq_ofNat_of_arrayIndex?, ?_⟩
  rintro ⟨hi, rfl⟩
  exact arrayIndex?_ofNat hi

theorem lengthKey_ne_ofNat (n : Nat) : lengthKey ≠ Text.ofNat n := by
  intro heq
  have hdigits := heq ▸ all_isDigit_ofNat n
  exact absurd hdigits (by decide +kernel)

theorem ne_lengthKey {key : Text} {i : Nat} (h : arrayIndex? key = some i) : key ≠ lengthKey := by
  rintro rfl
  exact lengthKey_ne_ofNat i (arrayIndex?_eq_some_iff.1 h).2

namespace Value

theorem isString_of_isNumber {v : Value} (h : v.isNumber = Bool.true) : v.isString = Bool.false := by
  refine Bool.eq_false_iff.2 fun hstring => ?_
  have := isNumber_iff.1 h
  have := (isString_iff.1 hstring).1
  omega

theorem toInt32_bounds (v : Value) : -2 ^ 31 ≤ v.toInt32 ∧ v.toInt32 < 2 ^ 31 :=
  ⟨BitVec.le_toInt _, BitVec.toInt_lt⟩

end Value

namespace Run

variable {ev : Evaluator} {w : World} {r : ObjectRef}

/-! ## Looking things up -/

theorem eq_handle_of_ref? {v : Value} (h : Heap.ref? v = some r) : r = v.handle.toNat := by
  rw [Heap.ref?] at h
  split at h
  · exact (Option.some.inj h).symm
  · cases h

theorem getProperty_of_ref? {base : Value} (hbase : Heap.ref? base = some r) (key : Text) :
    getProperty ev base key w =
      if w.realm.heap.Has r then get ev r key base w else .error .crash w := by
  have hrun := refOrCrash_eq (w := w) base
  rw [← eq_handle_of_ref? hbase] at hrun
  have heq : getProperty ev base key = (do get ev (← refOrCrash base) key base) := by
    rw [getProperty, hbase]
  rw [heq]
  split at hrun
  · rw [bind_ok hrun, if_pos ‹_›]
  · rw [bind_error hrun, if_neg ‹_›]

theorem get_eq (ev : Evaluator) (r : ObjectRef) (key : Text) (receiver : Value) (w : World) :
    get ev r key receiver w = (match w.realm.heap.find? r key with
      | none => return Value.undefined
      | some (.element v) => return v
      | some (.property _ p) =>
        match p.body with
        | .data v _ => return v
        | .accessor getter _ =>
          if getter.isEmpty then return Value.undefined else ev.call getter receiver [] : Run Value) w :=
  rfl

theorem get_of_elementOf? {o : Object} {key : Text} {v : Value} (ho : w.realm.heap.object? r = some o)
    (harray : o.cls = .array) (hkey : o.elementOf? key = some v) (receiver : Value) :
    get ev r key receiver w = .ok v w := by
  have hlength : key ≠ lengthKey := by
    obtain ⟨i, hi, -⟩ := Option.bind_eq_some_iff.1 hkey
    exact ne_lengthKey hi
  have hfind : w.realm.heap.find? r key = some (.element v) := by
    rw [Heap.find?, Heap.chain_eq, Heap.object_eq ho, List.findSome?_cons]
    dsimp only
    rw [Heap.findOwn?, if_pos harray, if_neg hlength, hkey]
  refine (get_eq ..).trans (congrFun (?_ : _ = pure v) w)
  rw [hfind]

/-! ## Keys of numbers -/

theorem propertyKey_of_means {v : Value} {i : Nat} (hv : v.isNumber = true) (hi : i < 2 ^ 32 - 1)
    (hmeans : v.toNumber.Means i) : propertyKey ev v = pure (Text.ofNat i) := by
  rw [propertyKey]
  by_cases hint : v.isInt32 = true
  · have hbounds := v.toInt32_bounds
    rw [Value.toNumber, if_pos hint] at hmeans
    have hself := Double.ofInt_means (show v.toInt32.natAbs < 2 ^ 53 by omega)
    have heq : v.toInt32 = i := Option.some.inj
      ((Double.toInt?_eq_some_iff.2 hself).symm.trans (Double.toInt?_eq_some_iff.2 hmeans))
    rw [if_pos hint, heq, Text.ofInt, if_neg (by omega), Int.natAbs_natCast]
  · have htext (h : Heap) : h.primitiveText v = Text.ofNat i := by
      rw [Heap.primitiveText, Value.isString_of_isNumber hv, if_neg Bool.false_ne_true, if_pos hv,
        Double.scriptText_of_means hmeans (by omega)]
    rw [if_neg hint, toText, Value.isObject_of_isNumber hv, if_neg Bool.false_ne_true]
    funext w
    change EStateM.Result.ok (w.realm.heap.primitiveText v) w = _
    rw [htext]
    rfl

/-! ## The direct path -/

theorem loadElement_eq (ev : Evaluator) (base element : Value) :
    loadElement ev base element = (do getProperty ev base (← propertyKey ev element)) := by
  unfold loadElement
  cases hbase : Heap.ref? base with
  | none => rfl
  | some r =>
    by_cases hint : element.isInt32 = true
    · funext w
      dsimp only
      rw [if_pos hint, propertyKey, if_pos hint, pure_bind]
      cases ho : w.realm.heap.object? r with
      | none =>
        rw [bind_error (object_of_none ho), getProperty_of_ref? hbase,
          if_neg (Heap.not_has_of_none ho)]
      | some o =>
        rw [bind_ok (object_of_some ho), pure_bind]
        by_cases hin : o.cls = .array ∧ 0 ≤ element.toInt32
        · rw [if_pos hin]
          cases hdirect : o.element? element.toInt32.toNat with
          | none => rfl
          | some v =>
            have hkey : o.elementOf? (Text.ofInt element.toInt32) = some v := by
              rw [Object.elementOf?, arrayIndex?_ofInt hin.2 element.toInt32_bounds.2, Option.bind_some, hdirect]
            rw [getProperty_of_ref? hbase, if_pos (Heap.has_iff.2 ⟨o, ho⟩),
              get_of_elementOf? ho hin.1 hkey]
            rfl
        · rw [if_neg hin]
    · dsimp only
      rw [if_neg hint]
      rfl

/-- Reading an element is reading the property that its key names, with the same faults and effects; a key
names an element exactly if it is the numeral of an index; and every number that is an index, an integer or a
double of whatever form, has this numeral for its key. -/
theorem element_access (ev : Evaluator) :
    (∀ base element, loadElement ev base element = do getProperty ev base (← propertyKey ev element)) ∧
      (∀ key i, arrayIndex? key = some i ↔ i < 2 ^ 32 - 1 ∧ key = Text.ofNat i) ∧
      ∀ v : Value, v.isNumber = true → ∀ i : Nat, i < 2 ^ 32 - 1 → v.toNumber.Means i →
        propertyKey ev v = pure (Text.ofNat i) :=
  ⟨loadElement_eq ev, fun _ _ => arrayIndex?_eq_some_iff, fun _ hv _ hi hmeans =>
    propertyKey_of_means hv hi hmeans⟩

/-- The last index and a negative zero as doubles, and a small index boxed as a double and as an integer. -/
theorem element_access_numbers : ∃ ev : Evaluator,
    propertyKey ev (Value.double (Double.ofInt 4294967294)) = pure (Text.ofNat 4294967294) ∧
      propertyKey ev (Value.double (Double.signedZero true)) = pure (Text.ofNat 0) ∧
      propertyKey ev (Value.double (Double.ofInt 7)) = pure (Text.ofNat 7) ∧
      propertyKey ev (Value.int32 7) = pure (Text.ofNat 7) := by
  let ev : Evaluator := ⟨fun _ _ _ => throw .exhausted, fun _ _ => throw .exhausted, fun _ => throw .exhausted⟩
  obtain ⟨-, -, hkeys⟩ := element_access ev
  have hmeans {x : Double} {i : Int} (h : x.toInt? = some i) : x.Means i := Double.toInt?_eq_some_iff.1 h
  refine ⟨ev, hkeys _ ?_ _ ?_ (hmeans ?_), hkeys _ ?_ _ ?_ (hmeans ?_), hkeys _ ?_ _ ?_ (hmeans ?_),
    hkeys _ ?_ _ ?_ (hmeans ?_)⟩ <;> decide +kernel

end Run

end RegisterJit
