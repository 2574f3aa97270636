import RegisterJit.Proofs.Chains
import RegisterJit.Proofs.Residues
import RegisterJit.Proofs.Stores

/-!
# Arrays

An array is a map from keys with a length. An element that a store puts no further than `maxDenseGrowth` past
the end stands in the vector; one further out becomes a property like any other, which the length does not count
and a shorter length does not drop.

`Operation` is what may be done to an array, with the keys that it touches; `Operation.affected` is the frame of
one operation, and `Later.holds` and `Operations.farStored` follow sequences of them by induction.
`arrays_are_maps` puts these together: a store is read until something touches its key or a property in force
refuses it, a key that may be deleted is deleted and then read where the array inherits from, the length is
greater than the index of every element, and a new length drops the elements at or above it and nothing else.
The exception is a key that is both the name of an element and of a property, and `far_element_outlives_length`
is the way to such a key.
-/

namespace RegisterJit

def Evaluator.idle : Evaluator :=
  ⟨fun _ _ _ => throw .exhausted, fun _ _ => throw .exhausted, fun _ => throw .exhausted⟩

/-! ## Lengths -/

namespace Double

variable {x : Double} {n : Nat}

theorem toUInt32_of_means (h : x.Means n) (hn : n < 2 ^ 32) : x.toUInt32.toNat = n := by
  rw [toNat_toUInt32, residue, if_pos h.1, h.integerPart_eq]
  omega

theorem means_zero (h : x.isZero = true) : x.Means 0 := by
  have hmagnitude : x.magnitude = 0 := of_decide_eq_true h
  have hunits : x.units = 0 := by
    rw [units, hmagnitude]
    simp [unitsOfMagnitude]
  refine ⟨isFinite_iff.2 (by rw [hmagnitude]; decide), ?_⟩
  rw [signedUnits, hunits, Int.zero_mul]
  split <;> rfl

theorem eq_toUInt32_iff : x.eq (ofInt x.toUInt32.toNat) = true ↔ ∃ n : Nat, n < 2 ^ 32 ∧ x.Means n := by
  constructor
  · intro h
    have hlt := x.toUInt32.toNat_lt
    generalize x.toUInt32.toNat = k at h hlt
    rcases (eq_iff.1 h).2 with rfl | ⟨hzero, -⟩
    · exact ⟨k, hlt, ofInt_means (by omega)⟩
    · exact ⟨0, by decide, means_zero hzero⟩
  · rintro ⟨n, hn, hmeans⟩
    rw [toUInt32_of_means hmeans hn, eq_iff]
    refine ⟨hmeans.finite.1, ?_⟩
    by_cases hzero : x = signedZero true
    · have hx : x.isZero = true := hzero ▸ by decide
      obtain rfl : n = 0 := by exact_mod_cast hmeans.isZero_iff.1 hx
      exact .inr ⟨hx, (ofInt_means (i := 0) (by decide)).isZero_iff.2 rfl⟩
    · exact .inl (eq_ofInt hmeans hzero)

end Double

/-! ## Vectors -/

namespace Object

variable {o : Object} {i j n : Nat} {v : Value} {key k : Text}

theorem size_setLength (o : Object) (n : Nat) : (o.setLength n).elements.size = n := by
  rw [setLength, Elements.setLength, Elements.size]
  split
  · next hle =>
    rw [Array.size_shrink]
    exact Nat.min_eq_left hle
  · next hlt =>
    have hsize : o.elements.items.size < n := Nat.not_le.1 hlt
    rw [Elements.items_append, Array.size_append, Array.size_replicate, Elements.size]
    omega

theorem element?_eq (o : Object) (i : Nat) :
    o.element? i = o.elements.items[i]?.filter fun v => !v.isEmpty := by
  rw [element?]
  cases o.elements.items[i]? with
  | none => rfl
  | some v =>
    rw [Option.filter_some]
    dsimp only
    cases v.isEmpty <;> rfl

theorem element?_of_le (h : o.elements.size ≤ i) : o.element? i = none := by
  rw [element?_eq, Array.getElem?_eq_none h]
  rfl

theorem element?_setLength (o : Object) (n i : Nat) :
    (o.setLength n).element? i = if i < n then o.element? i else none := by
  rw [element?_eq, element?_eq, setLength, Elements.setLength]
  dsimp only
  split
  · rw [← Array.getElem?_toList, Array.toList_shrink, List.getElem?_take, Array.getElem?_toList]
    split <;> rfl
  · next hlt =>
    have hsize : o.elements.items.size < n := Nat.not_le.1 hlt
    rw [Elements.items_append, Array.getElem?_append, Array.getElem?_replicate, Elements.size]
    by_cases hi : i < o.elements.items.size
    · rw [if_pos hi, if_pos (hi.trans hsize)]
    · rw [if_neg hi, Array.getElem?_eq_none (Nat.not_lt.1 hi)]
      split <;> split <;> rfl

theorem element?_set (o : Object) (i j : Nat) (v : Value) :
    ({ o with elements := o.elements.set i v } : Object).element? j =
      if j = i ∧ i < o.elements.size then (some v).filter fun v => !v.isEmpty else o.element? j := by
  rw [element?_eq, element?_eq, Elements.set]
  dsimp only
  rw [Array.getElem?_setIfInBounds, Elements.size]
  by_cases hj : i = j
  · subst hj
    rw [if_pos rfl]
    split
    · next hi => rw [if_pos ⟨rfl, hi⟩]
    · next hi => rw [if_neg fun h => hi h.2, Array.getElem?_eq_none (Nat.not_lt.1 hi)]
  · rw [if_neg hj, if_neg fun h => hj h.1.symm]

theorem element?_setElement (o : Object) (i j : Nat) (v : Value) :
    (o.setElement i v).element? j = if j = i then (some v).filter fun v => !v.isEmpty else o.element? j := by
  rw [setElement, element?_set]
  split
  · next hle =>
    rw [size_setLength, element?_setLength]
    split
    · next h => rw [if_pos h.1]
    · next h =>
      have hj : j ≠ i := fun hj => h ⟨hj, Nat.lt_succ_self i⟩
      rw [if_neg hj]
      split
      · rfl
      · next hge => exact (element?_of_le (by omega)).symm
  · next hlt => simp [Nat.not_le.1 hlt]

/-! ## Keys -/

/-- Whether the vector takes what is stored under a key. -/
def takes (o : Object) (key : Text) : Bool := (arrayIndex? key).any (· < o.elements.size + Run.maxDenseGrowth)

theorem elementOf?_eq (hi : arrayIndex? key = some i) : o.elementOf? key = o.element? i := by
  rw [elementOf?, hi, Option.bind_some]

theorem elementOf?_eq_none (hi : arrayIndex? key = none) : o.elementOf? key = none := by
  rw [elementOf?, hi, Option.bind_none]

theorem elementOf?_of_le (hi : arrayIndex? key = some i) (h : o.elements.size ≤ i) :
    o.elementOf? key = none := by
  rw [elementOf?_eq hi, element?_of_le h]

theorem eq_of_arrayIndex? (hi : arrayIndex? key = some i) (hk : arrayIndex? k = some i) : k = key := by
  rw [(arrayIndex?_eq_some_iff.1 hi).2, (arrayIndex?_eq_some_iff.1 hk).2]

theorem elementOf?_setElement_self (hi : arrayIndex? key = some i) (hv : v.isEmpty = false) :
    (o.setElement i v).elementOf? key = some v := by
  rw [elementOf?_eq hi, element?_setElement, if_pos rfl, Option.filter_some, hv]
  rfl

theorem elementOf?_of_ne {o' : Object} (hi : arrayIndex? key = some i)
    (h : ∀ j, j ≠ i → o'.element? j = o.element? j) (hk : k ≠ key) : o'.elementOf? k = o.elementOf? k := by
  cases hj : arrayIndex? k with
  | none => rw [elementOf?_eq_none hj, elementOf?_eq_none hj]
  | some j =>
    rw [elementOf?_eq hj, elementOf?_eq hj]
    exact h j fun heq => hk (eq_of_arrayIndex? hi (heq ▸ hj))

theorem elementOf?_setElement_of_ne (hi : arrayIndex? key = some i) (hk : k ≠ key) :
    (o.setElement i v).elementOf? k = o.elementOf? k :=
  elementOf?_of_ne hi (fun j hj => by rw [element?_setElement, if_neg hj]) hk

def punch (o : Object) (key : Text) : Object :=
  { o with elements := o.elements.set ((arrayIndex? key).getD 0) Value.empty }

theorem elementOf?_punch_self (key : Text) : (o.punch key).elementOf? key = none := by
  cases hi : arrayIndex? key with
  | none => exact elementOf?_eq_none hi
  | some i =>
    rw [elementOf?_eq hi, punch, element?_set, hi, Option.getD_some]
    split
    · rfl
    · next h => rw [element?_of_le (Nat.not_lt.1 fun hlt => h ⟨rfl, hlt⟩)]

theorem elementOf?_punch_of_ne (hi : arrayIndex? key = some i) (hk : k ≠ key) :
    (o.punch key).elementOf? k = o.elementOf? k := by
  refine elementOf?_of_ne hi (fun j hj => ?_) hk
  rw [punch, element?_set, hi, Option.getD_some, if_neg fun h => hj h.1]

theorem elementOf?_setLength_of_lt (h : ∀ i, arrayIndex? k = some i → i < n) :
    (o.setLength n).elementOf? k = o.elementOf? k := by
  cases hi : arrayIndex? k with
  | none => rw [elementOf?_eq_none hi, elementOf?_eq_none hi]
  | some i => rw [elementOf?_eq hi, elementOf?_eq hi, element?_setLength, if_pos (h i hi)]

theorem elementOf?_setLength_of_le (hi : arrayIndex? k = some i) (hle : n ≤ i) :
    (o.setLength n).elementOf? k = none := by
  rw [elementOf?_eq hi, element?_setLength, if_neg (Nat.not_lt.2 hle)]

theorem own?_setElement (o : Object) (i : Nat) (v : Value) (k : Text) : (o.setElement i v).own? k = o.own? k := by
  rw [setElement]
  split <;> rfl

/-- What an array itself gives under a key other than the length: an element, or else a data property. -/
def Holds (o : Object) (key : Text) (v : Value) : Prop :=
  o.elementOf? key = some v ∨
    o.elementOf? key = none ∧ ∃ p writable, o.own? key = some p ∧ p.body = .data v writable

end Object

/-- What is done to an array: something is stored under a key other than its length, a key is deleted, a number is
assigned to the length, or nothing. -/
inductive Access
  | store (key : Text)
  | delete (key : Text)
  | length (x : Double)
  | other

/-- The keys that it is about. A new length is about the elements that it cuts. -/
def Access.Touches : Access → Text → Prop
  | .store key, k => k = key
  | .delete key, k => k = key
  | .length x, k => ∃ i n : Nat, arrayIndex? k = some i ∧ x.Means n ∧ n ≤ i
  | .other, _ => False

namespace Object

/-- What is done to an array leaves what it does not touch, and it makes a property with the name of an index only
if something is stored far past the end. -/
structure Affected (o : Object) (a : Access) (o' : Object) : Prop where
  cls : o'.cls = o.cls
  proto : o'.proto = o.proto
  elementOf? : ∀ k, ¬ a.Touches k → o'.elementOf? k = o.elementOf? k
  own? : ∀ k, ¬ a.Touches k → o'.own? k = o.own? k
  far : ∀ k i, arrayIndex? k = some i → o.own? k = none → (o'.own? k).isSome = true →
    a = .store k ∧ o.elements.size + Run.maxDenseGrowth ≤ i

variable {o o' : Object} {a : Access} {key : Text} {x : Double} {n : Nat}

theorem affected_of_elements (hcls : o'.cls = o.cls) (hproto : o'.proto = o.proto)
    (hown : ∀ k, o'.own? k = o.own? k) (helements : ∀ k, ¬ a.Touches k → o'.elementOf? k = o.elementOf? k) :
    o.Affected a o' where
  cls := hcls
  proto := hproto
  elementOf? := helements
  own? k _ := hown k
  far k i _ hnone hsome := by
    rw [hown, hnone] at hsome
    cases hsome

theorem affected_self (o : Object) (a : Access) : o.Affected a o :=
  affected_of_elements rfl rfl (fun _ => rfl) fun _ _ => rfl

theorem same_setElement (o : Object) (i : Nat) (v : Value) : o.Same (o.setElement i v) := by
  rw [setElement]
  split <;> exact ⟨rfl, rfl, rfl⟩

theorem affected_setElement {i : Nat} (hi : arrayIndex? key = some i) (v : Value) :
    o.Affected (.store key) (o.setElement i v) :=
  affected_of_elements (o.same_setElement i v).cls (o.same_setElement i v).proto (own?_setElement o i v)
    fun _ hk => elementOf?_setElement_of_ne hi hk

theorem affected_punch {i : Nat} (hi : arrayIndex? key = some i) : o.Affected (.delete key) (o.punch key) :=
  affected_of_elements rfl rfl (fun _ => rfl) fun _ hk => elementOf?_punch_of_ne hi hk

theorem affected_setLength (hx : x.Means n) : o.Affected (.length x) (o.setLength n) :=
  affected_of_elements rfl rfl (fun _ => rfl) fun _ hk =>
    elementOf?_setLength_of_lt fun i hi => Nat.not_le.1 fun hle => hk ⟨i, n, hi, hx, hle⟩

theorem affected_define (htakes : o.takes key = false) (p : Property) : o.Affected (.store key) (o.define key p) where
  cls := rfl
  proto := rfl
  elementOf? _ _ := rfl
  own? _ hk := own?_define_of_ne hk p
  far k i hi hnone hsome := by
    have hk : k = key := by
      by_contra hk
      rw [own?_define_of_ne hk, hnone] at hsome
      cases hsome
    subst hk
    rw [takes, hi, Option.any_some, decide_eq_false_iff_not, Nat.not_lt] at htakes
    exact ⟨rfl, htakes⟩

theorem affected_remove (o : Object) (key : Text) : o.Affected (.delete key) (o.remove key) where
  cls := (o.same_remove key).cls
  proto := (o.same_remove key).proto
  elementOf? _ _ := by
    rw [remove]
    split <;> rfl
  own? k hk := own?_remove_of_ne hk
  far k i _ hnone hsome := by
    rw [own?_remove, hnone, ite_self] at hsome
    cases hsome

end Object

/-! ## Single operations -/

namespace Run

variable {ev : Evaluator} {w w₁ : World} {r : ObjectRef} {o : Object} {base v : Value} {key : Text} {strict : Bool}
  {x : Double} {n : Nat} (hbase : Heap.ref? base = some r) (ho : w.realm.heap.object? r = some o)
  (harray : o.cls = .array)

theorem putLength_eq (hx : toNumber ev v w = .ok x w₁) (hn : n < 2 ^ 32) (hmeans : x.Means n) :
    putLength ev r v w = .ok () (w₁.withObject r fun o => o.setLength n) := by
  unfold putLength
  rw [bind_ok hx, if_pos (Double.eq_toUInt32_iff.2 ⟨n, hn, hmeans⟩), Double.toUInt32_of_means hmeans hn]
  rfl

theorem putLength_raises (hx : toNumber ev v w = .ok x w₁) (h : ¬ ∃ n : Nat, n < 2 ^ 32 ∧ x.Means n) :
    putLength ev r v w = raise .rangeError "invalid array length" w₁ := by
  unfold putLength
  rw [bind_ok hx, if_neg (mt Double.eq_toUInt32_iff.1 h)]

include hbase ho

theorem putProperty_named (ev : Evaluator) (v : Value) (strict : Bool) (hkey : key ≠ lengthKey)
    (htakes : o.takes key = false) :
    putProperty ev base key v strict w = putNamed ev r base key v strict w := by
  rw [putProperty_of_ref? hbase ho, if_neg fun h => hkey h.2]
  cases hi : arrayIndex? key with
  | none => rfl
  | some i =>
    rw [Object.takes, hi, Option.any_some] at htakes
    dsimp only
    rw [if_neg fun h => of_decide_eq_false htakes h.2]

theorem putProperty_far (ev : Evaluator) (v : Value) (strict : Bool) {i : Nat} (hi : arrayIndex? key = some i)
    (hfar : o.elements.size + maxDenseGrowth ≤ i) (hfound : w.realm.heap.find? r key = none) :
    putProperty ev base key v strict w = .ok () (w.withObject r fun o => o.define key (Property.plain v)) := by
  have htakes : o.takes key = false := by
    rw [Object.takes, hi, Option.any_some]
    exact decide_eq_false (Nat.not_lt.2 hfar)
  rw [putProperty_named hbase ho ev v strict (ne_lengthKey hi) htakes]
  unfold putNamed
  rw [bind_ok (heap_run w), hfound]
  rfl

include harray

theorem putProperty_length (ev : Evaluator) (v : Value) (strict : Bool) :
    putProperty ev base lengthKey v strict w = putLength ev r v w := by
  rw [putProperty_of_ref? hbase ho, if_pos ⟨harray, rfl⟩]

theorem putProperty_taken (ev : Evaluator) (v : Value) (strict : Bool) (htakes : o.takes key = true) :
    ∃ i, arrayIndex? key = some i ∧
      putProperty ev base key v strict w = .ok () (w.withObject r fun o => o.setElement i v) := by
  obtain ⟨i, hi, hlt⟩ := Option.any_eq_true .. |>.1 htakes
  refine ⟨i, hi, ?_⟩
  rw [putProperty_of_ref? hbase ho, if_neg fun h => ne_lengthKey hi h.2, hi]
  dsimp only
  rw [if_pos ⟨harray, of_decide_eq_true hlt⟩]
  rfl

theorem deleteProperty_element (strict : Bool) {i : Nat} (hi : arrayIndex? key = some i)
    (hlt : i < o.elements.size) :
    deleteProperty base key strict w = .ok true (w.withObject r fun o => o.punch key) := by
  rw [deleteProperty_of_ref? hbase ho, if_neg fun h => ne_lengthKey hi h.2,
    if_pos ⟨harray, by rw [hi, Option.any_some]; exact decide_eq_true hlt⟩]
  rfl

theorem getProperty_length (ev : Evaluator) :
    getProperty ev base lengthKey w = .ok (Value.number (Double.ofInt o.elements.size)) w := by
  rw [getProperty_of_ref? hbase, if_pos (Heap.has_iff.2 ⟨o, ho⟩), get_eq, Heap.find?, Heap.chain_eq,
    Heap.object_eq ho, List.findSome?_cons]
  dsimp only
  rw [Heap.findOwn?, if_pos harray, if_pos rfl]
  rfl

theorem getProperty_of_holds (ev : Evaluator) (hkey : key ≠ lengthKey) (hholds : o.Holds key v) :
    getProperty ev base key w = .ok v w := by
  rw [getProperty_of_ref? hbase, if_pos (Heap.has_iff.2 ⟨o, ho⟩)]
  rcases hholds with helement | ⟨hnone, p, writable, hown, hbody⟩
  · exact get_of_elementOf? ho harray helement base
  · refine get_of_data (World.find?_of_own? ?_ ?_) hbody base
    · rw [Heap.object_eq ho]
      rintro ⟨-, h | h⟩
      · exact hkey h
      · rw [hnone] at h
        cases h
    · rw [World.own?, Heap.object_eq ho, hown]

end Run

/-! ## Sequences of operations -/

namespace World

variable {r : ObjectRef} {w w' w₁ w₂ : World} {o : Object} {base : Value} {key : Text} {a : Access}

/-- Something is done to an array. A store comes to no setter, and what is converted to a length leaves the array
alone. -/
inductive Operation (r : ObjectRef) (w : World) : Access → World → Prop
  | store (ev : Evaluator) (base : Value) (key : Text) (v : Value) (strict : Bool)
      (hbase : Heap.ref? base = some r) (hkey : key ≠ lengthKey)
      (hsetter : (w.realm.heap.object r).takes key = false → ¬ w.MeetsSetter r key) :
      Operation r w (.store key) ((Run.putProperty ev base key v strict).after w)
  | delete (base : Value) (key : Text) (strict : Bool) (hbase : Heap.ref? base = some r) :
      Operation r w (.delete key) ((Run.deleteProperty base key strict).after w)
  | length (ev : Evaluator) (base v : Value) (strict : Bool) (hbase : Heap.ref? base = some r) {x : Double}
      {w₁ : World} (hx : Run.toNumber ev v w = .ok x w₁)
      (hsame : w₁.realm.heap.object? r = w.realm.heap.object? r) :
      Operation r w (.length x) ((Run.putProperty ev base lengthKey v strict).after w)
  | other (w' : World) (h : w'.realm.heap.object? r = w.realm.heap.object? r) : Operation r w .other w'

/-- A world that is reached by operations. -/
def Operations (r : ObjectRef) : World → World → Prop :=
  Relation.ReflTransGen fun w w' => ∃ a, Operation r w a w'

/-- A world that is reached by operations none of which touches a key. -/
def Later (r : ObjectRef) (key : Text) : World → World → Prop :=
  Relation.ReflTransGen fun w w' => ∃ a, Operation r w a w' ∧ ¬ a.Touches key

theorem affected_withObject (ho : w.realm.heap.object? r = some o) {f : Object → Object}
    (hf : o.Affected a (f o)) :
    ∃ o', (w.withObject r f).realm.heap.object? r = some o' ∧ o.Affected a o' :=
  ⟨f o, object?_withObject ho f, hf⟩

theorem Extends.affected (h : w.Extends w') (ho : w.realm.heap.object? r = some o) (a : Access) :
    ∃ o', w'.realm.heap.object? r = some o' ∧ o.Affected a o' :=
  ⟨o, (h.object? r (Heap.has_iff.2 ⟨o, ho⟩)).trans ho, o.affected_self a⟩

/-- At some time something was stored under a key that named an index far past the end. -/
def FarStored (r : ObjectRef) (key : Text) (i : Nat) (w w' : World) : Prop :=
  ∃ w₁ w₂, Operations r w w₁ ∧ Operation r w₁ (.store key) w₂ ∧ Operations r w₂ w' ∧
    (w₁.realm.heap.object r).elements.size + Run.maxDenseGrowth ≤ i

section

variable (ho : w.realm.heap.object? r = some o) (harray : o.cls = .array)

include ho harray

/-- What an operation does to an array. -/
theorem Operation.affected (h : Operation r w a w') :
    ∃ o', w'.realm.heap.object? r = some o' ∧ o.Affected a o' := by
  cases h with
  | store ev base key v strict hbase hkey hsetter =>
    rw [Heap.object_eq ho] at hsetter
    cases htakes : o.takes key with
    | true =>
      obtain ⟨i, hi, hrun⟩ := Run.putProperty_taken hbase ho harray ev v strict htakes
      rw [Run.after_ok hrun]
      exact affected_withObject ho (Object.affected_setElement hi v)
    | false =>
      rw [Run.after_congr (Run.putProperty_named hbase ho ev v strict hkey htakes)]
      rcases (Run.putNamed_stored ev base v strict (hsetter htakes)).after with ⟨p, -, hafter⟩ | ⟨-, hextends⟩
      · exact hafter ▸ affected_withObject ho (Object.affected_define htakes p)
      · exact hextends.affected ho _
  | delete base key strict hbase =>
    by_cases hlength : key = lengthKey
    · rw [Run.after_congr (Run.deleteProperty_of_ref? hbase ho key strict), if_pos ⟨harray, hlength⟩]
      cases strict with
      | true => exact (Run.raise_extends _ _).affected ho _
      | false => exact (Extends.refl w).affected ho _
    · by_cases hvector : (arrayIndex? key).any (· < o.elements.size) = true
      · obtain ⟨i, hi, hlt⟩ := Option.any_eq_true .. |>.1 hvector
        rw [Run.after_ok (Run.deleteProperty_element hbase ho harray strict hi (of_decide_eq_true hlt))]
        exact affected_withObject ho (Object.affected_punch hi)
      · rcases (Run.deleteProperty_dropped hbase ho key strict (fun h => hlength h.2) fun h => hvector h.2).after with
          hafter | hextends
        · exact hafter ▸ affected_withObject ho (o.affected_remove key)
        · exact hextends.affected ho _
  | @length ev base v strict hbase x w₁ hx hsame =>
    rw [Run.after_congr (Run.putProperty_length hbase ho harray ev v strict)]
    have ho₁ := hsame.trans ho
    by_cases hwhole : ∃ n : Nat, n < 2 ^ 32 ∧ x.Means n
    · obtain ⟨n, hn, hmeans⟩ := hwhole
      rw [Run.after_ok (Run.putLength_eq hx hn hmeans)]
      exact affected_withObject ho₁ (Object.affected_setLength hmeans)
    · rw [Run.after_congr (Run.putLength_raises hx hwhole)]
      exact (Run.raise_extends _ _).affected ho₁ _
  | other w' h => exact ⟨o, h.trans ho, o.affected_self _⟩

theorem Later.holds {v : Value} (h : Later r key w w') (hholds : o.Holds key v) :
    ∃ o', w'.realm.heap.object? r = some o' ∧ o'.cls = .array ∧ o'.Holds key v := by
  induction h with
  | refl => exact ⟨o, ho, harray, hholds⟩
  | tail _ hstep ih =>
    obtain ⟨o₁, ho₁, harray₁, hholds₁⟩ := ih
    obtain ⟨a, hoperation, huntouched⟩ := hstep
    obtain ⟨o₂, ho₂, haffected⟩ := hoperation.affected ho₁ harray₁
    refine ⟨o₂, ho₂, haffected.cls.trans harray₁, ?_⟩
    rw [Object.Holds, haffected.elementOf? key huntouched, haffected.own? key huntouched]
    exact hholds₁

/-- A property with the name of an index was stored far past the end. -/
theorem Operations.farStored (h : Operations r w w') {i : Nat} (hi : arrayIndex? key = some i)
    (hnone : o.own? key = none) :
    ∃ o', w'.realm.heap.object? r = some o' ∧ o'.cls = .array ∧
      ((o'.own? key).isSome = true → FarStored r key i w w') := by
  induction h with
  | refl => exact ⟨o, ho, harray, fun hsome => by rw [hnone] at hsome; cases hsome⟩
  | @tail w₁ w₂ hbefore hstep ih =>
    obtain ⟨o₁, ho₁, harray₁, hfar⟩ := ih
    obtain ⟨a, hoperation⟩ := hstep
    obtain ⟨o₂, ho₂, haffected⟩ := hoperation.affected ho₁ harray₁
    refine ⟨o₂, ho₂, haffected.cls.trans harray₁, fun hsome => ?_⟩
    cases hown : o₁.own? key with
    | none =>
      obtain ⟨rfl, hle⟩ := haffected.far key i hi hown hsome
      exact ⟨w₁, w₂, hbefore, hoperation, .refl, by rwa [Heap.object_eq ho₁]⟩
    | some p =>
      obtain ⟨w₃, w₄, hfirst, hstore, hrest, hle⟩ := hfar (by rw [hown]; rfl)
      exact ⟨w₃, w₄, hfirst, hstore, hrest.tail ⟨a, hoperation⟩, hle⟩

end

/-! ## Deletions -/

/-- A key that an array does not have itself. -/
def Lacks (o : Object) (key : Text) : Prop := key ≠ lengthKey ∧ o.elementOf? key = none ∧ o.own? key = none

theorem Lacks.hasOwn (h : Lacks o key) : o.hasOwn key = false := by
  rw [Object.hasOwn, h.2.1, h.2.2, beq_false_of_ne h.1]
  simp

theorem Lacks.find?_eq (h : Lacks o key) (hsound : w.realm.Sound) (ho : w.realm.heap.object? r = some o) :
    w.realm.heap.find? r key = o.proto.bind fun p => w.realm.heap.find? p key := by
  have hown : Heap.findOwn? r o key = none := by
    rw [Heap.findOwn?, h.2.1, h.2.2, if_neg h.1]
    split <;> rfl
  rw [Heap.find?, Heap.chain_eq, Heap.object_eq ho, List.findSome?_cons]
  dsimp only
  rw [hown]
  have hproto : ∀ p, o.proto = some p → w.realm.heap.Has p ∧ p < r := fun p hp => by
    obtain ⟨hpos, hlt⟩ := hsound.protos ho hp
    exact ⟨⟨hpos, (Nat.le_of_lt hlt).trans (Heap.has_iff.2 ⟨o, ho⟩).2⟩, hlt⟩
  have hrest := Heap.chainFrom_ascends hsound hproto
  cases hp : o.proto with
  | none =>
    rw [hp] at hrest
    rw [hrest.unique .stop]
    rfl
  | some p =>
    rw [hp] at hrest
    rw [hrest.unique (Heap.chain_ascends hsound (hproto p hp).1), Option.bind_some, Heap.find?]

/-- What an array lacks is read where it inherits from. -/
theorem Lacks.getProperty_eq (h : Lacks o key) (hsound : w.realm.Sound)
    (ho : w.realm.heap.object? r = some o) (hbase : Heap.ref? base = some r) (ev : Evaluator) :
    Run.getProperty ev base key w =
      match o.proto with
      | none => .ok Value.undefined w
      | some p => Run.get ev p key base w := by
  rw [Run.getProperty_of_ref? hbase, if_pos (Heap.has_iff.2 ⟨o, ho⟩), Run.get_eq, h.find?_eq hsound ho]
  cases o.proto with
  | none => rfl
  | some p => exact (Run.get_eq ..).symm

/-- A deletion that succeeds leaves nothing under the key and changes no chain. -/
theorem lacks_of_deleteProperty (hsound : w.realm.Sound) (hbase : Heap.ref? base = some r)
    (ho : w.realm.heap.object? r = some o) (harray : o.cls = .array) {strict : Bool}
    (hrun : Run.deleteProperty base key strict w = .ok true w₁)
    (hsingle : (arrayIndex? key).any (· < o.elements.size) = true → o.own? key = none) :
    w₁.realm.Sound ∧ ∃ o₁, w₁.realm.heap.object? r = some o₁ ∧ o.Same o₁ ∧ Lacks o₁ key := by
  have hkey : key ≠ lengthKey := by
    rintro rfl
    rw [Run.deleteProperty_of_ref? hbase ho, if_pos ⟨harray, rfl⟩] at hrun
    cases strict with
    | true => exact Run.raise_ne_ok hrun
    | false => cases hrun
  by_cases hvector : (arrayIndex? key).any (· < o.elements.size) = true
  · obtain ⟨i, hi, hlt⟩ := Option.any_eq_true .. |>.1 hvector
    cases (Run.deleteProperty_element hbase ho harray strict hi (of_decide_eq_true hlt)).symm.trans hrun
    exact ⟨hsound.modify r fun _ => ⟨rfl, rfl, rfl⟩, _, object?_withObject ho _, ⟨rfl, rfl, rfl⟩, hkey,
      o.elementOf?_punch_self key, hsingle hvector⟩
  · have helement : o.elementOf? key = none := by
      cases hi : arrayIndex? key with
      | none => exact Object.elementOf?_eq_none hi
      | some i =>
        rw [hi, Option.any_some, decide_eq_true_iff, Nat.not_lt] at hvector
        exact Object.elementOf?_of_le hi hvector
    cases Run.deleteProperty_dropped hbase ho key strict (fun h => hkey h.2) fun h => hvector h.2 with
    | absent hown hx =>
      cases hx.symm.trans hrun
      rw [own?, Heap.object_eq ho] at hown
      exact ⟨hsound, o, ho, .refl o, hkey, helement, hown⟩
    | drop p hown hp hx =>
      cases hx.symm.trans hrun
      refine ⟨hsound.modify r fun o => o.same_remove key, _, object?_withObject ho _, o.same_remove key, hkey,
        ?_, ?_⟩
      · rw [Object.remove]
        split <;> exact helement
      · rw [Object.own?_remove, if_pos rfl]
    | refused p hown hp hstrict hx => cases hx.symm.trans hrun
    | raised p hown hp hstrict message hx => exact absurd (hx.symm.trans hrun) Run.raise_ne_ok

/-- A key inside the vector, and one whose property may be configured or that names none, can be deleted. -/
theorem exists_deleteProperty (hbase : Heap.ref? base = some r) (ho : w.realm.heap.object? r = some o)
    (harray : o.cls = .array) (strict : Bool) (hkey : key ≠ lengthKey)
    (hfree : (arrayIndex? key).any (· < o.elements.size) = true ∨ ∀ p, o.own? key = some p → p.configurable = true) :
    ∃ w₁, Run.deleteProperty base key strict w = .ok true w₁ := by
  by_cases hvector : (arrayIndex? key).any (· < o.elements.size) = true
  · obtain ⟨i, hi, hlt⟩ := Option.any_eq_true .. |>.1 hvector
    exact ⟨_, Run.deleteProperty_element hbase ho harray strict hi (of_decide_eq_true hlt)⟩
  · have hconfigurable (p : Property) (hown : w.own? r key = some p) : p.configurable = true := by
      rw [own?, Heap.object_eq ho] at hown
      exact hfree.resolve_left hvector p hown
    cases Run.deleteProperty_dropped hbase ho key strict (fun h => hkey h.2) fun h => hvector h.2 with
    | absent hown hx => exact ⟨_, hx⟩
    | drop p hown hp hx => exact ⟨_, hx⟩
    | refused p hown hp hstrict hx => exact absurd ((hconfigurable p hown).symm.trans hp) (by decide)
    | raised p hown hp hstrict message hx => exact absurd ((hconfigurable p hown).symm.trans hp) (by decide)

/-! ## Arrays as maps -/

section

variable (hbase : Heap.ref? base = some r) (ho : w.realm.heap.object? r = some o) (harray : o.cls = .array)

include hbase ho harray

theorem putProperty_kept (ev : Evaluator) {v : Value} {strict : Bool} (hkey : key ≠ lengthKey)
    (hv : v.isEmpty = false) (hsetter : o.takes key = false → ¬ w.MeetsSetter r key) :
    (o.takes key = false ∧ w.Refuses r key ∧ w.Extends ((Run.putProperty ev base key v strict).after w)) ∨
      ∃ w₁, Run.putProperty ev base key v strict w = .ok () w₁ ∧
        ∀ w₂, Later r key w₁ w₂ → Run.getProperty ev base key w₂ = .ok v w₂ := by
  have hlater {w₁ w₂ : World} {o₁ : Object} (ho₁ : w₁.realm.heap.object? r = some o₁) (harray₁ : o₁.cls = .array)
      (hholds : o₁.Holds key v) (hreached : Later r key w₁ w₂) :
      Run.getProperty ev base key w₂ = .ok v w₂ := by
    obtain ⟨o₂, ho₂, harray₂, hholds₂⟩ := hreached.holds ho₁ harray₁ hholds
    exact Run.getProperty_of_holds hbase ho₂ harray₂ ev hkey hholds₂
  cases htakes : o.takes key with
  | true =>
    obtain ⟨i, hi, hrun⟩ := Run.putProperty_taken hbase ho harray ev v strict htakes
    have haffected := o.affected_setElement hi v
    exact .inr ⟨_, hrun, fun w₂ => hlater (object?_withObject ho _) (haffected.cls.trans harray)
      (.inl (Object.elementOf?_setElement_self hi hv))⟩
  | false =>
    have hrun := Run.putProperty_named hbase ho ev v strict hkey htakes
    have hnone : o.elementOf? key = none := by
      cases hi : arrayIndex? key with
      | none => exact Object.elementOf?_eq_none hi
      | some i =>
        rw [Object.takes, hi, Option.any_some, decide_eq_false_iff_not, Nat.not_lt] at htakes
        exact Object.elementOf?_of_le hi (Nat.le_of_add_right_le htakes)
    cases Run.putNamed_stored ev base v strict (hsetter htakes) with
    | put p hbody hx =>
      have hholds : (o.define key p).Holds key v :=
        .inr ⟨hnone, p, true, Object.own?_define_self .., hbody⟩
      exact .inr ⟨_, hrun.trans hx, fun w₂ => hlater (object?_withObject ho _) harray hholds⟩
    | refused hrefuses hx => exact .inl ⟨rfl, hrefuses, .of_eq (Run.after_ok (hrun.trans hx))⟩
    | raised hrefuses message hx =>
      exact .inl ⟨rfl, hrefuses, Run.after_congr (hrun.trans hx) ▸ Run.raise_extends _ _⟩

/-- Arrays are maps with a length. What is stored under a key is read until something touches the key, unless a
property that only reads refuses it; a key is deleted unless a property that may not be configured has it, and is then
read where the array inherits from, if it was not the name of an element and of a property at once; the length is
greater than the index of every element, and an index that is the name of a property was stored far past the end; and a
new length drops the elements at or above it and nothing else. -/
theorem arrays_are_maps (hsound : w.realm.Sound) (ev : Evaluator) :
    (∀ key v strict, key ≠ lengthKey → v.isEmpty = false → (o.takes key = false → ¬ w.MeetsSetter r key) →
      (o.takes key = false ∧ w.Refuses r key ∧ w.Extends ((Run.putProperty ev base key v strict).after w)) ∨
      ∃ w₁, Run.putProperty ev base key v strict w = .ok () w₁ ∧
        ∀ w₂, Later r key w₁ w₂ → Run.getProperty ev base key w₂ = .ok v w₂) ∧
    (∀ key strict, key ≠ lengthKey →
      ((arrayIndex? key).any (· < o.elements.size) = true ∨ ∀ p, o.own? key = some p → p.configurable = true) →
      ∃ w₁, Run.deleteProperty base key strict w = .ok true w₁) ∧
    (∀ key strict w₁, Run.deleteProperty base key strict w = .ok true w₁ →
      ((arrayIndex? key).any (· < o.elements.size) = true → o.own? key = none) →
      (w₁.realm.heap.object r).hasOwn key = false ∧
        Run.getProperty ev base key w₁ =
          match o.proto with
          | none => .ok Value.undefined w₁
          | some p => Run.get ev p key base w₁) ∧
    Run.getProperty ev base lengthKey w = .ok (Value.number (Double.ofInt o.elements.size)) w ∧
    (∀ key i, arrayIndex? key = some i →
      (o.hasOwn key = true → i < o.elements.size ∨ (o.own? key).isSome = true) ∧
      (o.own? key = none → ∀ w₁, Operations r w w₁ → (w₁.own? r key).isSome = true → FarStored r key i w w₁)) ∧
    ∀ v strict x w₁, Run.toNumber ev v w = .ok x w₁ → w₁.realm.heap.object? r = some o →
      ((¬ ∃ n : Nat, n < 2 ^ 32 ∧ x.Means n) →
        Run.putProperty ev base lengthKey v strict w = Run.raise .rangeError "invalid array length" w₁) ∧
      ∀ n : Nat, n < 2 ^ 32 → x.Means n → ∃ w₂ o₂, Run.putProperty ev base lengthKey v strict w = .ok () w₂ ∧
        w₂.realm.heap.object? r = some o₂ ∧ o₂.elements.size = n ∧ (∀ key, o₂.own? key = o.own? key) ∧
        (∀ key i, arrayIndex? key = some i → n ≤ i → o₂.elementOf? key = none) ∧
        ∀ key, (∀ i, arrayIndex? key = some i → i < n) → o₂.elementOf? key = o.elementOf? key := by
  refine ⟨fun key v strict => putProperty_kept hbase ho harray ev,
    fun key => exists_deleteProperty hbase ho harray, fun key strict w₁ hrun hsingle => ?_,
    Run.getProperty_length hbase ho harray ev, fun key i hi => ⟨fun hown => ?_, fun hnone w₁ hreached hsome => ?_⟩,
    fun v strict x w₁ hx ho₁ => ⟨fun hpart => ?_, fun n hn hmeans => ?_⟩⟩
  · obtain ⟨hsound₁, o₁, ho₁, hsame, hlacks⟩ := lacks_of_deleteProperty hsound hbase ho harray hrun hsingle
    rw [Heap.object_eq ho₁, hlacks.getProperty_eq hsound₁ ho₁ hbase, hsame.proto]
    exact ⟨hlacks.hasOwn, rfl⟩
  · rw [Object.hasOwn, Bool.or_eq_true, Bool.and_eq_true, Bool.or_eq_true] at hown
    rcases hown with ⟨-, hlength | helement⟩ | hown
    · exact absurd (eq_of_beq hlength) (ne_lengthKey hi)
    · exact .inl (Object.lt_of_elementOf? hi helement)
    · exact .inr hown
  · obtain ⟨o₁, ho₁, -, hfar⟩ := hreached.farStored ho harray hi hnone
    exact hfar (by rwa [World.own?, Heap.object_eq ho₁] at hsome)
  · rw [Run.putProperty_length hbase ho harray, Run.putLength_raises hx hpart]
  · refine ⟨_, _, (Run.putProperty_length hbase ho harray ev v strict).trans (Run.putLength_eq hx hn hmeans),
      object?_withObject ho₁ _, o.size_setLength n, fun key => rfl, fun key i => Object.elementOf?_setLength_of_le,
      fun key => Object.elementOf?_setLength_of_lt⟩

end

/-- A world with one object more than the first prototypes: an empty array. -/
def solitary : World := (Run.newArray 0).after (blank ⟨0, 0, 0⟩)

theorem solitary_object : solitary.realm.heap.object? 6 = some (Object.ofClass .array (some 3)) := rfl

theorem solitary_sound : solitary.realm.Sound := Realm.bare_sound.alloc (fun p hp => by cases hp; decide) nofun

theorem solitary_ref : Heap.ref? (Heap.value 6) = some 6 := by decide

/-- The only array of `solitary` with elements at 0 and 3. -/
def filled : World :=
  (solitary.withObject 6 fun o => o.setElement 0 Value.null).withObject 6 fun o => o.setElement 3 Value.null

/-- Elements are stored in a new array, the last of them is deleted, and a shorter length drops what is left of it;
the first is read all the time. -/
theorem arrays_are_maps_first : ∃ (w w₁ w₂ w₃ w₄ : World) (r : ObjectRef) (o : Object) (base : Value) (ev : Evaluator),
    w.realm.Sound ∧ w.realm.heap.object? r = some o ∧ o.cls = .array ∧ Heap.ref? base = some r ∧
      Run.putProperty ev base (Text.ofNat 0) Value.null false w = .ok () w₁ ∧
      Run.putProperty ev base (Text.ofNat 3) Value.null false w₁ = .ok () w₂ ∧
      Run.getProperty ev base lengthKey w₂ = .ok (Value.number (Double.ofInt 4)) w₂ ∧
      Run.deleteProperty base (Text.ofNat 3) false w₂ = .ok true w₃ ∧
      (w₃.realm.heap.object r).hasOwn (Text.ofNat 3) = false ∧
      Run.getProperty ev base (Text.ofNat 3) w₃ = .ok Value.undefined w₃ ∧
      Run.putProperty ev base lengthKey (Value.int32 2) false w₃ = .ok () w₄ ∧
      Run.getProperty ev base lengthKey w₄ = .ok (Value.number (Double.ofInt 2)) w₄ ∧
      Run.getProperty ev base (Text.ofNat 0) w₄ = .ok Value.null w₄ := by
  have hput {w : World} {o : Object} {i : Nat} (ho : w.realm.heap.object? 6 = some o) (harray : o.cls = .array)
      (hi : i < 2 ^ 32 - 1) (hnear : i < o.elements.size + Run.maxDenseGrowth) :
      Run.putProperty .idle (Heap.value 6) (Text.ofNat i) Value.null false w =
        .ok () (w.withObject 6 fun o => o.setElement i Value.null) := by
    obtain ⟨j, hj, hrun⟩ := Run.putProperty_taken solitary_ref ho harray .idle Value.null false
      (by rw [Object.takes, arrayIndex?_ofNat hi, Option.any_some]; exact decide_eq_true hnear)
    cases (arrayIndex?_ofNat hi).symm.trans hj
    exact hrun
  have ho₁ := object?_withObject solitary_object fun o => o.setElement 0 Value.null
  have ho₂ : filled.realm.heap.object? 6 = _ := object?_withObject ho₁ fun o => o.setElement 3 Value.null
  have hfirst := hput (i := 0) solitary_object rfl (by decide) (by decide)
  have hsecond := hput (i := 3) ho₁ rfl (by decide) (by decide)
  have hsound : filled.realm.Sound :=
    (solitary_sound.modify 6 fun o => o.same_setElement 0 Value.null).modify 6 fun o => o.same_setElement 3 Value.null
  obtain ⟨hstore, -⟩ := arrays_are_maps solitary_ref solitary_object rfl solitary_sound .idle
  obtain ⟨-, hdelete, hdeleted, hlength, -⟩ := arrays_are_maps solitary_ref ho₂ rfl hsound .idle
  have hthree : arrayIndex? (Text.ofNat 3) = some 3 := arrayIndex?_ofNat (by decide)
  -- The first store, and what it says about later worlds.
  obtain ⟨w₁, hrun₁, hlater⟩ := (hstore (Text.ofNat 0) Value.null false (lengthKey_ne_ofNat 0).symm (by decide)
    fun h => by cases (show _ = true by decide +kernel).symm.trans h).resolve_left
      fun h => by cases (show _ = true by decide +kernel).symm.trans h.1
  obtain rfl := (EStateM.Result.ok.inj (hrun₁.symm.trans hfirst)).2
  -- The deletion.
  have hwithin : (arrayIndex? (Text.ofNat 3)).any (· < 4) = true := by rw [hthree]; rfl
  obtain ⟨w₃, hrun₃⟩ := hdelete (Text.ofNat 3) false (lengthKey_ne_ofNat 3).symm (.inl hwithin)
  obtain ⟨hown, hread⟩ := hdeleted (Text.ofNat 3) false w₃ hrun₃ fun _ => rfl
  have hw₃ := (EStateM.Result.ok.inj (hrun₃.symm.trans
    (Run.deleteProperty_element solitary_ref ho₂ rfl false hthree (by decide)))).2
  have hfind : w₃.realm.heap.find? 3 (Text.ofNat 3) = none := by
    rw [hw₃]
    exact Option.isNone_iff_eq_none.1 (by decide +kernel)
  have hread' : Run.get .idle 3 (Text.ofNat 3) (Heap.value 6) w₃ = .ok Value.undefined w₃ := by
    rw [Run.get_eq, hfind]
    rfl
  -- The shorter length.
  have ho₃ : w₃.realm.heap.object? 6 = _ := hw₃ ▸ object?_withObject ho₂ fun o => o.punch (Text.ofNat 3)
  have hmeans : (Value.int32 2).toNumber.Means (2 : Nat) := Double.toInt?_eq_some_iff.1 (by decide +kernel)
  have hx : Run.toNumber .idle (Value.int32 2) w₃ = .ok (Value.int32 2).toNumber w₃ := rfl
  have hrun₄ := (Run.putProperty_length solitary_ref ho₃ rfl .idle (Value.int32 2) false).trans
    (Run.putLength_eq hx (n := 2) (by decide) hmeans)
  have ho₄ := object?_withObject ho₃ fun o => o.setLength 2
  refine ⟨_, _, _, w₃, _, 6, _, _, .idle, solitary_sound, solitary_object, rfl, solitary_ref, hfirst, hsecond, hlength,
    hrun₃, hown, hread.trans hread', hrun₄, ?_, hlater _ ?_⟩
  · rw [Run.getProperty_length solitary_ref ho₄ rfl, Object.size_setLength]
    rfl
  · have hother : ¬ Text.ofNat 0 = Text.ofNat 3 := fun h => by cases ofNat_injective h
    have hstored := Operation.store .idle (Heap.value 6) (Text.ofNat 3) Value.null false solitary_ref
      (lengthKey_ne_ofNat 3).symm fun h => by
        rw [Heap.object_eq ho₁] at h
        cases (show _ = true by decide +kernel).symm.trans h
    have hdropped := Operation.delete (w := filled) (Heap.value 6) (Text.ofNat 3) false solitary_ref
    have hshortened := Operation.length .idle (Heap.value 6) (Value.int32 2) false solitary_ref hx rfl
    rw [Run.after_ok hsecond] at hstored
    rw [Run.after_ok hrun₃] at hdropped
    rw [Run.after_ok hrun₄] at hshortened
    refine ((Relation.ReflTransGen.single ⟨_, hstored, hother⟩).tail ⟨_, hdropped, hother⟩).tail ⟨_, hshortened, ?_⟩
    rintro ⟨i, n, hi, hn, hle⟩
    cases (arrayIndex?_ofNat (by decide)).symm.trans hi
    cases (Double.toInt?_eq_some_iff.2 hmeans).symm.trans (Double.toInt?_eq_some_iff.2 hn)
    omega

/-- An element far past the end of a new array is not counted by the length, and it is still there when the length
is set to zero. -/
theorem far_element_outlives_length : ∃ (w w₁ w₂ : World) (r : ObjectRef) (base : Value) (ev : Evaluator) (i : Nat),
    arrayIndex? (Text.ofNat i) = some i ∧ Heap.ref? base = some r ∧ (w.realm.heap.object r).cls = .array ∧
      Run.putProperty ev base (Text.ofNat i) Value.null false w = .ok () w₁ ∧
      (w₁.realm.heap.object r).hasOwn (Text.ofNat i) = true ∧
      Run.getProperty ev base lengthKey w₁ = .ok (Value.int32 0) w₁ ∧
      Run.putProperty ev base lengthKey (Value.int32 0) false w₁ = .ok () w₂ ∧
      (w₂.realm.heap.object r).hasOwn (Text.ofNat i) = true ∧
      Run.getProperty ev base (Text.ofNat i) w₂ = .ok Value.null w₂ := by
  have hi : arrayIndex? (Text.ofNat 70000) = some 70000 := arrayIndex?_ofNat (by decide)
  have hput := Run.putProperty_far solitary_ref solitary_object .idle Value.null false hi (by decide)
    (Option.isNone_iff_eq_none.1 (by decide +kernel))
  have ho₁ := object?_withObject solitary_object fun o => o.define (Text.ofNat 70000) (Property.plain Value.null)
  generalize solitary.withObject 6 (fun o => o.define (Text.ofNat 70000) (Property.plain Value.null)) = w₁ at hput ho₁
  have hx : Run.toNumber .idle (Value.int32 0) w₁ = .ok (Value.int32 0).toNumber w₁ := rfl
  have hcut := (Run.putProperty_length solitary_ref ho₁ rfl .idle (Value.int32 0) false).trans
    (Run.putLength_eq hx (n := 0) (by decide) (Double.toInt?_eq_some_iff.1 (by decide +kernel)))
  have ho₂ := object?_withObject ho₁ fun o => o.setLength 0
  have hdefined := (Object.ofClass .array (some 3)).own?_define_self (Text.ofNat 70000) (Property.plain Value.null)
  have hown {o : Object} (h : o.own? (Text.ofNat 70000) = some (Property.plain Value.null)) :
      o.hasOwn (Text.ofNat 70000) = true := by
    rw [Object.hasOwn, h, Option.isSome_some, Bool.or_true]
  refine ⟨solitary, w₁, _, 6, Heap.value 6, .idle, 70000, hi, solitary_ref, rfl, hput, ?_, ?_, hcut, ?_, ?_⟩
  · exact Heap.object_eq ho₁ ▸ hown hdefined
  · rw [show Value.int32 0 = Value.number (Double.ofInt (0 : Nat)) by decide +kernel]
    exact Run.getProperty_length solitary_ref ho₁ rfl .idle
  · exact Heap.object_eq ho₂ ▸ hown hdefined
  · exact Run.getProperty_of_holds solitary_ref ho₂ rfl .idle (ne_lengthKey hi)
      (.inr ⟨Object.elementOf?_setLength_of_le hi (Nat.zero_le _), _, _, hdefined, rfl⟩)

end World

end RegisterJit
