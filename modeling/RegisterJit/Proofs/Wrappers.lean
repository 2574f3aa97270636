import RegisterJit.Proofs.Loops
import RegisterJit.Proofs.Quoting
import RegisterJit.Proofs.Rendering

/-!
# Wrappers of strings

A string is indexed by its UTF-16 units, and its wrapper by its characters. The two agree up to the first character
that takes two units, whatever the bytes of the string are.

A property of a string by index counts units of UTF-16, while a wrapper object is given one property for each
character. `characters_eq_units_iff` tells for which strings the counts agree, and `getElem?_flatMap_units` at
which indices they do for the others. `Wraps` describes a wrapper object and `Shows` what a script can see of
it: which keys it has, and in which order a loop visits them, by `Loops`. `wrapper_characters` states this for
every string, and `wrapper_lacks_unit` gives a string with a unit that its wrapper does not have.
-/

namespace RegisterJit

/-! ## Characters and units -/

namespace Text

variable {t : Text} {c i n : Nat} {cs : List Nat}

theorem isScalar_of_mem_scalars (h : c ∈ scalars t) : isScalar c = true := by
  obtain ⟨g, hg, rfl⟩ := List.mem_map.1 h
  induction t using glyph_induction with
  | empty =>
    rw [glyphs_nil] at hg
    cases hg
  | formed b x v hall hcont z ih =>
    rw [glyphs_some hall] at hg
    rcases List.mem_cons.1 hg with rfl | hg
    · exact (readChar_encode hall).2
    · exact ih hg (List.mem_map_of_mem hg)
  | broken b z hnone ih =>
    rw [glyphs_none hnone] at hg
    rcases List.mem_cons.1 hg with rfl | hg
    · exact (by decide : isScalar replacement = true)
    · exact ih hg (List.mem_map_of_mem hg)

theorem isScalar_iff : isScalar c = true ↔ c < 0xd800 ∨ 0xe000 ≤ c ∧ c ≤ 0x10ffff := by
  simp [isScalar]

theorem unitsOfScalar_of_lt (h : c < 0x10000) : unitsOfScalar c = [c] := if_pos h

theorem length_unitsOfScalar (c : Nat) : (unitsOfScalar c).length = 1 + if 0x10000 ≤ c then 1 else 0 := by
  rw [unitsOfScalar]
  split
  · rw [if_neg (by omega)]
    rfl
  · rw [if_pos (by omega)]
    rfl

theorem length_units (t : Text) : (units t).length =
    (scalars t).length + (scalars t).countP fun c => decide (0x10000 ≤ c) := by
  rw [units]
  induction scalars t with
  | nil => rfl
  | cons c cs ih =>
    rw [List.flatMap_cons, List.length_append, ih, length_unitsOfScalar, List.length_cons, List.countP_cons]
    simp only [decide_eq_true_eq]
    omega

/-- After characters that take one unit each, the next unit is the first of the next character. -/
theorem getElem?_flatMap_units (h : ∀ c ∈ cs.take i, c < 0x10000) :
    (cs.flatMap unitsOfScalar)[i]? = cs[i]?.bind fun c => (unitsOfScalar c).head? := by
  induction cs generalizing i with
  | nil => rfl
  | cons c cs ih =>
    rw [List.flatMap_cons]
    cases i with
    | zero =>
      rw [List.getElem?_cons_zero, Option.bind_some, unitsOfScalar]
      split <;> rfl
    | succ i =>
      rw [List.take_succ_cons, List.forall_mem_cons] at h
      rw [unitsOfScalar_of_lt h.1, List.singleton_append, List.getElem?_cons_succ, List.getElem?_cons_succ, ih h.2]

end Text

namespace Run

variable {t : Text} {c i n : Nat}

open Text

theorem isSome_unitAt? : (unitAt? t i).isSome = true ↔ i < (units t).length := by
  rw [unitAt?, Option.isSome_map, Option.isSome_iff_ne_none, ne_eq, List.getElem?_eq_none_iff, Nat.not_le]

theorem unitAt?_eq_encodeChar (h : ∀ c ∈ (scalars t).take i, c < 0x10000) (hc : (scalars t)[i]? = some c) :
    unitAt? t i = some (encodeChar (if c < 0x10000 then c else replacement)) := by
  have hscalar := isScalar_iff.1 (isScalar_of_mem_scalars (List.mem_of_getElem? hc))
  rw [unitAt?, units, getElem?_flatMap_units h, hc, Option.bind_some, unitsOfScalar]
  split
  · rw [List.head?_cons, Option.map_some, if_neg (by omega)]
  · rw [List.head?_cons, Option.map_some, if_pos (by omega)]

/-- The bytes of a character that takes two units are not those that its first unit stands for. -/
theorem encodeChar_ne_replacement (hc : isScalar c = true) (h : 0x10000 ≤ c) :
    encodeChar c ≠ encodeChar replacement := by
  intro heq
  have hlength := congrArg List.length heq
  rw [isScalar_iff] at hc
  rw [encodeChar, if_neg (by omega), if_neg (by omega), if_neg (by omega), if_neg (by omega), if_pos (by omega)]
    at hlength
  exact absurd (show 4 = 3 from hlength) (by decide)

/-- The first characters and the first units are the same just if each of these characters takes one unit. -/
theorem characters_eq_units_iff : (∀ i < n, (scalars t)[i]?.map encodeChar = unitAt? t i) ↔
    ∀ c ∈ (scalars t).take n, c < 0x10000 := by
  induction n with
  | zero => simp
  | succ n ih =>
    rw [Nat.forall_lt_succ_right, ih, List.take_add_one, List.forall_mem_append]
    refine and_congr_right fun hbasic => ?_
    cases hc : (scalars t)[n]? with
    | none =>
      have hunit : unitAt? t n = none := by
        rw [unitAt?, units, getElem?_flatMap_units hbasic, hc]
        rfl
      simp [hunit]
    | some c =>
      rw [unitAt?_eq_encodeChar hbasic hc, Option.map_some, Option.some.injEq, Option.toList_some,
        List.forall_mem_singleton]
      split
      · next hlt => exact iff_of_true rfl hlt
      · next hge =>
        exact iff_of_false (encodeChar_ne_replacement (isScalar_of_mem_scalars (List.mem_of_getElem? hc))
          (Nat.not_lt.1 hge)) hge

end Run

/-! ## Interned texts -/

namespace Heap

variable {h : Heap} {t : Text} {v : Value}

def string? (h : Heap) (t : Text) : Option Value :=
  (h.handle? (InternedText.ofText t)).map fun i => Value.string i.toUInt32

theorem intern_of_string? (ht : h.string? t = some v) : h.intern t = (v, h) := by
  obtain ⟨i, hi, rfl⟩ := Option.map_eq_some_iff.1 ht
  rw [intern, hi]

theorem string?_intern_self (h : Heap) (t : Text) : (h.intern t).2.string? t = some (h.intern t).1 := by
  cases ht : h.handle? (InternedText.ofText t) with
  | some i => rw [intern, ht, string?, ht, Option.map_some]
  | none =>
    have hnone : h.strings.findIdx? (fun s => s.same (InternedText.ofText t)) = none := Option.map_eq_none_iff.1 ht
    have hself : (InternedText.ofText t).same (InternedText.ofText t) = true :=
      (InternedText.same_iff_text_eq _ _).2 rfl
    rw [intern, ht, string?, handle?, Array.findIdx?_push, hnone, hself]
    rfl

theorem string?_intern (ht : h.string? t = some v) (s : Text) : (h.intern s).2.string? t = some v := by
  obtain ⟨i, hi, rfl⟩ := Option.map_eq_some_iff.1 ht
  obtain ⟨j, hj, rfl⟩ := Option.map_eq_some_iff.1 hi
  rw [intern]
  cases h.handle? (InternedText.ofText s) with
  | some k => exact ht
  | none =>
    rw [string?, handle?, Array.findIdx?_push, hj]
    rfl

theorem text?_mono {h' : Heap} (hstrings : h.strings.toList <+: h'.strings.toList) (ht : h.text? v = some t) :
    h'.text? v = some t := by
  rw [text?] at ht ⊢
  split
  · next hzero => rwa [hzero] at ht
  · next i hsucc =>
    rw [hsucc] at ht
    obtain ⟨s, hs, rfl⟩ := Option.map_eq_some_iff.1 ht
    rw [← Array.getElem?_toList] at hs
    obtain ⟨rest, hrest⟩ := hstrings
    rw [← Array.getElem?_toList, ← hrest, List.getElem?_append_left (List.getElem?_eq_some_iff.1 hs).1, hs,
      Option.map_some]

theorem string?_modify (h : Heap) (r : ObjectRef) (f : Object → Object) (t : Text) :
    (h.modify r f).string? t = h.string? t := by
  cases r <;> rfl

theorem enumerableFrom_append {seen keys : List Text} (hkeys : keys.Nodup) (hnew : ∀ k ∈ keys, k ∉ seen)
    (entries : List (Text × Bool)) : enumerableFrom seen (keys.map (·, true) ++ entries) =
      keys ++ enumerableFrom (keys.reverse ++ seen) entries := by
  induction keys generalizing seen with
  | nil => rfl
  | cons k keys ih =>
    obtain ⟨hk, hkeys⟩ := List.nodup_cons.1 hkeys
    obtain ⟨hfirst, hnew⟩ := List.forall_mem_cons.1 hnew
    rw [List.map_cons, List.cons_append, enumerableFrom, if_neg (by simpa using hfirst), if_pos rfl, ih hkeys]
    · rw [List.reverse_cons, List.append_assoc, List.singleton_append, List.cons_append]
    · intro k' hk' hmem
      rcases List.mem_cons.1 hmem with rfl | hmem
      · exact hk hk'
      · exact hnew k' hk' hmem

end Heap

/-! ## Wrapping -/

namespace World

variable {w₀ w : World} {r : ObjectRef} {v : Value} {c i : Nat} {cs : List Nat} {key : Text}

def character (u : Value) : Property := ⟨.data u false, true, false⟩

/-- An object that wraps a string and has some characters under their indices, and nothing else. -/
structure Wraps (w : World) (r : ObjectRef) (v : Value) (cs : List Nat) : Prop where
  has : w.realm.heap.Has r
  cls : (w.realm.heap.object r).cls = .object
  elements : (w.realm.heap.object r).elements.items = #[]
  primitive : (w.realm.heap.object r).primitive.value = v
  proto : (w.realm.heap.object r).proto = some w.realm.objectProto
  listed : (w.realm.heap.object r).Listed
  keys : (w.realm.heap.object r).keys = (List.range cs.length).map Text.ofNat
  characters : ∀ i c, cs[i]? = some c → ∃ u, w.realm.heap.string? (Text.encodeChar c) = some u ∧
    w.own? r (Text.ofNat i) = some (character u)

/-- A world with a new object that wraps a primitive. -/
def wrapping (w : World) (p : Primitive) : World :=
  (w.withHeap fun h => (h.alloc (Object.ofClass .object (some w.realm.objectProto))).2).withObject
    (w.realm.heap.objects.size + 1) fun o => { o with primitive := p }

theorem wrapping_wraps (w : World) (p : Primitive) :
    (w.wrapping p).Wraps (w.realm.heap.objects.size + 1) p.value [] := by
  have hnew : (w.withHeap fun h => (h.alloc (Object.ofClass .object (some w.realm.objectProto))).2).realm.heap.object?
      (w.realm.heap.objects.size + 1) = some (Object.ofClass .object (some w.realm.objectProto)) :=
    (Heap.object?_alloc ..).trans (if_pos rfl)
  have hobject : (w.wrapping p).realm.heap.object (w.realm.heap.objects.size + 1) =
      { Object.ofClass .object (some w.realm.objectProto) with primitive := p } :=
    Heap.object_eq (object?_withObject hnew _)
  refine ⟨(has_withObject _).2 (Heap.has_iff.2 ⟨_, hnew⟩), ?_, ?_, ?_, ?_, ?_, ?_, nofun⟩ <;> rw [hobject]
  · rfl
  · rfl
  · rfl
  · exact (Object.keyed_of_bare rfl rfl).toListed
  · rfl

namespace Wraps

variable (h : w.Wraps r v cs)

include h

theorem isSome_own?_iff : (w.own? r key).isSome = true ↔ ∃ i < cs.length, key = Text.ofNat i := by
  rw [own?, ← h.listed.mem_keys, h.keys, List.mem_map]
  simp only [List.mem_range, eq_comm]

theorem own?_eq_none (hi : cs.length ≤ i) : w.own? r (Text.ofNat i) = none := by
  rw [← Option.not_isSome_iff_eq_none, h.isSome_own?_iff]
  rintro ⟨j, hj, heq⟩
  exact Nat.not_lt.2 hi (ofNat_injective heq ▸ hj)

theorem define (c : Nat) : ((w.withHeap fun h => (h.intern (Text.encodeChar c)).2).withObject r fun o =>
    o.define (Text.ofNat cs.length) (character (w.realm.heap.intern (Text.encodeChar c)).1)).Wraps r v (cs ++ [c]) := by
  obtain ⟨w₁, hw₁⟩ : ∃ w₁, w₁ = w.withHeap fun h => (h.intern (Text.encodeChar c)).2 := ⟨_, rfl⟩
  have hkeep : w₁.realm.heap.object r = w.realm.heap.object r := by
    rw [hw₁]
    exact Heap.object_intern ..
  have hhas : w₁.realm.heap.Has r := by
    rw [hw₁]
    exact h.has.mono (extends_intern _ _).size_le
  have hobject := object_withObject hhas fun o =>
    o.define (Text.ofNat cs.length) (character (w.realm.heap.intern (Text.encodeChar c)).1)
  rw [hkeep] at hobject
  rw [← hw₁]
  refine ⟨(has_withObject _).2 hhas, ?_, ?_, ?_, ?_, ?_, ?_, fun i d hd => ?_⟩
  · rw [hobject]
    exact h.cls
  · rw [hobject]
    exact h.elements
  · rw [hobject]
    exact h.primitive
  · rw [hobject, hw₁]
    exact h.proto
  · rw [hobject]
    exact h.listed.define _ _
  · rw [hobject, Object.keys_define, ← own?, h.own?_eq_none (Nat.le_refl _), Option.isSome_none,
      if_neg Bool.false_ne_true, h.keys, List.length_append, List.length_singleton, List.range_succ,
      List.map_append, List.map_singleton]
  · rw [own?, hobject, withObject, withHeap, Heap.string?_modify, hw₁]
    rcases Nat.lt_or_ge i cs.length with hi | hi
    · rw [List.getElem?_append_left hi] at hd
      obtain ⟨u, hu, hown⟩ := h.characters i d hd
      refine ⟨u, Heap.string?_intern hu _, ?_⟩
      rw [Object.own?_define_of_ne fun heq => Nat.ne_of_lt hi (ofNat_injective heq)]
      exact hown
    · rw [List.getElem?_append_right hi, List.getElem?_singleton] at hd
      split at hd
      · next hzero =>
        obtain rfl := Option.some.inj hd
        obtain rfl : i = cs.length := by omega
        exact ⟨_, Heap.string?_intern_self .., Object.own?_define_self ..⟩
      · cases hd

theorem ownKeys : (w.realm.heap.object r).ownKeys = (List.range cs.length).map Text.ofNat := by
  rw [Object.ownKeys, h.elements, h.keys]
  rfl

theorem find?_iff {p : Property} : w.realm.heap.find? r key = some (.property r p) ↔ w.own? r key = some p :=
  ⟨Heap.own?_of_find?, find?_of_own? fun hindexes => by
    have hclass := h.cls.symm.trans hindexes.1
    cases hclass⟩

theorem enumerableKeys : ∃ inherited, w.realm.heap.enumerableKeys r =
    (List.range cs.length).map Text.ofNat ++ inherited ∧ ∀ i < cs.length, Text.ofNat i ∉ inherited := by
  have hentries : ((w.realm.heap.object r).ownKeys.map fun k =>
      (k, (((w.realm.heap.object r).own? k).map (·.enumerable)).getD true)) =
        ((List.range cs.length).map Text.ofNat).map (·, true) := by
    rw [h.ownKeys]
    refine List.map_congr_left fun k hk => ?_
    obtain ⟨i, hi, rfl⟩ := List.mem_map.1 hk
    obtain ⟨u, -, hown⟩ := h.characters i _ (List.getElem?_eq_getElem (List.mem_range.1 hi))
    rw [← own?, hown]
    rfl
  have hnodup : ((List.range cs.length).map Text.ofNat).Nodup := List.nodup_range.map ofNat_injective
  rw [Heap.enumerableKeys, Heap.chain_eq, List.flatMap_cons]
  dsimp only
  rw [hentries, Heap.enumerableFrom_append hnodup (by simp)]
  refine ⟨_, rfl, fun i hi hmem => (Heap.mem_enumerableFrom.1 hmem).1 ?_⟩
  rw [List.append_nil, List.mem_reverse]
  exact List.mem_map_of_mem (List.mem_range.2 hi)

end Wraps

end World

namespace Run

variable {w₀ w w₁ : World} {r : ObjectRef} {v : Value} {cs : List Nat} {i : Nat} {ev : Evaluator}

theorem ref?_of_isString (hv : v.isString = true) : Heap.ref? v = none := by
  refine if_neg fun hobject => ?_
  have := (Value.isString_iff.1 hv).2
  have := (Value.isObject_iff.1 hobject).2
  omega

theorem isNullish_of_isString (hv : v.isString = true) : isNullish v = false := by
  have := (Value.isString_iff.1 hv).2
  rw [← Bool.not_eq_true, isNullish, Bool.or_eq_true, Value.isNullOrUndefined_iff, Value.isEmpty_iff]
  omega

/-- Put characters into an object under indices from `start` on. -/
def defineCharacters (r : ObjectRef) (start : Nat) (cs : List Nat) : Run Unit :=
  (cs.zipIdx start).forM fun (c, i) => do
    let character ← intern (Text.encodeChar c)
    define r (Text.ofNat i) ⟨.data character false, true, false⟩

theorem toObject_eq_defineCharacters (hv : v.isString = true) : toObject v = (do
    let r ← newObject
    modifyObject r fun o => { o with primitive := ⟨v, Heap.isObject_of_ref?_eq_none (ref?_of_isString hv)⟩ }
    defineCharacters r 0 (Text.scalars (← textOf v))
    return r) := by
  unfold toObject
  split
  · next hsome => cases (ref?_of_isString hv).symm.trans hsome
  · rw [isNullish_of_isString hv, if_neg Bool.false_ne_true]
    simp only [hv, if_true]
    rfl

theorem defineCharacters_wraps (hr : ¬ w₀.realm.heap.Has r) (rest : List Nat) (h : w.Wraps r v cs)
    (hw : w₀.Undisturbed w) : ∃ w₁, defineCharacters r cs.length rest w = .ok () w₁ ∧ w₁.Wraps r v (cs ++ rest) ∧
      w₀.Undisturbed w₁ := by
  induction rest generalizing w cs with
  | nil => exact ⟨w, rfl, (List.append_nil cs).symm ▸ h, hw⟩
  | cons c rest ih =>
    obtain ⟨w₁, hrun, hwraps, hw₁⟩ := ih (h.define c) ((hw.intern (Text.encodeChar c)).withObject hr _)
    rw [List.length_append, List.length_singleton] at hrun
    rw [List.append_assoc, List.singleton_append] at hwraps
    exact ⟨w₁, hrun, hwraps, hw₁⟩

theorem toObject_of_isString (hv : v.isString = true) : ∃ w₁,
    toObject v w = .ok (w.realm.heap.objects.size + 1) w₁ ∧ w.Undisturbed w₁ ∧
      w₁.Wraps (w.realm.heap.objects.size + 1) v (Text.scalars (w.realm.heap.text v)) := by
  obtain ⟨w₁, hrun, hwraps, hw₁⟩ := defineCharacters_wraps World.not_has_new (Text.scalars (w.realm.heap.text v))
    (w.wrapping_wraps ⟨v, Heap.isObject_of_ref?_eq_none (ref?_of_isString hv)⟩) ((World.Undisturbed.refl w).young _)
  exact ⟨w₁, (congrFun (toObject_eq_defineCharacters hv) w).trans (bind_ok hrun), hw₁, hwraps⟩

theorem intern_of_string? {t : Text} (ht : w.realm.heap.string? t = some v) : intern t w = .ok v w := by
  change EStateM.Result.ok (w.realm.heap.intern t).1 (w.withHeap fun h => (h.intern t).2) = _
  rw [World.withHeap, Heap.intern_of_string? ht]

theorem getProperty_of_isString (hv : v.isString = true) {t : Text} (ht : w.realm.heap.text? v = some t)
    (hi : i < 2 ^ 32 - 1) : getProperty ev v (Text.ofNat i) w = (match unitAt? t i with
      | some s => intern s
      | none => get ev w.realm.objectProto (Text.ofNat i) v) w := by
  have htext : textOf v w = .ok t w := congrArg (EStateM.Result.ok · w) (by rw [Heap.text, ht, Option.getD_some])
  unfold getProperty
  rw [ref?_of_isString hv]
  dsimp only
  rw [if_pos hv, bind_ok htext, if_neg (lengthKey_ne_ofNat i).symm, arrayIndex?_ofNat hi, Option.bind_some]
  cases unitAt? t i <;> rfl

end Run

namespace World

variable {w w₁ : World} {r : ObjectRef} {v : Value} {n : Nat}

/-- What is seen of a string as an object: it has the indices below a number for its own keys, a loop gives them
before what is inherited, and a scope finds them at the object. -/
structure Shows (w w₁ : World) (v : Value) (r : ObjectRef) (n : Nat) : Prop where
  hasOwn : ∀ ev k key, Run.propertyKey ev k w₁ = .ok key w₁ → ∃ b,
    Run.builtin ev .objectHasOwnProperty v [k] w = .ok (Value.ofBool b) w₁ ∧ (b = true ↔ ∃ i < n, key = Text.ofNat i)
  loop : ∃ inherited, (∀ i < n, Text.ofNat i ∉ inherited) ∧ Run.enumerate v w =
    .ok (Heap.value (w₁.realm.heap.objects.size + 1)) (w₁.withHeap fun h =>
      (h.alloc { Object.ofClass .iterator none with
        enumeration := some ⟨r, (List.range n).map Text.ofNat ++ inherited⟩ }).2)
  scope : ∀ frame, Run.withSetup frame v w = (do
    Run.setLexicalEnv frame (← Run.pushEnv (← Run.lexicalEnv frame) (.object r))) w₁
  found : ∀ i, (∃ p, w₁.realm.heap.find? r (Text.ofNat i) = some (.property r p)) ↔ i < n

theorem Wraps.shows {cs : List Nat} (h : w₁.Wraps r v cs) (hrun : Run.toObject v w = .ok r w₁) :
    w.Shows w₁ v r cs.length where
  hasOwn ev k key hkey := by
    refine ⟨(w₁.realm.heap.object r).hasOwn key, ?_, ?_⟩
    · unfold Run.builtin
      dsimp only
      exact (Run.bind_ok hrun).trans ((Run.bind_ok hkey).trans
        (Run.bind_ok (Run.object_of_some h.has.object?)))
    · rw [Object.hasOwn, h.cls, ← h.isSome_own?_iff]
      rfl
  loop := by
    obtain ⟨inherited, hkeys, hinherited⟩ := h.enumerableKeys
    refine ⟨inherited, hinherited, ?_⟩
    rw [← hkeys]
    exact Run.bind_ok hrun
  scope frame := Run.bind_ok hrun
  found i := by
    simp only [h.find?_iff, ← Option.isSome_iff_exists, h.isSome_own?_iff]
    constructor
    · rintro ⟨j, hj, heq⟩
      exact ofNat_injective heq ▸ hj
    · exact fun hi => ⟨i, hi, rfl⟩

/-- A string and its wrapper. The wrapper is new and has the characters of the string for its own properties, under
their indices, and these are what is seen of it. The string itself has its UTF-16 units, whatever its bytes are. Both
are the same up to an index just if the characters before it take one unit each, and then they are the same values. -/
theorem wrapper_characters {t : Text} (hv : v.isString = true) (ht : w.realm.heap.text? v = some t) :
    ∃ r w₁, Run.toObject v w = .ok r w₁ ∧ w.Undisturbed w₁ ∧ ¬ w.realm.heap.Has r ∧
      w₁.Wraps r v (Text.scalars t) ∧ w.Shows w₁ v r (Text.scalars t).length ∧
      (∀ ev i, i < 2 ^ 32 - 1 → Run.getProperty ev v (Text.ofNat i) w₁ = (match Run.unitAt? t i with
        | some s => Run.intern s
        | none => Run.get ev w₁.realm.objectProto (Text.ofNat i) v) w₁) ∧
      (∀ i, (Run.unitAt? t i).isSome = true ↔ i < (Text.units t).length) ∧
      (Text.units t).length = (Text.scalars t).length + (Text.scalars t).countP (fun c => decide (0x10000 ≤ c)) ∧
      (∀ n, (∀ i < n, (Text.scalars t)[i]?.map Text.encodeChar = Run.unitAt? t i) ↔
        ∀ c ∈ (Text.scalars t).take n, c < 0x10000) ∧
      ∀ ev i s, i < 2 ^ 32 - 1 → (Text.scalars t)[i]?.map Text.encodeChar = some s → Run.unitAt? t i = some s →
        ∃ u, w₁.own? r (Text.ofNat i) = some (character u) ∧
          Run.getProperty ev v (Text.ofNat i) w₁ = .ok u w₁ := by
  obtain ⟨w₁, hrun, hw₁, hwraps⟩ := Run.toObject_of_isString hv (w := w)
  rw [Heap.text, ht, Option.getD_some] at hwraps
  have ht₁ := Heap.text?_mono hw₁.strings ht
  refine ⟨_, w₁, hrun, hw₁, not_has_new, hwraps, hwraps.shows hrun,
    fun ev i hi => Run.getProperty_of_isString hv ht₁ hi, fun i => Run.isSome_unitAt?, Text.length_units t,
    fun n => Run.characters_eq_units_iff, fun ev i s hi hs hunit => ?_⟩
  obtain ⟨c, hc, rfl⟩ := Option.map_eq_some_iff.1 hs
  obtain ⟨u, hu, hown⟩ := hwraps.characters i c hc
  refine ⟨u, hown, ?_⟩
  rw [Run.getProperty_of_isString hv ht₁ hi, hunit]
  exact Run.intern_of_string? hu

/-- A string with two characters and three units. -/
theorem wrapper_characters_astral : ∃ (w : World) (v : Value) (r : ObjectRef) (w₁ : World), v.isString = true ∧
    w.realm.heap.text? v = some (Text.ofString "a😀") ∧ Run.toObject v w = .ok r w₁ ∧
      (w₁.realm.heap.object r).keys = [Text.ofNat 0, Text.ofNat 1] ∧
      ∀ i, (Run.unitAt? (Text.ofString "a😀") i).isSome = true ↔ i < 3 := by
  have htext : ((blank ⟨0, 0, 0⟩).withHeap fun h => (h.intern "a😀").2).realm.heap.text? (Value.string 1) =
      some (Text.ofString "a😀") := by decide +kernel
  obtain ⟨r, w₁, hrun, -, -, hwraps, -, -, hunit, -⟩ := wrapper_characters (v := Value.string 1) (by decide) htext
  refine ⟨_, _, r, w₁, by decide, htext, hrun, ?_, ?_⟩
  · rw [hwraps.keys, show Text.scalars (Text.ofString "a😀") = [0x61, 0x1f600] by decide +kernel]
    rfl
  · rw [show Text.units (Text.ofString "a😀") = [0x61, 0xd83d, 0xde00] by decide +kernel] at hunit
    exact hunit

/-- The second half of a character is no property of the wrapper. -/
theorem wrapper_lacks_unit : ¬ ∀ (w : World) (v : Value) (t : Text), w.Arises → v.isString = true →
    w.realm.heap.text? v = some t → ∀ r w₁, Run.toObject v w = .ok r w₁ → ∀ i < 2 ^ 32 - 1,
      (w₁.own? r (Text.ofNat i)).isSome = true ↔ (Run.unitAt? t i).isSome = true := by
  intro h
  have harises : ((blank ⟨0, 0, 0⟩).withHeap fun h => (h.intern "😀").2).Arises := ⟨⟨0, 0, 0⟩, .single (.intern _)⟩
  obtain ⟨w₁, hrun, -, hwraps⟩ := Run.toObject_of_isString (v := Value.string 1)
    (w := (blank ⟨0, 0, 0⟩).withHeap fun h => (h.intern "😀").2) (by decide)
  have htext : ((blank ⟨0, 0, 0⟩).withHeap fun h => (h.intern "😀").2).realm.heap.text? (Value.string 1) =
      some (Text.ofString "😀") := by decide +kernel
  rw [Heap.text, htext, Option.getD_some] at hwraps
  have hhalf := (h _ _ _ harises (by decide) htext _ w₁ hrun 1 (by decide)).2 (by decide +kernel)
  rw [hwraps.isSome_own?_iff] at hhalf
  obtain ⟨i, hi, heq⟩ := hhalf
  obtain rfl := ofNat_injective heq
  exact absurd hi (by decide +kernel)

end World

end RegisterJit
