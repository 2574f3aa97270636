import RegisterJit.Proofs.Wrappers

/-!
# Interned strings

A text is in the table of strings once, at the place that its handle says, and stays there. So a string has one value
for as long as the realm lasts, and values of strings are equal just if their texts are. Handle zero is no string's.

`Canonical` is the invariant of a table: no text stands in it at two places. It holds of the empty table,
interning keeps it, and nothing else changes the table. So `handle?_iff` and `string?_eq_some_iff` describe
handles and values by the texts of the table alone, and a handle that was given out designates its text in every
later world. `Provenance` adds that there is no other source of strings, and the module `Canonical` draws the
conclusion for values that compiled code compares as words.
-/

namespace RegisterJit

/-! ## Values of strings -/

namespace Value

variable {i : UInt32}

theorem handle_string (i : UInt32) : (string i).handle = i := by
  have hlt := i.toNat_lt
  apply UInt32.toNat_inj.1
  rw [handle, UInt64.toNat_toUInt32, UInt64.toNat_shiftRight, toNat_string, Nat.shiftRight_eq_div_pow]
  change (16 * i.toNat + 8) / 16 % 2 ^ 32 = i.toNat
  omega

theorem isString_string (i : UInt32) : (string i).isString = Bool.true := by
  have hlt := i.toNat_lt
  rw [isString_iff, toNat_string]
  omega

end Value

namespace Heap

variable {h h' : Heap} {s t : Text} {i j : Nat} {u v : Value}

/-! ## The table -/

def textAt? (h : Heap) (i : Nat) : Option Text := h.strings[i]?.map InternedText.text

/-- No text stands at two places. -/
def Canonical (h : Heap) : Prop :=
  ∀ (i j : Nat) (t : Text), h.textAt? i = some t → h.textAt? j = some t → i = j

theorem lt_of_textAt? (ht : h.textAt? i = some t) : i < h.strings.size := by
  obtain ⟨s, hs, -⟩ := Option.map_eq_some_iff.1 ht
  exact (Array.getElem?_eq_some_iff.1 hs).1

theorem handle?_eq_some_iff (hh : h.Canonical) :
    h.handle? (InternedText.ofText t) = some (i + 1) ↔ h.textAt? i = some t := by
  rw [handle?, Option.map_eq_some_iff]
  constructor
  · rintro ⟨j, hj, heq⟩
    obtain rfl : j = i := Nat.succ.inj heq
    obtain ⟨hlt, hsame, -⟩ := Array.findIdx?_eq_some_iff_getElem.1 hj
    rw [textAt?, Array.getElem?_eq_getElem hlt, Option.map_some, (InternedText.same_iff_text_eq _ _).1 hsame]
    rfl
  · intro ht
    have hlt := lt_of_textAt? ht
    refine ⟨i, Array.findIdx?_eq_some_iff_getElem.2 ⟨hlt, ?_, fun j hj hsame => ?_⟩, rfl⟩
    · rw [textAt?, Array.getElem?_eq_getElem hlt, Option.map_some] at ht
      exact (InternedText.same_iff_text_eq _ _).2 (Option.some.inj ht)
    · have hj' : h.textAt? j = some t := by
        rw [textAt?, Array.getElem?_eq_getElem (Nat.lt_trans hj hlt), Option.map_some,
          (InternedText.same_iff_text_eq _ _).1 hsame]
        rfl
      exact Nat.ne_of_lt hj (hh _ _ _ hj' ht)

theorem handle?_ne_zero (s : InternedText) : h.handle? s ≠ some 0 := by
  intro hzero
  obtain ⟨_, _, heq⟩ := Option.map_eq_some_iff.1 hzero
  exact Nat.succ_ne_zero _ heq

theorem textAt?_ne_of_handle? (hnone : h.handle? (InternedText.ofText t) = none) : h.textAt? i ≠ some t := by
  intro ht
  have hlt := lt_of_textAt? ht
  rw [textAt?, Array.getElem?_eq_getElem hlt, Option.map_some] at ht
  have hall := Array.findIdx?_eq_none_iff.1 (Option.map_eq_none_iff.1 hnone) _ (Array.getElem_mem hlt)
  rw [(InternedText.same_iff_text_eq _ _).2 (Option.some.inj ht)] at hall
  cases hall

theorem textAt?_intern (hnone : h.handle? (InternedText.ofText t) = none) :
    (h.intern t).2.textAt? i = if i = h.strings.size then some t else h.textAt? i := by
  rw [intern, hnone, textAt?, Array.getElem?_push]
  split <;> rfl

theorem Canonical.intern (hh : h.Canonical) (t : Text) : (h.intern t).2.Canonical := by
  cases hhandle : h.handle? (InternedText.ofText t) with
  | some i =>
    rw [Heap.intern, hhandle]
    exact hh
  | none =>
    intro i j s hi hj
    rw [textAt?_intern hhandle] at hi hj
    split at hi
    · split at hj
      · omega
      · cases hi
        exact absurd hj (textAt?_ne_of_handle? hhandle)
    · split at hj
      · cases hj
        exact absurd hi (textAt?_ne_of_handle? hhandle)
      · exact hh _ _ _ hi hj

/-! ## Texts of values -/

theorem text?_string {n : UInt32} (hn : n.toNat = i + 1) : h.text? (Value.string n) = h.textAt? i := by
  rw [text?, Value.handle_string, hn, textAt?]

/-- The table from handles to texts and the one from texts to handles are inverse, but for handle zero. -/
theorem handle?_iff (hh : h.Canonical) (n : UInt32) :
    h.handle? (InternedText.ofText t) = some n.toNat ↔ n ≠ 0 ∧ h.text? (Value.string n) = some t := by
  cases hn : n.toNat with
  | zero =>
    have hzero : n = 0 := UInt32.toNat_inj.1 hn
    exact iff_of_false (handle?_ne_zero _) fun hne => hne.1 hzero
  | succ i =>
    have hne : n ≠ 0 := by
      rintro rfl
      cases hn
    rw [handle?_eq_some_iff hh, text?_string hn]
    exact (and_iff_right hne).symm

theorem strictEquals_of_isString (hv : v.isString = true) (hu : u.isString = true) :
    strictEquals v u = decide (v = u) := by
  have hempty {x : Value} (hx : x.isString = true) : x.isEmpty = false := by
    have := (Value.isString_iff.1 hx).2
    rw [← Bool.not_eq_true, Value.isEmpty_iff]
    omega
  have hnumber : (v.isNumber && u.isNumber) = false := by
    have := (Value.isString_iff.1 hv).1
    rw [Bool.and_eq_false_iff, ← Bool.not_eq_true, Value.isNumber_iff]
    omega
  rw [strictEquals, hnumber, if_neg Bool.false_ne_true, hempty hv, hempty hu]
  rfl

section

variable (hh : h.Canonical) (hsize : h.strings.size < 2 ^ 32)

include hh hsize

/-- While handles can tell the texts apart, the value of a text is the one that has it, other than by handle zero. -/
theorem string?_eq_some_iff : h.string? t = some v ↔
    ∃ n : UInt32, v = Value.string n ∧ n ≠ 0 ∧ h.text? v = some t := by
  constructor
  · intro ht
    obtain ⟨k, hk, rfl⟩ := Option.map_eq_some_iff.1 ht
    have hfits : k.toUInt32.toNat = k := by
      cases k with
      | zero => rfl
      | succ i =>
        have hlt := lt_of_textAt? ((handle?_eq_some_iff hh).1 hk)
        rw [Nat.toUInt32_eq, UInt32.toNat_ofNat', Nat.mod_eq_of_lt (by omega)]
    rw [← hfits] at hk
    exact ⟨_, rfl, (handle?_iff hh _).1 hk⟩
  · rintro ⟨n, rfl, hn⟩
    rw [string?, (handle?_iff hh n).2 hn, Option.map_some, Nat.toUInt32_eq, UInt32.ofNat_toNat]

theorem isString_of_string? (ht : h.string? t = some v) : v.isString = true := by
  obtain ⟨n, rfl, -⟩ := (string?_eq_some_iff hh hsize).1 ht
  exact Value.isString_string n

theorem text?_of_string? (ht : h.string? t = some v) : h.text? v = some t := by
  obtain ⟨_, _, _, htext⟩ := (string?_eq_some_iff hh hsize).1 ht
  exact htext

theorem string?_inj (ht : h.string? t = some v) (hs : h.string? s = some u) : v = u ↔ t = s := by
  constructor
  · rintro rfl
    exact Option.some.inj ((text?_of_string? hh hsize ht).symm.trans (text?_of_string? hh hsize hs))
  · rintro rfl
    exact Option.some.inj (ht.symm.trans hs)

theorem strictEquals_string? (ht : h.string? t = some v) (hs : h.string? s = some u) :
    strictEquals v u = decide (t = s) := by
  rw [strictEquals_of_isString (isString_of_string? hh hsize ht) (isString_of_string? hh hsize hs)]
  exact decide_eq_decide.2 (string?_inj hh hsize ht hs)

end

end Heap

namespace World

variable {m : Moment} {w w₁ : World} {t : Text} {v : Value}

/-! ## Runs -/

theorem Change.strings (h : w.Change m w₁) : w.realm.heap.strings.toList <+: w₁.realm.heap.strings.toList := by
  cases h with
  | intern t => exact Heap.strings_intern ..
  | construct r | content r | iterate _ r | add r | assign r | delete r | literal _ _ r | redeclare _ _ r =>
    cases r <;> exact List.prefix_refl _
  | machine | print | leave | install | create | enter | enterSlots | bind | unbind | write | settle | reset | name =>
    exact List.prefix_refl _

theorem Evolves.strings (h : Evolves m w w₁) : w.realm.heap.strings.toList <+: w₁.realm.heap.strings.toList := by
  induction h with
  | refl => exact List.prefix_refl _
  | tail _ hchange ih => exact ih.trans hchange.strings

theorem Change.canonical (h : w.Change m w₁) (hw : w.realm.heap.Canonical) : w₁.realm.heap.Canonical := by
  cases h with
  | intern t => exact hw.intern t
  | construct r | content r | iterate _ r | add r | assign r | delete r | literal _ _ r | redeclare _ _ r =>
    cases r <;> exact hw
  | machine | print | leave | install | create | enter | enterSlots | bind | unbind | write | settle | reset | name =>
    exact hw

theorem Evolves.canonical (h : Evolves m w w₁) (hw : w.realm.heap.Canonical) : w₁.realm.heap.Canonical := by
  induction h with
  | refl => exact hw
  | tail _ hchange ih => exact hchange.canonical ih

theorem Arises.canonical (h : w.Arises) : w.realm.heap.Canonical := by
  obtain ⟨config, hevolves⟩ := h
  refine hevolves.canonical fun _ _ _ hi => ?_
  cases hi

theorem Change.string?_eq (h : w.Change m w₁) (ht : w.realm.heap.string? t = some v) :
    w₁.realm.heap.string? t = some v := by
  cases h with
  | intern s => exact Heap.string?_intern ht s
  | construct r | content r | iterate _ r | add r | assign r | delete r | literal _ _ r | redeclare _ _ r =>
    exact (Heap.string?_modify ..).trans ht
  | machine | print | leave | install | create | enter | enterSlots | bind | unbind | write | settle | reset | name =>
    exact ht

theorem Evolves.string?_eq (h : Evolves m w w₁) (ht : w.realm.heap.string? t = some v) :
    w₁.realm.heap.string? t = some v := by
  induction h with
  | refl => exact ht
  | tail _ hchange ih => exact hchange.string?_eq ih

end World

end RegisterJit
