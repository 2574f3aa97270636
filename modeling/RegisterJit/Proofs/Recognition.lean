import RegisterJit.Proofs.Indices
import RegisterJit.Proofs.Scanners

/-!
# Decimal literals are recognised

A decimal literal is a mantissa, which is digits with a point somewhere or nowhere, and perhaps an exponent. Going
through a text by index, with the number of digits and whether a point and an exponent were seen, accepts just
these and never leaves the text, not even where the sign of an exponent is looked for.

The recogniser of the model is a recursion over the bytes; the one that scans goes by index and could ask for a
byte behind the end. `scanDecimal` is the latter, with a fault for every access outside the text. `signAfter?`
is the one place where it looks ahead. That it does not fault and answers what the recursion answers is by
induction on what is left of the text, and `isDecimalFrom_exponent_cons` and its neighbours compare the
recursion with the grammar, phase by phase. `decimals_recognised` states both comparisons for every text.
-/

namespace RegisterJit

/-! ## The grammar -/

def IsDigits (t : Text) : Prop := ∀ b ∈ t, Text.isDigit b = true

/-- A literal before its exponent: digits, perhaps with a point and more digits after them, or a point and digits. -/
inductive IsMantissa : Text → Prop
  | whole {ds : Text} (ne_nil : ds ≠ []) (digits : IsDigits ds) : IsMantissa ds
  | pointed {ds fs : Text} (ne_nil : ds ≠ []) (digits : IsDigits ds) (fraction : IsDigits fs) :
    IsMantissa (ds ++ 0x2e :: fs)
  | fraction {fs : Text} (ne_nil : fs ≠ []) (digits : IsDigits fs) : IsMantissa (0x2e :: fs)

/-- An exponent: nothing, or its mark, perhaps a sign, and digits. -/
inductive IsExponent : Text → Prop
  | absent : IsExponent []
  | written {mark : UInt8} {sign ds : Text} (mark_eq : mark = 0x65 ∨ mark = 0x45)
    (sign_eq : sign = [] ∨ sign = [0x2b] ∨ sign = [0x2d]) (ne_nil : ds ≠ []) (digits : IsDigits ds) :
    IsExponent (mark :: (sign ++ ds))

/-- A mantissa, an exponent and nothing else. -/
def IsDecimal (t : Text) : Prop := ∃ m e, IsMantissa m ∧ IsExponent e ∧ t = m ++ e

/-! ## Going by index -/

/-- The index of the sign after the mark of an exponent, or that of the mark if there is none; nothing if a byte is
asked for that is not there. -/
def signAfter? (t : Text) (i : Nat) : Option Nat :=
  if i + 1 < t.length then
    match t[i + 1]? with
    | none => none
    | some c => if c = 0x2b ∨ c = 0x2d then some (i + 1) else some i
  else some i

theorem le_signAfter? {t : Text} {i k : Nat} (h : signAfter? t i = some k) : i ≤ k := by
  unfold signAfter? at h
  split at h
  · split at h
    · cases h
    · split at h <;> cases h <;> omega
  · cases h
    exact Nat.le_refl _

/-- Whether a text is a decimal literal from an index on, given how many digits there were before and whether there
was a point and an exponent; nothing if a byte is asked for that is not there. -/
def scanDecimal (t : Text) (digits : Nat) (point exponent : Bool) (i : Nat) : Option Bool :=
  if i < t.length then
    match t[i]? with
    | none => none
    | some b =>
      if Text.isDigit b then scanDecimal t (digits + 1) point exponent (i + 1)
      else if b = 0x2e ∧ point = false ∧ exponent = false then scanDecimal t digits true exponent (i + 1)
      else if (b = 0x65 ∨ b = 0x45) ∧ exponent = false ∧ 0 < digits then
        match h : signAfter? t i with
        | none => none
        | some k => if t.length ≤ k + 1 then some false else scanDecimal t digits point true (k + 1)
      else some false
  else some (decide (0 < digits))
termination_by t.length - i
decreasing_by
  · omega
  · omega
  · have := le_signAfter? h
    omega

/-! ### Both ways agree -/

open Text (drop_eq_cons getElem?_ne_none)
open Double (digitsText)

section

variable {b : UInt8} {digits : Nat} {point exponent : Bool}

theorem isDecimalFrom_point (digits : Nat) (rest : Text) :
    isDecimalFrom ⟨digits, false, false, false, false⟩ (0x2e :: rest) =
      isDecimalFrom ⟨digits, true, false, false, false⟩ rest := by
  rw [isDecimalFrom, if_neg (by decide), if_neg (by simp), if_pos (by simp)]

theorem isDecimalFrom_started (hb : b = 0x65 ∨ b = 0x45) (hdigits : 0 < digits) (point : Bool) (rest : Text) :
    isDecimalFrom ⟨digits, point, false, false, false⟩ (b :: rest) =
      isDecimalFrom ⟨digits, point, true, true, true⟩ rest := by
  have hnodigit : ¬ Text.isDigit b = true := by rcases hb with rfl | rfl <;> decide
  have hnopoint : b ≠ 0x2e := by rcases hb with rfl | rfl <;> decide
  rw [isDecimalFrom, if_neg hnodigit, if_neg (by simp), if_neg (by simp [hnopoint]), if_pos (by simp [hb, hdigits])]

theorem isDecimalFrom_refused (hdigit : ¬ Text.isDigit b = true)
    (hpoint : ¬ (b = 0x2e ∧ point = false ∧ exponent = false))
    (hmark : ¬ ((b = 0x65 ∨ b = 0x45) ∧ exponent = false ∧ 0 < digits)) (rest : Text) :
    isDecimalFrom ⟨digits, point, exponent, false, false⟩ (b :: rest) = false := by
  rw [isDecimalFrom, if_neg hdigit, if_neg (by simp), if_neg (by simpa using hpoint), if_neg (by simpa using hmark)]

/-- In an exponent only digits follow, so what was left to be seen shows at the next byte. -/
theorem isDecimalFrom_exponent_cons {atSign unfinished : Bool} (hsign : atSign = true → ¬ (b = 0x2b ∨ b = 0x2d))
    (rest : Text) : isDecimalFrom ⟨digits, point, true, atSign, unfinished⟩ (b :: rest) =
      isDecimalFrom ⟨digits, point, true, false, false⟩ (b :: rest) := by
  by_cases hb : Text.isDigit b = true
  · rw [isDecimalFrom, if_pos hb, isDecimalFrom, if_pos hb]
  · rw [isDecimalFrom, if_neg hb, if_neg (fun h => hsign h.1 h.2), if_neg (by simp), if_neg (by simp),
      isDecimalFrom_refused hb (by simp) (by simp)]

end

theorem signAfter?_ne_none (t : Text) (i : Nat) : signAfter? t i ≠ none := by
  unfold signAfter?
  split
  · next hi =>
    cases hc : t[i + 1]? with
    | none => exact absurd hc (getElem?_ne_none hi)
    | some c =>
      dsimp only
      split <;> exact Option.some_ne_none _
  · exact Option.some_ne_none _

/-- After the mark of an exponent its sign is passed, and there must be something more. -/
theorem isDecimalFrom_signAfter {t : Text} {i k : Nat} (h : signAfter? t i = some k) (digits : Nat) (point : Bool) :
    isDecimalFrom ⟨digits, point, true, true, true⟩ (t.drop (i + 1)) =
      if t.length ≤ k + 1 then false
      else isDecimalFrom ⟨digits, point, true, false, false⟩ (t.drop (k + 1)) := by
  cases hc : t[i + 1]? with
  | none =>
    have hend : t.length ≤ i + 1 := List.getElem?_eq_none_iff.1 hc
    rw [signAfter?, if_neg (Nat.not_lt.2 hend)] at h
    cases h
    rw [if_pos hend, List.drop_eq_nil_of_le hend]
    simp [isDecimalFrom]
  | some c =>
    have hi : i + 1 < t.length := (List.getElem?_eq_some_iff.1 hc).1
    rw [signAfter?, if_pos hi, hc] at h
    dsimp only at h
    rw [drop_eq_cons hc]
    by_cases hsign : c = 0x2b ∨ c = 0x2d
    · rw [if_pos hsign] at h
      cases h
      have hnodigit : ¬ Text.isDigit c = true := by rcases hsign with rfl | rfl <;> decide
      rw [isDecimalFrom, if_neg hnodigit, if_pos ⟨rfl, hsign⟩]
      cases hd : t[i + 1 + 1]? with
      | none =>
        have hend : t.length ≤ i + 1 + 1 := List.getElem?_eq_none_iff.1 hd
        rw [if_pos hend, List.drop_eq_nil_of_le hend]
        simp [isDecimalFrom]
      | some d =>
        have hmore : ¬ t.length ≤ i + 1 + 1 := Nat.not_le.2 (List.getElem?_eq_some_iff.1 hd).1
        rw [if_neg hmore, drop_eq_cons hd, isDecimalFrom_exponent_cons (by simp)]
    · rw [if_neg hsign] at h
      cases h
      rw [if_neg (Nat.not_le.2 hi), drop_eq_cons hc, isDecimalFrom_exponent_cons fun _ => hsign]

theorem scanDecimal_eq (t : Text) (digits : Nat) (point exponent : Bool) (i : Nat) :
    scanDecimal t digits point exponent i =
      some (isDecimalFrom ⟨digits, point, exponent, false, false⟩ (t.drop i)) := by
  induction digits, point, exponent, i using scanDecimal.induct t with
  | case1 digits point exponent i hi hnone => exact absurd hnone (getElem?_ne_none hi)
  | case2 digits point exponent i hi b hb hdigit ih =>
    rw [scanDecimal, if_pos hi, hb, drop_eq_cons hb]
    dsimp only
    rw [if_pos hdigit, ih, isDecimalFrom_of_digit hdigit]
  | case3 digits point exponent i hi b hb hdigit hpoint ih =>
    rw [scanDecimal, if_pos hi, hb, drop_eq_cons hb]
    dsimp only
    rw [if_neg hdigit, if_pos hpoint, ih]
    obtain ⟨rfl, rfl, rfl⟩ := hpoint
    rw [isDecimalFrom_point]
  | case4 digits point exponent i hi b hb hdigit hpoint hmark hnone => exact absurd hnone (signAfter?_ne_none t i)
  | case5 digits point exponent i hi b hb hdigit hpoint hmark k hk hend =>
    rw [scanDecimal, if_pos hi, hb, drop_eq_cons hb]
    dsimp only
    rw [if_neg hdigit, if_neg hpoint, if_pos hmark, hk]
    dsimp only
    rw [if_pos hend, hmark.2.1, isDecimalFrom_started hmark.1 hmark.2.2, isDecimalFrom_signAfter hk, if_pos hend]
  | case6 digits point exponent i hi b hb hdigit hpoint hmark k hk hend ih =>
    rw [scanDecimal, if_pos hi, hb, drop_eq_cons hb]
    dsimp only
    rw [if_neg hdigit, if_neg hpoint, if_pos hmark, hk]
    dsimp only
    rw [if_neg hend, ih, hmark.2.1, isDecimalFrom_started hmark.1 hmark.2.2, isDecimalFrom_signAfter hk,
      if_neg hend]
  | case7 digits point exponent i hi b hb hdigit hpoint hmark =>
    rw [scanDecimal, if_pos hi, hb, drop_eq_cons hb]
    dsimp only
    rw [if_neg hdigit, if_neg hpoint, if_neg hmark, isDecimalFrom_refused hdigit hpoint hmark]
  | case8 digits point exponent i hi =>
    rw [scanDecimal, if_neg hi, List.drop_eq_nil_of_le (Nat.not_lt.1 hi), isDecimalFrom]
    simp

/-! ## The grammar is what is accepted -/

theorem isDigits_digitsText {ds : List Nat} (h : ∀ d ∈ ds, d < 10) : IsDigits (digitsText ds) := by
  intro b hb
  obtain ⟨d, hd, rfl⟩ := List.mem_map.1 hb
  exact isDigit_digitByte (h d hd)

theorem IsDigits.exists_values {t : Text} (h : IsDigits t) :
    ∃ ds : List Nat, (∀ d ∈ ds, d < 10) ∧ digitsText ds = t := by
  refine ⟨t.map Text.digitValue, ?_, digitsText_map_digitValue (List.all_eq_true.2 h)⟩
  intro d hd
  obtain ⟨b, hb, rfl⟩ := List.mem_map.1 hd
  exact (Double.digitByte_digitValue b (h b hb)).2

theorem digitsText_ne_nil {ds : List Nat} : digitsText ds ≠ [] ↔ ds ≠ [] := not_congr List.map_eq_nil_iff

namespace DecimalLiteral

theorem isExponent_exponentText (e : Option LiteralExponent) : IsExponent (exponentText e) := by
  cases e with
  | none => exact .absent
  | some e =>
    refine .written e.mark_cases ?_ (digitsText_ne_nil.2 e.ne_nil) (isDigits_digitsText e.digit)
    cases e.sign with
    | none => exact .inl rfl
    | plus => exact .inr (.inl rfl)
    | minus => exact .inr (.inr rfl)

theorem isMantissa (l : DecimalLiteral) : IsMantissa (digitsText l.whole ++ pointText l.fraction) := by
  have hdigits := List.forall_mem_append.1 l.digit
  have hne := l.ne_nil
  have hwhole := isDigits_digitsText hdigits.1
  cases hf : l.fraction with
  | none =>
    rw [hf, Option.getD_none, List.append_nil] at hne
    rw [pointText, List.append_nil]
    exact .whole (digitsText_ne_nil.2 hne) hwhole
  | some fs =>
    rw [hf] at hdigits hne
    have hfraction : IsDigits (digitsText fs) := isDigits_digitsText hdigits.2
    by_cases hnil : l.whole = []
    · rw [hnil, Option.getD_some, List.nil_append] at hne
      rw [hnil]
      exact .fraction (digitsText_ne_nil.2 hne) hfraction
    · exact .pointed (digitsText_ne_nil.2 hnil) hwhole hfraction

end DecimalLiteral

theorem IsExponent.exists_literal {e : Text} (h : IsExponent e) :
    ∃ x : Option LiteralExponent, DecimalLiteral.exponentText x = e := by
  cases h with
  | absent => exact ⟨none, rfl⟩
  | @written mark sign t hmark hsign hne hdigits =>
    obtain ⟨ds, hds, rfl⟩ := hdigits.exists_values
    obtain ⟨s, rfl⟩ : ∃ s : NumeralSign, s.text = sign := by
      rcases hsign with rfl | rfl | rfl
      · exact ⟨.none, rfl⟩
      · exact ⟨.plus, rfl⟩
      · exact ⟨.minus, rfl⟩
    refine ⟨some ⟨mark == 0x45, s, ds, hds, digitsText_ne_nil.1 hne⟩, ?_⟩
    rcases hmark with rfl | rfl <;> rfl

theorem IsMantissa.exists_literal {m : Text} (h : IsMantissa m) :
    ∃ (whole : List Nat) (fraction : Option (List Nat)), (∀ d ∈ whole ++ fraction.getD [], d < 10) ∧
      whole ++ fraction.getD [] ≠ [] ∧ digitsText whole ++ DecimalLiteral.pointText fraction = m := by
  cases h with
  | whole hne hdigits =>
    obtain ⟨ds, hds, rfl⟩ := hdigits.exists_values
    refine ⟨ds, none, ?_, ?_, ?_⟩
    · simpa using hds
    · simpa using digitsText_ne_nil.1 hne
    · rw [DecimalLiteral.pointText, List.append_nil]
  | pointed hne hdigits hfraction =>
    obtain ⟨ds, hds, rfl⟩ := hdigits.exists_values
    obtain ⟨fs, hfs, rfl⟩ := hfraction.exists_values
    refine ⟨ds, some fs, List.forall_mem_append.2 ⟨hds, hfs⟩, ?_, rfl⟩
    intro hnil
    exact digitsText_ne_nil.1 hne (List.append_eq_nil_iff.1 hnil).1
  | fraction hne hdigits =>
    obtain ⟨fs, hfs, rfl⟩ := hdigits.exists_values
    exact ⟨[], some fs, hfs, digitsText_ne_nil.1 hne, rfl⟩

theorem isDecimal_iff (t : Text) : IsDecimal t ↔ ∃ l : DecimalLiteral, l.text = t := by
  constructor
  · rintro ⟨m, e, hm, he, rfl⟩
    obtain ⟨whole, fraction, hdigits, hne, rfl⟩ := hm.exists_literal
    obtain ⟨x, rfl⟩ := he.exists_literal
    exact ⟨⟨whole, fraction, x, hdigits, hne⟩, (List.append_assoc ..).symm⟩
  · rintro ⟨l, rfl⟩
    exact ⟨_, _, l.isMantissa, DecimalLiteral.isExponent_exponentText l.exponent, (List.append_assoc ..).symm⟩

/-- Decimal literals are recognised. Going through a text by index ends inside it, with the answer that the text is
a decimal literal or that it is none, and it is one just if it is a mantissa and an exponent by the grammar. -/
theorem decimals_recognised (t : Text) :
    scanDecimal t 0 false false 0 = some (isDecimalLiteral t) ∧ (isDecimalLiteral t = true ↔ IsDecimal t) := by
  constructor
  · rw [scanDecimal_eq, List.drop_zero, isDecimalLiteral]
  · rw [isDecimal_iff]
    exact isDecimalLiteral_iff t

/-- A point needs a digit on one of its sides, and an exponent needs one of its own. -/
example : isDecimalLiteral (Text.ofString ".5e-3") = true ∧ isDecimalLiteral (Text.ofString "5.e3") = true ∧
    isDecimalLiteral (Text.ofString ".") = false ∧ isDecimalLiteral (Text.ofString "1e+") = false ∧
    isDecimalLiteral (Text.ofString ".e1") = false := by decide

end RegisterJit
