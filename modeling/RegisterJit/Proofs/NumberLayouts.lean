import RegisterJit.Proofs.DecimalLiterals
import RegisterJit.Proofs.Decimals

/-!
# The layouts of numbers

A number is shown by digits, perhaps with a point among them or an exponent after them, in one of four layouts, by
the place of the point among its shortest digits. Every layout is a decimal literal of these digits, so that it is
read back as the number.

`Written` is the syntax of what is shown, and `Written.Sound` says that the digits are digits and no part is empty.
Such a text is read by the exact reader, and `Sound.stringToNumber_eq` gives the number: the decimal of its digits
and its scale, rounded.

The layout depends on the number of digits and on the exponent: zeros at the end of an integer, a point inside,
a point before zeros, or an exponent. `Prescribed` says which of them is due, and `Writes` that a written
decimal is that of the digits. `exists_fraction` is the step that layouts with a point after the first digit
have in common, and `scriptText_spec` the result for finite doubles. With the shortest digits, which are rounded
to the double that they were made from, `shown_reads_back` follows for every double; the special values are read
back by themselves.
-/

namespace RegisterJit

open Text (digitByte)

namespace Double

theorem zeros_eq (z : Nat) : zeros z = digitsText (List.replicate z 0) :=
  (List.map_replicate (f := digitByte) (a := 0)).symm

theorem ofNat_eq_digitsText (n : Nat) : Text.ofNat n = digitsText (decimalDigits n) := by
  induction n using Nat.strongRecOn with
  | ind n ih =>
    rcases Nat.lt_or_ge n 10 with hn | hn
    · rw [Text.ofNat_of_lt hn, decimalDigits_of_lt hn]
      rfl
    · rw [Text.ofNat_of_le hn, decimalDigits_of_le hn, ih (n / 10) (by omega), digitsText_append]
      rfl

theorem decimalDigits_ne_nil (n : Nat) : decimalDigits n ≠ [] := by
  rcases Nat.lt_or_ge n 10 with hn | hn
  · rw [decimalDigits_of_lt hn]
    exact List.cons_ne_nil _ _
  · rw [decimalDigits_of_le hn]
    exact List.append_ne_nil_of_right_ne_nil _ (List.cons_ne_nil _ _)

/-! ## Written decimals -/

/-- A decimal as it is written: digits, the digits after a point if there is one, and an exponent if there is
one. -/
structure Written where
  whole : List Nat
  fraction : Option (List Nat)
  exponent : Option Int

namespace Written

def fractionText (w : Written) : Text :=
  match w.fraction with
  | none => []
  | some ds => 0x2e :: digitsText ds

def exponentText (w : Written) : Text :=
  match w.exponent with
  | none => []
  | some e => 0x65 :: (if e < 0 then 0x2d else 0x2b) :: Text.ofNat e.natAbs

def text (w : Written) : Text := digitsText w.whole ++ (w.fractionText ++ w.exponentText)

def digits (w : Written) : List Nat := w.whole ++ w.fraction.getD []

def scale (w : Written) : Int := w.exponent.getD 0 - (w.fraction.getD []).length

/-- There are digits on both sides of the point, and the exponent is small. -/
structure Sound (w : Written) : Prop where
  digit : ∀ d ∈ w.digits, d < 10
  whole : w.whole ≠ []
  fraction : w.fraction ≠ some []
  exponent : (w.exponent.getD 0).natAbs < 100000

variable {w : Written}

/-! ## Literals -/

def signText (negative : Bool) : Text := if negative then [0x2d] else []

theorem signText_eq (negative : Bool) :
    signText negative = (if negative then NumeralSign.minus else .none).text := by
  cases negative <;> rfl

/-- The exponent of a number that is shown. -/
def shownExponent (e : Int) : LiteralExponent where
  capital := false
  sign := if e < 0 then .minus else .plus
  digits := decimalDigits e.natAbs
  digit _ := lt_of_mem_decimalDigits
  ne_nil := decimalDigits_ne_nil _

theorem value_shownExponent (e : Int) : (shownExponent e).value = e := by
  have hdigits : numberOf (shownExponent e).digits = e.natAbs := numberOf_decimalDigits _
  have hsign : (shownExponent e).sign.negative = decide (e < 0) := by
    rw [shownExponent]
    by_cases he : e < 0 <;> simp [he, NumeralSign.negative]
  rw [LiteralExponent.value, hdigits, hsign]
  simp only [decide_eq_true_eq]
  split <;> omega

theorem text_shownExponent (e : Int) : (shownExponent e).text =
    0x65 :: (if e < 0 then 0x2d else 0x2b) :: Text.ofNat e.natAbs := by
  rw [LiteralExponent.text, ofNat_eq_digitsText, shownExponent]
  dsimp only
  split <;> rfl

def Sound.literal (h : w.Sound) : DecimalLiteral where
  whole := w.whole
  fraction := w.fraction
  exponent := w.exponent.map shownExponent
  digit := h.digit
  ne_nil := List.append_ne_nil_of_left_ne_nil h.whole _

theorem Sound.text_literal (h : w.Sound) : h.literal.text = w.text := by
  have hfraction : DecimalLiteral.pointText w.fraction = w.fractionText := by
    rw [fractionText]
    cases w.fraction <;> rfl
  have hexponent : DecimalLiteral.exponentText (w.exponent.map shownExponent) = w.exponentText := by
    rw [exponentText]
    cases w.exponent with
    | none => rfl
    | some e => exact text_shownExponent e
  rw [DecimalLiteral.text, text, ← hfraction, ← hexponent]
  rfl

theorem Sound.power_literal (h : w.Sound) : h.literal.power = w.exponent.getD 0 := by
  rw [DecimalLiteral.power, literal]
  cases w.exponent with
  | none => rfl
  | some e => exact value_shownExponent e

theorem Sound.pattern_literal (h : w.Sound) : h.literal.pattern =
    if numberOf w.digits = 0 then 0 else ofDecimal (numberOf w.digits) w.scale := by
  rw [DecimalLiteral.pattern, DecimalLiteral.scale, h.power_literal]
  rfl

/-- A text of a written decimal stands for the number to which the decimal is rounded. -/
theorem Sound.stringToNumber_eq (h : w.Sound) (negative : Bool) {m : Nat}
    (hm : (if numberOf w.digits = 0 then 0 else ofDecimal (numberOf w.digits) w.scale) = m)
    (hfinite : m < infinityMagnitude) :
    stringToNumber (signText negative ++ w.text) = ofMagnitude negative m := by
  have hpower : h.literal.power.natAbs < 100000 := by
    rw [h.power_literal]
    exact h.exponent
  rw [signText_eq, ← h.text_literal]
  generalize hsign : (if negative then NumeralSign.minus else .none) = sign
  have hnegative : sign.negative = negative := by
    rw [← hsign]
    cases negative <;> rfl
  have hparse := h.literal.parse_eq sign hpower
  rw [h.pattern_literal, hm, if_neg hfinite.ne, hnegative] at hparse
  rw [stringToNumber, stringToNumberWith, h.literal.trim_text sign, trimmedNumber_literal, parseFloat, hparse]
  rfl

end Written

/-! ## Layouts -/

theorem length_digitsText (ds : List Nat) : (digitsText ds).length = ds.length := List.length_map _

theorem slice?_digitsText {ds : List Nat} {i j : Int} (hi : 0 ≤ i) (hij : i ≤ j) (hj : j ≤ ds.length) :
    slice? (digitsText ds) i j = some (digitsText ((ds.take j.toNat).drop i.toNat)) := by
  rw [slice?, length_digitsText, if_pos ⟨hi, hij, hj⟩]
  simp only [digitsText, List.map_take, List.map_drop]

/-- The layout that the language prescribes for the digits of a number `0.d₁d₂…dₖ × 10 ^ n`. -/
structure Prescribed (ds : List Nat) (n : Int) (t : Text) : Prop where
  whole : ds.length ≤ n → n ≤ 21 → t = digitsText ds ++ zeros (n - ds.length).toNat
  inside : 0 < n → n < ds.length → n ≤ 21 →
    t = digitsText (ds.take n.toNat) ++ [0x2e] ++ digitsText (ds.drop n.toNat)
  leading : -6 < n → n ≤ 0 → t = Text.ofString "0." ++ zeros (-n).toNat ++ digitsText ds
  exponential : 21 < n ∨ n ≤ -6 →
    t = pointAfterFirst ds ++ [0x65, if n ≤ 0 then 0x2d else 0x2b] ++ Text.ofNat (n - 1).natAbs

/-- A written decimal is that of some digits. -/
structure Writes (ds : List Nat) (n : Int) (w : Written) : Prop where
  sound : w.Sound
  nonzero : numberOf w.digits ≠ 0
  reads : ofDecimal (numberOf w.digits) w.scale = ofDecimal (numberOf ds) (n - ds.length)

section

variable {ds : List Nat} {n : Int} (hdigit : ∀ d ∈ ds, d < 10) (hnumber : numberOf ds ≠ 0) (hne : ds ≠ [])
include hdigit hnumber hne

theorem layout_whole (hlow : ds.length ≤ n) (hhigh : n ≤ 21) :
    ∃ w, Writes ds n w ∧ scriptLayout? (digitsText ds) n = some w.text ∧
      w.text = digitsText ds ++ zeros (n - ds.length).toNat := by
  obtain ⟨z, rfl⟩ : ∃ z : Nat, n = ds.length + z := ⟨(n - ds.length).toNat, by omega⟩
  have htext : (⟨ds ++ List.replicate z 0, none, none⟩ : Written).text =
      digitsText ds ++ zeros ((ds.length : Int) + z - ds.length).toNat := by
    rw [Written.text, Written.fractionText, Written.exponentText, digitsText_append, ← zeros_eq]
    simp
  have hvalue : numberOf (ds ++ List.replicate z 0) = numberOf ds * 10 ^ z := by
    rw [numberOf_append, numberOf_zeros, List.length_replicate, Nat.add_zero]
  refine ⟨⟨ds ++ List.replicate z 0, none, none⟩, ⟨⟨?_, ?_, ?_, ?_⟩, ?_, ?_⟩, ?_, htext⟩
  · intro d hd
    simp only [Written.digits, Option.getD_none, List.append_nil, List.mem_append] at hd
    rcases hd with hd | hd
    · exact hdigit d hd
    · rw [List.eq_of_mem_replicate hd]
      decide
  · exact List.append_ne_nil_of_left_ne_nil hne _
  · simp
  · simp
  · rw [Written.digits]
    simpa [hvalue] using hnumber
  · rw [Written.digits, Written.scale]
    dsimp only
    rw [Option.getD_none, List.append_nil, hvalue, ofDecimal, ofDecimal, if_pos (by simp), if_pos (by omega)]
    simp
  · rw [scriptLayout?, length_digitsText]
    dsimp only
    rw [if_pos ⟨hlow, hhigh⟩, zeros?, if_pos (by omega), htext]
    rfl

omit hne in
theorem layout_inside (hpos : 0 < n) (hlt : n < ds.length) (hhigh : n ≤ 21) :
    ∃ w, Writes ds n w ∧ scriptLayout? (digitsText ds) n = some w.text ∧
      w.text = digitsText (ds.take n.toNat) ++ [0x2e] ++ digitsText (ds.drop n.toNat) := by
  have htext : (⟨ds.take n.toNat, some (ds.drop n.toNat), none⟩ : Written).text =
      digitsText (ds.take n.toNat) ++ [0x2e] ++ digitsText (ds.drop n.toNat) := by
    rw [Written.text, Written.fractionText, Written.exponentText]
    simp
  have hdigits : (⟨ds.take n.toNat, some (ds.drop n.toNat), none⟩ : Written).digits = ds :=
    List.take_append_drop _ _
  refine ⟨⟨ds.take n.toNat, some (ds.drop n.toNat), none⟩, ⟨⟨by rwa [hdigits], ?_, ?_, by simp⟩, ?_, ?_⟩, ?_,
    htext⟩
  · simp only [ne_eq, List.take_eq_nil_iff, not_or]
    exact ⟨by omega, by rintro rfl; simp at hlt; omega⟩
  · simp only [ne_eq, Option.some.injEq, List.drop_eq_nil_iff]
    omega
  · rwa [hdigits]
  · rw [hdigits, Written.scale]
    simp only [Option.getD_none, Option.getD_some, List.length_drop]
    congr 1
    omega
  · rw [scriptLayout?, length_digitsText]
    dsimp only
    rw [if_neg (by omega), if_pos ⟨hpos, hhigh⟩, slice?_digitsText le_rfl hpos.le hlt.le,
      slice?_digitsText hpos.le hlt.le le_rfl, htext]
    simp

omit hne in
theorem layout_leading (hlow : -6 < n) (hhigh : n ≤ 0) (hne : ds ≠ []) :
    ∃ w, Writes ds n w ∧ scriptLayout? (digitsText ds) n = some w.text ∧
      w.text = Text.ofString "0." ++ zeros (-n).toNat ++ digitsText ds := by
  have htext : (⟨[0], some (List.replicate (-n).toNat 0 ++ ds), none⟩ : Written).text =
      Text.ofString "0." ++ zeros (-n).toNat ++ digitsText ds := by
    have hpoint : Text.ofString "0." = [0x30, 0x2e] := by decide
    rw [Written.text, Written.fractionText, Written.exponentText, hpoint, zeros_eq]
    simp [digitsText]
  have hvalue : numberOf (0 :: (List.replicate (-n).toNat 0 ++ ds)) = numberOf ds := by
    rw [numberOf_cons, numberOf_append, numberOf_zeros]
    simp
  have hlength : ds.length ≠ 0 := fun h0 => hne (List.length_eq_zero_iff.1 h0)
  refine ⟨⟨[0], some (List.replicate (-n).toNat 0 ++ ds), none⟩, ⟨⟨?_, ?_, ?_, by simp⟩, ?_, ?_⟩, ?_, htext⟩
  · intro d hd
    simp only [Written.digits, Option.getD_some, List.mem_append, List.mem_singleton] at hd
    rcases hd with rfl | hd | hd
    · decide
    · rw [List.eq_of_mem_replicate hd]
      decide
    · exact hdigit d hd
  · exact List.cons_ne_nil _ _
  · simp [hne]
  · rw [Written.digits]
    simpa [hvalue] using hnumber
  · rw [Written.digits, Written.scale]
    simp only [Option.getD_some, Option.getD_none, List.singleton_append, hvalue, List.length_append,
      List.length_replicate]
    congr 1
    omega
  · rw [scriptLayout?, length_digitsText]
    dsimp only
    rw [if_neg (by omega), if_neg (by omega), if_pos ⟨hlow, hhigh⟩, zeros?, if_pos (by omega), htext]
    rfl

end

/-- Digits after the first stand after a point, if there are any. -/
theorem exists_fraction (d : Nat) (rest : List Nat) (e : Int) : ∃ f : Option (List Nat),
    f.getD [] = rest ∧ f ≠ some [] ∧
      pointAfterFirst (d :: rest) = digitsText [d] ++ (⟨[d], f, some e⟩ : Written).fractionText ∧
      afterFirst? (digitsText (d :: rest)) = some (⟨[d], f, some e⟩ : Written).fractionText := by
  cases rest with
  | nil => exact ⟨none, rfl, nofun, rfl, rfl⟩
  | cons a rest =>
    have hlength : 1 < (d :: a :: rest).length := by
      simp
    refine ⟨some (a :: rest), rfl, by simp, by simp [pointAfterFirst, Written.fractionText], ?_⟩
    rw [afterFirst?, length_digitsText, if_pos hlength,
      slice?_digitsText (by decide) (by exact_mod_cast hlength.le) le_rfl, Int.toNat_natCast, List.take_length]
    rfl

theorem layout_exponential {d : Nat} {rest : List Nat} {n : Int} (hdigit : ∀ a ∈ d :: rest, a < 10)
    (hnumber : numberOf (d :: rest) ≠ 0) (hn : 21 < n ∨ n ≤ -6) (hsmall : n.natAbs < 1000) :
    ∃ w, Writes (d :: rest) n w ∧ scriptLayout? (digitsText (d :: rest)) n = some w.text ∧
      w.text = pointAfterFirst (d :: rest) ++ [0x65, if n ≤ 0 then 0x2d else 0x2b] ++
        Text.ofNat (n - 1).natAbs := by
  obtain ⟨f, hget, hnil, hpoint, hslice⟩ := exists_fraction d rest (n - 1)
  have hsign : (n - 1 < 0) = (n ≤ 0) := propext (by omega)
  have hdigits : (⟨[d], f, some (n - 1)⟩ : Written).digits = d :: rest := by
    rw [Written.digits, hget]
    rfl
  have htext : (⟨[d], f, some (n - 1)⟩ : Written).text =
      pointAfterFirst (d :: rest) ++ [0x65, if n ≤ 0 then 0x2d else 0x2b] ++ Text.ofNat (n - 1).natAbs := by
    rw [Written.text, hpoint, Written.exponentText]
    simp only [hsign, List.append_assoc, List.cons_append, List.nil_append]
  refine ⟨⟨[d], f, some (n - 1)⟩, ⟨⟨by rwa [hdigits], List.cons_ne_nil _ _, hnil, ?_⟩, by rwa [hdigits], ?_⟩, ?_,
    htext⟩
  · rw [Option.getD_some]
    omega
  · rw [hdigits, Written.scale, hget]
    simp only [Option.getD_some, List.length_cons]
    congr 1
    omega
  · have hlength : (1 : Int) ≤ (d :: rest).length := by
      simp only [List.length_cons]
      omega
    rw [scriptLayout?, length_digitsText]
    dsimp only
    rw [if_neg (by omega), if_neg (by omega), if_neg (by omega), slice?_digitsText le_rfl (by decide) hlength,
      hslice, Written.text, Written.exponentText]
    simp only [hsign]
    by_cases hneg : n ≤ 0 <;> simp [hneg]

theorem exists_layout {m : Nat} {d : Digits} (h : Shortest m d) : ∃ w, Writes d.digits d.point w ∧
    scriptLayout? (digitsText d.digits) d.point = some w.text ∧ Prescribed d.digits d.point w.text := by
  obtain ⟨a, rest, hcons, ha⟩ := h.first
  have hne : d.digits ≠ [] := hcons ▸ List.cons_ne_nil _ _
  have hlength : 0 < d.digits.length := List.length_pos_iff.2 hne
  have hnumber : numberOf d.digits ≠ 0 := by
    rw [hcons, numberOf_cons]
    have : 0 < a * 10 ^ rest.length := Nat.mul_pos (Nat.pos_of_ne_zero ha) (Nat.pow_pos (by decide))
    omega
  have hdigit := h.digit
  have hsmall := h.bounded
  generalize d.point = n at *
  generalize d.digits = ds at *
  by_cases houtside : 21 < n ∨ n ≤ -6
  · subst hcons
    obtain ⟨w, hw, hlayout, htext⟩ := layout_exponential hdigit hnumber houtside hsmall
    exact ⟨w, hw, hlayout, ⟨by omega, by omega, by omega, fun _ => htext⟩⟩
  · by_cases hleading : n ≤ 0
    · obtain ⟨w, hw, hlayout, htext⟩ := layout_leading hdigit hnumber (by omega) hleading hne
      exact ⟨w, hw, hlayout, ⟨by omega, by omega, fun _ _ => htext, by omega⟩⟩
    · by_cases hinside : n < ds.length
      · obtain ⟨w, hw, hlayout, htext⟩ := layout_inside hdigit hnumber (by omega) hinside (by omega)
        exact ⟨w, hw, hlayout, ⟨by omega, fun _ _ _ => htext, by omega, by omega⟩⟩
      · obtain ⟨w, hw, hlayout, htext⟩ := layout_whole hdigit hnumber hne (not_lt.1 hinside) (by omega)
        exact ⟨w, hw, hlayout, ⟨fun _ _ => htext, by omega, by omega, by omega⟩⟩

/-! ## Read back -/

theorem stringToNumber_words :
    stringToNumber (Text.ofString "NaN") = nan ∧ stringToNumber (Text.ofString "0") = zero ∧
      stringToNumber (Text.ofString "Infinity") = infinity ∧
      stringToNumber ([0x2d] ++ Text.ofString "Infinity") = signedInfinity true := by
  refine ⟨?_, ?_, ?_, ?_⟩ <;> decide +kernel

/-- A finite number other than zero is shown by its shortest digits and read back. -/
theorem scriptText_spec {x : Double} (hfinite : x.isFinite = true) (hzero : x.isZero = false) :
    ∃ t, x.scriptText? = some (Written.signText x.isNegative ++ t) ∧
      Prescribed x.shortestDigits.digits x.shortestDigits.point t ∧
      stringToNumber (Written.signText x.isNegative ++ t) = x := by
  have hm := isFinite_iff.1 hfinite
  have hpos : 0 < x.magnitude := Nat.pos_of_ne_zero (of_decide_eq_false hzero)
  have hshortest := shortestDigits_spec hpos hm
  obtain ⟨w, hw, hlayout, hprescribed⟩ := exists_layout hshortest
  have hnan : x.isNaN = false := decide_eq_false hm.not_gt
  have hinfinite : x.isInfinite = false := decide_eq_false hm.ne
  refine ⟨w.text, ?_, hprescribed, ?_⟩
  · rw [scriptText?, hnan, if_neg Bool.false_ne_true, hzero, if_neg Bool.false_ne_true, hinfinite,
      if_neg Bool.false_ne_true]
    dsimp only
    rw [hlayout]
    rfl
  · have hreads := hw.reads.trans hshortest.reads
    rw [hw.sound.stringToNumber_eq x.isNegative (by rw [if_neg hw.nonzero]; exact hreads) hm,
      ofMagnitude_magnitude]

/-- Every number is shown and read back: the layout never asks for a digit that is not there, the text stands
for the number (a zero for positive zero), and that of a finite number other than zero is laid out as the
language prescribes for its shortest digits. -/
theorem shown_reads_back (x : Double) :
    x.scriptText? = some x.scriptText ∧
      stringToNumber x.scriptText = (if x.isNaN then nan else if x.isZero then zero else x) ∧
      (x.isFinite = true → x.isZero = false → Shortest x.magnitude x.shortestDigits ∧
        ∃ t, x.scriptText = Written.signText x.isNegative ++ t ∧
          Prescribed x.shortestDigits.digits x.shortestDigits.point t) := by
  obtain ⟨hnanText, hzeroText, hinfinity, hnegative⟩ := stringToNumber_words
  have hsome {t : Text} (h : x.scriptText? = some t) : x.scriptText = t := by rw [scriptText, h]; rfl
  cases hnan : x.isNaN with
  | true =>
    have htext : x.scriptText? = some (Text.ofString "NaN") := by rw [scriptText?, if_pos hnan]
    have hfinite : x.isFinite = false :=
      decide_eq_false (of_decide_eq_true hnan).not_gt
    rw [hsome htext, htext, hnanText]
    exact ⟨rfl, rfl, fun h => absurd (hfinite.symm.trans h) Bool.false_ne_true⟩
  | false =>
    cases hzero : x.isZero with
    | true =>
      have htext : x.scriptText? = some (Text.ofString "0") := by
        rw [scriptText?, hnan, if_neg Bool.false_ne_true, if_pos hzero]
      rw [hsome htext, htext, hzeroText]
      exact ⟨rfl, rfl, fun _ h => absurd h.symm Bool.false_ne_true⟩
    | false =>
      cases hinfinite : x.isInfinite with
      | true =>
        have hm : x.magnitude = infinityMagnitude := of_decide_eq_true hinfinite
        have htext : x.scriptText? = some (Written.signText x.isNegative ++ Text.ofString "Infinity") := by
          rw [scriptText?, hnan, if_neg Bool.false_ne_true, hzero, if_neg Bool.false_ne_true, if_pos hinfinite]
          rfl
        have hread : stringToNumber (Written.signText x.isNegative ++ Text.ofString "Infinity") = x := by
          conv_rhs => rw [← ofMagnitude_magnitude x, hm]
          cases x.isNegative
          · exact hinfinity
          · exact hnegative
        rw [hsome htext, htext, hread]
        exact ⟨rfl, rfl, fun h => absurd (isFinite_iff.1 h) (by rw [hm]; exact lt_irrefl _)⟩
      | false =>
        have hfinite : x.isFinite = true := by
          have h1 := of_decide_eq_false hnan
          have h2 := of_decide_eq_false hinfinite
          exact decide_eq_true (by omega)
        obtain ⟨t, htext, hprescribed, hread⟩ := scriptText_spec hfinite hzero
        have hm := isFinite_iff.1 hfinite
        have hpos : 0 < x.magnitude := Nat.pos_of_ne_zero (of_decide_eq_false hzero)
        rw [hsome htext, htext, hread]
        exact ⟨rfl, rfl, fun _ _ => ⟨shortestDigits_spec hpos hm, t, rfl, hprescribed⟩⟩

theorem shown_reads_back_tenth : ∃ x : Double, x.isFinite = true ∧ x.isZero = false ∧
    stringToNumber x.scriptText = x ∧ x.shortestDigits.digits = [1] ∧ x.shortestDigits.point = 0 ∧
      x.scriptText = Text.ofString "0.1" := by
  have hfinite : (⟨0x3fb999999999999a⟩ : Double).isFinite = true := by decide
  have hzero : (⟨0x3fb999999999999a⟩ : Double).isZero = false := by decide
  have hdigits : (⟨0x3fb999999999999a⟩ : Double).shortestDigits = ⟨[1], 0⟩ := by decide +kernel
  obtain ⟨-, hread, hlayout⟩ := shown_reads_back ⟨0x3fb999999999999a⟩
  obtain ⟨-, t, htext, hprescribed⟩ := hlayout hfinite hzero
  refine ⟨⟨0x3fb999999999999a⟩, hfinite, hzero, ?_, by rw [hdigits], by rw [hdigits], ?_⟩
  · rw [hread, if_neg (by decide), if_neg (by decide)]
  · rw [hdigits] at hprescribed
    rw [htext, hprescribed.leading (by decide) (by decide)]
    decide

end Double

end RegisterJit
