import RegisterJit.Bytecode.Image
import RegisterJit.Proofs.Building
import RegisterJit.Proofs.Naturals

/-!
# Program images are read back

A reader that accepts an input accepts the same octets whatever follows them, and what it gives is
written in no more octets. So the image of a program is read back, none of its strict prefixes and
extensions is an image, and every accepted image has a shortest form. Reading always ends with a
program that passes validation or an error.

`Reads` is the property of a reader that everything follows from: what it accepts begins with octets that
satisfy a condition on their number, and it accepts these octets whatever follows them. It holds of integers,
lengths and lists, hence of each field and of codes at each level of nesting, by induction on the fuel that
stands for the level. More fuel reads the same, so that the reader for a whole image needs no bound.
`decode_crashes_iff` tells the images on which validation comes upon a nested code that is absent; `absentImage`
is one. `Records` compares this reader with the general codec, and `Ownership` and `Reading` use that what is
read was valid.
-/

namespace RegisterJit

namespace Codec

/-! ## Readers -/

variable {α β : Type}

/-- What a reader accepts stands in a head of the input, and is read from it whatever follows; the
result and the length of the head are related by `P`. -/
def Reads (read : List UInt8 → Except DecodeError (α × List UInt8)) (P : α → Nat → Prop) : Prop :=
  ∀ ⦃input x rest⦄, read input = .ok (x, rest) →
    ∃ head, input = head ++ rest ∧ P x head.length ∧ ∀ more, read (head ++ more) = .ok (x, more)

theorem Reads.mono {read : List UInt8 → Except DecodeError (α × List UInt8)}
    {P Q : α → Nat → Prop} (h : Reads read P) (hPQ : ∀ x n, P x n → Q x n) : Reads read Q := by
  intro input x rest hread
  obtain ⟨head, hinput, hP, hmore⟩ := h hread
  exact ⟨head, hinput, hPQ _ _ hP, hmore⟩

theorem reads_pure (x : α) : Reads (fun input => .ok (x, input)) fun y n => y = x ∧ n = 0 := by
  intro input y rest h
  cases h
  exact ⟨[], rfl, ⟨rfl, rfl⟩, fun more => rfl⟩

theorem reads_bind {read : List UInt8 → Except DecodeError (α × List UInt8)}
    {next : α → List UInt8 → Except DecodeError (β × List UInt8)} {P : α → Nat → Prop}
    {Q : α → β → Nat → Prop} (hread : Reads read P) (hnext : ∀ a, Reads (next a) (Q a)) :
    Reads (fun input => (read input).bind fun r => next r.1 r.2)
      fun y n => ∃ a k l, n = k + l ∧ P a k ∧ Q a y l := by
  intro input y rest h
  cases hr : read input with
  | error e => simp only [hr, Except.bind, reduceCtorEq] at h
  | ok r =>
    obtain ⟨a, middle⟩ := r
    simp only [hr, Except.bind] at h
    obtain ⟨head, rfl, hP, hmore⟩ := hread hr
    obtain ⟨head', rfl, hQ, hmore'⟩ := hnext a h
    refine ⟨head ++ head', by rw [List.append_assoc], ⟨a, _, _, List.length_append, hP, hQ⟩, ?_⟩
    intro more
    simp only [List.append_assoc, hmore, Except.bind, hmore']

theorem map_eq_ok {r : Except DecodeError (α × List UInt8)} {f : α → β} {y : β}
    {rest : List UInt8} (h : (r.map fun (x, rest) => (f x, rest)) = .ok (y, rest)) :
    ∃ x, r = .ok (x, rest) ∧ y = f x := by
  cases r with
  | error e => simp only [Except.map, reduceCtorEq] at h
  | ok r =>
    simp only [Except.map, Except.ok.injEq, Prod.mk.injEq] at h
    exact ⟨r.1, by rw [← h.2], h.1.symm⟩

theorem reads_map {read : List UInt8 → Except DecodeError (α × List UInt8)} {P : α → Nat → Prop}
    (h : Reads read P) (f : α → β) :
    Reads (fun input => (read input).map fun (x, rest) => (f x, rest))
      fun y n => ∃ x, y = f x ∧ P x n := by
  intro input y rest hread
  obtain ⟨x, hr, rfl⟩ := map_eq_ok hread
  obtain ⟨head, rfl, hP, hmore⟩ := h hr
  exact ⟨head, rfl, ⟨x, rfl, hP⟩, fun more => by simp only [hmore, Except.map]⟩

theorem reads_field {read : List UInt8 → Except DecodeError (α × List UInt8)} {P : α → Nat → Prop}
    (name : String) (h : Reads read P) : Reads (fun input => field name (read input)) P := by
  intro input x rest hread
  cases hr : read input with
  | error e => simp only [field, hr, Except.mapError, reduceCtorEq] at hread
  | ok r =>
    simp only [field, hr, Except.mapError, Except.ok.injEq] at hread
    subst hread
    obtain ⟨head, rfl, hP, hmore⟩ := h hr
    exact ⟨head, rfl, hP, fun more => by simp only [field, hmore, Except.mapError]⟩

/-! ## Integers, lengths and lists -/

theorem readInteger_encode (n : Nat) {x : Nat} (h : x < 256 ^ n) (rest : List UInt8) :
    readInteger n (LittleEndian.encode n x ++ rest) = .ok (x, rest) := by
  rw [readInteger, List.take_left' (LittleEndian.length_encode n x),
    List.drop_left' (LittleEndian.length_encode n x), LittleEndian.decode_encode,
    Nat.mod_eq_of_lt h]
  simp

theorem reads_integer (n : Nat) : Reads (readInteger n) fun x k => k = n ∧ x < 256 ^ n := by
  intro input x rest h
  unfold readInteger at h
  dsimp only at h
  split at h
  · cases h
  rename_i hlong
  cases h
  have hlength : (input.take n).length = n := by
    rw [List.length_take] at hlong ⊢
    omega
  refine ⟨input.take n, (List.take_append_drop n input).symm, ⟨hlength, ?_⟩, fun more => ?_⟩
  · have := LittleEndian.decode_lt (input.take n)
    rwa [hlength] at this
  · rw [readInteger, List.take_left' hlength, List.drop_left' hlength]
    simp only [hlength, Nat.lt_irrefl, if_false]

theorem readInteger_lt {n x : Nat} {input rest : List UInt8}
    (h : readInteger n input = .ok (x, rest)) : x < 256 ^ n := by
  obtain ⟨head, -, ⟨-, hlt⟩, -⟩ := reads_integer n h
  exact hlt

theorem readLength_encode {n : Nat} (h : n < 2 ^ 64) {rest : List UInt8} (hn : n ≤ rest.length) :
    readLength (Natural.encode n ++ rest) = .ok (n, rest) := by
  rw [readLength, Natural.decode_encode h]
  simp only [Nat.not_lt.2 hn, if_false]

theorem readLength_ok {input rest : List UInt8} {n : Nat} (h : readLength input = .ok (n, rest)) :
    ∃ head, input = head ++ rest ∧ n < 2 ^ 64 ∧ (Natural.encode n).length ≤ head.length ∧
      n ≤ rest.length ∧ ∀ more : List UInt8, n ≤ more.length →
        readLength (head ++ more) = .ok (n, more) := by
  rw [readLength] at h
  cases hd : Natural.decode input with
  | none => simp only [hd, reduceCtorEq] at h
  | some r =>
    obtain ⟨m, left⟩ := r
    simp only [hd] at h
    split at h
    · cases h
    rename_i hfits
    cases h
    obtain ⟨head, rfl, hlt, hle, hmore⟩ := Natural.decode_used hd
    refine ⟨head, rfl, hlt, hle, Nat.not_lt.1 hfits, fun more hn => ?_⟩
    rw [readLength, hmore]
    simp only [Nat.not_lt.2 hn, if_false]

theorem readBytes_encode {t : List UInt8} (h : t.length < 2 ^ 64) (rest : List UInt8) :
    readBytes (encodeBytes t ++ rest) = .ok (t, rest) := by
  rw [readBytes, encodeBytes, List.append_assoc, readLength_encode h (by simp)]
  change Except.ok ((t ++ rest).take t.length, (t ++ rest).drop t.length) = _
  rw [List.take_left, List.drop_left]

theorem reads_bytes :
    Reads readBytes fun t n => t.length < 2 ^ 64 ∧ (encodeBytes t).length ≤ n := by
  intro input t rest h
  rw [readBytes] at h
  cases hl : readLength input with
  | error e => simp only [hl, bind, Except.bind, reduceCtorEq] at h
  | ok r =>
    obtain ⟨n, left⟩ := r
    simp only [hl, bind, Except.bind, pure, Except.pure, Except.ok.injEq, Prod.mk.injEq] at h
    obtain ⟨rfl, rfl⟩ := h
    obtain ⟨head, rfl, hlt, hle, hn, hmore⟩ := readLength_ok hl
    have hlength : (left.take n).length = n := by
      rw [List.length_take]
      omega
    refine ⟨head ++ left.take n, by rw [List.append_assoc, List.take_append_drop], ⟨?_, ?_⟩, ?_⟩
    · rwa [hlength]
    · rw [encodeBytes, List.length_append, List.length_append, hlength]
      omega
    · intro more
      rw [readBytes, List.append_assoc, hmore _ (by rw [List.length_append]; omega)]
      change Except.ok ((left.take n ++ more).take n, (left.take n ++ more).drop n) = _
      rw [List.take_left' hlength, List.drop_left' hlength]

theorem length_encodeBytes_pos (t : List UInt8) : 0 < (encodeBytes t).length := by
  have := Natural.length_encode_pos t.length
  rw [encodeBytes, List.length_append]
  omega

section Lists

variable {encode : α → List UInt8} {read : List UInt8 → Except DecodeError (α × List UInt8)}

theorem length_le_length_flatMap (hpos : ∀ x, 0 < (encode x).length) (xs : List α) :
    xs.length ≤ (xs.flatMap encode).length := by
  induction xs with
  | nil => exact Nat.zero_le _
  | cons x xs ih =>
    have := hpos x
    rw [List.flatMap_cons, List.length_append, List.length_cons]
    omega

theorem readItems_encode {xs : List α}
    (hback : ∀ x ∈ xs, ∀ rest, read (encode x ++ rest) = .ok (x, rest)) (index : Nat)
    (rest : List UInt8) :
    readItems read xs.length index (xs.flatMap encode ++ rest) = .ok (xs, rest) := by
  induction xs generalizing index with
  | nil => rfl
  | cons x xs ih =>
    rw [List.flatMap_cons, List.append_assoc, List.length_cons, readItems,
      hback x (List.mem_cons_self ..)]
    simp only [ih fun y hy => hback y (List.mem_cons_of_mem _ hy)]

theorem readList_encode (hpos : ∀ x, 0 < (encode x).length) {xs : List α}
    (hlt : xs.length < 2 ^ 64) (hback : ∀ x ∈ xs, ∀ rest, read (encode x ++ rest) = .ok (x, rest))
    (rest : List UInt8) : readList read (encodeList encode xs ++ rest) = .ok (xs, rest) := by
  have hle := length_le_length_flatMap hpos xs
  rw [readList, encodeList, List.append_assoc,
    readLength_encode hlt (by rw [List.length_append]; omega)]
  exact readItems_encode hback 0 rest

variable {P : α → Prop}

theorem reads_items (hread : Reads read fun x n => P x ∧ (encode x).length ≤ n)
    (count index : Nat) :
    Reads (readItems read count index) fun xs n =>
      xs.length = count ∧ (∀ x ∈ xs, P x) ∧ (xs.flatMap encode).length ≤ n := by
  induction count generalizing index with
  | zero =>
    intro input xs rest h
    cases h
    exact ⟨[], rfl, ⟨rfl, by simp, Nat.zero_le _⟩, fun more => rfl⟩
  | succ count ih =>
    intro input xs rest h
    rw [readItems] at h
    cases hr : read input with
    | error e => simp only [hr, reduceCtorEq] at h
    | ok r =>
      obtain ⟨x, left⟩ := r
      simp only [hr] at h
      cases hs : readItems read count (index + 1) left with
      | error e => simp only [hs, reduceCtorEq] at h
      | ok r =>
        obtain ⟨ys, left'⟩ := r
        simp only [hs] at h
        cases h
        obtain ⟨head, rfl, ⟨hx, hle⟩, hmore⟩ := hread hr
        obtain ⟨head', rfl, ⟨hlength, hys, hle'⟩, hmore'⟩ := ih (index + 1) hs
        refine ⟨head ++ head', by rw [List.append_assoc], ⟨?_, ?_, ?_⟩, fun more => ?_⟩
        · rw [List.length_cons, hlength]
        · exact List.forall_mem_cons.2 ⟨hx, hys⟩
        · rw [List.flatMap_cons, List.length_append, List.length_append]
          omega
        · rw [List.append_assoc, readItems, hmore]
          simp only [hmore']

theorem reads_list (hpos : ∀ x, 0 < (encode x).length)
    (hread : Reads read fun x n => P x ∧ (encode x).length ≤ n) :
    Reads (readList read) fun xs n =>
      (xs.length < 2 ^ 64 ∧ ∀ x ∈ xs, P x) ∧ (encodeList encode xs).length ≤ n := by
  intro input xs rest h
  rw [readList] at h
  cases hl : readLength input with
  | error e => simp only [hl, reduceCtorEq] at h
  | ok r =>
    obtain ⟨n, left⟩ := r
    simp only [hl] at h
    obtain ⟨head, rfl, hlt, hle, -, hmore⟩ := readLength_ok hl
    obtain ⟨head', rfl, ⟨rfl, hxs, hle'⟩, hmore'⟩ := reads_items hread n 0 h
    have hcount := length_le_length_flatMap hpos xs
    refine ⟨head ++ head', by rw [List.append_assoc], ⟨⟨hlt, hxs⟩, ?_⟩, fun more => ?_⟩
    · rw [encodeList, List.length_append, List.length_append]
      omega
    · rw [readList, List.append_assoc, hmore _ (by rw [List.length_append]; omega)]
      exact hmore' more

end Lists

end Codec

open Codec

/-! ## Fields -/

theorem readOctet_encode (x : UInt8) (rest : List UInt8) : readOctet (x :: rest) = .ok (x, rest) := by
  have h := readInteger_encode 1 (x := x.toNat) x.toNat_lt rest
  have hbytes : LittleEndian.encode 1 x.toNat = [x] := by simp [LittleEndian.encode]
  rw [hbytes] at h
  rw [readOctet, ← List.singleton_append, h]
  simp [Except.map]

theorem readUInt32_encode (x : UInt32) (rest : List UInt8) :
    readUInt32 (LittleEndian.encode 4 x.toNat ++ rest) = .ok (x, rest) := by
  rw [readUInt32, readInteger_encode 4 x.toNat_lt]
  simp [Except.map]

theorem readWord_encode (w : Word) (rest : List UInt8) :
    readWord (LittleEndian.encode 8 w.toNat ++ rest) = .ok (w, rest) := by
  rw [readWord, readInteger_encode 8 w.toNat_lt]
  simp [Except.map]

theorem readBool_encode (b : Bool) (rest : List UInt8) :
    readBool ((if b then 1 else 0) :: rest) = .ok (b, rest) := by
  cases b <;> rfl

theorem reads_octet : Reads readOctet fun _ n => n = 1 :=
  (reads_map (reads_integer 1) Nat.toUInt8).mono fun _ _ ⟨_, _, h, _⟩ => h

theorem reads_uint32 : Reads readUInt32 fun _ n => n = 4 :=
  (reads_map (reads_integer 4) Nat.toUInt32).mono fun _ _ ⟨_, _, h, _⟩ => h

theorem reads_word : Reads readWord fun _ n => n = 8 :=
  (reads_map (reads_integer 8) Nat.toUInt64).mono fun _ _ ⟨_, _, h, _⟩ => h

theorem reads_bool : Reads readBool fun _ n => n = 1 := by
  intro input b rest h
  cases input with
  | nil => cases h
  | cons x input =>
    cases h
    exact ⟨[x], rfl, rfl, fun more => rfl⟩

theorem Constant.read_encode {k : Constant} (h : k.text.length < 2 ^ 64) (rest : List UInt8) :
    read (k.encode ++ rest) = .ok (k, rest) := by
  simp only [read, encode, List.append_assoc, List.cons_append, List.nil_append,
    readOctet_encode, field,
    Except.mapError, bind, Except.bind, readWord_encode, readBytes_encode h]
  rfl

theorem Constant.reads :
    Reads read fun k n => k.text.length < 2 ^ 64 ∧ k.encode.length ≤ n := by
  have h := reads_bind (reads_field "Kind" reads_octet) fun kind =>
    reads_bind (reads_field "Number" reads_word) fun number =>
    reads_bind (reads_field "Text" reads_bytes) fun text =>
    reads_pure (⟨kind, ⟨number⟩, text⟩ : Constant)
  refine (show Reads read _ from h).mono ?_
  rintro _ _ ⟨kind, _, _, rfl, rfl, number, _, _, rfl, rfl, text, n, _, rfl, ⟨hlt, hle⟩, rfl, rfl⟩
  refine ⟨hlt, ?_⟩
  simp only [encode, List.length_append, List.length_singleton, LittleEndian.length_encode]
  omega

theorem Constant.length_encode_pos (k : Constant) : 0 < k.encode.length := by
  simp [encode]

theorem Handler.read_encode (h : Handler) (rest : List UInt8) :
    read (h.encode ++ rest) = .ok (h, rest) := by
  simp only [read, encode, List.append_assoc, List.cons_append, List.nil_append,
    readOctet_encode, field,
    Except.mapError, bind, Except.bind, readUInt32_encode]
  rfl

theorem Handler.reads : Reads read fun h n => True ∧ h.encode.length ≤ n := by
  have h := reads_bind (reads_field "Kind" reads_octet) fun kind =>
    reads_bind (reads_field "Begin" reads_uint32) fun start =>
    reads_bind (reads_field "End" reads_uint32) fun stop =>
    reads_bind (reads_field "DynamicEnvLevel" reads_uint32) fun level =>
    reads_bind (reads_field "Jump" reads_uint32) fun jump =>
    reads_bind (reads_field "Flag" reads_uint32) fun flag =>
    reads_pure (⟨kind, start, stop, level, ⟨jump.toInt32⟩, ⟨flag.toInt32⟩⟩ : Handler)
  refine (show Reads read _ from h).mono ?_
  rintro _ _ ⟨kind, _, _, rfl, rfl, start, _, _, rfl, rfl, stop, _, _, rfl, rfl, level, _, _, rfl,
    rfl, jump, _, _, rfl, rfl, flag, _, _, rfl, rfl, rfl, rfl⟩
  simp only [encode, List.length_append, List.length_singleton, LittleEndian.length_encode,
    true_and]
  omega

theorem Handler.length_encode_pos (h : Handler) : 0 < h.encode.length := by
  simp [encode]

/-! ## Codes -/

namespace Code

/-- The lengths that the image of a code holds are 64-bit numbers, as all lengths in memory are. -/
structure Lengths (c : Code) : Prop where
  name : c.name.length < 2 ^ 64
  data : c.data.size < 2 ^ 64
  constants : c.constants.size < 2 ^ 64
  texts : ∀ k ∈ c.constants, k.text.length < 2 ^ 64
  names : c.names.size < 2 ^ 64
  nameTexts : ∀ t ∈ c.names, t.length < 2 ^ 64
  codes : c.codes.length < 2 ^ 64
  handlers : c.handlers.size < 2 ^ 64

def Storable (c : Code) : Prop := ∀ d, some d ∈ c.walk → d.Lengths

theorem mem_walkAll {x : Option Code} {codes : List (Option Code)} :
    x ∈ walkAll codes ↔ x = none ∧ none ∈ codes ∨ ∃ d, some d ∈ codes ∧ x ∈ d.walk := by
  induction codes with
  | nil => simp [walkAll]
  | cons o codes ih =>
    cases o with
    | none =>
      rw [walkAll, List.mem_cons, ih]
      simp only [List.mem_cons, reduceCtorEq, false_or, true_or, and_true]
      tauto
    | some c =>
      rw [walkAll, List.mem_append, ih]
      simp only [List.mem_cons, reduceCtorEq, false_or, Option.some.injEq]
      constructor
      · rintro (h | h | ⟨d, hd, hx⟩)
        · exact .inr ⟨c, .inl rfl, h⟩
        · exact .inl h
        · exact .inr ⟨d, .inr hd, hx⟩
      · rintro (h | ⟨d, rfl | hd, hx⟩)
        · exact .inr (.inl h)
        · exact .inl hx
        · exact .inr (.inr ⟨d, hd, hx⟩)

theorem mem_walk {d c : Code} :
    some d ∈ c.walk ↔ d = c ∨ ∃ e, some e ∈ c.codes ∧ some d ∈ e.walk := by
  rw [walk_eq, List.mem_cons, mem_walkAll, Option.some.injEq]
  simp only [reduceCtorEq, false_and, false_or]

theorem storable_iff {c : Code} :
    c.Storable ↔ c.Lengths ∧ ∀ d, some d ∈ c.codes → d.Storable := by
  constructor
  · exact fun h => ⟨h c (mem_walk.2 (.inl rfl)), fun d hd e he =>
      h e (mem_walk.2 (.inr ⟨d, hd, he⟩))⟩
  · rintro ⟨hc, hcodes⟩ d hd
    rcases mem_walk.1 hd with rfl | ⟨e, he, hd⟩
    · exact hc
    · exact hcodes e he d hd

def encodeNested : Option Code → List UInt8
  | none => [0]
  | some c => 1 :: c.encode

theorem encodeCodes_eq (codes : List (Option Code)) :
    encodeCodes codes = codes.flatMap encodeNested := by
  induction codes with
  | nil => rw [encodeCodes]; rfl
  | cons o codes ih =>
    cases o with
    | none => rw [encodeCodes, ih]; rfl
    | some c => rw [encodeCodes, ih]; rfl

theorem encode_eq (c : Code) :
    c.encode = encodeBytes c.name ++
      encodeList (fun w : Word => LittleEndian.encode 8 w.toNat) c.data.toList ++
      encodeList Constant.encode c.constants.toList ++ encodeList encodeBytes c.names.toList ++
      encodeList encodeNested c.codes ++ encodeList Handler.encode c.handlers.toList ++
      LittleEndian.encode 4 c.params.toNat ++ LittleEndian.encode 4 c.registerCount.toNat ++
      [if c.strict then 1 else 0] := by
  obtain ⟨_, _, _, _, codes, _, _, _, _⟩ := c
  rw [encode, encodeCodes_eq]
  rfl

theorem length_encodeNested_pos (o : Option Code) : 0 < (encodeNested o).length := by
  cases o with
  | none => exact Nat.one_pos
  | some c => exact Nat.succ_pos _

theorem length_encodeNested_le_of_mem {c : Code} {o : Option Code} (h : o ∈ c.codes) :
    (encodeNested o).length ≤ c.encode.length := by
  obtain ⟨before, after, hsplit⟩ := List.append_of_mem h
  rw [encode_eq c]
  simp only [encodeList, List.length_append, hsplit, List.flatMap_append, List.flatMap_cons]
  omega

theorem length_word_pos (w : Word) : 0 < (LittleEndian.encode 8 w.toNat).length := by
  rw [LittleEndian.length_encode]
  decide

variable {readNested : List UInt8 → Except DecodeError (Option Code × List UInt8)}

theorem readFields_encode {c : Code} (h : c.Lengths)
    (hnested : ∀ o ∈ c.codes, ∀ rest, readNested (encodeNested o ++ rest) = .ok (o, rest))
    (rest : List UInt8) : readFields readNested (c.encode ++ rest) = .ok (c, rest) := by
  have hdata := readList_encode (fun w : Word => length_word_pos w)
    (show c.data.toList.length < 2 ^ 64 from h.data) fun w _ => readWord_encode w
  have hconstants := readList_encode Constant.length_encode_pos
    (show c.constants.toList.length < 2 ^ 64 from h.constants) fun k hk =>
      Constant.read_encode (h.texts k (Array.mem_toList_iff.1 hk))
  have hnames := readList_encode length_encodeBytes_pos
    (show c.names.toList.length < 2 ^ 64 from h.names) fun t ht =>
      readBytes_encode (h.nameTexts t (Array.mem_toList_iff.1 ht))
  have hcodes := readList_encode length_encodeNested_pos h.codes hnested
  have hhandlers := readList_encode Handler.length_encode_pos
    (show c.handlers.toList.length < 2 ^ 64 from h.handlers) fun k _ => Handler.read_encode k
  rw [encode_eq]
  simp only [readFields, List.append_assoc, readBytes_encode h.name, field, Except.mapError, bind,
    Except.bind, hdata, hconstants, hnames, hcodes, hhandlers, readUInt32_encode,
    List.singleton_append, readBool_encode, Array.toArray_toList]
  cases c
  rfl

theorem reads_fields {P : Option Code → Prop}
    (hnested : Reads readNested fun o n => P o ∧ (encodeNested o).length ≤ n) :
    Reads (readFields readNested) fun c n =>
      (c.Lengths ∧ ∀ o ∈ c.codes, P o) ∧ c.encode.length ≤ n := by
  have hwords := reads_list (P := fun _ => True) (fun w : Word => length_word_pos w)
    (reads_word.mono fun w n (hn : n = 8) =>
      ⟨trivial, by rw [LittleEndian.length_encode, hn]⟩)
  have h := reads_bind (reads_field "Name" reads_bytes) fun name =>
    reads_bind (reads_field "Data" hwords) fun data =>
    reads_bind (reads_field "Constants" (reads_list Constant.length_encode_pos Constant.reads))
      fun constants =>
    reads_bind (reads_field "Names" (reads_list length_encodeBytes_pos reads_bytes)) fun names =>
    reads_bind (reads_field "Codes" (reads_list length_encodeNested_pos hnested)) fun codes =>
    reads_bind (reads_field "Handlers" (reads_list Handler.length_encode_pos Handler.reads))
      fun handlers =>
    reads_bind (reads_field "Params" reads_uint32) fun params =>
    reads_bind (reads_field "RegisterCount" reads_uint32) fun registerCount =>
    reads_bind (reads_field "Strict" reads_bool) fun strict =>
    reads_pure (⟨name, data.toArray, constants.toArray, names.toArray, codes, handlers.toArray,
      params, registerCount, strict⟩ : Code)
  refine (show Reads (readFields readNested) _ from h).mono ?_
  rintro _ _ ⟨name, _, _, rfl, hname, data, _, _, rfl, hdata, constants, _, _, rfl, hconstants,
    names, _, _, rfl, hnames, codes, _, _, rfl, hcodes, handlers, _, _, rfl, hhandlers,
    params, _, _, rfl, rfl, registerCount, _, _, rfl, rfl, strict, _, _, rfl, rfl, rfl, rfl⟩
  refine ⟨⟨⟨hname.1, ?_, ?_, ?_, ?_, ?_, hcodes.1.1, ?_⟩, hcodes.1.2⟩, ?_⟩
  · simpa using hdata.1.1
  · simpa using hconstants.1.1
  · simpa using hconstants.1.2
  · simpa using hnames.1.1
  · simpa using hnames.1.2
  · simpa using hhandlers.1.1
  · rw [encode_eq]
    simp only [List.length_append, List.length_singleton, LittleEndian.length_encode]
    omega

/-! ## Nesting -/

theorem reads_nested (fuel : Nat) :
    Reads (Code.readNested fuel) fun o n =>
      (∀ c, o = some c → c.Storable) ∧ (encodeNested o).length ≤ n := by
  induction fuel with
  | zero =>
    intro input o rest h
    cases h
  | succ fuel ih =>
    intro input o rest h
    cases input with
    | nil => cases h
    | cons tag input =>
      rw [Code.readNested] at h
      by_cases htag : tag = 0
      · rw [if_pos htag] at h
        cases h
        refine ⟨[tag], rfl, ⟨by simp, Nat.le_refl _⟩, fun more => ?_⟩
        rw [List.singleton_append, Code.readNested, if_pos htag]
      · rw [if_neg htag] at h
        obtain ⟨head, rfl, ⟨c, rfl, hc, hle⟩, hmore⟩ := reads_map (reads_fields ih) some h
        refine ⟨tag :: head, rfl, ⟨?_, Nat.succ_le_succ hle⟩, fun more => ?_⟩
        · rintro _ ⟨⟩
          exact storable_iff.2 ⟨hc.1, fun d hd => hc.2 _ hd d rfl⟩
        · rw [List.cons_append, Code.readNested, if_neg htag]
          exact hmore more

theorem readNested_encode {fuel : Nat} {o : Option Code} (hfuel : (encodeNested o).length ≤ fuel)
    (h : ∀ c, o = some c → c.Storable) (rest : List UInt8) :
    Code.readNested fuel (encodeNested o ++ rest) = .ok (o, rest) := by
  induction fuel generalizing o rest with
  | zero => have := length_encodeNested_pos o; omega
  | succ fuel ih =>
    cases o with
    | none => rfl
    | some c =>
      obtain ⟨hc, hcodes⟩ := storable_iff.1 (h c rfl)
      have hle : c.encode.length ≤ fuel := Nat.le_of_succ_le_succ hfuel
      have hnested : ∀ o ∈ c.codes, ∀ rest,
          Code.readNested fuel (encodeNested o ++ rest) = .ok (o, rest) := fun o ho rest =>
        ih (Nat.le_trans (length_encodeNested_le_of_mem ho) hle) (fun d hd => hcodes d (hd ▸ ho)) rest
      have hfields := readFields_encode hc hnested rest
      rw [encodeNested, List.cons_append, Code.readNested, if_neg (by decide), hfields]
      rfl

/-! ## More fuel -/

theorem readItems_mono {α : Type} {read read' : List UInt8 → Except DecodeError (α × List UInt8)}
    (h : ∀ ⦃input y⦄, read input = .ok y → read' input = .ok y) {count index : Nat}
    {input : List UInt8} {y : List α × List UInt8} (hy : readItems read count index input = .ok y) :
    readItems read' count index input = .ok y := by
  induction count generalizing index input y with
  | zero => exact hy
  | succ count ih =>
    rw [readItems] at hy ⊢
    cases hr : read input with
    | error e => simp only [hr, reduceCtorEq] at hy
    | ok r =>
      simp only [hr] at hy
      simp only [h hr]
      cases hs : readItems read count (index + 1) r.2 with
      | error e => simp only [hs, reduceCtorEq] at hy
      | ok s =>
        simp only [hs] at hy
        simp only [ih hs, hy]

theorem readList_mono {α : Type} {read read' : List UInt8 → Except DecodeError (α × List UInt8)}
    (h : ∀ ⦃input y⦄, read input = .ok y → read' input = .ok y) {input : List UInt8}
    {y : List α × List UInt8} (hy : readList read input = .ok y) : readList read' input = .ok y := by
  rw [readList] at hy ⊢
  cases hl : readLength input with
  | error e => simp only [hl, reduceCtorEq] at hy
  | ok r =>
    simp only [hl] at hy ⊢
    exact readItems_mono h hy

theorem bind_eq_ok {ε α β : Type} {x : Except ε α} {f : α → Except ε β} {y : β} :
    (x >>= f) = .ok y ↔ ∃ a, x = .ok a ∧ f a = .ok y := by
  cases x with
  | error e => simp [bind, Except.bind]
  | ok a => simp [bind, Except.bind]

theorem field_eq_ok {α : Type} {name : String} {r : Except DecodeError α} {x : α} :
    field name r = .ok x ↔ r = .ok x := by
  cases r <;> simp [field, Except.mapError]

theorem readFields_mono {read read' : List UInt8 → Except DecodeError (Option Code × List UInt8)}
    (h : ∀ ⦃input y⦄, read input = .ok y → read' input = .ok y) {input : List UInt8}
    {y : Code × List UInt8} (hy : readFields read input = .ok y) :
    readFields read' input = .ok y := by
  rw [readFields] at hy ⊢
  simp only [bind_eq_ok, field_eq_ok] at hy ⊢
  obtain ⟨name, hname, data, hdata, constants, hconstants, names, hnames, codes, hcodes, hrest⟩ := hy
  exact ⟨name, hname, data, hdata, constants, hconstants, names, hnames, codes,
    readList_mono h hcodes, hrest⟩

theorem readNested_mono {fuel fuel' : Nat} (hle : fuel ≤ fuel') {input : List UInt8}
    {y : Option Code × List UInt8} (hy : Code.readNested fuel input = .ok y) :
    Code.readNested fuel' input = .ok y := by
  induction fuel generalizing fuel' input y with
  | zero => cases hy
  | succ fuel ih =>
    obtain ⟨n, rfl⟩ := Nat.exists_eq_add_of_le hle
    rw [Nat.add_right_comm]
    cases input with
    | nil => cases hy
    | cons tag input =>
      rw [Code.readNested] at hy ⊢
      by_cases htag : tag = 0
      · rwa [if_pos htag] at hy ⊢
      · rw [if_neg htag] at hy ⊢
        cases hr : readFields (Code.readNested fuel) input with
        | error e => simp only [hr, Except.map, reduceCtorEq] at hy
        | ok r =>
          rw [hr] at hy
          rw [readFields_mono (fun _ _ h => ih (Nat.le_add_right fuel n) h) hr]
          exact hy

/-! ## Images -/

def readImage (input : List UInt8) : Except DecodeError (Code × List UInt8) :=
  readFields (Code.readNested input.length) input

theorem decode_eq_ok_iff {input : List UInt8} {c : Code} :
    decode input = .ok c ↔ readImage input = .ok (c, []) ∧ c.validate = .ok () := by
  rw [decode, ← readImage]
  cases readImage input with
  | error e => simp
  | ok r =>
    obtain ⟨d, rest⟩ := r
    cases rest with
    | cons b rest => simp
    | nil =>
      simp only [List.isEmpty_nil, if_true, Except.ok.injEq, Prod.mk.injEq, and_true]
      cases hv : d.validate with
      | error e =>
        simp only [reduceCtorEq, false_iff, not_and]
        rintro rfl
        simp [hv]
      | ok u =>
        simp only [Except.ok.injEq, iff_self_and]
        rintro rfl
        exact hv

theorem decode_of_extra {input rest : List UInt8} {c : Code} (h : readImage input = .ok (c, rest))
    (hrest : rest ≠ []) : decode input = .error (.unreadable (.extra rest.length)) := by
  rw [decode, ← readImage, h]
  simp only [List.isEmpty_iff, hrest, if_false]

theorem readImage_append {input rest more : List UInt8} {c : Code}
    (h : readImage input = .ok (c, rest)) : readImage (input ++ more) = .ok (c, rest ++ more) := by
  obtain ⟨head, hinput, -, hmore⟩ := reads_fields (reads_nested input.length) h
  have hsplit : input ++ more = head ++ (rest ++ more) := by rw [hinput, List.append_assoc]
  have hread := hmore (rest ++ more)
  rw [← hsplit] at hread
  exact readFields_mono (fun _ _ h => readNested_mono (by simp) h) hread

theorem readImage_encode {c : Code} (h : c.Storable) : readImage c.encode = .ok (c, []) := by
  have hnested := readNested_encode (o := some c) (Nat.le_refl _) (by rintro _ ⟨⟩; exact h) []
  rw [List.append_nil, encodeNested, List.length_cons, Code.readNested, if_neg (by decide)] at hnested
  cases hr : readFields (Code.readNested c.encode.length) c.encode with
  | error e => simp only [hr, Except.map, reduceCtorEq] at hnested
  | ok r =>
    simp only [hr, Except.map, Except.ok.injEq, Prod.mk.injEq, Option.some.injEq] at hnested
    rw [readImage, hr, ← hnested.1, ← hnested.2]

/-! ## Defects -/

theorem walk?_eq_none_iff {c : Code} : c.walk? = none ↔ none ∈ c.walk := by
  rw [walk?, ← List.mapM'_eq_mapM]
  generalize c.walk = xs
  induction xs with
  | nil => simp [List.mapM']
  | cons x xs ih =>
    cases x with
    | none => simp [List.mapM']
    | some d =>
      rw [List.mapM', List.mem_cons, ← ih]
      cases List.mapM' id xs <;> simp

theorem validate_eq_absent_iff {c : Code} :
    c.validate = .error .absentCode ↔ none ∈ c.walk := by
  rw [← walk?_eq_none_iff, validate]
  cases c.walk? with
  | none => simp
  | some codes =>
    simp only [reduceCtorEq, iff_false]
    induction codes with
    | nil =>
      intro h
      cases h
    | cons d codes ih =>
      rw [List.forM_eq_forM, List.forM_cons]
      cases d.validateOne with
      | error e =>
        intro h
        cases h
      | ok u => exact ih

/-- Decoding always ends, with a program that passes validation or with an error. Only an absent
nested code leaves the error without a message: then validation crashes. -/
theorem decode_crashes_iff (input : List UInt8) :
    (∀ c, decode input = .ok c → c.validate = .ok ()) ∧
    ∀ e, decode input = .error e →
      (e.message? = none ↔ ∃ c, readImage input = .ok (c, []) ∧ none ∈ c.walk) := by
  refine ⟨fun c hc => (decode_eq_ok_iff.1 hc).2, fun e he => ?_⟩
  rw [decode, ← readImage] at he
  cases hr : readImage input with
  | error cause =>
    rw [hr] at he
    cases he
    simp [ImageError.message?]
  | ok r =>
    obtain ⟨c, rest⟩ := r
    rw [hr] at he
    simp only [Except.ok.injEq, Prod.mk.injEq]
    cases rest with
    | cons b rest =>
      cases he
      simp [ImageError.message?]
    | nil =>
      simp only [List.isEmpty_nil, if_true] at he
      have habsent := validate_eq_absent_iff (c := c)
      cases hv : c.validate with
      | ok u => rw [hv] at he; cases he
      | error d =>
        rw [hv] at he habsent
        cases he
        cases d with
        | inCode name d =>
          simp only [Except.error.injEq, reduceCtorEq, false_iff] at habsent
          simp [ImageError.message?, ProgramDefect.message?, habsent]
        | absentCode =>
          simp only [true_iff] at habsent
          simp [ImageError.message?, ProgramDefect.message?, habsent]

/-- The image of an empty program with one nested code that is absent. -/
def absentImage : List UInt8 := [0, 0, 0, 0, 1, 0, 0, 0, 0, 0, 0, 0, 0, 0, 0, 0]

theorem decode_absentImage :
    ∃ e, decode absentImage = .error e ∧ e.message? = none := by
  have hread : readImage absentImage = .ok (⟨[], #[], #[], #[], [none], #[], 0, 0, false⟩, []) := rfl
  refine ⟨.defective .absentCode, ?_, rfl⟩
  rw [decode, ← readImage, hread]
  rfl

end Code

end RegisterJit
