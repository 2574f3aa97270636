import RegisterJit.Proofs.Records

/-!
# Data of every schema are read back

What is written for a datum is read back as the datum, with its skipped fields zero, and neither a
strict prefix nor an extension of it is read. Reading a list of octets at once is reading it octet by
octet, and so is writing it.

`Schema.Admits` is the type of data as a relation between a schema and a datum, with the ranges of integers and
lengths. `Travels` says that a datum is written, and read back as another one whatever follows; there is a lemma
for each kind of schema, and `travels_all` for lists. `Extends` says that a reader which accepts an input reads
the same of a longer one, which excludes that prefixes are accepted. Lists of octets are read at once and not
one by one, so they are compared first (`encode_octets`, `decode_list_eq`). `Schema.roundtrip` is by induction
on the schema.
-/

namespace RegisterJit

namespace Codec

/-! ## Data of a schema -/

mutual

/-- Whether a datum is one of a schema. Lengths and counts have 63 bits. Fields that are skipped may
hold anything. -/
def Schema.Admits : Schema → Datum → Prop
  | .bool, .bool _ => True
  | .text, .text t => t.length < 2 ^ 63
  | .double, .double _ => True
  | .integer octets true, .integer i => -2 ^ (8 * octets - 1) ≤ i ∧ i < 2 ^ (8 * octets - 1)
  | .integer octets false, .integer i => 0 ≤ i ∧ i < 2 ^ (8 * octets)
  | .list element, .list ds => ds.length < 2 ^ 63 ∧ ∀ d ∈ ds, element.Admits d
  | .array element count, .list ds => ds.length = count ∧ ∀ d ∈ ds, element.Admits d
  | .optional _, .optional none => True
  | .optional element, .optional (some d) => element.Admits d
  | .record fields, .record ds => AdmitsFields fields ds
  | _, _ => False

def AdmitsFields : List (Text × Bool × Schema) → List Datum → Prop
  | [], [] => True
  | (_, skip, schema) :: fields, d :: ds =>
    (skip = false → schema.Admits d) ∧ AdmitsFields fields ds
  | _, _ => False

end

/-- Whether every datum of a schema takes at least one octet. -/
def Schema.TakesOctet (schema : Schema) : Prop :=
  ∀ d bytes, schema.Admits d → encode schema d = .ok bytes → bytes ≠ []

mutual

/-- Whether a schema is made of the kinds that can be written, with integers of one, two, four or
eight octets, and lists only of elements that take at least one octet. Fields that are skipped may be
of any kind. -/
def Schema.Supported : Schema → Prop
  | .bool | .text | .double => True
  | .integer octets _ => octets ∈ [1, 2, 4, 8]
  | .list element => element.Supported ∧ element.TakesOctet
  | .array element _ | .optional element => element.Supported
  | .record fields => SupportedFields fields
  | .refused _ => False

/-- Whether the fields that are not skipped are of such schemas. -/
def SupportedFields : List (Text × Bool × Schema) → Prop
  | [] => True
  | (_, skip, schema) :: fields => (skip = false → schema.Supported) ∧ SupportedFields fields

end

mutual

def Schema.cleared : Schema → Datum → Datum
  | .list element, .list ds => .list (ds.map element.cleared)
  | .array element _, .list ds => .list (ds.map element.cleared)
  | .optional element, .optional (some d) => .optional (some (element.cleared d))
  | .record fields, .record ds => .record (clearedFields fields ds)
  | _, d => d

/-- The data of fields with zeros for those that are skipped. -/
def clearedFields : List (Text × Bool × Schema) → List Datum → List Datum
  | (_, skip, schema) :: fields, d :: ds =>
    (if skip then schema.zero else schema.cleared d) :: clearedFields fields ds
  | _, ds => ds

end

/-! ## Integers -/

theorem toUnsigned_of_le {n : Nat} (hn : n ≤ 8) (i : Int) :
    LittleEndian.toUnsigned n i = (i % (2 ^ (8 * n) : Nat)).toNat := by
  rw [LittleEndian.toUnsigned, Nat.min_eq_left hn]

theorem toUnsigned_lt {n : Nat} (hn : n ≤ 8) (i : Int) : LittleEndian.toUnsigned n i < 256 ^ n := by
  have hpos : (0 : Int) < (2 ^ (8 * n) : Nat) := by positivity
  have hlt := Int.emod_lt_of_pos i hpos
  have hle := Int.emod_nonneg i (Int.ne_of_gt hpos)
  rw [toUnsigned_of_le hn, ← Natural.two_pow_octets]
  omega

theorem decode_encodeInteger {n : Nat} (hwide : 0 < n) (hn : n ≤ 8) {signed : Bool} {i : Int}
    (h : (Schema.integer n signed).Admits (.integer i)) (rest : List UInt8) :
    decode (.integer n signed) (encodeInteger n i ++ rest) = (.integer i, .ok rest) := by
  have hpos : (0 : Int) < (2 ^ (8 * n) : Nat) := by positivity
  have hmod := Int.emod_nonneg i (Int.ne_of_gt hpos)
  rw [decode, encodeInteger, readInteger_encode n (toUnsigned_lt hn i), toUnsigned_of_le hn]
  cases signed with
  | false =>
    simp only [Schema.Admits] at h
    have hval : i % (2 ^ (8 * n) : Nat) = i := Int.emod_eq_of_lt h.1 (by exact_mod_cast h.2)
    simp only [Bool.false_eq_true, if_false, hval, Int.toNat_of_nonneg h.1]
  | true =>
    simp only [Schema.Admits] at h
    have hval : LittleEndian.toSigned n (i % (2 ^ (8 * n) : Nat)).toNat = i := by
      rw [LittleEndian.toSigned, Int.toNat_of_nonneg hmod, Int.emod_bmod]
      have hhalf : (2 : Int) ^ (8 * n) = 2 * 2 ^ (8 * n - 1) := by
        rw [← pow_succ']
        congr 1
        omega
      apply Int.bmod_eq_of_le <;> push_cast <;> omega
    simp only [if_true, hval]

/-! ## Lists of octets -/

theorem encodeInteger_octet (i : Int) : encodeInteger 1 i = [UInt8.ofInt i] := by
  rw [encodeInteger, toUnsigned_of_le (by decide)]
  rfl

theorem encodeAll_octets {ds : List Datum} (h : ∀ d ∈ ds, (Schema.integer 1 false).Admits d) :
    encodeAll (.integer 1 false) ds = .ok (octetsOf ds) ∧ (octetsOf ds).length = ds.length := by
  induction ds with
  | nil => exact ⟨rfl, rfl⟩
  | cons d ds ih =>
    obtain ⟨htail, hlength⟩ := ih fun e he => h e (List.mem_cons_of_mem d he)
    cases d with
    | integer i =>
      constructor
      · rw [encodeAll_cons, htail, encode_integer, encodeInteger_octet]
        rfl
      · simp only [octetsOf, List.length_cons, hlength]
    | _ => exact absurd (h _ (List.mem_cons_self ..)) (by simp [Schema.Admits])

/-- Writing a list of octets at once is writing its length and then octet by octet. -/
theorem encode_octets {ds : List Datum} (h : ∀ d ∈ ds, (Schema.integer 1 false).Admits d) :
    encode (.list (.integer 1 false)) (.list ds) =
      do return Natural.encode ds.length ++ (← encodeAll (.integer 1 false) ds) := by
  obtain ⟨hall, hlength⟩ := encodeAll_octets h
  rw [hall, ← hlength]
  rfl

theorem decode_octet (b : UInt8) (rest : List UInt8) :
    decode (.integer 1 false) (b :: rest) = (.integer b.toNat, .ok rest) := by
  simp [decode, readInteger, LittleEndian.decode]

theorem decodeMany_octets (zero : Datum) (n index : Nat) {input : List UInt8}
    (h : n ≤ input.length) : decodeMany (decode (.integer 1 false)) zero n index input =
      ((input.take n).map fun b => .integer b.toNat, .ok (input.drop n)) := by
  induction n generalizing index input with
  | zero => rfl
  | succ n ih =>
    cases input with
    | nil => cases h
    | cons b rest =>
      rw [decodeMany, decode_octet]
      simp only
      rw [ih (index + 1) (Nat.le_of_succ_le_succ h)]
      rfl

theorem decode_octets (input : List UInt8) : decode (.list (.integer 1 false)) input =
    decodeItems (decode (.integer 1 false)) (Schema.integer 1 false).zero input := by
  rw [decode, readBytes, decodeItems]
  cases hl : readLength input with
  | error e => rfl
  | ok r =>
    obtain ⟨n, rest⟩ := r
    obtain ⟨_, _, _, _, hn, _⟩ := readLength_ok hl
    simp only [decodeMany_octets _ n 0 hn]
    rfl

/-- Reading a list of any data is reading its length and then one after the other. -/
theorem decode_list_eq (element : Schema) (input : List UInt8) :
    decode (.list element) input = decodeItems (decode element) element.zero input := by
  by_cases h : element = .integer 1 false
  · subst h
    exact decode_octets input
  · exact decode_list h input

theorem encode_list_eq {element : Schema} {ds : List Datum} (h : ∀ d ∈ ds, element.Admits d) :
    encode (.list element) (.list ds) =
      do return Natural.encode ds.length ++ (← encodeAll element ds) := by
  by_cases he : element = .integer 1 false
  · subst he
    exact encode_octets h
  · exact encode_list he ds

/-! ## Reading what was written -/

/-- A datum has bytes from which another is read, whatever follows them. -/
def Travels (schema : Schema) (d e : Datum) : Prop :=
  ∃ bytes, encode schema d = .ok bytes ∧ ∀ rest, decode schema (bytes ++ rest) = (e, .ok rest)

/-- Data that travel one by one do so one after the other, in at least as many octets if each of them
takes one. -/
theorem travels_all {element : Schema} {view : Datum → Datum} {ds : List Datum}
    (h : ∀ d ∈ ds, Travels element d (view d)) :
    ∃ bytes, encodeAll element ds = .ok bytes ∧
      ((∀ d ∈ ds, ∀ b, encode element d = .ok b → b ≠ []) → ds.length ≤ bytes.length) ∧
      ∀ zero index rest, decodeMany (decode element) zero ds.length index (bytes ++ rest) =
        (ds.map view, .ok rest) := by
  induction ds with
  | nil => exact ⟨[], rfl, fun _ => Nat.le_refl 0, fun _ _ _ => rfl⟩
  | cons d ds ih =>
    obtain ⟨first, hfirst, hread⟩ := h d (List.mem_cons_self ..)
    obtain ⟨more, hmore, hlength, hreads⟩ := ih fun e he => h e (List.mem_cons_of_mem d he)
    refine ⟨first ++ more, ?_, fun hne => ?_, fun zero index rest => ?_⟩
    · rw [encodeAll_cons, hfirst, hmore]
      rfl
    · have hpos := List.length_pos_iff.2 (hne d (List.mem_cons_self ..) first hfirst)
      have hle := hlength fun e he => hne e (List.mem_cons_of_mem d he)
      rw [List.length_append, List.length_cons]
      omega
    · rw [List.length_cons, decodeMany, List.append_assoc, hread]
      simp only [hreads, List.map_cons]

mutual

/-- A datum of a supported schema is read back with its skipped fields zero. -/
theorem travels_cleared : ∀ {schema : Schema} {d : Datum}, schema.Supported → schema.Admits d →
    Travels schema d (schema.cleared d)
  | .bool, d, _, hd => by
    cases d with
    | bool b => exact ⟨_, rfl, fun rest => by cases b <;> rfl⟩
    | _ => simp [Schema.Admits] at hd
  | .text, d, _, hd => by
    cases d with
    | text t =>
      refine ⟨_, rfl, fun rest => ?_⟩
      rw [decode_text, readBytes_encode (Nat.lt_trans hd (by decide))]
      rfl
    | _ => simp [Schema.Admits] at hd
  | .double, d, _, hd => by
    cases d with
    | double x =>
      refine ⟨_, rfl, fun rest => ?_⟩
      rw [decode_double, readInteger_encode 8 x.bits.toNat_lt]
      simp [Schema.cleared]
    | _ => simp [Schema.Admits] at hd
  | .integer n signed, d, hs, hd => by
    cases d with
    | integer i =>
      simp only [Schema.Supported, List.mem_cons, List.not_mem_nil, or_false] at hs
      refine ⟨_, rfl, fun rest => ?_⟩
      rw [decode_encodeInteger (by omega) (by omega) hd]
      simp only [Schema.cleared]
    | _ => cases signed <;> simp [Schema.Admits] at hd
  | .list element, d, hs, hd => by
    cases d with
    | list ds =>
      rw [Schema.Admits] at hd
      rw [Schema.Supported] at hs
      obtain ⟨bytes, hbytes, hlength, hread⟩ :=
        travels_all fun d hmem => travels_cleared hs.1 (hd.2 d hmem)
      refine ⟨Natural.encode ds.length ++ bytes, ?_, fun rest => ?_⟩
      · rw [encode_list_eq hd.2, hbytes]
        rfl
      · have hle := hlength fun d hmem b hb => hs.2 d b (hd.2 d hmem) hb
        rw [decode_list_eq, decodeItems, List.append_assoc,
          readLength_encode (Nat.lt_trans hd.1 (by decide)) (by rw [List.length_append]; omega)]
        simp only [hread, Schema.cleared]
    | _ => simp [Schema.Admits] at hd
  | .array element count, d, hs, hd => by
    cases d with
    | list ds =>
      rw [Schema.Admits] at hd
      rw [Schema.Supported] at hs
      obtain ⟨bytes, hbytes, -, hread⟩ :=
        travels_all fun d hmem => travels_cleared hs (hd.2 d hmem)
      refine ⟨bytes, hbytes, fun rest => ?_⟩
      rw [decode, ← hd.1]
      simp only [hread, Schema.cleared]
    | _ => simp [Schema.Admits] at hd
  | .optional element, d, hs, hd => by
    cases d with
    | optional value =>
      cases value with
      | none => exact ⟨_, rfl, fun rest => rfl⟩
      | some d =>
        rw [Schema.Admits] at hd
        rw [Schema.Supported] at hs
        obtain ⟨bytes, hbytes, hread⟩ := travels_cleared hs hd
        refine ⟨1 :: bytes, ?_, fun rest => ?_⟩
        · rw [encode_some, hbytes]
          rfl
        · rw [List.cons_append, decode_optional, if_neg (by decide), hread]
          simp only [Schema.cleared]
    | _ => simp [Schema.Admits] at hd
  | .record fields, d, hs, hd => by
    cases d with
    | record ds =>
      rw [Schema.Admits] at hd
      rw [Schema.Supported] at hs
      obtain ⟨bytes, hbytes, hread⟩ := travels_clearedFields hs hd
      refine ⟨bytes, ?_, fun rest => ?_⟩
      · rw [encode_record, hbytes]
      · rw [decode_record, hread]
        simp only [Schema.cleared]
    | _ => simp [Schema.Admits] at hd
  | .refused _, d, hs, _ => by simp [Schema.Supported] at hs

/-- The data of fields are read back with zeros for those that are skipped. -/
theorem travels_clearedFields : ∀ {fields : List (Text × Bool × Schema)} {ds : List Datum},
    SupportedFields fields → AdmitsFields fields ds →
    ∃ bytes, encodeFields fields ds = .ok bytes ∧
      ∀ rest, decodeFields fields (bytes ++ rest) = (clearedFields fields ds, .ok rest)
  | [], ds, _, hd => by
    cases ds with
    | nil => exact ⟨[], rfl, fun rest => rfl⟩
    | cons d ds => simp [AdmitsFields] at hd
  | (name, skip, schema) :: fields, ds, hs, hd => by
    cases ds with
    | nil => simp [AdmitsFields] at hd
    | cons d ds =>
      rw [AdmitsFields] at hd
      rw [SupportedFields] at hs
      obtain ⟨more, hmore, hread⟩ := travels_clearedFields hs.2 hd.2
      cases skip with
      | true =>
        refine ⟨more, ?_, fun rest => ?_⟩
        · rw [encodeFields_entry, hmore]
          rfl
        · rw [decodeFields_entry, if_pos rfl, hread]
          simp only [clearedFields, if_true]
      | false =>
        obtain ⟨first, hfirst, hone⟩ := travels_cleared (hs.1 rfl) (hd.1 rfl)
        refine ⟨first ++ more, ?_, fun rest => ?_⟩
        · rw [encodeFields_entry, hmore]
          simp only [Bool.false_eq_true, if_false, hfirst]
          rfl
        · rw [decodeFields_entry, if_neg Bool.false_ne_true, List.append_assoc, hone]
          simp only [hread, clearedFields, Bool.false_eq_true, if_false]

end

/-! ## More and less input -/

theorem readInteger_append {n x : Nat} {input rest : List UInt8}
    (h : readInteger n input = .ok (x, rest)) (more : List UInt8) :
    readInteger n (input ++ more) = .ok (x, rest ++ more) := by
  obtain ⟨head, rfl, -, hread⟩ := reads_integer n h
  rw [List.append_assoc, hread]

theorem readLength_append {n : Nat} {input rest : List UInt8} (h : readLength input = .ok (n, rest))
    (more : List UInt8) : readLength (input ++ more) = .ok (n, rest ++ more) := by
  obtain ⟨head, rfl, -, -, hn, hread⟩ := readLength_ok h
  rw [List.append_assoc]
  exact hread _ (by rw [List.length_append]; omega)

theorem readBytes_append {t input rest : List UInt8} (h : readBytes input = .ok (t, rest))
    (more : List UInt8) : readBytes (input ++ more) = .ok (t, rest ++ more) := by
  obtain ⟨head, rfl, -, hread⟩ := reads_bytes h
  rw [List.append_assoc, hread]

/-- A reader that gives what it gives whatever follows the input. -/
def Extends {α : Type} (read : List UInt8 → Reading α) : Prop :=
  ∀ ⦃input x rest⦄, read input = (x, .ok rest) → ∀ more, read (input ++ more) = (x, .ok (rest ++ more))

theorem decodeMany_extends {read : List UInt8 → Reading Datum} (h : Extends read) (zero : Datum)
    (n index : Nat) : Extends (decodeMany read zero n index) := by
  induction n generalizing index with
  | zero =>
    intro input ds rest hds more
    cases hds
    rfl
  | succ n ih =>
    intro input ds rest hds more
    rw [decodeMany] at hds
    cases hr : read input with
    | mk d result =>
      cases result with
      | error e => simp [hr] at hds
      | ok left =>
        cases hm : decodeMany read zero n (index + 1) left with
        | mk es outcome =>
          simp only [hr, hm, Prod.mk.injEq] at hds
          obtain ⟨rfl, rfl⟩ := hds
          rw [decodeMany, h hr more]
          simp only [ih (index + 1) hm more]

mutual

theorem decode_extends : ∀ schema : Schema, Extends (decode schema)
  | .bool => by
    intro input d rest h more
    cases input with
    | nil => simp [decode] at h
    | cons b input =>
      simp only [decode, Prod.mk.injEq, Except.ok.injEq] at h
      obtain ⟨rfl, rfl⟩ := h
      rfl
  | .text => by
    intro input d rest h more
    rw [decode_text] at h ⊢
    cases hr : readBytes input with
    | error e => simp [hr] at h
    | ok r =>
      simp only [hr, Prod.mk.injEq, Except.ok.injEq] at h
      rw [readBytes_append hr more]
      simp [h]
  | .double => by
    intro input d rest h more
    rw [decode_double] at h ⊢
    cases hr : readInteger 8 input with
    | error e => simp [hr] at h
    | ok r =>
      simp only [hr, Prod.mk.injEq, Except.ok.injEq] at h
      rw [readInteger_append hr more]
      simp [h]
  | .integer n signed => by
    intro input d rest h more
    rw [decode] at h ⊢
    cases hr : readInteger n input with
    | error e => simp [hr] at h
    | ok r =>
      simp only [hr, Prod.mk.injEq, Except.ok.injEq] at h
      rw [readInteger_append hr more]
      simp [h]
  | .list element => by
    intro input d rest h more
    rw [decode_list_eq, decodeItems] at h ⊢
    cases hr : readLength input with
    | error e => simp [hr] at h
    | ok r =>
      cases hm : decodeMany (decode element) element.zero r.1 0 r.2 with
      | mk ds outcome =>
        simp only [hr, hm, Prod.mk.injEq] at h
        obtain ⟨rfl, rfl⟩ := h
        rw [readLength_append hr more]
        simp only [decodeMany_extends (decode_extends element) _ _ _ hm more]
  | .array element count => by
    intro input d rest h more
    rw [decode] at h ⊢
    cases hm : decodeMany (decode element) element.zero count 0 input with
    | mk ds outcome =>
      simp only [hm, Prod.mk.injEq] at h
      obtain ⟨rfl, rfl⟩ := h
      simp only [decodeMany_extends (decode_extends element) _ _ _ hm more]
  | .optional element => by
    intro input d rest h more
    cases input with
    | nil => simp [decode] at h
    | cons tag input =>
      rw [List.cons_append, decode_optional] at *
      by_cases htag : tag = 0
      · simp only [htag, if_true, Prod.mk.injEq, Except.ok.injEq] at h ⊢
        simp [h]
      · cases hr : decode element input with
        | mk e outcome =>
          simp only [htag, if_false, hr, Prod.mk.injEq] at h ⊢
          obtain ⟨rfl, rfl⟩ := h
          simp only [decode_extends element hr more, and_self]
  | .record fields => by
    intro input d rest h more
    rw [decode_record] at h ⊢
    cases hr : decodeFields fields input with
    | mk ds outcome =>
      simp only [hr, Prod.mk.injEq] at h
      obtain ⟨rfl, rfl⟩ := h
      simp only [decodeFields_extends fields hr more]
  | .refused kind => by
    intro input d rest h more
    simp [decode] at h

theorem decodeFields_extends : ∀ fields : List (Text × Bool × Schema), Extends (decodeFields fields)
  | [] => by
    intro input ds rest h more
    cases h
    rfl
  | (name, skip, schema) :: fields => by
    intro input ds rest h more
    rw [decodeFields_entry] at h ⊢
    cases skip with
    | true =>
      cases hr : decodeFields fields input with
      | mk es outcome =>
        simp only [if_true, hr, Prod.mk.injEq] at h ⊢
        obtain ⟨rfl, rfl⟩ := h
        simp only [decodeFields_extends fields hr more, and_self]
    | false =>
      cases hr : decode schema input with
      | mk d result =>
        cases result with
        | error e => simp [hr] at h
        | ok left =>
          cases hm : decodeFields fields left with
          | mk es outcome =>
            simp only [Bool.false_eq_true, if_false, hr, hm, Prod.mk.injEq] at h ⊢
            obtain ⟨rfl, rfl⟩ := h
            simp only [decode_extends schema hr more, decodeFields_extends fields hm more]

end

/-! ## The round trip -/

theorem decodeWhole_part {schema : Schema} {part more : List UInt8} {d : Datum}
    (h : decode schema (part ++ more) = (d, .ok [])) (hmore : more ≠ []) :
    ∃ cause, (decodeWhole schema part).2 = .error (.malformed cause) := by
  rw [decodeWhole]
  cases hr : decode schema part with
  | mk e result =>
    cases result with
    | error cause => exact ⟨cause, rfl⟩
    | ok rest =>
      rw [decode_extends schema hr more, Prod.mk.injEq, Except.ok.injEq] at h
      exact absurd (List.append_eq_nil_iff.1 h.2).2 hmore

/-- **Data of every schema are read back.** A datum of a supported schema is written, and what is
written is read back as the datum with its skipped fields zero; no strict prefix of it is a datum,
and no extension. For lists of octets, which are written and read at once, the bytes and the data are
those of going octet by octet, whatever the input. -/
theorem Schema.roundtrip {schema : Schema} (hs : schema.Supported) {d : Datum}
    (hd : schema.Admits d) :
    (∃ bytes, encode schema d = .ok bytes ∧
      decodeWhole schema bytes = (schema.cleared d, .ok ()) ∧
      (∀ part more, part ++ more = bytes → more ≠ [] →
        ∃ cause, (decodeWhole schema part).2 = .error (.malformed cause)) ∧
      ∀ more, more ≠ [] →
        (decodeWhole schema (bytes ++ more)).2 = .error (.extra more.length)) ∧
    (∀ ds, (∀ e ∈ ds, (Schema.integer 1 false).Admits e) →
      encode (.list (.integer 1 false)) (.list ds) =
        do return Natural.encode ds.length ++ (← encodeAll (.integer 1 false) ds)) ∧
    ∀ input, decode (.list (.integer 1 false)) input =
      decodeItems (decode (.integer 1 false)) (Schema.integer 1 false).zero input := by
  refine ⟨?_, fun ds hds => encode_octets hds, decode_octets⟩
  obtain ⟨bytes, hbytes, hread⟩ := travels_cleared hs hd
  have hwhole : decode schema bytes = (schema.cleared d, .ok []) := by
    have h := hread []
    rwa [List.append_nil] at h
  refine ⟨bytes, hbytes, ?_, fun part more hpart hmore => ?_, fun more hmore => ?_⟩
  · rw [decodeWhole, hwhole]
    rfl
  · subst hpart
    exact decodeWhole_part hwhole hmore
  · rw [decodeWhole, hread more]
    simp [hmore]

theorem takesOctet_integer {octets : Nat} (h : 0 < octets) (signed : Bool) :
    (Schema.integer octets signed).TakesOctet := by
  intro d bytes hd hbytes
  cases d with
  | integer i =>
    rw [encode_integer] at hbytes
    cases hbytes
    apply List.ne_nil_of_length_pos
    rw [encodeInteger, LittleEndian.length_encode]
    exact h
  | _ => cases signed <;> simp [Schema.Admits] at hd

theorem takesOctet_record {name : Text} {schema : Schema} (h : schema.TakesOctet)
    (fields : List (Text × Bool × Schema)) :
    (Schema.record ((name, false, schema) :: fields)).TakesOctet := by
  intro d bytes hd hbytes
  cases d with
  | record ds =>
    cases ds with
    | nil => simp [Schema.Admits, AdmitsFields] at hd
    | cons d ds =>
      rw [Schema.Admits, AdmitsFields] at hd
      rw [encode_record, encodeFields_entry] at hbytes
      cases hfirst : encode schema d with
      | error e => simp [hfirst, bind, Except.bind] at hbytes
      | ok first =>
        cases hrest : encodeFields fields ds with
        | error e => simp [hfirst, hrest, bind, Except.bind] at hbytes
        | ok rest =>
          have hne := h d first (hd.1 rfl) hfirst
          simp only [Bool.false_eq_true, if_false, hfirst, hrest, bind, Except.bind, pure, Except.pure,
            Except.ok.injEq] at hbytes
          intro hnil
          rw [hnil, List.append_eq_nil_iff] at hbytes
          exact hne hbytes.1
  | _ => simp [Schema.Admits] at hd

/-- Records of a signed integer and an optional double in a list, octets, a grid of small integers,
and a skipped field of a kind that is refused. -/
def ledgerSchema : Schema :=
  .record
    [("name", false, .text), ("cache", true, .refused "map"),
      ("entries", false,
        .list (.record [("id", false, .integer 4 true), ("weight", false, .optional .double)])),
      ("raw", false, .list (.integer 1 false)),
      ("grid", false, .array (.array (.integer 2 true) 2) 2)]

def ledger : Datum :=
  .record
    [.text [0xff, 0x00], .unit,
      .list
        [.record [.integer (-2147483648), .optional (some (.double ⟨0x7ff0000000000001⟩))],
          .record [.integer 2147483647, .optional none]],
      .list [.integer 0, .integer 255],
      .list [.list [.integer (-1), .integer 0], .list [.integer 32767, .integer (-32768)]]]

theorem roundtrip_ledger :
    ledgerSchema.Supported ∧ ledgerSchema.Admits ledger ∧
      ∃ bytes, encode ledgerSchema ledger = .ok bytes ∧ bytes.length = 33 ∧
        decodeWhole ledgerSchema bytes = (ledger, .ok ()) ∧
        ∃ cause, (decodeWhole ledgerSchema (bytes.take 32)).2 = .error (.malformed cause) := by
  have hs : ledgerSchema.Supported := by
    simp only [ledgerSchema, Schema.Supported, SupportedFields]
    refine ⟨fun _ => trivial, nofun, fun _ => ⟨by simp, ?_⟩, fun _ => ⟨by simp, ?_⟩, by simp, trivial⟩
    · exact takesOctet_record (takesOctet_integer (by decide) true) _
    · exact takesOctet_integer (by decide) false
  have hd : ledgerSchema.Admits ledger := by
    simp [ledgerSchema, ledger, Schema.Admits, AdmitsFields]
  obtain ⟨bytes, hbytes, hwhole, hpart, -⟩ := (Schema.roundtrip hs hd).1
  have hlength : bytes.length = 33 := by
    cases hbytes
    rfl
  refine ⟨hs, hd, bytes, hbytes, hlength, hwhole, ?_⟩
  refine hpart (bytes.take 32) (bytes.drop 32) (List.take_append_drop 32 bytes) ?_
  apply List.ne_nil_of_length_pos
  rw [List.length_drop, hlength]
  decide

end Codec

end RegisterJit
