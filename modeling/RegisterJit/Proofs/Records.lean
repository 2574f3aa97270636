import RegisterJit.Compile.Frame
import RegisterJit.Proofs.Images
import RegisterJit.Value

/-!
# Images as structured data

A code in memory is a record: the fields that are written to an image, and fields of the runtime
that are skipped. The image of a program is what the general codec writes for its record, whatever
the runtime fields hold, and reading it gives the record with all runtime fields zero.

`Code.schema` describes the fields of a code as data for the general codec, `Code.datum` is a code as such a
datum, with the fields of the runtime as `Extras`. `Agrees` says that the codec reads what a reader of images
reads; it is proved for integers, texts, lists and records, then for codes by induction on their depth, and
`encode_datum` is the counterpart for writing. `image_roundtrip` combines both with `Images`: what is read back
is the record with its runtime fields zero. `Schemas` treats the codec for every schema, `Storage` images under
keys.
-/

namespace RegisterJit

open Codec

/-! ## Schemas and records -/

def Constant.schema : Schema :=
  .record [("Kind", false, .integer 1 false), ("Number", false, .double), ("Text", false, .text)]

def Constant.datum (k : Constant) : Datum :=
  .record [.integer k.kind.toNat, .double k.number, .text k.text]

/-- The schema of a handler; the native range belongs to the runtime. -/
def Handler.schema : Schema :=
  .record [("Kind", false, .integer 1 false), ("Begin", false, .integer 4 false),
    ("End", false, .integer 4 false), ("DynamicEnvLevel", false, .integer 4 false),
    ("Jump", false, .integer 4 true), ("Flag", false, .integer 4 true),
    ("NativeBegin", true, .integer 8 false), ("NativeEnd", true, .integer 8 false)]

/-- The record of a handler with a native range. -/
def Handler.datum (native : UInt64 × UInt64) (h : Handler) : Datum :=
  .record [.integer h.kind.toNat, .integer h.start.toNat, .integer h.stop.toNat,
    .integer h.level.toNat, .integer h.jump.index.toInt, .integer h.flag.index.toInt,
    .integer native.1.toNat, .integer native.2.toNat]

namespace Code

/-- What the runtime keeps with a code: its boxed constants, its number, its entry and the native
ranges of its handlers. -/
structure Extras where
  pool : List Value
  id : UInt32
  entry : UInt64
  native : Nat → UInt64 × UInt64

/-- What the runtime has not touched yet. -/
def Extras.zero : Extras := ⟨[], 0, 0, fun _ => (0, 0)⟩

/-- The schema of a program with less than `depth` levels of nesting. -/
def schema : (depth : Nat) → Schema
  | 0 => .refused "program"
  | depth + 1 =>
    .record [("Name", false, .text), ("Data", false, .list (.integer 8 false)),
      ("Constants", false, .list Constant.schema), ("Names", false, .list .text),
      ("Codes", false, .list (.optional (schema depth))),
      ("Handlers", false, .list Handler.schema), ("Params", false, .integer 4 false),
      ("RegisterCount", false, .integer 4 false), ("Strict", false, .bool),
      ("Pool", true, .list (.integer 8 false)), ("ID", true, .integer 4 false),
      ("Entry", true, .integer 8 false)]

mutual

/-- The record of a program; `extras` gives what the runtime keeps with the code that is reached
by a path of indices. -/
def datum (extras : List Nat → Extras) : Code → Datum
  | ⟨name, data, constants, names, codes, handlers, params, registerCount, strict⟩ =>
    .record [.text name, .list (data.toList.map fun w => .integer w.toNat),
      .list (constants.toList.map Constant.datum), .list (names.toList.map .text),
      .list (codeData extras 0 codes),
      .list (handlers.toList.zipIdx.map fun (h, i) => h.datum ((extras []).native i)),
      .integer params.toNat, .integer registerCount.toNat, .bool strict,
      .list ((extras []).pool.map fun v => .integer v.word.toNat), .integer (extras []).id.toNat,
      .integer (extras []).entry.toNat]

/-- The records of nested codes, numbered from `index`. -/
def codeData (extras : List Nat → Extras) : (index : Nat) → List (Option Code) → List Datum
  | _, [] => []
  | index, none :: rest => .optional none :: codeData extras (index + 1) rest
  | index, some c :: rest =>
    .optional (some (datum (fun path => extras (index :: path)) c)) ::
      codeData extras (index + 1) rest

end

end Code

/-! ## Integers -/

theorem encodeInteger_nat {n x : Nat} (hn : n ≤ 8) (h : x < 256 ^ n) :
    encodeInteger n x = LittleEndian.encode n x := by
  have hpow : 2 ^ (8 * n) = 256 ^ n := Natural.two_pow_octets n
  rw [encodeInteger, LittleEndian.toUnsigned, Nat.min_eq_left hn, hpow, ← Int.natCast_mod,
    Int.toNat_natCast, Nat.mod_eq_of_lt h]

theorem encodeInteger_int32 (i : Int32) :
    encodeInteger 4 i.toInt = LittleEndian.encode 4 i.toUInt32.toNat := by
  have hval : LittleEndian.toUnsigned 4 i.toInt = i.toUInt32.toNat := by
    change (i.toBitVec.toInt % (2 ^ 32 : Nat)).toNat = i.toBitVec.toNat
    rw [BitVec.toInt_eq_toNat_bmod, Int.bmod_emod, ← Int.natCast_mod, Int.toNat_natCast,
      Nat.mod_eq_of_lt i.toBitVec.isLt]
  rw [encodeInteger, hval]

theorem toSigned_four {x : Nat} (h : x < 2 ^ 32) :
    LittleEndian.toSigned 4 x = x.toUInt32.toInt32.toInt := by
  change Int.bmod x (2 ^ 32) = (BitVec.ofNat 32 x).toInt
  rw [BitVec.toInt_eq_toNat_bmod, BitVec.toNat_ofNat, Nat.mod_eq_of_lt h]

/-! ## The codec on each shape -/

theorem encode_bool (b : Bool) : Codec.encode .bool (.bool b) = .ok [if b then 1 else 0] := rfl

theorem encode_text (t : Text) : Codec.encode .text (.text t) = .ok (encodeBytes t) := rfl

theorem encode_double (x : Double) :
    Codec.encode .double (.double x) = .ok (LittleEndian.encode 8 x.bits.toNat) := rfl

theorem encode_integer (n : Nat) (signed : Bool) (i : Int) :
    Codec.encode (.integer n signed) (.integer i) = .ok (encodeInteger n i) := rfl

theorem encode_none (element : Schema) :
    Codec.encode (.optional element) (.optional none) = .ok [0] := rfl

theorem encode_some (element : Schema) (d : Datum) :
    Codec.encode (.optional element) (.optional (some d)) =
      do return 1 :: (← Codec.encode element d) := rfl

theorem encode_record (fields : List (Text × Bool × Schema)) (data : List Datum) :
    Codec.encode (.record fields) (.record data) = encodeFields fields data := rfl

theorem encodeAll_nil (element : Schema) : encodeAll element [] = .ok [] := rfl

theorem encodeAll_cons (element : Schema) (d : Datum) (data : List Datum) :
    encodeAll element (d :: data) =
      do return (← Codec.encode element d) ++ (← encodeAll element data) := rfl

theorem encode_list {element : Schema} (hne : element ≠ .integer 1 false) (data : List Datum) :
    Codec.encode (.list element) (.list data) =
      do return Natural.encode data.length ++ (← encodeAll element data) := by
  rw [Codec.encode]
  exact hne

theorem encodeFields_nil : encodeFields [] [] = .ok [] := rfl

theorem encodeFields_entry (name : Text) (skip : Bool) (schema : Schema)
    (fields : List (Text × Bool × Schema)) (d : Datum) (data : List Datum) :
    encodeFields ((name, skip, schema) :: fields) (d :: data) = do
      let bytes ← if skip then pure [] else Codec.encode schema d
      return bytes ++ (← encodeFields fields data) := rfl

theorem decode_text (input : List UInt8) : Codec.decode .text input =
    match readBytes input with
    | .error e => (.text [], .error e)
    | .ok (t, rest) => (.text t, .ok rest) := rfl

theorem decode_list {element : Schema} (hne : element ≠ .integer 1 false) (input : List UInt8) :
    Codec.decode (.list element) input =
      decodeItems (Codec.decode element) element.zero input := by
  rw [Codec.decode]
  exact hne

theorem decode_double (input : List UInt8) : Codec.decode .double input =
    match readInteger 8 input with
    | .error e => (.double Double.zero, .error e)
    | .ok (x, rest) => (.double ⟨x.toUInt64⟩, .ok rest) := rfl

theorem decode_optional (element : Schema) (tag : UInt8) (rest : List UInt8) :
    Codec.decode (.optional element) (tag :: rest) =
      if tag = 0 then (.optional none, .ok rest)
      else
        let (d, result) := Codec.decode element rest
        (.optional (some d), result) := rfl

theorem decode_record (fields : List (Text × Bool × Schema)) (input : List UInt8) :
    Codec.decode (.record fields) input =
      let (ds, result) := decodeFields fields input
      (.record ds, result) := rfl

theorem decodeFields_entry (name : Text) (skip : Bool) (schema : Schema)
    (fields : List (Text × Bool × Schema)) (input : List UInt8) :
    decodeFields ((name, skip, schema) :: fields) input =
      if skip then
        let (ds, result) := decodeFields fields input
        (schema.zero :: ds, result)
      else
        match Codec.decode schema input with
        | (d, .error e) => (d :: zeroFields fields, .error (.inField name e))
        | (d, .ok rest) =>
          let (ds, result) := decodeFields fields rest
          (d :: ds, result) := rfl

/-! ## Writing -/

theorem encodeAll_map {α : Type} {element : Schema} {view : α → Datum} {write : α → List UInt8}
    {xs : List α} (h : ∀ x ∈ xs, Codec.encode element (view x) = .ok (write x)) :
    encodeAll element (xs.map view) = .ok (xs.flatMap write) := by
  induction xs with
  | nil => exact encodeAll_nil element
  | cons x xs ih =>
    rw [List.map_cons, encodeAll_cons, h x (List.mem_cons_self ..),
      ih fun y hy => h y (List.mem_cons_of_mem _ hy)]
    rfl

theorem encode_list_map {α : Type} {element : Schema} (hne : element ≠ .integer 1 false)
    {view : α → Datum} {write : α → List UInt8} {xs : List α}
    (h : ∀ x ∈ xs, Codec.encode element (view x) = .ok (write x)) :
    Codec.encode (.list element) (.list (xs.map view)) = .ok (encodeList write xs) := by
  rw [encode_list hne, encodeAll_map h, List.length_map]
  rfl

theorem encodeFields_cons {name : Text} {schema : Schema} {d : Datum} {bytes more : List UInt8}
    {fields : List (Text × Bool × Schema)} {data : List Datum}
    (h : Codec.encode schema d = .ok bytes) (hmore : encodeFields fields data = .ok more) :
    encodeFields ((name, false, schema) :: fields) (d :: data) = .ok (bytes ++ more) := by
  rw [encodeFields_entry, if_neg Bool.false_ne_true, h, hmore]
  rfl

theorem encodeFields_skip {name : Text} {schema : Schema} {d : Datum} {more : List UInt8}
    {fields : List (Text × Bool × Schema)} {data : List Datum}
    (hmore : encodeFields fields data = .ok more) :
    encodeFields ((name, true, schema) :: fields) (d :: data) = .ok more := by
  rw [encodeFields_entry, if_pos rfl, hmore]
  rfl

theorem encode_octet (x : UInt8) :
    Codec.encode (.integer 1 false) (.integer x.toNat) = .ok [x] := by
  rw [encode_integer, encodeInteger_nat (by decide) x.toNat_lt]
  simp [LittleEndian.encode]

theorem encode_uint32 (x : UInt32) :
    Codec.encode (.integer 4 false) (.integer x.toNat) = .ok (LittleEndian.encode 4 x.toNat) := by
  rw [encode_integer, encodeInteger_nat (by decide) x.toNat_lt]

theorem encode_register (r : Register) : Codec.encode (.integer 4 true) (.integer r.index.toInt) =
    .ok (LittleEndian.encode 4 r.index.toUInt32.toNat) := by
  rw [encode_integer, encodeInteger_int32]

theorem encode_word (w : Word) :
    Codec.encode (.integer 8 false) (.integer w.toNat) = .ok (LittleEndian.encode 8 w.toNat) := by
  rw [encode_integer, encodeInteger_nat (by decide) w.toNat_lt]

theorem Constant.encode_datum (k : Constant) : Codec.encode schema k.datum = .ok k.encode := by
  rw [schema, datum, encode_record]
  refine (encodeFields_cons (encode_octet k.kind) (encodeFields_cons (encode_double k.number)
    (encodeFields_cons (encode_text k.text) encodeFields_nil))).trans ?_
  simp only [encode, List.append_assoc, List.append_nil]

theorem Handler.encode_datum (native : UInt64 × UInt64) (h : Handler) :
    Codec.encode schema (h.datum native) = .ok h.encode := by
  rw [schema, datum, encode_record]
  refine (encodeFields_cons (encode_octet h.kind) (encodeFields_cons (encode_uint32 h.start)
    (encodeFields_cons (encode_uint32 h.stop) (encodeFields_cons (encode_uint32 h.level)
    (encodeFields_cons (encode_register h.jump) (encodeFields_cons (encode_register h.flag)
    (encodeFields_skip (encodeFields_skip encodeFields_nil)))))))).trans ?_
  simp only [encode, List.append_assoc, List.append_nil]

namespace Code

theorem codeData_none (extras : List Nat → Extras) (index : Nat) (rest : List (Option Code)) :
    codeData extras index (none :: rest) =
      .optional none :: codeData extras (index + 1) rest := rfl

theorem codeData_some (extras : List Nat → Extras) (index : Nat) (c : Code)
    (rest : List (Option Code)) :
    codeData extras index (some c :: rest) =
      .optional (some (c.datum fun path => extras (index :: path))) ::
        codeData extras (index + 1) rest := rfl

theorem encode_codeData {depth : Nat} {codes : List (Option Code)} {extras : List Nat → Extras}
    (h : ∀ c, some c ∈ codes → ∀ extras, Codec.encode (schema depth) (c.datum extras) = .ok c.encode)
    (index : Nat) :
    encodeAll (.optional (schema depth)) (codeData extras index codes) =
      .ok (codes.flatMap encodeNested) := by
  induction codes generalizing index with
  | nil => rfl
  | cons o codes ih =>
    have hrest := ih (fun c hc => h c (List.mem_cons_of_mem _ hc)) (index + 1)
    cases o with
    | none => rw [codeData_none, encodeAll_cons, hrest, encode_none]; rfl
    | some c =>
      rw [codeData_some, encodeAll_cons, hrest, encode_some, h c (List.mem_cons_self ..)]
      rfl

theorem length_codeData (extras : List Nat → Extras) (index : Nat) (codes : List (Option Code)) :
    (codeData extras index codes).length = codes.length := by
  induction codes generalizing index with
  | nil => rfl
  | cons o codes ih =>
    cases o with
    | none => rw [codeData_none, List.length_cons, ih, List.length_cons]
    | some c => rw [codeData_some, List.length_cons, ih, List.length_cons]

/-- The image of a program is what the codec writes for its record, whatever the runtime keeps with
it. -/
theorem encode_datum {depth : Nat} {c : Code} (h : c.encode.length ≤ depth)
    (extras : List Nat → Extras) : Codec.encode (schema depth) (c.datum extras) = .ok c.encode := by
  induction depth generalizing c extras with
  | zero =>
    rw [encode_eq] at h
    simp at h
  | succ depth ih =>
    have hcodes : ∀ d, some d ∈ c.codes → ∀ extras,
        Codec.encode (schema depth) (d.datum extras) = .ok d.encode := fun d hd extras =>
      ih (Nat.le_of_succ_le_succ (Nat.le_trans (length_encodeNested_le_of_mem hd) h)) extras
    rw [encode_eq]
    obtain ⟨name, data, constants, names, codes, handlers, params, registerCount, strict⟩ := c
    have hdata : Codec.encode (.list (.integer 8 false))
        (.list (data.toList.map fun w => .integer w.toNat)) =
        .ok (encodeList (fun w : Word => LittleEndian.encode 8 w.toNat) data.toList) :=
      encode_list_map (by simp) fun w _ => encode_word w
    have hconstants : Codec.encode (.list Constant.schema)
        (.list (constants.toList.map Constant.datum)) =
        .ok (encodeList Constant.encode constants.toList) :=
      encode_list_map (by simp [Constant.schema]) fun k _ => k.encode_datum
    have hnames : Codec.encode (.list .text) (.list (names.toList.map .text)) =
        .ok (encodeList encodeBytes names.toList) :=
      encode_list_map (by simp) fun t _ => encode_text t
    have hnested : Codec.encode (.list (.optional (schema depth)))
        (.list (codeData extras 0 codes)) = .ok (encodeList encodeNested codes) := by
      rw [encode_list (by simp), encode_codeData hcodes, length_codeData]
      rfl
    have hhandlers : Codec.encode (.list Handler.schema)
        (.list (handlers.toList.zipIdx.map fun (h, i) => h.datum ((extras []).native i))) =
        .ok (encodeList Handler.encode handlers.toList) := by
      have hpairs : ∀ p ∈ handlers.toList.zipIdx, Codec.encode Handler.schema
          (p.1.datum ((extras []).native p.2)) = .ok p.1.encode := fun p _ => p.1.encode_datum _
      rw [encode_list_map (by simp [Handler.schema]) hpairs]
      have hfst := List.flatMap_map Prod.fst Handler.encode handlers.toList.zipIdx
      rw [List.zipIdx_map_fst] at hfst
      rw [encodeList, encodeList, List.length_zipIdx, hfst]
    rw [schema, datum, encode_record]
    refine (encodeFields_cons (encode_text name) (encodeFields_cons hdata
      (encodeFields_cons hconstants (encodeFields_cons hnames (encodeFields_cons hnested
      (encodeFields_cons hhandlers (encodeFields_cons (encode_uint32 params)
      (encodeFields_cons (encode_uint32 registerCount) (encodeFields_cons (encode_bool strict)
      (encodeFields_skip (encodeFields_skip (encodeFields_skip encodeFields_nil)))))))))))).trans ?_
    simp only [List.append_assoc, List.append_nil]

end Code

/-! ## Reading -/

/-- Whatever a reader accepts, the codec reads as the datum of the result. -/
def Agrees {α : Type} (schema : Schema) (view : α → Datum)
    (read : List UInt8 → Except DecodeError (α × List UInt8)) : Prop :=
  ∀ ⦃input x rest⦄, read input = .ok (x, rest) → Codec.decode schema input = (view x, .ok rest)

theorem agrees_text : Agrees .text .text readBytes := by
  intro input t rest h
  rw [decode_text, h]

theorem agrees_bool : Agrees .bool .bool readBool := by
  intro input b rest h
  cases input with
  | nil => cases h
  | cons x input =>
    cases h
    rfl

theorem decode_integer {n x : Nat} {input rest : List UInt8}
    (h : readInteger n input = .ok (x, rest)) (signed : Bool) :
    Codec.decode (.integer n signed) input =
      (.integer (if signed then LittleEndian.toSigned n x else x), .ok rest) := by
  change (match readInteger n input with | .error e => _ | .ok (x, rest) => _) = _
  rw [h]

theorem agrees_octet : Agrees (.integer 1 false) (fun x : UInt8 => .integer x.toNat) readOctet := by
  intro input x rest h
  obtain ⟨n, hn, rfl⟩ := map_eq_ok h
  have hval : n.toUInt8.toNat = n := by
    rw [Nat.toUInt8_eq, UInt8.toNat_ofNat_of_lt' (readInteger_lt hn)]
  rw [decode_integer hn]
  simp only [hval]
  rfl

theorem agrees_uint32 :
    Agrees (.integer 4 false) (fun x : UInt32 => .integer x.toNat) readUInt32 := by
  intro input x rest h
  obtain ⟨n, hn, rfl⟩ := map_eq_ok h
  have hval : n.toUInt32.toNat = n := by
    rw [Nat.toUInt32_eq, UInt32.toNat_ofNat_of_lt' (readInteger_lt hn)]
  rw [decode_integer hn]
  simp only [hval]
  rfl

theorem agrees_register :
    Agrees (.integer 4 true) (fun x : UInt32 => .integer x.toInt32.toInt) readUInt32 := by
  intro input x rest h
  obtain ⟨n, hn, rfl⟩ := map_eq_ok h
  rw [decode_integer hn, if_pos rfl, toSigned_four (readInteger_lt hn)]

theorem agrees_word : Agrees (.integer 8 false) (fun w : Word => .integer w.toNat) readWord := by
  intro input x rest h
  obtain ⟨n, hn, rfl⟩ := map_eq_ok h
  have hval : n.toUInt64.toNat = n := by
    rw [Nat.toUInt64_eq, UInt64.toNat_ofNat_of_lt' (readInteger_lt hn)]
  rw [decode_integer hn]
  simp only [hval]
  rfl

theorem agrees_double : Agrees .double (fun w : Word => .double ⟨w⟩) readWord := by
  intro input x rest h
  obtain ⟨n, hn, rfl⟩ := map_eq_ok h
  rw [decode_double, hn]

section Lists

variable {α : Type} {element : Schema} {view : α → Datum}
  {read : List UInt8 → Except DecodeError (α × List UInt8)}

theorem decodeMany_of_agrees (h : Agrees element view read) {count index : Nat}
    {input rest : List UInt8} {xs : List α} (hxs : readItems read count index input = .ok (xs, rest)) :
    decodeMany (Codec.decode element) element.zero count index input =
      (xs.map view, .ok rest) := by
  induction count generalizing index input xs with
  | zero =>
    cases hxs
    rw [decodeMany, List.map_nil]
  | succ count ih =>
    rw [readItems] at hxs
    cases hr : read input with
    | error e => simp only [hr, reduceCtorEq] at hxs
    | ok r =>
      simp only [hr] at hxs
      cases hs : readItems read count (index + 1) r.2 with
      | error e => simp only [hs, reduceCtorEq] at hxs
      | ok s =>
        simp only [hs] at hxs
        cases hxs
        rw [decodeMany, h hr]
        simp only [ih hs, List.map_cons]

theorem agrees_list (hne : element ≠ .integer 1 false) (h : Agrees element view read) :
    Agrees (.list element) (fun xs => .list (xs.map view)) (readList read) := by
  intro input xs rest hxs
  rw [readList] at hxs
  cases hl : readLength input with
  | error e => simp only [hl, reduceCtorEq] at hxs
  | ok r =>
    simp only [hl] at hxs
    rw [decode_list hne, decodeItems, hl]
    simp only [decodeMany_of_agrees h hxs]

end Lists

theorem decodeFields_nil (input : List UInt8) : decodeFields [] input = ([], .ok input) := rfl

theorem decodeFields_cons {α : Type} {name : Text} {schema : Schema} {view : α → Datum}
    {read : List UInt8 → Except DecodeError (α × List UInt8)} (h : Agrees schema view read)
    {input : List UInt8} {r : α × List UInt8} (hr : read input = .ok r)
    {fields : List (Text × Bool × Schema)} {result : Reading (List Datum)}
    (hmore : decodeFields fields r.2 = result) :
    decodeFields ((name, false, schema) :: fields) input = (view r.1 :: result.1, result.2) := by
  rw [decodeFields_entry, if_neg Bool.false_ne_true, h hr]
  simp only [hmore]

theorem decodeFields_skip {name : Text} {schema : Schema} {input : List UInt8}
    {fields : List (Text × Bool × Schema)} {result : Reading (List Datum)}
    (hmore : decodeFields fields input = result) :
    decodeFields ((name, true, schema) :: fields) input =
      (schema.zero :: result.1, result.2) := by
  rw [decodeFields_entry, if_pos rfl, hmore]

theorem Constant.agrees : Agrees schema datum read := by
  intro input k rest h
  rw [read] at h
  simp only [Code.bind_eq_ok, Code.field_eq_ok] at h
  obtain ⟨kind, hkind, number, hnumber, text, htext, h⟩ := h
  cases h
  rw [schema, decode_record, decodeFields_cons agrees_octet hkind (decodeFields_cons agrees_double
    hnumber (decodeFields_cons agrees_text htext (decodeFields_nil text.2)))]
  rfl

theorem Handler.agrees : Agrees schema (datum (0, 0)) read := by
  intro input k rest h
  rw [read] at h
  simp only [Code.bind_eq_ok, Code.field_eq_ok] at h
  obtain ⟨kind, hkind, start, hstart, stop, hstop, level, hlevel, jump, hjump, flag, hflag, h⟩ := h
  cases h
  rw [schema, decode_record, decodeFields_cons agrees_octet hkind (decodeFields_cons agrees_uint32
    hstart (decodeFields_cons agrees_uint32 hstop (decodeFields_cons agrees_uint32 hlevel
    (decodeFields_cons agrees_register hjump (decodeFields_cons agrees_register hflag
    (decodeFields_skip (decodeFields_skip (decodeFields_nil flag.2))))))))]
  simp only [Schema.zero]
  rfl

namespace Code

/-- The record of a code that the runtime has not touched. -/
def fresh (c : Code) : Datum := c.datum fun _ => Extras.zero

theorem codeData_zero (index : Nat) (codes : List (Option Code)) :
    codeData (fun _ => Extras.zero) index codes =
      codes.map fun o => .optional (o.map fresh) := by
  induction codes generalizing index with
  | nil => rfl
  | cons o codes ih =>
    cases o with
    | none => rw [codeData_none, ih]; rfl
    | some c => rw [codeData_some, ih]; rfl

theorem agrees_fields {depth : Nat}
    {readNested : List UInt8 → Except DecodeError (Option Code × List UInt8)}
    (h : Agrees (.optional (schema depth)) (fun o : Option Code => .optional (o.map fresh))
      readNested) :
    Agrees (schema (depth + 1)) fresh (readFields readNested) := by
  intro input c rest hc
  rw [readFields] at hc
  simp only [bind_eq_ok, field_eq_ok] at hc
  obtain ⟨name, hname, data, hdata, constants, hconstants, names, hnames, codes, hcodes, handlers,
    hhandlers, params, hparams, registerCount, hcount, strict, hstrict, hc⟩ := hc
  cases hc
  rw [schema, decode_record, decodeFields_cons agrees_text hname
    (decodeFields_cons (agrees_list (by rintro ⟨⟩) agrees_word) hdata
    (decodeFields_cons (agrees_list (by rintro ⟨⟩) Constant.agrees) hconstants
    (decodeFields_cons (agrees_list (by rintro ⟨⟩) agrees_text) hnames
    (decodeFields_cons (agrees_list (by rintro ⟨⟩) h) hcodes
    (decodeFields_cons (agrees_list (by rintro ⟨⟩) Handler.agrees) hhandlers
    (decodeFields_cons agrees_uint32 hparams
    (decodeFields_cons agrees_uint32 hcount
    (decodeFields_cons agrees_bool hstrict
    (decodeFields_skip (decodeFields_skip (decodeFields_skip
      (decodeFields_nil strict.2))))))))))))]
  have hpairs := List.map_map (f := Prod.fst) (g := Handler.datum (0, 0))
    (l := handlers.1.zipIdx)
  rw [List.zipIdx_map_fst] at hpairs
  simp only [fresh, datum, codeData_zero, Schema.zero, hpairs]
  rfl

theorem agrees_nested (fuel : Nat) :
    Agrees (.optional (schema fuel)) (fun o : Option Code => .optional (o.map fresh))
      (Code.readNested fuel) := by
  induction fuel with
  | zero =>
    intro input o rest h
    cases h
  | succ fuel ih =>
    intro input o rest h
    cases input with
    | nil => cases h
    | cons tag input =>
      rw [Code.readNested] at h
      rw [decode_optional]
      by_cases htag : tag = 0
      · rw [if_pos htag] at h
        cases h
        simp only [htag, if_true, Option.map_none]
      · rw [if_neg htag] at h
        obtain ⟨c, hc, rfl⟩ := map_eq_ok h
        simp only [htag, if_false, agrees_fields ih hc, Option.map_some]

theorem decodeWhole_eq_fresh {input : List UInt8} {c : Code} (h : readImage input = .ok (c, [])) :
    decodeWhole (schema (input.length + 1)) input = (c.fresh, .ok ()) := by
  rw [decodeWhole, agrees_fields (agrees_nested input.length) h]
  rfl

/-- Images round-trip. A program that passes validation is read back from its image, where the
runtime fields of its record play no part and come back zero; no strict prefix and no proper
extension of the image is accepted. Whatever bytes are accepted, the image of the result is no
longer and gives the result again. -/
theorem image_roundtrip :
    (∀ c : Code, c.validate = .ok () → c.Storable →
      decode c.encode = .ok c ∧
      (∀ (depth : Nat) (extras : List Nat → Extras), c.encode.length ≤ depth →
        Codec.encode (schema depth) (c.datum extras) = .ok c.encode) ∧
      decodeWhole (schema (c.encode.length + 1)) c.encode =
        (c.datum fun _ => Extras.zero, .ok ()) ∧
      (∀ head tail, c.encode = head ++ tail → tail ≠ [] →
        ∃ cause, decode head = .error (.unreadable cause)) ∧
      ∀ more, more ≠ [] →
        decode (c.encode ++ more) = .error (.unreadable (.extra more.length))) ∧
    ∀ (b : List UInt8) (d : Code), decode b = .ok d →
      d.encode.length ≤ b.length ∧ decode d.encode = .ok d := by
  refine ⟨fun c hvalid hstorable => ?_, fun b d hd => ?_⟩
  · have himage := readImage_encode hstorable
    refine ⟨decode_eq_ok_iff.2 ⟨himage, hvalid⟩, fun depth extras h => encode_datum h extras,
      decodeWhole_eq_fresh himage, fun head tail hsplit htail => ?_, fun more hmore => ?_⟩
    · -- What a prefix gives, the whole image would give with the tail left over.
      rw [decode, ← readImage]
      cases hr : readImage head with
      | error e => exact ⟨_, rfl⟩
      | ok r =>
        obtain ⟨d, rest⟩ := r
        have hwhole : readImage (head ++ tail) = .ok (d, rest ++ tail) := readImage_append hr
        rw [← hsplit, himage, Except.ok.injEq, Prod.mk.injEq] at hwhole
        exact absurd (List.append_eq_nil_iff.1 hwhole.2.symm).2 htail
    · exact decode_of_extra (readImage_append himage) hmore
  · obtain ⟨himage, hvalid⟩ := decode_eq_ok_iff.1 hd
    obtain ⟨head, hinput, ⟨⟨hlengths, hcodes⟩, hle⟩, -⟩ := reads_fields (reads_nested b.length) himage
    have hstorable : d.Storable := storable_iff.2 ⟨hlengths, fun e he => hcodes _ he e rfl⟩
    rw [List.append_nil] at hinput
    exact ⟨hinput ▸ hle, decode_eq_ok_iff.2 ⟨readImage_encode hstorable, hvalid⟩⟩

/-- A function that is nested in another. -/
def inner : Code :=
  { ofName [0x66] with
    data := #[Word.ofOpcode .return, Word.ofRegister Register.this] }

/-- A program with a nested function, a handler, a constant that is no number, a text that is not
well-formed, and an empty name. -/
def outer : Code :=
  { ofName [0xff, 0x22] with
    data := #[Word.ofOpcode .loadConst, Word.ofRegister (Register.ofNat 0), 1,
      Word.ofOpcode .return, Word.ofRegister (Register.ofNat 0)]
    constants := #[.ofText [0x80, 0x0a], .ofNumber ⟨0x7ff8000000000001⟩]
    names := #[[]]
    codes := [some inner]
    handlers := #[⟨Handler.kindFinally, 0, 5, 3, Register.ofNat 0, Register.this⟩]
    registerCount := 1
    strict := true }

theorem image_roundtrip_outer :
    outer.validate = .ok () ∧ outer.Storable ∧ decode outer.encode = .ok outer ∧
      outer.encode.length = 134 ∧
      decode (outer.encode ++ [0]) = .error (.unreadable (.extra 1)) := by
  have hvalid : (match outer.validate with | .ok _ => true | .error _ => false) = true := by
    decide +kernel
  have hvalid : outer.validate = .ok () := by
    cases h : outer.validate with
    | ok u => rfl
    | error e => rw [h] at hvalid; cases hvalid
  have hstorable : outer.Storable := by
    have hwalk : outer.walk = [some outer, some inner] := rfl
    intro d hd
    rw [hwalk] at hd
    simp only [List.mem_cons, Option.some.injEq, List.not_mem_nil, or_false] at hd
    rcases hd with rfl | rfl
    · constructor <;> simp [outer, ofName, Constant.ofText, Constant.ofNumber]
    · constructor <;> simp [inner, ofName]
  have h := image_roundtrip.1 outer hvalid hstorable
  exact ⟨hvalid, hstorable, h.1, by decide +kernel, h.2.2.2.2 [0] (by simp)⟩

end Code

end RegisterJit
