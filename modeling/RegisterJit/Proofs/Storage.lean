import Mathlib.Data.List.Induction
import RegisterJit.Proofs.Quoting
import RegisterJit.Proofs.Records
import RegisterJit.Store.Programs

/-!
# What a program store holds

A store is used through requests. What it answers is determined by the requests before: under a key
there is the program last put there, unless the key was deleted since. The table behind the store is
kept in the order of its keys, so the listing is in order as well.

The table of a store is a sorted list of pairs, and looking up, inserting and deleting are told by what is found
under each key. `Held` says that a program is held under a key after some requests: it was put, and the key was
not deleted since. `Holds` relates the table to the requests, each request keeps it, and `Answers` is what
follows for a reply. Keys are digests, so two programs could have the same key; `Distinct` excludes that for the
images of the programs that were put. `store_answers` is the induction over all requests.
-/

namespace RegisterJit

/-! ## The order of byte strings -/

namespace Text

theorem bytesLt_iff {a b : Text} : bytesLt a b = true ↔ a < b := by
  induction a generalizing b with
  | nil => cases b <;> simp [bytesLt]
  | cons x a ih =>
    cases b with
    | nil => simp [bytesLt]
    | cons y b =>
      rw [bytesLt, List.cons_lt_cons_iff, ← ih]
      by_cases hlt : x < y
      · simp [hlt]
      by_cases hgt : y < x
      · have hne : x ≠ y := fun e => UInt8.lt_irrefl y (e ▸ hgt)
        simp [hlt, hgt, hne]
      · have heq : x = y := UInt8.le_antisymm (UInt8.not_lt.1 hgt) (UInt8.not_lt.1 hlt)
        simp [heq, UInt8.lt_irrefl]

theorem bytesLt_irrefl (a : Text) : bytesLt a a = false := by
  rw [Bool.eq_false_iff, Ne, bytesLt_iff]
  exact List.lt_irrefl a

theorem bytesLt_trans {a b c : Text} (hab : bytesLt a b = true) (hbc : bytesLt b c = true) :
    bytesLt a c = true := by
  rw [bytesLt_iff] at *
  exact List.lt_trans hab hbc

theorem bytesLt_of_not {a b : Text} (h : ¬bytesLt a b = true) (hne : a ≠ b) : bytesLt b a = true := by
  rw [bytesLt_iff] at *
  by_contra h'
  exact hne (List.le_antisymm h' h)

theorem ne_of_bytesLt {a b : Text} (h : bytesLt a b = true) : a ≠ b := by
  rintro rfl
  rw [bytesLt_irrefl] at h
  cases h

theorem bytesLt_append (start a b : Text) : bytesLt (start ++ a) (start ++ b) = bytesLt a b := by
  induction start with
  | nil => rfl
  | cons x start ih =>
    rw [List.cons_append, List.cons_append, bytesLt, if_neg (UInt8.lt_irrefl x),
      if_neg (UInt8.lt_irrefl x), ih]

end Text

/-! ## Tables -/

namespace Table

variable {t : Table} {key key' value : Text}

def Sorted (t : Table) : Prop := t.Pairwise fun a b => Text.bytesLt a.1 b.1 = true

theorem find?_cons (entry : Text × Text) (t : Table) (key : Text) :
    find? (entry :: t) key = if key = entry.1 then some entry.2 else find? t key := by
  rw [find?, List.lookup_cons]
  by_cases h : key = entry.1
  · rw [if_pos h, beq_iff_eq.2 h]
  · rw [if_neg h, beq_eq_false_iff_ne.2 h]
    rfl

theorem find?_insert (t : Table) (key value key' : Text) :
    (insert key value t).find? key' = if key' = key then some value else t.find? key' := by
  induction t with
  | nil => rw [insert, find?_cons]
  | cons entry t ih =>
    rw [insert]
    split
    · -- The entry keeps its place, and its key is another one.
      rename_i h
      have hne := Text.ne_of_bytesLt h
      rw [find?_cons, find?_cons, ih]
      split
      · rename_i he
        rw [if_neg (he ▸ hne)]
      · rfl
    · split
      · rename_i h
        subst h
        rw [find?_cons, find?_cons]
        split <;> rfl
      · rw [find?_cons]

theorem find?_erase (t : Table) (key key' : Text) :
    (erase key t).find? key' = if key' = key then none else t.find? key' := by
  induction t with
  | nil => simp [erase, find?]
  | cons entry t ih =>
    rw [erase] at ih ⊢
    by_cases h : entry.1 = key
    · rw [List.filter_cons_of_neg (by simpa using h), ih, find?_cons]
      split
      · rfl
      · rename_i hne
        rw [if_neg (h ▸ hne)]
    · rw [List.filter_cons_of_pos (by simpa using h), find?_cons, ih, find?_cons]
      split
      · rename_i he
        rw [if_neg (he ▸ h)]
      · rfl

theorem mem_insert {entry : Text × Text} (h : entry ∈ insert key value t) :
    entry = (key, value) ∨ entry ∈ t := by
  induction t with
  | nil => exact .inl (List.mem_singleton.1 h)
  | cons first t ih =>
    rw [insert] at h
    split at h
    · rcases List.mem_cons.1 h with h | h
      · exact .inr (List.mem_cons.2 (.inl h))
      · exact (ih h).imp_right (List.mem_cons_of_mem _)
    · split at h
      · exact (List.mem_cons.1 h).imp_right (List.mem_cons_of_mem _)
      · exact List.mem_cons.1 h

theorem Sorted.insert (h : t.Sorted) (key value : Text) : Sorted (insert key value t) := by
  induction t with
  | nil => exact List.pairwise_singleton ..
  | cons first t ih =>
    obtain ⟨hfirst, hrest⟩ := List.pairwise_cons.1 h
    rw [Table.insert]
    split
    · rename_i hlt
      refine List.pairwise_cons.2 ⟨fun entry hentry => ?_, ih hrest⟩
      rcases mem_insert hentry with rfl | hentry
      · exact hlt
      · exact hfirst entry hentry
    · rename_i hlt
      split
      · rename_i heq
        exact List.pairwise_cons.2 ⟨fun entry hentry => heq ▸ hfirst entry hentry, hrest⟩
      · rename_i hne
        have hkey := Text.bytesLt_of_not hlt hne
        refine List.pairwise_cons.2 ⟨fun entry hentry => ?_, h⟩
        rcases List.mem_cons.1 hentry with rfl | hentry
        · exact hkey
        · exact Text.bytesLt_trans hkey (hfirst entry hentry)

theorem Sorted.erase (h : t.Sorted) (key : Text) : Sorted (erase key t) :=
  List.Pairwise.filter _ h

theorem insert_of_find? (h : t.Sorted) (hfind : t.find? key = some value) :
    insert key value t = t := by
  induction t with
  | nil => cases hfind
  | cons first t ih =>
    obtain ⟨hfirst, hrest⟩ := List.pairwise_cons.1 h
    rw [find?_cons] at hfind
    rw [Table.insert]
    split at hfind
    · rename_i heq
      subst heq
      obtain rfl := Option.some.inj hfind
      rw [if_neg (by rw [Text.bytesLt_irrefl]; decide), if_pos rfl]
    · have hmem : (key, value) ∈ t := by
        obtain ⟨before, after, rfl, -⟩ := List.lookup_eq_some_iff.1 hfind
        simp
      rw [if_pos (hfirst _ hmem), ih hrest hfind]

theorem isSome_find?_iff : (t.find? key).isSome ↔ key ∈ t.map (·.1) := by
  induction t with
  | nil => simp [find?]
  | cons first t ih =>
    rw [find?_cons, List.map_cons, List.mem_cons, ← ih]
    split <;> simp [*]

end Table

/-! ## Keys -/

theorem Text.hexBytes_hexOfBytes (bytes : List UInt8) :
    Text.hexBytes (Text.hexOfBytes bytes) = .ok bytes := by
  induction bytes with
  | nil => rfl
  | cons b bytes ih =>
    have hb := b.toNat_lt
    have hhigh : b.toNat / 16 % 16 < 16 := Nat.mod_lt _ (by decide)
    have hlow : b.toNat % 16 < 16 := Nat.mod_lt _ (by decide)
    have hsum : (16 * (b.toNat / 16 % 16) + b.toNat % 16).toUInt8 = b := by
      rw [show 16 * (b.toNat / 16 % 16) + b.toNat % 16 = b.toNat by omega]
      exact UInt8.ofNat_toNat
    have htext : Text.hexOfBytes (b :: bytes) = Text.hexDigit (b.toNat / 16 % 16) ::
        Text.hexDigit (b.toNat % 16) :: Text.hexOfBytes bytes := rfl
    rw [htext, Text.hexBytes, Text.hexValue?_hexDigit hhigh, Text.hexValue?_hexDigit hlow]
    simp only [ih, Except.map, hsum]

namespace Key

theorem parse_text (k : Key) : Key.parse k.text = .ok k := by
  rw [Key.parse, Key.text, Text.hexBytes_hexOfBytes]
  exact dif_pos k.length_eq

theorem ofBytes_bytes (k : Key) : Key.ofBytes k.bytes = k := by
  obtain ⟨bytes, h⟩ := k
  rw [ofBytes, Key.mk.injEq, List.take_append_of_le_length (Nat.le_of_eq h.symm), ← h,
    List.take_length]

end Key

namespace ProgramStore

/-! ## Places in the table -/

theorem tableKey_inj {k k' : Key} : tableKey k = tableKey k' ↔ k = k' := by
  constructor
  · intro h
    cases k
    cases k'
    simpa using List.append_cancel_left h
  · exact fun h => by rw [h]

theorem bytesLt_tableKey (k k' : Key) :
    Text.bytesLt (tableKey k) (tableKey k') = Text.bytesLt k.bytes k'.bytes :=
  Text.bytesLt_append ..

theorem inRange_tableKey (k : Key) :
    (!Text.bytesLt (tableKey k) namespaceStart && Text.bytesLt (tableKey k) namespaceStop) = true := by
  have hstart : namespaceStart = Text.ofString "program" ++ [0x2f] := by decide +kernel
  have hstop : namespaceStop = Text.ofString "program" ++ [0x30] := by decide +kernel
  have hlow : Text.bytesLt (tableKey k) namespaceStart = false := by
    have happend := Text.bytesLt_append namespaceStart k.bytes []
    rw [List.append_nil] at happend
    rw [tableKey, happend]
    cases k.bytes <;> rfl
  have hhigh : Text.bytesLt (tableKey k) namespaceStop = true := by
    rw [tableKey, hstart, hstop, List.append_assoc, Text.bytesLt_append]
    rfl
  rw [hlow, hhigh]
  rfl

theorem ofBytes_tableKey (k : Key) : Key.ofBytes ((tableKey k).drop namespaceStart.length) = k := by
  rw [tableKey, List.drop_left, Key.ofBytes_bytes]

/-! ## Requests -/

/-- What a store is asked. -/
inductive Request
  | put (c : Code)
  | get (k : Key)
  | delete (k : Key)
  | list

/-- What a store answers. -/
inductive Reply
  | stored (k : Key)
  | found (r : Except GetError Code)
  | deleted
  | listed (keys : List Key)

/-- The answer to a request and the store afterwards. -/
def serve (s : ProgramStore) : Request → Reply × ProgramStore
  | .put c => (.stored (s.put c).1, (s.put c).2)
  | .get k => (.found (s.get k), s)
  | .delete k => (.deleted, s.delete k)
  | .list => (.listed s.list, s)

def after (rs : List Request) : ProgramStore := rs.foldl (fun s r => (s.serve r).2) empty

/-- A program was put under a key, and the key was not deleted since. -/
def Held (k : Key) (c : Code) (rs : List Request) : Prop :=
  Key.ofCode c = k ∧ ∃ before later, rs = before ++ .put c :: later ∧ .delete k ∉ later

/-- The answer to a request that comes after others. -/
def Answers (rs : List Request) : Request → Reply → Prop
  | .put c, .stored k => k = Key.ofCode c
  | .get k, .found r =>
    (∀ c, r = .ok c ↔ Held k c rs) ∧ ((¬∃ c, Held k c rs) → r = .error (.notFound k))
  | .delete _, .deleted => True
  | .list, .listed keys =>
    keys.Pairwise (fun a b => Text.bytesLt a.bytes b.bytes = true) ∧ keys.Nodup ∧
      ∀ k, k ∈ keys ↔ ∃ c, Held k c rs
  | _, _ => False

variable {rs : List Request} {k : Key} {c d : Code}

theorem after_snoc (rs : List Request) (r : Request) :
    after (rs ++ [r]) = ((after rs).serve r).2 := by
  rw [after, List.foldl_append, List.foldl_cons, List.foldl_nil, after]

/-- One more request keeps what is held, unless it deletes the key, and may be the put. -/
theorem held_snoc {r : Request} :
    Held k c (rs ++ [r]) ↔ Held k c rs ∧ r ≠ .delete k ∨ Key.ofCode c = k ∧ r = .put c := by
  constructor
  · rintro ⟨hk, before, later, hrs, hlater⟩
    rcases List.eq_nil_or_concat later with rfl | ⟨later, last, rfl⟩
    · obtain ⟨-, hr⟩ := List.append_inj' hrs rfl
      exact .inr ⟨hk, List.singleton_inj.1 hr⟩
    · rw [List.concat_eq_append] at hrs hlater
      rw [← List.cons_append, ← List.append_assoc] at hrs
      obtain ⟨hinit, hlast⟩ := List.append_inj' hrs rfl
      obtain rfl := List.singleton_inj.1 hlast
      simp only [List.mem_append, List.mem_singleton, not_or] at hlater
      exact .inl ⟨⟨hk, before, later, hinit, hlater.1⟩, Ne.symm hlater.2⟩
  · rintro (⟨⟨hk, before, later, rfl, hlater⟩, hr⟩ | ⟨hk, rfl⟩)
    · refine ⟨hk, before, later ++ [r], by simp, ?_⟩
      simp only [List.mem_append, List.mem_singleton, not_or]
      exact ⟨hlater, Ne.symm hr⟩
    · exact ⟨hk, rs, [], rfl, by simp⟩

theorem Held.mem (h : Held k c rs) : .put c ∈ rs := by
  obtain ⟨-, before, later, rfl, -⟩ := h
  simp

/-! ## What the table holds -/

/-- The programs of requests are such that their images can be read back, and no two images have the
same key. -/
structure Distinct (rs : List Request) : Prop where
  valid : ∀ c, .put c ∈ rs → c.validate = .ok ()
  storable : ∀ c, .put c ∈ rs → c.Storable
  free : ∀ c d, .put c ∈ rs → .put d ∈ rs → Key.ofCode c = Key.ofCode d → c.encode = d.encode

theorem Distinct.of_append {later : List Request} (h : Distinct (rs ++ later)) : Distinct rs where
  valid c hc := h.valid c (List.mem_append_left _ hc)
  storable c hc := h.storable c (List.mem_append_left _ hc)
  free c d hc hd := h.free c d (List.mem_append_left _ hc) (List.mem_append_left _ hd)

theorem Distinct.decode_eq (h : Distinct rs) (hc : .put c ∈ rs) : Code.decode c.encode = .ok c :=
  Code.decode_eq_ok_iff.2 ⟨Code.readImage_encode (h.storable c hc), h.valid c hc⟩

theorem Distinct.eq_of_key (h : Distinct rs) (hc : .put c ∈ rs) (hd : .put d ∈ rs)
    (hkey : Key.ofCode c = Key.ofCode d) : c = d := by
  have hread := h.decode_eq hc
  rw [h.free c d hc hd hkey, h.decode_eq hd] at hread
  exact (Except.ok.inj hread).symm

/-- A store that holds what requests have left. -/
structure Holds (s : ProgramStore) (rs : List Request) : Prop where
  sorted : s.table.Sorted
  places : ∀ entry ∈ s.table, ∃ k, entry.1 = tableKey k
  find : ∀ k image, s.table.find? (tableKey k) = some image ↔ ∃ c, Held k c rs ∧ image = c.encode

theorem holds_empty : Holds empty [] where
  sorted := .nil
  places := by simp [empty]
  find k image := by simp [empty, Table.find?, Held]

variable {s : ProgramStore}

theorem Holds.put (h : s.Holds rs) (hd : Distinct (rs ++ [.put c])) :
    (s.put c).2.Holds (rs ++ [.put c]) where
  sorted := h.sorted.insert ..
  places entry hentry := by
    rcases Table.mem_insert hentry with rfl | hentry
    · exact ⟨_, rfl⟩
    · exact h.places entry hentry
  find k image := by
    change Table.find? (Table.insert (tableKey (Key.ofCode c)) c.encode s.table) _ = _ ↔ _
    rw [Table.find?_insert]
    simp only [tableKey_inj, held_snoc, ne_eq, reduceCtorEq, not_false_eq_true, and_true,
      Request.put.injEq]
    by_cases hk : k = Key.ofCode c
    · -- What was under the key before is the same program.
      rw [if_pos hk, Option.some.injEq]
      constructor
      · rintro rfl
        exact ⟨c, .inr ⟨hk.symm, rfl⟩, rfl⟩
      · rintro ⟨d, hheld | ⟨-, rfl⟩, rfl⟩
        · have hmem : .put d ∈ rs ++ [Request.put c] := List.mem_append_left _ hheld.mem
          rw [hd.eq_of_key hmem (by simp) (hheld.1.trans hk)]
        · rfl
    · rw [if_neg hk, h.find]
      constructor
      · rintro ⟨d, hheld, rfl⟩
        exact ⟨d, .inl hheld, rfl⟩
      · rintro ⟨d, hheld | ⟨hkey, rfl⟩, rfl⟩
        · exact ⟨d, hheld, rfl⟩
        · exact absurd hkey.symm hk

theorem Holds.delete (h : s.Holds rs) (k : Key) : (s.delete k).Holds (rs ++ [.delete k]) where
  sorted := h.sorted.erase _
  places entry hentry := h.places entry (List.mem_filter.1 hentry).1
  find k' image := by
    change Table.find? (Table.erase (tableKey k) s.table) _ = _ ↔ _
    rw [Table.find?_erase]
    simp only [tableKey_inj, held_snoc, ne_eq, Request.delete.injEq, reduceCtorEq, and_false, or_false]
    by_cases hk : k' = k
    · simp [hk]
    · rw [if_neg hk, h.find]
      simp [Ne.symm hk]

theorem Holds.snoc (h : s.Holds rs) {r : Request} (hd : Distinct (rs ++ [r])) :
    (s.serve r).2.Holds (rs ++ [r]) := by
  cases r with
  | put c => exact h.put hd
  | delete k => exact h.delete k
  | get k =>
    refine ⟨h.sorted, h.places, fun k' image => (h.find k' image).trans ?_⟩
    simp [held_snoc]
  | list =>
    refine ⟨h.sorted, h.places, fun k' image => (h.find k' image).trans ?_⟩
    simp [held_snoc]

theorem after_holds (hd : Distinct rs) : (after rs).Holds rs := by
  induction rs using List.reverseRecOn with
  | nil => exact holds_empty
  | append_singleton rs r ih =>
    rw [after_snoc]
    exact (ih hd.of_append).snoc hd

/-! ## Answers -/

theorem Holds.get (h : s.Holds rs) (hd : Distinct rs) :
    (∀ c, s.get k = .ok c ↔ Held k c rs) ∧ ((¬∃ c, Held k c rs) → s.get k = .error (.notFound k)) := by
  rw [ProgramStore.get]
  cases hfind : s.table.find? (tableKey k) with
  | none =>
    have hnone : ∀ c, ¬Held k c rs := by
      intro c hc
      rw [(h.find k c.encode).2 ⟨c, hc, rfl⟩] at hfind
      cases hfind
    exact ⟨fun c => by simp [hnone], fun _ => rfl⟩
  | some image =>
    obtain ⟨d, hheld, rfl⟩ := (h.find k image).1 hfind
    dsimp only
    rw [if_pos (show Key.ofImage d.encode = k from hheld.1), hd.decode_eq hheld.mem]
    refine ⟨fun c => ?_, fun hnone => absurd ⟨d, hheld⟩ hnone⟩
    simp only [Except.mapError, Except.ok.injEq]
    constructor
    · rintro rfl
      exact hheld
    · exact fun hc => hd.eq_of_key hheld.mem hc.mem (hheld.1.trans hc.1.symm)

theorem Holds.list (h : s.Holds rs) :
    s.list.Pairwise (fun a b => Text.bytesLt a.bytes b.bytes = true) ∧ s.list.Nodup ∧
      ∀ k, k ∈ s.list ↔ ∃ c, Held k c rs := by
  -- The listing is the table's keys without what they begin with.
  obtain ⟨keys, hkeys⟩ : ∃ keys : List Key, s.table.map (·.1) = keys.map tableKey := by
    have hplaces := h.places
    generalize s.table = t at hplaces
    induction t with
    | nil => exact ⟨[], rfl⟩
    | cons entry t ih =>
      obtain ⟨k, hk⟩ := hplaces entry (List.mem_cons_self ..)
      obtain ⟨keys, hkeys⟩ := ih fun e he => hplaces e (List.mem_cons_of_mem _ he)
      exact ⟨k :: keys, by rw [List.map_cons, List.map_cons, hk, hkeys]⟩
  have hlist : s.list = keys := by
    rw [ProgramStore.list, Table.keysBetween, hkeys, List.filter_eq_self.2, List.map_map]
    · simp [Function.comp_def, ofBytes_tableKey]
    · intro entry hentry
      obtain ⟨k, -, rfl⟩ := List.mem_map.1 hentry
      exact inRange_tableKey k
  have hsorted : keys.Pairwise fun a b => Text.bytesLt a.bytes b.bytes = true := by
    have hpairs : (s.table.map (·.1)).Pairwise fun a b => Text.bytesLt a b = true :=
      List.pairwise_map.2 h.sorted
    rw [hkeys, List.pairwise_map] at hpairs
    simpa only [bytesLt_tableKey] using hpairs
  rw [hlist]
  refine ⟨hsorted, hsorted.imp fun hlt heq => ?_, fun k => ?_⟩
  · exact Text.ne_of_bytesLt hlt (congrArg Key.bytes heq)
  · have hmem : k ∈ keys ↔ tableKey k ∈ s.table.map (·.1) := by
      rw [hkeys, List.mem_map]
      simp [tableKey_inj]
    rw [hmem, ← Table.isSome_find?_iff, Option.isSome_iff_exists]
    simp only [h.find]
    constructor
    · rintro ⟨-, c, hc, -⟩
      exact ⟨c, hc⟩
    · rintro ⟨c, hc⟩
      exact ⟨_, c, hc, rfl⟩

theorem Holds.answers (h : s.Holds rs) (hd : Distinct rs) (r : Request) :
    Answers rs r (s.serve r).1 := by
  cases r with
  | put c => exact rfl
  | get k => exact h.get hd
  | delete k => exact trivial
  | list => exact h.list

/-- A store answers as what it holds. A program is found under its key if and only if it was put and
not deleted since, and otherwise the key is reported as unknown; the listing has the keys of these
programs in strictly increasing order. Putting a program again changes nothing. The runtime fields of
a program play no part in its image, and keys are read back from their text. -/
theorem store_answers (rs : List Request) (hd : Distinct rs) :
    (∀ before r later, rs = before ++ r :: later → Answers before r ((after before).serve r).1) ∧
    (∀ c, Held (Key.ofCode c) c rs → (after rs).put c = (Key.ofCode c, after rs)) ∧
    (∀ c, .put c ∈ rs → ∀ (depth : Nat) (extras : List Nat → Code.Extras), c.encode.length ≤ depth →
      Codec.encode (Code.schema depth) (c.datum extras) = .ok c.encode) ∧
    ∀ k : Key, Key.parse k.text = .ok k := by
  refine ⟨?_, fun c hc => ?_, fun c _ depth extras hle => Code.encode_datum hle extras, Key.parse_text⟩
  · rintro before r later rfl
    exact (after_holds hd.of_append).answers hd.of_append r
  · have h := after_holds hd
    have hfind := (h.find (Key.ofCode c) c.encode).2 ⟨c, hc, rfl⟩
    rw [put]
    exact congrArg (fun t => (Key.ofCode c, (⟨t⟩ : ProgramStore))) (Table.insert_of_find? h.sorted hfind)

/-! ### Two programs -/

/-- Two programs are put and the first is deleted; the second is put once more. -/
def replacing (c d : Code) : List Request :=
  [.put c, .put d, .delete (Key.ofCode c), .put d]

theorem held_replacing {e : Code} :
    Held k e (replacing c d) ↔ Key.ofCode e = k ∧ d = e := by
  have hnil : ¬Held k e [] := by
    rintro ⟨-, before, later, hrs, -⟩
    simp at hrs
  change Held k e ((([] ++ [.put c]) ++ [.put d]) ++ [.delete (Key.ofCode c)] ++ [.put d]) ↔ _
  simp only [held_snoc, hnil, Request.put.injEq, Request.delete.injEq, ne_eq, reduceCtorEq,
    not_false_eq_true, and_true, false_or, and_false, or_false]
  constructor
  · rintro (⟨⟨rfl, rfl⟩ | hput, hkept⟩ | hput)
    · exact absurd rfl hkept
    all_goals exact hput
  · rintro ⟨rfl, rfl⟩
    exact .inr ⟨rfl, rfl⟩

theorem distinct_replacing (hc : c.validate = .ok () ∧ c.Storable)
    (hd : d.validate = .ok () ∧ d.Storable) (hne : Key.ofCode c ≠ Key.ofCode d) (r : Request)
    (hr : ∀ e, r ≠ .put e) : Distinct (replacing c d ++ [r]) := by
  have hputs : ∀ e, .put e ∈ replacing c d ++ [r] → e = c ∨ e = d := by
    intro e he
    simp only [replacing, List.cons_append, List.nil_append, List.mem_cons, Request.put.injEq,
      reduceCtorEq, false_or, (hr e).symm, List.not_mem_nil, or_false] at he
    tauto
  refine ⟨fun e he => ?_, fun e he => ?_, fun e f he hf hkey => ?_⟩
  · obtain rfl | rfl := hputs e he
    exacts [hc.1, hd.1]
  · obtain rfl | rfl := hputs e he
    exacts [hc.2, hd.2]
  · obtain rfl | rfl := hputs e he <;> obtain rfl | rfl := hputs f hf
    · rfl
    · exact absurd hkey hne
    · exact absurd hkey.symm hne
    · rfl

/-- A program that returns its receiver. -/
def receiverCode (strict : Bool) : Code :=
  { Code.ofName [0x66] with
    strict := strict
    data := #[Word.ofOpcode .return, Word.ofRegister Register.this] }

theorem receiverCode_validate (strict : Bool) : (receiverCode strict).validate = .ok () := by
  have h : (match (receiverCode strict).validate with
      | .ok _ => true
      | .error _ => false) = true := by
    cases strict <;> decide +kernel
  cases hc : (receiverCode strict).validate with
  | ok u => rfl
  | error e => rw [hc] at h; cases h

theorem receiverCode_storable (strict : Bool) : (receiverCode strict).Storable :=
  Code.storable_iff.2 ⟨by constructor <;> simp [receiverCode, Code.ofName], by
    simp [receiverCode, Code.ofName]⟩

theorem store_answers_replacing :
    Distinct (replacing (receiverCode false) (receiverCode true) ++ [.list]) ∧
      (after (replacing (receiverCode false) (receiverCode true))).get
        (Key.ofCode (receiverCode true)) = .ok (receiverCode true) ∧
      (after (replacing (receiverCode false) (receiverCode true))).get
        (Key.ofCode (receiverCode false)) = .error (.notFound (Key.ofCode (receiverCode false))) ∧
      Key.ofCode (receiverCode true) ∈
        (after (replacing (receiverCode false) (receiverCode true))).list := by
  have hne : Key.ofCode (receiverCode false) ≠ Key.ofCode (receiverCode true) := by
    decide +kernel
  have hd (r : Request) (hr : ∀ e, r ≠ .put e) :=
    distinct_replacing ⟨receiverCode_validate false, receiverCode_storable false⟩
      ⟨receiverCode_validate true, receiverCode_storable true⟩ hne r hr
  have hget (k : Key) := (store_answers _ (hd (.get k) (by simp))).1 _ _ [] rfl
  have hlist := (store_answers _ (hd .list (by simp))).1 _ _ [] rfl
  refine ⟨hd .list (by simp), ?_, ?_, ?_⟩
  · exact ((hget _).1 _).2 (held_replacing.2 ⟨rfl, rfl⟩)
  · refine (hget _).2 ?_
    rintro ⟨e, he⟩
    obtain ⟨hkey, rfl⟩ := held_replacing.1 he
    exact hne hkey.symm
  · exact (hlist.2.2 _).2 ⟨_, held_replacing.2 ⟨rfl, rfl⟩⟩

end ProgramStore

end RegisterJit
