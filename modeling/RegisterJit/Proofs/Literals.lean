import RegisterJit.Proofs.Arguments
import RegisterJit.Proofs.Resolution
import RegisterJit.Proofs.Rounding

/-!
# What literals designate

Literals that are equal as numbers share a place in the table of a code. So the index of a literal
designates the first one passed that is the same: the literal itself, unless it is a zero and a zero of
the other sign was passed before. Nothing that is passed later changes that, and literals that are the
same, which a NaN never is, have one index (`constants_designate`).

`first` is the index of the first literal that is the same as a given one, and `Holds` says that the table of a
code contains what was passed, without repetitions. `Holds.designates` follows for a single code,
`Passed.designates` for sequences of requests to a builder, by induction on the requests; `Statement` and
`Account` carry it to the functions of a text. Two zeros of different sign count as the same, so that a negative
zero may be replaced by a positive one: `Zeros` is the exception in `constants_designate`, and
`constant_altered` a program in which it matters.
-/

namespace RegisterJit

/-! ## Literals that are the same -/

namespace Constant

/-- Two literals that are zeros and differ in nothing but the sign. -/
def Zeros (a b : Constant) : Prop :=
  a.kind = b.kind ∧ a.text = b.text ∧ a.number.isZero = true ∧ b.number.isZero = true

theorem same_iff {a b : Constant} :
    a.same b = true ↔ a.number.isNaN = false ∧ (a = b ∨ a.Zeros b) := by
  obtain ⟨kind, number, text⟩ := a
  obtain ⟨kind', number', text'⟩ := b
  simp only [same, Bool.and_eq_true, beq_iff_eq, Double.eq_iff, Zeros, Constant.mk.injEq]
  constructor
  · rintro ⟨⟨rfl, hnan, rfl | hzero⟩, rfl⟩
    · exact ⟨hnan, .inl ⟨rfl, rfl, rfl⟩⟩
    · exact ⟨hnan, .inr ⟨rfl, rfl, hzero⟩⟩
  · rintro ⟨hnan, ⟨rfl, rfl, rfl⟩ | ⟨rfl, rfl, hzero⟩⟩
    · exact ⟨⟨rfl, hnan, .inl rfl⟩, rfl⟩
    · exact ⟨⟨rfl, hnan, .inr hzero⟩, rfl⟩

theorem same_comm (a b : Constant) : a.same b = b.same a := by
  rw [same, same, Double.eq, Double.eq, Bool.beq_comm (a := a.kind), Bool.beq_comm (a := a.text),
    Bool.beq_comm (a := a.number.orderKey), Bool.and_comm (!a.number.isNaN)]

/-- The first of the literals that is the same as one, or that one. -/
def first (ks : List Constant) (k : Constant) : Constant := (ks.find? (·.same k)).getD k

/-- The first that is the same is the literal itself, or a zero of the other sign. -/
theorem first_cases (ks : List Constant) (k : Constant) :
    first ks k = k ∨ first ks k ∈ ks ∧ (first ks k).Zeros k := by
  rw [first]
  cases hfind : ks.find? (·.same k) with
  | none => exact .inl rfl
  | some e =>
    rw [Option.getD_some]
    have hsame : e.same k = true := List.find?_some (p := fun x : Constant => x.same k) hfind
    rcases (same_iff.1 hsame).2 with heq | hzeros
    · exact .inl heq
    · exact .inr ⟨List.mem_of_find?_eq_some hfind, hzeros⟩

theorem first_same (ks : List Constant) {k : Constant} (h : k.number.isNaN = false) :
    (first ks k).same k = true := by
  rw [first]
  cases hfind : ks.find? (·.same k) with
  | none => exact same_iff.2 ⟨h, .inl rfl⟩
  | some e =>
    have hsame : e.same k = true := List.find?_some (p := fun x : Constant => x.same k) hfind
    exact hsame

end Constant

/-! ## Tables -/

namespace Tables

variable {T F : Tables} {ks : List Constant}

/-- A table of the literals that were passed: each is found where the first that is the same is, and no
two are the same. -/
structure Holds (T : Tables) (ks : List Constant) : Prop where
  find : ∀ k : Constant, T.constants.toList.find? (·.same k) = ks.find? (·.same k)
  distinct : ∀ (i j : Nat) (e e' : Constant), T.constants[i]? = some e → T.constants[j]? = some e' →
    e.same e' = true → i = j

theorem holds_empty : empty.Holds [] := ⟨fun _ => rfl, fun i j e e' h => by simp [empty] at h⟩

theorem Holds.name (h : T.Holds ks) (t : Text) : (T.name t).2.Holds ks := by
  rw [Tables.name]
  cases T.names.idxOf? t with
  | some i => exact h
  | none => exact ⟨h.find, h.distinct⟩

theorem Holds.constant (h : T.Holds ks) (k : Constant) : (T.constant k).2.Holds (ks ++ [k]) := by
  rw [Tables.constant]
  cases hfind : T.constants.findIdx? fun have_ => have_.same k with
  | some i =>
    obtain ⟨hi, hsame, -⟩ := Array.findIdx?_eq_some_iff_getElem.1 hfind
    refine ⟨fun k' => ?_, h.distinct⟩
    dsimp only
    rw [h.find, List.find?_append]
    cases hk : k.same k' with
    | false => simp [hk]
    | true =>
      -- What is the same as `k` is the same as `k'`, and one such was passed.
      have hpassed : (ks.find? (·.same k')).isSome := by
        rw [← h.find, List.find?_isSome]
        exact ⟨_, Array.getElem_mem_toList hi, (Constant.same_of_same hk _).symm.trans hsame⟩
      obtain ⟨e, he⟩ := Option.isSome_iff_exists.1 hpassed
      rw [he, Option.some_or]
  | none =>
    have hfree := Array.findIdx?_eq_none_iff.1 hfind
    refine ⟨fun k' => ?_, fun i j e e' hi hj hsame => ?_⟩
    · dsimp only
      rw [Array.toList_push, List.find?_append, List.find?_append, h.find]
    · rw [Array.getElem?_push] at hi hj
      split at hi <;> split at hj
      · omega
      · cases hi
        have := hfree e' (Array.mem_of_getElem? hj)
        rw [Constant.same_comm] at hsame
        rw [hsame] at this
        cases this
      · cases hj
        have := hfree e (Array.mem_of_getElem? hi)
        rw [hsame] at this
        cases this
      · exact h.distinct i j e e' hi hj hsame

/-- The index of a literal designates the first that is the same, now and in what comes after. -/
theorem Holds.designates (h : T.Holds ks) {k : Constant} (hbelow : (T.constant k).2.Below F) :
    F.constants[(T.constant k).1]? = some (Constant.first ks k) := by
  rw [Constant.first, ← h.find]
  rw [Tables.constant] at hbelow ⊢
  cases hfind : T.constants.findIdx? fun have_ => have_.same k with
  | some i =>
    rw [hfind] at hbelow
    obtain ⟨hi, hsame, hfirst⟩ := Array.findIdx?_eq_some_iff_getElem.1 hfind
    have hfound : T.constants.toList.find? (·.same k) = some T.constants[i] :=
      List.find?_eq_some_iff_getElem.2 ⟨hsame, i, hi, rfl, fun j hj => by simpa using hfirst j hj⟩
    rw [hfound, Option.getD_some]
    exact hbelow.constants i _ (Array.getElem?_eq_getElem hi)
  | none =>
    rw [hfind] at hbelow
    have hfound : T.constants.toList.find? (·.same k) = none :=
      List.find?_eq_none.2 fun e he => by
        simpa using Array.findIdx?_eq_none_iff.1 hfind e (Array.mem_toList_iff.1 he)
    rw [hfound, Option.getD_none]
    exact hbelow.constants _ k Array.getElem?_push_size

end Tables

namespace Builder

variable {rs : List Request} {b : Builder} {name : Text}

/-! ## Literals passed to a builder -/

def Request.literal? : Request → Option Constant
  | .constant k => some k
  | .number x => some (Constant.ofNumber x)
  | .string t => some (Constant.ofText t)
  | _ => none

def literalsOf (rs : List Request) : List Constant := rs.filterMap Request.literal?

/-- A literal was passed after the requests `before`, and `i` was the answer. -/
def Passed (name : Text) (rs before : List Request) (k : Constant) (i : Nat) : Prop :=
  ∃ r after b, rs = before ++ r :: after ∧ r.literal? = some k ∧
    (new name).performAll? before = some b ∧ (b.constant k).1 = i

theorem enter_of_literal? {r : Request} {k : Constant} (h : r.literal? = some k) (T : Tables) :
    r.enter T = (T.constant k).2 := by
  cases r <;> cases h <;> rfl

theorem holds_enter {T : Tables} {ks : List Constant} (h : T.Holds ks) (r : Request) :
    (r.enter T).Holds (ks ++ r.literal?.toList) := by
  cases r with
  | constant | number | string => exact h.constant _
  | name t =>
    rw [show (Request.name t).literal?.toList = [] from rfl, List.append_nil]
    exact h.name t
  | _ =>
    rw [show Option.toList _ = [] from rfl, List.append_nil]
    exact h

theorem holds_of_performAll? (h : (new name).performAll? rs = some b) :
    b.tables.Holds (literalsOf rs) := by
  induction rs using List.reverseRecOn generalizing b with
  | nil =>
    cases h
    exact Tables.holds_empty
  | append_singleton rs r ih =>
    obtain ⟨b₁, hfirst, hr⟩ := performAll?_snoc.1 h
    have hone : literalsOf (rs ++ [r]) = literalsOf rs ++ r.literal?.toList := by
      cases hk : r.literal? <;> simp [literalsOf, hk]
    rw [tables_of_perform? hr, hone]
    exact holds_enter (ih hfirst) r

/-- The index that was the answer designates the first literal that is the same. -/
theorem Passed.designates (h : (new name).performAll? rs = some b) {before : List Request}
    {k : Constant} {i : Nat} (hk : Passed name rs before k i) :
    b.code.constants[i]? = some (Constant.first (literalsOf before) k) := by
  obtain ⟨r, after, b₁, rfl, hliteral, hbefore, rfl⟩ := hk
  rw [performAll?_append, hbefore, Option.bind_some, performAll?, List.foldlM_cons] at h
  obtain ⟨b₂, hr, hafter⟩ := Option.bind_eq_some_iff.1 h
  have hbelow := below_of_performAll? hafter
  rw [tables_of_perform? hr, enter_of_literal? hliteral] at hbelow
  rw [constant_eq]
  exact (holds_of_performAll? hbefore).designates hbelow

theorem Passed.index_eq (h : (new name).performAll? rs = some b) {before before' : List Request}
    {k : Constant} {i i' : Nat} (hk : Passed name rs before k i) (hk' : Passed name rs before' k i')
    (hnan : k.number.isNaN = false) : i = i' := by
  refine (holds_of_performAll? h).distinct i i' _ _ (hk.designates h) (hk'.designates h) ?_
  rw [Constant.same_of_same (Constant.first_same _ hnan)]
  exact Constant.first_same _ hnan

end Builder

namespace Listing

/-! ## Literals of a text -/

def Argument.literal? : Argument → Option Constant
  | .constant k => some k
  | _ => none

def Statement.literals : Statement → List Constant
  | .instruction _ as => as.filterMap Argument.literal?
  | _ => []

def literalsOf (ss : List Statement) : List Constant := ss.flatMap Statement.literals

theorem holds_enter {T : Tables} {ks : List Constant} (h : T.Holds ks) (a : Argument) :
    (a.enter T).Holds (ks ++ a.literal?.toList) := by
  cases a with
  | constant k => exact h.constant k
  | name t =>
    rw [show (Argument.name t).literal?.toList = [] from rfl, List.append_nil]
    exact h.name t
  | _ =>
    rw [show Option.toList _ = [] from rfl, List.append_nil]
    exact h

theorem holds_enterArguments {T : Tables} {ks : List Constant} (h : T.Holds ks)
    (as : List Argument) : (enterArguments T as).Holds (ks ++ as.filterMap Argument.literal?) := by
  induction as generalizing T ks with
  | nil => rwa [List.filterMap_nil, List.append_nil]
  | cons a as ih =>
    have hone : (a :: as).filterMap Argument.literal? =
        a.literal?.toList ++ as.filterMap Argument.literal? := by
      cases hk : a.literal? <;> simp [hk]
    rw [hone, ← List.append_assoc]
    exact ih (holds_enter h a)

theorem holds_enterAll {T : Tables} {ks : List Constant} (h : T.Holds ks) (ss : List Statement) :
    (enterAll T ss).Holds (ks ++ literalsOf ss) := by
  induction ss generalizing T ks with
  | nil => rwa [show literalsOf [] = [] from rfl, List.append_nil]
  | cons st ss ih =>
    rw [literalsOf, List.flatMap_cons, ← literalsOf, ← List.append_assoc]
    refine ih ?_
    cases st with
    | instruction op as => exact holds_enterArguments h as
    | _ => exact (List.append_nil ks).symm ▸ h

/-- Every literal of an instruction designates the first of the function that is the same, and no two
entries of the table are the same. -/
structure Designates (c : Code) (ss : List Statement) : Prop where
  first : ∀ before op as after, ss = before ++ .instruction op as :: after →
    ∃ ins ∈ Stream.instructions c.data, ins.offset = extentOf before ∧ ins.opcode = op ∧
      ∀ (i : Nat) k, as[i]? = some (.constant k) → c.constants[(ins.u32 i).toNat]? =
        some (Constant.first (literalsOf before ++ (as.take i).filterMap Argument.literal?) k)
  distinct : ∀ (i j : Nat) (e e' : Constant), c.constants[i]? = some e → c.constants[j]? = some e' →
    e.same e' = true → i = j

theorem Account.designates {c : Code} {ss : List Statement} (h : Account c ss) (hsmall : Small c) :
    Designates c ss := by
  constructor
  · intro before op as after hss
    refine ⟨linkedAt ss before op as, h.linkedAt_mem hss, rfl, rfl, fun i k ha => ?_⟩
    have hholds := holds_enterArguments (holds_enterAll Tables.holds_empty before) (as.take i)
    rw [h.constant_index hss hsmall ha]
    exact hholds.designates (h.below hss ha)
  · rw [h.constants]
    exact (holds_enterAll Tables.holds_empty ss).distinct

end Listing

/-! ## Tables of literals -/

open Builder (Request Passed) in
/-- The index of a literal that was passed to a builder designates the first that is the same, whatever
was passed later and in the finished code: the literal itself, or a zero of the other sign. A literal
that is no NaN has one index. The literals of a text that was read designate likewise. -/
theorem constants_designate (name : Text) (rs : List Request) (source : Text) :
    (∀ b, (Builder.new name).performAll? rs = some b →
      (∀ before k i, Passed name rs before k i →
        (∀ c, b.build = .ok c →
          c.constants[i]? = some (Constant.first (Builder.literalsOf before) k)) ∧
        b.code.constants[i]? = some (Constant.first (Builder.literalsOf before) k) ∧
        (Constant.first (Builder.literalsOf before) k = k ∨
          Constant.first (Builder.literalsOf before) k ∈ Builder.literalsOf before ∧
            (Constant.first (Builder.literalsOf before) k).Zeros k)) ∧
      ∀ before before' k i i', Passed name rs before k i → Passed name rs before' k i' →
        k.number.isNaN = false → i = i') ∧
      ∀ c, Listing.parse source = .ok c →
        (∀ d, some d ∈ c.walk → d.data.size < 2 ^ 32 ∧ d.codes.length ≤ 2 ^ 32) →
          ∃ line lines ss, Listing.significantLines source = line :: lines ∧
            Listing.BodyWith Listing.Designates (lines.map Listing.Line.text) ss [] ∧
            Listing.Designates c ss := by
  refine ⟨fun b hrun => ⟨fun before k i hk => ⟨fun c hbuild => ?_, hk.designates hrun,
    Constant.first_cases _ k⟩, fun before before' k i i' hk hk' => hk.index_eq hrun hk'⟩,
    fun c hparse hsmall => ?_⟩
  · have hbuilt := Builder.built_of_performAll? hrun (Builder.failure_of_build hbuild)
    obtain ⟨-, -, hs, -, hc⟩ := hbuilt.build_ok hbuild
    rw [hc]
    exact hk.designates hrun
  · exact Listing.functions_of_parse (fun _ _ haccount hsmall _ => haccount.designates hsmall) hparse
      fun d hd => ⟨(hsmall d hd).1, (hsmall d hd).2⟩

/-- A zero, a number and a zero of the other sign. -/
def zeros : List Builder.Request := [.number ⟨0⟩, .number .one, .number ⟨0x8000000000000000⟩]

/-- What is passed between zeros has an index of its own. -/
theorem constants_designate_zeros :
    ∃ b c, (Builder.new []).performAll? zeros = some b ∧ b.build = .ok c ∧
      c.constants[1]? = some (.ofNumber .one) := by
  have hfinished : (((Builder.new []).performAll? zeros).bind fun b => b.build.toOption).isSome := by
    decide +kernel
  have hanswer : ((Builder.new []).performAll? [.number ⟨0⟩]).map
      (fun b => (b.constant (.ofNumber .one)).1) = some 1 := by decide +kernel
  obtain ⟨c, hc⟩ := Option.isSome_iff_exists.1 hfinished
  obtain ⟨b, hrun, hbuild⟩ := Option.bind_eq_some_iff.1 hc
  obtain ⟨b₁, hfirst, hone⟩ := Option.map_eq_some_iff.1 hanswer
  have hbuild := ok_of_toOption hbuild
  exact ⟨b, c, hrun, hbuild, (((constants_designate [] zeros []).1 b hrun).1 [.number ⟨0⟩] (.ofNumber .one) 1
    ⟨.number .one, [.number ⟨0x8000000000000000⟩], b₁, rfl, rfl, hfirst, hone⟩).1 c hbuild⟩

/-- The negative zero that is passed after the positive one designates the positive one. -/
theorem constant_altered :
    ∃ b c i, (Builder.new []).performAll? zeros = some b ∧ b.build = .ok c ∧
      Builder.Passed [] zeros [.number ⟨0⟩, .number .one] (.ofNumber ⟨0x8000000000000000⟩) i ∧
      c.constants[i]? = some (.ofNumber ⟨0⟩) := by
  have hfinished : (((Builder.new []).performAll? zeros).bind fun b => b.build.toOption.map
      fun c => c.constants[0]?) = some (some (.ofNumber ⟨0⟩)) := by decide +kernel
  have hanswer : ((Builder.new []).performAll? [.number ⟨0⟩, .number .one]).map
      (fun b => (b.constant (.ofNumber ⟨0x8000000000000000⟩)).1) = some 0 := by decide +kernel
  obtain ⟨b, hrun, hc⟩ := Option.bind_eq_some_iff.1 hfinished
  obtain ⟨c, hbuild, hzero⟩ := Option.map_eq_some_iff.1 hc
  obtain ⟨b₁, hfirst, hshared⟩ := Option.map_eq_some_iff.1 hanswer
  exact ⟨b, c, 0, hrun, ok_of_toOption hbuild,
    ⟨.number ⟨0x8000000000000000⟩, [], b₁, rfl, rfl, hfirst, hshared⟩, hzero⟩

end RegisterJit
