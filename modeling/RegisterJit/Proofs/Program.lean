import RegisterJit.Machine.Program
import RegisterJit.Proofs.Linking
import RegisterJit.Proofs.Parsing

/-!
# Program texts compile

A program text that is not rejected gives a sound tree of codes. Such a tree passes validation, its
literals become values, and its units compile and link.

`parse_sound` gives a sound tree for every text that is accepted, or a reason in the text why it is not. From
there each stage has its own sufficient condition, and this module checks that a sound tree within the bounds
meets all of them: validation by `Acceptance`, literals by being numbers or strings, compiling by `Compilation`,
which needs the operands in range, and linking by `Linking`, for any allocator that has memory to give.
`parse_compiles` states the chain from the text to the image, and `parse_compiles_catching` follows it for a
program with a handler.
-/

namespace RegisterJit

/-! ## Trees -/

theorem Code.Sound.codes {c : Code} (h : c.Sound) :
    ∃ ds : List Code, c.walk = ds.map some ∧ ∀ d ∈ ds, ∃ ops, d.Formed ops := by
  unfold Code.Sound at h
  generalize c.walk = xs at h
  induction xs with
  | nil => exact ⟨[], rfl, by simp⟩
  | cons x xs ih =>
    obtain ⟨d, ops, rfl, hd⟩ := h x (List.mem_cons_self ..)
    obtain ⟨ds, rfl, hds⟩ := ih fun y hy => h y (List.mem_cons_of_mem _ hy)
    refine ⟨d :: ds, rfl, fun e he => ?_⟩
    rcases List.mem_cons.1 he with rfl | he
    · exact ⟨ops, hd⟩
    · exact hds e he

theorem Code.Sound.validate {c : Code} (h : c.Sound) : c.validate = .ok () := by
  obtain ⟨ds, hwalk, hds⟩ := h.codes
  have hwalk? : c.walk? = some ds := by
    rw [Code.walk?, hwalk, ← List.mapM'_eq_mapM]
    clear hwalk hds
    induction ds with
    | nil => rfl
    | cons d ds ih => rw [List.map_cons, List.mapM', ih]; rfl
  have hall : ∀ (es : List Code), (∀ d ∈ es, ∃ ops, d.Formed ops) →
      es.forM (fun d => d.validateOne.mapError (ProgramDefect.inCode d.name)) = .ok () := by
    intro es hes
    induction es with
    | nil => rfl
    | cons d es ih =>
      obtain ⟨ops, hd⟩ := hes d (List.mem_cons_self ..)
      rw [List.forM, hd.valid]
      exact ih fun e he => hes e (List.mem_cons_of_mem _ he)
  rw [Code.validate, hwalk?]
  exact hall ds hds

/-! ## Literals -/

namespace Run

theorem boxConstant_ok {k : Constant} (h : k.Meaningful) (w : World) :
    ∃ v w', boxConstant k w = .ok (some v) w' := by
  unfold boxConstant
  split
  · exact ⟨_, w, rfl⟩
  split
  · exact ⟨_, _, rfl⟩
  split
  · exact ⟨_, w, rfl⟩
  split
  · exact ⟨_, w, rfl⟩
  split
  · exact ⟨_, w, rfl⟩
  · rcases h with h | h | h | h | h <;> exact absurd h (by assumption)

theorem boxConstants_ok {ks : List Constant} (h : ∀ k ∈ ks, k.Meaningful) (pool : Array Value)
    (w : World) :
    ∃ values w', boxConstants pool ks w = .ok values w' ∧ values.size = pool.size + ks.length := by
  induction ks generalizing pool w with
  | nil => exact ⟨pool, w, rfl, rfl⟩
  | cons k ks ih =>
    obtain ⟨v, w₁, hv⟩ := boxConstant_ok (h k (List.mem_cons_self ..)) w
    obtain ⟨values, w₂, hvalues, hsize⟩ :=
      ih (fun k hk => h k (List.mem_cons_of_mem _ hk)) (pool.push v) w₁
    refine ⟨values, w₂, ?_, ?_⟩
    · change EStateM.bind (boxConstant k) _ w = _
      rw [EStateM.bind, hv]
      exact hvalues
    · rw [hsize, Array.size_push, List.length_cons]
      omega

theorem prepare_ok {c : Code} {ops : List Opcode} (h : c.Formed ops) (w : World) :
    ∃ pool w', prepare c w = .ok pool w' ∧ pool.size = c.constants.size := by
  obtain ⟨pool, w', hpool, hsize⟩ := boxConstants_ok
    (fun k hk => h.constants k (Array.mem_toList_iff.1 hk)) #[] w
  refine ⟨pool, w', hpool, ?_⟩
  rw [hsize, Array.length_toList]
  exact Nat.zero_add _

theorem mapM_unit_ok {ds : List Code} (hds : ∀ d ∈ ds, ∃ ops, d.Formed ops) (first : Nat)
    (numbered : Bool) (n : Nat) (w : World) :
    ∃ (us : List CodeUnit) (w' : World),
      ((ds.map some).zipIdx n).mapM (m := Run) (fun (code?, i) => do
        match code? with
        | none => return none
        | some code =>
          let pool ← if true then prepare code else pure #[]
          return some ⟨first + i, if numbered then i.toUInt32 else 0, code, pool⟩) w =
        .ok (us.map some) w' ∧
      us.map CodeUnit.code = ds ∧ us.map CodeUnit.key = List.range' (first + n) ds.length ∧
      ∀ u ∈ us, u.pool.size = u.code.constants.size := by
  induction ds generalizing n w with
  | nil => exact ⟨[], w, rfl, rfl, rfl, by simp⟩
  | cons d ds ih =>
    obtain ⟨ops, hd⟩ := hds d (List.mem_cons_self ..)
    obtain ⟨pool, w₁, hpool, hsize⟩ := prepare_ok hd w
    obtain ⟨us, w₂, hus, hcodes, hkeys, hpools⟩ :=
      ih (fun e he => hds e (List.mem_cons_of_mem _ he)) (n + 1) w₁
    let u : CodeUnit := ⟨first + n, if numbered then n.toUInt32 else 0, d, pool⟩
    refine ⟨u :: us, w₂, ?_, ?_, ?_, ?_⟩
    · rw [List.map_cons, List.zipIdx_cons, List.mapM_cons]
      change EStateM.bind (EStateM.bind (prepare d) _) _ w = _
      rw [EStateM.bind, EStateM.bind, hpool]
      change EStateM.bind _ _ w₁ = _
      rw [EStateM.bind, hus]
      rfl
    · rw [List.map_cons, hcodes]
    · rw [List.map_cons, hkeys, List.length_cons, List.range'_succ]
      rfl
    · intro v hv
      rcases List.mem_cons.1 hv with rfl | hv
      · exact hsize
      · exact hpools v hv

theorem inspectedUnits_ok {c : Code} (h : c.Sound) (first : Nat) (numbered : Bool) (w : World) :
    ∃ (us : List CodeUnit) (w' : World),
      inspectedUnits first numbered true c w = .ok (us.map some) w' ∧
      us.map (fun u => some u.code) = c.walk ∧ (us.map CodeUnit.key).Nodup ∧
      ∀ u ∈ us, (∃ ops, u.code.Formed ops) ∧ u.pool.size = u.code.constants.size := by
  obtain ⟨ds, hwalk, hds⟩ := h.codes
  have hpresent : c.walk.any Option.isNone = false := by
    rw [hwalk]
    simp
  obtain ⟨us, w', hus, hcodes, hkeys, hpools⟩ := mapM_unit_ok hds first numbered 0 w
  refine ⟨us, w', ?_, ?_, ?_, fun u hu => ⟨hds _ ?_, hpools u hu⟩⟩
  · unfold inspectedUnits
    dsimp only
    rw [hpresent, Bool.false_and, if_neg Bool.false_ne_true, hwalk]
    exact hus
  · rw [hwalk, ← hcodes, List.map_map]
    rfl
  · rw [hkeys]
    exact List.nodup_range'
  · rw [← hcodes]
    exact List.mem_map_of_mem hu

end Run

namespace Listing

/-- A program text is rejected for a reason that lies in it, or it gives a tree that passes
validation and whose units, once their literals are values, compile and link. -/
theorem parse_compiles (source : Text) :
    (∀ e, parse source = .error e → e.isFault = false) ∧
    ∀ c, parse source = .ok c → (∀ d, some d ∈ c.walk → d.data.size < 2 ^ 31) →
      c.validate = .ok () ∧
      ∀ (first : Nat) (numbered : Bool) (w : World),
        ∃ (us : List (Option CodeUnit)) (w' : World) (s : Session),
          Run.inspectedUnits first numbered true c w = .ok us w' ∧
          us.map (Option.map CodeUnit.code) = c.walk ∧
          Session.start.compile us = (.ok (), s) ∧
          ∀ (α : Type) (allocator : α) (allocate : α → Int → Except AllocationError UInt64 × α)
            (base : UInt64), (allocate allocator s.size).1 = .ok base →
            ∃ image, (s.link allocator allocate).result = .ok image := by
  have hsound := parse_sound source
  refine ⟨fun e he => by rwa [he] at hsound, fun c hc hsmall => ?_⟩
  rw [hc] at hsound
  have hsound : c.Sound := hsound
  refine ⟨hsound.validate, fun first numbered w => ?_⟩
  obtain ⟨us, w', hus, hcodes, hkeys, hunits⟩ := Run.inspectedUnits_ok hsound first numbered w
  obtain ⟨parts, s, hs, -, hholds, hlinked⟩ := Session.compile_holds (fun u (hu : u ∈ us) => by
    refine ⟨(hunits u hu).1, hsmall u.code ?_, (hunits u hu).2⟩
    rw [← hcodes]
    exact List.mem_map.2 ⟨u, hu, rfl⟩) hkeys
  refine ⟨us.map some, w', s, hus, ?_, hs, fun α allocator allocate base hbase => ?_⟩
  · rw [List.map_map, ← hcodes]
    rfl
  · exact ⟨_, hholds.link_eq hlinked allocator allocate hbase⟩

/-- A function that throws, called where its exception is caught. -/
def catching : Text := Text.ofString
  "function main
  try:
    LOAD_FUNCTION r0, fail
    LOAD_UNDEFINED r1
    CALL r2, r0, r1, 0
    RETURN r2
  catch:
    TRY_CATCH_SETUP r3, e
    RETURN r3
    .catch try, catch
    function fail
      LOAD_CONST r0, \"deep\"
      THROW r0
    end
  end"

theorem parse_compiles_catching :
    ∃ c, parse catching = .ok c ∧ c.validate = .ok () ∧
      ∀ w, ∃ us w' s, Run.inspectedUnits 0 true true c w = .ok us w' ∧ us.length = 2 ∧
        Session.start.compile us = (.ok (), s) := by
  have hsmall : (match parse catching with
      | .ok c => c.walk.length == 2 && c.walk.all fun d => d.all (·.data.size < 2 ^ 31)
      | .error _ => false) = true := by decide +kernel
  cases hc : parse catching with
  | error e => rw [hc] at hsmall; cases hsmall
  | ok c =>
    simp only [hc, Bool.and_eq_true, beq_iff_eq] at hsmall
    obtain ⟨hlength, hall⟩ := hsmall
    obtain ⟨hvalid, hunits⟩ := (parse_compiles catching).2 c hc fun d hd => by
      simpa using List.all_eq_true.1 hall _ hd
    refine ⟨c, rfl, hvalid, fun w => ?_⟩
    obtain ⟨us, w', s, hus, hcodes, hs, -⟩ := hunits 0 true w
    refine ⟨us, w', s, hus, ?_, hs⟩
    rw [← hlength, ← hcodes, List.length_map]

end Listing

end RegisterJit
