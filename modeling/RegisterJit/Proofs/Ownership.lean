import RegisterJit.Machine.Program
import RegisterJit.Proofs.Images
import RegisterJit.Proofs.Placement

/-!
# Codes of a machine

A machine keeps every code under its number and every image in a chunk of its own. Whatever programs
are compiled, and however the compilations end, an address belongs to one code at most, and what
machine code refers to by number is what it was compiled from.

Trees are walked in the same order when a program is compiled and when its codes are numbered; `walk_drop` and
`walk_nested` say where in that order a code stands. `Machine.Keeps` is the invariant of a machine: the numbers
of the codes, the chunks of the images, and that both agree. `compile_cases` says all that a compilation can do,
failures included, and `install` and `memory_allocate` what a successful one adds, so that `Keeps` holds of the
machines that any sequence of compilations gives. `Addresses` reads its theorem off the invariant, `Evolution`
uses it for runs.
-/

namespace RegisterJit

open X86 (Label Assembler)

/-! ## Trees in order -/

namespace Code

theorem walkAll_append (cs ds : List (Option Code)) :
    walkAll (cs ++ ds) = walkAll cs ++ walkAll ds := by
  induction cs with
  | nil => rfl
  | cons c cs ih => cases c <;> simp [walkAll, ih]

theorem length_walkAll (cs : List (Option Code)) :
    (walkAll cs).length = (cs.map fun | some d => d.walk.length | none => 1).sum := by
  induction cs with
  | nil => rfl
  | cons c cs ih => cases c <;> simp [walkAll, ih, Nat.add_comm]

mutual

/-- In the order of a tree a code is followed by the codes nested in it. -/
theorem walk_drop (c : Code) {i : Nat} {d : Code} (h : c.walk[i]? = some (some d)) :
    d.walk <+: c.walk.drop i := by
  cases i with
  | zero =>
    rw [walk_eq] at h
    obtain rfl : c = d := by simpa using h
    exact List.prefix_refl _
  | succ i =>
    cases c with
    | mk name data constants names codes handlers params registerCount strict =>
      rw [walk_eq] at h
      rw [walk_eq ⟨name, _, _, _, codes, _, _, _, _⟩, List.drop_succ_cons]
      exact walkAll_drop codes h

theorem walkAll_drop (cs : List (Option Code)) {i : Nat} {d : Code}
    (h : (walkAll cs)[i]? = some (some d)) : d.walk <+: (walkAll cs).drop i := by
  cases cs with
  | nil => cases h
  | cons o rest =>
    cases o with
    | none =>
      rw [walkAll] at h ⊢
      cases i with
      | zero => cases h
      | succ i => exact walkAll_drop rest h
    | some c =>
      rw [walkAll] at h ⊢
      by_cases hi : i < c.walk.length
      · rw [List.getElem?_append_left hi] at h
        rw [List.drop_append_of_le_length (Nat.le_of_lt hi)]
        exact (walk_drop c h).trans (List.prefix_append _ _)
      · rw [List.getElem?_append_right (Nat.le_of_not_lt hi)] at h
        rw [List.drop_append, List.drop_of_length_le (Nat.le_of_not_lt hi), List.nil_append]
        exact walkAll_drop rest h

end

/-- The place in the order of a tree of a code nested in another. -/
theorem walk_nested {c d e : Code} {i j : Nat} (hd : c.walk[i]? = some (some d))
    (he : d.codes[j]? = some (some e)) :
    c.walk[i + 1 + (walkAll (d.codes.take j)).length]? = some (some e) := by
  obtain ⟨rest, hrest⟩ := walk_drop c hd
  have hsplit : d.codes = d.codes.take j ++ some e :: d.codes.drop (j + 1) := by
    rw [← List.getElem?_eq_some_iff.1 he |>.choose_spec, List.getElem_cons_drop, List.take_append_drop]
  have hwalk : c.walk.drop (i + 1) = walkAll (d.codes.take j) ++
      (some e :: (walkAll e.codes ++ (walkAll (d.codes.drop (j + 1)) ++ rest))) := by
    rw [← List.drop_drop, ← hrest, walk_eq d, List.cons_append, List.drop_one, List.tail_cons]
    conv_lhs => rw [hsplit, walkAll_append, walkAll, walk_eq e]
    simp
  rw [← List.getElem?_drop, hwalk, List.getElem?_append_right (Nat.le_refl _), Nat.sub_self]
  rfl

end Code

/-! ## Numbered codes -/

def CodeUnit.Numbered (first : Nat) (us : List CodeUnit) : Prop :=
  ∀ i u, us[i]? = some u → u.key = first + i ∧ u.id = (first + i).toUInt32

namespace CodeUnit.Numbered

variable {first : Nat} {us vs : List CodeUnit}

theorem nil : Numbered first [] := fun i u h => by cases h

theorem append (hus : Numbered first us) (hvs : Numbered (first + us.length) vs) :
    Numbered first (us ++ vs) := by
  intro i u h
  by_cases hi : i < us.length
  · rw [List.getElem?_append_left hi] at h
    exact hus i u h
  · rw [List.getElem?_append_right (Nat.le_of_not_lt hi)] at h
    have := hvs _ u h
    rwa [Nat.add_assoc, Nat.add_sub_cancel' (Nat.le_of_not_lt hi)] at this

theorem singleton {u : CodeUnit} (hkey : u.key = first) (hid : u.id = first.toUInt32) :
    Numbered first [u] := by
  intro i v h
  cases i with
  | zero =>
    cases h
    exact ⟨hkey, hid⟩
  | succ i => cases h

theorem nodup (h : Numbered first us) : (us.map CodeUnit.key).Nodup := by
  rw [List.nodup_iff_getElem?_ne_getElem?]
  intro i j hij hj heq
  rw [List.length_map] at hj
  rw [List.getElem?_map, List.getElem?_map, List.getElem?_eq_getElem hj,
    List.getElem?_eq_getElem (Nat.lt_trans hij hj)] at heq
  have hi := (h i _ (List.getElem?_eq_getElem (Nat.lt_trans hij hj))).1
  have hj := (h j _ (List.getElem?_eq_getElem hj)).1
  have := Option.some.inj heq
  omega

end CodeUnit.Numbered

namespace Machine

/-! ## Publishing -/

def enterAll (codes : Array MachineCode) (placed : List PlacedUnit) : Array MachineCode :=
  placed.foldl (fun codes p => codes.modify p.unit.key fun c => { c with entry := p.entry }) codes

theorem publish_eq (m : Machine) (placed : Array PlacedUnit) :
    m.publish placed = { m with codes := enterAll m.codes placed.toList } := by
  rw [publish, ← Array.foldl_toList]
  generalize placed.toList = ps
  induction ps generalizing m with
  | nil => rfl
  | cons p ps ih =>
    rw [List.foldl_cons, ih]
    rfl

section

variable {codes : Array MachineCode} {placed : List PlacedUnit} {k : Nat}

theorem map_unit_enterAll (codes : Array MachineCode) (placed : List PlacedUnit) :
    (enterAll codes placed).toList.map MachineCode.unit = codes.toList.map MachineCode.unit := by
  induction placed generalizing codes with
  | nil => rfl
  | cons p ps ih =>
    refine (ih _).trans (List.ext_getElem? fun i => ?_)
    rw [List.getElem?_map, List.getElem?_map, Array.getElem?_toList, Array.getElem?_toList,
      Array.getElem?_modify]
    split
    · cases codes[i]? <;> rfl
    · rfl

theorem getElem?_enterAll_of_ne (h : ∀ p ∈ placed, p.unit.key ≠ k) :
    (enterAll codes placed)[k]? = codes[k]? := by
  induction placed generalizing codes with
  | nil => rfl
  | cons p ps ih =>
    obtain ⟨hp, hps⟩ := List.forall_mem_cons.1 h
    exact (ih hps).trans (by rw [Array.getElem?_modify, if_neg hp])

theorem getElem?_enterAll_of_mem (hnodup : (placed.map fun p => p.unit.key).Nodup) {p : PlacedUnit}
    (hp : p ∈ placed) {c : MachineCode} (hc : codes[p.unit.key]? = some c) :
    (enterAll codes placed)[p.unit.key]? = some { c with entry := p.entry } := by
  induction placed generalizing codes with
  | nil => cases hp
  | cons q ps ih =>
    rw [List.map_cons, List.nodup_cons] at hnodup
    rcases List.mem_cons.1 hp with rfl | hp
    · have hne : ∀ q ∈ ps, q.unit.key ≠ p.unit.key := fun q hq heq =>
        hnodup.1 (heq ▸ List.mem_map_of_mem (f := fun p => p.unit.key) hq)
      refine (getElem?_enterAll_of_ne hne).trans ?_
      rw [Array.getElem?_modify, if_pos rfl, hc]
      rfl
    · refine ih hnodup.2 hp ?_
      have hne : q.unit.key ≠ p.unit.key := fun heq =>
        hnodup.1 (heq ▸ List.mem_map_of_mem (f := fun p => p.unit.key) hp)
      rw [Array.getElem?_modify, if_neg hne, hc]

end

/-- The machine after a session was linked, whatever came of it. -/
def install (m : Machine) (o : LinkOutcome CodeMemory) : Machine :=
  let m := { m with codeMemory := o.allocator }.publish o.published
  match o.result with
  | .ok image => { m with images := m.images.push (.ofImage image) }
  | .error _ => m

theorem install_eq (m : Machine) (o : LinkOutcome CodeMemory) :
    m.install o = { m with
      codeMemory := o.allocator
      codes := enterAll m.codes o.published.toList
      images := m.images ++ (o.result.toOption.map LoadedImage.ofImage).toArray } := by
  rw [install, publish_eq]
  cases o.result with
  | error e => simp [Except.toOption]
  | ok image => simp [Except.toOption]

def enroll (m : Machine) (us : List CodeUnit) : Machine :=
  { m with codes := m.codes ++ (us.map fun u => (⟨u, 0⟩ : MachineCode)).toArray }

theorem enroll_append (m : Machine) (us vs : List CodeUnit) :
    m.enroll (us ++ vs) = (m.enroll us).enroll vs := by
  simp [enroll, Array.append_assoc]

theorem size_enroll (m : Machine) (us : List CodeUnit) :
    (m.enroll us).codes.size = m.codes.size + us.length := by
  simp [enroll]

end Machine

/-! ## Compiling on a machine -/

namespace Run

/-- The world after a step, whatever came of it. -/
def after {α : Type} (x : Run α) (w : World) : World :=
  match x w with
  | .ok _ w' => w'
  | .error _ w' => w'

/-- The result of a step, if it has one. -/
def yield? {α : Type} (x : Run α) (w : World) : Option α :=
  match x w with
  | .ok a _ => some a
  | .error _ _ => none

section

variable {α β : Type} {x : Run α} {f : α → Run β} {w w' : World}

theorem eq_ok_of_yield? {a : α} (h : x.yield? w = some a) : x w = .ok a (x.after w) := by
  rw [yield?] at h
  rw [after]
  cases hx : x w with
  | ok b w' =>
    rw [hx] at h
    cases h
    rfl
  | error e w' =>
    rw [hx] at h
    cases h

theorem after_ok {a : α} (h : x w = .ok a w') : x.after w = w' := by rw [after, h]

theorem after_error {e : Fault} (h : x w = .error e w') : x.after w = w' := by rw [after, h]

theorem after_bind_ok {a : α} (h : x w = .ok a w') : (x >>= f).after w = (f a).after w' := by
  rw [after, bind_ok h, after]

theorem after_bind_error {e : Fault} (h : x w = .error e w') : (x >>= f).after w = w' :=
  after_error (bind_error h)

end

theorem boxConstant_machine (k : Constant) (w : World) :
    ((boxConstant k).after w).machine = w.machine := by
  unfold boxConstant
  iterate 5
    split
    · rfl
  rfl

theorem boxConstants_machine (pool : Array Value) (ks : List Constant) (w : World) :
    ((boxConstants pool ks).after w).machine = w.machine := by
  induction ks generalizing pool w with
  | nil => rfl
  | cons k ks ih =>
    have hk := boxConstant_machine k w
    rw [boxConstants]
    cases h : boxConstant k w with
    | error e w₁ =>
      rw [after_error h] at hk
      rw [after_bind_error h, hk]
    | ok v w₁ =>
      rw [after_ok h] at hk
      rw [after_bind_ok h, ← hk]
      cases v with
      | none => rfl
      | some v => exact ih (pool.push v) w₁

theorem register_cases (c : Code) (w : World) :
    ∃ u : CodeUnit, u.key = w.machine.codes.size ∧ u.id = w.machine.codes.size.toUInt32 ∧
      ((register c).after w).machine = w.machine.enroll [u] ∧
      ∀ v w', register c w = .ok v w' → v = u ∧ u.code = c := by
  let id := w.machine.codes.size
  let unit (pool : Array Value) : CodeUnit := ⟨id, id.toUInt32, c, pool⟩
  let w₁ : World := { w with machine :=
    { w.machine with codes := w.machine.codes.push ⟨unit #[], 0⟩ } }
  let keep (pool : Array Value) : Run CodeUnit := do
    modifyMachine fun m => { m with codes := m.codes.setIfInBounds id ⟨unit pool, 0⟩ }
    return unit pool
  have hregister : register c w = (prepare c >>= keep) w₁ := rfl
  have hafter : (register c).after w = (prepare c >>= keep).after w₁ := by
    rw [after, hregister, after]
  have hprepare : ((prepare c).after w₁).machine = w₁.machine := boxConstants_machine _ _ _
  rw [hafter, hregister]
  cases h : prepare c w₁ with
  | error e w₂ =>
    rw [after_error h] at hprepare
    refine ⟨unit #[], rfl, rfl, ?_, fun v w' hv => ?_⟩
    · rw [after_bind_error h, hprepare]
      rfl
    · rw [bind_error h] at hv
      cases hv
  | ok pool w₂ =>
    rw [after_ok h] at hprepare
    refine ⟨unit pool, rfl, rfl, ?_, fun v w' hv => ?_⟩
    · rw [after_bind_ok h]
      change ({ w₂.machine with codes := w₂.machine.codes.setIfInBounds id ⟨unit pool, 0⟩ } : Machine)
        = _
      have hset : (w.machine.codes.push ⟨unit #[], 0⟩).setIfInBounds id ⟨unit pool, 0⟩ =
          w.machine.codes.push ⟨unit pool, 0⟩ := by
        apply Array.ext'
        simp [id, Array.toList_setIfInBounds]
      rw [hprepare, hset]
      rfl
    · rw [bind_ok h] at hv
      cases hv
      exact ⟨rfl, rfl⟩

theorem unitsOf_cases (cs : List (Option Code)) (w : World) :
    ∃ us : List CodeUnit, CodeUnit.Numbered w.machine.codes.size us ∧
      ((unitsOf register cs).after w).machine = w.machine.enroll us ∧
      ∀ vs w', unitsOf register cs w = .ok vs w' →
        vs = us.map some ∧ us.map (fun u => some u.code) = cs := by
  have hnone : w.machine = w.machine.enroll [] := by simp [Machine.enroll]
  induction cs generalizing w with
  | nil =>
    refine ⟨[], CodeUnit.Numbered.nil, hnone, ?_⟩
    rintro _ _ ⟨⟩
    exact ⟨rfl, rfl⟩
  | cons c rest ih =>
    cases c with
    | none => exact ⟨[], CodeUnit.Numbered.nil, hnone, fun vs w' hv => nomatch hv⟩
    | some c =>
      obtain ⟨u, hkey, hid, hmachine, hresult⟩ := register_cases c w
      have hfirst := CodeUnit.Numbered.singleton hkey hid
      rw [unitsOf]
      cases hr : register c w with
      | error e w₁ =>
        rw [after_error hr] at hmachine
        refine ⟨[u], hfirst, ?_⟩
        cases he : e.isRecoverable with
        | false =>
          have hattempt : attempt (register c) w = .error e w₁ := by simp [attempt, hr, he]
          rw [after_bind_error hattempt, bind_error hattempt]
          exact ⟨hmachine, fun vs w' hv => nomatch hv⟩
        | true =>
          have hattempt : attempt (register c) w = .ok (.error e) w₁ := by simp [attempt, hr, he]
          rw [after_bind_ok hattempt, bind_ok hattempt]
          dsimp only
          split
          · exact ⟨hmachine, fun vs w' hv => nomatch hv⟩
          · exact ⟨hmachine, fun vs w' hv => nomatch hv⟩
      | ok v w₁ =>
        obtain ⟨rfl, hcode⟩ := hresult v w₁ hr
        rw [after_ok hr] at hmachine
        have hattempt : attempt (register c) w = .ok (.ok v) w₁ := by simp [attempt, hr]
        obtain ⟨us, hnumbered, hrest, hresults⟩ := ih w₁ (by simp [Machine.enroll])
        rw [hmachine, Machine.size_enroll] at hnumbered
        refine ⟨v :: us, hfirst.append hnumbered, ?_⟩
        rw [after_bind_ok hattempt, bind_ok hattempt, ← List.singleton_append,
          Machine.enroll_append, ← hmachine]
        dsimp only
        cases hrun : unitsOf register rest w₁ with
        | error e w₂ =>
          rw [after_error hrun] at hrest
          rw [after_bind_error hrun, bind_error hrun]
          exact ⟨hrest, fun vs w' hv => nomatch hv⟩
        | ok vs₀ w₂ =>
          rw [after_ok hrun] at hrest
          rw [after_bind_ok hrun, bind_ok hrun]
          refine ⟨hrest, fun vs w' hv => ?_⟩
          obtain ⟨rfl, hcodes⟩ := hresults vs₀ w₂ hrun
          cases hv
          exact ⟨rfl, by rw [List.singleton_append, List.map_cons, hcode, hcodes]⟩

/-- What compiling a program does to the machine: the codes are numbered, and if the session compiled,
what linking it came to is installed. -/
theorem compile_cases (c : Code) (w : World) :
    ∃ us : List CodeUnit, CodeUnit.Numbered w.machine.codes.size us ∧
      (((compile c).after w).machine = w.machine.enroll us ∨
        ∃ s : Session, us.map (fun u => some u.code) = c.walk ∧
          Session.start.compile (us.map some) = (.ok (), s) ∧
          ((compile c).after w).machine = (w.machine.enroll us).install
            (s.link w.machine.codeMemory CodeMemory.allocate)) := by
  obtain ⟨us, hnumbered, hmachine, hresult⟩ := unitsOf_cases c.walk w
  refine ⟨us, hnumbered, ?_⟩
  have hget (w : World) : machine w = .ok w.machine w := rfl
  rw [compile, after_bind_ok (hget w)]
  dsimp only
  cases hr : unitsOf register c.walk w with
  | error e w₁ =>
    rw [after_error hr] at hmachine
    refine .inl ?_
    rw [← hmachine]
    cases he : e.isRecoverable with
    | false =>
      have hattempt : attempt (unitsOf register c.walk) w = .error e w₁ := by
        simp [attempt, hr, he]
      rw [after_bind_error hattempt]
    | true =>
      have hattempt : attempt (unitsOf register c.walk) w = .ok (.error e) w₁ := by
        simp [attempt, hr, he]
      rw [after_bind_ok hattempt]
      cases e <;> rfl
  | ok vs w₁ =>
    obtain ⟨rfl, hcodes⟩ := hresult vs w₁ hr
    rw [after_ok hr] at hmachine
    have hattempt : attempt (unitsOf register c.walk) w = .ok (.ok (us.map some)) w₁ := by
      simp [attempt, hr]
    have hpure : (pure (us.map some) : Run (List (Option CodeUnit))) w₁ = .ok (us.map some) w₁ := rfl
    rw [after_bind_ok hattempt, after_bind_ok hpure]
    cases hs : Session.start.compile (us.map some) with
    | mk r s =>
      cases r with
      | error i =>
        refine .inl ?_
        rw [← hmachine]
        cases i <;> rfl
      | ok u =>
        refine .inr ⟨s, hcodes, rfl, ?_⟩
        dsimp only
        rw [after_bind_ok (hget w₁), hmachine]
        rw [show (w.machine.enroll us).codeMemory = w.machine.codeMemory from rfl]
        generalize s.link w.machine.codeMemory CodeMemory.allocate = o
        obtain ⟨result, session, allocator, published⟩ := o
        cases result with
        | error e => cases e <;> exact congrArg (fun m : Machine =>
            ({ m with codeMemory := allocator } : Machine).publish published) hmachine
        | ok image => exact congrArg (fun m : Machine => m.install
            ⟨.ok image, session, allocator, published⟩) hmachine

end Run

/-! ## What a machine keeps -/

theorem Part.map_unit_programsFrom (pos : Nat) (parts : List Part) :
    (programsFrom pos parts).map CompiledUnit.unit = parts.map Part.unit := by
  induction parts generalizing pos with
  | nil => rfl
  | cons p parts ih => rw [programsFrom, List.map_cons, List.map_cons, ih]

theorem Session.Linked.map_unit {s : Session} {image : Image} (h : s.Linked image) :
    image.programs.toList.map PlacedUnit.unit = s.programs.toList.map CompiledUnit.unit := by
  have hall := h.programs
  generalize s.programs.toList = cs at hall ⊢
  generalize image.programs.toList = qs at hall ⊢
  induction hall with
  | nil => rfl
  | cons hq _ ih => rw [List.map_cons, List.map_cons, hq.unit, ih]

theorem Session.Compiled.map_unit {s : Session} {us : List CodeUnit}
    (h : Session.Compiled [us.map some] s) : s.programs.toList.map CompiledUnit.unit = us := by
  obtain ⟨parts, hunits, hcomp, -, -⟩ := h.comprises
  have hprograms : s.programs.toList = Part.programsFrom Session.start.size parts :=
    hcomp.gains.programs
  rw [hprograms, Part.map_unit_programsFrom]
  rw [List.flatten_singleton] at hunits
  have hmap : us.map some = (parts.map Part.unit).map some := by rw [hunits, List.map_map]; rfl
  exact (List.map_injective_iff.2 (Option.some_injective _) hmap).symm

namespace Machine

/-- An image of a program that the machine knows: its codes are those of the tree with consecutive
numbers, and each is known with its entry. -/
structure Runs (m : Machine) (img : Image) (c : Code) (us : List CodeUnit) (s : Session) : Prop where
  codes : us.map (fun u => some u.code) = c.walk
  numbered : ∃ first, CodeUnit.Numbered first us
  compiled : Session.Compiled [us.map some] s
  linked : s.Linked img
  units : img.programs.toList.map PlacedUnit.unit = us
  known : ∀ p ∈ img.programs.toList, m.codes[p.unit.key]? = some ⟨p.unit, p.entry⟩

/-- A machine whose codes stand at their numbers and whose images are chunks of a region. -/
structure Keeps (m : Machine) (region : CodeMemory) : Prop where
  numbered : CodeUnit.Numbered 0 (m.codes.toList.map MachineCode.unit)
  memory : ∃ sizes, m.codeMemory = region.serve sizes ∧
    (m.images.toList.map fun img => (img.base, img.code.size)).Sublist (region.chunks sizes)
  images : ∀ img ∈ m.images.toList, ∃ c us s, m.Runs img.toImage c us s

section

variable {m m' : Machine} {img : Image} {c : Code} {us : List CodeUnit} {s : Session}

theorem Runs.key_lt (h : m.Runs img c us s) {p : PlacedUnit} (hp : p ∈ img.programs.toList) :
    p.unit.key < m.codes.size := (Array.getElem?_eq_some_iff.1 (h.known p hp)).1

theorem Runs.mono (h : m.Runs img c us s)
    (hcodes : ∀ k < m.codes.size, m'.codes[k]? = m.codes[k]?) : m'.Runs img c us s :=
  { h with known := fun p hp => by rw [hcodes _ (h.key_lt hp), h.known p hp] }

theorem getElem?_enroll_of_lt {k : Nat} (hk : k < m.codes.size) :
    (m.enroll us).codes[k]? = m.codes[k]? := by
  rw [enroll, Array.getElem?_append_left hk]

theorem getElem?_enroll (hus : CodeUnit.Numbered m.codes.size us) {u : CodeUnit} (hu : u ∈ us) :
    (m.enroll us).codes[u.key]? = some ⟨u, 0⟩ := by
  obtain ⟨i, hi⟩ := List.getElem?_of_mem hu
  rw [(hus i u hi).1, enroll, Array.getElem?_append_right (Nat.le_add_right ..),
    Nat.add_sub_cancel_left, List.getElem?_toArray, List.getElem?_map, hi]
  rfl

end

namespace Keeps

variable {m : Machine} {region : CodeMemory} {us : List CodeUnit}

theorem congr {m' : Machine} (h : m.Keeps region) (hcodes : m'.codes = m.codes)
    (himages : m'.images = m.images) (hmemory : m'.codeMemory = m.codeMemory) : m'.Keeps region where
  numbered := by rw [hcodes]; exact h.numbered
  memory := by rw [hmemory, himages]; exact h.memory
  images img himg := by
    obtain ⟨c, us, s, hruns⟩ := h.images img (by rwa [himages] at himg)
    exact ⟨c, us, s, hruns.mono fun k _ => by rw [hcodes]⟩

theorem enroll (h : m.Keeps region) (hus : CodeUnit.Numbered m.codes.size us) :
    (m.enroll us).Keeps region where
  numbered := by
    have hunits : (m.enroll us).codes.toList.map MachineCode.unit =
        m.codes.toList.map MachineCode.unit ++ us := by
      simp [Machine.enroll, Function.comp_def]
    rw [hunits]
    exact h.numbered.append (by simpa using hus)
  memory := h.memory
  images img himg := by
    obtain ⟨c, vs, s, hruns⟩ := h.images img himg
    exact ⟨c, vs, s, hruns.mono fun k hk => getElem?_enroll_of_lt hk⟩

/-- Requests that are made of the region are added to those made before. -/
theorem memory_allocate (h : m.Keeps region) (size : Int) :
    ∃ sizes, (m.codeMemory.allocate size).2 = region.serve sizes ∧
      ((m.images.toList.map fun img => (img.base, img.code.size)) ++
        (m.codeMemory.chunks [size])).Sublist (region.chunks sizes) := by
  obtain ⟨sizes, hmemory, hchunks⟩ := h.memory
  refine ⟨sizes ++ [size], ?_, ?_⟩
  · rw [CodeMemory.serve_append, ← hmemory]
    rfl
  · rw [CodeMemory.chunks_append, ← hmemory]
    exact hchunks.append (List.Sublist.refl _)

/-- Linking a program keeps what was there before, and what comes of it is known. -/
theorem install (h : m.Keeps region) (hus : CodeUnit.Numbered m.codes.size us) {c : Code}
    (hcodes : us.map (fun u => some u.code) = c.walk) {s : Session}
    (hs : Session.start.compile (us.map some) = (.ok (), s)) :
    ((m.enroll us).install (s.link m.codeMemory CodeMemory.allocate)).Keeps region := by
  have hcompiled : Session.Compiled [us.map some] s := Session.Compiled.fresh.compile hs
  obtain ⟨parts, -, hcomp, -, -⟩ := hcompiled.comprises
  obtain ⟨hallocator, hpublished, himage⟩ := s.link_cases m.codeMemory CodeMemory.allocate
  have hplaces (image : Image) (hlink : (s.link m.codeMemory CodeMemory.allocate).result = .ok image) :=
    hcomp.laid.linked hlink
  have hrequest (image : Image)
      (hlink : (s.link m.codeMemory CodeMemory.allocate).result = .ok image) :=
    hcomp.laid.link_allocator hlink
  generalize s.link m.codeMemory CodeMemory.allocate = o at hallocator hpublished himage hplaces hrequest ⊢
  -- Only codes of this program get entries.
  have hkeys : ∀ p ∈ o.published.toList, p.unit ∈ us := fun p hp => by
    obtain ⟨d, hd, hunit⟩ := hpublished p (Array.mem_toList_iff.1 hp)
    rw [hunit, ← hcompiled.map_unit]
    exact List.mem_map_of_mem hd
  have hold : ∀ k < m.codes.size,
      (enterAll (m.enroll us).codes o.published.toList)[k]? = m.codes[k]? := fun k hk => by
    have hne : ∀ p ∈ o.published.toList, p.unit.key ≠ k := fun p hp => by
      obtain ⟨i, hi⟩ := List.getElem?_of_mem (hkeys p hp)
      have := (hus i _ hi).1
      omega
    rw [getElem?_enterAll_of_ne hne, getElem?_enroll_of_lt hk]
  rw [install_eq]
  constructor
  · dsimp only
    rw [map_unit_enterAll]
    exact (h.enroll hus).numbered
  · cases hresult : o.result with
    | error e =>
      have himages : (m.enroll us).images ++
          (Option.map LoadedImage.ofImage (Except.error e : Except LinkError Image).toOption).toArray =
          m.images := by simp [Except.toOption, Machine.enroll]
      dsimp only
      rw [himages]
      rcases hallocator with heq | ⟨n, heq⟩
      · rw [heq]
        exact h.memory
      · obtain ⟨sizes, hmemory, hchunks⟩ := h.memory_allocate n
        exact ⟨sizes, heq.trans hmemory, (List.sublist_append_left _ _).trans hchunks⟩
    | ok image =>
      obtain ⟨hbase, hlinked⟩ := hplaces image hresult
      obtain ⟨sizes, hmemory, hchunks⟩ := h.memory_allocate s.size
      have hchunk : m.codeMemory.chunks [(s.size : Int)] = [(image.base, image.code.size)] := by
        rw [CodeMemory.chunks, hbase, hlinked.size_eq hcomp.laid]
        rfl
      rw [hchunk] at hchunks
      refine ⟨sizes, (hrequest image hresult).trans hmemory, ?_⟩
      have himages : ((m.enroll us).images ++ (Option.map LoadedImage.ofImage
          (Except.ok image : Except LinkError Image).toOption).toArray).toList =
          m.images.toList ++ [LoadedImage.ofImage image] := by simp [Except.toOption, Machine.enroll]
      dsimp only
      rw [himages, List.map_append]
      exact hchunks
  · intro img himg
    dsimp only at himg
    have hmem : img ∈ m.images.toList ∨ ∃ image, o.result = .ok image ∧ img = .ofImage image := by
      cases hresult : o.result with
      | error e =>
        rw [hresult] at himg
        simp only [Except.toOption, Option.map_none, Option.toArray_none, Array.append_empty] at himg
        exact .inl himg
      | ok image =>
        rw [hresult] at himg
        simp only [Except.toOption, Option.map_some, Option.toArray_some, Array.toList_append,
          List.mem_append, List.mem_singleton] at himg
        exact himg.imp_right fun heq => ⟨image, rfl, heq⟩
    rcases hmem with hmem | ⟨image, hresult, rfl⟩
    · obtain ⟨d, vs, t, hruns⟩ := h.images img hmem
      exact ⟨d, vs, t, hruns.mono hold⟩
    · obtain ⟨-, hlinked⟩ := hplaces image hresult
      have hunits : image.programs.toList.map PlacedUnit.unit = us := by
        rw [hlinked.map_unit, hcompiled.map_unit]
      have hnodup : (image.programs.toList.map fun p => p.unit.key).Nodup := by
        have := hus.nodup
        rwa [← hunits, List.map_map] at this
      refine ⟨c, us, s, hcodes, ⟨_, hus⟩, hcompiled, hlinked, hunits, fun p hp => ?_⟩
      have hp' : p.unit ∈ us := by
        rw [← hunits]
        exact List.mem_map_of_mem hp
      change (enterAll (m.enroll us).codes o.published.toList)[p.unit.key]? = _
      rw [himage image hresult]
      exact getElem?_enterAll_of_mem hnodup hp (getElem?_enroll hus hp')

theorem compile {w : World} (h : w.machine.Keeps region) (c : Code) :
    ((Run.compile c).after w).machine.Keeps region := by
  obtain ⟨us, hus, hsame | ⟨s, hcodes, hs, hinstall⟩⟩ := Run.compile_cases c w
  · rw [hsame]
    exact h.enroll hus
  · rw [hinstall]
    exact h.install hus hcodes hs

end Keeps

end Machine

/-- The worlds that compilations on one machine lead to, however they end. In between anything may
happen that leaves codes, images and code memory alone. -/
inductive Run.Compilations (w : World) : World → Prop
  | none : Compilations w w
  | compile {w₁ : World} (before : Compilations w w₁) (c : Code) :
    Compilations w ((Run.compile c).after w₁)
  | other {w₁ w₂ : World} (before : Compilations w w₁) (codes : w₂.machine.codes = w₁.machine.codes)
    (images : w₂.machine.images = w₁.machine.images)
    (memory : w₂.machine.codeMemory = w₁.machine.codeMemory) : Compilations w w₂

namespace Machine

theorem Keeps.compilations {w w' : World} {region : CodeMemory} (h : w.machine.Keeps region)
    (hrun : Run.Compilations w w') : w'.machine.Keeps region := by
  induction hrun with
  | none => exact h
  | compile _ c ih => exact ih.compile c
  | other _ hcodes himages hmemory ih => exact ih.congr hcodes himages hmemory

theorem keeps_of_fresh {m : Machine} (hcodes : m.codes = #[]) (himages : m.images = #[]) :
    m.Keeps m.codeMemory where
  numbered := by
    rw [hcodes]
    exact CodeUnit.Numbered.nil
  memory := ⟨[], rfl, by rw [himages]; exact List.Sublist.refl _⟩
  images img himg := by
    rw [himages] at himg
    cases himg

end Machine

end RegisterJit
