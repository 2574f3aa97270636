import RegisterJit.Proofs.Finish
import RegisterJit.Proofs.Sessions

/-!
# Displacements that are filled in again

An attempt to link fills in displacements where the buffer is. A session goes on compiling and linking
as if that had not happened: nothing reads a displacement, and the next attempt writes them anew.

`Assembler.Alike` and `Session.Alike` relate buffers and sessions that differ only in bytes that stand for
displacements. A build that never reads such a byte is `Blind`, and then it does the same in both.
`Alike.compile` and `Alike.attempt` follow from that, since the compiler appends and the linker overwrites.
`patch_same` is the one fact about bytes: what is overwritten does not depend on what stood there. `Attempts`
needs it, because a session that a link failed on may be compiled into further and linked again.
-/

namespace RegisterJit

open X86 (Label Jump Instr Assembler)

/-! ## Buffers that differ in displacements -/

namespace PatchedField

theorem Same.mono {pos : Nat} {fields fields' : List PatchedField} {xs ys : List UInt8}
    (h : Same pos fields xs ys) (hsub : fields ⊆ fields') : Same pos fields' xs ys :=
  ⟨h.length, fun i hi => h.bytes i fun f hf => hi f (hsub hf)⟩

end PatchedField

namespace X86.Assembler

variable {a b : Assembler}

theorem size_patch (code : Array UInt8) (place : Nat) (new : List UInt8) :
    (patch code place new).size = code.size := by
  induction new generalizing code place with
  | nil => rfl
  | cons x new ih => rw [patch, ih, Array.size_setIfInBounds]

theorem getElem?_patch (code : Array UInt8) (place : Nat) (new : List UInt8) (i : Nat) :
    (patch code place new)[i]? =
      if place ≤ i ∧ i < place + new.length ∧ i < code.size then new[i - place]? else code[i]? := by
  induction new generalizing code place with
  | nil => rw [patch, if_neg (by simp only [List.length_nil]; omega)]
  | cons x new ih =>
    rw [patch, ih, Array.size_setIfInBounds, List.length_cons]
    rcases Nat.lt_trichotomy i place with hlt | rfl | hgt
    · rw [if_neg (by omega), if_neg (by omega), Array.getElem?_setIfInBounds_ne (by omega)]
    · rw [if_neg (by omega), Array.getElem?_setIfInBounds_self, Nat.sub_self, List.getElem?_cons_zero]
      by_cases hi : i < code.size
      · rw [if_pos hi, if_pos (by omega)]
      · rw [if_neg hi, if_neg (by omega), Array.getElem?_eq_none (by omega)]
    · rw [Array.getElem?_setIfInBounds_ne (by omega)]
      obtain ⟨k, hk⟩ : ∃ k, i - place = k + 1 := ⟨i - place - 1, by omega⟩
      rw [hk, List.getElem?_cons_succ, show i - (place + 1) = k by omega]
      congr 1
      simp only [eq_iff_iff]
      omega

/-- Overwriting the same places with the same bytes makes two versions of them one. -/
theorem patch_same {code code' : Array UInt8} {fields : List PatchedField} {place : Nat}
    {new : List UInt8}
    (h : PatchedField.Same 0 ((place, new.length) :: fields) code.toList code'.toList) :
    PatchedField.Same 0 fields (patch code place new).toList (patch code' place new).toList where
  length := by simpa [size_patch] using h.length
  bytes i hi := by
    have hlen : code.size = code'.size := by simpa using h.length
    rw [Array.getElem?_toList, Array.getElem?_toList, getElem?_patch, getElem?_patch, hlen]
    by_cases hin : place ≤ i ∧ i < place + new.length ∧ i < code'.size
    · rw [if_pos hin, if_pos hin]
    · rw [if_neg hin, if_neg hin, ← Array.getElem?_toList, ← Array.getElem?_toList]
      by_cases hout : i < code'.size
      · refine h.bytes i fun f hf => ?_
        rcases List.mem_cons.1 hf with rfl | hf
        · simp only [PatchedField.Misses]
          omega
        · exact hi f hf
      · rw [Array.getElem?_toList, Array.getElem?_toList, Array.getElem?_eq_none (by omega),
          Array.getElem?_eq_none (by omega)]

/-- Two buffers that differ in displacements only. -/
structure Alike (a b : Assembler) : Prop where
  labels : a.labels = b.labels
  jumps : a.jumps = b.jumps
  bytes : PatchedField.Same 0 (a.jumps.toList.map Jump.field) a.bytes.toList b.bytes.toList

theorem Alike.refl (a : Assembler) : a.Alike a := ⟨rfl, rfl, PatchedField.Same.refl _ _ _⟩

theorem Alike.size_eq (h : a.Alike b) : a.size = b.size := by simpa [size] using h.bytes.length

theorem Alike.place?_eq (h : a.Alike b) (l : Label) : a.place? l = b.place? l := by
  rw [place?, place?, h.labels]

theorem Alike.emit (h : a.Alike b) (i : Instr) : (a.emit i).Alike (b.emit i) where
  labels := h.labels
  jumps := h.jumps
  bytes := by
    have happend := h.bytes.append (PatchedField.Same.refl (0 + a.bytes.toList.length) [] i.encode)
    rw [List.append_nil] at happend
    simpa [Assembler.emit] using happend

theorem Alike.emitTo (h : a.Alike b) (i : Instr) (l : Label) : (a.emitTo i l).Alike (b.emitTo i l) := by
  have hemit := h.emit i
  refine ⟨hemit.labels, ?_, ?_⟩
  · rw [Assembler.emitTo, Assembler.emitTo, hemit.size_eq, hemit.jumps]
  · refine hemit.bytes.mono fun f hf => ?_
    rw [Assembler.emitTo, Array.toList_push, List.map_append]
    exact List.mem_append_left _ hf

theorem Alike.pad (h : a.Alike b) (count : Nat) : (a.pad count).Alike (b.pad count) := by
  induction count generalizing a b with
  | zero => exact h
  | succ count ih => exact ih (h.emit .nop)

theorem Alike.reserve (h : a.Alike b) (count : Nat) : (a.reserve count).Alike (b.reserve count) :=
  ⟨congrArg (· ++ Array.replicate count none) h.labels, h.jumps, h.bytes⟩

theorem Alike.put (h : a.Alike b) (p : Piece) :
    (∃ a' b', a.put p = .ok a' ∧ b.put p = .ok b' ∧ a'.Alike b') ∨
      ∃ f, a.put p = .error f ∧ b.put p = .error f := by
  cases p with
  | instr i => exact .inl ⟨_, _, rfl, rfl, h.emit i⟩
  | kept dst r =>
    refine .inl ⟨_, _, rfl, rfl, ?_⟩
    split
    · exact h
    · exact h.emit _
  | jmp l | jcc c l | call l => exact .inl ⟨_, _, rfl, rfl, h.emitTo _ l⟩
  | address dst l => exact .inl ⟨_, _, rfl, rfl, h.emit _⟩
  | align n =>
    refine .inl ⟨_, _, rfl, rfl, ?_⟩
    rw [align, align, h.size_eq]
    exact h.pad _
  | bind l =>
    rw [Assembler.put, Assembler.put, bind, bind, h.labels, h.size_eq]
    cases hl : b.labels[l]? with
    | none => exact .inr ⟨_, rfl, rfl⟩
    | some place =>
      cases place with
      | some place => exact .inr ⟨_, rfl, rfl⟩
      | none => exact .inl ⟨_, _, rfl, rfl, rfl, h.jumps, h.bytes⟩

theorem Alike.addressSite?_eq (h : a.Alike b) (p : Piece) : a.addressSite? p = b.addressSite? p := by
  cases p with
  | address dst l =>
    have hsize := (h.emit (.movImm64 dst 0)).size_eq
    rw [addressSite?, addressSite?, movAddress, movAddress, hsize]
  | _ => rfl

theorem resolveJumps_alike {js : List Jump} {code code' : Array UInt8} (hlabels : a.labels = b.labels)
    (h : PatchedField.Same 0 (js.map Jump.field) code.toList code'.toList) :
    a.resolveJumps js code = b.resolveJumps js code' := by
  induction js generalizing code code' with
  | nil =>
    have heq : code.toList = code'.toList := List.ext_getElem? fun i => h.bytes i (by simp)
    rw [resolveJumps, resolveJumps, Array.toList_inj.1 heq]
  | cons j js ih =>
    have hplace : a.place? j.label = b.place? j.label := by rw [place?, place?, hlabels]
    rw [resolveJumps, resolveJumps, hplace]
    cases b.place? j.label with
    | none => rfl
    | some target => exact ih (patch_same h)

theorem Alike.resolve_eq (h : a.Alike b) : a.resolve = b.resolve := by
  rw [resolve, resolve, ← h.jumps]
  exact resolveJumps_alike h.labels h.bytes

theorem settleJumps_same (js : List Jump) (code : Array UInt8) :
    PatchedField.Same 0 (js.map Jump.field) code.toList (a.settleJumps js code).toList := by
  induction js generalizing code with
  | nil => exact PatchedField.Same.refl _ _ _
  | cons j js ih =>
    rw [settleJumps]
    cases a.place? j.label with
    | none => exact PatchedField.Same.refl _ _ _
    | some target =>
      have hpatch : PatchedField.Same 0 [j.field] code.toList
          (patch code j.place (imm32 (displacement j target).toUInt32)).toList := by
        refine ⟨by simp [size_patch], fun i hi => ?_⟩
        have hmiss := hi j.field (List.mem_singleton_self _)
        rw [Array.getElem?_toList, Array.getElem?_toList, getElem?_patch, if_neg]
        rw [length_imm32]
        simp only [PatchedField.Misses, Jump.field] at hmiss
        omega
      exact hpatch.trans (ih _)

theorem alike_settle (a : Assembler) : a.Alike a.settle := ⟨rfl, rfl, settleJumps_same _ _⟩

theorem Alike.symm (h : a.Alike b) : b.Alike a where
  labels := h.labels.symm
  jumps := h.jumps.symm
  bytes := ⟨h.bytes.length.symm, fun i hi => (h.bytes.bytes i (by rwa [h.jumps])).symm⟩

theorem Alike.trans {c : Assembler} (h : a.Alike b) (h' : b.Alike c) : a.Alike c where
  labels := h.labels.trans h'.labels
  jumps := h.jumps.trans h'.jumps
  bytes := (h.bytes.trans h'.bytes).mono (by rw [h.jumps]; simp)

end X86.Assembler

theorem JumpTable.register_alike {a b : Assembler} (h : a.Alike b) (table : JumpTable)
    (offset : UInt32) (handled : Bool) :
    (table.register a offset handled).1 = (table.register b offset handled).1 ∧
      (table.register a offset handled).2.Alike (table.register b offset handled).2 := by
  have hsize : a.labels.size = b.labels.size := by rw [h.labels]
  unfold register
  split
  · split
    · exact ⟨rfl, h⟩
    · rw [newLabel_eq, newLabel_eq, hsize]
      exact ⟨rfl, h.reserve 1⟩
  · rw [newLabel_eq, newLabel_eq, hsize]
    exact ⟨rfl, h.reserve 1⟩

namespace Scan

theorem jumps_alike {a b : Assembler} (h : a.Alike b) (c : Code) (is : List Instruction)
    (table : JumpTable) :
    (jumps c is table a).1 = (jumps c is table b).1 ∧
      (jumps c is table a).2.Alike (jumps c is table b).2 := by
  induction is generalizing a b table with
  | nil => exact ⟨rfl, h⟩
  | cons ins is ih =>
    rw [jumps, jumps]
    split
    · exact ih h table
    · split
      · exact ⟨rfl, h⟩
      · rename_i target _ _
        obtain ⟨htable, halike⟩ := JumpTable.register_alike h table target false
        dsimp only
        rw [← htable]
        exact ih halike _

theorem handlers_alike {a b : Assembler} (h : a.Alike b) (c : Code) (hs : List Handler)
    (table : JumpTable) :
    (handlers c hs table a).1 = (handlers c hs table b).1 ∧
      (handlers c hs table a).2.Alike (handlers c hs table b).2 := by
  induction hs generalizing a b table with
  | nil => exact ⟨rfl, h⟩
  | cons hd hs ih =>
    rw [handlers, handlers]
    split
    · exact ⟨rfl, h⟩
    · obtain ⟨htable, halike⟩ := JumpTable.register_alike h table hd.start true
      obtain ⟨htable', halike'⟩ :=
        JumpTable.register_alike halike (table.register a hd.start true).1 hd.stop true
      dsimp only
      rw [← htable, ← htable']
      exact ih halike' _

theorem targets_alike {a b : Assembler} (h : a.Alike b) (c : Code) :
    (targets c a).1 = (targets c b).1 ∧ (targets c a).2.Alike (targets c b).2 := by
  obtain ⟨hjumps, halike⟩ := jumps_alike h c (Stream.read c.data).1 []
  rw [targets, targets]
  dsimp only
  generalize jumps c (Stream.read c.data).1 [] a = x at hjumps halike
  generalize jumps c (Stream.read c.data).1 [] b = y at hjumps halike
  obtain ⟨result, a⟩ := x
  obtain ⟨result', b⟩ := y
  obtain rfl : result = result' := hjumps
  cases result with
  | error i => exact ⟨rfl, halike⟩
  | ok table =>
    dsimp only
    split
    · exact ⟨rfl, halike⟩
    · exact handlers_alike halike c _ table

end Scan

/-! ## Sessions that differ in displacements -/

namespace Session

variable {s t : Session}

/-- Two sessions that differ in displacements only. -/
structure Alike (s t : Session) : Prop where
  asm : s.asm.Alike t.asm
  rest : t = { s with asm := t.asm }

theorem alike_settled (s : Session) : s.Alike s.settled := ⟨s.asm.alike_settle, rfl⟩

theorem Alike.settled (h : s.Alike t) : s.settled.Alike t.settled where
  asm := (s.asm.alike_settle.symm.trans h.asm).trans t.asm.alike_settle
  rest := by
    rw [Session.settled, Session.settled]
    conv_lhs => rw [h.rest]

theorem Alike.linked_eq (h : s.Alike t) : s.linked = t.linked := by rw [h.rest]

/-- Two outcomes of a build that differ in displacements only. -/
inductive Agree {α : Type} : EStateM.Result Invariant Session α →
    EStateM.Result Invariant Session α → Prop
  | ok {s t : Session} (a : α) (h : s.Alike t) : Agree (.ok a s) (.ok a t)
  | error {s t : Session} (i : Invariant) (h : s.Alike t) : Agree (.error i s) (.error i t)

namespace Build

/-- A build that does not look at displacements. -/
def Blind {α : Type} (x : Build α) : Prop := ∀ s t : Session, s.Alike t → Agree (x s) (x t)

theorem blind_pure {α : Type} (a : α) : Blind (pure a) := fun _ _ h => .ok a h

theorem blind_throw {α : Type} (i : Invariant) : Blind (throw i : Build α) := fun _ _ h => .error i h

theorem Blind.bind {α β : Type} {x : Build α} {f : α → Build β} (hx : Blind x)
    (hf : ∀ a, Blind (f a)) : Blind (x >>= f) := by
  intro s t h
  change Agree (EStateM.bind x f s) (EStateM.bind x f t)
  rw [EStateM.bind, EStateM.bind]
  have hagree := hx s t h
  generalize x s = r at hagree ⊢
  generalize x t = r' at hagree ⊢
  cases hagree with
  | ok a h' => exact hf a _ _ h'
  | error i h' => exact .error i h'

theorem blind_modify {f : Session → Session} (hf : ∀ s t : Session, s.Alike t → (f s).Alike (f t)) :
    Blind (modify f) := fun s t h => .ok () (hf s t h)

theorem blind_get {β : Type} {f : Session → Build β} (heq : ∀ s t : Session, s.Alike t → f s = f t)
    (hf : ∀ s, Blind (f s)) : Blind (get >>= f) := by
  intro s t h
  change Agree (f s s) (f t t)
  rw [← heq s t h]
  exact hf s s t h

theorem blind_put (p : Piece) : Blind (put p) := by
  intro s t h
  rw [put, put]
  rcases h.asm.put p with ⟨a, b, ha, hb, halike⟩ | ⟨f, ha, hb⟩
  · rw [ha, hb]
    refine .ok () ⟨halike, ?_⟩
    rw [← h.asm.addressSite?_eq p]
    conv_lhs => rw [h.rest]
  · rw [ha, hb]
    exact .error _ h

theorem blind_putAll (ps : List Piece) : Blind (putAll ps) := by
  induction ps with
  | nil => exact blind_pure ()
  | cons p ps ih => exact (blind_put p).bind fun _ => ih

theorem blind_keep (e : Emitter) : Blind (keep e) := by
  refine (blind_modify fun s t h => ⟨?_, ?_⟩).bind fun _ => blind_putAll _
  · rw [h.asm.labels]
    exact h.asm.reserve _
  · conv_lhs => rw [h.rest]

theorem blind_emit (site : Site) (cached : Register) (body : Emit Unit) :
    Blind (emit site cached body) := by
  refine blind_get (fun s t h => by rw [h.asm.labels]) fun s => ?_
  split
  · exact (blind_keep _).bind fun _ => blind_pure _
  · exact (blind_keep _).bind fun _ => blind_throw _

theorem blind_splitBlock (site : Site) (cached : Register) : Blind (splitBlock site cached) := by
  rw [splitBlock]
  split
  · exact blind_pure _
  · refine (blind_put _).bind fun _ => ?_
    split
    · refine Blind.bind (blind_modify ?_) fun _ => blind_pure _
      intro s t h
      refine ⟨h.asm, ?_⟩
      rw [size, size, h.asm.size_eq]
      conv_lhs => rw [h.rest]
    · exact blind_pure _

theorem blind_instruction (site : Site) (cached : Register) (ins : Instruction) :
    Blind (instruction site cached ins) := by
  refine (blind_splitBlock site cached).bind fun cached => ?_
  refine Blind.bind (blind_modify ?_) fun _ => ?_
  · intro s t h
    refine ⟨h.asm, ?_⟩
    conv_lhs => rw [h.rest]
  · refine blind_get (fun s t h => by rw [h.rest]) fun s => ?_
    refine (blind_emit site cached _).bind fun upcoming => ?_
    refine Blind.bind (blind_modify ?_) fun _ => blind_pure _
    intro s t h
    refine ⟨h.asm, ?_⟩
    conv_lhs => rw [h.rest]

theorem blind_instructions (u : CodeUnit) (jumps : JumpTable) (cached : Register)
    (is : List Instruction) : Blind (instructions u jumps cached is) := by
  induction is generalizing cached with
  | nil => exact blind_pure ()
  | cons ins is ih => exact (blind_instruction _ cached ins).bind ih

theorem blind_scan (c : Code) : Blind (scan c) := by
  intro s t h
  obtain ⟨htable, halike⟩ := Scan.targets_alike h.asm c
  have hnext : Alike { s with asm := (Scan.targets c s.asm).2 }
      { t with asm := (Scan.targets c t.asm).2 } := ⟨halike, by conv_lhs => rw [h.rest]⟩
  cases hresult : (Scan.targets c s.asm).1 with
  | ok table =>
    rw [scan_of_ok (Prod.ext hresult rfl), scan_of_ok (Prod.ext (htable.symm.trans hresult) rfl)]
    exact .ok table hnext
  | error i =>
    rw [scan_of_error (Prod.ext hresult rfl), scan_of_error (Prod.ext (htable.symm.trans hresult) rfl)]
    exact .error i hnext

theorem blind_openUnit (u : CodeUnit) : Blind (openUnit u) := by
  refine blind_get (fun s t h => by rw [h.asm.labels]) fun s => ?_
  refine Blind.bind (blind_modify ?_) fun _ => ?_
  · intro s t h
    refine ⟨h.asm.reserve 1, ?_⟩
    conv_lhs => rw [h.rest]
  · refine (blind_putAll _).bind fun _ => blind_modify ?_
    intro s t h
    refine ⟨h.asm, ?_⟩
    conv_lhs => rw [h.rest]

theorem blind_body (u : CodeUnit) :
    Blind (do
      let jumps ← scan u.code
      openUnit u
      instructions u jumps Register.invalid (Stream.instructions u.code.data)
      let _ ← splitBlock ⟨u, jumps, stubThunk, u.code.data.size.toUInt32⟩ Register.invalid
      let _ ← emit ⟨u, jumps, stubThunk, u.code.data.size.toUInt32⟩ Register.invalid epilogue
      modify fun s => { s with programs := s.programs.push ⟨u, s.size⟩ }) := by
  refine (blind_scan _).bind fun jumps => (blind_openUnit u).bind fun _ => ?_
  refine (blind_instructions u jumps _ _).bind fun _ => (blind_splitBlock _ _).bind fun _ => ?_
  refine (blind_emit _ _ _).bind fun _ => blind_modify ?_
  intro s t h
  refine ⟨h.asm, ?_⟩
  rw [size, size, h.asm.size_eq]
  conv_lhs => rw [h.rest]

theorem blind_unit (u : CodeUnit) : Blind (unit u) := by
  refine blind_get (fun s t h => by rw [h.rest]) fun s => ?_
  split
  · exact (blind_throw _).bind fun _ => blind_body u
  · exact blind_body u

theorem blind_units (codes : List (Option CodeUnit)) : Blind (units codes) := by
  induction codes with
  | nil => exact blind_pure ()
  | cons u? codes ih =>
    cases u? with
    | none => exact blind_throw _
    | some u => exact (blind_unit u).bind fun _ => ih

theorem blind_program (codes : List (Option CodeUnit)) : Blind (program codes) := by
  refine blind_get (fun s t h => by rw [h.linked_eq]) fun s => ?_
  split
  · exact Blind.bind (blind_throw _) fun _ => blind_units _
  · exact blind_units codes

end Build

/-- A session and one that differs from it in displacements go on compiling alike. -/
theorem Alike.compile (h : s.Alike t) (codes : List (Option CodeUnit)) :
    (s.compile codes).1 = (t.compile codes).1 ∧ (s.compile codes).2.Alike (t.compile codes).2 := by
  have hagree := Build.blind_program codes s t h
  rw [Session.compile, Session.compile]
  change Agree ((Build.program codes).run s) ((Build.program codes).run t) at hagree
  generalize (Build.program codes).run s = r at hagree ⊢
  generalize (Build.program codes).run t = r' at hagree ⊢
  cases hagree with
  | ok a h' => exact ⟨rfl, h'⟩
  | error i h' => exact ⟨rfl, h'⟩

theorem Alike.address_eq (h : s.Alike t) (base : UInt64) (l : Label) :
    s.address base l = t.address base l := by
  rw [Session.address, Session.address, Assembler.labelOffset, Assembler.labelOffset, h.asm.labels]

theorem Alike.fillAddresses_eq (h : s.Alike t) (base : UInt64) (es : List (Nat × Label))
    (code : Array UInt8) : s.fillAddresses base es code = t.fillAddresses base es code := by
  induction es generalizing code with
  | nil => rfl
  | cons e es ih =>
    rw [fillAddresses, fillAddresses, h.address_eq]
    cases t.address base e.2 with
    | error i => rfl
    | ok target => exact ih _

theorem Alike.handlerRanges_eq (h : s.Alike t) (base : UInt64) (u : CodeUnit) (hs : List Handler)
    (ranges : Array (UInt64 × UInt64)) :
    s.handlerRanges base u hs ranges = t.handlerRanges base u hs ranges := by
  have hboundary (isStart : Bool) (offset : UInt32) :
      s.boundary u isStart offset = t.boundary u isStart offset := by
    rw [boundary, boundary, h.rest]
  induction hs generalizing ranges with
  | nil => rfl
  | cons hd hs ih => simp only [handlerRanges, hboundary, ih]

theorem Alike.publish_eq (h : s.Alike t) (base : UInt64) (cs : List CompiledUnit)
    (placed : Array PlacedUnit) : s.publish base cs placed = t.publish base cs placed := by
  have hentry (u : CodeUnit) : s.entryLabel u = t.entryLabel u := by
    rw [entryLabel, entryLabel, h.rest]
  induction cs generalizing placed with
  | nil => rfl
  | cons c cs ih => simp only [publish, hentry, h.address_eq, h.handlerRanges_eq, ih]

theorem Alike.place_eq (h : s.Alike t) (base : UInt64) (code : Array UInt8) :
    s.place base code = t.place base code := by
  have haddresses : t.addresses = s.addresses := by rw [h.rest]
  have hprograms : t.programs = s.programs := by rw [h.rest]
  simp only [place, haddresses, hprograms, h.address_eq, h.fillAddresses_eq, h.publish_eq]

theorem Alike.mark (h : s.Alike t) : Alike { s with linked := true } { t with linked := true } :=
  ⟨h.asm, by conv_lhs => rw [h.rest]⟩

end Session

end RegisterJit
