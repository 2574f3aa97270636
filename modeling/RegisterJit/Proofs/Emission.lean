import Mathlib.Data.List.Nodup
import RegisterJit.Compile.Instruction
import RegisterJit.Proofs.Note

/-!
# What emitters write

Every emitter succeeds on operands that are in range, binds the labels it allocates, each once, jumps
to no others than these and the jump targets of the code, and writes pieces that fit the notes
between them. `Emitter.Good` collects this for the pieces written so far; there is one lemma for each
way to extend them and one for each emitter.

`Emitter.Done` is what holds when an instruction was written: all its labels are bound, and control leaves the
pieces only where the code says. `Good` is the same for pieces that are not finished, and says what the notes
allow at the end of them. The lemmas `Good.append`, `Good.quiet`, `Good.value`, `Good.stop` and so on are the
ways in which emitters extend pieces; each asks only that the new piece fits the note before it. So what an
emitter does is followed by naming the lemma for each of its steps, which is what `Emitters` does for every one
of them and `Writing` for the pieces as data.
-/

namespace RegisterJit

open X86 (Reg Cond Instr Label)

/-! ## Running emitters -/

namespace Emitter

def write (e : Emitter) (ps : List Piece) : Emitter := { e with pieces := e.pieces ++ ps.toArray }

def alloc (e : Emitter) (count : Nat) : Emitter := { e with labels := e.labels + count }

def believe (e : Emitter) (r : Register) : Emitter := { e with cached := r }

def expect (e : Emitter) (r : Register) : Emitter := { e with upcoming := r }

@[simp] theorem write_write (e : Emitter) (ps qs : List Piece) :
    (e.write ps).write qs = e.write (ps ++ qs) := by
  simp [write]

@[simp] theorem write_alloc (e : Emitter) (ps : List Piece) (count : Nat) :
    (e.write ps).alloc count = (e.alloc count).write ps := rfl

@[simp] theorem alloc_alloc (e : Emitter) (count more : Nat) :
    (e.alloc count).alloc more = e.alloc (count + more) := by
  simp [alloc, Nat.add_assoc]

@[simp] theorem labels_write (e : Emitter) (ps : List Piece) : (e.write ps).labels = e.labels := rfl

@[simp] theorem labels_alloc (e : Emitter) (count : Nat) :
    (e.alloc count).labels = e.labels + count := rfl

@[simp] theorem believe_write (e : Emitter) (r : Register) (ps : List Piece) :
    (e.believe r).write ps = (e.write ps).believe r := rfl

@[simp] theorem believe_alloc (e : Emitter) (r : Register) (count : Nat) :
    (e.believe r).alloc count = (e.alloc count).believe r := rfl

@[simp] theorem labels_believe (e : Emitter) (r : Register) : (e.believe r).labels = e.labels := rfl

@[simp] theorem upcoming_believe (e : Emitter) (r : Register) :
    (e.believe r).upcoming = e.upcoming := rfl

@[simp] theorem upcoming_write (e : Emitter) (ps : List Piece) :
    (e.write ps).upcoming = e.upcoming := rfl

@[simp] theorem upcoming_alloc (e : Emitter) (count : Nat) :
    (e.alloc count).upcoming = e.upcoming := rfl

@[simp] theorem upcoming_expect (e : Emitter) (r : Register) : (e.expect r).upcoming = r := rfl

@[simp] theorem cached_believe (e : Emitter) (r : Register) : (e.believe r).cached = r := rfl

@[simp] theorem cached_write (e : Emitter) (ps : List Piece) : (e.write ps).cached = e.cached := rfl

@[simp] theorem cached_alloc (e : Emitter) (count : Nat) : (e.alloc count).cached = e.cached := rfl

end Emitter

/-- An emitter succeeds, and its result and what it has written are as told. -/
def Emit.Yields {α : Type} (m : Emit α) (site : Site) (e : Emitter) (Q : α → Emitter → Prop) :
    Prop :=
  ∃ a e', m site e = .ok a e' ∧ Q a e'

namespace Emit

variable {α β : Type} {site : Site} {e : Emitter}

theorem Yields.mono {m : Emit α} {Q Q' : α → Emitter → Prop} (h : m.Yields site e Q)
    (hQ : ∀ a e', Q a e' → Q' a e') : m.Yields site e Q' := by
  obtain ⟨a, e', hm, hq⟩ := h
  exact ⟨a, e', hm, hQ a e' hq⟩

@[simp] theorem yields_pure {a : α} {Q : α → Emitter → Prop} :
    (pure a : Emit α).Yields site e Q ↔ Q a e := by
  constructor
  · rintro ⟨b, e', h, hq⟩
    cases h
    exact hq
  · exact fun h => ⟨a, e, rfl, h⟩

@[simp] theorem yields_bind {m : Emit α} {f : α → Emit β} {Q : β → Emitter → Prop} :
    (m >>= f).Yields site e Q ↔ m.Yields site e fun a e' => (f a).Yields site e' Q := by
  constructor
  · rintro ⟨b, e', h, hq⟩
    change EStateM.bind (m site) (fun a => f a site) e = _ at h
    unfold EStateM.bind at h
    split at h
    · rename_i a e₁ hm
      exact ⟨a, e₁, hm, b, e', h, hq⟩
    · cases h
  · rintro ⟨a, e₁, hm, b, e', h, hq⟩
    refine ⟨b, e', ?_, hq⟩
    change EStateM.bind (m site) (fun a => f a site) e = _
    unfold EStateM.bind
    rw [hm]
    exact h

@[simp] theorem yields_read {Q : Site → Emitter → Prop} :
    (read : Emit Site).Yields site e Q ↔ Q site e := by
  constructor
  · rintro ⟨b, e', h, hq⟩
    cases h
    exact hq
  · exact fun h => ⟨site, e, rfl, h⟩

@[simp] theorem yields_get {Q : Emitter → Emitter → Prop} :
    (get : Emit Emitter).Yields site e Q ↔ Q e e := by
  constructor
  · rintro ⟨b, e', h, hq⟩
    cases h
    exact hq
  · exact fun h => ⟨e, e, rfl, h⟩

@[simp] theorem yields_modify {f : Emitter → Emitter} {Q : Unit → Emitter → Prop} :
    (modify f : Emit Unit).Yields site e Q ↔ Q () (f e) := by
  constructor
  · rintro ⟨b, e', h, hq⟩
    cases h
    exact hq
  · exact fun h => ⟨(), f e, rfl, h⟩

@[simp] theorem yields_newLabel {Q : Label → Emitter → Prop} :
    newLabel.Yields site e Q ↔ Q e.labels (e.alloc 1) := by
  constructor
  · rintro ⟨b, e', h, hq⟩
    cases h
    exact hq
  · exact fun h => ⟨_, _, rfl, h⟩

@[simp] theorem yields_piece {p : Piece} {Q : Unit → Emitter → Prop} :
    (piece p).Yields site e Q ↔ Q () (e.write [p]) := by
  rw [piece, yields_modify, Emitter.write, Array.push_eq_append]

@[simp] theorem yields_instr {i : Instr} {Q : Unit → Emitter → Prop} :
    (instr i).Yields site e Q ↔ Q () (e.write [.instr i]) := yields_piece

@[simp] theorem yields_jmp {l : Label} {Q : Unit → Emitter → Prop} :
    (jmp l).Yields site e Q ↔ Q () (e.write [.jmp l]) := yields_piece

@[simp] theorem yields_jcc {c : Cond} {l : Label} {Q : Unit → Emitter → Prop} :
    (jcc c l).Yields site e Q ↔ Q () (e.write [.jcc c l]) := yields_piece

@[simp] theorem yields_call {l : Label} {Q : Unit → Emitter → Prop} :
    (call l).Yields site e Q ↔ Q () (e.write [.call l]) := yields_piece

@[simp] theorem yields_label {l : Label} {Q : Unit → Emitter → Prop} :
    (Emit.bind l).Yields site e Q ↔ Q () (e.write [.bind l]) := yields_piece

@[simp] theorem yields_instrs {is : List Instr} {Q : Unit → Emitter → Prop} :
    (instrs is).Yields site e Q ↔ Q () (e.write (is.map .instr)) := by
  induction is generalizing e with
  | nil =>
    change Emit.Yields (Pure.pure ()) site e Q ↔ _
    rw [yields_pure]
    simp [Emitter.write]
  | cons i is ih =>
    refine (yields_bind (m := instr i) (f := fun _ => instrs is)).trans ?_
    rw [yields_instr]
    exact ih.trans (by simp)

theorem yields_registerOffset {r : Register} {d : Int32} (h : Frame.registerOffset? r = some d)
    {Q : Int32 → Emitter → Prop} : (registerOffset r).Yields site e Q ↔ Q d e := by
  rw [registerOffset, h]
  exact yields_pure

end Emit

/-! ## Pieces that fit -/

namespace Emitter

/-- What holds of the pieces written for one instruction. They start from the note `a₀` and end with
the note `a`; labels from `n` on are the instruction's own, `m` is the next one, and the pieces also
refer to those of `outside`. The labels `bs` are bound. -/
structure Good (Λ : Label → Note) (W : Int32 → Prop) (outside : Label → Prop) (a₀ : Note) (n : Nat)
    (e : Emitter) (a : Note) (bs : List Nat) (m : Nat) : Prop where
  leads : Piece.Leads Λ W a₀ e.pieces.toList a
  binds : Piece.binds e.pieces.toList = bs
  labels : e.labels = m
  low : n ≤ m
  targets : ∀ l ∈ Piece.targets e.pieces.toList, outside l ∨ n ≤ l ∧ l < m
  tight : Piece.tight true e.pieces.toList = true

namespace Good

variable {Λ : Label → Note} {W : Int32 → Prop} {outside : Label → Prop} {a₀ : Note} {n : Nat}
  {e : Emitter} {a : Note} {bs : List Nat} {m : Nat} {k : Content}

theorem nil (cached upcoming : Register) :
    Good Λ W outside a₀ n ⟨#[], n, cached, upcoming⟩ a₀ [] n where
  leads := rfl
  binds := rfl
  labels := rfl
  low := Nat.le_refl n
  targets := by simp
  tight := rfl

theorem congr (h : Good Λ W outside a₀ n e a bs m) {e' : Emitter} (hp : e'.pieces = e.pieces)
    (hl : e'.labels = e.labels) : Good Λ W outside a₀ n e' a bs m := by
  refine ⟨?_, ?_, hl.trans h.labels, h.low, ?_, ?_⟩ <;> rw [hp]
  · exact h.leads
  · exact h.binds
  · exact h.targets
  · exact h.tight

theorem alloc (h : Good Λ W outside a₀ n e a bs m) (count : Nat) :
    Good Λ W outside a₀ n (e.alloc count) a bs (m + count) where
  leads := h.leads
  binds := h.binds
  labels := by rw [← h.labels]; rfl
  low := Nat.le_add_right_of_le h.low
  targets := by
    intro l hl
    rcases h.targets l hl with ho | ho
    · exact .inl ho
    · exact .inr ⟨ho.1, Nat.lt_add_right count ho.2⟩
  tight := h.tight

theorem write (h : Good Λ W outside a₀ n e a bs m) (ps : List Piece) {b : Note}
    (hps : Piece.Leads Λ W a ps b) (hts : Piece.Clean (fun l => outside l ∨ n ≤ l ∧ l < m) ps) :
    Good Λ W outside a₀ n (e.write ps) b (bs ++ Piece.binds ps) m where
  leads := by
    rw [Emitter.write, Array.toList_append, Piece.leads_append]
    exact ⟨a, h.leads, hps⟩
  binds := by simp only [Emitter.write, Array.toList_append, Piece.binds_append, h.binds]
  labels := h.labels
  low := h.low
  targets := by
    intro l hl
    simp only [Emitter.write, Array.toList_append, Piece.targets_append, List.mem_append] at hl
    exact hl.elim (h.targets l) (hts.2 l)
  tight := by
    rw [Emitter.write, Array.toList_append]
    exact Piece.tight_append h.tight hts.1

theorem append (h : Good Λ W outside a₀ n e a bs m) {ps : List Piece} {b : Note}
    (hps : Piece.Leads Λ W a ps b) (hbs : Piece.binds ps = []) (hts : Piece.targets ps = []) :
    Good Λ W outside a₀ n (e.write ps) b bs m := by
  have := h.write ps hps ⟨Piece.tight_of_binds_eq_nil hbs, by simp [hts]⟩
  rwa [hbs, List.append_nil] at this

theorem quiet (h : Good Λ W outside a₀ n e ⟨.body, k⟩ bs m) {i : Instr} {dst : Reg}
    (hq : i.quiet = true) (hw : i.writes = [dst]) (hx : Reg.rax ≠ dst) :
    Good Λ W outside a₀ n (e.write [.instr i]) ⟨.body, k⟩ bs m := by
  refine h.append ?_ rfl rfl
  have hk : Reg.rax ∉ i.writes := by
    rw [hw, List.mem_singleton]
    exact hx
  rw [Piece.leads_quiet hq, Content.after_of_kept hk]
  rfl

theorem value (h : Good Λ W outside a₀ n e ⟨.body, k⟩ bs m) (dst : Reg)
    (hdst : decide (dst ∈ scratchRegs) = true) (hx : Reg.rax ≠ dst) (v : UInt64) :
    Good Λ W outside a₀ n (e.write [.instr (.movValue dst v)]) ⟨.body, k⟩ bs m := by
  refine h.append ?_ rfl rfl
  rw [Piece.leads_movValue hdst, Content.after_movValue hx]
  rfl

@[simp] theorem believe_iff {r : Register} :
    Good Λ W outside a₀ n (e.believe r) a bs m ↔ Good Λ W outside a₀ n e a bs m :=
  ⟨fun h => h.congr rfl rfl, fun h => h.congr rfl rfl⟩

@[simp] theorem expect_iff {r : Register} :
    Good Λ W outside a₀ n (e.expect r) a bs m ↔ Good Λ W outside a₀ n e a bs m :=
  ⟨fun h => h.congr rfl rfl, fun h => h.congr rfl rfl⟩

end Good

/-- What the compiler believes of the accumulator is what it is known to hold. -/
def Trusts (e : Emitter) (k : Content) : Prop :=
  e.cached ≠ Register.invalid → ∃ d, Frame.registerOffset? e.cached = some d ∧ k = .slot d

end Emitter

namespace Emit

variable {site : Site} {e : Emitter} {r : Register} {d : Int32} {Q : Unit → Emitter → Prop}

@[simp] theorem yields_callStub {s : Stub} :
    (callStub s).Yields site e Q ↔
      Q () ((e.write [.instr (.mov .w64 .rdi contextReg),
        .instr (.movImm32 .rax s.number), .call site.stubThunk]).believe .invalid) := by
  simp [callStub, Emitter.believe]

@[simp] theorem yields_store (hd : Frame.registerOffset? r = some d) {src : Reg} :
    (store r src).Yields site e Q ↔ Q () (e.write [.instr (.store frameReg d src)]) := by
  simp [store, yields_registerOffset hd]

@[simp] theorem yields_storeResult (hd : Frame.registerOffset? r = some d) :
    (storeResult r).Yields site e Q ↔
      Q () ((e.write [.instr (.store frameReg d .rax)]).expect r) := by
  simp [storeResult, yields_store hd, Emitter.expect]

@[simp] theorem yields_reload (hd : Frame.registerOffset? r = some d) {dst : Reg} :
    (reload dst r).Yields site e Q ↔ Q () (e.write [.instr (.load dst frameReg d)]) := by
  simp [reload, yields_registerOffset hd]

@[simp] theorem yields_registerAddress (hd : Frame.registerOffset? r = some d) {dst : Reg} :
    (registerAddress dst r).Yields site e Q ↔ Q () (e.write [.instr (.lea dst frameReg d)]) := by
  simp [registerAddress, yields_registerOffset hd]

@[simp] theorem yields_immediate {dst : Reg} {n : UInt32} :
    (immediate dst n).Yields site e Q ↔ Q () (e.write [.instr (.movImm32 dst n)]) := yields_instr

@[simp] theorem yields_frame {dst : Reg} :
    (frame dst).Yields site e Q ↔ Q () (e.write [.instr (.mov .w64 dst frameReg)]) := yields_instr

@[simp] theorem yields_instructionPointer {dst : Reg} :
    (instructionPointer dst).Yields site e Q ↔
      Q () (e.write [.instr (.movValue dst (codeReference site.unit.id site.offset))]) := by
  simp [instructionPointer]

@[simp] theorem yields_isStrict {Q : Bool → Emitter → Prop} :
    isStrict.Yields site e Q ↔ Q site.unit.code.strict e := by
  simp only [isStrict, yields_bind, yields_read, yields_pure]

@[simp] theorem yields_symbol {index : UInt32} (h : index.toNat < site.unit.code.names.size)
    {dst : Reg} :
    (symbol dst index).Yields site e Q ↔
      Q () (e.write [.instr (.movValue dst (codeReference site.unit.id index))]) := by
  simp [symbol, Nat.not_le.2 h]

theorem yields_constant {index : UInt32} (h : index.toNat < site.unit.pool.size)
    {Q : Value → Emitter → Prop} :
    (constant index).Yields site e Q ↔ Q site.unit.pool[index.toNat] e := by
  simp [constant, Array.getElem?_eq_getElem h]

end Emit

namespace Emitter

variable {Λ : Label → Note} {W : Int32 → Prop} {outside : Label → Prop} {a₀ a b : Note} {n m : Nat}
  {e : Emitter} {bs : List Nat}

/-- An instruction has been written: its own labels are bound, each once, and the note at its end
bears out that the accumulator is then taken to hold `up`. -/
def Done (Λ : Label → Note) (W : Int32 → Prop) (outside : Label → Prop) (a₀ : Note) (n : Nat)
    (up : Register) (e : Emitter) : Prop :=
  ∃ a offs, e.Good Λ W outside a₀ n a (List.map (n + ·) offs) (n + offs.length) ∧
    offs.Perm (List.range offs.length) ∧ a.Ends up

@[simp] theorem done_believe {r up : Register} :
    (e.believe r).Done Λ W outside a₀ n up ↔ e.Done Λ W outside a₀ n up := by
  simp only [Done, Good.believe_iff]

@[simp] theorem done_expect {r up : Register} :
    (e.expect r).Done Λ W outside a₀ n up ↔ e.Done Λ W outside a₀ n up := by
  simp only [Done, Good.expect_iff]

/-- The last pieces of an instruction. The labels bound are given relative to the first one. -/
theorem Good.done (h : e.Good Λ W outside a₀ n a bs m) {ps : List Piece} {up : Register} (b : Note)
    (offs : List Nat) (hps : Piece.Leads Λ W a ps b)
    (hts : Piece.Clean (fun l => outside l ∨ n ≤ l ∧ l < m) ps)
    (hbs : bs ++ Piece.binds ps = offs.map (n + ·)) (hm : m = n + offs.length)
    (hperm : offs.Perm (List.range offs.length)) (hend : b.Ends up) :
    (e.write ps).Done Λ W outside a₀ n up := by
  refine ⟨b, offs, ?_, hperm, hend⟩
  have hw := h.write ps hps hts
  rwa [hbs, hm] at hw

/-- The last pieces of an instruction that leaves the word of `r` in the accumulator. -/
theorem Good.result (h : e.Good Λ W outside a₀ n a bs m) {ps : List Piece} {r : Register}
    {d : Int32} (hd : Frame.registerOffset? r = some d) (offs : List Nat)
    (hps : Piece.Leads Λ W a ps ⟨.body, .slot d⟩)
    (hts : Piece.Clean (fun l => outside l ∨ n ≤ l ∧ l < m) ps)
    (hbs : bs ++ Piece.binds ps = offs.map (n + ·)) (hm : m = n + offs.length)
    (hperm : offs.Perm (List.range offs.length)) : (e.write ps).Done Λ W outside a₀ n r :=
  h.done _ offs hps hts hbs hm hperm (.inr ⟨rfl, fun _ => ⟨d, hd, rfl⟩⟩)

/-- The last pieces of an instruction that leaves nothing known in the accumulator. -/
theorem Good.effect (h : e.Good Λ W outside a₀ n a bs m) {ps : List Piece} {k : Content}
    {up : Register} (hup : up = Register.invalid) (offs : List Nat)
    (hps : Piece.Leads Λ W a ps ⟨.body, k⟩)
    (hts : Piece.Clean (fun l => outside l ∨ n ≤ l ∧ l < m) ps)
    (hbs : bs ++ Piece.binds ps = offs.map (n + ·)) (hm : m = n + offs.length)
    (hperm : offs.Perm (List.range offs.length)) : (e.write ps).Done Λ W outside a₀ n up :=
  h.done _ offs hps hts hbs hm hperm (.inr ⟨rfl, fun hne => absurd hup hne⟩)

theorem Good.stop (h : e.Good Λ W outside a₀ n a bs m) {ps : List Piece} {up : Register}
    (offs : List Nat) (hps : Piece.Leads Λ W a ps .never)
    (hts : Piece.Clean (fun l => outside l ∨ n ≤ l ∧ l < m) ps)
    (hbs : bs ++ Piece.binds ps = offs.map (n + ·)) (hm : m = n + offs.length)
    (hperm : offs.Perm (List.range offs.length)) : (e.write ps).Done Λ W outside a₀ n up :=
  h.done _ offs hps hts hbs hm hperm (.inl rfl)

end Emitter

/-! ## Loading operands -/

namespace Emit

variable {Λ : Label → Note} {W : Int32 → Prop} {outside : Label → Prop} {a₀ : Note} {n m : Nat}
  {site : Site} {e : Emitter} {k : Content} {bs : List Nat}

theorem ne_invalid_of_offset {r : Register} {d : Int32} (h : Frame.registerOffset? r = some d) :
    r ≠ Register.invalid := by
  rintro rfl
  simp [Frame.registerOffset?] at h

theorem load_good (h : e.Good Λ W outside a₀ n ⟨.body, k⟩ bs m) (ht : e.Trusts k) {r : Register}
    {d : Int32} (hr : Frame.registerOffset? r = some d) {dst : Reg} (hdst : dst ∈ scratchRegs) :
    (load dst r).Yields site e fun _ e' =>
      e'.Good Λ W outside a₀ n ⟨.body, if dst = .rax then .slot d else k⟩ bs m ∧
        e'.Trusts (if dst = .rax then .slot d else k) ∧ e'.upcoming = e.upcoming := by
  simp only [load, yields_bind, yields_get]
  by_cases hc : r = e.cached
  · -- The accumulator is believed to hold `r`, so it holds the word in its slot.
    obtain ⟨d', hd', rfl⟩ := ht (hc ▸ ne_invalid_of_offset hr)
    obtain rfl : d' = d := by rw [← hc, hr] at hd'; exact (Option.some.inj hd').symm
    rw [if_pos hc, yields_piece, ite_self]
    refine ⟨?_, ht, rfl⟩
    have hk : Piece.Leads Λ W ⟨.body, .slot d'⟩ [.kept dst r] ⟨.body, .slot d'⟩ :=
      ⟨⟨rfl, hdst, d', hr, rfl⟩, rfl⟩
    exact h.append hk rfl rfl
  · have hq : Piece.Leads Λ W ⟨.body, k⟩ [.instr (.load dst frameReg d)]
        ⟨.body, if dst = .rax then .slot d else k⟩ := by
      rw [Piece.leads_quiet (by simpa [known_of_mem_scratchRegs hdst] using hdst)]
      by_cases hx : dst = .rax
      · simp [hx]
      · rw [Content.after_of_kept (by simpa using Ne.symm hx), if_neg hx]
        rfl
    have hg := h.append hq rfl rfl
    simp only [if_neg hc, yields_bind, yields_registerOffset hr, yields_instr]
    by_cases hx : dst = .rax
    · rw [if_pos hx, yields_modify]
      rw [if_pos hx] at hg ⊢
      exact ⟨hg.congr rfl rfl, fun _ => ⟨d, hr, rfl⟩, rfl⟩
    · rw [if_neg hx, yields_pure]
      rw [if_neg hx] at hg ⊢
      exact ⟨hg, ht, rfl⟩

theorem load_accumulator (h : e.Good Λ W outside a₀ n ⟨.body, k⟩ bs m) (ht : e.Trusts k)
    {r : Register} {d : Int32} (hr : Frame.registerOffset? r = some d) :
    (load .rax r).Yields site e fun _ e' => e'.Good Λ W outside a₀ n ⟨.body, .slot d⟩ bs m ∧
      e'.Trusts (.slot d) ∧ e'.upcoming = e.upcoming := by
  have hload : (load .rax r).Yields site e _ := load_good h ht hr (by simp)
  simpa using hload

theorem load_scratch (h : e.Good Λ W outside a₀ n ⟨.body, k⟩ bs m) (ht : e.Trusts k)
    {r : Register} {d : Int32} (hr : Frame.registerOffset? r = some d) {dst : Reg}
    (hdst : dst ∈ scratchRegs) (hx : dst ≠ .rax) :
    (load dst r).Yields site e fun _ e' => e'.Good Λ W outside a₀ n ⟨.body, k⟩ bs m ∧
      e'.Trusts k ∧ e'.upcoming = e.upcoming := by
  have hload : (load dst r).Yields site e _ := load_good h ht hr hdst
  simpa only [if_neg hx] using hload

theorem loadPair_good (h : e.Good Λ W outside a₀ n ⟨.body, k⟩ bs m) (ht : e.Trusts k)
    {lhs rhs : Register} {dl dr : Int32} (hl : Frame.registerOffset? lhs = some dl)
    (hr : Frame.registerOffset? rhs = some dr) :
    (loadPair lhs rhs).Yields site e fun _ e' =>
      e'.Good Λ W outside a₀ n ⟨.body, .slot dl⟩ bs m ∧ e'.upcoming = e.upcoming := by
  simp only [loadPair, yields_bind, yields_get]
  by_cases hc : rhs = e.cached ∧ lhs ≠ e.cached
  · obtain ⟨d', hd', rfl⟩ := ht (hc.1 ▸ ne_invalid_of_offset hr)
    rw [← hc.1] at hd'
    rw [if_pos hc, yields_bind, yields_piece]
    have hk : Piece.Leads Λ W ⟨.body, .slot d'⟩ [.kept .rdx rhs] ⟨.body, .slot d'⟩ :=
      ⟨⟨rfl, by simp, d', hd', rfl⟩, rfl⟩
    have hg := h.append hk rfl rfl
    exact (load_accumulator hg (by simpa [Emitter.Trusts] using ht) hl).mono
      fun _ e' h' => ⟨h'.1, h'.2.2⟩
  · rw [if_neg hc, yields_bind]
    refine (load_accumulator h ht hl).mono fun _ e₁ h₁ => ?_
    refine (load_scratch h₁.1 h₁.2.1 hr (by simp) (by decide)).mono fun _ e₂ h₂ => ?_
    exact ⟨h₂.1, h₂.2.2.trans h₁.2.2⟩

end Emit

end RegisterJit
