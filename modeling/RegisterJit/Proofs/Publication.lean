import RegisterJit.Proofs.Attempts

/-!
# Publishing entries

Codes learn their entries and the native ranges of their handlers when a session is linked. A session
is asked to compile and to link in any order, and any of it may fail. What codes hold changes in two
cases only: a link gives an image, or it comes upon a handler whose boundary has no place, and then
the codes before that handler were published all the same. A link that finds no memory leaves nothing
behind but displacements, which the next attempt fills in again.

A desk holds codes and sessions, and `Request` and `Reply` are what is asked of it and what it answers. `Alike`
says that two sessions differ in displacements only: whatever is asked of them afterwards, they answer alike.
`Published` says which codes have entries and which. `publication` is by induction on the requests, with the
lemmas of `Attempts` for a single link. `failed_link_publishes` is the run in which a link fails at a handler
and leaves entries behind.
-/

namespace RegisterJit

/-- What a code holds of its place: its entry and the native range of each handler. -/
structure Placement where
  entry : UInt64
  range : Nat → UInt64 × UInt64

/-- What codes hold of their places, by the keys of their units. -/
abbrev Ledger := Nat → Placement

namespace Ledger

/-- Write down where a code was placed. Handlers that are not told of keep their ranges. -/
def note (l : Ledger) (p : PlacedUnit) : Ledger :=
  Function.update l p.unit.key
    ⟨p.entry, fun i => (p.handlers[i]?).getD ((l p.unit.key).range i)⟩

def publish (l : Ledger) (ps : List PlacedUnit) : Ledger := ps.foldl note l

end Ledger

/-- What a session can be asked to do. A request to link comes with the allocator's answers. -/
inductive Request
  | compile (codes : List (Option CodeUnit))
  | link (answer : Int → Except AllocationError UInt64)

/-- What a session replies. -/
inductive Reply
  | compiled (result : Except Invariant Unit)
  | linked (result : Except LinkError Image)

def Reply.isImage : Reply → Bool
  | .linked (.ok _) => true
  | _ => false

/-- A session in use, and what codes hold of their places. -/
structure Desk where
  session : Session
  ledger : Ledger

namespace Desk

/-- Do what is asked. -/
def serve (d : Desk) : Request → Reply × Desk
  | .compile codes => (.compiled (d.session.compile codes).1, ⟨(d.session.compile codes).2, d.ledger⟩)
  | .link answer =>
    let outcome := d.session.attempt answer
    (.linked outcome.result, ⟨outcome.session, d.ledger.publish outcome.published.toList⟩)

def serveAll (d : Desk) : List Request → List Reply × Desk
  | [] => ([], d)
  | r :: rest =>
    ((d.serve r).1 :: ((d.serve r).2.serveAll rest).1, ((d.serve r).2.serveAll rest).2)

/-- Two desks whose sessions differ in displacements only. -/
structure Alike (d d' : Desk) : Prop where
  session : d.session.Alike d'.session
  ledger : d.ledger = d'.ledger

variable {d d' : Desk}

theorem Alike.serve (h : d.Alike d') (r : Request) :
    (d.serve r).1 = (d'.serve r).1 ∧ (d.serve r).2.Alike (d'.serve r).2 := by
  cases r with
  | compile codes =>
    obtain ⟨hresult, halike⟩ := h.session.compile codes
    exact ⟨congrArg Reply.compiled hresult, halike, h.ledger⟩
  | link answer =>
    obtain ⟨hresult, hpublished, halike⟩ := h.session.attempt answer
    refine ⟨congrArg Reply.linked hresult, halike, ?_⟩
    change d.ledger.publish _ = d'.ledger.publish _
    rw [h.ledger, hpublished]

theorem Alike.serveAll (h : d.Alike d') (rs : List Request) :
    (d.serveAll rs).1 = (d'.serveAll rs).1 ∧ (d.serveAll rs).2.Alike (d'.serveAll rs).2 := by
  induction rs generalizing d d' with
  | nil => exact ⟨rfl, h⟩
  | cons r rs ih =>
    obtain ⟨hreply, halike⟩ := h.serve r
    obtain ⟨hreplies, hend⟩ := ih halike
    exact ⟨congrArg₂ List.cons hreply hreplies, hend⟩

theorem serve_settled (h : d.session.Settled) (r : Request) : (d.serve r).2.session.Settled := by
  cases r with
  | compile codes => exact h.compile codes
  | link answer =>
    have ho := d.session.attempt_cases answer
    change (d.session.attempt answer).session.Settled
    generalize d.session.attempt answer = o at ho ⊢
    cases ho <;> exact h

theorem serveAll_settled (h : d.session.Settled) (rs : List Request) :
    (d.serveAll rs).2.session.Settled := by
  induction rs generalizing d with
  | nil => exact h
  | cons r rs ih => exact ih (serve_settled h r)

theorem serve_of_linked (h : d.session.linked = true) (r : Request) :
    (d.serve r).1.isImage = false ∧ (d.serve r).2 = d := by
  cases r with
  | compile codes =>
    rw [serve, Session.compile_of_linked h]
    exact ⟨rfl, rfl⟩
  | link answer =>
    rw [serve, (d.session.attempt_cases answer).unique (.again h)]
    exact ⟨rfl, rfl⟩

theorem serveAll_of_linked (h : d.session.linked = true) (rs : List Request) :
    (d.serveAll rs).1.countP Reply.isImage = 0 ∧ (d.serveAll rs).2 = d := by
  induction rs with
  | nil => exact ⟨rfl, rfl⟩
  | cons r rs ih =>
    obtain ⟨hreply, hd⟩ := serve_of_linked h r
    rw [serveAll, hd, List.countP_cons, hreply]
    exact ih

theorem linked_of_isImage {r : Request} (h : (d.serve r).1.isImage = true) :
    (d.serve r).2.session.linked = true := by
  cases r with
  | compile codes => cases h
  | link answer =>
    have ho := d.session.attempt_cases answer
    rw [serve] at h ⊢
    generalize d.session.attempt answer = o at ho h ⊢
    cases ho with
    | again | unbound | homeless | misplaced => cases h
    | placed => rfl

theorem image_last (d : Desk) (rs : List Request) :
    (d.serveAll rs).1.countP Reply.isImage ≤ 1 ∧
      (0 < (d.serveAll rs).1.countP Reply.isImage → (d.serveAll rs).2.session.linked = true) := by
  induction rs generalizing d with
  | nil => exact ⟨Nat.zero_le _, fun h => absurd h (lt_irrefl 0)⟩
  | cons r rs ih =>
    rw [serveAll, List.countP_cons]
    cases hreply : (d.serve r).1.isImage with
    | false => exact ih (d.serve r).2
    | true =>
      have hl := linked_of_isImage hreply
      obtain ⟨hcount, hd⟩ := serveAll_of_linked hl rs
      rw [hcount, hd]
      exact ⟨le_refl 1, fun _ => hl⟩

/-- What a link does to what codes hold of their places: an image is published, and a handler that has
no place stops the publishing where it stands. -/
def Published (d d' : Desk) : Except LinkError Image → Prop
  | .ok image =>
    List.Forall₂ (d.session.Publishes image.base) d.session.programs.toList image.programs.toList ∧
      d'.ledger = d.ledger.publish image.programs.toList
  | .error (.invariant (.handlerNotLinked name isStart offset)) =>
    ∃ base done c rest qs q, d.session.programs.toList = done ++ c :: rest ∧
      List.Forall₂ (d.session.Publishes base) done qs ∧
      d.session.PublishesInPart base (.handlerNotLinked name isStart offset) c q ∧
      d'.ledger = d.ledger.publish (qs ++ [q])
  | .error _ => d'.ledger = d.ledger

theorem published_link (h : d.session.Settled) (answer : Int → Except AllocationError UInt64) :
    d.Published (d.serve (.link answer)).2 (d.session.attempt answer).result := by
  have ho := d.session.attempt_cases answer
  rw [serve]
  generalize d.session.attempt answer = o at ho ⊢
  cases ho with
  | again hl => exact rfl
  | unbound hl hj => exact rfl
  | homeless hl hcode hcause => exact rfl
  | @misplaced hl code hcode base hbase i placed hplace =>
    rcases Session.Settled.place_error (s := { d.session with linked := true }) h hplace with ⟨⟨f, rfl⟩, rfl⟩ | hpart
    · exact rfl
    · obtain ⟨done, c, rest, qs, q, hps, hplaced, hdone, hq⟩ := hpart
      obtain ⟨before, hd, after, isStart, hhandlers, hranges, hno, rfl⟩ := hq.handlers
      refine ⟨base, done, c, rest, qs, q, hps,
        hdone.imp fun c q hq => ⟨hq.unit, hq.entry, hq.stop, hq.handlers⟩,
        ⟨hq.unit, hq.entry, before, hd, after, isStart, hhandlers, hranges, hno, rfl⟩, ?_⟩
      rw [hplaced]
  | @placed hl code hcode base hbase image hplace =>
    obtain ⟨rfl, -, -, -, -, hpublish⟩ := Session.of_place hplace
    obtain ⟨qs, hqs, hall⟩ := Session.forall₂_of_publish hpublish
    obtain rfl : image.programs.toList = qs := hqs
    exact ⟨hall.imp fun c q hq => ⟨hq.unit, hq.entry, hq.stop, hq.handlers⟩, rfl⟩

/-- **Publication.** Whatever a session was asked before: compiling publishes nothing; a link publishes
when it gives an image, and otherwise only up to a handler that has no place; a link for which there
was no memory leaves no trace in anything that comes after it; and at most one link gives an image,
after which nothing is compiled. -/
theorem publication (ledger : Ledger) (rs : List Request) :
    let d := (serveAll ⟨Session.start, ledger⟩ rs).2
    (∀ codes, (d.serve (.compile codes)).2.ledger = d.ledger) ∧
    (∀ answer, ∃ result, (d.serve (.link answer)).1 = .linked result ∧
      d.Published (d.serve (.link answer)).2 result) ∧
    (∀ answer size cause, (d.serve (.link answer)).1 = .linked (.error (.allocation size cause)) →
      ∀ more, ((d.serve (.link answer)).2.serveAll more).1 = (d.serveAll more).1 ∧
        ((d.serve (.link answer)).2.serveAll more).2.ledger = (d.serveAll more).2.ledger) ∧
    (serveAll ⟨Session.start, ledger⟩ rs).1.countP Reply.isImage ≤ 1 ∧
    (0 < (serveAll ⟨Session.start, ledger⟩ rs).1.countP Reply.isImage →
      ∀ codes, d.serve (.compile codes) = (.compiled (.error .alreadyLinked), d)) := by
  intro d
  have hsettled : d.session.Settled := serveAll_settled Session.start_settled rs
  obtain ⟨hcount, hlinked⟩ := image_last ⟨Session.start, ledger⟩ rs
  refine ⟨fun codes => rfl, fun answer => ⟨_, rfl, published_link hsettled answer⟩,
    fun answer size cause hreply more => ?_, hcount, fun hpos codes => ?_⟩
  · -- Nothing was published, and the session differs in displacements only.
    have ho := d.session.attempt_cases answer
    rw [serve] at hreply ⊢
    generalize d.session.attempt answer = o at ho hreply ⊢
    cases ho with
    | again | unbound | misplaced | placed => cases hreply
    | homeless =>
      have halike : d.Alike ⟨d.session.settled, d.ledger⟩ := ⟨d.session.alike_settled, rfl⟩
      obtain ⟨hreplies, hend⟩ := halike.serveAll more
      exact ⟨hreplies.symm, hend.ledger.symm⟩
  · rw [serve, Session.compile_of_linked (hlinked hpos)]

/-- A code with a handler that begins inside an instruction. -/
def strandedUnit : CodeUnit :=
  ⟨0, 0, { Code.ofName (Text.ofString "main") with
    data := #[Word.ofOpcode .loadInt32, Word.ofRegister ⟨0⟩, Word.ofUInt32 0, Word.ofOpcode .return,
      Word.ofRegister ⟨0⟩]
    registerCount := 1
    handlers := #[⟨Handler.kindCatch, 1, 3, 0, ⟨0⟩, ⟨0⟩⟩] }, #[]⟩

/-- A link that fails at a handler has published the entry of its code. -/
theorem failed_link_publishes :
    let d := (serveAll ⟨Session.start, fun _ => ⟨0, fun _ => (0, 0)⟩⟩ [.compile [some strandedUnit]]).2
    let after := d.serve (.link fun _ => .ok 0x400000)
    after.1 = .linked (.error (.invariant (.handlerNotLinked (Text.ofString "main") true 1))) ∧
      (d.ledger 0).entry = 0 ∧ (after.2.ledger 0).entry = 0x400070 := by
  intro d after
  have hrun : (match after.1 with
      | .linked (.error (.invariant (.handlerNotLinked name isStart offset))) =>
        name == Text.ofString "main" && isStart && offset == 1 && (after.2.ledger 0).entry == 0x400070
      | _ => false) = true := by decide +kernel
  cases hreply : after.1 with
  | compiled result => rw [hreply] at hrun; cases hrun
  | linked result =>
    rw [hreply] at hrun
    cases result with
    | ok image => cases hrun
    | error e =>
      cases e with
      | allocation size cause => cases hrun
      | invariant i =>
        cases i with
        | handlerNotLinked name isStart offset =>
          simp only [Bool.and_eq_true, beq_iff_eq] at hrun
          obtain ⟨⟨⟨rfl, rfl⟩, rfl⟩, hentry⟩ := hrun
          exact ⟨rfl, rfl, hentry⟩
        | _ => cases hrun

end Desk

end RegisterJit
