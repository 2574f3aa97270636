import RegisterJit.Proofs.Printing

/-!
# Listings read back

The listing of a code that was read is read as the same code: its lines say what `told` says, and what
they say spells the code.

`Tells` relates a text to statements that its lines say, whatever lines follow; `Lists` collects what must hold
of a code so that it can be printed and read: the statements that it was accepted with, its name, and that each
of its instructions is `Legible`. The proof follows the printer: the header, the body with its labels
(`Lists.tells_body`), the handlers, and then the nested codes, for which it is an induction on the depth. What
is printed of a code is what `Restating` computes as `told`, and that `told` spells the code again is proved
there. `Reading` supplies the codes: those that were read can be listed.
-/

namespace RegisterJit.Listing

open Text (quoteMark)

/-! ## Texts that say something -/

/-- Lines that say something, whatever follows them. -/
def Conveys (lines : List Text) (ss : List Statement) : Prop :=
  ∀ more ss' rest, Body more ss' rest → Body (lines ++ more) (ss ++ ss') rest

/-- A printed text whose lines say something. -/
def Tells (out : Text) (ss : List Statement) : Prop :=
  ∃ lines, Prints out lines ∧ (∀ t ∈ lines, IsPrintedLine t) ∧ Conveys lines ss

theorem tells_nil : Tells [] [] :=
  ⟨[], prints_nil, fun _ h => absurd h List.not_mem_nil, fun _ _ _ h => h⟩

theorem Tells.append {out out' : Text} {ss ss' : List Statement} (h : Tells out ss)
    (h' : Tells out' ss') : Tells (out ++ out') (ss ++ ss') := by
  obtain ⟨lines, hprints, hlines, hsays⟩ := h
  obtain ⟨lines', hprints', hlines', hsays'⟩ := h'
  refine ⟨lines ++ lines', hprints.append hprints', List.forall_mem_append.2 ⟨hlines, hlines'⟩, ?_⟩
  intro more ss'' rest hbody
  rw [List.append_assoc, List.append_assoc]
  exact hsays _ _ _ (hsays' _ _ _ hbody)

theorem tells_flatMap {α : Type} {xs : List α} {f : α → Text} {g : α → List Statement}
    (h : ∀ x ∈ xs, Tells (f x) (g x)) : Tells (xs.flatMap f) (xs.flatMap g) := by
  induction xs with
  | nil => exact tells_nil
  | cons x xs ih =>
    obtain ⟨hx, hxs⟩ := List.forall_mem_cons.1 h
    rw [List.flatMap_cons, List.flatMap_cons]
    exact hx.append (ih hxs)

theorem tells_line (n : Nat) {t : Text} {st : Statement} (ht : IsPrintedLine t)
    (h : Conveys [t] [st]) : Tells (line (List.replicate n 0x20) t) [st] :=
  ⟨[t], prints_line n t, by simpa using ht, h⟩

theorem tells_labelsAt (indent : Nat) (marks : List Nat) (n : Nat) :
    Tells (if marks.contains n then line (List.replicate indent 0x20) (labelText n ++ Text.ofString ":")
      else []) (labelsAt marks n) := by
  rw [labelsAt]
  split
  · exact tells_line indent (isPrintedLine_label n) fun _ _ _ h => .label (bodyLine_label n) h
  · exact tells_nil

/-- An instruction whose operands can be printed. -/
structure Legible (c : Code) (ins : Instruction) : Prop where
  format : ins.operands.map Prod.fst = ins.opcode.format
  operands : ∀ p ∈ ins.operands, Printable c p.1 p.2

theorem tells_instruction (indent : Nat) {c : Code} {ins : Instruction} (h : Legible c ins) :
    Tells (line (List.replicate indent 0x20) (instructionText c ins)) [statementOf c ins] := by
  obtain ⟨harguments, hread⟩ := readInstruction_printed h.format h.operands
  obtain ⟨hprinted, hline⟩ := bodyLine_instructionText harguments
  exact tells_line indent hprinted fun _ _ _ hmore => .instruction hline hread hmore

theorem tells_handler (indent : Nat) {h : Handler} (hwritten : h.IsWritten) :
    Tells (line (List.replicate indent 0x20) (handlerText h)) [.handler (lineOf h)] := by
  obtain ⟨hprinted, hline⟩ := bodyLine_handlerText h
  exact tells_line indent hprinted fun _ _ _ hmore =>
    .handler hline (parseHandler_handlerTexts hwritten) hmore

/-! ## Codes -/

/-- A code that was read, whose lines can be printed: its name as a header gives it, its instructions
as they were. -/
structure Lists (c : Code) (ss : List Statement) : Prop extends Accepted c ss where
  name : IsName c.name
  legible : ∀ ins ∈ Stream.instructions c.data, Legible c ins

/-- A printed code: its header starts a function, and the lines after it say what the code says and give
the code. -/
def Restated (out : Text) (c : Code) : Prop :=
  ∃ lines d, Prints out (headerText c :: lines) ∧
    (∀ t ∈ headerText c :: lines, IsPrintedLine t) ∧ openFunction (headerWords c) = .ok d ∧
    (∀ rest, Body (lines ++ rest) (told c) rest) ∧ ((told c).foldl Draft.say d).finish = .ok c

theorem Restated.tells {out : Text} {c : Code} (h : Restated out c) (hname : IsName c.name) :
    Tells out [.nested c] := by
  obtain ⟨lines, d, hprints, hlines, hopen, hbody, hfinish⟩ := h
  obtain ⟨-, hfields, hline⟩ := bodyLine_headerText hname
  refine ⟨_, hprints, hlines, fun more ss' rest hmore => ?_⟩
  exact .nested hline (by rw [hfields, hopen]) (hbody more) hfinish hmore

theorem renderAll_some (indent : Text) (cs : List Code) :
    renderAll indent (cs.map some) = cs.flatMap (renderIn indent) := by
  induction cs with
  | nil => rfl
  | cons d cs ih => rw [List.map_cons, renderAll, ih, List.flatMap_cons]

theorem renderIn_eq (indent : Text) (c : Code) :
    renderIn indent c = bodyText indent c ++ renderAll (indent ++ Text.ofString "  ") c.codes ++
      line indent (Text.ofString "end") := by
  obtain ⟨_, _, _, _, _, _, _, _, _⟩ := c
  rw [renderIn]

section Code

variable {c : Code} {ss : List Statement}

/-- The lines after the header. -/
theorem Lists.tells_body (h : Lists c ss) (indent : Nat)
    (hnested : ∀ d ∈ nestedOf ss, ∀ n, Tells (renderIn (List.replicate n 0x20) d) [.nested d]) :
    ∃ out, renderIn (List.replicate indent 0x20) c =
        line (List.replicate indent 0x20) (headerText c) ++ out ++
          line (List.replicate indent 0x20) (Text.ofString "end") ∧
      Tells out (told c) := by
  have hinner : List.replicate indent 0x20 ++ Text.ofString "  " = List.replicate (indent + 2) 0x20 := by
    rw [show Text.ofString "  " = [0x20, 0x20] by decide +kernel, List.replicate_add]
    rfl
  have hinstructions : Tells ((Stream.instructions c.data).flatMap fun ins =>
      (if (labelled c).contains ins.offset then
        line (List.replicate indent 0x20) (labelText ins.offset ++ Text.ofString ":") else []) ++
        line (List.replicate (indent + 2) 0x20) (instructionText c ins))
      (toldInstructions c (labelled c) (Stream.instructions c.data)) :=
    tells_flatMap fun ins hins => (tells_labelsAt indent (labelled c) ins.offset).append
      (tells_instruction (indent + 2) (h.legible ins hins))
  have hend := tells_labelsAt indent (labelled c) c.data.size
  have hhandlers : Tells (c.handlers.toList.flatMap fun hd =>
      line (List.replicate (indent + 2) 0x20) (handlerText hd))
      (c.handlers.toList.flatMap fun hd => [.handler (lineOf hd)]) :=
    tells_flatMap fun hd hhd => tells_handler (indent + 2) (h.handlers hd (Array.mem_toList_iff.1 hhd))
  have hcodes : Tells (renderAll (List.replicate (indent + 2) 0x20) c.codes)
      ((nestedOf ss).flatMap fun d => [.nested d]) := by
    rw [h.codes, renderAll_some]
    exact tells_flatMap fun d hd => hnested d hd (indent + 2)
  have htold : told c = toldInstructions c (labelled c) (Stream.instructions c.data) ++
      labelsAt (labelled c) c.data.size ++
      (c.handlers.toList.flatMap fun hd => [.handler (lineOf hd)]) ++
      (nestedOf ss).flatMap fun d => [.nested d] := by
    rw [told, h.codes, List.filterMap_map, List.map_eq_flatMap]
    simp [List.map_eq_flatMap]
  refine ⟨_, ?_, htold ▸ ((hinstructions.append hend).append hhandlers).append hcodes⟩
  rw [renderIn_eq, bodyText, hinner]
  simp only [List.append_assoc]

theorem Lists.restated (h : Lists c ss) (indent : Nat)
    (hnested : ∀ d ∈ nestedOf ss, ∀ n, Tells (renderIn (List.replicate n 0x20) d) [.nested d]) :
    Restated (renderIn (List.replicate indent 0x20) c) c := by
  obtain ⟨out, hout, lines, hprints, hlines, hsays⟩ := h.tells_body indent hnested
  obtain ⟨hheader, -⟩ := bodyLine_headerText h.name
  obtain ⟨d, hopen, hfresh, hname, hparams, hstrict, hregisters⟩ := openFunction_headerWords c
  have hclose : bodyLine (Text.ofString "end") = .ok .close := by rw [bodyLine, if_pos rfl]
  have hend : IsPrintedLine (Text.ofString "end") :=
    (isArgument_of_symbols (by decide +kernel) (by decide +kernel)).isPrintedLine
  refine ⟨lines ++ [Text.ofString "end"], d, ?_, ?_, hopen, fun rest => ?_, ?_⟩
  · rw [hout]
    exact ((prints_line indent _).append hprints).append (prints_line indent _)
  · simp only [List.forall_mem_cons, List.forall_mem_append]
    exact ⟨hheader, hlines, hend, fun _ h => absurd h List.not_mem_nil⟩
  · rw [List.append_assoc]
    have := hsays _ _ rest (.close hclose)
    rwa [List.append_nil] at this
  · obtain ⟨r, hr, hfinish⟩ := (hfresh.says_all h.suits_told).finish_eq h.suits_told h.closed_told
      h.length_labelsOf_told_le
    have hcount : r = c.registerCount := by
      have hback := Word.ofInt_u32 c.registerCount
      rw [Word.u32_ofUInt32] at hback
      rw [hr _ hregisters, hback]
    obtain ⟨hcode, hvalid⟩ := h.codeOf_told (show (d.head r).name = c.name from hname) hparams hcount hstrict
    rw [hfinish, hcode, hvalid]
    rfl

end Code

end RegisterJit.Listing
