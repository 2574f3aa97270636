import RegisterJit.Proofs.Reading

/-!
# What becomes of arguments

Each argument of an instruction gives one operand word. Registers, names, nested functions and jumps
read back as they were written. A number reads back modulo `2 ^ 32`, and a register of a packed operand
as sixteen bits hold it, which is the same register unless it is `a32767` (`operands_kept`).

An operand is followed through the whole way of a text: from the argument that is read, to the word that the
builder emits for it, to the operand that an instruction of the finished code is read back with.
`Argument.IsKept` says for each kind of operand what must come back, `Account.keeps` that every instruction of a
function that was read keeps all its arguments, and `functions_of_parse` carries this from the functions of a
text to all codes of the tree. The two places where something is lost are stated exactly, since
`operands_altered` shows that nothing better holds. `Literals` uses the same account of a body for what becomes
of literals.
-/

namespace RegisterJit

/-! ## Words of numbers and registers -/

namespace Register

def cut (r : Register) : Register := Word.quarter r.index.toUInt32.toUInt16

/-- The argument register farthest from the receiver that can be written. -/
def farthest : Register := arg 32767

theorem toInt_cut (r : Register) : r.cut.index.toInt = r.index.toInt.bmod (2 ^ 16) := by
  have hcut : r.cut.index.toInt = (r.index.toBitVec.setWidth 16).toInt := Int16.toInt_toInt32 _
  have hnat : r.index.toInt = if 2 * r.index.toBitVec.toNat < 2 ^ 32 then
      (r.index.toBitVec.toNat : Int) else r.index.toBitVec.toNat - 2 ^ 32 :=
    BitVec.toInt_eq_toNat_cond ..
  have hmod : (r.index.toBitVec.toNat : Int) % (2 ^ 16 : Nat) = r.index.toInt % (2 ^ 16 : Nat) := by
    rw [hnat]
    split <;> omega
  rw [hcut, BitVec.toInt_setWidth, ← Int.emod_bmod, hmod, Int.emod_bmod]

/-- What a register that can be written comes to in a packed operand. -/
def packed (r : Register) : Register := if r = farthest then ofNat 32767 else r

theorem cut_eq {r : Register} (h : r.IsWritten) : r.cut = r.packed := by
  rw [packed]
  split
  · rename_i heq
    rw [heq]
    decide
  · rename_i hne
    obtain ⟨hmin, hmax⟩ := h
    have hlow : r.index.toInt ≠ -32769 := fun heq =>
      hne (congrArg Register.mk (Int32.toInt.inj heq))
    have hindex : r.cut.index = r.index := by
      apply Int32.toInt.inj
      rw [toInt_cut, Int.bmod]
      split <;> omega
    exact congrArg Register.mk hindex

end Register

namespace Word

theorem unpack_pack (a b : Register) (n : UInt32) : unpack (pack a b n) = (a.cut, b.cut, n) := by
  set u := a.index.toUInt32.toUInt16
  set v := b.index.toUInt32.toUInt16
  have hfirst : (pack a b n).toUInt16 = u := by
    apply UInt16.eq_of_toBitVec_eq
    change ((u.toBitVec.setWidth 64 ||| (v.toBitVec.setWidth 64) <<< 16) |||
      (n.toBitVec.setWidth 64) <<< 32).setWidth 16 = u.toBitVec
    apply BitVec.eq_of_getLsbD_eq
    intro i hi
    simp [hi]
  have hsecond : (pack a b n >>> 16).toUInt16 = v := by
    apply UInt16.eq_of_toBitVec_eq
    change (((u.toBitVec.setWidth 64 ||| (v.toBitVec.setWidth 64) <<< 16) |||
      (n.toBitVec.setWidth 64) <<< 32) >>> 16).setWidth 16 = v.toBitVec
    apply BitVec.eq_of_getLsbD_eq
    intro i hi
    simp [hi, show 16 + i < 64 by omega, show i < 64 by omega, show 16 + i < 32 by omega]
  have hthird : (pack a b n >>> 32).toUInt32 = n := by
    apply UInt32.eq_of_toBitVec_eq
    change (((u.toBitVec.setWidth 64 ||| (v.toBitVec.setWidth 64) <<< 16) |||
      (n.toBitVec.setWidth 64) <<< 32) >>> 32).setWidth 32 = n.toBitVec
    apply BitVec.eq_of_getLsbD_eq
    intro i hi
    have hu : u.toBitVec.getLsbD (32 + i) = false := BitVec.getLsbD_of_ge _ _ (by omega)
    have hv : v.toBitVec.getLsbD (32 + i - 16) = false := BitVec.getLsbD_of_ge _ _ (by omega)
    simp [hi, hu, hv, show 32 + i < 64 by omega, show i < 64 by omega]
  rw [unpack, hfirst, hsecond, hthird]
  rfl

theorem toInt_i32_ofInt (x : Int) : (i32 (ofUInt32 (UInt32.ofInt x))).toInt = x.bmod (2 ^ 32) := by
  have hread : i32 (ofUInt32 (UInt32.ofInt x)) = (UInt32.ofInt x).toInt32 :=
    congrArg UInt32.toInt32 (u32_ofUInt32 _)
  have hint : (UInt32.ofInt x).toInt32.toInt = if 2 * (UInt32.ofInt x).toNat < 2 ^ 32 then
      ((UInt32.ofInt x).toNat : Int) else (UInt32.ofInt x).toNat - 2 ^ 32 :=
    BitVec.toInt_eq_toNat_cond ..
  rw [hread, hint, UInt32.ofInt, UInt32.toNat_ofNat', Int.bmod]
  split <;> split <;> omega

theorem toNat_u32_ofInt (x : Int) : ((u32 (ofUInt32 (UInt32.ofInt x))).toNat : Int) = x % 2 ^ 32 := by
  rw [u32_ofUInt32, UInt32.ofInt, UInt32.toNat_ofNat']
  omega

end Word

namespace Listing

/-! ## Instructions by their place -/

theorem instructionsFrom_append (w : Spelling) (start : Nat) (T : Tables) (ss ss' : List Statement) :
    instructionsFrom w start T (ss ++ ss') =
      instructionsFrom w start T ss ++
        instructionsFrom w (start + extentOf ss) (enterAll T ss) ss' := by
  induction ss generalizing start T with
  | nil => simp [instructionsFrom, extentOf, enterAll]
  | cons st ss ih =>
    simp only [List.cons_append, instructionsFrom, ih, List.append_assoc, extentOf, List.map_cons,
      List.sum_cons, Nat.add_assoc, enterAll, List.foldl_cons]

theorem getElem?_argumentWords (w : Spelling) (start : Nat) (T : Tables) (as : List Argument)
    (i : Nat) : (argumentWords w start T as)[i]? =
      as[i]?.map fun a => a.word w start (enterArguments T (as.take i)) := by
  induction as generalizing T i with
  | nil => rfl
  | cons a as ih =>
    cases i with
    | zero => rfl
    | succ i =>
      rw [argumentWords, List.getElem?_cons_succ, List.getElem?_cons_succ, ih]
      rfl

theorem below_argument (before after : List Statement) (op : Opcode) {as : List Argument} {i : Nat}
    {a : Argument} (ha : as[i]? = some a) (T : Tables) :
    (a.enter (enterArguments (enterAll T before) (as.take i))).Below
      (enterAll T (before ++ .instruction op as :: after)) := by
  obtain ⟨hi, hget⟩ := List.getElem?_eq_some_iff.1 ha
  have hargs : enterArguments (enterAll T before) as =
      enterArguments (a.enter (enterArguments (enterAll T before) (as.take i))) (as.drop (i + 1)) := by
    conv_lhs => rw [← List.take_append_drop i as, List.drop_eq_getElem_cons hi, hget]
    rw [enterArguments, List.foldl_append, List.foldl_cons]
    rfl
  rw [enterAll_append]
  change Tables.Below _ (enterAll (enterArguments (enterAll T before) as) after)
  rw [hargs]
  exact (below_enterArguments _ _).trans (below_enterAll _ _)

/-! ## What operands read back as -/

/-- What an argument gives reads back as. -/
def Argument.IsKept (c : Code) (ss : List Statement) (ins : Instruction) (i : Nat) :
    OperandKind → Argument → Prop
  | .register, .register r => ins.reg i = r
  | .packed, .packed a b n => Word.unpack (ins.operand i) = (a.packed, b.packed, n)
  | .signed, .number x => (ins.i32 i).toInt = x.bmod (2 ^ 32)
  | .unsigned, .number x => ((ins.u32 i).toNat : Int) = x % 2 ^ 32
  | .constant, .constant k =>
    ∃ e, c.constants[(ins.u32 i).toNat]? = some e ∧ (e = k ∨ e.same k = true)
  | .name, .name t => c.names[(ins.u32 i).toNat]? = some t
  | .code, .code t => ∃ d, c.codes[(ins.u32 i).toNat]? = some (some d) ∧ d.name = t
  | .jump, .jump t => ∃ n before after, ins.target? = some n ∧ ss = before ++ .label t :: after ∧
      n.toNat = extentOf before
  | _, _ => False

/-- Arguments that were read for the operands of an instruction. -/
def Statement.IsEntered : Statement → Prop
  | .instruction op as =>
    List.Forall₂ (fun kind a => Argument.Suits a kind) op.format as ∧ ∀ a ∈ as, a.Read fun _ => True
  | _ => True

theorem Statement.IsEntered.suits {st : Statement} (h : st.IsEntered) : st.Suits := by
  cases st with
  | instruction => exact h.1
  | _ => trivial

/-- Every instruction is there at its place, with operands that read back as what was written. -/
def Keeps (c : Code) (ss : List Statement) : Prop :=
  ∀ before op as after, ss = before ++ .instruction op as :: after →
    ∃ ins ∈ Stream.instructions c.data, ins.offset = extentOf before ∧ ins.opcode = op ∧
      as.length = op.format.length ∧ ∀ (i : Nat) kind a, op.format[i]? = some kind → as[i]? = some a →
        a.IsKept c ss ins i kind

variable {c : Code} {ss : List Statement}

theorem exists_of_mem_labelsOf {t : Text} {n : Nat} (h : (t, n) ∈ labelsOf ss) :
    ∃ before after, ss = before ++ .label t :: after ∧ n = extentOf before := by
  suffices hfrom : ∀ start, (t, n) ∈ collectFrom Statement.labelAt start ss →
      ∃ before after, ss = before ++ .label t :: after ∧ n = start + extentOf before by
    simpa only [Nat.zero_add] using hfrom 0 h
  clear h
  induction ss with
  | nil =>
    intro start h
    cases h
  | cons st ss ih =>
    intro start h
    rw [collectFrom, List.mem_append] at h
    rcases h with h | h
    · cases st with
      | label t' =>
        obtain ⟨rfl, rfl⟩ := Prod.mk.inj (List.mem_singleton.1 h)
        exact ⟨[], ss, rfl, rfl⟩
      | _ => cases h
    · obtain ⟨before, after, rfl, rfl⟩ := ih _ h
      refine ⟨st :: before, after, rfl, ?_⟩
      rw [show extentOf (st :: before) = st.extent + extentOf before from List.sum_cons, Nat.add_assoc]

/-- The literal at the index of a literal is that literal, or one that is the same. -/
theorem constant_designates {T F : Tables} (k : Constant) (h : (T.constant k).2.Below F) :
    ∃ e, F.constants[(T.constant k).1]? = some e ∧ (e = k ∨ e.same k = true) := by
  rw [Tables.constant] at h ⊢
  cases hfind : T.constants.findIdx? fun have_ => have_.same k with
  | some i =>
    rw [hfind] at h
    obtain ⟨hi, hsame, -⟩ := Array.findIdx?_eq_some_iff_getElem.1 hfind
    exact ⟨T.constants[i], h.constants i _ (Array.getElem?_eq_getElem hi), .inr hsame⟩
  | none =>
    rw [hfind] at h
    exact ⟨k, h.constants _ k Array.getElem?_push_size, .inl rfl⟩

theorem Account.lookup_of_jump (h : Account c ss) {op : Opcode} {as : List Argument} {t : Text}
    (hmem : .instruction op as ∈ ss) (ht : .jump t ∈ as) : ∃ n, (labelsOf ss).lookup t = some n := by
  obtain ⟨s, hs⟩ := exists_collectFrom Statement.jumpsAt 0 hmem
  obtain ⟨j, hj, hlabel⟩ :=
    exists_placesFrom (f := fun a => a.label?.map (s, ·)) (s + 1) ht rfl
  have hbound := h.linkable.jumps j (hs j hj)
  rw [hlabel] at hbound
  exact Option.isSome_iff_exists.1 (isSome_lookup_iff.2 hbound)

/-- The instruction of a line, where `before` are the statements before it in `ss`. -/
def linkedAt (ss before : List Statement) (op : Opcode) (as : List Argument) : Instruction :=
  ⟨extentOf before, op,
    (Statement.instruction op as).words (.linked ss) (extentOf before) (enterAll .empty before)⟩

theorem operand_linkedAt (ss before : List Statement) (op : Opcode) {as : List Argument} {i : Nat}
    {a : Argument} (ha : as[i]? = some a) : (linkedAt ss before op as).operand i =
      a.word (.linked ss) (extentOf before) (enterArguments (enterAll .empty before) (as.take i)) := by
  rw [Instruction.operand, List.getD_eq_getElem?_getD, linkedAt, Statement.words,
    List.getElem?_cons_succ, getElem?_argumentWords, ha]
  rfl

section Account

variable (h : Account c ss) {before after : List Statement} {op : Opcode} {as : List Argument}
  (hss : ss = before ++ .instruction op as :: after)

include h hss

theorem Account.linkedAt_mem : linkedAt ss before op as ∈ Stream.instructions c.data := by
  have hall := instructionsFrom_append (.linked ss) 0 .empty before (.instruction op as :: after)
  rw [← hss, Nat.zero_add] at hall
  rw [h.instructions_eq, hall]
  exact List.mem_append_right _ (List.mem_append_left _ (List.mem_singleton_self _))

variable {i : Nat}

theorem Account.below {a : Argument} (ha : as[i]? = some a) :
    (a.enter (enterArguments (enterAll .empty before) (as.take i))).Below ⟨c.constants, c.names⟩ := by
  have hall := below_argument before after op ha .empty
  rw [← hss] at hall
  rwa [h.constants, h.names]

theorem Account.constant_index (hsmall : Small c) {k : Constant} (ha : as[i]? = some (.constant k)) :
    ((linkedAt ss before op as).u32 i).toNat =
      ((enterArguments (enterAll .empty before) (as.take i)).constant k).1 := by
  obtain ⟨e, he, -⟩ := constant_designates k (h.below hss ha)
  have hlt := (Array.getElem?_eq_some_iff.1 he).1
  rw [Instruction.u32, operand_linkedAt ss before op ha]
  exact Word.u32_ofUInt32_ofInt (Nat.lt_of_lt_of_le hlt (h.sizes_le hsmall).1)

theorem Account.name_index (hsmall : Small c) {t : Text} (ha : as[i]? = some (.name t)) :
    ((linkedAt ss before op as).u32 i).toNat =
      ((enterArguments (enterAll .empty before) (as.take i)).name t).1 := by
  have hlt := (Array.getElem?_eq_some_iff.1 (Tables.name_again t (h.below hss ha))).1
  rw [Instruction.u32, operand_linkedAt ss before op ha]
  exact Word.u32_ofUInt32_ofInt (Nat.lt_of_lt_of_le hlt (h.sizes_le hsmall).2)

theorem Account.target_linkedAt (hkind : op.format[i]? = some .jump) {t : Text}
    (ha : as[i]? = some (.jump t)) :
    ∃ before' after', ss = before' ++ .label t :: after' ∧
      (linkedAt ss before op as).target? = some (extentOf before').toUInt32 := by
  have hmem : .instruction op as ∈ ss := hss ▸ List.mem_append_right _ (List.mem_cons_self ..)
  obtain ⟨n, hn⟩ := h.lookup_of_jump hmem (List.mem_of_getElem? ha)
  obtain ⟨before', after', hsplit, rfl⟩ := exists_of_mem_labelsOf (Draft.mem_of_lookup hn)
  have hplace : placeIn ss t = extentOf before' := by rw [placeIn, hn, Option.getD_some]
  refine ⟨before', after', hsplit, ?_⟩
  rw [Instruction.target?, show (linkedAt ss before op as).opcode = op from rfl,
    Opcode.jumpOperand?_of_format hkind, Option.map_some, Instruction.i32,
    operand_linkedAt ss before op ha]
  change some (_ + (Word.i32 (jumpWord (placeIn ss) (extentOf before) t)).toUInt32) = _
  rw [jumpWord, Word.i32_ofInt32, hplace]
  exact congrArg some (toUInt32_displacement _ _)

theorem Account.isKept (hsmall : Small c) {kind : OperandKind} {a : Argument}
    (hkind : op.format[i]? = some kind) (ha : as[i]? = some a) (hsuits : a.Suits kind)
    (hread : a.Read fun _ => True) : a.IsKept c ss (linkedAt ss before op as) i kind := by
  have hword := operand_linkedAt ss before op ha
  have hbelow := h.below hss ha
  cases a <;> cases kind <;> try exact hsuits.elim
  case register.register r =>
    rw [Argument.IsKept, Instruction.reg, hword]
    exact Word.reg_ofRegister r
  case packed.packed x y n =>
    obtain ⟨hx, hy⟩ : x.IsWritten ∧ y.IsWritten := hread
    rw [Argument.IsKept, hword, ← Register.cut_eq hx, ← Register.cut_eq hy]
    exact Word.unpack_pack x y n
  case number.signed x =>
    rw [Argument.IsKept, Instruction.i32, hword]
    exact Word.toInt_i32_ofInt x
  case number.unsigned x =>
    rw [Argument.IsKept, Instruction.u32, hword]
    exact Word.toNat_u32_ofInt x
  case constant.constant k =>
    rw [Argument.IsKept, h.constant_index hss hsmall ha]
    exact constant_designates k hbelow
  case name.name t =>
    rw [Argument.IsKept, h.name_index hss hsmall ha]
    exact Tables.name_again t hbelow
  case code.code t =>
    have hmem : .instruction op as ∈ ss := hss ▸ List.mem_append_right _ (List.mem_cons_self ..)
    obtain ⟨d, -, hget, hname⟩ := h.code_of_word hsmall (h.mem_nested hmem (List.mem_of_getElem? ha))
    refine ⟨d, ?_, hname⟩
    rw [Instruction.u32, hword]
    rw [List.getD_eq_getElem?_getD] at hget
    cases hcode : c.codes[(Word.u32 (codeWord (nestedOf ss) t)).toNat]? with
    | none => rw [hcode] at hget; cases hget
    | some o =>
      rw [hcode] at hget
      exact hcode.trans (congrArg some hget)
  case jump.jump t =>
    obtain ⟨before', after', hsplit, htarget⟩ := h.target_linkedAt hss hkind ha
    refine ⟨_, before', after', htarget, hsplit, ?_⟩
    have hdata := hsmall.data
    rw [h.size_eq, hsplit, extentOf_append] at hdata
    rw [Nat.toUInt32_eq, UInt32.toNat_ofNat', Nat.mod_eq_of_lt (by omega)]

omit hss

theorem Account.keeps (hsmall : Small c) (hentered : ∀ st ∈ ss, st.IsEntered) : Keeps c ss := by
  intro before op as after hss
  obtain ⟨hsuits, hread⟩ := hentered _ (hss ▸ List.mem_append_right _ (List.mem_cons_self ..))
  refine ⟨linkedAt ss before op as, h.linkedAt_mem hss, rfl, rfl, hsuits.length_eq.symm,
    fun i kind a hkind ha => ?_⟩
  refine h.isKept hss hsmall hkind ha ?_ (hread a (List.mem_of_getElem? ha))
  obtain ⟨hi, rfl⟩ := List.getElem?_eq_some_iff.1 hkind
  obtain ⟨hi', rfl⟩ := List.getElem?_eq_some_iff.1 ha
  exact (List.forall₂_iff_get.1 hsuits).2 i hi hi'

end Account

/-! ## Functions of a text -/

/-- What the lines of a function say, from the first one of its body to its end, where `P` holds of every
function inside and of what its own lines say. -/
inductive BodyWith (P : Code → List Statement → Prop) : List Text → List Statement → List Text → Prop
  | close {line : Text} {rest : List Text} (read : bodyLine line = .ok .close) :
      BodyWith P (line :: rest) [] rest
  | label {line : Text} {lines rest : List Text} {t : Text} {ss : List Statement}
      (read : bodyLine line = .ok (.label t)) (more : BodyWith P lines ss rest) :
      BodyWith P (line :: lines) (.label t :: ss) rest
  | instruction {line : Text} {lines rest : List Text} {word : Text} {args : List Text} {op : Opcode}
      {as : List Argument} {ss : List Statement}
      (read : bodyLine line = .ok (.instruction word args))
      (told : readInstruction word args = .ok (op, as)) (more : BodyWith P lines ss rest) :
      BodyWith P (line :: lines) (.instruction op as :: ss) rest
  | handler {line : Text} {lines rest : List Text} {isFinally : Bool} {args : List Text}
      {h : HandlerLine} {ss : List Statement}
      (read : bodyLine line = .ok (.handler isFinally args))
      (told : parseHandler isFinally args = .ok h) (more : BodyWith P lines ss rest) :
      BodyWith P (line :: lines) (.handler h :: ss) rest
  | nested {line : Text} {lines between rest : List Text} {d : Draft} {inner : List Statement}
      {c : Code} {ss : List Statement} (read : bodyLine line = .ok .nested)
      (opened : openFunction (Text.fields line) = .ok d) (body : BodyWith P lines inner between)
      (finished : (inner.foldl Draft.say d).finish = .ok c) (holds : P c inner)
      (more : BodyWith P between ss rest) : BodyWith P (line :: lines) (.nested c :: ss) rest

theorem isEntered_of_body {lines rest : List Text} {ss : List Statement} (h : Body lines ss rest) :
    ∀ st ∈ ss, st.IsEntered := by
  induction h with
  | close _ => simp
  | label _ _ ih => exact List.forall_mem_cons.2 ⟨trivial, ih⟩
  | handler _ _ _ ih => exact List.forall_mem_cons.2 ⟨trivial, ih⟩
  | nested _ _ _ _ _ _ ih => exact List.forall_mem_cons.2 ⟨trivial, ih⟩
  | instruction _ hread _ ih => exact List.forall_mem_cons.2 ⟨read_of_readInstruction hread fun _ _ => trivial, ih⟩

theorem account_of_body {lines rest : List Text} {ss : List Statement} {d : Draft} {c : Code}
    (h : Body lines ss rest) (hfresh : d.Fresh) (hfinish : (ss.foldl Draft.say d).finish = .ok c) :
    Account c ss :=
  account_of_finish hfresh (fun st hst => (isEntered_of_body h st hst).suits) hfinish

variable {P : Code → List Statement → Prop}

/-- What holds of every code that has the instructions of what its lines say holds of the functions
inside a function. -/
theorem bodyWith_of_body
    (hP : ∀ c ss, Account c ss → Small c → (∀ st ∈ ss, st.IsEntered) → P c ss)
    {lines rest : List Text} {ss : List Statement} (h : Body lines ss rest)
    (hsmall : ∀ c ∈ nestedOf ss, ∀ e, some e ∈ c.walk → Small e) : BodyWith P lines ss rest := by
  induction h with
  | close hline => exact .close hline
  | label hline _ ih => exact .label hline (ih hsmall)
  | instruction hline hread _ ih => exact .instruction hline hread (ih hsmall)
  | handler hline hread _ ih => exact .handler hline hread (ih hsmall)
  | @nested line lines between rest d inner c ss hline hopen hbody hfinish _ ih ih' =>
    obtain ⟨hc, hmore⟩ := List.forall_mem_cons.1 (show ∀ e ∈ c :: nestedOf ss, _ from hsmall)
    have haccount := account_of_body hbody (openFunction_fresh hopen).1 hfinish
    have hinner : ∀ e ∈ nestedOf inner, ∀ e', some e' ∈ e.walk → Small e' := fun e he e' he' =>
      hc e' (Code.mem_walk.2 (.inr ⟨e, by rw [haccount.codes]; exact List.mem_map_of_mem he, he'⟩))
    exact .nested hline hopen (ih hinner) hfinish
      (hP c inner haccount (hc c (Code.mem_walk.2 (.inl rfl))) (isEntered_of_body hbody)) (ih' hmore)

/-- What holds of every code that has the instructions of what its lines say holds of all functions of
a text. -/
theorem functions_of_parse
    (hP : ∀ c ss, Account c ss → Small c → (∀ st ∈ ss, st.IsEntered) → P c ss)
    {source : Text} {c : Code} (h : parse source = .ok c)
    (hsmall : ∀ e, some e ∈ c.walk → Small e) :
    ∃ line lines ss, significantLines source = line :: lines ∧
      BodyWith P (lines.map Line.text) ss [] ∧ P c ss := by
  obtain ⟨line, lines, words, d, ss, hlines, -, hopen, hbody, hfinish⟩ := body_of_parse h
  have haccount := account_of_body hbody (openFunction_fresh hopen).1 hfinish
  refine ⟨line, lines, ss, hlines, bodyWith_of_body hP hbody fun e he e' he' => ?_, ?_⟩
  · exact hsmall e'
      (Code.mem_walk.2 (.inr ⟨e, by rw [haccount.codes]; exact List.mem_map_of_mem he, he'⟩))
  · exact hP c ss haccount (hsmall c (Code.mem_walk.2 (.inl rfl))) (isEntered_of_body hbody)

/-- In a program that was read every operand of every function reads back as it was written, but for
numbers that do not fit their words and `a32767` in packed operands. -/
theorem operands_kept (source : Text) (c : Code) (h : parse source = .ok c)
    (hsmall : ∀ d, some d ∈ c.walk → d.data.size < 2 ^ 32 ∧ d.codes.length ≤ 2 ^ 32) :
    ∃ line lines ss, significantLines source = line :: lines ∧
      BodyWith Keeps (lines.map Line.text) ss [] ∧ Keeps c ss :=
  functions_of_parse (fun _ _ haccount hsmall => haccount.keeps hsmall) h
    fun d hd => ⟨(hsmall d hd).1, (hsmall d hd).2⟩

/-- A number, a jump and a name. -/
def counting : Text := "function f regs=1
a:
LOAD_INT32 r0, -5
IF_TRUE r0, a
LOAD_GLOBAL r0, n
end"

theorem operands_kept_counting : ∃ c line lines ss, parse counting = .ok c ∧
    significantLines counting = line :: lines ∧ BodyWith Keeps (lines.map Line.text) ss [] ∧
    Keeps c ss := by
  have hsample : ((parse counting).toOption.map fun c => c.walk.all fun o => o.all fun d =>
      decide (d.data.size < 2 ^ 32) && decide (d.codes.length ≤ 2 ^ 32)) = some true := by
    decide +kernel
  obtain ⟨c, hparse, hall⟩ := Option.map_eq_some_iff.1 hsample
  have hok := ok_of_toOption hparse
  obtain ⟨line, lines, ss, hlines, hbody, hkeeps⟩ := operands_kept counting c hok fun d hd => by
    have hd := List.all_eq_true.1 hall _ hd
    simpa only [Option.all_some, Bool.and_eq_true, decide_eq_true_eq] using hd
  exact ⟨c, line, lines, ss, hok, hlines, hbody, hkeeps⟩

deriving instance DecidableEq for Argument

/-- A number of 33 bits. -/
def wide : Text := "function f regs=1
LOAD_INT32 r0, 4294967297
end"

/-- The farthest argument register in a packed operand. -/
def far : Text := "function f regs=1
STORE_OBJECT_DATA a32767, r0, 0, n
end"

/-- A number that does not fit its word and a register that does not fit its part of a packed operand
are read back as others. -/
theorem operands_altered :
    ((readInstruction "LOAD_INT32" ["r0", "4294967297"]).toOption =
        some (.loadInt32, [.register (.ofNat 0), .number 4294967297]) ∧
      ∃ c, parse wide = .ok c ∧
        (Stream.instructions c.data).map (fun ins => (ins.opcode, (ins.i32 1).toInt)) =
          [(.loadInt32, 1)]) ∧
    (readInstruction "STORE_OBJECT_DATA" ["a32767", "r0", "0", "n"]).toOption =
        some (.storeObject .data, [.packed (.arg 32767) (.ofNat 0) 0, .name "n"]) ∧
      ∃ c, parse far = .ok c ∧
        (Stream.instructions c.data).map (fun ins => (ins.opcode, (Word.unpack (ins.operand 0)).1)) =
          [(.storeObject .data, .ofNat 32767)] := by
  have hwide : (parse wide).toOption.map (fun c => (Stream.instructions c.data).map fun ins =>
      (ins.opcode, (ins.i32 1).toInt)) = some [(.loadInt32, 1)] := by decide +kernel
  have hfar : (parse far).toOption.map (fun c => (Stream.instructions c.data).map fun ins =>
      (ins.opcode, (Word.unpack (ins.operand 0)).1)) = some [(.storeObject .data, .ofNat 32767)] := by
    decide +kernel
  obtain ⟨c, hc, hread⟩ := Option.map_eq_some_iff.1 hwide
  obtain ⟨c', hc', hread'⟩ := Option.map_eq_some_iff.1 hfar
  exact ⟨⟨by decide +kernel, c, ok_of_toOption hc, hread⟩, by decide +kernel, c', ok_of_toOption hc',
    hread'⟩

end Listing

end RegisterJit
