import Mathlib.Data.List.Nodup
import RegisterJit.Proofs.Completion
import RegisterJit.Bytecode.Listing

/-!
# The statements of a finished code

A code can be told again: each instruction with the literals, the names and the labels that its operand
words stand for, a label at every place that a jump or a handler refers to, then the handlers and the
nested functions. Entering the literals and the names once more fills the tables in the same order, and
labels named after places have these places, so what is told again spells the code it was taken from.

`told` computes statements from a code, and `Account` relates a code to the statements that it was read from.
The two lists of statements need not be equal, since labels have other names and literals may be told
differently, but they spell the same words: `words_told`. On the way, each argument is shown to be read again as
the same word (`Account.arguments_again`), labels to stand at the same places (`labels_toldInstructions`), and
tables to be filled in the same order. `Listings` prints what is told here, and `Requests` uses the lemmas about
words.
-/

namespace RegisterJit

theorem ok_of_toOption {ε α : Type} {x : Except ε α} {a : α} (h : x.toOption = some a) : x = .ok a := by
  cases x with
  | error e => cases h
  | ok b => exact congrArg Except.ok (Option.some.inj h)

/-! ## Words read and written -/

namespace Word

theorem u32_ofUInt32 (u : UInt32) : u32 (ofUInt32 u) = u := by simp [u32, ofUInt32]

theorem i32_ofInt32 (i : Int32) : i32 (ofInt32 i) = i := by simp [i32, ofInt32]

/-- The word of a number is the word of the number that it is read as. -/
theorem ofInt_i32 (u : UInt32) : UInt32.ofInt (i32 (ofUInt32 u)).toInt = u := by
  have hread : i32 (ofUInt32 u) = u.toInt32 := congrArg UInt32.toInt32 (u32_ofUInt32 u)
  have hint : u.toInt32.toInt = if 2 * u.toNat < 2 ^ 32 then (u.toNat : Int) else u.toNat - 2 ^ 32 :=
    BitVec.toInt_eq_toNat_cond ..
  have hlt := u.toNat_lt
  apply UInt32.toNat.inj
  rw [hread, UInt32.ofInt, UInt32.toNat_ofNat', hint]
  split <;> omega

theorem ofInt_u32 (u : UInt32) : UInt32.ofInt (u32 (ofUInt32 u)).toNat = u := by
  have hlt := u.toNat_lt
  apply UInt32.toNat.inj
  rw [u32_ofUInt32, UInt32.ofInt, UInt32.toNat_ofNat']
  omega

theorem toUInt16_quarter (u : UInt16) : (quarter u).index.toUInt32.toUInt16 = u := by
  apply UInt16.eq_of_toBitVec_eq
  change (u.toBitVec.signExtend 32).setWidth 16 = u.toBitVec
  apply BitVec.eq_of_getLsbD_eq
  intro i hi
  simp [BitVec.getLsbD_signExtend, hi]
  omega

theorem pack_unpack (w : Word) : pack (unpack w).1 (unpack w).2.1 (unpack w).2.2 = w := by
  rw [pack, unpack, toUInt16_quarter, toUInt16_quarter]
  apply UInt64.eq_of_toBitVec_eq
  change (w.toBitVec.setWidth 16).setWidth 64 |||
    (((w.toBitVec >>> 16).setWidth 16).setWidth 64) <<< 16 |||
    (((w.toBitVec >>> 32).setWidth 32).setWidth 64) <<< 32 = w.toBitVec
  apply BitVec.eq_of_getLsbD_eq
  intro i hi
  simp only [BitVec.getLsbD_or, BitVec.getLsbD_setWidth, BitVec.getLsbD_shiftLeft,
    BitVec.getLsbD_ushiftRight]
  rcases Nat.lt_or_ge i 16 with h | h
  · simp [h, hi]
    omega
  rcases Nat.lt_or_ge i 32 with h' | h'
  · have hback : 16 + (i - 16) = i := by omega
    simp [hi, hback, Nat.not_lt.2 h, h', show i - 16 < 16 by omega, show i - 16 < 64 by omega]
  · have hback : 32 + (i - 32) = i := by omega
    simp [hi, hback, Nat.not_lt.2 h, Nat.not_lt.2 h', show ¬ i - 16 < 16 by omega,
      show i - 32 < 32 by omega, show i - 32 < 64 by omega]

theorem u32_ofUInt32_ofInt {n : Nat} (h : n < 2 ^ 32) :
    (u32 (ofUInt32 (UInt32.ofInt n))).toNat = n := by
  rw [u32_ofUInt32, UInt32.ofInt, UInt32.toNat_ofNat']
  omega

end Word

/-! ## Tables entered once more -/

namespace Tables

/-- Tables that others begin with. -/
structure Below (T F : Tables) : Prop where
  constants : ∀ (i : Nat) (k : Constant), T.constants[i]? = some k → F.constants[i]? = some k
  names : ∀ (i : Nat) (t : Text), T.names[i]? = some t → F.names[i]? = some t

theorem Below.refl (T : Tables) : T.Below T := ⟨fun _ _ h => h, fun _ _ h => h⟩

theorem Below.trans {T T' F : Tables} (h : T.Below T') (h' : T'.Below F) : T.Below F :=
  ⟨fun i k hk => h'.constants i k (h.constants i k hk), fun i t ht => h'.names i t (h.names i t ht)⟩

theorem below_constant (T : Tables) (k : Constant) : T.Below (T.constant k).2 := by
  rw [constant]
  cases T.constants.findIdx? fun have_ => have_.same k with
  | some i => exact .refl T
  | none =>
    refine ⟨fun i k' hk => ?_, fun _ _ h => h⟩
    have hlt := (Array.getElem?_eq_some_iff.1 hk).1
    rw [Array.getElem?_push_lt hlt, ← Array.getElem?_eq_getElem hlt, hk]

theorem below_name (T : Tables) (t : Text) : T.Below (T.name t).2 := by
  rw [name]
  cases T.names.idxOf? t with
  | some i => exact .refl T
  | none =>
    refine ⟨fun _ _ h => h, fun i t' ht => ?_⟩
    have hlt := (Array.getElem?_eq_some_iff.1 ht).1
    rw [Array.getElem?_push_lt hlt, ← Array.getElem?_eq_getElem hlt, ht]

end Tables

/-- What is the same as a literal is the same as itself, and as what else is the same as it. -/
theorem Constant.same_of_same {a b : Constant} (h : a.same b = true) (c : Constant) :
    c.same a = c.same b := by
  simp only [same, Bool.and_eq_true, beq_iff_eq] at h
  obtain ⟨⟨hkind, hnumber⟩, htext⟩ := h
  simp only [Double.eq, Bool.and_eq_true, Bool.not_eq_true', beq_iff_eq] at hnumber
  obtain ⟨⟨ha, hb⟩, hkey⟩ := hnumber
  rw [same, same, Double.eq, Double.eq, hkind, htext, ha, hb, hkey]

namespace Tables

theorem constant_again {T F : Tables} (k : Constant) (h : (T.constant k).2.Below F) :
    ∃ k', F.constants[(T.constant k).1]? = some k' ∧ T.constant k' = T.constant k := by
  rw [constant] at h ⊢
  cases hfind : T.constants.findIdx? fun have_ => have_.same k with
  | some i =>
    rw [hfind] at h
    obtain ⟨hi, hsame, -⟩ := Array.findIdx?_eq_some_iff_getElem.1 hfind
    refine ⟨T.constants[i], h.constants i _ (Array.getElem?_eq_getElem hi), ?_⟩
    have hpredicate : (fun have_ : Constant => have_.same T.constants[i]) =
        fun have_ => have_.same k := funext (Constant.same_of_same hsame)
    rw [constant, hpredicate, hfind]
  | none =>
    rw [hfind] at h
    refine ⟨k, h.constants _ k Array.getElem?_push_size, ?_⟩
    rw [constant, hfind]

theorem name_again {T F : Tables} (t : Text) (h : (T.name t).2.Below F) :
    F.names[(T.name t).1]? = some t := by
  rw [name] at h ⊢
  cases hfind : T.names.idxOf? t with
  | some i =>
    rw [hfind] at h
    rw [Array.idxOf?_eq_map_finIdxOf?_val, Option.map_eq_some_iff] at hfind
    obtain ⟨j, hj, rfl⟩ := hfind
    have heq := (Array.finIdxOf?_eq_some_iff.1 hj).1
    exact h.names j t (by rw [Array.getElem?_eq_getElem j.isLt]; exact congrArg some heq)
  | none =>
    rw [hfind] at h
    exact h.names _ t Array.getElem?_push_size

end Tables

/-! ## Jumps -/

theorem Instruction.target?_of_mem {ins : Instruction} {w : Word} (h : (.jump, w) ∈ ins.operands) :
    ins.target? = some (ins.offset.toUInt32 + (Word.i32 w).toUInt32) := by
  obtain ⟨i, hi⟩ := List.mem_iff_getElem?.1 h
  obtain ⟨hkind, hw⟩ := List.getElem?_zip_eq_some.1 hi
  have hoperand : ins.operand i = w := by
    rw [List.getElem?_drop, Nat.add_comm] at hw
    rw [operand, List.getD_eq_getElem?_getD, hw, Option.getD_some]
  rw [target?, Opcode.jumpOperand?_of_format hkind, Option.map_some, i32, hoperand]

/-! ## Words read as instructions -/

/-- Words that begin with those of an instruction are read as the instruction and the rest. -/
theorem Stream.readFrom_part (before more : List Word) {op : Opcode} {ws : List Word}
    (hhead : ws.head? = some (Word.ofOpcode op)) (hlen : ws.length = op.length) :
    Stream.readFrom (before ++ (ws ++ more)).toArray before.length =
      (⟨before.length, op, ws⟩ ::
          (Stream.readFrom (before ++ (ws ++ more)).toArray (before.length + op.length)).1,
        (Stream.readFrom (before ++ (ws ++ more)).toArray (before.length + op.length)).2) := by
  have hpos := op.length_pos
  have hword : (before ++ (ws ++ more)).toArray[before.length]? = some (Word.ofOpcode op) := by
    rw [List.getElem?_toArray, List.getElem?_append_right (Nat.le_refl _), Nat.sub_self,
      List.getElem?_append_left (by omega), ← List.head?_eq_getElem?, hhead]
  have hsize : before.length + op.length ≤ (before ++ (ws ++ more)).toArray.size := by
    simp only [List.size_toArray, List.length_append, hlen]
    omega
  have hextract : ((before ++ (ws ++ more)).toArray.extract before.length
      (before.length + op.length)).toList = ws := by
    rw [Array.toList_extract, List.extract_eq_take_drop, Nat.add_sub_cancel_left,
      List.drop_left, ← hlen, List.take_left]
  conv_lhs => rw [Stream.readFrom]
  rw [dif_pos (by omega), Stream.readOne_of_word hword hsize]
  simp only [Stream.instructionAt, hextract]

/-! ## Handlers as lines -/

/-- A handler as a line gives it: with registers that can be written, or with none. -/
def Handler.IsWritten (h : Handler) : Prop :=
  h.kind = kindFinally ∧ h.jump.IsWritten ∧ h.flag.IsWritten ∨
    h.kind = kindCatch ∧ h.jump = Register.invalid ∧ h.flag = Register.invalid

namespace Listing

/-! ## Instructions of statements -/

namespace Statement

def IsAside : Statement → Prop
  | .instruction .. => False
  | _ => True

theorem IsAside.suits {st : Statement} (h : st.IsAside) : st.Suits := by
  cases st with
  | instruction => exact h.elim
  | _ => trivial

/-- The instruction that a statement at word `start` gives. -/
def instructionAt (w : Spelling) (start : Nat) (T : Tables) : Statement → List Instruction
  | .instruction op as => [⟨start, op, (Statement.instruction op as).words w start T⟩]
  | _ => []

end Statement

theorem spells_aside (w : Spelling) (start : Nat) (T : Tables) {part : List Statement}
    (hpart : ∀ st ∈ part, st.IsAside) : wordsFrom w start T part = [] ∧ enterAll T part = T := by
  induction part generalizing start with
  | nil => exact ⟨rfl, rfl⟩
  | cons st part ih =>
    obtain ⟨hst, hrest⟩ := List.forall_mem_cons.1 hpart
    cases st with
    | instruction => exact hst.elim
    | _ => exact ih start hrest

theorem mem_placesFrom {α : Type} {f : Argument → Option α} {place : Nat} {as : List Argument}
    {p : Nat × α} (h : p ∈ placesFrom f place as) : ∃ a ∈ as, f a = some p.2 := by
  induction as generalizing place with
  | nil => cases h
  | cons a as ih =>
    rw [placesFrom, List.mem_append] at h
    rcases h with h | h
    · obtain ⟨x, hx, rfl⟩ := Option.map_eq_some_iff.1 (Option.mem_toList.1 h)
      exact ⟨a, List.mem_cons_self .., hx⟩
    · obtain ⟨b, hb, hf⟩ := ih h
      exact ⟨b, List.mem_cons_of_mem _ hb, hf⟩

theorem exists_placesFrom {α : Type} {f : Argument → Option α} (place : Nat) {as : List Argument}
    {a : Argument} {x : α} (ha : a ∈ as) (hf : f a = some x) : ∃ p ∈ placesFrom f place as, p.2 = x := by
  induction as generalizing place with
  | nil => cases ha
  | cons b as ih =>
    rw [placesFrom]
    rcases List.mem_cons.1 ha with rfl | ha
    · exact ⟨(place, x), List.mem_append_left _ (by rw [hf]; simp), rfl⟩
    · obtain ⟨p, hp, heq⟩ := ih (place + 1) ha
      exact ⟨p, List.mem_append_right _ hp, heq⟩

theorem mem_collectFrom {α : Type} {f : Nat → Statement → List α} {start : Nat}
    {ss : List Statement} {x : α} (h : x ∈ collectFrom f start ss) : ∃ st ∈ ss, ∃ s, x ∈ f s st := by
  induction ss generalizing start with
  | nil => cases h
  | cons st ss ih =>
    rw [collectFrom, List.mem_append] at h
    rcases h with h | h
    · exact ⟨st, List.mem_cons_self .., start, h⟩
    · obtain ⟨st', hst', s, hx⟩ := ih h
      exact ⟨st', List.mem_cons_of_mem _ hst', s, hx⟩

theorem exists_collectFrom {α : Type} (f : Nat → Statement → List α) (start : Nat)
    {ss : List Statement} {st : Statement} (h : st ∈ ss) :
    ∃ s, ∀ x ∈ f s st, x ∈ collectFrom f start ss := by
  induction ss generalizing start with
  | nil => cases h
  | cons first ss ih =>
    rw [collectFrom]
    rcases List.mem_cons.1 h with rfl | h
    · exact ⟨start, fun x hx => List.mem_append_left _ hx⟩
    · obtain ⟨s, hs⟩ := ih (start + first.extent) h
      exact ⟨s, fun x hx => List.mem_append_right _ (hs x hx)⟩

/-- The instructions that statements give, from word `start` on. -/
def instructionsFrom (w : Spelling) : (start : Nat) → Tables → List Statement → List Instruction
  | _, _, [] => []
  | start, T, st :: ss =>
    st.instructionAt w start T ++ instructionsFrom w (start + st.extent) (st.enter T) ss

theorem readFrom_words (w : Spelling) (T : Tables) (before : List Word) {ss : List Statement}
    (hss : ∀ st ∈ ss, st.Suits) :
    Stream.readFrom (before ++ wordsFrom w before.length T ss).toArray before.length =
      (instructionsFrom w before.length T ss, none) := by
  induction ss generalizing before T with
  | nil =>
    rw [Stream.readFrom, dif_neg (by simp [wordsFrom])]
    rfl
  | cons st ss ih =>
    obtain ⟨hst, hss⟩ := List.forall_mem_cons.1 hss
    have hrest := ih (st.enter T) (before ++ st.words w before.length T) hss
    rw [List.length_append, Statement.length_words w before.length T hst, List.append_assoc] at hrest
    cases st with
    | instruction op as =>
      have hlen : ((Statement.instruction op as).words w before.length T).length = op.length :=
        Statement.length_words w before.length T hst
      rw [wordsFrom, Stream.readFrom_part before _ rfl hlen]
      rw [show (Statement.instruction op as).extent = op.length from rfl] at hrest ⊢
      rw [hrest]
      rfl
    | _ => exact hrest

theorem instructions_words (w : Spelling) {ss : List Statement} (hss : ∀ st ∈ ss, st.Suits) :
    Stream.instructions (wordsFrom w 0 .empty ss).toArray = instructionsFrom w 0 .empty ss := by
  have h := readFrom_words w .empty [] hss
  rw [List.nil_append, List.length_nil] at h
  rw [Stream.instructions, Stream.read, h]

/-! ## Telling a code again -/

section Telling

variable (c : Code)

def argumentOf (ins : Instruction) (kind : OperandKind) (w : Word) : Argument :=
  match kind with
  | .register => .register (Word.reg w)
  | .signed => .number (Word.i32 w).toInt
  | .unsigned => .number (Word.u32 w).toNat
  | .constant => .constant (c.constants.getD (Word.u32 w).toNat default)
  | .name => .name (c.names.getD (Word.u32 w).toNat [])
  | .code => .code (((c.codes.getD (Word.u32 w).toNat none).map Code.name).getD [])
  | .jump => .jump (labelText (ins.target?.getD 0).toNat)
  | .packed => .packed (Word.unpack w).1 (Word.unpack w).2.1 (Word.unpack w).2.2

def statementOf (ins : Instruction) : Statement :=
  .instruction ins.opcode (ins.operands.map fun (kind, w) => argumentOf c ins kind w)

def labelsAt (marks : List Nat) (n : Nat) : List Statement :=
  if marks.contains n then [.label (labelText n)] else []

/-- What the instructions of a code say, with labels at marked places. -/
def toldInstructions (marks : List Nat) (is : List Instruction) : List Statement :=
  is.flatMap fun ins => labelsAt marks ins.offset ++ [statementOf c ins]

def lineOf (h : Handler) : HandlerLine where
  isFinally := h.kind == Handler.kindFinally
  start := labelText h.start.toNat
  stop := labelText h.stop.toNat
  jump := h.jump
  flag := h.flag
  level := h.level

/-- What a code says. -/
def told : List Statement :=
  toldInstructions c (labelled c) (Stream.instructions c.data) ++
    labelsAt (labelled c) c.data.size ++
    c.handlers.toList.map (fun h => .handler (lineOf h)) ++
    c.codes.filterMap fun o => o.map .nested

end Telling

theorem below_enter (T : Tables) (a : Argument) : T.Below (a.enter T) := by
  cases a with
  | constant k => exact T.below_constant k
  | name t => exact T.below_name t
  | _ => exact .refl T

theorem below_enterArguments (T : Tables) (as : List Argument) : T.Below (enterArguments T as) := by
  induction as generalizing T with
  | nil => exact .refl T
  | cons a as ih => exact (below_enter T a).trans (ih (a.enter T))

theorem below_enterAll (T : Tables) (ss : List Statement) : T.Below (enterAll T ss) := by
  induction ss generalizing T with
  | nil => exact .refl T
  | cons st ss ih =>
    refine Tables.Below.trans ?_ (ih (st.enter T))
    cases st with
    | instruction op as => exact below_enterArguments T as
    | _ => exact .refl T

theorem size_enterArguments_le (T : Tables) (as : List Argument) :
    (enterArguments T as).constants.size ≤ T.constants.size + as.length ∧
      (enterArguments T as).names.size ≤ T.names.size + as.length := by
  induction as generalizing T with
  | nil => exact ⟨Nat.le_refl _, Nat.le_refl _⟩
  | cons a as ih =>
    have hone : (a.enter T).constants.size ≤ T.constants.size + 1 ∧
        (a.enter T).names.size ≤ T.names.size + 1 := by
      cases a with
      | constant k =>
        rw [Argument.enter, Tables.constant]
        cases T.constants.findIdx? fun have_ => have_.same k <;> simp
      | name t =>
        rw [Argument.enter, Tables.name]
        cases T.names.idxOf? t <;> simp
      | _ => exact ⟨Nat.le_succ _, Nat.le_succ _⟩
    have hrest := ih (a.enter T)
    rw [enterArguments, List.foldl_cons, ← enterArguments, List.length_cons]
    omega

theorem size_enterAll_le (T : Tables) {ss : List Statement} (hss : ∀ st ∈ ss, st.Suits) :
    (enterAll T ss).constants.size ≤ T.constants.size + extentOf ss ∧
      (enterAll T ss).names.size ≤ T.names.size + extentOf ss := by
  induction ss generalizing T with
  | nil => exact ⟨Nat.le_refl _, Nat.le_refl _⟩
  | cons st ss ih =>
    obtain ⟨hst, hss⟩ := List.forall_mem_cons.1 hss
    have hrest := ih (st.enter T) hss
    have hone : (st.enter T).constants.size ≤ T.constants.size + st.extent ∧
        (st.enter T).names.size ≤ T.names.size + st.extent := by
      cases st with
      | instruction op as =>
        have hargs := size_enterArguments_le T as
        have hlen : op.format.length = as.length := List.Forall₂.length_eq hst
        rw [Statement.enter, Statement.extent, Opcode.length]
        omega
      | _ => exact ⟨Nat.le_refl _, Nat.le_refl _⟩
    rw [enterAll, List.foldl_cons, ← enterAll, extentOf, List.map_cons, List.sum_cons, ← extentOf]
    omega

theorem ofInt_target (start : Nat) (x : Int32) :
    Int32.ofInt (((start.toUInt32 + x.toUInt32).toNat : Int) - start) = x := by
  have hx : x.toInt = if 2 * x.toUInt32.toNat < 2 ^ 32 then (x.toUInt32.toNat : Int)
      else x.toUInt32.toNat - 2 ^ 32 := BitVec.toInt_eq_toNat_cond ..
  have hlt := x.toUInt32.toNat_lt
  have hstart : start.toUInt32.toNat = start % 2 ^ 32 := by
    rw [Nat.toUInt32_eq, UInt32.toNat_ofNat']
  apply Int32.toInt.inj
  rw [Int32.toInt_ofInt, UInt32.toNat_add, hstart, hx, Int.bmod]
  have hsize : Int32.size = 2 ^ 32 := rfl
  rw [hsize]
  split <;> split <;> omega

theorem toUInt32_displacement (start n : Nat) :
    start.toUInt32 + (Int32.ofInt ((n : Int) - start)).toUInt32 = n.toUInt32 := by
  apply UInt32.toNat.inj
  have hlt := (Int32.ofInt ((n : Int) - start)).toUInt32.toNat_lt
  have hx : (Int32.ofInt ((n : Int) - start)).toInt =
      if 2 * (Int32.ofInt ((n : Int) - start)).toUInt32.toNat < 2 ^ 32 then
        ((Int32.ofInt ((n : Int) - start)).toUInt32.toNat : Int)
      else (Int32.ofInt ((n : Int) - start)).toUInt32.toNat - 2 ^ 32 := BitVec.toInt_eq_toNat_cond ..
  have hsize : Int32.size = 2 ^ 32 := rfl
  rw [Int32.toInt_ofInt, Int.bmod, hsize] at hx
  rw [UInt32.toNat_add, Nat.toUInt32_eq, Nat.toUInt32_eq, UInt32.toNat_ofNat', UInt32.toNat_ofNat']
  split at hx <;> split at hx <;> omega

/-- The sizes of a code can be told in 32 bits. -/
structure Small (c : Code) : Prop where
  data : c.data.size < 2 ^ 32
  codes : c.codes.length ≤ 2 ^ 32

/-- A code whose instructions and tables are those of statements. -/
structure Account (c : Code) (ss : List Statement) : Prop where
  suits : ∀ st ∈ ss, st.Suits
  linkable : Linkable ss
  data : c.data = (wordsFrom (.linked ss) 0 .empty ss).toArray
  constants : c.constants = (enterAll .empty ss).constants
  names : c.names = (enterAll .empty ss).names
  codes : c.codes = (nestedOf ss).map some

theorem lookup_childrenOf {cs : List Code} {t : Text} (h : t ∈ cs.map Code.name) :
    ∃ (i : Nat) (d : Code), (childrenOf cs).lookup t = some i ∧ cs[i]? = some d ∧ d.name = t := by
  obtain ⟨i, hi⟩ := Option.isSome_iff_exists.1 (isSome_lookup_childrenOf.2 h)
  have hmem := Draft.mem_of_lookup hi
  rw [childrenOf, List.mem_reverse, List.mem_map] at hmem
  obtain ⟨⟨d, j⟩, hd, heq⟩ := hmem
  cases heq
  exact ⟨i, d, hi, List.mk_mem_zipIdx_iff_getElem?.1 hd, rfl⟩

section Again

variable {c : Code} {ss : List Statement}

theorem Account.code_of_word (h : Account c ss) (hsmall : Small c) {t : Text}
    (ht : t ∈ (nestedOf ss).map Code.name) :
    ∃ d ∈ nestedOf ss, c.codes.getD (Word.u32 (codeWord (nestedOf ss) t)).toNat none = some d ∧
      d.name = t := by
  obtain ⟨i, d, hlookup, hd, hname⟩ := lookup_childrenOf ht
  have hlt : i < 2 ^ 32 := by
    have := (List.getElem?_eq_some_iff.1 hd).1
    have hcodes := hsmall.codes
    rw [h.codes, List.length_map] at hcodes
    omega
  have hindex : (Word.u32 (codeWord (nestedOf ss) t)).toNat = i := by
    rw [codeWord, hlookup, Option.getD_some, Word.u32_ofUInt32, Nat.toUInt32_eq, UInt32.toNat_ofNat']
    omega
  refine ⟨d, List.mem_of_getElem? hd, ?_, hname⟩
  rw [hindex, h.codes, List.getD_eq_getElem?_getD, List.getElem?_map, hd]
  rfl

/-- What an operand stands for has its word and enters what was entered. -/
theorem Account.argument_again (h : Account c ss) (hsmall : Small c)
    (hconstants : c.constants.size ≤ 2 ^ 32) (hnames : c.names.size ≤ 2 ^ 32) {ins : Instruction}
    {kind : OperandKind} {a : Argument} (hsuits : a.Suits kind) {start : Nat} {T : Tables}
    (hbelow : (a.enter T).Below ⟨c.constants, c.names⟩)
    (hreference : ∀ t, a = .code t → t ∈ (nestedOf ss).map Code.name)
    (htarget : kind = .jump → ins.target? =
      some (start.toUInt32 + (Word.i32 (a.word (.linked ss) start T)).toUInt32))
    {v w : Spelling} (hsame : v.jump = jumpWord (placeIn ss)) (hcode : w.code = v.code)
    (hjump : ∀ n, ins.target? = some n → w.jump start (labelText n.toNat) =
      Word.ofInt32 (Int32.ofInt ((n.toNat : Int) - start))) :
    (argumentOf c ins kind (a.word (.linked ss) start T)).Suits kind ∧
      (argumentOf c ins kind (a.word (.linked ss) start T)).word w start T = a.word v start T ∧
      (argumentOf c ins kind (a.word (.linked ss) start T)).enter T = a.enter T := by
  cases a <;> cases kind <;> try exact hsuits.elim
  case register.register r =>
    refine ⟨trivial, ?_, rfl⟩
    change Word.ofRegister (Word.reg (Word.ofRegister r)) = _
    rw [Word.reg_ofRegister]
    rfl
  case packed.packed a b n => exact ⟨trivial, Word.pack_unpack _, rfl⟩
  case number.signed i => exact ⟨trivial, congrArg Word.ofUInt32 (Word.ofInt_i32 _), rfl⟩
  case number.unsigned i => exact ⟨trivial, congrArg Word.ofUInt32 (Word.ofInt_u32 _), rfl⟩
  case constant.constant k =>
    obtain ⟨k', hk, hagain⟩ := Tables.constant_again k hbelow
    have hlt := (Array.getElem?_eq_some_iff.1 hk).1
    have hindex : (Word.u32 ((Argument.constant k).word (.linked ss) start T)).toNat =
        (T.constant k).1 := Word.u32_ofUInt32_ofInt (Nat.lt_of_lt_of_le hlt hconstants)
    have harg : argumentOf c ins .constant ((Argument.constant k).word (.linked ss) start T) =
        .constant k' := by
      rw [argumentOf, hindex, Array.getD_eq_getD_getElem?, hk, Option.getD_some]
    rw [harg]
    refine ⟨trivial, ?_, ?_⟩
    · rw [Argument.word, Argument.word, hagain]
    · rw [Argument.enter, Argument.enter, hagain]
  case name.name t =>
    have ht := Tables.name_again t hbelow
    have hlt := (Array.getElem?_eq_some_iff.1 ht).1
    have hindex : (Word.u32 ((Argument.name t).word (.linked ss) start T)).toNat =
        (T.name t).1 := Word.u32_ofUInt32_ofInt (Nat.lt_of_lt_of_le hlt hnames)
    have harg : argumentOf c ins .name ((Argument.name t).word (.linked ss) start T) =
        .name t := by
      rw [argumentOf, hindex, Array.getD_eq_getD_getElem?, ht, Option.getD_some]
    rw [harg]
    exact ⟨trivial, rfl, rfl⟩
  case code.code t =>
    obtain ⟨d, -, hget, hname⟩ := h.code_of_word hsmall (hreference t rfl)
    have harg : argumentOf c ins .code ((Argument.code t).word (.linked ss) start T) = .code t := by
      change Argument.code (((c.codes.getD (Word.u32 (codeWord (nestedOf ss) t)).toNat none).map
        Code.name).getD []) = _
      rw [hget, Option.map_some, hname, Option.getD_some]
    rw [harg]
    exact ⟨trivial, congrFun hcode t, rfl⟩
  case jump.jump t =>
    have hn := htarget rfl
    refine ⟨trivial, ?_, rfl⟩
    change w.jump start (labelText (ins.target?.getD 0).toNat) = v.jump start t
    rw [hn, Option.getD_some, hjump _ hn, ofInt_target, hsame]
    change Word.ofInt32 (Word.i32 (Word.ofInt32 _)) = Word.ofInt32 _
    rw [Word.i32_ofInt32]

/-- What the operands of an instruction stand for has their words. -/
theorem Account.arguments_again (h : Account c ss) (hsmall : Small c)
    (hconstants : c.constants.size ≤ 2 ^ 32) (hnames : c.names.size ≤ 2 ^ 32) {ins : Instruction}
    {kinds : List OperandKind} {as : List Argument}
    (hsuits : List.Forall₂ (fun kind a => Argument.Suits a kind) kinds as) {start : Nat} {T : Tables}
    (hbelow : (enterArguments T as).Below ⟨c.constants, c.names⟩)
    (hreference : ∀ t, .code t ∈ as → t ∈ (nestedOf ss).map Code.name)
    (htarget : ∀ p ∈ kinds.zip (argumentWords (.linked ss) start T as), p.1 = .jump →
      ins.target? = some (start.toUInt32 + (Word.i32 p.2).toUInt32))
    {v w : Spelling} (hsame : v.jump = jumpWord (placeIn ss)) (hcode : w.code = v.code)
    (hjump : ∀ n, ins.target? = some n → w.jump start (labelText n.toNat) =
      Word.ofInt32 (Int32.ofInt ((n.toNat : Int) - start))) :
    ∃ as', ((kinds.zip (argumentWords (.linked ss) start T as)).map
        fun (kind, w) => argumentOf c ins kind w) = as' ∧
      List.Forall₂ (fun kind a => Argument.Suits a kind) kinds as' ∧
      argumentWords w start T as' = argumentWords v start T as ∧
      enterArguments T as' = enterArguments T as := by
  induction hsuits generalizing T with
  | nil => exact ⟨[], rfl, .nil, rfl, rfl⟩
  | @cons kind a kinds as hone hrest ih =>
    have hbelowRest : (enterArguments (a.enter T) as).Below ⟨c.constants, c.names⟩ := hbelow
    have hbelowOne : (a.enter T).Below ⟨c.constants, c.names⟩ :=
      (below_enterArguments (a.enter T) as).trans hbelowRest
    rw [argumentWords, List.zip_cons_cons] at htarget
    obtain ⟨htargetOne, htargetRest⟩ := List.forall_mem_cons.1 htarget
    obtain ⟨hkind, hword, henter⟩ := h.argument_again hsmall hconstants hnames hone hbelowOne
      (fun t ht => hreference t (by rw [ht]; exact List.mem_cons_self ..)) htargetOne hsame hcode hjump
    obtain ⟨as', heq, hkinds, hwords, hall⟩ := ih hbelowRest
      (fun t ht => hreference t (List.mem_cons_of_mem _ ht)) htargetRest
    refine ⟨_ :: as', ?_, .cons hkind hkinds, ?_, ?_⟩
    · rw [argumentWords, List.zip_cons_cons, List.map_cons, heq]
    · rw [argumentWords, argumentWords, hword, henter, hwords]
    · rw [enterArguments, List.foldl_cons, henter]
      exact hall

/-- The statements that `is` come to spell what the statements that gave `is` spell. -/
theorem Account.instructions_again (h : Account c ss) (hsmall : Small c)
    (hconstants : c.constants.size ≤ 2 ^ 32) (hnames : c.names.size ≤ 2 ^ 32) {v w : Spelling}
    (hsame : v.jump = jumpWord (placeIn ss)) (hcode : w.code = v.code) (marks : List Nat) {part : List Statement}
    (hsuits : ∀ st ∈ part, st.Suits) {start : Nat} {T : Tables}
    (hbelow : (enterAll T part).Below ⟨c.constants, c.names⟩)
    (hreference : ∀ op as t, .instruction op as ∈ part → .code t ∈ as →
      t ∈ (nestedOf ss).map Code.name)
    (hjump : ∀ ins ∈ instructionsFrom (.linked ss) start T part, ∀ n, ins.target? = some n →
      w.jump ins.offset (labelText n.toNat) =
        Word.ofInt32 (Int32.ofInt ((n.toNat : Int) - ins.offset))) :
    ∃ again, toldInstructions c marks (instructionsFrom (.linked ss) start T part) = again ∧
      (∀ st ∈ again, st.Suits) ∧
      wordsFrom w start T again = wordsFrom v start T part ∧
      enterAll T again = enterAll T part ∧ extentOf again = extentOf part := by
  induction part generalizing start T with
  | nil => exact ⟨[], rfl, by simp, rfl, rfl, rfl⟩
  | cons st part ih =>
    obtain ⟨hst, hrest⟩ := List.forall_mem_cons.1 hsuits
    rw [instructionsFrom] at hjump
    obtain ⟨again, heq, hagain, hwords, henter, hextent⟩ := ih hrest hbelow
      (fun op as t hmem => hreference op as t (List.mem_cons_of_mem _ hmem))
      (fun ins hins => hjump ins (List.mem_append_right _ hins))
    rw [instructionsFrom, toldInstructions, List.flatMap_append, ← toldInstructions,
      ← toldInstructions, heq]
    cases st with
    | instruction op as =>
      set ins : Instruction := ⟨start, op, (Statement.instruction op as).words (.linked ss) start T⟩
        with hins
      have hmem : ins ∈ (Statement.instruction op as).instructionAt (.linked ss) start T :=
        List.mem_singleton_self _
      have hoperands : ins.operands = op.format.zip (argumentWords (.linked ss) start T as) := rfl
      have htarget : ∀ p ∈ op.format.zip (argumentWords (.linked ss) start T as), p.1 = .jump →
          ins.target? = some (start.toUInt32 + (Word.i32 p.2).toUInt32) := by
        rintro ⟨kind, wd⟩ hp rfl
        exact Instruction.target?_of_mem hp
      obtain ⟨as', heqs, hsuits', hwords', henter'⟩ := h.arguments_again hsmall hconstants hnames hst
        ((below_enterAll _ part).trans hbelow)
        (fun t ht => hreference op as t (List.mem_cons_self ..) ht)
        htarget hsame hcode (hjump ins (List.mem_append_left _ hmem))
      have hlabels : (∀ st ∈ labelsAt marks start, st.Suits) ∧
          (∀ T, enterAll T (labelsAt marks start) = T) ∧ extentOf (labelsAt marks start) = 0 ∧
          ∀ T, wordsFrom w start T (labelsAt marks start) = [] := by
        rw [labelsAt]
        split
        · exact ⟨by simp [Statement.Suits], fun _ => rfl, rfl, fun _ => rfl⟩
        · exact ⟨by simp, fun _ => rfl, rfl, fun _ => rfl⟩
      obtain ⟨hl₁, hl₂, hl₃, hl₄⟩ := hlabels
      have hone : toldInstructions c marks ((Statement.instruction op as).instructionAt
          (.linked ss) start T) = labelsAt marks start ++ [.instruction op as'] := by
        rw [← heqs, ← hoperands]
        simp [toldInstructions, Statement.instructionAt, statementOf, hins]
      have hextents : extentOf (labelsAt marks start ++ [.instruction op as']) =
          (Statement.instruction op as).extent := by
        rw [extentOf_append, hl₃]
        simp [extentOf, Statement.extent]
      refine ⟨_, rfl, ?_, ?_, ?_, ?_⟩ <;> rw [hone]
      · intro st' hst'
        rcases List.mem_append.1 hst' with hst' | hst'
        · rcases List.mem_append.1 hst' with hst' | hst'
          · exact hl₁ st' hst'
          · rw [List.mem_singleton.1 hst']
            exact hsuits'
        · exact hagain st' hst'
      · have hfirst : wordsFrom w start T (labelsAt marks start ++ [.instruction op as']) =
            (Statement.instruction op as).words v start T := by
          rw [wordsFrom_append, hl₄, hl₂, hl₃, List.nil_append, wordsFrom, wordsFrom, List.append_nil]
          exact congrArg (Word.ofOpcode op :: ·) hwords'
        have htables : enterAll T (labelsAt marks start ++ [.instruction op as']) =
            (Statement.instruction op as).enter T := by
          rw [enterAll_append, hl₂]
          exact henter'
        rw [wordsFrom_append, hfirst, htables, hextents]
        exact congrArg (_ ++ ·) hwords
      · rw [enterAll_append, enterAll_append, hl₂]
        refine Eq.trans ?_ henter
        exact congrArg (enterAll · again) henter'
      · rw [extentOf_append, hextents, hextent]
        simp [extentOf]
    | _ => exact ⟨again, rfl, hagain, hwords, henter, by
        rw [hextent]
        simp [extentOf, Statement.extent]⟩

end Again

/-! ## Labels named after places -/

theorem labelText_inj {n m : Nat} (h : labelText n = labelText m) : n = m := by
  have htext : Text.ofNat n = Text.ofNat m := List.append_cancel_left h
  have hread (k : Nat) (hk : k ≤ n + m) : Numeral.unsigned (n + m) (Text.ofNat k) = .ok k :=
    Numeral.unsigned_ofNat (Nat.lt_of_lt_of_le Nat.lt_two_pow_self (Nat.pow_le_pow_right (by omega) hk))
  have hn := hread n (by omega)
  rw [htext, hread m (by omega)] at hn
  exact (Except.ok.inj hn).symm

section Places

variable (c : Code)

theorem offset_of_mem_instructionsFrom {w : Spelling} {start : Nat} {T : Tables}
    {part : List Statement} {ins : Instruction} (h : ins ∈ instructionsFrom w start T part) :
    start ≤ ins.offset ∧ ins.offset < start + extentOf part := by
  induction part generalizing start T with
  | nil => cases h
  | cons st part ih =>
    rw [extentOf, List.map_cons, List.sum_cons, ← extentOf]
    rw [instructionsFrom, List.mem_append] at h
    rcases h with h | h
    · cases st with
      | instruction op as =>
        rw [List.mem_singleton.1 h]
        have := op.length_pos
        simp only [Statement.extent]
        omega
      | _ => cases h
    · have := ih h
      omega

theorem pairwise_instructionsFrom (w : Spelling) (start : Nat) (T : Tables) (part : List Statement) :
    (instructionsFrom w start T part).Pairwise fun i j => i.offset < j.offset := by
  induction part generalizing start T with
  | nil => exact .nil
  | cons st part ih =>
    rw [instructionsFrom]
    cases st with
    | instruction op as =>
      refine List.pairwise_cons.2 ⟨fun ins hins => ?_, ih _ _⟩
      have hle := (offset_of_mem_instructionsFrom hins).1
      rw [Statement.extent] at hle
      exact Nat.lt_of_lt_of_le (Nat.lt_add_of_pos_right op.length_pos) hle
    | _ => exact ih _ _

theorem length_instructionsFrom_le (w : Spelling) (start : Nat) (T : Tables)
    (part : List Statement) : (instructionsFrom w start T part).length ≤ extentOf part := by
  induction part generalizing start T with
  | nil => exact Nat.zero_le _
  | cons st part ih =>
    have hrest := ih (start + st.extent) (st.enter T)
    rw [instructionsFrom, List.length_append, extentOf, List.map_cons, List.sum_cons, ← extentOf]
    cases st with
    | instruction op as =>
      have := op.length_pos
      simp only [Statement.instructionAt, List.length_singleton, Statement.extent] at *
      omega
    | _ => simpa [Statement.instructionAt] using Nat.le_trans hrest (Nat.le_add_left _ _)

/-- The labels of instructions that are told again are those of marked places. -/
theorem labels_toldInstructions (marks : List Nat) (w : Spelling) (start : Nat) (T : Tables)
    (part : List Statement) :
    collectFrom Statement.labelAt start (toldInstructions c marks (instructionsFrom w start T part)) =
      (((instructionsFrom w start T part).map (·.offset)).filter marks.contains).map
        fun n => (labelText n, n) := by
  induction part generalizing start T with
  | nil => rfl
  | cons st part ih =>
    rw [instructionsFrom, toldInstructions, List.flatMap_append, ← toldInstructions,
      ← toldInstructions]
    have hrest := ih (start + st.extent) (st.enter T)
    cases st with
    | instruction op as =>
      set more := instructionsFrom w (start + (Statement.instruction op as).extent)
        ((Statement.instruction op as).enter T) part
      have hextent : extentOf (labelsAt marks start ++ [Statement.instruction op
          ((op.format.zip (argumentWords w start T as)).map fun p =>
            argumentOf c ⟨start, op, Word.ofOpcode op :: argumentWords w start T as⟩ p.1 p.2)]) =
          (Statement.instruction op as).extent := by
        rw [labelsAt]
        split <;> simp [extentOf, Statement.extent]
      have hone : toldInstructions c marks ((Statement.instruction op as).instructionAt w start T) =
          labelsAt marks start ++ [Statement.instruction op
          ((op.format.zip (argumentWords w start T as)).map fun p =>
            argumentOf c ⟨start, op, Word.ofOpcode op :: argumentWords w start T as⟩ p.1 p.2)] := by
        simp [toldInstructions, Statement.instructionAt, statementOf, Statement.words,
          Instruction.operands]
      rw [hone, collectFrom_append, hextent, hrest]
      simp only [Statement.instructionAt, List.singleton_append, List.map_cons, List.filter_cons]
      rw [labelsAt]
      split
      · rw [List.map_cons]
        rfl
      · rfl
    | _ => exact hrest

def boundaries : List Nat := (Stream.instructions c.data).map (·.offset) ++ [c.data.size]

variable {c} {ss : List Statement}

theorem Account.instructions_eq (h : Account c ss) :
    Stream.instructions c.data = instructionsFrom (.linked ss) 0 .empty ss := by
  rw [h.data, instructions_words _ h.suits]

theorem Account.size_eq (h : Account c ss) : c.data.size = extentOf ss := by
  rw [h.data, List.size_toArray, length_wordsFrom _ _ _ h.suits]

theorem Account.sizes_le (h : Account c ss) (hsmall : Small c) :
    c.constants.size ≤ 2 ^ 32 ∧ c.names.size ≤ 2 ^ 32 := by
  have hsize := size_enterAll_le .empty h.suits
  have hdata := hsmall.data
  rw [h.size_eq] at hdata
  rw [h.constants, h.names]
  have hempty : Tables.empty.constants.size = 0 ∧ Tables.empty.names.size = 0 := ⟨rfl, rfl⟩
  omega

theorem Account.mem_nested (h : Account c ss) {op : Opcode} {as : List Argument} {t : Text}
    (hmem : .instruction op as ∈ ss) (ht : .code t ∈ as) : t ∈ (nestedOf ss).map Code.name := by
  obtain ⟨s, hs⟩ := exists_collectFrom Statement.referencesAt 0 hmem
  obtain ⟨r, hr, rfl⟩ := exists_placesFrom (f := Argument.code?) (s + 1) ht rfl
  exact h.linkable.references r (hs r hr)

theorem Account.nodup_boundaries (h : Account c ss) : (boundaries c).Nodup := by
  rw [boundaries, h.instructions_eq, h.size_eq, List.nodup_append]
  refine ⟨?_, by simp, ?_⟩
  · rw [List.Nodup, List.pairwise_map]
    exact (pairwise_instructionsFrom _ _ _ _).imp fun hlt => Nat.ne_of_lt hlt
  · intro n hn m hm
    obtain ⟨ins, hins, rfl⟩ := List.mem_map.1 hn
    rw [List.mem_singleton.1 hm]
    have := (offset_of_mem_instructionsFrom hins).2
    omega

theorem extentOf_toldInstructions (marks : List Nat) (is : List Instruction) :
    extentOf (toldInstructions c marks is) = (is.map fun ins => ins.opcode.length).sum := by
  induction is with
  | nil => rfl
  | cons ins is ih =>
    have hlabels : extentOf (labelsAt marks ins.offset) = 0 := by
      rw [labelsAt]
      split <;> rfl
    rw [toldInstructions, List.flatMap_cons, ← toldInstructions, extentOf_append, extentOf_append,
      hlabels, ih]
    simp [extentOf, statementOf, Statement.extent]

theorem sum_length_instructionsFrom (w : Spelling) (start : Nat) (T : Tables)
    (part : List Statement) :
    ((instructionsFrom w start T part).map fun ins => ins.opcode.length).sum = extentOf part := by
  induction part generalizing start T with
  | nil => rfl
  | cons st part ih =>
    rw [instructionsFrom, List.map_append, List.sum_append, ih, extentOf, extentOf, List.map_cons,
      List.sum_cons]
    cases st <;> simp [Statement.instructionAt, Statement.extent]

theorem Account.labelsOf_told (h : Account c ss) :
    labelsOf (told c) =
      ((boundaries c).filter (labelled c).contains).map fun n => (labelText n, n) := by
  have haside {α : Type} (xs : List α) (f : α → Statement) (hf : ∀ x start, (f x).labelAt start = [])
      (start : Nat) : collectFrom Statement.labelAt start (xs.map f) = [] := by
    induction xs generalizing start with
    | nil => rfl
    | cons x xs ih => rw [List.map_cons, collectFrom, hf, ih, List.nil_append]
  have hnested : c.codes.filterMap (fun o => o.map Statement.nested) =
      (nestedOf ss).map Statement.nested := by
    rw [h.codes, List.filterMap_map]
    simp
  have hextent : extentOf (toldInstructions c (labelled c) (Stream.instructions c.data)) =
      extentOf ss := by
    rw [extentOf_toldInstructions, h.instructions_eq, sum_length_instructionsFrom]
  rw [labelsOf, told, hnested, collectFrom_append, haside _ _ fun _ _ => rfl, List.append_nil,
    collectFrom_append, haside _ _ fun _ _ => rfl, List.append_nil, collectFrom_append, hextent,
    boundaries, List.filter_append, List.map_append, h.instructions_eq, labels_toldInstructions,
    h.size_eq]
  congr 1
  rw [labelsAt, List.filter_singleton]
  cases (labelled c).contains (extentOf ss) with
  | true => simp [collectFrom, Statement.labelAt]
  | false => rfl

theorem lookup_labels {ns : List Nat} {n : Nat} (h : n ∈ ns) :
    (ns.map fun n => (labelText n, n)).lookup (labelText n) = some n := by
  induction ns with
  | nil => cases h
  | cons m ns ih =>
    rw [List.map_cons, List.lookup_cons]
    by_cases heq : n = m
    · rw [heq, beq_self_eq_true]
    · have hne : labelText n ≠ labelText m := fun he => heq (labelText_inj he)
      rw [beq_eq_false_iff_ne.2 hne]
      exact ih ((List.mem_cons.1 h).resolve_left heq)

end Places

/-! ## Codes that were read -/

/-- A code that statements gave, which passed validation. -/
structure Accepted (c : Code) (ss : List Statement) : Prop extends Account c ss where
  formed : ∃ ops, c.Formed ops
  small : Small c
  jumping : Code.validateOne { c with data := (wordsFrom (.jumping ss) 0 .empty ss).toArray } = .ok ()
  handlers : ∀ h ∈ c.handlers, h.IsWritten

namespace Accepted

variable {c : Code} {ss : List Statement}

theorem mem_boundaries (h : Accepted c ss) {n : Nat} (hn : n ∈ labelled c) : n ∈ boundaries c := by
  obtain ⟨ops, hformed⟩ := h.formed
  have hsmall := h.small.data
  have hiff {n : Nat} (hb : Stream.Boundary ops n) : n ∈ boundaries c := by
    rw [boundaries, List.mem_append, List.mem_singleton]
    exact hformed.spells.boundary_iff.2 hb
  have hback {n : Nat} (hb : Stream.Boundary ops n) : n.toUInt32.toNat = n := by
    have hle := hb.le_extent
    rw [← hformed.spells.size] at hle
    rw [Nat.toUInt32_eq, UInt32.toNat_ofNat']
    omega
  rw [labelled, List.mem_append] at hn
  rcases hn with hn | hn
  · obtain ⟨ins, hins, ht⟩ := List.mem_filterMap.1 hn
    obtain ⟨t, htarget, rfl⟩ := Option.map_eq_some_iff.1 ht
    exact hiff (((Code.validateOne_iff hformed.spells).1 hformed.valid).1 ins hins t htarget)
  · obtain ⟨hd, hhd, hmem⟩ := List.mem_flatMap.1 hn
    have hhd := Array.mem_toList_iff.1 hhd
    obtain ⟨m, hm, hstart⟩ := hformed.start hd hhd
    obtain ⟨m', hm', hstop⟩ := hformed.stop hd hhd
    simp only [List.mem_cons, List.not_mem_nil, or_false] at hmem
    rcases hmem with rfl | rfl
    · rw [hstart, hback hm]
      exact hiff hm
    · rw [hstop, hback hm']
      exact hiff hm'

theorem placeIn_told (h : Accepted c ss) {n : Nat} (hn : n ∈ labelled c) :
    labelText n ∈ (labelsOf (told c)).map Prod.fst ∧ placeIn (told c) (labelText n) = n := by
  have hmem : n ∈ (boundaries c).filter (labelled c).contains :=
    List.mem_filter.2 ⟨h.mem_boundaries hn, List.contains_iff_mem.2 hn⟩
  rw [placeIn, h.toAccount.labelsOf_told]
  refine ⟨?_, by rw [lookup_labels hmem, Option.getD_some]⟩
  exact List.mem_map.2 ⟨(labelText n, n), List.mem_map.2 ⟨n, hmem, rfl⟩, rfl⟩

theorem operandDefect?_eq_none (h : Accepted c ss) {ins : Instruction}
    (hins : ins ∈ Stream.instructions c.data) {kind : OperandKind} {w : Word}
    (hw : (kind, w) ∈ ins.operands) : c.operandDefect? kind w = none := by
  obtain ⟨ops, hformed⟩ := h.formed
  obtain ⟨s, op, hp, rfl⟩ := hformed.spells.mem_instructions.1 hins
  obtain ⟨i, hi, rfl⟩ := (Instruction.mem_operands_instructionAt (hformed.spells.fits hp)).1 hw
  exact ((Code.validateOne_iff hformed.spells).1 hformed.valid).2.1 _ hins i _ hi

theorem target_mem_labelled {ins : Instruction} (hins : ins ∈ Stream.instructions c.data) {n : UInt32}
    (hn : ins.target? = some n) : n.toNat ∈ labelled c := by
  rw [labelled]
  refine List.mem_append_left _ (List.mem_filterMap.2 ⟨ins, hins, ?_⟩)
  rw [hn, Option.map_some]

/-- The instructions of what a code says. -/
theorem instructions_told (h : Accepted c ss) {v w : Spelling}
    (hsame : v.jump = jumpWord (placeIn ss)) (hcode : w.code = v.code)
    (hw : w.jump = jumpWord (placeIn (told c))) :
    ∃ again, toldInstructions c (labelled c) (Stream.instructions c.data) = again ∧
      (∀ st ∈ again, st.Suits) ∧ wordsFrom w 0 .empty again = wordsFrom v 0 .empty ss ∧
      enterAll .empty again = enterAll .empty ss := by
  have htables : (enterAll .empty ss).Below ⟨c.constants, c.names⟩ := by
    rw [h.constants, h.names]
    exact .refl _
  have hreference : ∀ op as t, .instruction op as ∈ ss → .code t ∈ as →
      t ∈ (nestedOf ss).map Code.name := fun op as t => h.toAccount.mem_nested
  have hjump : ∀ ins ∈ instructionsFrom (.linked ss) 0 .empty ss, ∀ n, ins.target? = some n →
      w.jump ins.offset (labelText n.toNat) =
        Word.ofInt32 (Int32.ofInt ((n.toNat : Int) - ins.offset)) := by
    intro ins hins n hn
    rw [← h.toAccount.instructions_eq] at hins
    rw [hw, jumpWord, (h.placeIn_told (target_mem_labelled hins hn)).2]
  obtain ⟨hconstants, hnames⟩ := h.toAccount.sizes_le h.small
  obtain ⟨again, heq, hsuits, hwords, henter, -⟩ := h.toAccount.instructions_again h.small
    hconstants hnames hsame hcode (labelled c) h.suits htables hreference hjump
  exact ⟨again, by rw [h.toAccount.instructions_eq, heq], hsuits, hwords, henter⟩

/-- What stands after the instructions of what a code says. -/
def tail (c : Code) : List Statement :=
  labelsAt (labelled c) c.data.size ++ c.handlers.toList.map (fun h => .handler (lineOf h)) ++
    c.codes.filterMap fun o => o.map .nested

theorem told_eq (c : Code) : told c =
    toldInstructions c (labelled c) (Stream.instructions c.data) ++ tail c := by
  rw [told, tail, List.append_assoc, List.append_assoc, List.append_assoc]

theorem isAside_of_mem_tail : ∀ st ∈ tail c, st.IsAside := by
  intro st hst
  rw [tail, List.mem_append, List.mem_append] at hst
  rcases hst with (hst | hst) | hst
  · rw [labelsAt] at hst
    split at hst
    · rw [List.mem_singleton.1 hst]
      trivial
    · cases hst
  · obtain ⟨hd, -, rfl⟩ := List.mem_map.1 hst
    trivial
  · obtain ⟨o, -, ho⟩ := List.mem_filterMap.1 hst
    obtain ⟨d, -, rfl⟩ := Option.map_eq_some_iff.1 ho
    trivial

/-- The words and tables of what a code says are those it was given. -/
theorem words_told (h : Accepted c ss) {v w : Spelling}
    (hsame : v.jump = jumpWord (placeIn ss)) (hcode : w.code = v.code)
    (hw : w.jump = jumpWord (placeIn (told c))) :
    wordsFrom w 0 .empty (told c) = wordsFrom v 0 .empty ss ∧
      enterAll .empty (told c) = enterAll .empty ss := by
  obtain ⟨again, heq, -, hwords, henter⟩ := h.instructions_told hsame hcode hw
  rw [told_eq, heq, wordsFrom_append, enterAll_append, hwords, henter,
    (spells_aside w _ _ isAside_of_mem_tail).1, (spells_aside w 0 _ isAside_of_mem_tail).2,
    List.append_nil]
  exact ⟨rfl, rfl⟩

theorem suits_told (h : Accepted c ss) : ∀ st ∈ told c, st.Suits := by
  obtain ⟨again, heq, hsuits, -⟩ := h.instructions_told (v := .linked ss)
    (w := ⟨jumpWord (placeIn (told c)), codeWord (nestedOf ss)⟩) rfl rfl rfl
  rw [told_eq, heq]
  intro st hst
  rcases List.mem_append.1 hst with hst | hst
  · exact hsuits st hst
  · exact (isAside_of_mem_tail st hst).suits

theorem statement_mem {c : Code} {st : Statement} (hst : st ∈ told c) {op : Opcode}
    {as : List Argument} (heq : st = .instruction op as) :
    ∃ ins ∈ Stream.instructions c.data, op = ins.opcode ∧
      as = ins.operands.map fun (kind, w) => argumentOf c ins kind w := by
  rw [told_eq, List.mem_append] at hst
  rcases hst with hst | hst
  · obtain ⟨ins, hins, hst⟩ := List.mem_flatMap.1 hst
    rcases List.mem_append.1 hst with hst | hst
    · rw [labelsAt] at hst
      split at hst
      · rw [List.mem_singleton.1 hst] at heq
        cases heq
      · cases hst
    · rw [List.mem_singleton.1 hst] at heq
      cases heq
      exact ⟨ins, hins, rfl, rfl⟩
  · rw [heq] at hst
    exact (isAside_of_mem_tail _ hst).elim

theorem filterMap_told {β : Type} {f : Statement → Option β} (hlabel : ∀ t, f (.label t) = none)
    (hinstruction : ∀ op as, f (.instruction op as) = none) (c : Code) :
    (told c).filterMap f = (c.handlers.toList.map fun h => Statement.handler (lineOf h)).filterMap f ++
      (c.codes.filterMap fun o => o.map Statement.nested).filterMap f := by
  have hlabels (n : Nat) : (labelsAt (labelled c) n).filterMap f = [] := by
    rw [labelsAt]
    split
    · simp [hlabel]
    · rfl
  have hinstructions (is : List Instruction) :
      (toldInstructions c (labelled c) is).filterMap f = [] := by
    induction is with
    | nil => rfl
    | cons ins is ih =>
      rw [toldInstructions, List.flatMap_cons, ← toldInstructions, List.filterMap_append,
        List.filterMap_append, hlabels, ih]
      simp [statementOf, hinstruction]
  rw [told, List.filterMap_append, List.filterMap_append, List.filterMap_append, hinstructions,
    hlabels, List.nil_append, List.nil_append]

theorem nestedOf_told (h : Accepted c ss) : nestedOf (told c) = nestedOf ss := by
  rw [nestedOf, filterMap_told (fun _ => rfl) (fun _ _ => rfl), h.codes]
  simp [List.filterMap_map, Function.comp_def, Statement.nested?]

theorem handlersOf_told (c : Code) : handlersOf (told c) = c.handlers.toList.map lineOf := by
  rw [handlersOf, filterMap_told (fun _ => rfl) (fun _ _ => rfl), List.filterMap_filterMap,
    List.filterMap_map]
  have hnested : ∀ o : Option Code, (o.map Statement.nested).bind Statement.handler? = none := by
    intro o
    cases o <;> rfl
  simp [hnested, Function.comp_def, Statement.handler?]

theorem handler_lineOf (h : Accepted c ss) {hd : Handler} (hhd : hd ∈ c.handlers) :
    (lineOf hd).handler (fun t => (placeIn (told c) t).toUInt32) = hd := by
  have hmarks : hd.start.toNat ∈ labelled c ∧ hd.stop.toNat ∈ labelled c := by
    constructor <;>
    exact List.mem_append_right _ (List.mem_flatMap.2 ⟨hd, Array.mem_toList_iff.2 hhd, by simp⟩)
  have hstart : (placeIn (told c) (labelText hd.start.toNat)).toUInt32 = hd.start := by
    rw [(h.placeIn_told hmarks.1).2]
    exact UInt32.ofNat_toNat
  have hstop : (placeIn (told c) (labelText hd.stop.toNat)).toUInt32 = hd.stop := by
    rw [(h.placeIn_told hmarks.2).2]
    exact UInt32.ofNat_toNat
  simp only [HandlerLine.handler, lineOf, hstart, hstop]
  rcases h.handlers hd hhd with ⟨hkind, -⟩ | ⟨hkind, hjump, hflag⟩
  · rw [if_pos (beq_iff_eq.2 hkind), ← hkind]
  · have hne : (hd.kind == Handler.kindFinally) = false := by rw [hkind]; rfl
    rw [if_neg (by rw [hne]; exact Bool.false_ne_true)]
    obtain ⟨kind, start, stop, level, jump, flag⟩ := hd
    dsimp only at hkind hjump hflag
    rw [hkind, hjump, hflag]

/-- What a code says refers to nothing that is not there. -/
theorem closed_told (h : Accepted c ss) : Closed (told c) where
  distinct := by
    rw [h.toAccount.labelsOf_told, List.map_map]
    exact List.Nodup.map (fun n m heq => labelText_inj heq)
      (List.Nodup.filter _ h.toAccount.nodup_boundaries)
  jumps j hj := by
    obtain ⟨st, hst, s, hmem⟩ := mem_collectFrom hj
    cases st with
    | instruction op as =>
      obtain ⟨ins, hins, rfl, rfl⟩ := statement_mem hst rfl
      obtain ⟨a, ha, hlabel⟩ := mem_placesFrom hmem
      obtain ⟨⟨kind, wd⟩, hwd, rfl⟩ := List.mem_map.1 ha
      cases kind with
      | jump =>
        have htarget := Instruction.target?_of_mem hwd
        obtain ⟨t, ht, heq⟩ := Option.map_eq_some_iff.1 hlabel
        rw [← heq]
        cases ht
        rw [htarget, Option.getD_some]
        exact (h.placeIn_told (target_mem_labelled hins htarget)).1
      | _ => cases hlabel
    | _ => cases hmem
  references r hr := by
    obtain ⟨st, hst, s, hmem⟩ := mem_collectFrom hr
    cases st with
    | instruction op as =>
      obtain ⟨ins, hins, rfl, rfl⟩ := statement_mem hst rfl
      obtain ⟨a, ha, hcode⟩ := mem_placesFrom hmem
      obtain ⟨⟨kind, wd⟩, hwd, rfl⟩ := List.mem_map.1 ha
      cases kind with
      | code =>
        have hdefect := h.operandDefect?_eq_none hins hwd
        simp only [Code.operandDefect?, ite_eq_right_iff, reduceCtorEq, imp_false, Nat.not_le,
          h.codes, List.length_map] at hdefect
        rw [h.nestedOf_told, ← Option.some.inj hcode, h.codes, List.getD_eq_getElem?_getD,
          List.getElem?_map, List.getElem?_eq_getElem hdefect]
        exact List.mem_map_of_mem (List.getElem_mem hdefect)
      | _ => cases hcode
    | _ => cases hmem
  handlers hd hhd := by
    rw [handlersOf_told] at hhd
    obtain ⟨h₀, hh₀, rfl⟩ := List.mem_map.1 hhd
    have hmem {n : Nat} (hn : n ∈ [h₀.start.toNat, h₀.stop.toNat]) : n ∈ labelled c :=
      List.mem_append_right _ (List.mem_flatMap.2 ⟨h₀, hh₀, hn⟩)
    exact ⟨(h.placeIn_told (hmem (by simp))).1, (h.placeIn_told (hmem (by simp))).1⟩

theorem length_labelsOf_told_le (h : Accepted c ss) : (labelsOf (told c)).length ≤ 2 ^ 32 := by
  have hlength := length_instructionsFrom_le (.linked ss) 0 .empty ss
  have hsmall := h.small.data
  rw [h.toAccount.labelsOf_told, List.length_map]
  refine Nat.le_trans (List.length_filter_le _ _) ?_
  rw [boundaries, List.length_append, List.length_map, h.toAccount.instructions_eq,
    List.length_singleton]
  rw [h.toAccount.size_eq] at hsmall
  omega

/-- What a code says spells the code. -/
theorem codeOf_told (h : Accepted c ss) {head : Code} (hname : head.name = c.name)
    (hparams : head.params = c.params) (hregisters : head.registerCount = c.registerCount)
    (hstrict : head.strict = c.strict) :
    codeOf head (.linked (told c)) (told c) = c ∧
      (codeOf head (.jumping (told c)) (told c)).validateOne = .ok () := by
  have hhandlers : ((handlersOf (told c)).map
      (HandlerLine.handler fun t => (placeIn (told c) t).toUInt32)) = c.handlers.toList := by
    rw [handlersOf_told, List.map_map]
    conv_rhs => rw [← List.map_id c.handlers.toList]
    exact List.map_congr_left fun hd hhd => h.handler_lineOf (Array.mem_toList_iff.1 hhd)
  have hnested := h.nestedOf_told
  have hlinked := h.words_told (v := .linked ss) (w := .linked (told c)) rfl
    (congrArg codeWord hnested) rfl
  have hjumping := h.words_told (v := .jumping ss) (w := .jumping (told c)) rfl rfl rfl
  have hcode (data : Array Word) : ({ head with
      data := data
      constants := (enterAll .empty (told c)).constants
      names := (enterAll .empty (told c)).names
      codes := (nestedOf (told c)).map some
      handlers := ((handlersOf (told c)).map
        (HandlerLine.handler fun t => (placeIn (told c) t).toUInt32)).toArray } : Code) =
      { c with data := data } := by
    rw [hhandlers, hnested, hlinked.2, ← h.constants, ← h.names, ← h.codes, hname, hparams, hregisters,
      hstrict]
  constructor
  · rw [codeOf, hcode, hlinked.1, ← h.data]
    cases c
    rfl
  · rw [codeOf, hcode, hjumping.1]
    exact h.jumping

end Accepted

end Listing

end RegisterJit
