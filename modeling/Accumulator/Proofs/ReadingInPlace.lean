import Mathlib
import Accumulator.Proofs.ListingGrammar
import Accumulator.Proofs.ParserPositions

/-!
# Reading in place and reading lists

A parser at an offset of a text does what the parser of the same shape does with the bytes from there on:
it goes over as many bytes and gives the same answer. Hence listings are read in place as they are read
from a list of bytes.
-/

namespace Accumulator.Listing

open Machine

variable {α β : Type} {text : Array UInt8} {st i j : ℕ} {label : String} {blanks : Blanks}
  {p : Parser Value} {o : Outcome Value}

/-- The bytes from an offset on. -/
abbrev bytesFrom (text : Array UInt8) (i : ℕ) : List UInt8 := text.toList.drop i

lemma bytesFrom_of_lt (h : i < text.size) : bytesFrom text i = text[i] :: bytesFrom text (i + 1) := by
  rw [bytesFrom, List.drop_eq_getElem_cons (by simpa using h), Array.getElem_toList]

lemma bytesFrom_of_ge (h : text.size ≤ i) : bytesFrom text i = [] :=
  List.drop_eq_nil_of_le (by simpa using h)

lemma head?_bytesFrom : (bytesFrom text i).head? = text[i]? := by
  rw [List.head?_drop, Array.getElem?_toList]

lemma bytesFrom_add (k : ℕ) : (bytesFrom text i).drop k = bytesFrom text (i + k) := List.drop_drop

lemma scanWhile_eq (q : UInt8 → Bool) (text : Array UInt8) (i : ℕ) :
    scanWhile q text i = i + ((bytesFrom text i).takeWhile q).length := by
  fun_induction scanWhile q text i with
  | case1 i hlt hq ih =>
    rw [ih, bytesFrom_of_lt hlt, List.takeWhile_cons_of_pos hq, List.length_cons]
    omega
  | case2 i hlt hq =>
    rw [bytesFrom_of_lt hlt, List.takeWhile_cons_of_neg hq]
    rfl
  | case3 i hge =>
    rw [bytesFrom_of_ge (by omega)]
    rfl

lemma slice_scanWhile (q : UInt8 → Bool) (h : i ≤ text.size) :
    slice text i (scanWhile q text i) = .ok ((bytesFrom text i).takeWhile q) := by
  rw [slice_eq_ok (le_scanWhile q text i) (scanWhile_le h), Array.toList_extract, List.extract_eq_take_drop,
    scanWhile_eq, Nat.add_sub_cancel_left, ← List.prefix_iff_eq_take.mp (List.takeWhile_prefix q)]

lemma skip_sign_eq {s : List UInt8} (hsign : blanks.isBlank 35 = false) :
    blanks.skip false (35 :: s) = ((35 :: s).takeWhile (· != 10)).length +
      blanks.skip false ((35 :: s).drop ((35 :: s).takeWhile (· != 10)).length) := by
  have hnone : 10 ∉ s.takeWhile (· != 10) := fun h => by simpa using List.mem_takeWhile_imp h
  have hline : ∀ c ∈ (s.dropWhile (· != 10)).head?, c = 10 := by
    intro c hc
    have := List.head?_dropWhile_not (· != 10) s
    rw [hc] at this
    simpa using this
  have hs : s.takeWhile (· != 10) ++ s.dropWhile (· != 10) = s := List.takeWhile_append_dropWhile
  rw [List.takeWhile_cons_of_pos (by decide), List.length_cons, List.drop_succ_cons]
  generalize s.takeWhile (· != 10) = t at *
  generalize s.dropWhile (· != 10) = rest at *
  subst hs
  rw [List.drop_left, ← skip_true_eq blanks hline, Blanks.skip, hsign, skip_comment blanks hnone]
  simp only [Bool.false_and, Bool.false_eq_true, if_false, beq_self_eq_true, if_true]
  omega

lemma skipAt_eq (blanks : Blanks) (text : Array UInt8) (i : ℕ) :
    blanks.skipAt text i = i + blanks.skip false (bytesFrom text i) := by
  fun_induction Blanks.skipAt blanks text i with
  | case1 i hlt hblank ih =>
    rw [ih, bytesFrom_of_lt hlt, Blanks.skip, hblank]
    simp only [Bool.false_and, Bool.false_eq_true, if_false, if_true]
    omega
  | case2 i hlt hblank hsign ih =>
    rw [hsign, Bool.not_eq_true] at hblank
    rw [ih, scanWhile_eq, ← bytesFrom_add, bytesFrom_of_lt hlt, hsign, skip_sign_eq hblank, Nat.add_assoc]
  | case3 i hlt hblank hsign =>
    rw [bytesFrom_of_lt hlt, skip_stop (by simpa using hblank) hsign]
    rfl
  | case4 i hge =>
    rw [bytesFrom_of_ge (by omega)]
    rfl

/-- The outcome of a parser that starts at `st`. -/
def Outcome.startingAt (o : Outcome α) (st : ℕ) : Stopped α := ⟨st + o.used, o.answer⟩

def Outcome.map (f : α → β) (o : Outcome α) : Outcome β := ⟨o.used, o.answer.map f⟩

lemma Outcome.map_map {γ : Type} (f : α → β) (g : β → γ) (o : Outcome α) :
    (o.map f).map g = o.map (g ∘ f) := by
  obtain ⟨used, answer⟩ := o
  cases answer with
  | ok v => rfl
  | error e => rfl

/-- The parser in place does what `f` does with the bytes from its start on. -/
def Agrees (p : Parser Value) (f : List UInt8 → Outcome Value) : Prop :=
  ∀ text st, st ≤ text.size → p text st = .ok ((f (bytesFrom text st)).startingAt st)

lemma Agrees.used_le {f : List UInt8 → Outcome Value} {V : Value → Prop} (h : Agrees p f)
    (hp : Delivers Inside V p) (hst : st ≤ text.size) : st + (f (bytesFrom text st)).used ≤ text.size := by
  obtain ⟨r, hr, hpos, -⟩ := hp text st hst
  obtain rfl := Except.ok.inj ((h text st hst).symm.trans hr)
  exact hpos

lemma agrees_mnemonicAt : Agrees mnemonicAt Grammar.mnemonic.parse := by
  intro text st hst
  unfold mnemonicAt
  rw [Grammar.parse, parseMnemonic]
  dsimp only
  rw [slice_scanWhile isUpper hst, ok_bind, scanWhile_eq]
  generalize (bytesFrom text st).takeWhile isUpper = word
  cases word with
  | nil =>
    rw [List.length_nil, if_pos (Nat.add_zero st)]
    rfl
  | cons c cs =>
    rw [if_neg (by simp), if_neg (by simp)]
    generalize Op.ofName? _ = op
    cases op with
    | none => rfl
    | some op => rfl

lemma agrees_registerAt : Agrees registerAt Grammar.register.parse := by
  intro text st hst
  unfold registerAt
  rw [Grammar.parse]
  by_cases hend : st = text.size
  · rw [if_pos hend, bytesFrom_of_ge hend.ge]
    rfl
  · have hlt : st < text.size := lt_of_le_of_ne hst hend
    rw [if_neg hend, bytesFrom_of_lt hlt, parseRegister, head?_bytesFrom, slice_single hlt, ok_bind]
    generalize text[st + 1]? = next
    cases hnext : next.any isWord with
    | true =>
      rw [if_pos rfl, if_pos (by cases next <;> simp_all)]
      rfl
    | false =>
      rw [if_neg (by simp), if_neg (by cases next <;> simp_all), List.map_singleton]
      generalize Reg.ofName? _ = r
      cases r with
      | none => rfl
      | some r => rfl

lemma numberTooBig_iff {n d : ℕ} (hd : d < 10) : (maxNumber - d) / 10 < n ↔ ¬n * 10 + d ≤ maxNumber := by
  rw [Nat.div_lt_iff_lt_mul (by decide), maxNumber]
  omega

lemma digit_lt {c : UInt8} (h : isDigit c = true) : c.toNat - 48 < 10 := by
  have := isDigit_iff.mp h
  omega

/-- What comes of digits up to `r`, which are `used` bytes with those before: no letter may follow. -/
def closeDigits (text : Array UInt8) (used : ℕ) (r : Stopped ℕ) : Outcome ℕ :=
  match r.answer with
  | .error e => ⟨used, .error e⟩
  | .ok n => if text[r.pos]?.any isWord && used != 0 then ⟨used, .error .numberExpected⟩ else ⟨used, .ok n⟩

lemma digits_bytesFrom (n used : ℕ) : digits n used (bytesFrom text i) =
    closeDigits text (used + ((digitsAt text i n).pos - i)) (digitsAt text i n) := by
  fun_induction digitsAt text i n generalizing used with
  | case1 i n hlt hdigit d hbig =>
    rw [bytesFrom_of_lt hlt, digits, if_pos hdigit]
    dsimp only
    rw [if_neg ((numberTooBig_iff (digit_lt hdigit)).mp hbig), Nat.sub_self]
    rfl
  | case2 i n hlt hdigit d hsmall ih =>
    have hle := le_digitsAt text (i + 1) (n * 10 + d)
    have hused : used + 1 + ((digitsAt text (i + 1) (n * 10 + d)).pos - (i + 1)) =
        used + ((digitsAt text (i + 1) (n * 10 + d)).pos - i) := by omega
    rw [numberTooBig_iff (digit_lt hdigit), not_not] at hsmall
    rw [bytesFrom_of_lt hlt, digits, if_pos hdigit]
    dsimp only
    rw [if_pos hsmall, ih, hused]
  | case3 i n hlt hdigit =>
    rw [bytesFrom_of_lt hlt, digits, if_neg hdigit, closeDigits]
    dsimp only
    rw [Nat.sub_self, Nat.add_zero, Array.getElem?_eq_getElem hlt, Option.any_some]
  | case4 i n hge =>
    rw [bytesFrom_of_ge (by omega), closeDigits]
    dsimp only
    rw [Nat.sub_self, Array.getElem?_eq_none (by omega)]
    rfl

lemma agrees_numberAt : Agrees numberAt Grammar.number.parse := by
  intro text st hst
  have hle := le_digitsAt text st 0
  unfold numberAt
  rw [Grammar.parse, parseNumber, digits_bytesFrom, Nat.zero_add]
  generalize digitsAt text st 0 = r at hle
  obtain ⟨j, answer⟩ := r
  obtain ⟨used, rfl⟩ := Nat.exists_eq_add_of_le hle
  dsimp only
  rw [Nat.add_sub_cancel_left]
  cases answer with
  | error e => rfl
  | ok n =>
    dsimp only
    by_cases hnone : used = 0
    · subst hnone
      have hclose : closeDigits text 0 ⟨st + 0, .ok n⟩ = ⟨0, .ok n⟩ := if_neg (by simp)
      rw [if_pos (Nat.add_zero st), hclose]
      rfl
    · rw [if_neg (by omega)]
      cases hword : text[st + used]?.any isWord with
      | true =>
        have hclose : closeDigits text used ⟨st + used, .ok n⟩ = ⟨used, .error .numberExpected⟩ :=
          if_pos (by simp [hword, hnone])
        rw [if_pos rfl, hclose]
        rfl
      | false =>
        have hclose : closeDigits text used ⟨st + used, .ok n⟩ = ⟨used, .ok n⟩ := if_neg (by simp [hword])
        rw [if_neg (by simp), hclose]
        dsimp only
        rw [if_neg (by simpa using hnone)]
        rfl

/-- An outcome with nothing in place of an absent value. -/
def Outcome.orNothing (o : Outcome Value) : Outcome Value := (Listing.orNothing o).map (·.getD .nothing)

lemma optionalAt_eq (h : p text st = .ok (o.startingAt st)) :
    optionalAt p text st = .ok (o.orNothing.startingAt st) := by
  unfold optionalAt
  rw [h, ok_bind]
  obtain ⟨used, answer⟩ := o
  cases answer with
  | ok v => rfl
  | error e =>
    by_cases hused : used = 0
    · subst hused
      exact if_pos (Nat.add_zero st)
    · have hnothing : Listing.orNothing (⟨used, .error e⟩ : Outcome Value) = ⟨used, .error e⟩ :=
        if_neg (by simpa using hused)
      rw [Outcome.orNothing, hnothing]
      exact if_neg (by simpa [Outcome.startingAt] using hused)

lemma spacedAt_eq (blanks : Blanks) (label : String) {f : List UInt8 → Outcome Value} (h : Agrees p f)
    (hst : st ≤ text.size) :
    spacedAt blanks label p text st =
      .ok ((afterBlanks blanks label f (bytesFrom text st)).startingAt st) := by
  have hrest := h text (blanks.skipAt text st) (skipAt_le blanks hst)
  unfold spacedAt afterBlanks
  dsimp only
  rw [hrest, ok_bind, skipAt_eq, bytesFrom_add]
  generalize f _ = o
  generalize blanks.skip false _ = gap
  obtain ⟨used, answer⟩ := o
  cases answer with
  | ok v => exact congrArg (fun k => Except.ok (Stopped.mk k (.ok v))) (Nat.add_assoc ..)
  | error e =>
    have hpos : (if st + gap + used = st + gap then st else st + gap + used) =
        st + if (used == 0) = true then 0 else gap + used := by
      by_cases hused : used = 0
      · simp [hused]
      · simp [hused, Nat.add_assoc]
    exact congrArg (fun k => Except.ok (Stopped.mk k (.error (.inside label none e)))) hpos

lemma firstOf_cons_error {labels : List String} {failed : Option (Outcome α)}
    {rs : List (String × Outcome α)} {used : ℕ} {e : ParseError} :
    firstOf labels failed ((label, ⟨used, .error e⟩) :: rs) =
      firstOf labels (if used = 0 then failed else failed.or (some ⟨used, .error (.inside label none e)⟩))
        rs := by
  rw [firstOf]
  dsimp only
  by_cases hused : used = 0
  · rw [if_pos hused, if_pos (by simpa using hused)]
  · rw [if_neg hused, if_neg (by simpa using hused)]

lemma anyAt_nil_eq (labels : List String) (failed : Option (Outcome Value)) :
    anyAt labels (failed.map (·.startingAt st)) [] text st =
      .ok ((firstOf labels failed []).startingAt st) := by
  cases failed with
  | none => rfl
  | some f => rfl

lemma anyAt_cons_eq (label : String) {labels : List String} {ps : List (String × Parser Value)}
    {rs : List (String × Outcome Value)} (hp : p text st = .ok (o.startingAt st))
    (hps : ∀ failed, anyAt labels (failed.map (·.startingAt st)) ps text st =
      .ok ((firstOf labels failed rs).startingAt st)) (failed : Option (Outcome Value)) :
    anyAt labels (failed.map (·.startingAt st)) ((label, p) :: ps) text st =
      .ok ((firstOf labels failed ((label, o) :: rs)).startingAt st) := by
  obtain ⟨used, answer⟩ := o
  cases answer with
  | ok v => exact anyAt_cons_ok hp
  | error e =>
    have hfails : p text st = .ok ⟨st + used, .error e⟩ := hp
    rw [anyAt_cons_error hfails, firstOf_cons_error, ← hps]
    congr 1
    by_cases hused : used = 0
    · rw [if_pos (by omega), if_pos hused]
    · rw [if_neg (by omega), if_neg hused]
      cases failed with
      | none => rfl
      | some f => rfl

lemma allAt_cons_eq (i : ℕ) (label : String) {ps : List (String × Parser Value)}
    {os : Outcome (List Value)} (hp : p text st = .ok (o.startingAt st))
    (hps : allAt (i + 1) ps text (st + o.used) = .ok (os.startingAt (st + o.used))) :
    allAt i ((label, p) :: ps) text st = .ok (Outcome.startingAt (match o.answer with
      | .error e => ⟨o.used, .error (.inside label (some i) e)⟩
      | .ok v => ⟨o.used + os.used, os.answer.map (v :: ·)⟩) st) := by
  obtain ⟨used, answer⟩ := o
  rw [allAt, hp, ok_bind]
  cases answer with
  | error e => rfl
  | ok v =>
    dsimp only [Outcome.startingAt] at hps ⊢
    rw [hps, ok_bind, Nat.add_assoc]
    rfl

def Argument.value : Argument → Value
  | .reg r => .reg r
  | .address n => .number n

lemma firstOf_map (f : α → β) (labels : List String) (failed : Option (Outcome α))
    (rs : List (String × Outcome α)) :
    firstOf labels (failed.map (·.map f)) (rs.map fun q => (q.1, q.2.map f)) =
      (firstOf labels failed rs).map f := by
  induction rs generalizing failed with
  | nil =>
    cases failed with
    | none => rfl
    | some o => rfl
  | cons q rs ih =>
    obtain ⟨label, used, answer⟩ := q
    cases answer with
    | ok v => rfl
    | error e =>
      rw [firstOf_cons_error, ← ih]
      refine firstOf_cons_error.trans (congrArg (firstOf labels · _) ?_)
      by_cases hused : used = 0
      · rw [if_pos hused, if_pos hused]
      · rw [if_neg hused, if_neg hused]
        cases failed with
        | none => rfl
        | some o => rfl

lemma afterBlanks_map (f : α → β) (parse : List UInt8 → Outcome α) (s : List UInt8) :
    afterBlanks blanks label (fun s => (parse s).map f) s = (afterBlanks blanks label parse s).map f := by
  unfold afterBlanks
  dsimp only
  generalize parse _ = o
  obtain ⟨used, answer⟩ := o
  cases answer with
  | ok v => rfl
  | error e => rfl

lemma orNothing_map (f : α → Value) (o : Outcome α) :
    (o.map f).orNothing = (orNothing o).map fun v => (v.map f).getD .nothing := by
  obtain ⟨used, answer⟩ := o
  cases answer with
  | ok v => rfl
  | error e =>
    by_cases hused : used = 0
    · subst hused
      rfl
    · have hused : ¬(used == 0) = true := by simpa using hused
      have hleft : orNothing (⟨used, .error e⟩ : Outcome Value) = ⟨used, .error e⟩ := if_neg hused
      have hright : orNothing (⟨used, .error e⟩ : Outcome α) = ⟨used, .error e⟩ := if_neg hused
      rw [hright]
      exact congrArg (Outcome.map _) hleft

/-- The argument of an instruction as a value, or nothing. -/
def parseOperand (s : List UInt8) : Outcome Value :=
  (orNothing (afterBlanks .inLine (Grammar.any []).label parseArgument s)).map
    fun arg => (arg.map Argument.value).getD .nothing

lemma agrees_argumentAt : Agrees argumentAt parseOperand := by
  intro text st hst
  have hany : Agrees (anyAt [Grammar.register.label, Grammar.number.label] none
      [(Grammar.register.label, registerAt), (Grammar.number.label, numberAt)])
      fun s => (parseArgument s).map Argument.value := by
    intro text st hst
    have hnumber := anyAt_cons_eq Grammar.number.label (agrees_numberAt text st hst)
      (anyAt_nil_eq [Grammar.register.label, Grammar.number.label])
    refine (anyAt_cons_eq Grammar.register.label (agrees_registerAt text st hst) hnumber none).trans ?_
    have hmap := firstOf_map Argument.value [Grammar.register.label, Grammar.number.label] none
      [(Grammar.register.label, (parseRegister (bytesFrom text st)).map Argument.reg),
        (Grammar.number.label, (parseNumber (bytesFrom text st)).map Argument.address)]
    rw [List.map_cons, List.map_cons, Outcome.map_map, Outcome.map_map] at hmap
    exact congrArg (fun o => Except.ok (Outcome.startingAt o st)) hmap
  have hoptional := optionalAt_eq (spacedAt_eq .inLine (Grammar.any []).label hany hst)
  rw [afterBlanks_map, orNothing_map] at hoptional
  exact hoptional

lemma instructionOf_eq (op : Op) (arg : Option Argument) (used : ℕ) :
    instructionOf st (st + used) [.op op, (arg.map Argument.value).getD .nothing] =
      .ok ((assemble op arg used).startingAt st) := by
  rcases arg with _ | r | n
  · change Except.ok (if op.hasReg || op.isJump then _ else _) = Except.ok _
    rw [assemble]
    split
    · rfl
    · rfl
  · change Except.ok (if op.hasReg then _ else _) = Except.ok _
    rw [assemble]
    split
    · rfl
    · rfl
  · change Except.ok (if op.isJump then _ else _) = Except.ok _
    rw [assemble]
    split
    · rfl
    · rfl

lemma agrees_instructionAt : Agrees instructionAt Grammar.instruction.parse := by
  intro text st hst
  have hword : mnemonicAt text st = .ok (((parseMnemonic (bytesFrom text st)).map Value.op).startingAt st) :=
    agrees_mnemonicAt text st hst
  have hinside : st + (parseMnemonic (bytesFrom text st)).used ≤ text.size :=
    agrees_mnemonicAt.used_le Grammar.mnemonic.delivers hst
  have hargument := agrees_argumentAt text _ hinside
  rw [← bytesFrom_add] at hargument
  have hnil : ∀ i st, allAt i [] text st = .ok (Outcome.startingAt ⟨0, .ok []⟩ st) := fun _ _ => rfl
  have hparts := allAt_cons_eq 0 Grammar.mnemonic.label hword
    (allAt_cons_eq 1 (Grammar.optional .number).label hargument (hnil _ _))
  change _ = Except.ok (((parseInstr (bytesFrom text st)).map Value.instr).startingAt st)
  unfold instructionAt parseInstr
  rw [hparts, ok_bind, parseOperand]
  generalize parseMnemonic (bytesFrom text st) = m
  obtain ⟨used, answer⟩ := m
  cases answer with
  | error e => rfl
  | ok op =>
    dsimp only [Outcome.map]
    generalize orNothing _ = a
    obtain ⟨used', answer'⟩ := a
    cases answer' with
    | error e => rfl
    | ok arg => exact bind_eq_ok.mpr ⟨_, instructionOf_eq op arg (used + used'), rfl⟩

mutual

lemma Grammar.agrees : ∀ g : Grammar, Agrees g.parser g.parse
  | .number => agrees_numberAt
  | .mnemonic => agrees_mnemonicAt
  | .register => agrees_registerAt
  | .instruction => agrees_instructionAt
  | .optional g => fun text st hst => optionalAt_eq (Grammar.agrees g text st hst)
  | .all gs => fun text st hst =>
    bind_eq_ok.mpr ⟨_, Grammar.allAt_parsers gs 0 text st hst, rfl⟩
  | .any gs => fun text st hst => Grammar.anyAt_parsers gs (gs.map Grammar.label) text st hst none
  | .spaced blanks g => fun _ _ hst => spacedAt_eq blanks g.label (Grammar.agrees g) hst

lemma Grammar.allAt_parsers : ∀ (gs : List Grammar) (i : ℕ) (text : Array UInt8) (st : ℕ), st ≤ text.size →
    allAt i (Grammar.parsers gs) text st = .ok ((Grammar.parseAll i gs (bytesFrom text st)).startingAt st)
  | [], _, _, _, _ => rfl
  | g :: gs, i, text, st, hst => by
    have hrest := Grammar.allAt_parsers gs (i + 1) text _ ((Grammar.agrees g).used_le g.delivers hst)
    rw [← bytesFrom_add] at hrest
    exact allAt_cons_eq i g.label (Grammar.agrees g text st hst) hrest

lemma Grammar.anyAt_parsers : ∀ (gs : List Grammar) (labels : List String) (text : Array UInt8) (st : ℕ),
    st ≤ text.size → ∀ failed : Option (Outcome Value),
    anyAt labels (failed.map (·.startingAt st)) (Grammar.parsers gs) text st =
      .ok ((firstOf labels failed (Grammar.parseEach gs (bytesFrom text st))).startingAt st)
  | [], labels, _, _, _, failed => anyAt_nil_eq labels failed
  | g :: gs, labels, text, st, hst, failed =>
    anyAt_cons_eq g.label (Grammar.agrees g text st hst) (Grammar.anyAt_parsers gs labels text st hst) failed

end

lemma scanFrom_end (h : text.size ≤ i) : scanFrom text i = .ok (.ok []) := by
  rw [scanFrom, if_neg (by omega)]

lemma scanFrom_of_lt (h : i < text.size) : scanFrom text i =
    spacedAt .all Grammar.instruction.label instructionAt text i >>= fun r =>
      match r with
      | ⟨j, .error e⟩ => do
        let (line, col) := lineCol (← slice text 0 j)
        return .error (.malformed line col e)
      | ⟨j, .ok (.instr x)⟩ => do
        let code ← scanFrom text (Blanks.all.skipAt text j)
        return code.map (x :: ·)
      | ⟨_, .ok _⟩ => .error .shape := by
  rw [scanFrom, if_pos h]
  split
  · next hr => rw [hr, error_bind]
  · next hr => rw [hr, ok_bind]
  · next hr => rw [hr, ok_bind]
  · next v hother hr =>
    rw [hr, ok_bind]
    cases v with
    | instr x => exact absurd rfl (hother x)
    | _ => rfl

lemma scanFrom_error {e : ParseError} (h : i < text.size)
    (hr : spacedAt .all Grammar.instruction.label instructionAt text i = .ok ⟨j, .error e⟩)
    (hj : j ≤ text.size) :
    scanFrom text i = .ok (.error (.malformed (lineCol (text.toList.take j)).1
      (lineCol (text.toList.take j)).2 e)) := by
  have hslice : slice text 0 j = .ok (text.toList.take j) := by
    rw [slice_eq_ok (Nat.zero_le j) hj, Array.toList_extract, List.extract_eq_take_drop]
    rfl
  rw [scanFrom_of_lt h, hr, ok_bind]
  dsimp only
  rw [hslice, ok_bind]
  rfl

lemma scanFrom_instr {x : Instr} (h : i < text.size)
    (hr : spacedAt .all Grammar.instruction.label instructionAt text i = .ok ⟨j, .ok (.instr x)⟩) :
    scanFrom text i =
      (scanFrom text (Blanks.all.skipAt text j) >>= fun code => pure (code.map (x :: ·))) := by
  rw [scanFrom_of_lt h, hr, ok_bind]

lemma scanFrom_eq (fuel : ℕ) (hst : st ≤ text.size) (hfuel : text.size - st < fuel) :
    scanFrom text st = .ok (readInstrs text.toList fuel st (bytesFrom text st)) := by
  induction fuel generalizing st with
  | zero => omega
  | succ fuel ih =>
    rw [readInstrs]
    rcases hst.eq_or_lt with hend | hlt
    · rw [scanFrom_end hend.ge, bytesFrom_of_ge hend.ge]
      rfl
    · have hshape : (Grammar.spaced .all .instruction).parse (bytesFrom text st) =
          (afterBlanks .all Grammar.instruction.label parseInstr (bytesFrom text st)).map Value.instr :=
        afterBlanks_map Value.instr parseInstr (bytesFrom text st)
      have hread := (Grammar.spaced .all .instruction).agrees text st hst
      have hinside := (Grammar.spaced .all .instruction).agrees.used_le (Grammar.delivers _) hst
      rw [hshape] at hread hinside
      have hempty : (bytesFrom text st).isEmpty = false := by rw [bytesFrom_of_lt hlt]; rfl
      rw [hempty]
      generalize afterBlanks .all Grammar.instruction.label parseInstr (bytesFrom text st) = r at hread hinside
      obtain ⟨used, answer⟩ := r
      change st + used ≤ text.size at hinside
      cases answer with
      | error e => exact scanFrom_error hlt hread hinside
      | ok x =>
        have hmore : st < st + used := lt_of_spacedAt hread
        have hgap := Blanks.all.le_skipAt text (st + used)
        have hinstr : spacedAt .all Grammar.instruction.label instructionAt text st =
            .ok ⟨st + used, .ok (.instr x)⟩ := hread
        rw [scanFrom_instr hlt hinstr, ih (skipAt_le .all hinside) (by omega), ok_bind, skipAt_eq]
        rw [if_neg Bool.false_ne_true]
        dsimp only
        rw [bytesFrom_add, bytesFrom_add]
        rfl

/-- Listings are read in place without a fault, as from a list of bytes. -/
theorem scan_eq_read (text : Array UInt8) : scan text = .ok (read text.toList) := by
  have hgap : Blanks.all.skipAt text 0 = Blanks.all.skip false text.toList :=
    (skipAt_eq .all text 0).trans (Nat.zero_add _)
  have hinside : Blanks.all.skipAt text 0 ≤ text.size := skipAt_le .all (Nat.zero_le _)
  have hcode := scanFrom_eq (text.size + 1) hinside (by omega)
  unfold scan read
  rw [hcode, ok_bind, hgap]
  change _ = Except.ok (readInstrs text.toList (text.size + 1) (Blanks.all.skip false text.toList)
    (bytesFrom text (Blanks.all.skip false text.toList)) >>= _)
  generalize readInstrs _ _ _ _ = r
  cases r with
  | error e => rfl
  | ok code =>
    rw [ok_bind]
    dsimp only
    generalize strayJump? code = stray
    cases stray with
    | none => rfl
    | some jump => rfl

end Accumulator.Listing
