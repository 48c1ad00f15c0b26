import Mathlib
import Accumulator.Listing.InPlace
import Accumulator.Proofs.Exec

/-!
# Where parsers stop

From every offset inside a text a parser comes to its end without a fault, and stops inside the text, not
before its start. `Delivers` says this of one parser, for the text as a whole or for one line of it, and the
combinators pass it on.
-/

namespace Accumulator.Listing

open Machine

variable {α : Type} {text : Array UInt8} {st i j k : ℕ} {label : String} {blanks : Blanks}

/-- A relation between the start and the stop of a parser that can be followed through its parts. -/
structure Composable (R : Array UInt8 → ℕ → ℕ → Prop) : Prop where
  refl : ∀ {text i}, i ≤ text.size → R text i i
  trans : ∀ {text i j k}, R text i j → R text j k → R text i k
  inside : ∀ {text i j}, R text i j → j ≤ text.size

/-- The stop is inside the text. -/
def Inside (text : Array UInt8) (_st pos : ℕ) : Prop := pos ≤ text.size

/-- The stop is inside the text, and no line ends before it. -/
def OnLine (text : Array UInt8) (st pos : ℕ) : Prop :=
  pos ≤ text.size ∧ ∀ k, st ≤ k → k < pos → text[k]? ≠ some 10

lemma composable_inside : Composable Inside := ⟨id, fun _ h => h, id⟩

lemma composable_onLine : Composable OnLine := by
  refine ⟨fun hi => ⟨hi, fun k h h' => by omega⟩, fun hij hjk => ⟨hjk.1, fun k h h' => ?_⟩, And.left⟩
  rcases Nat.lt_or_ge k _ with hlt | hge
  · exact hij.2 k h hlt
  · exact hjk.2 k hge h'

/-- From every offset inside a text the parser comes to its end, with a stop that `R` relates to its start
and, if it succeeds, a value with the property `V`. -/
def Delivers (R : Array UInt8 → ℕ → ℕ → Prop) (V : α → Prop) (p : Parser α) : Prop :=
  ∀ text st, st ≤ text.size → ∃ r, p text st = .ok r ∧ R text st r.pos ∧ ∀ v, r.answer = .ok v → V v

variable {R S : Array UInt8 → ℕ → ℕ → Prop} {V W : Value → Prop} {p : Parser Value}

lemma Delivers.mono {V W : α → Prop} {p : Parser α} (h : Delivers R V p)
    (hR : ∀ text st pos, R text st pos → S text st pos) (hV : ∀ v, V v → W v) : Delivers S W p := by
  intro text st hst
  obtain ⟨r, hr, hpos, hv⟩ := h text st hst
  exact ⟨r, hr, hR _ _ _ hpos, fun v hok => hV v (hv v hok)⟩

lemma scanWhile_le {q : UInt8 → Bool} (h : i ≤ text.size) : scanWhile q text i ≤ text.size := by
  fun_induction scanWhile q text i with
  | case1 i hlt _ ih => exact ih hlt
  | case2 => exact h
  | case3 => exact h

lemma scanWhile_all (q : UInt8 → Bool) (text : Array UInt8) (i : ℕ) :
    ∀ k, i ≤ k → k < scanWhile q text i → ∃ c, text[k]? = some c ∧ q c = true := by
  fun_induction scanWhile q text i with
  | case1 i hlt hq ih =>
    intro k hk hk'
    rcases Nat.eq_or_lt_of_le hk with rfl | hgt
    · exact ⟨text[i], Array.getElem?_eq_getElem hlt, hq⟩
    · exact ih k hgt hk'
  | case2 => intro k hk hk'; omega
  | case3 => intro k hk hk'; omega

lemma onLine_scanWhile {q : UInt8 → Bool} (hq : q 10 = false) (h : i ≤ text.size) :
    OnLine text i (scanWhile q text i) := by
  refine ⟨scanWhile_le h, fun k hk hk' hten => ?_⟩
  obtain ⟨c, hc, hqc⟩ := scanWhile_all q text i k hk hk'
  rw [hten] at hc
  obtain rfl := Option.some.inj hc
  rw [hq] at hqc
  cases hqc

lemma skipAt_le (blanks : Blanks) (h : i ≤ text.size) : blanks.skipAt text i ≤ text.size := by
  fun_induction Blanks.skipAt blanks text i with
  | case1 i hlt _ ih => exact ih hlt
  | case2 i hlt _ _ ih => exact ih (scanWhile_le h)
  | case3 => exact h
  | case4 => exact h

lemma onLine_succ (hlt : i < text.size) (hne : text[i] ≠ 10) : OnLine text i (i + 1) := by
  refine ⟨hlt, fun k hk hk' hten => ?_⟩
  obtain rfl : k = i := by omega
  rw [Array.getElem?_eq_getElem hlt] at hten
  exact hne (Option.some.inj hten)

/-- Blanks that do not end a line are skipped on one line, together with a comment. -/
lemma onLine_skipAt (hblanks : blanks.isBlank 10 = false) (h : i ≤ text.size) :
    OnLine text i (blanks.skipAt text i) := by
  fun_induction Blanks.skipAt blanks text i with
  | case1 i hlt hblank ih =>
    refine composable_onLine.trans (onLine_succ hlt fun hten => ?_) (ih hlt)
    rw [hten, hblanks] at hblank
    cases hblank
  | case2 i hlt _ _ ih =>
    exact composable_onLine.trans (onLine_scanWhile (by decide) h) (ih (scanWhile_le h))
  | case3 => exact composable_onLine.refl h
  | case4 => exact composable_onLine.refl h

lemma slice_eq_ok (hij : i ≤ j) (hj : j ≤ text.size) :
    slice text i j = .ok (text.extract i j).toList := if_pos ⟨hij, hj⟩

lemma slice_single (h : i < text.size) : slice text i (i + 1) = .ok [text[i]] := by
  rw [slice_eq_ok (Nat.le_add_right i 1) h, Array.toList_extract, List.extract_eq_take_drop,
    Nat.add_sub_cancel_left, List.take_one, List.head?_drop, Array.getElem?_toList,
    Array.getElem?_eq_getElem h]
  rfl

lemma delivers_mnemonicAt : Delivers OnLine (fun v => ∃ op, v = .op op) mnemonicAt := by
  intro text st hst
  have hle := le_scanWhile isUpper text st
  have hline : OnLine text st (scanWhile isUpper text st) := onLine_scanWhile (by decide) hst
  unfold mnemonicAt
  dsimp only
  split
  · exact ⟨_, rfl, composable_onLine.refl hst, by simp⟩
  · rw [slice_eq_ok hle hline.1, ok_bind]
    split
    · exact ⟨_, rfl, hline, fun v hv => ⟨_, (Except.ok.inj hv).symm⟩⟩
    · exact ⟨_, rfl, composable_onLine.refl hst, by simp⟩

lemma delivers_registerAt : Delivers OnLine (fun v => ∃ r, v = .reg r) registerAt := by
  intro text st hst
  unfold registerAt
  split
  · exact ⟨_, rfl, composable_onLine.refl hst, by simp⟩
  · next hne =>
    have hlt : st < text.size := lt_of_le_of_ne hst hne
    split
    · exact ⟨_, rfl, composable_onLine.refl hst, by simp⟩
    · rw [slice_single hlt, ok_bind]
      split
      · next r hr =>
        refine ⟨_, rfl, onLine_succ hlt fun hten => ?_, fun v hv => ⟨r, (Except.ok.inj hv).symm⟩⟩
        rw [hten] at hr
        cases hr
      · exact ⟨_, rfl, composable_onLine.refl hst, by simp⟩

lemma onLine_digitsAt (n : ℕ) (h : i ≤ text.size) : OnLine text i (digitsAt text i n).pos := by
  fun_induction digitsAt text i n with
  | case1 => exact composable_onLine.refl h
  | case2 i n hlt hdigit _ _ ih =>
    refine composable_onLine.trans (onLine_succ hlt fun hten => ?_) (ih hlt)
    rw [hten] at hdigit
    cases hdigit
  | case3 => exact composable_onLine.refl h
  | case4 => exact composable_onLine.refl h

lemma delivers_numberAt : Delivers OnLine (fun v => ∃ n, v = .number n) numberAt := by
  intro text st hst
  have hline : OnLine text st (digitsAt text st 0).pos := onLine_digitsAt 0 hst
  unfold numberAt
  dsimp only
  split
  · exact ⟨_, rfl, hline, by simp⟩
  · split
    · exact ⟨_, rfl, composable_onLine.refl hst, by simp⟩
    · split
      · exact ⟨_, rfl, hline, by simp⟩
      · exact ⟨_, rfl, hline, fun v hv => ⟨_, (Except.ok.inj hv).symm⟩⟩

lemma Delivers.optionalAt (hR : Composable R) (h : Delivers R V p) :
    Delivers R (fun v => V v ∨ v = .nothing) (optionalAt p) := by
  intro text st hst
  obtain ⟨r, hr, hpos, hv⟩ := h text st hst
  unfold Listing.optionalAt
  rw [hr, ok_bind]
  split
  · next hok => exact ⟨r, rfl, hpos, fun w hw => Or.inl (hv w hw)⟩
  · next e he =>
    split
    · exact ⟨_, rfl, hR.refl hst, fun w hw => Or.inr (Except.ok.inj hw).symm⟩
    · exact ⟨r, rfl, hpos, fun w hw => by simp [he] at hw⟩

lemma delivers_allAt_nil (hR : Composable R) : Delivers R (· = []) (allAt i []) := by
  intro text st hst
  exact ⟨_, rfl, hR.refl hst, fun vs hvs => (Except.ok.inj hvs).symm⟩

lemma Delivers.allAt_cons (hR : Composable R) {rest : List (String × Parser Value)} {Vs : List Value → Prop}
    (h : Delivers R V p) (hrest : Delivers R Vs (allAt (i + 1) rest)) :
    Delivers R (fun vs => ∃ v ws, vs = v :: ws ∧ V v ∧ Vs ws) (allAt i ((label, p) :: rest)) := by
  intro text st hst
  obtain ⟨r, hr, hpos, hv⟩ := h text st hst
  rw [allAt, hr, ok_bind]
  split
  · exact ⟨_, rfl, hpos, by simp⟩
  · next v hok =>
    obtain ⟨rs, hrs, hpos', hvs⟩ := hrest text r.pos (hR.inside hpos)
    rw [hrs, ok_bind]
    refine ⟨_, rfl, hR.trans hpos hpos', fun vs hvs' => ?_⟩
    cases hws : rs.answer with
    | error e =>
      rw [hws] at hvs'
      cases hvs'
    | ok ws =>
      rw [hws] at hvs'
      cases hvs'
      exact ⟨v, ws, rfl, hv v hok, hvs ws hws⟩

lemma delivers_allAt (hR : Composable R) {ps : List (String × Parser Value)} (h : ∀ q ∈ ps, Delivers R V q.2) :
    Delivers R (∀ v ∈ ·, V v) (allAt i ps) := by
  induction ps generalizing i with
  | nil => exact (delivers_allAt_nil hR).mono (fun _ _ _ => id) (by simp)
  | cons q ps ih =>
    rw [List.forall_mem_cons] at h
    refine (Delivers.allAt_cons hR h.1 (ih h.2)).mono (fun _ _ _ => id) ?_
    rintro vs ⟨v, ws, rfl, hv, hws⟩
    exact List.forall_mem_cons.mpr ⟨hv, hws⟩

section Alternatives

variable {labels : List String} {failed : Option (Stopped Value)} {ps : List (String × Parser Value)}

lemma anyAt_cons_ok {v : Value} (h : p text st = .ok ⟨j, .ok v⟩) :
    anyAt labels failed ((label, p) :: ps) text st = .ok ⟨j, .ok v⟩ := by
  rw [anyAt, h]
  rfl

/-- An alternative that fails behind the start is remembered if none before it has. -/
lemma anyAt_cons_error {e : ParseError} (h : p text st = .ok ⟨j, .error e⟩) :
    anyAt labels failed ((label, p) :: ps) text st =
      anyAt labels (if j = st then failed else failed.or (some ⟨j, .error (.inside label none e)⟩)) ps
        text st := by
  rw [anyAt, h, ok_bind]
  dsimp only
  split
  · rfl
  · rfl

lemma mem_remembered {f : Stopped Value} {e : ParseError}
    (h : f ∈ if j = st then failed else failed.or (some ⟨j, .error e⟩)) :
    f ∈ failed ∨ f = ⟨j, .error e⟩ := by
  split at h
  · exact Or.inl h
  · cases failed with
    | none => exact Or.inr (Option.some.inj h).symm
    | some g => exact Or.inl h

lemma exists_anyAt (hR : Composable R) (h : ∀ q ∈ ps, Delivers R V q.2) (hst : st ≤ text.size)
    (hfailed : ∀ f ∈ failed, R text st f.pos ∧ ∃ e, f.answer = .error e) :
    ∃ r, anyAt labels failed ps text st = .ok r ∧ R text st r.pos ∧ ∀ v, r.answer = .ok v → V v := by
  induction ps generalizing failed with
  | nil =>
    refine ⟨_, rfl, ?_⟩
    cases failed with
    | none => exact ⟨hR.refl hst, by simp⟩
    | some f =>
      obtain ⟨hpos, e, he⟩ := hfailed f rfl
      exact ⟨hpos, fun v hv => by simp [he] at hv⟩
  | cons q ps ih =>
    rw [List.forall_mem_cons] at h
    obtain ⟨⟨j, answer⟩, hr, hpos, hv⟩ := h.1 text st hst
    cases answer with
    | ok v => exact ⟨_, anyAt_cons_ok hr, hpos, hv⟩
    | error e =>
      rw [anyAt_cons_error hr]
      refine ih h.2 fun f hf => ?_
      rcases mem_remembered hf with hf | rfl
      · exact hfailed f hf
      · exact ⟨hpos, _, rfl⟩

end Alternatives

lemma delivers_anyAt (hR : Composable R) {labels : List String} {ps : List (String × Parser Value)}
    (h : ∀ q ∈ ps, Delivers R V q.2) : Delivers R V (anyAt labels none ps) :=
  fun _ _ hst => exists_anyAt hR h hst (by simp)

lemma Delivers.spacedAt (hR : Composable R) (h : Delivers R V p)
    (hskip : ∀ text i, i ≤ text.size → R text i (blanks.skipAt text i)) :
    Delivers R V (spacedAt blanks label p) := by
  intro text st hst
  have hgap := hskip text st hst
  obtain ⟨r, hr, hpos, hv⟩ := h text (blanks.skipAt text st) (hR.inside hgap)
  unfold Listing.spacedAt
  dsimp only
  rw [hr, ok_bind]
  split
  · exact ⟨r, rfl, hR.trans hgap hpos, hv⟩
  · refine ⟨_, rfl, ?_, by simp⟩
    dsimp only
    split
    · exact hR.refl hst
    · exact hR.trans hgap hpos

/-- The values that an argument can have. -/
def IsArgument (v : Value) : Prop := (∃ r, v = .reg r) ∨ (∃ n, v = .number n) ∨ v = .nothing

lemma delivers_argumentAt : Delivers OnLine IsArgument argumentAt := by
  have hany : Delivers OnLine (fun v => (∃ r, v = .reg r) ∨ ∃ n, v = .number n)
      (anyAt [Grammar.register.label, Grammar.number.label] none
        [(Grammar.register.label, registerAt), (Grammar.number.label, numberAt)]) := by
    refine delivers_anyAt composable_onLine fun q hq => ?_
    rcases List.mem_cons.mp hq with rfl | hq
    · exact delivers_registerAt.mono (fun _ _ _ => id) fun v => Or.inl
    · obtain rfl := List.mem_singleton.mp hq
      exact delivers_numberAt.mono (fun _ _ _ => id) fun v => Or.inr
  have hskip : ∀ text i, i ≤ text.size → OnLine text i (Blanks.inLine.skipAt text i) :=
    fun _ _ => onLine_skipAt (by decide)
  refine ((hany.spacedAt composable_onLine hskip).optionalAt composable_onLine).mono (fun _ _ _ => id) ?_
  rintro v ((hr | hn) | rfl)
  · exact Or.inl hr
  · exact Or.inr (Or.inl hn)
  · exact Or.inr (Or.inr rfl)

lemma exists_instructionOf (op : Op) {v : Value} (hv : IsArgument v) (st pos : ℕ) :
    ∃ r, instructionOf st pos [.op op, v] = .ok r := by
  rcases hv with ⟨reg, rfl⟩ | ⟨n, rfl⟩ | rfl
  · exact ⟨_, rfl⟩
  · exact ⟨_, rfl⟩
  · exact ⟨_, rfl⟩

lemma pos_instructionOf {pos : ℕ} {values : List Value} {r : Stopped Instr}
    (h : instructionOf st pos values = .ok r) : r.pos = st ∨ r.pos = pos := by
  unfold instructionOf at h
  split at h
  · obtain rfl := Except.ok.inj h
    split
    · exact Or.inr rfl
    · exact Or.inl rfl
  · obtain rfl := Except.ok.inj h
    split
    · exact Or.inr rfl
    · exact Or.inl rfl
  · obtain rfl := Except.ok.inj h
    split
    · exact Or.inr rfl
    · exact Or.inr rfl
  · cases h

lemma advances_instructionAt : Advances instructionAt := by
  intro text st r h
  obtain ⟨r', hr', h⟩ := bind_eq_ok.mp h
  have hle : st ≤ r'.pos := by
    refine advances_allAt (fun q hq => ?_) hr'
    rcases List.mem_cons.mp hq with rfl | hq
    · exact advances_mnemonicAt
    · obtain rfl := List.mem_singleton.mp hq
      exact advances_argumentAt
  split at h
  · cases h
    exact hle
  · obtain ⟨i, hi, h⟩ := bind_eq_ok.mp h
    cases h
    rcases pos_instructionOf hi with hpos | hpos
    · exact hpos.ge
    · exact hle.trans hpos.ge

lemma delivers_instructionAt : Delivers OnLine (fun v => ∃ i, v = .instr i) instructionAt := by
  intro text st hst
  obtain ⟨r, hr, hpos, hvs⟩ := (delivers_mnemonicAt.allAt_cons composable_onLine
    (delivers_argumentAt.allAt_cons composable_onLine (delivers_allAt_nil composable_onLine))) text st hst
  unfold instructionAt
  rw [hr, ok_bind]
  split
  · exact ⟨_, rfl, hpos, by simp⟩
  · next values hok =>
    obtain ⟨-, -, rfl, ⟨op, rfl⟩, v, -, rfl, hv, rfl⟩ := hvs values hok
    obtain ⟨s, hs⟩ := exists_instructionOf op hv st r.pos
    rw [hs, ok_bind]
    refine ⟨_, rfl, ?_, fun w hw => ?_⟩
    · dsimp only
      rcases pos_instructionOf hs with h | h
      · rw [h]
        exact composable_onLine.refl hst
      · rw [h]
        exact hpos
    · cases hi : s.answer with
      | error e =>
        rw [hi] at hw
        cases hw
      | ok i =>
        rw [hi] at hw
        exact ⟨i, (Except.ok.inj hw).symm⟩

mutual

lemma Grammar.advances : ∀ g : Grammar, Advances g.parser
  | .number => advances_numberAt
  | .mnemonic => advances_mnemonicAt
  | .register => advances_registerAt
  | .instruction => advances_instructionAt
  | .optional g => Advances.optionalAt (Grammar.advances g)
  | .all gs => fun h => by
    obtain ⟨r', hr', h⟩ := bind_eq_ok.mp h
    have hle := advances_allAt (Grammar.advances_parsers gs) hr'
    cases h
    exact hle
  | .any gs => advances_anyAt (Grammar.advances_parsers gs) (by simp)
  | .spaced blanks g => Advances.spacedAt (Grammar.advances g) blanks g.label

lemma Grammar.advances_parsers : ∀ gs : List Grammar, ∀ q ∈ Grammar.parsers gs, Advances q.2
  | [], q, hq => by simp [Grammar.parsers] at hq
  | g :: gs, q, hq => by
    rw [Grammar.parsers, List.mem_cons] at hq
    rcases hq with rfl | hq
    · exact Grammar.advances g
    · exact Grammar.advances_parsers gs q hq

end

mutual

lemma Grammar.delivers : ∀ g : Grammar, Delivers Inside (fun _ => True) g.parser
  | .number => delivers_numberAt.mono (fun _ _ _ => And.left) fun _ _ => trivial
  | .mnemonic => delivers_mnemonicAt.mono (fun _ _ _ => And.left) fun _ _ => trivial
  | .register => delivers_registerAt.mono (fun _ _ _ => And.left) fun _ _ => trivial
  | .instruction => delivers_instructionAt.mono (fun _ _ _ => And.left) fun _ _ => trivial
  | .optional g => ((Grammar.delivers g).optionalAt composable_inside).mono (fun _ _ _ => id) fun _ _ => trivial
  | .all gs => by
    intro text st hst
    obtain ⟨r, hr, hpos, -⟩ := delivers_allAt (i := 0) composable_inside (Grammar.delivers_parsers gs) text st hst
    exact ⟨⟨r.pos, r.answer.map .list⟩, bind_eq_ok.mpr ⟨r, hr, rfl⟩, hpos, fun _ _ => trivial⟩
  | .any gs => delivers_anyAt composable_inside (Grammar.delivers_parsers gs)
  | .spaced _ g => (Grammar.delivers g).spacedAt composable_inside fun _ _ => skipAt_le _

lemma Grammar.delivers_parsers :
    ∀ gs : List Grammar, ∀ q ∈ Grammar.parsers gs, Delivers Inside (fun _ => True) q.2
  | [], q, hq => by simp [Grammar.parsers] at hq
  | g :: gs, q, hq => by
    rw [Grammar.parsers, List.mem_cons] at hq
    rcases hq with rfl | hq
    · exact Grammar.delivers g
    · exact Grammar.delivers_parsers gs q hq

end

/-- From `st` on the parser fails, and stops at `i`. -/
def FailsAt (p : Parser Value) (text : Array UInt8) (st i : ℕ) : Prop := ∃ e, p text st = .ok ⟨i, .error e⟩

lemma optionalAt_failsAt_iff : FailsAt (optionalAt p) text st i ↔ FailsAt p text st i ∧ i ≠ st := by
  unfold FailsAt optionalAt
  constructor
  · rintro ⟨e, h⟩
    obtain ⟨⟨j, answer⟩, hr, h⟩ := bind_eq_ok.mp h
    cases answer with
    | ok v => cases h
    | error e' =>
      dsimp only at h
      split at h
      · cases h
      · next hne =>
        cases h
        exact ⟨⟨e, hr⟩, hne⟩
  · rintro ⟨⟨e, hr⟩, hne⟩
    refine ⟨e, bind_eq_ok.mpr ⟨_, hr, ?_⟩⟩
    exact if_neg hne

lemma anyAt_failsAt_iff {labels : List String} {failed : Option (Stopped Value)}
    {ps : List (String × Parser Value)} (hps : ∀ q ∈ ps, ∃ r, q.2 text st = .ok r)
    (hfailed : ∀ f ∈ failed, ∃ e, f.answer = .error e) :
    (∃ i, FailsAt (anyAt labels failed ps) text st i) ↔ ∀ q ∈ ps, ∃ i, FailsAt q.2 text st i := by
  induction ps generalizing failed with
  | nil =>
    simp only [List.not_mem_nil, false_implies, implies_true, iff_true]
    cases failed with
    | none => exact ⟨st, _, rfl⟩
    | some f =>
      obtain ⟨e, he⟩ := hfailed f rfl
      exact ⟨f.pos, e, by rw [← he]; rfl⟩
  | cons q ps ih =>
    rw [List.forall_mem_cons] at hps ⊢
    obtain ⟨⟨⟨j, answer⟩, hr⟩, hps⟩ := hps
    cases answer with
    | ok v =>
      have hq : ¬∃ i, FailsAt q.2 text st i := by simp [FailsAt, hr]
      have hany : ¬∃ i, FailsAt (anyAt labels failed (q :: ps)) text st i := by
        rintro ⟨i, e, h⟩
        rw [anyAt_cons_ok hr] at h
        cases h
      exact iff_of_false hany fun h => hq h.1
    | error e =>
      have hq : ∃ i, FailsAt q.2 text st i := ⟨j, e, hr⟩
      rw [and_iff_right hq]
      unfold FailsAt
      rw [anyAt_cons_error hr]
      refine ih hps fun f hf => ?_
      rcases mem_remembered hf with hf | rfl
      · exact hfailed f hf
      · exact ⟨_, rfl⟩

lemma forall_mem_parsers {P : Parser Value → Prop} :
    ∀ {gs : List Grammar}, (∀ q ∈ Grammar.parsers gs, P q.2) ↔ ∀ g ∈ gs, P g.parser
  | [] => by simp [Grammar.parsers]
  | g :: gs => by rw [Grammar.parsers, List.forall_mem_cons, List.forall_mem_cons, forall_mem_parsers]

/-- From every offset inside a text every shape is parsed without a fault, and its parser stops inside the
text and not before its start. A shape that may be absent fails where the shape itself fails behind the
start; alternatives fail if each of them does. -/
theorem parsers_stop_inside (text : Array UInt8) (st : ℕ) (hst : st ≤ text.size) :
    (∀ g : Grammar, ∃ r, g.parser text st = .ok r ∧ st ≤ r.pos ∧ r.pos ≤ text.size) ∧
    (∀ (g : Grammar) (i : ℕ),
      FailsAt (Grammar.optional g).parser text st i ↔ FailsAt g.parser text st i ∧ i ≠ st) ∧
    ∀ gs : List Grammar, (∃ i, FailsAt (Grammar.any gs).parser text st i) ↔
      ∀ g ∈ gs, ∃ i, FailsAt g.parser text st i := by
  refine ⟨fun g => ?_, fun g i => optionalAt_failsAt_iff, fun gs => ?_⟩
  · obtain ⟨r, hr, hpos, -⟩ := g.delivers text st hst
    exact ⟨r, hr, g.advances hr, hpos⟩
  · rw [← forall_mem_parsers (P := fun p => ∃ i, FailsAt p text st i)]
    refine anyAt_failsAt_iff (fun q hq => ?_) (by simp)
    obtain ⟨r, hr, -⟩ := Grammar.delivers_parsers gs q hq text st hst
    exact ⟨r, hr⟩

/-- A register or a number, and behind blanks maybe an instruction. -/
def nested : Grammar :=
  .all [.any [.register, .number], .optional (.spaced .all (.all [.instruction, .optional .number]))]

lemma failsAt_of_test {p : Parser Value} {text : Array UInt8} {st i : ℕ}
    (h : (p text st).toOption.any (fun r => r.pos == i && !r.answer.isOk) = true) :
    FailsAt p text st i := by
  unfold FailsAt
  cases hp : p text st with
  | error e =>
    rw [hp] at h
    cases h
  | ok r =>
    obtain ⟨j, answer⟩ := r
    rw [hp] at h
    obtain ⟨hj, hanswer⟩ : j = i ∧ answer.isOk = false := by simpa [Except.toOption] using h
    cases answer with
    | error e => exact ⟨e, by rw [hj]⟩
    | ok v => cases hanswer

/-- The text ` 7 RST`, where the register is missing. -/
def withoutRegister : Array UInt8 := #[32, 55, 32, 82, 83, 84]

/-- The instruction fails at the end of the text, and so does what may be absent. Instead of it there
can be a number, but no register. -/
theorem nested_stops_inside :
    (∃ r, nested.parser withoutRegister 1 = .ok r ∧ 1 ≤ r.pos ∧ r.pos ≤ withoutRegister.size) ∧
    FailsAt nested.parser withoutRegister 1 6 ∧
    FailsAt (Grammar.optional nested).parser withoutRegister 1 6 ∧
    (∃ i, FailsAt (Grammar.any [nested, .register]).parser withoutRegister 1 i) ∧
    ¬ ∃ i, FailsAt (Grammar.any [nested, .number]).parser withoutRegister 1 i := by
  obtain ⟨hstop, hoptional, hany⟩ := parsers_stop_inside withoutRegister 1 (by decide)
  have hnested : FailsAt nested.parser withoutRegister 1 6 := failsAt_of_test (by cbv)
  have hregister : FailsAt Grammar.register.parser withoutRegister 1 1 := failsAt_of_test (by cbv)
  have hnumber : ¬ ∃ i, FailsAt Grammar.number.parser withoutRegister 1 i := by
    rintro ⟨i, e, h⟩
    have hok : (Grammar.number.parser withoutRegister 1).toOption.any (·.answer.isOk) = true := by cbv
    rw [h] at hok
    cases hok
  refine ⟨hstop nested, hnested, (hoptional nested 6).mpr ⟨hnested, by decide⟩, (hany _).mpr ?_, ?_⟩
  · simp only [List.forall_mem_cons, List.not_mem_nil, false_implies, implies_true, and_true]
    exact ⟨⟨6, hnested⟩, 1, hregister⟩
  · rw [hany]
    exact fun h => hnumber (h .number (by simp))

end Accumulator.Listing
