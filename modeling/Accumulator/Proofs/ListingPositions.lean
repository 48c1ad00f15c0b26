import Mathlib
import Accumulator.Proofs.ReadingInPlace

/-!
# Positions of malformed instructions

A listing is read instruction by instruction, each behind the blanks that follow the one before. If one of
them does not parse, the error tells its line, and a column between the first byte of the instruction and
the end of that line.
-/

namespace Accumulator.Listing

open Machine

variable {text : Array UInt8} {i j k : ℕ}

/-- The number of the line that holds an offset. -/
def lineOf (text : Array UInt8) (i : ℕ) : ℕ := (text.toList.take i).count 10 + 1

/-- The number of an offset in its line. -/
def columnOf (text : Array UInt8) (i : ℕ) : ℕ := ((text.toList.take i).reverse.takeWhile (· != 10)).length + 1

/-- The offset behind the last byte of a line: its line feed, or the end of the text. -/
def lineEnd (text : Array UInt8) (i : ℕ) : ℕ := i + ((bytesFrom text i).takeWhile (· != 10)).length

lemma lineCol_concat (s : List UInt8) (c : UInt8) :
    lineCol (s ++ [c]) = if c == 10 then ((lineCol s).1 + 1, 1) else ((lineCol s).1, (lineCol s).2 + 1) := by
  rw [lineCol, List.foldl_append]
  rfl

lemma lineCol_eq (s : List UInt8) :
    lineCol s = (s.count 10 + 1, (s.reverse.takeWhile (· != 10)).length + 1) := by
  induction s using List.reverseRecOn with
  | nil => rfl
  | append_singleton s c ih =>
    rw [lineCol_concat, ih, List.count_append, List.reverse_concat]
    by_cases hc : c = 10
    · subst hc
      rw [List.takeWhile_cons_of_neg (by decide)]
      rfl
    · rw [if_neg (by simpa using hc), List.takeWhile_cons_of_pos (by simpa using hc),
        List.count_singleton, if_neg (by simpa using hc)]
      rfl

lemma OnLine.split (h : OnLine text i j) (hij : i ≤ j) :
    ∃ t, text.toList.take j = text.toList.take i ++ t ∧ bytesFrom text i = t ++ bytesFrom text j ∧
      t.length = j - i ∧ 10 ∉ t := by
  have hlen : ((bytesFrom text i).take (j - i)).length = j - i := by
    have := h.1
    simp only [List.length_take, List.length_drop, Array.length_toList]
    omega
  refine ⟨(bytesFrom text i).take (j - i), ?_, ?_, hlen, fun hten => ?_⟩
  · rw [← List.take_add, Nat.add_sub_cancel' hij]
  · have := List.take_append_drop (j - i) (bytesFrom text i)
    rw [bytesFrom_add, Nat.add_sub_cancel' hij] at this
    exact this.symm
  · obtain ⟨k, hk, hget⟩ := List.mem_iff_getElem.mp hten
    refine h.2 (i + k) (Nat.le_add_right i k) (by omega) ?_
    rw [← Array.getElem?_toList, ← List.getElem?_drop, ← List.getElem?_take_of_lt (hlen ▸ hk),
      List.getElem?_eq_getElem hk, hget]

lemma lineOf_eq (h : OnLine text i j) (hij : i ≤ j) : lineOf text j = lineOf text i := by
  obtain ⟨t, htake, -, -, hten⟩ := h.split hij
  rw [lineOf, lineOf, htake, List.count_append, List.count_eq_zero.mpr hten, Nat.add_zero]

lemma columnOf_eq (h : OnLine text i j) (hij : i ≤ j) : columnOf text j = columnOf text i + (j - i) := by
  obtain ⟨t, htake, -, hlen, hten⟩ := h.split hij
  have hall : ∀ c ∈ t.reverse, (c != 10) = true := by
    intro c hc
    simpa using fun hc' : c = 10 => hten (hc' ▸ List.mem_reverse.mp hc)
  rw [columnOf, columnOf, htake, List.reverse_append, List.takeWhile_append_of_pos hall, List.length_append,
    List.length_reverse, hlen]
  omega

lemma onLine_lineEnd (h : i ≤ text.size) : OnLine text i (lineEnd text i) := by
  rw [lineEnd, ← scanWhile_eq]
  exact onLine_scanWhile (by decide) h

lemma le_lineEnd (h : OnLine text i j) (hij : i ≤ j) : j ≤ lineEnd text i := by
  obtain ⟨t, -, hsplit, hlen, hten⟩ := h.split hij
  have hall : ∀ c ∈ t, (c != 10) = true := by
    intro c hc
    simpa using fun hc' : c = 10 => hten (hc' ▸ hc)
  rw [lineEnd, hsplit, List.takeWhile_append_of_pos hall, List.length_append]
  omega

lemma columnOf_mem (h : OnLine text i j) (hij : i ≤ j) :
    columnOf text i ≤ columnOf text j ∧ columnOf text j ≤ columnOf text (lineEnd text i) := by
  have hend := le_lineEnd h hij
  rw [columnOf_eq h hij, columnOf_eq (onLine_lineEnd (hij.trans h.1)) (hij.trans hend)]
  omega

/-- From the instruction at `i`, which is read, blanks lead to `k`. -/
def NextStart (text : Array UInt8) (i k : ℕ) : Prop :=
  ∃ j v, instructionAt text i = .ok ⟨j, .ok v⟩ ∧ k = Blanks.all.skipAt text j

/-- The instruction at `start` does not parse, and is the first such from the one at `i` on. -/
def MalformedFrom (text : Array UInt8) (i start : ℕ) : Prop :=
  Relation.ReflTransGen (NextStart text) i start ∧ start < text.size ∧
    ∃ j, FailsAt instructionAt text start j

/-- The first instruction of the text that does not parse starts at `start`. -/
def FirstMalformed (text : Array UInt8) (start : ℕ) : Prop :=
  MalformedFrom text (Blanks.all.skipAt text 0) start

lemma malformedFrom_of_next {start : ℕ} (h : NextStart text i k) :
    MalformedFrom text i start ↔ MalformedFrom text k start := by
  obtain ⟨j, v, hi, rfl⟩ := h
  constructor
  · rintro ⟨hreach, hlt, j', e, hfails⟩
    refine ⟨?_, hlt, j', e, hfails⟩
    rcases hreach.cases_head with rfl | ⟨k, ⟨j'', v', hi', rfl⟩, hreach⟩
    · rw [hi] at hfails
      cases hfails
    · rw [hi] at hi'
      cases hi'
      exact hreach
  · rintro ⟨hreach, hrest⟩
    exact ⟨.head ⟨j, v, hi, rfl⟩ hreach, hrest⟩

lemma malformedFrom_of_fails {start : ℕ} (hlt : i < text.size) (h : FailsAt instructionAt text i j) :
    MalformedFrom text i start ↔ start = i := by
  constructor
  · rintro ⟨hreach, -⟩
    rcases hreach.cases_head with rfl | ⟨k, ⟨j', v, hi, -⟩, -⟩
    · rfl
    · obtain ⟨e, he⟩ := h
      rw [he] at hi
      cases hi
  · rintro rfl
    exact ⟨.refl, hlt, j, h⟩

lemma not_malformedFrom_size (start : ℕ) : ¬MalformedFrom text text.size start := by
  rintro ⟨hreach, hlt, -⟩
  rcases hreach.cases_head with rfl | ⟨k, ⟨j, v, hi, -⟩, -⟩
  · exact lt_irrefl _ hlt
  · obtain ⟨r, hr, hpos, -⟩ := delivers_instructionAt text text.size le_rfl
    obtain rfl := Except.ok.inj (hi.symm.trans hr)
    exact absurd (lt_of_instructionAt hi) (not_lt.mpr hpos.1)

lemma skipAt_skipAt (blanks : Blanks) (text : Array UInt8) (i : ℕ) :
    blanks.skipAt text (blanks.skipAt text i) = blanks.skipAt text i := by
  fun_induction Blanks.skipAt blanks text i with
  | case1 i _ _ ih => exact ih
  | case2 i _ _ _ ih => exact ih
  | case3 i hlt hblank hsign => rw [Blanks.skipAt, dif_pos hlt, if_neg hblank, dif_neg hsign]
  | case4 i hge => rw [Blanks.skipAt, dif_neg hge]

/-- An error with a position points at the first instruction from `i` on that does not parse; without such
an error there is none. -/
def Pinpoints (text : Array UInt8) (i : ℕ) : Except ListingError (List Instr) → Prop
  | .error (.malformed line col _) => ∃ start, (∀ k, MalformedFrom text i k ↔ k = start) ∧
      line = lineOf text start ∧ columnOf text start ≤ col ∧ col ≤ columnOf text (lineEnd text start)
  | _ => ∀ k, ¬MalformedFrom text i k

lemma Pinpoints.of_next {r : Except ListingError (List Instr)} (h : NextStart text i k) (x : Instr)
    (hr : Pinpoints text k r) : Pinpoints text i (r.map (x :: ·)) := by
  have hiff : ∀ start, MalformedFrom text i start ↔ MalformedFrom text k start :=
    fun start => malformedFrom_of_next h
  rcases r with (⟨line, col, e⟩ | ⟨index, addr⟩) | code
  · obtain ⟨start, hstart, hposition⟩ := hr
    exact ⟨start, fun k => (hiff k).trans (hstart k), hposition⟩
  · exact fun k hk => hr k ((hiff k).mp hk)
  · exact fun k hk => hr k ((hiff k).mp hk)

/-- An error inside an instruction is located by the line that its parser stays on. -/
lemma located_lineCol {e : ParseError} (hlt : i < text.size) (hij : i ≤ j)
    (hfails : FailsAt instructionAt text i j) (hline : OnLine text i j) :
    Pinpoints text i (.error (.malformed (lineCol (text.toList.take j)).1
      (lineCol (text.toList.take j)).2 e)) := by
  refine ⟨i, fun k => malformedFrom_of_fails hlt hfails, ?_⟩
  rw [lineCol_eq]
  exact ⟨lineOf_eq hline hij, columnOf_mem hline hij⟩

lemma spacedAt_of_ok {p : Parser Value} {blanks : Blanks} {label : String} {v : Value}
    (hblanks : blanks.skipAt text i = i) (h : p text i = .ok ⟨j, .ok v⟩) :
    spacedAt blanks label p text i = .ok ⟨j, .ok v⟩ := by
  unfold spacedAt
  dsimp only
  rw [hblanks, h, ok_bind]
  rfl

lemma spacedAt_of_error {p : Parser Value} {blanks : Blanks} {label : String} {e : ParseError}
    (hblanks : blanks.skipAt text i = i) (h : p text i = .ok ⟨j, .error e⟩) :
    spacedAt blanks label p text i = .ok ⟨j, .error (.inside label none e)⟩ := by
  have hpos : (if j = i then i else j) = j := by
    split
    · next hji => exact hji.symm
    · rfl
  unfold spacedAt
  dsimp only
  rw [hblanks, h, ok_bind]
  dsimp only
  rw [hpos]
  rfl

lemma scanFrom_located (hi : i ≤ text.size) (hblanks : Blanks.all.skipAt text i = i) :
    ∃ r, scanFrom text i = .ok r ∧ Pinpoints text i r := by
  -- The induction is on the bytes that are left: an instruction takes one of them at least.
  induction hn : text.size - i using Nat.strong_induction_on generalizing i with
  | h n ih =>
    rcases hi.eq_or_lt with rfl | hlt
    · exact ⟨_, scanFrom_end le_rfl, not_malformedFrom_size⟩
    · obtain ⟨⟨j, answer⟩, hr, hline, hv⟩ := delivers_instructionAt text i hi
      cases answer with
      | error e =>
        exact ⟨_, scanFrom_error hlt (spacedAt_of_error hblanks hr) hline.1,
          located_lineCol hlt (advances_instructionAt hr) ⟨e, hr⟩ hline⟩
      | ok v =>
        obtain ⟨x, rfl⟩ := hv v rfl
        have hij := lt_of_instructionAt hr
        have hjk := Blanks.all.le_skipAt text j
        obtain ⟨r, hrest, hlocated⟩ := ih (text.size - Blanks.all.skipAt text j) (by omega)
          (skipAt_le .all hline.1) (skipAt_skipAt .all text j) rfl
        refine ⟨r.map (x :: ·), ?_, hlocated.of_next ⟨j, _, hr, rfl⟩ x⟩
        rw [scanFrom_instr hlt (spacedAt_of_ok hblanks hr), hrest]
        rfl

lemma scan_located (text : Array UInt8) :
    ∃ r, scan text = .ok r ∧ Pinpoints text (Blanks.all.skipAt text 0) r := by
  have hinside : Blanks.all.skipAt text 0 ≤ text.size := skipAt_le .all (Nat.zero_le _)
  obtain ⟨r, hr, hlocated⟩ := scanFrom_located hinside (skipAt_skipAt .all text 0)
  unfold scan
  rw [hr, ok_bind]
  cases r with
  | error e => exact ⟨_, rfl, hlocated⟩
  | ok code =>
    dsimp only
    split
    · exact ⟨_, rfl, hlocated⟩
    · exact ⟨_, rfl, hlocated⟩

/-- Every text is read without a fault, as from a list of bytes. An error with a position tells the line of
the first instruction that does not parse, and a column from its first byte up to the end of that line; any
other answer says that all instructions parse. -/
theorem scan_locates_malformed (text : Array UInt8) :
    ∃ r, scan text = .ok r ∧ r = read text.toList ∧
      match r with
      | .error (.malformed line col _) => ∃ start, (∀ i, FirstMalformed text i ↔ i = start) ∧
          line = lineOf text start ∧ columnOf text start ≤ col ∧ col ≤ columnOf text (lineEnd text start)
      | _ => ∀ i, ¬FirstMalformed text i := by
  obtain ⟨r, hr, hlocated⟩ := scan_located text
  exact ⟨r, hr, Except.ok.inj (hr.symm.trans (scan_eq_read text)), hlocated⟩

end Accumulator.Listing
