import Mathlib
import Accumulator.Proofs.Exec
import Accumulator.Proofs.ListingRoundTrip

/-!
# The grammar of listings

`IsListing` says which texts are listings, without reference to the way they are read: gaps of blanks
and comments with instructions between them. Reading succeeds on exactly these texts whose jumps stay
inside the program, and gives their instructions.
-/

namespace Accumulator.Listing

open Machine Text

/-- Blanks and comments in front of the bytes `rest`. A comment runs from its sign up to the next line
feed or the end of the text. -/
inductive Gap : List UInt8 → List UInt8 → Prop where
  | nil {rest : List UInt8} : Gap [] rest
  | blank {c : UInt8} {gap rest : List UInt8} : c ∈ [32, 9, 13, 10] → Gap gap rest →
    Gap (c :: gap) rest
  | comment {t gap rest : List UInt8} : 10 ∉ t → (∀ c ∈ (gap ++ rest).head?, c = 10) → Gap gap rest →
    Gap (35 :: (t ++ gap)) rest

/-- The number that digits spell. -/
def numeral (ds : List UInt8) : Nat := Nat.ofDigitChars 10 (ds.map fun c => Char.ofNat c.toNat) 0

/-- The text of an instruction in front of the bytes `rest`. The mnemonic is the longest run of capital
letters: behind one that takes an argument there is a blank or the argument, which has none. -/
inductive Spelling : Instr → List UInt8 → List UInt8 → Prop where
  | plain {op : Op} {rest : List UInt8} : op ∈ [.read, .write, .halt] →
    (∀ c ∈ rest.head?, isUpper c = false) → Spelling { op := op } (bytes op.name) rest
  | jump {op : Op} {blanks ds rest : List UInt8} : op ∈ [.jump, .jpos, .jzero] →
    (∀ c ∈ blanks, c = 32 ∨ c = 9) → ds ≠ [] → (∀ c ∈ ds, isDigit c = true) →
    numeral ds ≤ 2 ^ 31 - 1 → EndsWord rest →
    Spelling { op := op, addr := numeral ds } (bytes op.name ++ (blanks ++ ds)) rest
  | register {op : Op} {r : Reg} {blanks rest : List UInt8} : op ∈ Op.all →
    op ∉ [.read, .write, .halt, .jump, .jpos, .jzero] → (∀ c ∈ blanks, c = 32 ∨ c = 9) →
    r ∈ Reg.all → EndsWord rest →
    Spelling { op := op, reg := r } (bytes op.name ++ (blanks ++ bytes r.name)) rest

/-- A text of gaps with instructions between them. -/
inductive IsListing : List UInt8 → List Instr → Prop where
  | nil {gap : List UInt8} : Gap gap [] → IsListing gap []
  | cons {gap word rest : List UInt8} {i : Instr} {code : List Instr} : Gap gap (word ++ rest) →
    Spelling i word rest → IsListing rest code → IsListing (gap ++ (word ++ rest)) (i :: code)

variable {s t gap word rest blanks ds : List UInt8} {i : Instr} {code : List Instr} {n k : Nat}

/-- What ends a gap: the end of the text, or a byte that is no blank and starts no comment. -/
def EndsGap (s : Blanks) (rest : List UInt8) : Prop := ∀ c ∈ rest.head?, s.isBlank c = false ∧ c ≠ 35

lemma isBlank_all (c : UInt8) : Blanks.all.isBlank c = true ↔ c ∈ ([32, 9, 13, 10] : List UInt8) := by
  by_cases hc : c.toNat < 64
  · exact forall_small (P := fun c => Blanks.all.isBlank c = true ↔ c ∈ ([32, 9, 13, 10] : List UInt8))
      (by decide) hc
  · have hnot : c ∉ ([32, 9, 13, 10] : List UInt8) := fun hmem => hc (by
      simp only [List.mem_cons, List.not_mem_nil, or_false] at hmem
      rcases hmem with rfl | rfl | rfl | rfl <;> decide)
    simp [not_blank_of_letter (Nat.le_of_not_lt hc), hnot]

lemma isBlank_inLine (c : UInt8) : Blanks.inLine.isBlank c = true ↔ c = 32 ∨ c = 9 := by
  by_cases hc : c.toNat < 64
  · exact forall_small (P := fun c => Blanks.inLine.isBlank c = true ↔ c = 32 ∨ c = 9) (by decide) hc
  · have hnot : ¬ (c = 32 ∨ c = 9) := fun hmem => hc (by rcases hmem with rfl | rfl <;> decide)
    simp [not_blank_of_letter (Nat.le_of_not_lt hc), hnot]

lemma ne_sign_of_toNat {c : UInt8} (h : c.toNat ≠ 35) : c ≠ 35 := by
  rintro rfl
  exact h rfl

lemma of_isUpper {c : UInt8} (h : isUpper c = true) (s : Blanks) :
    s.isBlank c = false ∧ c ≠ 35 ∧ c.toNat < 97 ∧ isDigit c = false := by
  obtain ⟨hlo, hhi⟩ := isUpper_iff.mp h
  refine ⟨not_blank_of_letter (by omega), ne_sign_of_toNat (by omega), by omega, ?_⟩
  rw [Bool.eq_false_iff, ne_eq, isDigit_iff]
  omega

lemma Gap.append {gap' : List UInt8} (h : Gap gap (gap' ++ rest)) (h' : Gap gap' rest) :
    Gap (gap ++ gap') rest := by
  generalize hr : gap' ++ rest = r at h
  induction h with
  | nil => exact h'
  | blank hc _ ih => exact .blank hc (ih hr)
  | comment ht hend _ ih =>
    subst hr
    rw [List.cons_append, List.append_assoc]
    exact .comment ht (by rwa [List.append_assoc]) (ih rfl)

lemma skip_true_eq (b : Blanks) (h : ∀ c ∈ s.head?, c = 10) : b.skip true s = b.skip false s := by
  cases s with
  | nil => rfl
  | cons c s =>
    obtain rfl := h c (by simp)
    simp [Blanks.skip]

lemma Gap.skip (h : Gap gap rest) (hend : EndsGap .all rest) :
    Blanks.all.skip false (gap ++ rest) = gap.length := by
  induction h with
  | @nil rest =>
    cases rest with
    | nil => rfl
    | cons c rest =>
      obtain ⟨hblank, hsign⟩ := hend c (by simp)
      exact skip_stop hblank hsign rest
  | @blank c gap rest hc _ ih =>
    have hblank : Blanks.all.isBlank c = true := (isBlank_all c).mpr hc
    rw [List.cons_append, Blanks.skip, if_neg (by simp), if_pos hblank, ih hend, List.length_cons]
  | @comment t gap rest ht hline _ ih =>
    have hsign : Blanks.all.isBlank 35 = false := by decide
    rw [List.cons_append, Blanks.skip, if_neg (by simp), if_neg (by simp [hsign]), if_pos (by simp),
      List.append_assoc, skip_comment _ ht, skip_true_eq _ hline, ih hend]
    simp

lemma gap_take_skip (s : List UInt8) (inComment : Bool) :
    let k := Blanks.all.skip inComment s
    EndsGap .all (s.drop k) ∧ ∃ t gap, s.take k = t ++ gap ∧ 10 ∉ t ∧ Gap gap (s.drop k) ∧
      (inComment = true → ∀ c ∈ (gap ++ s.drop k).head?, c = 10) ∧ (inComment = false → t = []) := by
  induction s generalizing inComment with
  | nil => exact ⟨by simp [EndsGap], [], [], by simp [Blanks.skip, Gap.nil]⟩
  | cons c s ih =>
    dsimp only
    rw [Blanks.skip]
    split
    · next hc =>
      simp only [Bool.and_eq_true, bne_iff_ne] at hc
      obtain ⟨hend, t, gap, htake, ht, hgap, hline, -⟩ := ih true
      refine ⟨hend, c :: t, gap, by simp [htake], ?_, hgap, fun _ => hline rfl, by simp [hc.1]⟩
      rw [List.mem_cons, not_or]
      exact ⟨fun h => hc.2 h.symm, ht⟩
    split
    · next hc hblank =>
      obtain ⟨hend, t, gap, htake, ht, hgap, -, hnil⟩ := ih false
      obtain rfl := hnil rfl
      refine ⟨hend, [], c :: gap, by simpa using htake, by simp,
        .blank ((isBlank_all c).mp hblank) hgap, fun hin => ?_, fun _ => rfl⟩
      simpa [hin] using hc
    split
    · next hc hblank hsign =>
      obtain rfl : c = 35 := by simpa using hsign
      obtain ⟨hend, t, gap, htake, ht, hgap, hline, -⟩ := ih true
      refine ⟨hend, [], 35 :: (t ++ gap), by simpa using htake, by simp,
        .comment ht (hline rfl) hgap, fun hin => ?_, fun _ => rfl⟩
      simp [hin] at hc
    · next hc hblank hsign =>
      refine ⟨?_, [], [], by simp, by simp, .nil, fun hin => ?_, fun _ => rfl⟩
      · intro d hd
        obtain rfl : c = d := by simpa using hd
        exact ⟨by simpa using hblank, by simpa using hsign⟩
      · simpa [hin] using hc

lemma gap_skip (s : List UInt8) :
    Gap (s.take (Blanks.all.skip false s)) (s.drop (Blanks.all.skip false s)) ∧
      EndsGap .all (s.drop (Blanks.all.skip false s)) := by
  obtain ⟨hend, t, gap, htake, -, hgap, -, hnil⟩ := gap_take_skip s false
  obtain rfl := hnil rfl
  rw [htake]
  exact ⟨hgap, hend⟩

lemma IsListing.behind_gap (hgap : Gap gap s) (h : IsListing s code) : IsListing (gap ++ s) code := by
  cases h with
  | nil h => exact .nil (Gap.append (by rwa [List.append_nil]) h)
  | cons h hi hrest =>
    rw [← List.append_assoc]
    exact .cons (hgap.append h) hi hrest

lemma skip_le_length (b : Blanks) (s : List UInt8) (inComment : Bool) :
    b.skip inComment s ≤ s.length := by
  induction s generalizing inComment with
  | nil => simp [Blanks.skip]
  | cons c s ih =>
    have := ih true
    have := ih false
    rw [Blanks.skip, List.length_cons]
    split_ifs <;> omega

lemma skip_blanks (hblanks : ∀ c ∈ blanks, c = 32 ∨ c = 9) (hend : EndsGap .inLine rest) :
    Blanks.inLine.skip false (blanks ++ rest) = blanks.length := by
  induction blanks with
  | nil =>
    cases rest with
    | nil => rfl
    | cons c rest =>
      obtain ⟨hblank, hsign⟩ := hend c (by simp)
      exact skip_stop hblank hsign rest
  | cons c blanks ih =>
    have hblank : Blanks.inLine.isBlank c = true := (isBlank_inLine c).mpr (hblanks c (by simp))
    rw [List.cons_append, Blanks.skip, if_neg (by simp), if_pos hblank,
      ih fun d hd => hblanks d (by simp [hd]), List.length_cons]

/-- Whether nothing follows on a line. -/
def EndsLine (rest : List UInt8) : Prop := ∀ c ∈ rest.head?, c = 10

/-- Behind a comment nothing follows on its line, so that what is found behind skipped bytes of a line
stands behind blanks. -/
lemma take_skip_inLine (s : List UInt8) (inComment : Bool) :
    let k := Blanks.inLine.skip inComment s
    EndsLine (s.drop k) ∨ inComment = false ∧ ∀ c ∈ s.take k, c = 32 ∨ c = 9 := by
  induction s generalizing inComment with
  | nil => exact Or.inl (by simp [EndsLine])
  | cons c s ih =>
    dsimp only
    rw [Blanks.skip]
    split
    · exact Or.inl ((ih true).resolve_right (by simp))
    split
    · next hc hblank =>
      rcases ih false with hend | ⟨-, hall⟩
      · exact Or.inl hend
      refine Or.inr ⟨?_, ?_⟩
      · have hten : c ≠ 10 := by
          rintro rfl
          exact absurd hblank (by decide)
        simpa [hten] using hc
      · rw [List.take_succ_cons, List.forall_mem_cons]
        exact ⟨(isBlank_inLine c).mp hblank, hall⟩
    split
    · exact Or.inl ((ih true).resolve_right (by simp))
    · next hc hblank hsign =>
      cases inComment with
      | false => exact Or.inr ⟨rfl, by simp⟩
      | true =>
        left
        intro d hd
        obtain rfl : c = d := by simpa using hd
        simpa using hc

lemma byteOf_ofNat (c : UInt8) : byteOf (Char.ofNat c.toNat) = c := by
  have h : (Char.ofNat c.toNat).toNat = c.toNat := by
    rw [Char.toNat_ofNat, if_pos (Or.inl (c.toNat_lt.trans (by decide)))]
  rw [byteOf, h, UInt8.ofNat_toNat]

lemma map_byteOf_ofNat (ds : List UInt8) :
    (ds.map fun c => Char.ofNat c.toNat).map byteOf = ds := by
  rw [List.map_map]
  exact List.map_id'' byteOf_ofNat ds

lemma isDigit_ofNat (c : UInt8) (h : isDigit c = true) : (Char.ofNat c.toNat).isDigit = true := by
  have hlt : c.toNat < 64 := by
    have := isDigit_iff.mp h
    omega
  exact forall_small (P := fun c => isDigit c = true → (Char.ofNat c.toNat).isDigit = true) (by decide)
    hlt h

lemma parseNumber_digits (hne : ds ≠ []) (hds : ∀ c ∈ ds, isDigit c = true)
    (hbound : numeral ds ≤ maxNumber) (hrest : EndsWord rest) :
    parseNumber (ds ++ rest) = ⟨ds.length, .ok (numeral ds)⟩ := by
  have hchars : ∀ c ∈ ds.map (fun c => Char.ofNat c.toNat), c.isDigit = true := by
    intro c hc
    obtain ⟨d, hd, rfl⟩ := List.mem_map.mp hc
    exact isDigit_ofNat d (hds d hd)
  have hdigits := digits_numeral hchars hrest 0 0 hbound
  rw [map_byteOf_ofNat] at hdigits
  rw [parseNumber, hdigits]
  simp [hne, numeral]

lemma digits_sound {m used : Nat} (h : digits n used s = ⟨k, .ok m⟩) :
    ∃ ds rest, s = ds ++ rest ∧ (∀ c ∈ ds, isDigit c = true) ∧ k = used + ds.length ∧
      m = Nat.ofDigitChars 10 (ds.map fun c => Char.ofNat c.toNat) n ∧ (n ≤ maxNumber → m ≤ maxNumber) ∧
      (k ≠ 0 → EndsWord rest) := by
  induction s generalizing n used with
  | nil =>
    cases h
    exact ⟨[], [], by simp [EndsWord]⟩
  | cons c s ih =>
    rw [digits] at h
    split at h
    · next hc =>
      dsimp only at h
      split at h
      · next hle =>
        obtain ⟨ds, rest, rfl, hds, hk, hm, hbound, hend⟩ := ih h
        refine ⟨c :: ds, rest, rfl, ?_, ?_, ?_, fun _ => hbound hle, hend⟩
        · rw [List.forall_mem_cons]
          exact ⟨hc, hds⟩
        · simp only [hk, List.length_cons]
          omega
        · have hchar : (Char.ofNat c.toNat).toNat = c.toNat := by
            rw [Char.toNat_ofNat, if_pos (Or.inl (c.toNat_lt.trans (by decide)))]
          rw [List.map_cons, Nat.ofDigitChars_cons, hchar, hm, Nat.mul_comm]
          rfl
      · cases h
    · next hc =>
      split at h
      · cases h
      · next hword =>
        cases h
        refine ⟨[], c :: s, rfl, by simp, by simp, by simp, id, fun hk d hd => ?_⟩
        obtain rfl : c = d := by simpa using hd
        simpa [hk] using hword

lemma parseNumber_sound {m : Nat} (h : parseNumber s = ⟨k, .ok m⟩) :
    ∃ ds rest, s = ds ++ rest ∧ ds ≠ [] ∧ (∀ c ∈ ds, isDigit c = true) ∧ k = ds.length ∧
      m = numeral ds ∧ m ≤ maxNumber ∧ EndsWord rest := by
  cases hd : digits 0 0 s with
  | mk used answer =>
    simp only [parseNumber, hd] at h
    cases answer with
    | error e => cases h
    | ok v =>
      dsimp only at h
      split at h
      · cases h
      · next hused =>
        cases h
        obtain ⟨ds, rest, rfl, hds, hk, hm, hbound, hend⟩ := digits_sound hd
        have hpos : k ≠ 0 := by simpa using hused
        refine ⟨ds, rest, rfl, ?_, hds, by omega, hm, hbound (by decide), hend hpos⟩
        rintro rfl
        simp only [List.length_nil] at hk
        omega

lemma parseMnemonic_sound {op : Op} (h : parseMnemonic s = ⟨k, .ok op⟩) :
    op ∈ Op.all ∧ ∃ rest, s = bytes op.name ++ rest ∧ k = (bytes op.name).length ∧
      ∀ c ∈ rest.head?, isUpper c = false := by
  simp only [parseMnemonic] at h
  split at h
  · cases h
  · split at h
    · next op' hfind =>
      cases h
      have hmem : op ∈ Op.all := List.mem_of_find?_eq_some hfind
      have hname : op.name = String.ofList ((s.takeWhile isUpper).map fun c => Char.ofNat c.toNat) := by
        simpa using List.find?_some hfind
      have hword : bytes op.name = s.takeWhile isUpper := by
        rw [bytes_name hmem, hname, String.toList_ofList, map_byteOf_ofNat]
      refine ⟨hmem, s.dropWhile isUpper, ?_, by rw [hword], fun c hc => ?_⟩
      · rw [hword, List.takeWhile_append_dropWhile]
      · have := List.head?_dropWhile_not isUpper s
        rw [hc] at this
        simpa using this
    · cases h

lemma parseRegister_sound {r : Reg} (h : parseRegister s = ⟨k, .ok r⟩) :
    r ∈ Reg.all ∧ ∃ rest, s = bytes r.name ++ rest ∧ k = 1 ∧ EndsWord rest := by
  cases s with
  | nil => cases h
  | cons c s =>
    rw [parseRegister] at h
    split at h
    · cases h
    · next hword =>
      split at h
      · next r' hfind =>
        cases h
        have hmem : r ∈ Reg.all := List.mem_of_find?_eq_some hfind
        have hname : r.name = String.ofList [Char.ofNat c.toNat] := by
          simpa using List.find?_some hfind
        obtain ⟨d, hd, -, hlow⟩ := name_letter hmem
        obtain rfl : d = Char.ofNat c.toNat := by
          simpa using String.ofList_injective (hd.symm.trans hname)
        have hbytes : bytes r.name = [c] := by
          rw [hname, bytes_of_ascii (by simpa using hlow), String.toList_ofList, List.map_singleton,
            byteOf_ofNat]
        refine ⟨hmem, s, by rw [hbytes]; rfl, rfl, fun d hd => ?_⟩
        rw [Option.mem_def.mp hd] at hword
        simpa using hword
      · cases h

/-- What does not start an argument. -/
def NoArgument (s : List UInt8) : Prop := ∀ c ∈ s.head?, c.toNat < 97 ∧ isDigit c = false

lemma parseArgument_noArgument (h : NoArgument s) :
    (parseArgument s).used = 0 ∧ ∃ e, (parseArgument s).answer = .error e := by
  have hreg : parseRegister s = ⟨0, .error .registerExpected⟩ := by
    cases s with
    | nil => rfl
    | cons c s => exact parseRegister_none (h c (by simp)).1 s
  have hnum : parseNumber s = ⟨0, .error .numberExpected⟩ := by
    cases s with
    | nil => rfl
    | cons c s =>
      have hdigit := (h c (by simp)).2
      simp [parseNumber, digits, hdigit]
  simp only [parseArgument, hreg, hnum]
  exact ⟨rfl, _, rfl⟩

/-- The text of an argument. -/
def Argument.Text : Argument → List UInt8 → Prop
  | .reg r, w => r ∈ Reg.all ∧ w = bytes r.name
  | .address n, w => w ≠ [] ∧ (∀ c ∈ w, isDigit c = true) ∧ n = numeral w ∧ n ≤ maxNumber

variable {a : Argument}

lemma Argument.Text.head (h : a.Text word) :
    ∃ c w, word = c :: w ∧ isUpper c = false ∧ Blanks.inLine.isBlank c = false ∧ c ≠ 35 := by
  have hupper : ∀ {c : UInt8}, 97 ≤ c.toNat ∨ isDigit c = true → isUpper c = false := by
    intro c hc
    rw [isDigit_iff] at hc
    rw [Bool.eq_false_iff, ne_eq, isUpper_iff]
    omega
  cases a with
  | reg r =>
    obtain ⟨c, hc, hle, -⟩ := bytes_letter h.1
    exact ⟨c, [], h.2.trans hc, hupper (Or.inl hle), not_blank_of_letter (by omega),
      ne_sign_of_toNat (by omega)⟩
  | address n =>
    obtain ⟨c, w, rfl⟩ := List.exists_cons_of_ne_nil h.1
    have hc : isDigit c = true := h.2.1 c (by simp)
    have hbounds := isDigit_iff.mp hc
    exact ⟨c, w, rfl, hupper (Or.inr hc), not_blank_of_digit hc, ne_sign_of_toNat (by omega)⟩

lemma parseArgument_text (h : a.Text word) (hrest : EndsWord rest) :
    parseArgument (word ++ rest) = ⟨word.length, .ok a⟩ := by
  cases a with
  | reg r =>
    obtain ⟨hr, rfl⟩ := h
    obtain ⟨c, hc, -⟩ := bytes_letter hr
    rw [parseArgument_reg hr hrest, hc]
    rfl
  | address n =>
    obtain ⟨hne, hds, rfl, hbound⟩ := h
    have hnum := parseNumber_digits hne hds hbound hrest
    have hreg : parseRegister (word ++ rest) = ⟨0, .error .registerExpected⟩ := by
      obtain ⟨c, w, rfl⟩ := List.exists_cons_of_ne_nil hne
      have hbounds := isDigit_iff.mp (hds c (by simp))
      exact parseRegister_none (by omega) (w ++ rest)
    simp only [parseArgument, hreg, hnum]
    rfl

lemma parseArgument_sound (h : parseArgument s = ⟨k, .ok a⟩) :
    ∃ word rest, s = word ++ rest ∧ k = word.length ∧ a.Text word ∧ EndsWord rest := by
  have hcases := parseArgument_cases (congrArg Outcome.answer h)
  rw [h] at hcases
  rcases hcases with ⟨r, rfl, hr⟩ | ⟨n, rfl, hn⟩
  · obtain ⟨hmem, rest, rfl, hk, hend⟩ := parseRegister_sound hr
    obtain ⟨c, hc, -⟩ := bytes_letter hmem
    exact ⟨bytes r.name, rest, rfl, by rw [hc]; exact hk, ⟨hmem, rfl⟩, hend⟩
  · obtain ⟨ds, rest, rfl, hne, hds, hk, hm, hbound, hend⟩ := parseNumber_sound hn
    exact ⟨ds, rest, rfl, hk, ⟨hne, hds, hm, hbound⟩, hend⟩

lemma argument_sound {label : String} (h : afterBlanks .inLine label parseArgument s = ⟨k, .ok a⟩) :
    ∃ blanks word rest, s = blanks ++ (word ++ rest) ∧ (∀ c ∈ blanks, c = 32 ∨ c = 9) ∧
      k = (blanks ++ word).length ∧ a.Text word ∧ EndsWord rest := by
  cases hp : parseArgument (s.drop (Blanks.inLine.skip false s)) with
  | mk used answer =>
    simp only [afterBlanks, hp] at h
    cases answer with
    | error e => cases h
    | ok a' =>
      cases h
      obtain ⟨word, rest, hdrop, rfl, htext, hend⟩ := parseArgument_sound hp
      refine ⟨s.take (Blanks.inLine.skip false s), word, rest, ?_, ?_, ?_, htext, hend⟩
      · rw [← hdrop, List.take_append_drop]
      · refine ((take_skip_inLine s false).resolve_left fun hline => ?_).2
        have hnone : NoArgument (s.drop (Blanks.inLine.skip false s)) := by
          intro c hc
          rw [hline c hc]
          decide
        obtain ⟨-, e, he⟩ := parseArgument_noArgument hnone
        rw [hp] at he
        cases he
      · rw [List.length_append, List.length_take, Nat.min_eq_left (skip_le_length _ s false)]

lemma head_argument (hblanks : ∀ c ∈ blanks, c = 32 ∨ c = 9) (htext : a.Text word) :
    ∀ c ∈ (blanks ++ word ++ rest).head?, isUpper c = false := by
  intro c hc
  cases blanks with
  | nil =>
    obtain ⟨d, w, rfl, hupper, -⟩ := htext.head
    obtain rfl : d = c := by simpa using hc
    exact hupper
  | cons b blanks =>
    obtain rfl : b = c := by simpa using hc
    rcases hblanks b (by simp) with rfl | rfl <;> decide

lemma parseInstr_argument {op : Op} (hop : op ∈ Op.all) (hblanks : ∀ c ∈ blanks, c = 32 ∨ c = 9)
    (htext : a.Text word) (hrest : EndsWord rest) :
    parseInstr (bytes op.name ++ (blanks ++ (word ++ rest))) =
      assemble op (some a) (bytes op.name ++ (blanks ++ word)).length := by
  obtain ⟨c, w, hword, -, hblank, hsign⟩ := htext.head
  have hend : EndsGap .inLine (word ++ rest) := by
    intro d hd
    obtain rfl : c = d := by simpa [hword] using hd
    exact ⟨hblank, hsign⟩
  have hhead : ∀ d ∈ (blanks ++ (word ++ rest)).head?, isUpper d = false := by
    rw [← List.append_assoc]
    exact head_argument hblanks htext
  have hskip := skip_blanks hblanks hend
  have harg : afterBlanks .inLine (Grammar.any []).label parseArgument (blanks ++ (word ++ rest)) =
      ⟨blanks.length + word.length, .ok a⟩ := by
    refine afterBlanks_ok hskip ?_
    rw [List.drop_left, parseArgument_text htext hrest]
  rw [parseInstr]
  simp only [parseMnemonic_name hop hhead, List.drop_left, harg, orNothing, List.length_append]

lemma parseInstr_alone {op : Op} (hop : op ∈ Op.all) (hhead : ∀ c ∈ rest.head?, isUpper c = false)
    (hnone : NoArgument (rest.drop (Blanks.inLine.skip false rest))) :
    parseInstr (bytes op.name ++ rest) = assemble op none (bytes op.name).length := by
  obtain ⟨hused, herror⟩ := parseArgument_noArgument hnone
  have harg : orNothing (afterBlanks .inLine (Grammar.any []).label parseArgument rest) =
      ⟨0, .ok none⟩ := orNothing_afterBlanks rfl hused herror
  rw [parseInstr]
  simp only [parseMnemonic_name hop hhead, List.drop_left, harg, Nat.add_zero]

lemma Spelling.parseInstr (h : Spelling i word rest)
    (hnone : NoArgument (rest.drop (Blanks.inLine.skip false rest))) :
    Listing.parseInstr (word ++ rest) = ⟨word.length, .ok i⟩ := by
  cases h with
  | @plain op _ hop hhead =>
    have hknown : op ∈ Op.all ∧ op.hasReg = false ∧ op.isJump = false := by
      revert op
      decide
    rw [parseInstr_alone hknown.1 hhead hnone, assemble, hknown.2.1, hknown.2.2]
    rfl
  | @jump op blanks ds _ hop hblanks hne hds hbound hend =>
    have hknown : op ∈ Op.all ∧ op.isJump = true := by
      revert op
      decide
    have htext : (Argument.address (numeral ds)).Text ds := ⟨hne, hds, rfl, hbound⟩
    rw [List.append_assoc, List.append_assoc, parseInstr_argument hknown.1 hblanks htext hend, assemble,
      if_pos hknown.2]
  | @register op r blanks _ hop hother hblanks hr hend =>
    have hknown : op.hasReg = true := by
      revert op
      decide
    have htext : (Argument.reg r).Text (bytes r.name) := ⟨hr, rfl⟩
    rw [List.append_assoc, List.append_assoc, parseInstr_argument hop hblanks htext hend, assemble,
      if_pos hknown]

lemma assemble_sound {op : Op} {arg : Option Argument} {used : Nat} (hop : op ∈ Op.all)
    (h : assemble op arg used = ⟨k, .ok i⟩) :
    k = used ∧ ((∃ r, arg = some (.reg r) ∧ op ∉ [Op.read, .write, .halt, .jump, .jpos, .jzero] ∧
        i = { op := op, reg := r }) ∨
      (∃ n, arg = some (.address n) ∧ op ∈ [Op.jump, .jpos, .jzero] ∧ i = { op := op, addr := n }) ∨
      arg = none ∧ op ∈ [Op.read, .write, .halt] ∧ i = { op := op }) := by
  unfold assemble at h
  split at h
  · next r =>
    split at h
    · next hreg =>
      cases h
      refine ⟨rfl, Or.inl ⟨r, rfl, ?_, rfl⟩⟩
      revert op
      decide
    · cases h
  · next n =>
    split at h
    · next hjump =>
      cases h
      refine ⟨rfl, Or.inr (Or.inl ⟨n, rfl, ?_, rfl⟩)⟩
      revert op
      decide
    · cases h
  · split at h
    · cases h
    · next hno =>
      cases h
      refine ⟨rfl, Or.inr (Or.inr ⟨rfl, ?_, rfl⟩)⟩
      revert op
      decide

lemma parseInstr_sound (h : Listing.parseInstr s = ⟨k, .ok i⟩) :
    ∃ word rest, s = word ++ rest ∧ k = word.length ∧ Spelling i word rest := by
  cases hm : parseMnemonic s with
  | mk used answer =>
    cases answer with
    | error e =>
      simp only [Listing.parseInstr, hm] at h
      cases h
    | ok op =>
      obtain ⟨hop, rest, rfl, rfl, hhead⟩ := parseMnemonic_sound hm
      simp only [Listing.parseInstr, hm, List.drop_left] at h
      cases ha : afterBlanks .inLine (Grammar.any []).label parseArgument rest with
      | mk j answer =>
        cases answer with
        | error e =>
          by_cases hj : j = 0
          · simp only [ha, orNothing, hj, beq_self_eq_true, if_true] at h
            obtain ⟨rfl, ⟨r, harg, -⟩ | ⟨n, harg, -⟩ | ⟨-, hplain, rfl⟩⟩ := assemble_sound hop h
            · cases harg
            · cases harg
            · exact ⟨bytes op.name, rest, rfl, rfl, .plain hplain hhead⟩
          · simp only [ha, orNothing, beq_iff_eq, hj, if_false] at h
            cases h
        | ok a =>
          simp only [ha, orNothing] at h
          obtain ⟨blanks, word, rest, rfl, hblanks, rfl, htext, hend⟩ := argument_sound ha
          refine ⟨bytes op.name ++ (blanks ++ word), rest, by simp, ?_⟩
          obtain ⟨rfl, ⟨r, harg, hreg, rfl⟩ | ⟨n, harg, hjump, rfl⟩ | ⟨harg, -⟩⟩ := assemble_sound hop h
          · obtain rfl : a = .reg r := Option.some.inj harg
            obtain ⟨hr, rfl⟩ := htext
            exact ⟨by simp, .register hop hreg hblanks hr hend⟩
          · obtain rfl : a = .address n := Option.some.inj harg
            obtain ⟨hne, hds, rfl, hbound⟩ := htext
            exact ⟨by simp, .jump hjump hblanks hne hds hbound hend⟩
          · cases harg

lemma Spelling.name (h : Spelling i word rest) :
    i.op ∈ Op.all ∧ ∃ w, word = bytes i.op.name ++ w ∧ ∀ c ∈ (w ++ rest).head?, isUpper c = false := by
  cases h with
  | @plain op _ hop hhead =>
    have hknown : ∀ op ∈ [Op.read, .write, .halt], op ∈ Op.all := by decide
    exact ⟨hknown op hop, [], by simp, hhead⟩
  | @jump op blanks ds _ hop hblanks hne hds hbound _ =>
    have hknown : ∀ op ∈ [Op.jump, .jpos, .jzero], op ∈ Op.all := by decide
    have htext : (Argument.address (numeral ds)).Text ds := ⟨hne, hds, rfl, hbound⟩
    exact ⟨hknown op hop, blanks ++ ds, rfl, head_argument hblanks htext⟩
  | @register op r blanks _ hop _ hblanks hr _ =>
    have htext : (Argument.reg r).Text (bytes r.name) := ⟨hr, rfl⟩
    exact ⟨hop, blanks ++ bytes r.name, rfl, head_argument hblanks htext⟩

lemma Spelling.head (h : Spelling i word rest) : ∃ c w, word = c :: w ∧ isUpper c = true := by
  obtain ⟨hop, w, rfl, -⟩ := h.name
  obtain ⟨c, cs, hc, hupper⟩ := bytes_name_cons hop
  exact ⟨c, cs ++ w, by rw [hc, List.cons_append], hupper⟩

lemma Spelling.endsGap (h : Spelling i word rest) : EndsGap .all (word ++ rest) := by
  obtain ⟨c, w, rfl, hupper⟩ := h.head
  intro d hd
  obtain rfl : c = d := by simpa using hd
  exact ⟨(of_isUpper hupper .all).1, (of_isUpper hupper .all).2.1⟩

/-- Behind a mnemonic the next instruction, or nothing, stands where an argument could. -/
lemma Gap.noArgument (h : Gap gap rest) (hrest : ∀ c ∈ rest.head?, isUpper c = true) :
    NoArgument ((gap ++ rest).drop (Blanks.inLine.skip false (gap ++ rest))) := by
  induction h with
  | @nil rest =>
    cases rest with
    | nil => simp [NoArgument]
    | cons c rest =>
      obtain ⟨hblank, hsign, hnone⟩ := of_isUpper (hrest c (by simp)) .inLine
      rw [List.nil_append, skip_stop hblank hsign rest, List.drop_zero]
      intro d hd
      obtain rfl : c = d := by simpa using hd
      exact hnone
  | @blank c gap rest hc _ ih =>
    by_cases hblank : Blanks.inLine.isBlank c = true
    · rw [List.cons_append, Blanks.skip, if_neg (by simp), if_pos hblank, List.drop_succ_cons]
      exact ih hrest
    · have hnone : ∀ d ∈ ([32, 9, 13, 10] : List UInt8), d ≠ 35 ∧ d.toNat < 97 ∧ isDigit d = false := by
        simp [isDigit]
      rw [List.cons_append, skip_stop (by simpa using hblank) (hnone c hc).1, List.drop_zero]
      intro d hd
      obtain rfl : c = d := by simpa using hd
      exact (hnone c hc).2
  | @comment t gap rest ht hline _ _ =>
    have hend : Blanks.inLine.skip false (gap ++ rest) = 0 := by
      cases hs : gap ++ rest with
      | nil => rfl
      | cons c s =>
        obtain rfl := hline c (by simp [hs])
        exact skip_stop (by decide) (by decide) s
    have hsign : Blanks.inLine.isBlank 35 = false := by decide
    rw [List.cons_append, Blanks.skip, if_neg (by simp), if_neg (by simp [hsign]), if_pos (by simp),
      List.append_assoc, skip_comment _ ht, skip_true_eq _ hline, hend, List.drop_succ_cons,
      List.drop_left]
    intro c hc
    rw [hline c hc]
    decide

lemma IsListing.noArgument (h : IsListing s code) :
    NoArgument (s.drop (Blanks.inLine.skip false s)) := by
  cases h with
  | nil hgap =>
    have := hgap.noArgument (by simp)
    rwa [List.append_nil] at this
  | cons hgap hi _ =>
    refine hgap.noArgument fun c hc => ?_
    obtain ⟨d, w, rfl, hupper⟩ := hi.head
    obtain rfl : d = c := by simpa using hc
    exact hupper

lemma IsListing.length_le (h : IsListing s code) : code.length ≤ s.length := by
  induction h with
  | nil _ => simp
  | cons _ hi _ ih =>
    obtain ⟨c, w, rfl, -⟩ := hi.head
    simp only [List.length_append, List.length_cons]
    omega

lemma IsListing.readInstrs (text : List UInt8) (h : IsListing s code) (fuel at_ : Nat)
    (hfuel : code.length < fuel) :
    Listing.readInstrs text fuel at_ (s.drop (Blanks.all.skip false s)) = .ok code := by
  induction h generalizing fuel at_ with
  | @nil gap hgap =>
    have hskip := hgap.skip (by simp [EndsGap])
    rw [List.append_nil] at hskip
    obtain ⟨fuel, rfl⟩ : ∃ m, fuel = m + 1 := ⟨fuel - 1, by omega⟩
    rw [hskip, List.drop_length]
    rfl
  | @cons gap word rest i code hgap hi hrest ih =>
    obtain ⟨fuel, rfl⟩ : ∃ m, fuel = m + 1 := ⟨fuel - 1, by omega⟩
    have hempty : (word ++ rest).isEmpty = false := by
      obtain ⟨c, w, rfl, -⟩ := hi.head
      rfl
    have hstart : Blanks.all.skip false (word ++ rest) = 0 := Gap.nil.skip hi.endsGap
    have hread : afterBlanks .all Grammar.instruction.label Listing.parseInstr (word ++ rest) =
        ⟨0 + word.length, .ok i⟩ := afterBlanks_ok hstart (hi.parseInstr hrest.noArgument)
    rw [hgap.skip hi.endsGap, List.drop_left, Listing.readInstrs]
    simp only [hempty, hread, Nat.zero_add, List.drop_left]
    rw [ih _ _ (by simpa using hfuel)]
    rfl

lemma readInstrs_sound {text : List UInt8} {fuel at_ : Nat} (hfuel : s.length < fuel)
    (h : Listing.readInstrs text fuel at_ s = .ok code) : IsListing s code := by
  induction fuel generalizing at_ s code with
  | zero => omega
  | succ fuel ih =>
    rw [Listing.readInstrs] at h
    split at h
    · next hempty =>
      obtain rfl := Except.ok.inj h
      rw [List.isEmpty_iff.mp hempty]
      exact .nil .nil
    · obtain ⟨hgap, -⟩ := gap_skip s
      cases hp : Listing.parseInstr (s.drop (Blanks.all.skip false s)) with
      | mk used answer =>
        cases answer with
        | error e =>
          simp only [afterBlanks, hp] at h
          cases h
        | ok i =>
          obtain ⟨word, rest, hdrop, rfl, hi⟩ := parseInstr_sound hp
          have hs : s = s.take (Blanks.all.skip false s) ++ (word ++ rest) := by
            rw [← hdrop, List.take_append_drop]
          have hread : s.drop (Blanks.all.skip false s + word.length) = rest := by
            rw [← List.drop_drop, hdrop, List.drop_left]
          have hok : afterBlanks .all Grammar.instruction.label Listing.parseInstr s =
              ⟨Blanks.all.skip false s + word.length, .ok i⟩ := afterBlanks_ok rfl hp
          simp only [hok, hread] at h
          obtain ⟨code', hcode, rfl⟩ := map_eq_ok.mp h
          rw [hdrop] at hgap
          obtain ⟨hnext, -⟩ := gap_skip rest
          have hlen : (rest.drop (Blanks.all.skip false rest)).length < fuel := by
            obtain ⟨c, w, rfl, -⟩ := hi.head
            have := congrArg List.length hs
            simp only [List.length_append, List.length_cons] at this
            rw [List.length_drop]
            omega
          have hrest := (ih hlen hcode).behind_gap hnext
          rw [List.take_append_drop] at hrest
          rw [hs]
          exact .cons hgap hi hrest

lemma readInstrs_eq_ok_iff {text : List UInt8} (at_ : Nat) :
    Listing.readInstrs text (text.length + 1) at_ (text.drop (Blanks.all.skip false text)) = .ok code ↔
      IsListing text code := by
  constructor
  · intro h
    have hlen : (text.drop (Blanks.all.skip false text)).length < text.length + 1 := by
      rw [List.length_drop]
      omega
    have hrest := (readInstrs_sound hlen h).behind_gap (gap_skip text).1
    rwa [List.take_append_drop] at hrest
  · intro h
    exact h.readInstrs text _ _ (Nat.lt_succ_of_le h.length_le)

lemma IsListing.unique {code' : List Instr} (h : IsListing s code) (h' : IsListing s code') :
    code = code' := by
  rw [← readInstrs_eq_ok_iff 0] at h h'
  exact Except.ok.inj (h.symm.trans h')

lemma read_ok_iff {text : List UInt8} :
    read text = .ok code ↔ IsListing text code ∧ strayJump? code = none := by
  simp only [read, bind_eq_ok, readInstrs_eq_ok_iff]
  constructor
  · rintro ⟨code', hcode, h⟩
    split at h
    · cases h
    · next hstray =>
      obtain rfl := Except.ok.inj h
      exact ⟨hcode, hstray⟩
  · rintro ⟨hcode, hstray⟩
    exact ⟨code, hcode, by rw [hstray]⟩

/-- Reading accepts exactly the listings whose jumps stay inside the program, and gives their
instructions. -/
theorem read_eq_ok_iff_isListing (text : List UInt8) (code : List Instr) :
    read text = .ok code ↔
      IsListing text code ∧ ∀ i ∈ code, i.op.isJump = true → 0 ≤ i.addr ∧ i.addr < code.length := by
  rw [read_ok_iff, strayJump?_eq_none]

end Accumulator.Listing
