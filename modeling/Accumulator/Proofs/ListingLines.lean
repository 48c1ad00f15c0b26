import Mathlib
import Accumulator.Proofs.ListingGrammar

/-!
# Listings line by line

No instruction goes over a line, so that a text is a listing exactly if each of its lines is one. A
printed listing is made of lines with instructions and of the names of functions behind number signs.
It is read back exactly if no name shows an instruction of its own.
-/

namespace Accumulator.Listing

open Machine Text

variable {s t x y gap word rest rest' : List UInt8} {i : Instr} {c code : List Instr} {n k : Nat}

lemma Gap.congr (h : Gap gap rest) (hend : EndsLine rest → EndsLine rest') : Gap gap rest' := by
  induction h with
  | nil => exact .nil
  | blank hc _ ih => exact .blank hc (ih hend)
  | @comment t gap rest ht hline _ ih =>
    refine .comment ht ?_ (ih hend)
    cases gap with
    | nil => exact hend hline
    | cons d gap => exact hline

lemma endsLine_newline (y : List UInt8) : EndsLine (10 :: y) := by
  intro c hc
  simpa using hc.symm

lemma later_newline (ht : 10 ∉ t) (h : t ++ rest = x ++ 10 :: y) :
    ∃ u, x = t ++ u ∧ rest = u ++ 10 :: y := by
  rcases List.append_eq_append_iff.mp h with ⟨u, hx, hrest⟩ | ⟨u, hx, hrest⟩
  · exact ⟨u, hx, hrest⟩
  · cases u with
    | nil => exact ⟨[], by simpa using hx.symm, by simpa using hrest.symm⟩
    | cons d u =>
      obtain ⟨rfl, -⟩ := List.cons.inj hrest
      exact absurd (by simp [hx]) ht

lemma Gap.split (h : Gap gap rest) (hgap : gap = x ++ 10 :: y) : Gap x [] ∧ Gap y rest := by
  induction h generalizing x with
  | nil => simp at hgap
  | @blank c gap rest hc hrest ih =>
    cases x with
    | nil =>
      obtain ⟨-, rfl⟩ := List.cons.inj hgap
      exact ⟨.nil, hrest⟩
    | cons d x =>
      obtain ⟨rfl, htail⟩ := List.cons.inj hgap
      obtain ⟨hx, hy⟩ := ih htail
      exact ⟨.blank hc hx, hy⟩
  | @comment t gap rest ht hline hrest ih =>
    cases x with
    | nil => exact absurd (List.cons.inj hgap).1 (by decide)
    | cons d x =>
      obtain ⟨rfl, htail⟩ := List.cons.inj hgap
      obtain ⟨u, rfl, hu⟩ := later_newline ht htail
      obtain ⟨hgap', hy⟩ := ih hu
      refine ⟨.comment ht ?_ hgap', hy⟩
      cases u with
      | nil => simp
      | cons e u =>
        rw [hu] at hline
        exact hline

lemma Spelling.newline_not_mem (h : Spelling i word rest) : 10 ∉ word := by
  have hname : ∀ {op : Op}, op ∈ Op.all → 10 ∉ bytes op.name := by
    intro op hop
    have hall : ∀ op ∈ Op.all, 10 ∉ op.name.toList.map byteOf := by decide
    rw [bytes_name hop]
    exact hall op hop
  have hblanks : ∀ {blanks : List UInt8}, (∀ c ∈ blanks, c = 32 ∨ c = 9) → 10 ∉ blanks := by
    intro blanks hall hmem
    exact absurd (hall 10 hmem) (by decide)
  cases h with
  | @plain op _ hop _ => exact hname (by revert op; decide)
  | @jump op blanks ds _ hop hbl hne hds _ _ =>
    have hdigits : 10 ∉ ds := fun hmem => absurd (hds 10 hmem) (by decide)
    simp [hname (show op ∈ Op.all by revert op; decide), hblanks hbl, hdigits]
  | @register op r blanks _ hop _ hbl hr _ =>
    obtain ⟨c, hc, hle, -⟩ := bytes_letter hr
    have hletter : 10 ∉ bytes r.name := by
      rw [hc, List.mem_singleton]
      rintro rfl
      simp at hle
    simp [hname hop, hblanks hbl, hletter]

lemma Spelling.congr (h : Spelling i word rest)
    (hend : ∀ c ∈ rest'.head?, c ∈ rest.head? ∨ c = 10) : Spelling i word rest' := by
  have hupper : (∀ c ∈ rest.head?, isUpper c = false) → ∀ c ∈ rest'.head?, isUpper c = false := by
    intro h c hc
    rcases hend c hc with hc | rfl
    · exact h c hc
    · decide
  have hword : EndsWord rest → EndsWord rest' := by
    intro h c hc
    rcases hend c hc with hc | rfl
    · exact h c hc
    · decide
  cases h with
  | plain hop hhead => exact .plain hop (hupper hhead)
  | jump hop hblanks hne hds hbound hend => exact .jump hop hblanks hne hds hbound (hword hend)
  | register hop hother hblanks hr hend => exact .register hop hother hblanks hr (hword hend)

lemma Spelling.endsLine (h : Spelling i word rest) (rest' : List UInt8) :
    EndsLine (word ++ rest) → EndsLine (word ++ rest') := by
  obtain ⟨c, w, rfl, -⟩ := h.head
  exact id

lemma IsListing.append_line (hx : IsListing x c) (hy : IsListing y code) :
    IsListing (x ++ 10 :: y) (c ++ code) := by
  induction hx with
  | @nil gap hgap =>
    have hline : Gap (gap ++ [10]) y :=
      (hgap.congr fun _ => endsLine_newline y).append (.blank (by simp) .nil)
    have := hy.behind_gap hline
    rwa [List.append_assoc] at this
  | @cons gap word rest i c hgap hi _ ih =>
    rw [List.append_assoc, List.append_assoc, List.cons_append]
    refine .cons (hgap.congr (hi.endsLine _)) (hi.congr fun d hd => ?_) ih
    cases rest with
    | nil => exact Or.inr (by simpa using hd.symm)
    | cons e rest => exact Or.inl hd

lemma IsListing.split_line (h : IsListing s code) (hs : s = x ++ 10 :: y) :
    ∃ c₁ c₂, IsListing x c₁ ∧ IsListing y c₂ ∧ code = c₁ ++ c₂ := by
  induction h generalizing x with
  | nil hgap =>
    obtain ⟨hx, hy⟩ := hgap.split hs
    exact ⟨[], [], .nil hx, .nil hy, rfl⟩
  | @cons gap word rest i code hgap hi hrest ih =>
    rcases List.append_eq_append_iff.mp hs with ⟨u, rfl, hu⟩ | ⟨u, hu, hy⟩
    · obtain ⟨v, rfl, hv⟩ := later_newline hi.newline_not_mem hu
      obtain ⟨c₁, c₂, hc₁, hc₂, rfl⟩ := ih hv
      refine ⟨i :: c₁, c₂, .cons (hgap.congr (hi.endsLine _)) (hi.congr fun d hd => ?_) hc₁, hc₂, rfl⟩
      rw [hv]
      cases v with
      | nil => simp at hd
      | cons e v => exact Or.inl hd
    · cases u with
      | nil =>
        obtain ⟨d, w, rfl, hupper⟩ := hi.head
        obtain ⟨rfl, -⟩ := List.cons.inj hy
        exact absurd hupper (by decide)
      | cons d u =>
        obtain ⟨rfl, rfl⟩ := List.cons.inj hy
        obtain ⟨hx, hgap'⟩ := hgap.split hu
        exact ⟨[], i :: code, .nil hx, .cons hgap' hi hrest, rfl⟩

/-- A text is a listing exactly if what stands before a line feed and what stands behind it are. -/
lemma isListing_line : IsListing (x ++ 10 :: y) code ↔
    ∃ c₁ c₂, IsListing x c₁ ∧ IsListing y c₂ ∧ code = c₁ ++ c₂ := by
  constructor
  · intro h
    exact h.split_line rfl
  · rintro ⟨c₁, c₂, hx, hy, rfl⟩
    exact hx.append_line hy

lemma isListing_nil : IsListing s [] ↔ Gap s [] := by
  constructor
  · intro h
    cases h with
    | nil hgap => exact hgap
  · exact .nil

lemma isListing_sign : IsListing (35 :: s) code ↔ IsListing (s.dropWhile (· != 10)) code := by
  have hcomment : 10 ∉ s.takeWhile (· != 10) := by
    intro hmem
    simpa using List.mem_takeWhile_imp hmem
  have hline : EndsLine (s.dropWhile (· != 10)) := by
    intro c hc
    have := List.head?_dropWhile_not (· != 10) s
    rw [Option.mem_def.mp hc] at this
    simpa using this
  have hgap : Gap (35 :: s.takeWhile (· != 10)) (s.dropWhile (· != 10)) := by
    have : Gap (35 :: (s.takeWhile (· != 10) ++ [])) (s.dropWhile (· != 10)) :=
      .comment hcomment hline .nil
    rwa [List.append_nil] at this
  have hsplit : 35 :: s = (35 :: s.takeWhile (· != 10)) ++ s.dropWhile (· != 10) := by
    rw [List.cons_append, List.takeWhile_append_dropWhile]
  rw [hsplit]
  constructor
  · intro h
    cases hd : s.dropWhile (· != 10) with
    | nil =>
      rw [hd] at hgap h
      have hnil : IsListing [] [] := .nil .nil
      rw [h.unique (hnil.behind_gap hgap)]
      exact hnil
    | cons d r =>
      obtain rfl : d = 10 := hline d (by rw [hd]; rfl)
      rw [hd] at hgap h
      obtain ⟨c₁, c₂, hc₁, hc₂, rfl⟩ := isListing_line.mp h
      have hnone : IsListing (35 :: s.takeWhile (· != 10)) [] :=
        .nil (hgap.congr fun _ => by simp [EndsLine])
      have hfeed : Gap [10] r := .blank (by simp) .nil
      rw [hc₁.unique hnone]
      exact hc₂.behind_gap hfeed
  · exact fun h => h.behind_gap hgap

lemma numeral_bytes (n : Nat) : numeral (bytes (toString n)) = n := by
  have hback : ((Nat.toDigits 10 n).map byteOf).map (fun c => Char.ofNat c.toNat) =
      Nat.toDigits 10 n := by
    rw [List.map_map]
    refine (List.map_congr_left fun d hd => ?_).trans (List.map_id _)
    have := digit_bounds (Nat.isDigit_of_mem_toDigits (by decide) (by decide) hd)
    rw [Function.comp, toNat_byteOf (by omega), Char.ofNat_toNat, id]
  rw [numeral, bytes_numeral, hback]
  exact Nat.ofDigitChars_toDigits (by decide) (by decide)

lemma isDigit_bytes (n : Nat) : ∀ c ∈ bytes (toString n), isDigit c = true := by
  intro c hc
  rw [bytes_numeral] at hc
  obtain ⟨d, hd, rfl⟩ := List.mem_map.mp hc
  exact isDigit_byteOf (Nat.isDigit_of_mem_toDigits (by decide) (by decide) hd)

lemma IsRemark.isGap (ht : IsRemark t) : Gap t [] := by
  rcases ht with rfl | ⟨c, rfl, hc⟩
  · exact .nil
  · have hsign : Gap (35 :: (c ++ [])) [] := .comment hc (by simp) .nil
    rw [List.append_nil] at hsign
    exact .blank (by simp) hsign

lemma IsRemark.head (ht : IsRemark t) : ∀ c ∈ t.head?, c = 9 := by
  rcases ht with rfl | ⟨c, rfl, -⟩
  · simp
  · intro d hd
    simpa using hd.symm

lemma IsRemark.endsWord_self (ht : IsRemark t) : EndsWord t := by
  intro c hc
  rw [ht.head c hc]
  decide

/-- An instruction is spelled as it is printed, unless its address has too many digits. -/
lemma spelling_render (hi : Legible n i) (hbound : i.op.isJump = true → i.addr ≤ maxNumber)
    (ht : IsRemark t) : Spelling (essential i) (bytes i.render) t := by
  have hword := ht.endsWord_self
  have hop := hi.op
  rw [render_eq, bytes_append, argumentText, essential]
  by_cases hjump : i.op.isJump = true
  · obtain ⟨a, ha⟩ := Int.eq_ofNat_of_zero_le (hi.jump hjump).1
    have htext : bytes s!" {i.addr}" = [32] ++ bytes (toString a) := by
      rw [ha]
      exact bytes_space (toString a)
    have hle : a ≤ maxNumber := by
      have := hbound hjump
      omega
    have haddr : i.addr = (numeral (bytes (toString a)) : Nat) := by rw [ha, numeral_bytes]
    have hne : bytes (toString a) ≠ [] := by
      obtain ⟨c, cs, hcs, -⟩ := bytes_numeral_cons a
      rw [hcs]
      exact List.cons_ne_nil c cs
    rw [if_pos hjump, if_pos hjump, htext, haddr]
    refine .jump ?_ (by simp) hne (isDigit_bytes a) (by rwa [numeral_bytes]) hword
    revert hjump
    cases i.op <;> simp [Op.isJump]
  · rw [if_neg hjump, if_neg hjump]
    by_cases hreg : i.op.hasReg = true
    · have htext : bytes s!" {i.reg.name}" = [32] ++ bytes i.reg.name := bytes_space i.reg.name
      rw [if_pos hreg, if_pos hreg, htext]
      refine .register hop ?_ (by simp) (hi.reg hreg) hword
      revert hreg hjump
      cases i.op <;> simp [Op.isJump, Op.hasReg]
    · rw [if_neg hreg, if_neg hreg, bytes_empty, List.append_nil]
      refine .plain ?_ fun c hc => ?_
      · revert hreg hjump hop
        cases i.op <;> simp [Op.isJump, Op.hasReg, Op.all]
      · rw [ht.head c hc]
        decide

lemma takeWhile_digits {ds : List UInt8} (hds : ∀ c ∈ ds, isDigit c = true) (hrest : EndsWord rest) :
    (ds ++ rest).takeWhile isDigit = ds := by
  rw [List.takeWhile_append_of_pos hds]
  cases rest with
  | nil => simp
  | cons c rest =>
    have hword := hrest c (by simp)
    have hdigit : isDigit c = false := by
      cases hd : isDigit c with
      | false => rfl
      | true => simp [isWord, hd] at hword
    rw [List.takeWhile_cons_of_neg (by simp [hdigit]), List.append_nil]

lemma digits_unique {blanks blanks' ds ds' : List UInt8} (hblanks : ∀ c ∈ blanks, c = 32 ∨ c = 9)
    (hblanks' : ∀ c ∈ blanks', c = 32 ∨ c = 9) (hds : ∀ c ∈ ds, isDigit c = true) (hne : ds ≠ [])
    (hds' : ∀ c ∈ ds', isDigit c = true) (hne' : ds' ≠ []) (hrest : EndsWord rest)
    (hrest' : EndsWord rest') (h : blanks ++ (ds ++ rest) = blanks' ++ (ds' ++ rest')) : ds = ds' := by
  have hskip : ∀ {blanks ds : List UInt8}, (∀ c ∈ blanks, c = 32 ∨ c = 9) →
      (∀ c ∈ ds, isDigit c = true) → ds ≠ [] → ∀ t,
      Blanks.inLine.skip false (blanks ++ (ds ++ t)) = blanks.length := by
    intro blanks ds hblanks hds hne t
    obtain ⟨d, ds, rfl⟩ := List.exists_cons_of_ne_nil hne
    refine skip_blanks hblanks fun c hc => ?_
    obtain rfl : d = c := by simpa using hc
    have hdigit := hds d (by simp)
    refine ⟨not_blank_of_digit hdigit, ?_⟩
    rintro rfl
    exact absurd hdigit (by decide)
  have hlen : blanks.length = blanks'.length := by
    rw [← hskip hblanks hds hne rest, h, hskip hblanks' hds' hne' rest']
  have htail := (List.append_inj h hlen).2
  rw [← takeWhile_digits hds hrest, htail, takeWhile_digits hds' hrest']

lemma Spelling.numeral_le {op : Op} {ds : List UInt8} (h : Spelling i word rest) (hop : op.isJump = true)
    (hds : ∀ c ∈ ds, isDigit c = true) (hne : ds ≠ []) (ht : EndsWord t)
    (hs : word ++ rest = bytes op.name ++ ([32] ++ (ds ++ t))) : numeral ds ≤ maxNumber := by
  have hknown : op ∈ Op.all := by
    revert hop
    cases op <;> simp [Op.isJump, Op.all]
  obtain ⟨hiop, w, hw, hhead⟩ := h.name
  rw [hw, List.append_assoc] at hs
  have hsame := parseMnemonic_name hiop hhead
  rw [hs, parseMnemonic_name hknown (by simp [isUpper])] at hsame
  obtain rfl : op = i.op := Except.ok.inj (congrArg Outcome.answer hsame)
  have htail := List.append_cancel_left hs
  cases h with
  | @plain op _ hplain _ =>
    revert hop hplain
    cases op <;> simp [Op.isJump]
  | @jump op blanks ds' _ _ hblanks hne' hds' hbound hend =>
    have hw := List.append_cancel_left hw
    rw [← hw, List.append_assoc] at htail
    rw [digits_unique (by simp) hblanks hds hne hds' hne' ht hend htail.symm]
    exact hbound
  | @register op r blanks _ _ hother _ _ _ =>
    revert hop hother
    cases op <;> simp [Op.isJump]

lemma Gap.eq_nil (h : Gap gap rest) (hupper : ∀ c ∈ gap.head?, isUpper c = true) : gap = [] := by
  cases h with
  | nil => rfl
  | @blank c gap _ hc _ =>
    have hnot : ∀ c ∈ ([32, 9, 13, 10] : List UInt8), isUpper c = false := by
      simp [isUpper]
    exact absurd (hupper c rfl) (by simp [hnot c hc])
  | comment _ _ _ => exact absurd (hupper 35 rfl) (by decide)

lemma isListing_render (hi : Legible n i) (ht : IsRemark t) :
    IsListing (bytes i.render ++ t) code ↔
      code = [essential i] ∧ (i.op.isJump = true → i.addr ≤ maxNumber) := by
  have hline : (i.op.isJump = true → i.addr ≤ maxNumber) →
      IsListing (bytes i.render ++ t) [essential i] := fun hbound =>
    .cons .nil (spelling_render hi hbound ht) (.nil ht.isGap)
  constructor
  · intro h
    have hbound : i.op.isJump = true → i.addr ≤ maxNumber := by
      intro hjump
      obtain ⟨a, ha⟩ := Int.eq_ofNat_of_zero_le (hi.jump hjump).1
      have htext : bytes i.render = bytes i.op.name ++ ([32] ++ bytes (toString a)) := by
        rw [render_eq, bytes_append, argumentText, if_pos hjump, ha]
        exact congrArg _ (bytes_space (toString a))
      obtain ⟨c, cs, hc, hupper⟩ := bytes_name_cons hi.op
      have hstart : ∀ {gap r : List UInt8}, gap ++ r = bytes i.render ++ t →
          ∀ d ∈ gap.head?, isUpper d = true := by
        intro gap r hs d hd
        cases gap with
        | nil => cases hd
        | cons e gap =>
          obtain rfl : e = d := by simpa using hd
          rw [htext, hc] at hs
          rw [(List.cons.inj hs).1]
          exact hupper
      generalize hs : bytes i.render ++ t = s at h
      cases h with
      | nil hgap =>
        have := hgap.eq_nil (hstart (by rw [List.append_nil, hs]))
        rw [this, htext, hc] at hs
        cases hs
      | cons hgap hspell _ =>
        obtain rfl := hgap.eq_nil (hstart hs.symm)
        have hne : bytes (toString a) ≠ [] := by
          obtain ⟨c, cs, hcs, -⟩ := bytes_numeral_cons a
          rw [hcs]
          exact List.cons_ne_nil c cs
        have hle := hspell.numeral_le hjump (isDigit_bytes a) hne ht.endsWord_self
          (by rw [← List.nil_append (_ ++ _), ← hs, htext]; simp)
        rw [numeral_bytes] at hle
        omega
    exact ⟨h.unique (hline hbound), hbound⟩
  · rintro ⟨rfl, hbound⟩
    exact hline hbound

variable {o : Options} {marks : List Mark} {l : Line} {lines : List Line} {name : Option Bytes}

/-- The name that stands in front of instruction `k`. -/
def nameAt? (marks : List Mark) (k : Nat) : Option Bytes :=
  (marks.reverse.find? (·.start == (k : Int))).map (·.name)

/-- What a name shows outside of its comment: its further lines. -/
def shown (name : Bytes) : Bytes := name.dropWhile (· != 10)

/-- The line for a name. -/
def nameLine : Option Bytes → Bytes
  | none => []
  | some name => 35 :: 32 :: (name ++ [10])

/-- The lines from instruction `k` on. -/
def textFrom (o : Options) (marks : List Mark) (k : Nat) (lines : List Line) : Bytes :=
  (lines.zipIdx k).flatMap fun (l, j) => renderLine o marks j l

lemma render_eq_textFrom (o : Options) (marks : List Mark) (lines : List Line) :
    render o marks lines = textFrom o marks 0 lines := rfl

lemma header_eq (marks : List Mark) (k : Nat) : header marks k = nameLine (nameAt? marks k) := by
  unfold header nameAt?
  cases marks.reverse.find? (·.start == (k : Int)) with
  | none => rfl
  | some m =>
    change bytes "# " ++ m.name ++ bytes "\n" = 35 :: 32 :: (m.name ++ [10])
    rw [bytes_newline, bytes_of_ascii (s := "# ") (by simp)]
    rfl

lemma textFrom_cons (ho : o.functions = true) :
    textFrom o marks k (l :: lines) = nameLine (nameAt? marks k) ++
      (bytes l.instr.render ++ bytes (remark o k l) ++ 10 :: textFrom o marks (k + 1) lines) := by
  have hline : renderLine o marks k l = nameLine (nameAt? marks k) ++
      (bytes l.instr.render ++ bytes (remark o k l) ++ [10]) := by
    rw [renderLine, if_pos ho, bytes_append, bytes_append, header_eq, bytes_newline]
  simp only [textFrom, List.zipIdx_cons, List.flatMap_cons, hline, List.append_assoc,
    List.singleton_append]

lemma isListing_nameLine : IsListing (nameLine name ++ s) code ↔
    ∃ c₁ c₂, (∀ m ∈ name, IsListing (shown m) c₁) ∧ (name = none → c₁ = []) ∧ IsListing s c₂ ∧
      code = c₁ ++ c₂ := by
  cases name with
  | none =>
    constructor
    · intro h
      exact ⟨[], code, by simp, by simp, h, rfl⟩
    · rintro ⟨c₁, c₂, -, hnone, h, rfl⟩
      rw [hnone rfl]
      exact h
  | some m =>
    have hline : nameLine (some m) ++ s = 35 :: (32 :: m) ++ 10 :: s := by simp [nameLine]
    have hshown : (32 :: m).dropWhile (· != 10) = shown m := rfl
    rw [hline, isListing_line]
    simp only [isListing_sign, hshown]
    constructor
    · rintro ⟨c₁, c₂, h₁, h₂, rfl⟩
      exact ⟨c₁, c₂, by simpa using h₁, by simp, h₂, rfl⟩
    · rintro ⟨c₁, c₂, h₁, -, h₂, rfl⟩
      exact ⟨c₁, c₂, h₁ m rfl, h₂, rfl⟩

lemma isListing_textFrom (ho : o.functions = true) (hlines : ∀ l ∈ lines, Legible n l.instr)
    (hbound : ∀ l ∈ lines, l.instr.op.isJump = true → l.instr.addr ≤ maxNumber)
    (hnames : ∀ j < lines.length, ∀ m ∈ nameAt? marks (k + j), Gap (shown m) []) :
    IsListing (textFrom o marks k lines) (lines.map fun l => essential l.instr) := by
  induction lines generalizing k with
  | nil => exact .nil .nil
  | cons l lines ih =>
    rw [textFrom_cons ho, isListing_nameLine]
    refine ⟨[], _, fun m hm => .nil (hnames 0 (by simp) m hm), fun _ => rfl, ?_, rfl⟩
    rw [isListing_line]
    refine ⟨[essential l.instr], _, ?_, ih ?_ ?_ fun j hj m hm => ?_, rfl⟩
    · exact (isListing_render (hlines l (by simp)) (isRemark_remark o k l)).mpr
        ⟨rfl, hbound l (by simp)⟩
    · exact fun m hm => hlines m (by simp [hm])
    · exact fun m hm => hbound m (by simp [hm])
    · refine hnames (j + 1) (by simpa using hj) m ?_
      rwa [← Nat.add_assoc, Nat.add_right_comm]

/-- The instructions that printed lines show are at least their own, and others come from names. -/
lemma IsListing.textFrom (ho : o.functions = true) (hlines : ∀ l ∈ lines, Legible n l.instr)
    (h : IsListing (textFrom o marks k lines) code) :
    lines.length ≤ code.length ∧ (code.length = lines.length →
      (∀ l ∈ lines, l.instr.op.isJump = true → l.instr.addr ≤ maxNumber) ∧
        ∀ j < lines.length, ∀ m ∈ nameAt? marks (k + j), Gap (shown m) []) := by
  induction lines generalizing k code with
  | nil => simp
  | cons l lines ih =>
    rw [textFrom_cons ho, isListing_nameLine] at h
    obtain ⟨c₁, c, hname, -, h, rfl⟩ := h
    obtain ⟨c₂, c₃, hinstr, hrest, rfl⟩ := isListing_line.mp h
    obtain ⟨rfl, hbound⟩ :=
      (isListing_render (hlines l (by simp)) (isRemark_remark o k l)).mp hinstr
    obtain ⟨hle, hsame⟩ := ih (fun m hm => hlines m (by simp [hm])) hrest
    simp only [List.length_append, List.length_cons, List.length_nil]
    refine ⟨by omega, fun hlen => ?_⟩
    obtain ⟨hbounds, hnames⟩ := hsame (by omega)
    obtain rfl : c₁ = [] := List.eq_nil_of_length_eq_zero (by omega)
    refine ⟨List.forall_mem_cons.mpr ⟨hbound, hbounds⟩, fun j hj m hm => ?_⟩
    cases j with
    | zero => exact isListing_nil.mp (hname m hm)
    | succ j =>
      refine hnames j (by omega) m ?_
      rwa [Nat.add_right_comm, Nat.add_assoc]

/-- A listing with the names of functions is read back exactly if its addresses do not have too many
digits and the further lines of the names show nothing but blanks and comments. -/
theorem read_render_iff (ho : o.functions = true)
    (hlines : ∀ l ∈ lines, Legible lines.length l.instr ∧ essential l.instr = l.instr) :
    read (render o marks lines) = .ok (lines.map (·.instr)) ↔
      (∀ l ∈ lines, l.instr.op.isJump = true → l.instr.addr ≤ maxNumber) ∧
        ∀ j < lines.length, ∀ m ∈ nameAt? marks j, Gap (shown m) [] := by
  have hlegible : ∀ l ∈ lines, Legible lines.length l.instr := fun l hl => (hlines l hl).1
  have hmap : (lines.map fun l => essential l.instr) = lines.map (·.instr) :=
    List.map_congr_left fun l hl => (hlines l hl).2
  have hstray : strayJump? (lines.map (·.instr)) = none := by
    refine strayJump?_eq_none.mpr fun i hi hjump => ?_
    obtain ⟨l, hl, rfl⟩ := List.mem_map.mp hi
    rw [List.length_map]
    exact (hlegible l hl).jump hjump
  rw [read_ok_iff, render_eq_textFrom, and_iff_left hstray]
  constructor
  · intro h
    have := (h.textFrom ho hlegible).2 (by simp)
    simpa using this
  · rintro ⟨hbound, hnames⟩
    rw [← hmap]
    exact isListing_textFrom ho hlegible hbound (by simpa using hnames)

end Accumulator.Listing
