import Mathlib
import Accumulator.Listing.Parser
import Accumulator.Listing.Printer

/-!
# Printing and reading listings

A printed listing can be read again, whatever source positions are printed with it, and gives the
same operations with the same registers and addresses. What is read from any text meets the
conditions for being printed, so that printing and reading again gives it back.
-/

namespace Accumulator.Listing

open Machine Text

/-- The byte of a character with a code below 256. -/
def byteOf (c : Char) : UInt8 := UInt8.ofNat c.toNat

lemma bytes_empty : bytes "" = [] := rfl

lemma bytes_append (s t : String) : bytes (s ++ t) = bytes s ++ bytes t := by
  simp [bytes]

lemma bytes_of_ascii {s : String} (h : ∀ c ∈ s.toList, c.toNat < 128) :
    bytes s = s.toList.map byteOf := by
  rw [bytes]
  generalize s.toList = l at h
  induction l with
  | nil => rfl
  | cons c cs ih =>
    have hc : c.val.toNat ≤ 127 := Nat.le_of_lt_succ (h c (by simp))
    rw [List.flatMap_cons, ih fun d hd => h d (by simp [hd]), List.map_cons]
    rw [String.utf8EncodeChar, if_pos hc]
    rfl

/-- What may stand behind an instruction up to the end of its line: nothing, or a tab and a
comment. -/
def IsRemark (t : List UInt8) : Prop := t = [] ∨ ∃ c, t = 9 :: 35 :: c ∧ 10 ∉ c

lemma skip_comment (s : Blanks) {c : List UInt8} (hc : 10 ∉ c) (rest : List UInt8) :
    s.skip true (c ++ rest) = c.length + s.skip true rest := by
  induction c with
  | nil => simp
  | cons x c ih =>
    obtain ⟨hx, hc⟩ := not_or.mp (mt List.mem_cons.mpr hc)
    have hne : (x != 10) = true := by simpa using Ne.symm hx
    rw [List.cons_append, Blanks.skip, hne, ih hc]
    simp only [Bool.and_self, if_true, List.length_cons]
    omega

lemma skip_sign {s : Blanks} (htab : s.isBlank 9 = true) (hsign : s.isBlank 35 = false)
    (rest : List UInt8) : s.skip false (9 :: 35 :: rest) = s.skip true rest + 2 := by
  simp [Blanks.skip, htab, hsign]

lemma skip_inLine {t : List UInt8} (ht : IsRemark t) (rest : List UInt8) :
    Blanks.inLine.skip false (t ++ 10 :: rest) = t.length := by
  have hend : ∀ b, Blanks.inLine.skip b (10 :: rest) = 0 := by
    intro b
    have hblank : Blanks.inLine.isBlank 10 = false := by decide
    simp [Blanks.skip, hblank]
  rcases ht with rfl | ⟨c, rfl, hc⟩
  · exact hend false
  · rw [List.cons_append, List.cons_append, skip_sign (by decide) (by decide), skip_comment _ hc, hend]
    rfl

lemma skip_all {t : List UInt8} (ht : IsRemark t) (rest : List UInt8) :
    Blanks.all.skip false (t ++ 10 :: rest) = t.length + 1 + Blanks.all.skip false rest := by
  have hend : ∀ b, Blanks.all.skip b (10 :: rest) = Blanks.all.skip false rest + 1 := by
    intro b
    have hblank : Blanks.all.isBlank 10 = true := by decide
    simp [Blanks.skip, hblank]
  rcases ht with rfl | ⟨c, rfl, hc⟩
  · rw [List.nil_append, hend, List.length_nil]
    omega
  · rw [List.cons_append, List.cons_append, skip_sign (by decide) (by decide), skip_comment _ hc, hend]
    simp only [List.length_cons]
    omega

lemma toNat_byteOf {c : Char} (h : c.toNat < 128) : (byteOf c).toNat = c.toNat := by
  rw [byteOf, UInt8.toNat_ofNat']
  exact Nat.mod_eq_of_lt (by omega)

lemma digit_bounds {c : Char} (h : c.isDigit = true) : 48 ≤ c.toNat ∧ c.toNat ≤ 57 := by
  simp only [Char.isDigit, Bool.and_eq_true, decide_eq_true_eq, ge_iff_le,
    UInt32.le_iff_toNat_le] at h
  exact h

lemma isDigit_byteOf {c : Char} (h : c.isDigit = true) : isDigit (byteOf c) = true := by
  obtain ⟨hlo, hhi⟩ := digit_bounds h
  have hb := toNat_byteOf (c := c) (by omega)
  simp only [isDigit, Bool.and_eq_true, decide_eq_true_eq, UInt8.le_iff_toNat_le, hb]
  exact ⟨hlo, hhi⟩

lemma le_ofDigitChars (cs : List Char) (n : Nat) : n ≤ Nat.ofDigitChars 10 cs n := by
  rw [Nat.ofDigitChars_eq_ofDigitChars_zero]
  calc n = 1 * n := (Nat.one_mul n).symm
    _ ≤ 10 ^ cs.length * n := Nat.mul_le_mul_right n (Nat.one_le_pow _ _ (by decide))
    _ ≤ _ := Nat.le_add_right _ _

lemma digits_end {rest : List UInt8} (hrest : ∀ c ∈ rest.head?, isWord c = false) (n used : Nat) :
    digits n used rest = ⟨used, .ok n⟩ := by
  cases rest with
  | nil => rfl
  | cons c rest =>
    have hword : isWord c = false := hrest c (by simp)
    have hdigit : isDigit c = false := by
      cases h : isDigit c with
      | false => rfl
      | true => simp [isWord, h] at hword
    simp [digits, hdigit, hword]

lemma digits_numeral {cs : List Char} (hcs : ∀ c ∈ cs, c.isDigit = true) {rest : List UInt8}
    (hrest : ∀ c ∈ rest.head?, isWord c = false) (n used : Nat)
    (hbound : Nat.ofDigitChars 10 cs n ≤ maxNumber) :
    digits n used (cs.map byteOf ++ rest) =
      ⟨used + cs.length, .ok (Nat.ofDigitChars 10 cs n)⟩ := by
  induction cs generalizing n used with
  | nil => simpa using digits_end hrest n used
  | cons c cs ih =>
    have hc := hcs c (by simp)
    obtain ⟨hlo, hhi⟩ := digit_bounds hc
    have hvalue : n * 10 + ((byteOf c).toNat - 48) = 10 * n + (c.toNat - '0'.toNat) := by
      rw [toNat_byteOf (by omega), Nat.mul_comm]
      rfl
    rw [Nat.ofDigitChars_cons] at hbound ⊢
    have hle := (le_ofDigitChars cs _).trans hbound
    rw [List.map_cons, List.cons_append, digits]
    simp only [isDigit_byteOf hc, if_true, hvalue, hle]
    rw [ih (fun d hd => hcs d (by simp [hd])) _ _ hbound]
    simp only [List.length_cons]
    congr 1
    omega

lemma bytes_numeral (n : Nat) : bytes (toString n) = (Nat.toDigits 10 n).map byteOf := by
  have hlist : (toString n).toList = Nat.toDigits 10 n := Nat.toList_repr
  rw [bytes_of_ascii, hlist]
  intro c hc
  rw [hlist] at hc
  have := (digit_bounds (Nat.isDigit_of_mem_toDigits (by decide) (by decide) hc)).2
  omega

lemma bytes_numeral_cons (n : Nat) :
    ∃ c cs, bytes (toString n) = c :: cs ∧ isDigit c = true := by
  obtain ⟨d, ds, hds⟩ := List.exists_cons_of_ne_nil (Nat.toDigits_ne_nil (n := n) (b := 10))
  have hd : d ∈ Nat.toDigits 10 n := by simp [hds]
  refine ⟨byteOf d, ds.map byteOf, by rw [bytes_numeral, hds, List.map_cons], ?_⟩
  exact isDigit_byteOf (Nat.isDigit_of_mem_toDigits (by decide) (by decide) hd)

lemma parseNumber_numeral {n : Nat} (hn : n ≤ maxNumber) {rest : List UInt8}
    (hrest : ∀ c ∈ rest.head?, isWord c = false) :
    parseNumber (bytes (toString n) ++ rest) = ⟨(bytes (toString n)).length, .ok n⟩ := by
  have hvalue : Nat.ofDigitChars 10 (Nat.toDigits 10 n) 0 = n :=
    Nat.ofDigitChars_toDigits (by decide) (by decide)
  have hdigits := digits_numeral
    (fun c hc => Nat.isDigit_of_mem_toDigits (by decide) (by decide) hc) hrest 0 0
    (hvalue.le.trans hn)
  have hpos : Nat.toDigits 10 n ≠ [] := Nat.toDigits_ne_nil
  rw [parseNumber, bytes_numeral, hdigits, hvalue]
  simp [hpos]

/-- Bytes that may not follow a mnemonic, a register or a number: those that end a word. -/
def EndsWord (rest : List UInt8) : Prop := ∀ c ∈ rest.head?, isWord c = false

lemma IsRemark.endsWord {t : List UInt8} (ht : IsRemark t) (rest : List UInt8) :
    EndsWord (t ++ 10 :: rest) := by
  rcases ht with rfl | ⟨c, rfl, -⟩
  · intro c hc
    obtain rfl : 10 = c := by simpa using hc
    decide
  · intro d hd
    obtain rfl : 9 = d := by simpa using hd
    decide

lemma bytes_name {op : Op} (hop : op ∈ Op.all) : bytes op.name = op.name.toList.map byteOf := by
  have h : ∀ op ∈ Op.all, (op.name.toList.all fun c => decide (c.toNat < 128)) = true := by
    decide
  exact bytes_of_ascii (by simpa using h op hop)

lemma bytes_name_cons {op : Op} (hop : op ∈ Op.all) :
    ∃ c cs, bytes op.name = c :: cs ∧ isUpper c = true := by
  have h : ∀ op ∈ Op.all, (op.name.toList.map byteOf).head?.any isUpper = true := by
    decide
  have := h op hop
  rw [← bytes_name hop] at this
  cases hb : bytes op.name with
  | nil => simp [hb] at this
  | cons c cs => exact ⟨c, cs, rfl, by simpa [hb] using this⟩

lemma parseMnemonic_name {op : Op} (hop : op ∈ Op.all) {rest : List UInt8}
    (hrest : ∀ c ∈ rest.head?, isUpper c = false) :
    parseMnemonic (bytes op.name ++ rest) = ⟨(bytes op.name).length, .ok op⟩ := by
  obtain ⟨hupper, hne, hname, hfind⟩ : ((op.name.toList.map byteOf).all isUpper) = true ∧
      (op.name.toList.map byteOf).isEmpty = false ∧
      (op.name.toList.map byteOf).map (fun c => Char.ofNat c.toNat) = op.name.toList ∧
      Op.ofName? op.name = some op := by
    revert op
    decide
  have htake : (op.name.toList.map byteOf ++ rest).takeWhile isUpper = op.name.toList.map byteOf := by
    rw [List.takeWhile_append_of_pos (List.all_eq_true.mp hupper)]
    cases rest with
    | nil => simp
    | cons c rest => simp [hrest c (by simp)]
  rw [parseMnemonic, bytes_name hop]
  simp only [htake, hname, hne, String.ofList_toList, hfind]
  rfl

lemma name_letter {r : Reg} (hr : r ∈ Reg.all) :
    ∃ c, r.name = String.ofList [c] ∧ 97 ≤ c.toNat ∧ c.toNat < 128 := by
  fin_cases hr
  exacts [⟨'a', rfl, by decide⟩, ⟨'b', rfl, by decide⟩, ⟨'c', rfl, by decide⟩,
    ⟨'d', rfl, by decide⟩, ⟨'e', rfl, by decide⟩, ⟨'f', rfl, by decide⟩, ⟨'g', rfl, by decide⟩,
    ⟨'h', rfl, by decide⟩]

lemma ofName?_eq_none {c : Char} (hc : c.toNat < 97) : Reg.ofName? (String.ofList [c]) = none := by
  refine List.find?_eq_none.mpr fun r hr => ?_
  obtain ⟨d, hd, hle, -⟩ := name_letter hr
  rw [hd, beq_iff_eq]
  intro heq
  obtain rfl : d = c := by simpa using String.ofList_injective heq
  omega

lemma bytes_letter {r : Reg} (hr : r ∈ Reg.all) :
    ∃ c, bytes r.name = [c] ∧ 97 ≤ c.toNat ∧
      Reg.ofName? (String.ofList [Char.ofNat c.toNat]) = some r := by
  have hfind : ∀ r ∈ Reg.all, Reg.ofName? r.name = some r := by decide
  obtain ⟨c, hc, hlo, hhi⟩ := name_letter hr
  have hb := toNat_byteOf hhi
  refine ⟨byteOf c, ?_, hlo.trans hb.ge, ?_⟩
  · rw [hc, bytes_of_ascii] <;> simp [hhi]
  · rw [hb, Char.ofNat_toNat, ← hc, hfind r hr]

lemma parseRegister_name {r : Reg} (hr : r ∈ Reg.all) {rest : List UInt8} (hrest : EndsWord rest) :
    parseRegister (bytes r.name ++ rest) = ⟨1, .ok r⟩ := by
  obtain ⟨c, hc, -, hfind⟩ := bytes_letter hr
  have hword : (rest.head?.map isWord).getD false = false := by
    cases rest with
    | nil => rfl
    | cons d rest => exact hrest d (by simp)
  rw [hc, List.singleton_append, parseRegister, hword, hfind]
  rfl

lemma parseRegister_none {c : UInt8} (hc : c.toNat < 97) (rest : List UInt8) :
    parseRegister (c :: rest) = ⟨0, .error .registerExpected⟩ := by
  have hchar : (Char.ofNat c.toNat).toNat = c.toNat := by
    rw [Char.toNat_ofNat, if_pos (Or.inl (by omega))]
  rw [parseRegister, ofName?_eq_none (by omega)]
  split <;> rfl

/-- The part of an instruction that its operation uses. -/
def essential (i : Instr) : Instr :=
  if i.op.isJump then { op := i.op, addr := i.addr }
  else if i.op.hasReg then { op := i.op, reg := i.reg }
  else { op := i.op }

/-- A known operation with the part that it uses: a known register, or an address of a program with
`n` instructions. -/
structure Legible (n : Nat) (i : Instr) : Prop where
  op : i.op ∈ Op.all
  reg : i.op.hasReg = true → i.reg ∈ Reg.all
  jump : i.op.isJump = true → 0 ≤ i.addr ∧ i.addr < n

/-- The argument of an instruction as it is written. -/
def argumentText (i : Instr) : String :=
  if i.op.isJump then s!" {i.addr}" else if i.op.hasReg then s!" {i.reg.name}" else ""

lemma render_eq (i : Instr) : i.render = i.op.name ++ argumentText i := by
  unfold Instr.render argumentText
  split
  · rw [String.append_assoc]
    rfl
  · split
    · rw [String.append_assoc]
      rfl
    · simp

lemma skip_stop {s : Blanks} {c : UInt8} (hblank : s.isBlank c = false) (hsign : c ≠ 35)
    (rest : List UInt8) : s.skip false (c :: rest) = 0 := by
  simp [Blanks.skip, hblank, hsign]

lemma skip_space {c : UInt8} (hblank : Blanks.inLine.isBlank c = false) (hsign : c ≠ 35)
    (rest : List UInt8) : Blanks.inLine.skip false (32 :: c :: rest) = 1 := by
  have hspace : Blanks.inLine.isBlank 32 = true := by decide
  rw [Blanks.skip, skip_stop hblank hsign]
  simp [hspace]

lemma not_blank_of_letter {s : Blanks} {c : UInt8} (hc : 64 ≤ c.toNat) : s.isBlank c = false := by
  have : ¬ c < 64 := by
    rw [UInt8.lt_iff_toNat_lt, Nat.not_lt]
    exact hc
  simp [Blanks.isBlank, this]

lemma forall_small {P : UInt8 → Prop} (h : ∀ n < 64, P (UInt8.ofNat n)) {c : UInt8}
    (hc : c.toNat < 64) : P c := by
  have := h c.toNat hc
  rwa [UInt8.ofNat_toNat] at this

lemma isDigit_iff {c : UInt8} : isDigit c = true ↔ 48 ≤ c.toNat ∧ c.toNat ≤ 57 := by
  simp [isDigit, UInt8.le_iff_toNat_le]

lemma isUpper_iff {c : UInt8} : isUpper c = true ↔ 65 ≤ c.toNat ∧ c.toNat ≤ 90 := by
  simp [isUpper, UInt8.le_iff_toNat_le]

lemma not_blank_of_digit {c : UInt8} (hc : isDigit c = true) : Blanks.inLine.isBlank c = false := by
  have hlt : c.toNat < 64 := by
    have := isDigit_iff.mp hc
    omega
  exact forall_small (P := fun c => isDigit c = true → Blanks.inLine.isBlank c = false) (by decide)
    hlt hc

lemma parseArgument_reg {r : Reg} (hr : r ∈ Reg.all) {rest : List UInt8} (hrest : EndsWord rest) :
    parseArgument (bytes r.name ++ rest) = ⟨1, .ok (.reg r)⟩ := by
  simp only [parseArgument, parseRegister_name hr hrest]
  rfl

lemma parseArgument_address {n : Nat} (hn : n ≤ maxNumber) {rest : List UInt8}
    (hrest : EndsWord rest) :
    parseArgument (bytes (toString n) ++ rest) = ⟨(bytes (toString n)).length, .ok (.address n)⟩ := by
  obtain ⟨c, cs, hcs, hdigit⟩ := bytes_numeral_cons n
  have hlow : c.toNat < 97 := by
    simp only [isDigit, Bool.and_eq_true, decide_eq_true_eq, UInt8.le_iff_toNat_le] at hdigit
    have : (57 : UInt8).toNat = 57 := rfl
    omega
  have hreg := parseRegister_none hlow (cs ++ rest)
  rw [← List.cons_append, ← hcs] at hreg
  simp only [parseArgument, hreg, parseNumber_numeral hn hrest]
  rfl

lemma parseArgument_end (rest : List UInt8) :
    (parseArgument (10 :: rest)).used = 0 ∧ ∃ e, (parseArgument (10 :: rest)).answer = .error e := by
  have hreg := parseRegister_none (c := 10) (by decide) rest
  have hnum : parseNumber (10 :: rest) = ⟨0, .error .numberExpected⟩ := by
    rw [parseNumber, digits_end fun c hc => ?_]
    · rfl
    · obtain rfl : 10 = c := by simpa using hc
      decide
  simp only [parseArgument, hreg, hnum]
  exact ⟨rfl, _, rfl⟩

/-- The argument that is found behind a mnemonic. -/
def argument? (i : Instr) : Option Argument :=
  if i.op.isJump then some (.address i.addr.toNat)
  else if i.op.hasReg then some (.reg i.reg)
  else none

variable {n : Nat} {i : Instr} {t : List UInt8}

lemma bytes_space (s : String) : bytes (" " ++ s) = 32 :: bytes s := by
  rw [bytes_append, bytes_of_ascii (s := " ") (by simp)]
  rfl

section Blanks

variable {α : Type} {blanks : Blanks} {label : String} {parse : List UInt8 → Outcome α}
  {s : List UInt8} {gap used : Nat} {a : α}

lemma afterBlanks_ok (hgap : blanks.skip false s = gap) (h : parse (s.drop gap) = ⟨used, .ok a⟩) :
    afterBlanks blanks label parse s = ⟨gap + used, .ok a⟩ := by
  simp only [afterBlanks, hgap, h]

lemma orNothing_afterBlanks (hgap : blanks.skip false s = gap) (hused : (parse (s.drop gap)).used = 0)
    (herror : ∃ e, (parse (s.drop gap)).answer = .error e) :
    orNothing (afterBlanks blanks label parse s) = ⟨0, .ok none⟩ := by
  obtain ⟨e, he⟩ := herror
  simp [afterBlanks, orNothing, hgap, he, hused]

end Blanks

lemma parse_argumentText (hi : Legible n i) (hn : n < 2 ^ 31) (ht : IsRemark t) (rest : List UInt8) :
    orNothing (afterBlanks .inLine (Grammar.any []).label parseArgument
      (bytes (argumentText i) ++ (t ++ 10 :: rest))) =
      ⟨(bytes (argumentText i)).length, .ok (argument? i)⟩ := by
  have hends := ht.endsWord rest
  unfold argumentText argument?
  by_cases hjump : i.op.isJump = true
  · obtain ⟨a, ha⟩ := Int.eq_ofNat_of_zero_le (hi.jump hjump).1
    have hbound : a ≤ maxNumber := by
      have := (hi.jump hjump).2
      unfold maxNumber
      omega
    have htext : bytes s!" {i.addr}" = 32 :: bytes (toString a) := by
      rw [ha]
      exact bytes_space (toString a)
    obtain ⟨c, cs, hcs, hdigit⟩ := bytes_numeral_cons a
    have hgap : Blanks.inLine.skip false (32 :: bytes (toString a) ++ (t ++ 10 :: rest)) = 1 := by
      rw [hcs]
      refine skip_space (not_blank_of_digit hdigit) ?_ _
      rintro rfl
      simp [isDigit] at hdigit
    rw [if_pos hjump, if_pos hjump, htext, afterBlanks_ok hgap (parseArgument_address hbound hends)]
    simp [orNothing, ha, Nat.add_comm]
  · rw [if_neg hjump, if_neg hjump]
    by_cases hreg : i.op.hasReg = true
    · obtain ⟨c, hc, hletter, -⟩ := bytes_letter (hi.reg hreg)
      have htext : bytes s!" {i.reg.name}" = 32 :: bytes i.reg.name := bytes_space i.reg.name
      have hgap : Blanks.inLine.skip false (32 :: bytes i.reg.name ++ (t ++ 10 :: rest)) = 1 := by
        rw [hc]
        refine skip_space (not_blank_of_letter (by omega)) ?_ _
        rintro rfl
        simp at hletter
      rw [if_pos hreg, if_pos hreg, htext,
        afterBlanks_ok hgap (parseArgument_reg (hi.reg hreg) hends)]
      simp [orNothing, hc]
    · obtain ⟨hused, herror⟩ := parseArgument_end rest
      have hdrop : (t ++ 10 :: rest).drop t.length = 10 :: rest := by simp
      rw [if_neg hreg, if_neg hreg, bytes_empty, List.nil_append,
        orNothing_afterBlanks (skip_inLine ht rest) (by rw [hdrop, hused]) (by rwa [hdrop])]
      rfl

lemma assemble_argument (hi : Legible n i) (used : Nat) :
    assemble i.op (argument? i) used = ⟨used, .ok (essential i)⟩ := by
  unfold argument? essential
  by_cases hjump : i.op.isJump = true
  · have haddr : ((i.addr.toNat : Nat) : Int) = i.addr := Int.toNat_of_nonneg (hi.jump hjump).1
    simp [assemble, hjump, haddr]
  · by_cases hreg : i.op.hasReg = true
    · simp [assemble, hjump, hreg]
    · simp [assemble, hjump, hreg]

lemma head_argumentText (i : Instr) (ht : IsRemark t) (rest : List UInt8) :
    ∀ c ∈ (bytes (argumentText i) ++ (t ++ 10 :: rest)).head?, isUpper c = false := by
  have htext : argumentText i = "" ∨ ∃ s, argumentText i = " " ++ s := by
    unfold argumentText
    split
    · exact Or.inr ⟨_, rfl⟩
    · split
      · exact Or.inr ⟨_, rfl⟩
      · exact Or.inl rfl
  intro c hc
  rcases htext with h | ⟨s, h⟩
  · rw [h, bytes_empty, List.nil_append] at hc
    have hword := ht.endsWord rest c hc
    cases hup : isUpper c with
    | false => rfl
    | true => simp [isWord, hup] at hword
  · rw [h, bytes_space] at hc
    obtain rfl : 32 = c := by simpa using hc
    decide

/-- The text of an instruction is read back, whatever remark follows it on its line. -/
lemma parseInstr_render (hi : Legible n i) (hn : n < 2 ^ 31) (ht : IsRemark t) (rest : List UInt8) :
    parseInstr (bytes i.render ++ (t ++ 10 :: rest)) =
      ⟨(bytes i.render).length, .ok (essential i)⟩ := by
  have hmnem := parseMnemonic_name hi.op (head_argumentText i ht rest)
  have harg := parse_argumentText hi hn ht rest
  rw [render_eq, bytes_append, List.append_assoc, parseInstr]
  simp only [hmnem, List.drop_left, harg, assemble_argument hi, List.length_append]

variable {o : Options} {lines : List Line}

lemma bytes_newline : bytes "\n" = [10] := by
  rw [bytes_of_ascii (by simp)]
  rfl

lemma newline_not_mem_append {s t : String} (hs : 10 ∉ bytes s) (ht : 10 ∉ bytes t) :
    10 ∉ bytes (s ++ t) := by
  rw [bytes_append, List.mem_append, not_or]
  exact ⟨hs, ht⟩

lemma newline_not_mem_nat (n : Nat) : 10 ∉ bytes (toString n) := by
  rw [bytes_numeral]
  intro h
  obtain ⟨c, hc, hbyte⟩ := List.mem_map.mp h
  have := isDigit_byteOf (Nat.isDigit_of_mem_toDigits (by decide) (by decide) hc)
  rw [hbyte] at this
  simp [isDigit] at this

lemma newline_not_mem_int (z : Int) : 10 ∉ bytes (toString z) := by
  cases z with
  | ofNat n => exact newline_not_mem_nat n
  | negSucc n =>
    refine newline_not_mem_append (s := "-") ?_ (newline_not_mem_nat (n + 1))
    rw [bytes_of_ascii (by simp)]
    decide

lemma newline_not_mem_position (p : Position) : 10 ∉ bytes p.render := by
  have hcolon : 10 ∉ bytes ":" := by
    rw [bytes_of_ascii (by simp)]
    decide
  exact newline_not_mem_append (newline_not_mem_append (newline_not_mem_int p.line) hcolon)
    (newline_not_mem_int p.col)

lemma isRemark_remark (o : Options) (k : Nat) (l : Line) : IsRemark (bytes (remark o k l)) := by
  unfold remark
  split
  · right
    have hspace : 10 ∉ bytes " " := by
      rw [bytes_of_ascii (by simp)]
      decide
    have hbytes : bytes s!"\t# {k} {l.loc.render}" =
        9 :: 35 :: bytes (" " ++ toString k ++ " " ++ l.loc.render) := by
      have htext : s!"\t# {k} {l.loc.render}" = "\t#" ++ (" " ++ toString k ++ " " ++ l.loc.render) := by
        change "\t# " ++ toString k ++ " " ++ l.loc.render = _
        apply String.toList_injective
        simp
      rw [htext, bytes_append, bytes_of_ascii (s := "\t#") (by simp)]
      rfl
    refine ⟨_, hbytes, ?_⟩
    exact newline_not_mem_append (newline_not_mem_append (newline_not_mem_append hspace
      (newline_not_mem_nat k)) hspace) (newline_not_mem_position l.loc)
  · left
    rfl

/-- The lines from number `k` on. -/
def linesFrom (o : Options) (k : Nat) (lines : List Line) : Bytes :=
  (lines.zipIdx k).flatMap fun (l, j) => renderLine o [] j l

lemma render_eq_linesFrom (o : Options) (lines : List Line) :
    render o [] lines = linesFrom o 0 lines := rfl

lemma renderLine_plain (o : Options) (k : Nat) (l : Line) :
    renderLine o [] k l = bytes l.instr.render ++ (bytes (remark o k l) ++ [10]) := by
  have hheader : header [] k = [] := rfl
  rw [renderLine, hheader, ite_self, List.nil_append, bytes_append, bytes_append, bytes_newline,
    List.append_assoc]

lemma linesFrom_cons (o : Options) (k : Nat) (l : Line) (lines : List Line) :
    linesFrom o k (l :: lines) =
      bytes l.instr.render ++ (bytes (remark o k l) ++ 10 :: linesFrom o (k + 1) lines) := by
  simp [linesFrom, renderLine_plain]

lemma skip_linesFrom (hlines : ∀ l ∈ lines, l.instr.op ∈ Op.all) (k : Nat) :
    Blanks.all.skip false (linesFrom o k lines) = 0 := by
  cases lines with
  | nil => rfl
  | cons l lines =>
    obtain ⟨c, cs, hcs, hc⟩ := bytes_name_cons (hlines l (by simp))
    have hle : 65 ≤ c.toNat := by
      simp only [isUpper, Bool.and_eq_true, decide_eq_true_eq, UInt8.le_iff_toNat_le] at hc
      exact hc.1
    rw [linesFrom_cons, render_eq, bytes_append, hcs]
    refine skip_stop (not_blank_of_letter (by omega)) ?_ _
    rintro rfl
    exact absurd hc (by decide)

lemma readInstrs_linesFrom (text : List UInt8) (hn : n < 2 ^ 31)
    (hlines : ∀ l ∈ lines, Legible n l.instr) (fuel at_ k : Nat) (hfuel : lines.length < fuel) :
    readInstrs text fuel at_ (linesFrom o k lines) = .ok (lines.map fun l => essential l.instr) := by
  induction lines generalizing fuel at_ k with
  | nil =>
    obtain ⟨fuel, rfl⟩ : ∃ m, fuel = m + 1 := ⟨fuel - 1, by omega⟩
    rfl
  | cons l lines ih =>
    obtain ⟨fuel, rfl⟩ : ∃ m, fuel = m + 1 := ⟨fuel - 1, by omega⟩
    have hl := hlines l (by simp)
    have hrest : ∀ m ∈ lines, Legible n m.instr := fun m hm => hlines m (by simp [hm])
    have hremark := isRemark_remark o k l
    have hstart := skip_linesFrom (o := o) (fun m hm => (hlines m hm).op) k
    have hparse := parseInstr_render hl hn hremark (linesFrom o (k + 1) lines)
    rw [← linesFrom_cons] at hparse
    have hread : afterBlanks .all Grammar.instruction.label parseInstr (linesFrom o k (l :: lines)) =
        ⟨0 + (bytes l.instr.render).length, .ok (essential l.instr)⟩ := afterBlanks_ok hstart hparse
    have hdrop : (linesFrom o k (l :: lines)).drop (0 + (bytes l.instr.render).length) =
        bytes (remark o k l) ++ 10 :: linesFrom o (k + 1) lines := by
      rw [linesFrom_cons, Nat.zero_add, List.drop_left]
    have hgap := skip_all hremark (linesFrom o (k + 1) lines)
    rw [skip_linesFrom fun m hm => (hrest m hm).op] at hgap
    have hne : (linesFrom o k (l :: lines)).isEmpty = false := by
      simp [linesFrom_cons]
    have hnext : (bytes (remark o k l) ++ 10 :: linesFrom o (k + 1) lines).drop
        ((bytes (remark o k l)).length + 1 + 0) = linesFrom o (k + 1) lines := by
      simp
    rw [readInstrs]
    simp only [hne, hread, hdrop, hgap, hnext]
    rw [ih hrest _ _ _ (by simpa using hfuel)]
    rfl

lemma length_le_linesFrom (o : Options) (k : Nat) (lines : List Line) :
    lines.length ≤ (linesFrom o k lines).length := by
  induction lines generalizing k with
  | nil => simp
  | cons l lines ih =>
    have := ih (k + 1)
    simp only [linesFrom_cons, List.length_append, List.length_cons]
    omega

lemma strayJump?_eq_none {code : List Instr} :
    strayJump? code = none ↔
      ∀ i ∈ code, i.op.isJump = true → 0 ≤ i.addr ∧ i.addr < code.length := by
  rw [strayJump?, List.findSome?_eq_none_iff]
  constructor
  · intro h i hi hjump
    obtain ⟨k, hk⟩ := List.getElem?_of_mem hi
    have := h (i, k) (List.mem_zipIdx_iff_getElem?.mpr hk)
    simpa [hjump] using this
  · rintro h ⟨i, k⟩ hik
    have := h i (List.fst_mem_of_mem_zipIdx hik)
    cases hjump : i.op.isJump with
    | false => simp [hjump]
    | true => simpa [hjump] using this hjump

@[simp] lemma op_essential (i : Instr) : (essential i).op = i.op := by
  unfold essential
  split
  · rfl
  · split <;> rfl

lemma addr_essential (hjump : i.op.isJump = true) : (essential i).addr = i.addr := by
  simp [essential, hjump]

lemma reg_essential (hreg : i.op.hasReg = true) : (essential i).reg = i.reg := by
  have hjump : i.op.isJump = false := by
    cases hop : i.op <;> simp [hop, Op.hasReg] at hreg <;> rfl
  simp [essential, hjump, hreg]

lemma read_render_legible (o : Options) (hlen : lines.length < 2 ^ 31)
    (hlines : ∀ l ∈ lines, Legible lines.length l.instr) :
    read (render o [] lines) = .ok (lines.map fun l => essential l.instr) := by
  have hfuel : lines.length < (linesFrom o 0 lines).length + 1 :=
    Nat.lt_succ_of_le (length_le_linesFrom o 0 lines)
  have hstray : strayJump? (lines.map fun l => essential l.instr) = none := by
    refine strayJump?_eq_none.mpr fun i hi hjump => ?_
    obtain ⟨l, hl, rfl⟩ := List.mem_map.mp hi
    rw [op_essential] at hjump
    rw [addr_essential hjump, List.length_map]
    exact (hlines l hl).jump hjump
  rw [render_eq_linesFrom, read, skip_linesFrom fun l hl => (hlines l hl).op, List.drop_zero,
    readInstrs_linesFrom _ hlen hlines _ _ _ hfuel]
  simp only [Except.bind, bind, hstray]

lemma map_eq_ok {ε α β : Type} {f : α → β} {x : Except ε α} {b : β} :
    x.map f = .ok b ↔ ∃ a, x = .ok a ∧ f a = b := by
  cases x <;> simp [Except.map]

lemma parseMnemonic_mem {s : List UInt8} {op : Op} (h : (parseMnemonic s).answer = .ok op) :
    op ∈ Op.all := by
  simp only [parseMnemonic] at h
  split at h
  · cases h
  · split at h
    · rename_i op' hfind
      obtain rfl : op' = op := by simpa using h
      exact List.mem_of_find?_eq_some hfind
    · cases h

lemma parseRegister_mem {s : List UInt8} {r : Reg} (h : (parseRegister s).answer = .ok r) :
    r ∈ Reg.all := by
  cases s with
  | nil => cases h
  | cons c s =>
    rw [parseRegister] at h
    split at h
    · cases h
    · split at h
      · rename_i r' hfind
        obtain rfl : r' = r := by simpa using h
        exact List.mem_of_find?_eq_some hfind
      · cases h

lemma firstOf_mem {α : Type} {labels : List String} {rs : List (String × Outcome α)}
    {failed : Option (Outcome α)} {a : α} (hfailed : ∀ r ∈ failed, ∃ e, r.answer = .error e)
    (h : (firstOf labels failed rs).answer = .ok a) :
    ∃ label, (label, firstOf labels failed rs) ∈ rs := by
  induction rs generalizing failed with
  | nil =>
    cases failed with
    | none => cases h
    | some r =>
      obtain ⟨e, he⟩ := hfailed r rfl
      rw [firstOf, Option.getD_some, he] at h
      cases h
  | cons r rs ih =>
    obtain ⟨label, r⟩ := r
    rw [firstOf] at h ⊢
    split at h
    · exact ⟨label, by simp⟩
    · by_cases hused : (r.used == 0) = true
      · rw [if_pos hused] at h ⊢
        obtain ⟨label', hmem⟩ := ih hfailed h
        exact ⟨label', List.mem_cons_of_mem _ hmem⟩
      · rw [if_neg hused] at h ⊢
        obtain ⟨label', hmem⟩ := ih (by
          intro q hq
          cases failed with
          | none =>
            obtain rfl := Option.some.inj hq
            exact ⟨_, rfl⟩
          | some q' =>
            obtain rfl := Option.some.inj hq
            exact hfailed q' rfl) h
        exact ⟨label', List.mem_cons_of_mem _ hmem⟩

lemma parseArgument_cases {s : List UInt8} {a : Argument} (h : (parseArgument s).answer = .ok a) :
    (∃ r, a = .reg r ∧ parseRegister s = ⟨(parseArgument s).used, .ok r⟩) ∨
      ∃ n, a = .address n ∧ parseNumber s = ⟨(parseArgument s).used, .ok n⟩ := by
  obtain ⟨label, hmem⟩ : ∃ label, (label, parseArgument s) ∈ _ := firstOf_mem (by simp) h
  simp only [List.mem_cons, Prod.mk.injEq, List.not_mem_nil, or_false] at hmem
  rcases hmem with ⟨-, heq⟩ | ⟨-, heq⟩
  · rw [heq] at h
    obtain ⟨r, hr, rfl⟩ := map_eq_ok.mp h
    exact Or.inl ⟨r, rfl, by rw [heq, ← hr]⟩
  · rw [heq] at h
    obtain ⟨n, hn, rfl⟩ := map_eq_ok.mp h
    exact Or.inr ⟨n, rfl, by rw [heq, ← hn]⟩

lemma parseArgument_mem {s : List UInt8} {r : Reg} (h : (parseArgument s).answer = .ok (.reg r)) :
    r ∈ Reg.all := by
  rcases parseArgument_cases h with ⟨r', heq, hr⟩ | ⟨n, heq, -⟩
  · obtain rfl := Argument.reg.inj heq
    exact parseRegister_mem (congrArg Outcome.answer hr)
  · cases heq

lemma afterBlanks_answer {α : Type} {blanks : Blanks} {label : String}
    {parse : List UInt8 → Outcome α} {s : List UInt8} {a : α}
    (h : (afterBlanks blanks label parse s).answer = .ok a) :
    ∃ s', (parse s').answer = .ok a := by
  refine ⟨s.drop (blanks.skip false s), ?_⟩
  simp only [afterBlanks] at h
  split at h
  · rename_i heq
    exact h
  · cases h

lemma orNothing_answer {α : Type} {r : Outcome α} {a : α} (h : (orNothing r).answer = .ok (some a)) :
    r.answer = .ok a := by
  unfold orNothing at h
  split at h
  · rename_i v hv
    obtain rfl : v = a := by simpa using h
    exact hv
  · split at h <;> cases h

lemma parseInstr_known {s : List UInt8} (h : (parseInstr s).answer = .ok i) :
    i.op ∈ Op.all ∧ i.reg ∈ Reg.all ∧ essential i = i := by
  simp only [parseInstr] at h
  split at h
  · cases h
  · rename_i op hop
    have hop := parseMnemonic_mem hop
    split at h
    · cases h
    · rename_i arg harg
      unfold assemble at h
      split at h
      · rename_i r
        obtain ⟨s', hs'⟩ := afterBlanks_answer (orNothing_answer harg)
        split at h
        · rename_i hreg
          obtain rfl := Except.ok.inj h
          have hjump : op.isJump = false := by
            cases op <;> simp [Op.hasReg] at hreg <;> rfl
          exact ⟨hop, parseArgument_mem hs', by simp [essential, hjump, hreg]⟩
        · cases h
      · split at h
        · rename_i hjump
          obtain rfl := Except.ok.inj h
          exact ⟨hop, by simp [Reg.all], by simp [essential, hjump]⟩
        · cases h
      · split at h
        · cases h
        · rename_i hno
          obtain rfl := Except.ok.inj h
          simp only [Bool.or_eq_true, not_or, Bool.not_eq_true] at hno
          exact ⟨hop, by simp [Reg.all], by simp [essential, hno.1, hno.2]⟩

lemma readInstrs_known {text : List UInt8} {fuel at_ : Nat} {s : List UInt8} {code : List Instr}
    (h : readInstrs text fuel at_ s = .ok code) :
    ∀ i ∈ code, i.op ∈ Op.all ∧ i.reg ∈ Reg.all ∧ essential i = i := by
  induction fuel generalizing at_ s code with
  | zero =>
    obtain rfl := Except.ok.inj h
    simp
  | succ fuel ih =>
    rw [readInstrs] at h
    split at h
    · obtain rfl := Except.ok.inj h
      simp
    · dsimp only at h
      split at h
      · cases h
      · rename_i i hi
        obtain ⟨s', hs'⟩ := afterBlanks_answer hi
        obtain ⟨rest, hrest, rfl⟩ := map_eq_ok.mp h
        intro j hj
        rcases List.mem_cons.mp hj with rfl | hj
        · exact parseInstr_known hs'
        · exact ih hrest j hj

lemma read_known {text : List UInt8} {code : List Instr} (h : read text = .ok code) :
    (∀ i ∈ code, i.op ∈ Op.all ∧ i.reg ∈ Reg.all ∧ essential i = i) ∧
      ∀ i ∈ code, i.op.isJump = true → 0 ≤ i.addr ∧ i.addr < code.length := by
  simp only [read, bind, Except.bind] at h
  split at h
  · cases h
  · rename_i code' hcode
    split at h
    · cases h
    · rename_i hstray
      obtain rfl := Except.ok.inj h
      exact ⟨readInstrs_known hcode, strayJump?_eq_none.mp hstray⟩

/-- The same operation, with the same register or address where it has one. -/
structure SameEffect (i j : Instr) : Prop where
  op : j.op = i.op
  reg : i.op.hasReg = true → j.reg = i.reg
  addr : i.op.isJump = true → j.addr = i.addr

/-- Reading a printed listing gives instructions of the same effect, and everything that is read from
a text is a program that printing and reading give back. -/
theorem listings_round_trip :
    (∀ (o : Options) (lines : List Line), lines.length < 2 ^ 31 →
      (∀ l ∈ lines, l.instr.op ∈ Op.all ∧ l.instr.reg ∈ Reg.all ∧
        (l.instr.op.isJump = true → 0 ≤ l.instr.addr ∧ l.instr.addr < lines.length)) →
      ∃ code, read (render o [] lines) = .ok code ∧
        List.Forall₂ (fun l i => SameEffect l.instr i) lines code) ∧
    ∀ (text : List UInt8) (code : List Instr), read text = .ok code → code.length < 2 ^ 31 →
      (∀ i ∈ code, i.op ∈ Op.all ∧ i.reg ∈ Reg.all ∧
        (i.op.isJump = true → 0 ≤ i.addr ∧ i.addr < code.length)) ∧
      ∀ (o : Options) (lines : List Line), lines.map (·.instr) = code →
        read (render o [] lines) = .ok code := by
  refine ⟨fun o lines hlen hlines => ?_, fun text code hread hlen => ?_⟩
  · refine ⟨_, read_render_legible o hlen fun l hl => ?_, ?_⟩
    · obtain ⟨hop, hreg, hjump⟩ := hlines l hl
      exact ⟨hop, fun _ => hreg, hjump⟩
    · refine List.forall₂_map_right_iff.mpr (List.forall₂_same.mpr fun l _ => ?_)
      exact ⟨op_essential _, reg_essential, addr_essential⟩
  · obtain ⟨hknown, hjumps⟩ := read_known hread
    refine ⟨fun i hi => ⟨(hknown i hi).1, (hknown i hi).2.1, hjumps i hi⟩, fun o lines hcode => ?_⟩
    have hlength : lines.length = code.length := by rw [← hcode, List.length_map]
    have hmem : ∀ l ∈ lines, l.instr ∈ code := fun l hl => hcode ▸ List.mem_map_of_mem hl
    rw [read_render_legible o (hlength ▸ hlen) fun l hl => ?_]
    · conv_rhs => rw [← hcode]
      congr 1
      exact List.map_congr_left fun l hl => (hknown _ (hmem l hl)).2.2
    · rw [hlength]
      exact ⟨(hknown _ (hmem l hl)).1, fun _ => (hknown _ (hmem l hl)).2.1, hjumps _ (hmem l hl)⟩

/-- A loop that reads a number and writes it again, with a remark behind each instruction. -/
theorem echo_loop_round_trip :
    ∃ code, read (render { locations := true } []
        [⟨{ op := .read }, ⟨1, 1⟩⟩, ⟨{ op := .put, reg := .b }, ⟨1, 7⟩⟩, ⟨{ op := .write }, ⟨2, -1⟩⟩,
          ⟨{ op := .jump, addr := 0 }, ⟨3, 1⟩⟩]) = .ok code ∧
      code.map (·.op) = [.read, .put, .write, .jump] := by
  obtain ⟨code, hread, hsame⟩ := listings_round_trip.1 { locations := true }
    [⟨{ op := .read }, ⟨1, 1⟩⟩, ⟨{ op := .put, reg := .b }, ⟨1, 7⟩⟩, ⟨{ op := .write }, ⟨2, -1⟩⟩,
      ⟨{ op := .jump, addr := 0 }, ⟨3, 1⟩⟩] (by decide) (by decide)
  refine ⟨code, hread, ?_⟩
  cases hsame with
  | cons h₁ hsame => cases hsame with
    | cons h₂ hsame => cases hsame with
      | cons h₃ hsame => cases hsame with
        | cons h₄ hsame =>
          cases hsame
          simp [h₁.op, h₂.op, h₃.op, h₄.op]

end Accumulator.Listing
