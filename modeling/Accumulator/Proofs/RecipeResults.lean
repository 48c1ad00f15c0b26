import Mathlib
import Accumulator.Proofs.DivisionRange

/-!
# What recipes leave

A machine that comes to a recipe goes through it and stands behind it with a result, or it never gets
out. Runs of a recipe are looked at where nothing else can be carried out, so they cannot leave it
unnoticed; they are runs of every program that the recipe stands in. Sums, differences, products and
comparisons are right for all words, and quotients exactly where the divisor outgrows the dividend.
-/

namespace Accumulator.Machine

variable {code part : Array Instr} {lo hi n : Nat} {s t u : State}

/-- A machine goes through the code between two places: after some steps it stands behind that code,
and at every time before that inside. -/
def Crosses (code : Array Instr) (lo hi : Nat) (s t : State) : Prop :=
  ∃ n, runFor code n s = (t, some .stepLimit) ∧ t.pc = hi ∧
    ∀ i < n, ∃ u, runFor code i s = (u, some .stepLimit) ∧ lo ≤ u.pc ∧ u.pc < hi

/-- A machine stays inside the code between two places for ever. -/
def Stays (code : Array Instr) (lo hi : Nat) (s : State) : Prop :=
  ∀ n, ∃ u, runFor code n s = (u, some .stepLimit) ∧ lo ≤ u.pc ∧ u.pc < hi

lemma Crosses.unique (h : Crosses code lo hi s t) (h' : Crosses code lo hi s u) : t = u := by
  obtain ⟨n, hn, htn, hbefore⟩ := h
  obtain ⟨m, hm, hum, hbefore'⟩ := h'
  rcases lt_trichotomy n m with hlt | rfl | hlt
  · obtain ⟨v, hv, -, hin⟩ := hbefore' n hlt
    rw [hn] at hv
    cases hv
    omega
  · rw [hn] at hm
    cases hm
    rfl
  · obtain ⟨v, hv, -, hin⟩ := hbefore m hlt
    rw [hm] at hv
    cases hv
    omega

lemma Stays.not_crosses (h : Stays code lo hi s) : ¬ Crosses code lo hi s t := by
  rintro ⟨n, hn, htn, -⟩
  obtain ⟨u, hu, -, hin⟩ := h n
  rw [hn] at hu
  cases hu
  omega

lemma execute_ne_stepLimit (i : Instr) (s : State) : (execute i s).2 ≠ some .stepLimit := by
  unfold execute
  cases i.op
  case read => cases s.input <;> simp
  all_goals simp

lemma step_ne_stepLimit (code : Array Instr) (s : State) : (step code s).2 ≠ some .stepLimit := by
  unfold step
  split
  · simp
  · split
    · simp
    · split
      · simp
      · split
        · simp
        · exact execute_ne_stepLimit _ _

lemma step_of_stepLimit (h : runFor code (n + 1) s = (t, some .stepLimit)) :
    s.halted = false ∧ ∃ s', step code s = (s', none) ∧ runFor code n s' = (t, some .stepLimit) := by
  rw [runFor] at h
  cases hs : s.halted with
  | true =>
    rw [hs] at h
    cases h
  | false =>
    rw [hs, if_neg (by decide)] at h
    rcases hstep : step code s with ⟨s', _ | stop⟩
    · rw [hstep] at h
      exact ⟨rfl, s', rfl, h⟩
    · rw [hstep] at h
      obtain ⟨-, rfl⟩ : s' = t ∧ stop = .stepLimit := by simpa using h
      exact absurd (congrArg Prod.snd hstep) (step_ne_stepLimit code s)

/-- What can be carried out in `part` stands in `code` too, and between two places. -/
def PartOf (part code : Array Instr) (lo hi : Nat) : Prop :=
  ∀ p i, part[p]? = some i → i.op.cost?.isSome → code[p]? = some i ∧ lo ≤ p ∧ p < hi

lemma PartOf.step (h : PartOf part code lo hi) (hs : s.halted = false)
    (hstep : step part s = (t, none)) : step code s = (t, none) ∧ lo ≤ s.pc ∧ s.pc < hi := by
  unfold Machine.step at hstep ⊢
  rw [hs, if_neg (by decide)] at hstep ⊢
  cases hpc : s.pc with
  | negSucc p =>
    rw [hpc] at hstep
    cases hstep
  | ofNat p =>
    rw [hpc] at hstep
    simp only [fetch?] at hstep ⊢
    cases hi : part[p]? with
    | none =>
      rw [hi] at hstep
      cases hstep
    | some i =>
      rw [hi] at hstep
      dsimp only at hstep
      have hcost : i.op.cost?.isSome := by
        cases hc : i.op.cost? with
        | some c => rfl
        | none =>
          rw [hc] at hstep
          split at hstep <;> cases hstep
      obtain ⟨hcode, hlo, hhi⟩ := h p i hi hcost
      rw [hcode]
      exact ⟨hstep, Int.ofNat_le.mpr hlo, Int.ofNat_lt.mpr hhi⟩

/-- A run of a piece of code on its own is a run of the whole code that stays in the piece. -/
lemma PartOf.runFor (h : PartOf part code lo hi)
    (hrun : runFor part n s = (t, some .stepLimit)) :
    runFor code n s = (t, some .stepLimit) ∧
      ∀ i < n, ∃ u, runFor code i s = (u, some .stepLimit) ∧ lo ≤ u.pc ∧ u.pc < hi := by
  induction n generalizing s with
  | zero => exact ⟨hrun, by simp⟩
  | succ n ih =>
    obtain ⟨hs, s', hstep, hrest⟩ := step_of_stepLimit hrun
    obtain ⟨hstep', hin⟩ := h.step hs hstep
    obtain ⟨hrun', hinside⟩ := ih hrest
    have hnext : ∀ m, Machine.runFor code (m + 1) s = Machine.runFor code m s' := by
      intro m
      rw [Machine.runFor, hs, if_neg (by decide), hstep']
    refine ⟨by rw [hnext, hrun'], fun i hi => ?_⟩
    cases i with
    | zero => exact ⟨s, by rw [Machine.runFor, hs]; rfl, hin⟩
    | succ i =>
      rw [hnext]
      exact hinside i (by omega)

lemma PartOf.crosses (h : PartOf part code lo hi) {y : Data}
    (hgoes : Goes part n lo s.data hi y) (hs : s.At lo s.data) :
    ∃ t, Crosses code lo hi s t ∧ t.data = y := by
  obtain ⟨t, ht, hrun⟩ := hgoes s hs
  have hlimit : Machine.runFor part n s = (t, some .stepLimit) := by
    rw [← Nat.add_zero n, hrun, Machine.runFor, ht.running]
    rfl
  obtain ⟨hrun', hinside⟩ := h.runFor hlimit
  exact ⟨t, ⟨n, hrun', ht.pc, hinside⟩, ht.data⟩

lemma PartOf.stays (h : PartOf part code lo hi) (hlasts : ∀ n, Lasts part n lo s.data)
    (hs : s.At lo s.data) : Stays code lo hi s := by
  intro n
  have hlimit := (hlasts (n + 1)).stepLimit hs
  rcases hrun : Machine.runFor part (n + 1) s with ⟨t, stop⟩
  rw [hrun] at hlimit
  obtain rfl : stop = some .stepLimit := hlimit
  exact (h.runFor hrun).2 n (by omega)

end Accumulator.Machine

namespace Accumulator.Layout

open Machine (Reg Data Goes Crosses Stays)

/-- An instruction that cannot be carried out. -/
def blank : Machine.Instr := { op := .unknown 0 }

/-- The code between two places alone. Nothing else can be carried out. -/
def Image.alone (m : Image) (start size : Nat) : Image :=
  { m with
    code := Array.ofFn fun p : Fin (start + size) =>
      if p.1 < start then blank else m.code[p.1]?.getD blank }

lemma Image.partOf_alone (m : Image) (start size : Nat) :
    Machine.PartOf (m.alone start size).code m.code start (start + size) := by
  intro p i hi hcost
  simp only [alone, Array.getElem?_ofFn] at hi
  split at hi
  · next hp =>
    obtain rfl := Option.some.inj hi
    split at hcost
    · cases hcost
    · next hstart =>
      rw [if_neg hstart]
      cases hcode : m.code[p]? with
      | none =>
        rw [hcode] at hcost
        cases hcost
      | some j => exact ⟨rfl, not_lt.mp hstart, hp⟩
  · cases hi

lemma Image.Holds.alone {m : Image} {k start : Nat} {items : List Item} (h : m.Holds k start items) :
    (m.alone start items.length).Holds k start items := by
  intro i it hi
  have hlt : i < items.length := (List.getElem?_eq_some_iff.mp hi).1
  simp only [Image.alone, Array.getElem?_ofFn]
  rw [dif_pos (by omega), if_neg (by omega), h i it hi]
  rfl

/-- A machine comes to a recipe in its code, with the operands `x` and `y`. -/
structure Enters (m : Image) (start : Nat) (items : List Item) (x y : UInt64) (s : Machine.State) :
    Prop where
  holds : ∃ k, m.Holds k start items
  running : s.halted = false
  pc : s.pc = start
  left : s.regs.a = x
  right : s.regs.b = y

lemma exists_enters (start : Nat) (items : List Item) (x y : UInt64) :
    ∃ m s, Enters m start items x y s := by
  let places : Image := { code := #[], blocks := [], funcs := [] }
  let m : Image := { places with
    code := Array.ofFn fun p : Fin (start + items.length) =>
      (items[p.1 - start]?.map (places.instr 0 p.1)).getD blank }
  refine ⟨m, { regs := { a := x, b := y }, pc := start }, ⟨0, fun i it hi => ?_⟩, rfl, rfl, rfl, rfl⟩
  have hlt : i < items.length := (List.getElem?_eq_some_iff.mp hi).1
  simp only [m, Array.getElem?_ofFn]
  rw [dif_pos (by omega), Nat.add_sub_cancel_left, hi]
  rfl

/-- Wherever the recipe of an operation stands, a machine that comes to it with operands `x` and `y` goes
through it. A number with `P` is in the accumulator then, and memory, input and output are as before. -/
def Operates (op : Flow.Op) (x y : UInt64) (P : UInt64 → Prop) : Prop :=
  ∃ items, arithmetic op = .ok items ∧ ∀ m start s, Enters m start items x y s →
    ∃ t, Crosses m.code start (start + items.length) s t ∧ P t.regs.a ∧ t.readCell = s.readCell ∧
      t.input = s.input ∧ t.output = s.output

/-- Wherever the recipe of an operation stands, a machine that comes to it with operands `x` and `y` never
gets out. -/
def Loops (op : Flow.Op) (x y : UInt64) : Prop :=
  ∃ items, arithmetic op = .ok items ∧ ∀ m start s, Enters m start items x y s →
    Stays m.code start (start + items.length) s

variable {m : Image} {start : Nat} {items : List Item} {x y v : UInt64} {s : Machine.State}
  {op : Flow.Op} {P : UInt64 → Prop}

lemma Enters.at_data (h : Enters m start items x y s) : s.At start s.data := ⟨h.running, h.pc, rfl⟩

lemma operates_of_goes (hop : arithmetic op = .ok items) (hv : P v)
    (h : ∀ (m : Image) (k start : Nat) (z : Data), m.Holds k start items → z.regs.a = x →
      z.regs.b = y → ∃ n z', Goes m.code n start z (start + items.length) z' ∧ Obtains z z' v) :
    Operates op x y P := by
  refine ⟨items, hop, fun m start s hs => ?_⟩
  obtain ⟨k, hholds⟩ := hs.holds
  obtain ⟨n, z, hgoes, hz⟩ := h _ k start s.data hholds.alone hs.left hs.right
  obtain ⟨t, hpasses, rfl⟩ := (m.partOf_alone start items.length).crosses hgoes hs.at_data
  exact ⟨t, hpasses, hz.value.symm ▸ hv, hz.cells, hz.input, hz.output⟩

lemma operates_of_straight (hop : arithmetic op = .ok items) (hs : items.all Item.isStraight = true)
    (hv : P v) (h : ∀ z : Data, z.regs.a = x → z.regs.b = y → Obtains z (acts z items) v) :
    Operates op x y P :=
  operates_of_goes hop hv fun _ _ _ z hholds hx hy => ⟨_, _, hholds.goes hs, h z hx hy⟩

lemma differences_pos {x y : UInt64} : 0 < Machine.monus x y + Machine.monus y x ↔ x ≠ y := by
  have hsum : (Machine.monus x y + Machine.monus y x).toNat = x.toNat - y.toNat + (y.toNat - x.toNat) := by
    have := x.toNat_lt
    have := y.toNat_lt
    rw [UInt64.toNat_add, toNat_monus, toNat_monus]
    omega
  rw [UInt64.lt_iff_toNat_lt, hsum, ne_eq, ← UInt64.toNat_inj]
  change 0 < _ ↔ _
  omega

/-- The recipes of all operations but division are right for all words: they multiply and add modulo
2^64, subtract down to zero, and leave a positive number exactly if a comparison holds. -/
theorem operations_right (x y : UInt64) :
    Operates .mul x y (fun v => v.toNat = x.toNat * y.toNat % 2 ^ 64) ∧
      Operates .add x y (fun v => v.toNat = (x.toNat + y.toNat) % 2 ^ 64) ∧
      Operates .sub x y (fun v => v.toNat = x.toNat - y.toNat) ∧
      Operates .ne x y (fun v => 0 < v ↔ x ≠ y) ∧
      Operates .gt x y (fun v => 0 < v ↔ x > y) ∧
      Operates .lt x y (fun v => 0 < v ↔ x < y) := by
  refine ⟨?_, ?_, ?_, ?_, ?_, ?_⟩
  · refine operates_of_goes (v := x * y) rfl (UInt64.toNat_mul x y) ?_
    rintro m k start z hholds rfl rfl
    exact goes_mul hholds z
  · refine operates_of_straight (v := x + y) rfl rfl (UInt64.toNat_add x y) ?_
    rintro z rfl rfl
    exact ⟨rfl, rfl, rfl, rfl⟩
  · refine operates_of_straight (v := Machine.monus x y) rfl rfl (toNat_monus x y) ?_
    rintro z rfl rfl
    exact ⟨rfl, rfl, rfl, rfl⟩
  · refine operates_of_goes rfl differences_pos ?_
    rintro m k start z hholds rfl rfl
    exact goes_differ hholds z
  · refine operates_of_straight (v := Machine.monus x y) rfl rfl monus_pos ?_
    rintro z rfl rfl
    exact ⟨rfl, rfl, rfl, rfl⟩
  · refine operates_of_straight (v := Machine.monus y x) rfl rfl monus_pos ?_
    rintro z rfl rfl
    exact ⟨rfl, rfl, rfl, rfl⟩

lemma loops_of_division_eq_none (h : division x y = none) : Loops .div x y := by
  refine ⟨_, rfl, fun m start s hs => ?_⟩
  obtain ⟨k, hholds⟩ := hs.holds
  have hlasts := goes_divide hholds.alone (Or.inl rfl) s.data
  have hdivision : division s.data.regs.a s.data.regs.b = none := by
    change division s.regs.a s.regs.b = none
    rw [hs.left, hs.right, h]
  rw [hdivision] at hlasts
  exact (m.partOf_alone start (divide .c).length).stays hlasts hs.at_data

lemma operates_of_division {quot rem : UInt64} (h : division x y = some (quot, rem)) :
    Operates .div x y (· = quot) ∧ Operates .mod x y (· = rem) :=
  ⟨operates_of_goes rfl rfl ((leaves_iff (Or.inl rfl)).mpr ⟨quot, rem, h, rfl⟩),
    operates_of_goes rfl rfl ((leaves_iff (Or.inr rfl)).mpr ⟨quot, rem, h, rfl⟩)⟩

lemma toNat_word_mod (x y : UInt64) :
    (Word.mod x y).toNat = if y = 0 then 0 else x.toNat % y.toNat := by
  unfold Word.mod
  split
  · rfl
  · exact UInt64.toNat_ofNat_of_lt' ((Nat.mod_le _ _).trans_lt x.toNat_lt)

/-- No machine that gets out of the recipe of an operation has `v` in the accumulator. -/
def Misses (op : Flow.Op) (x y v : UInt64) : Prop :=
  ∀ items m start s t, arithmetic op = .ok items → Enters m start items x y s →
    Crosses m.code start (start + items.length) s t → t.regs.a ≠ v

lemma Loops.misses (h : Loops op x y) (v : UInt64) : Misses op x y v := by
  obtain ⟨items, hop, hstays⟩ := h
  intro items' m start s t hop' hs hpasses
  obtain rfl : items = items' := Except.ok.inj (hop.symm.trans hop')
  exact absurd hpasses (hstays m start s hs).not_crosses

lemma Operates.misses (h : Operates op x y P) (hv : ¬ P v) : Misses op x y v := by
  obtain ⟨items, hop, hends⟩ := h
  intro items' m start s t hop' hs hpasses
  obtain rfl : items = items' := Except.ok.inj (hop.symm.trans hop')
  obtain ⟨u, hpasses', hu, -⟩ := hends m start s hs
  rintro rfl
  exact hv (hpasses.unique hpasses' ▸ hu)

lemma Misses.not_operates (h : Misses op x y v) (hP : ∀ w, P w → w = v) : ¬ Operates op x y P := by
  rintro ⟨items, hop, hends⟩
  obtain ⟨m, s, hs⟩ := exists_enters 0 items x y
  obtain ⟨t, hpasses, ht, -⟩ := hends m 0 s hs
  exact h items m 0 s t hop hs hpasses (hP _ ht)

lemma Operates.mono {Q : UInt64 → Prop} (h : Operates op x y P) (hPQ : ∀ v, P v → Q v) :
    Operates op x y Q := by
  obtain ⟨items, hop, hends⟩ := h
  refine ⟨items, hop, fun m start s hs => ?_⟩
  obtain ⟨t, hpasses, ht, hsame⟩ := hends m start s hs
  exact ⟨t, hpasses, hPQ _ ht, hsame⟩

/-- No machine comes out of the recipe with the quotient: none comes out at all, or all with another
number. -/
lemma misses_of_not_outgrows (h : ¬ (y = 0 ∨ Outgrows y x)) :
    Misses .div x y (Word.div x y) ∧
      (Loops .div x y ∨ Operates .div x y (fun v => v.toNat ≠ x.toNat / y.toNat)) := by
  cases hd : division x y with
  | none =>
    have hloops := loops_of_division_eq_none hd
    exact ⟨hloops.misses _, Or.inl hloops⟩
  | some p =>
    have hdiv := (operates_of_division hd).1
    have hne : p.1 ≠ Word.div x y := by
      intro heq
      have hquot : division x y = some (Word.div x y, p.2) := by rw [hd, ← heq]
      exact h (outgrows_of_division hquot)
    refine ⟨hdiv.misses hne.symm, Or.inr (hdiv.mono ?_)⟩
    rintro v rfl
    rw [← toNat_word_div, ne_eq, UInt64.toNat_inj]
    exact hne

/-- The recipe leaves the quotient exactly if the divisor is zero, or exceeds the dividend, doubled some
times, before it loses a bit. The remainder is left then too, and a zero for both if the divisor is zero.
For all other operands no machine comes out of the recipe with the quotient: none comes out at all, or all
with another number. -/
theorem quotients_right_iff_outgrows (x y : UInt64) :
    (Operates .div x y (fun v => v.toNat = x.toNat / y.toNat) ↔ y = 0 ∨ Outgrows y x) ∧
    (y = 0 ∨ Outgrows y x →
      Operates .mod x y (fun v => v.toNat = if y = 0 then 0 else x.toNat % y.toNat)) ∧
    (¬ (y = 0 ∨ Outgrows y x) →
      Misses .div x y (Word.div x y) ∧
        (Loops .div x y ∨ Operates .div x y (fun v => v.toNat ≠ x.toNat / y.toNat))) := by
  refine ⟨⟨fun hdiv => ?_, fun h => ?_⟩, fun h => ?_, misses_of_not_outgrows⟩
  · by_contra h
    refine (misses_of_not_outgrows h).1.not_operates (fun w hw => ?_) hdiv
    rw [← UInt64.toNat_inj, hw, toNat_word_div]
  · refine (operates_of_division (division_of_outgrows h)).1.mono ?_
    rintro v rfl
    exact toNat_word_div x y
  · refine (operates_of_division (division_of_outgrows h)).2.mono ?_
    rintro v rfl
    exact toNat_word_mod x y

/-- Seven is divided by two, and the top bit is not divided by itself. -/
theorem quotients_of_seven_and_top_bit :
    Operates .div 7 2 (fun v => v.toNat = 7 / 2) ∧
      Misses .div 0x8000000000000000 0x8000000000000000 1 := by
  refine ⟨(quotients_right_iff_outgrows 7 2).1.mpr (Or.inr ⟨2, by decide, by decide⟩),
    ((quotients_right_iff_outgrows 0x8000000000000000 0x8000000000000000).2.2 ?_).1⟩
  rintro (hzero | ⟨j, hexceeds, hfits⟩)
  · exact absurd hzero (by decide)
  · cases j with
    | zero => exact absurd hexceeds (by decide)
    | succ j =>
      change 2 ^ 63 * 2 ^ (j + 1) < 2 ^ 64 at hfits
      have := Nat.one_le_two_pow (n := j)
      rw [pow_succ] at hfits
      omega

end Accumulator.Layout
