import Mathlib
import Accumulator.Proofs.RecipeRuns

/-!
# Where the recipe for quotients divides

The recipe doubles the divisor until it exceeds the dividend, and a divisor that is doubled too often
loses its highest bits. If it exceeds the dividend before that the recipe divides. If not, more
doublings are counted than the quotient has room for, so the recipe gives too large a quotient or does
not come to an end.
-/

namespace Accumulator.Machine

variable {code : Array Instr} {s : State} {n m p q : Nat} {x y z : Data}

lemma State.At.outOfProgram (hs : s.At q y) (hq : code.size ≤ q) (n : Nat) :
    runFor code (n + 1) s = (s, some .outOfProgram) := by
  have hfetch : fetch? code s.pc = none := by
    rw [hs.pc]
    exact Array.getElem?_eq_none hq
  rw [runFor, if_neg (by simp [hs.running]), step, hs.running, hfetch]
  rfl

lemma Goes.unique_of_size_le (hs : s.At p x) (hq : code.size ≤ q) (h : Goes code n p x q y)
    (h' : Goes code m p x q z) : y = z := by
  wlog hnm : n ≤ m generalizing n m y z
  · exact (this h' h (by omega)).symm
  obtain ⟨k, rfl⟩ := Nat.exists_eq_add_of_le hnm
  obtain ⟨t, ht, hrun⟩ := h s hs
  obtain ⟨u, hu, hrun'⟩ := h' s hs
  have hlast : runFor code k t = (u, some .stepLimit) := by
    rw [← hrun, ← Nat.add_zero (n + k), hrun', runFor, if_neg (by simp [hu.running])]
  cases k with
  | zero =>
    rw [runFor, if_neg (by simp [ht.running])] at hlast
    obtain rfl : t = u := congrArg Prod.fst hlast
    exact ht.data.symm.trans hu.data
  | succ k =>
    rw [ht.outOfProgram hq] at hlast
    cases hlast

lemma Goes.not_lasts_of_size_le (hs : s.At p x) (hq : code.size ≤ q) (h : Goes code n p x q y) :
    ¬ Lasts code (n + 1) p x := by
  intro hlasts
  obtain ⟨t, ht, hrun⟩ := h s hs
  have hlimit := hlasts.stepLimit hs
  rw [hrun, ht.outOfProgram hq] at hlimit
  cases hlimit

end Accumulator.Machine

namespace Accumulator.Layout

open Machine (Reg Data Goes)

section

variable {x y e quot rem : UInt64} {n : Nat}

lemma doublings_lt (h : doublings y e = some n) : n < 64 := by
  rw [doublings, List.find?_range_eq_some] at h
  simpa using h.2.1

lemma lt_multiple_of_not_outgrows (hy : y ≠ 0) (h : ¬ Outgrows y e) (hn : doublings y e = some n) :
    e.toNat < y.toNat * 2 ^ (n - 1) := by
  have hpos : 0 < y.toNat := Nat.pos_of_ne_zero fun h => hy (UInt64.toNat.inj h)
  have hmono : ∀ {i i'}, i ≤ i' → y.toNat * 2 ^ i ≤ y.toNat * 2 ^ i' := fun hi =>
    Nat.mul_le_mul_left _ (Nat.pow_le_pow_right (by omega) hi)
  have hlost : ∃ j, 2 ^ 64 ≤ y.toNat * 2 ^ j := ⟨64, Nat.le_mul_of_pos_left _ hpos⟩
  -- Doubling number `j + 1` is the first one that loses a bit.
  obtain ⟨j, hj⟩ : ∃ j, Nat.find hlost = j + 1 := by
    refine Nat.exists_eq_succ_of_ne_zero fun h0 => ?_
    have := Nat.find_spec hlost
    rw [h0] at this
    have := y.toNat_lt
    omega
  have hfits : y.toNat * 2 ^ j < 2 ^ 64 := not_le.mp (Nat.find_min hlost (by omega))
  have hwraps : 2 ^ 64 ≤ y.toNat * 2 ^ j * 2 := by
    have := Nat.find_spec hlost
    rwa [hj, pow_succ 2 j, ← Nat.mul_assoc] at this
  have hle : y.toNat * 2 ^ j ≤ e.toNat := not_lt.mp fun hlt => h ⟨j, hlt, hfits⟩
  have hmore := (doublings_some hn).1
  rw [UInt64.lt_iff_toNat_lt, UInt64.toNat_ofNat'] at hmore
  have hjn : j + 1 < n := by
    by_contra hnj
    rcases Nat.lt_or_ge n (j + 1) with hlt | hge
    · have := hmono (show n ≤ j by omega)
      rw [Nat.mod_eq_of_lt (by omega)] at hmore
      omega
    · obtain rfl : n = j + 1 := by omega
      rw [pow_succ 2 j, ← Nat.mul_assoc, Nat.mod_eq_sub_mod hwraps, Nat.mod_eq_of_lt (by omega)] at hmore
      omega
  calc e.toNat < 2 ^ 64 := e.toNat_lt
    _ ≤ y.toNat * 2 ^ (j + 1) := by rwa [pow_succ 2 j, ← Nat.mul_assoc]
    _ ≤ y.toNat * 2 ^ (n - 1) := hmono (by omega)

lemma div_lt_of_divideFrom (hy : y ≠ 0) (h : ¬ Outgrows y e)
    (hd : divideFrom y 0 e = some (quot, rem)) : e.toNat / y.toNat < quot.toNat := by
  have hlt : ¬ e < y := by
    intro hlt
    exact h ⟨0, by simpa using UInt64.lt_iff_toNat_lt.mp hlt, by simpa using y.toNat_lt⟩
  cases hn : doublings y e with
  | none =>
    rw [divideFrom_of_doublings_eq_none hlt hn] at hd
    cases hd
  | some n =>
    have hmultiple := lt_multiple_of_not_outgrows hy h hn
    obtain ⟨j, rfl⟩ : ∃ j, n = j + 1 := by
      refine Nat.exists_eq_succ_of_ne_zero ?_
      rintro rfl
      exact hlt (UInt64.lt_iff_toNat_lt.mpr (by simpa using hmultiple))
    set left := Machine.monus e (UInt64.ofNat (y.toNat * 2 ^ (j + 1)) >>> 1) with hleft
    have hsmall : left.toNat < 2 ^ 63 := by
      have hmore := UInt64.lt_iff_toNat_lt.mp (doublings_some hn).1
      have := e.toNat_lt
      rw [hleft, toNat_monus, toNat_shr]
      omega
    rw [divideFrom_of_doublings hlt hn, ← hleft, (outgrows_of_lt hy hsmall).divideFrom_eq,
      Option.some.injEq, Prod.mk.injEq] at hd
    have hpower : (UInt64.ofNat (2 ^ (j + 1)) >>> 1).toNat = 2 ^ j := by
      rw [toNat_shr, UInt64.toNat_ofNat_of_lt' (Nat.pow_lt_pow_right (by omega) (doublings_lt hn)),
        pow_succ]
      omega
    have hroom : 2 ^ j < 2 ^ 63 := by
      have := doublings_lt hn
      exact Nat.pow_lt_pow_right (by omega) (by omega)
    have hrest : left.toNat / y.toNat ≤ left.toNat := Nat.div_le_self _ _
    have hword : left.toNat / y.toNat < 2 ^ 64 := by omega
    rw [← hd.1, UInt64.zero_add, UInt64.toNat_add, hpower, UInt64.toNat_ofNat_of_lt' hword,
      Nat.mod_eq_of_lt (by omega)]
    calc e.toNat / y.toNat < 2 ^ j := Nat.div_lt_of_lt_mul hmultiple
      _ ≤ 2 ^ j + left.toNat / y.toNat := Nat.le_add_right _ _

lemma division_of_outgrows (h : y = 0 ∨ Outgrows y x) :
    division x y = some (Word.div x y, Word.mod x y) := by
  unfold division Word.div Word.mod
  by_cases hy : y = 0
  · simp [hy]
  · rw [if_neg hy, (h.resolve_left hy).divideFrom_eq, if_neg hy, UInt64.zero_add]

lemma outgrows_of_division (h : division x y = some (Word.div x y, rem)) : y = 0 ∨ Outgrows y x := by
  unfold division at h
  by_contra hnot
  obtain ⟨hy, hgrows⟩ := not_or.mp hnot
  rw [if_neg hy] at h
  have hlt := div_lt_of_divideFrom hy hgrows h
  rw [toNat_word_div] at hlt
  exact lt_irrefl _ hlt

end

/-- Wherever the recipe stands, a machine that comes to it with `x` and `y` in the first two registers
goes through it and leaves `v`. -/
def Leaves (result : Reg) (x y v : UInt64) : Prop :=
  ∀ (m : Image) (k start : Nat) (z : Data), m.Holds k start (divide result) → z.regs.a = x →
    z.regs.b = y → ∃ n z', Goes m.code n start z (start + (divide result).length) z' ∧ Obtains z z' v

variable {x y v : UInt64} {result : Reg}

/-- Code that is made of some items and nothing else. -/
def Image.ofItems (items : List Item) : Image where
  code := (items.mapIdx fun i it => Image.instr ⟨#[], [], []⟩ 0 i it).toArray
  blocks := []
  funcs := []

lemma Image.holds_ofItems (items : List Item) : (Image.ofItems items).Holds 0 0 items := by
  intro i it hi
  simp [Image.ofItems, hi, Image.instr]

lemma leaves_iff (hr : result = .c ∨ result = .e) :
    Leaves result x y v ↔ ∃ quot rem, division x y = some (quot, rem) ∧
      v = if result = .c then quot else rem := by
  constructor
  · intro h
    set m := Image.ofItems (divide result) with hm
    set s : Machine.State := { Machine.State.start [] with regs := { a := x, b := y } } with hs
    have hat : s.At 0 s.data := ⟨rfl, rfl, rfl⟩
    have hsize : m.code.size ≤ 0 + (divide result).length := by simp [hm, Image.ofItems]
    obtain ⟨n, z, hgoes, hz⟩ := h m 0 0 s.data (Image.holds_ofItems _) rfl rfl
    have hrun := goes_divide (Image.holds_ofItems (divide result)) hr s.data
    have hregs : division s.data.regs.a s.data.regs.b = division x y := rfl
    rw [hregs] at hrun
    cases hd : division x y with
    | none =>
      rw [hd] at hrun
      exact absurd (hrun (n + 1)) (hgoes.not_lasts_of_size_le hat hsize)
    | some p =>
      rw [hd] at hrun
      obtain ⟨n', z', hgoes', hz'⟩ := hrun
      obtain rfl := hgoes.unique_of_size_le hat hsize hgoes'
      exact ⟨p.1, p.2, rfl, hz.value.symm.trans hz'.value⟩
  · rintro ⟨quot, rem, hd, rfl⟩ m k start z hholds rfl rfl
    have hrun := goes_divide hholds hr z
    rwa [hd] at hrun

/-- The recipes for quotients and remainders are right for exactly those operands whose divisor is
zero or exceeds the dividend, doubled some times, before it loses a bit. The quotient is wrong, or there is
none, for all other operands. -/
theorem divides_iff_outgrows (x y : UInt64) :
    (Leaves .c x y (Word.div x y) ↔ y = 0 ∨ Outgrows y x) ∧
      (Leaves .c x y (Word.div x y) ∧ Leaves .e x y (Word.mod x y) ↔ y = 0 ∨ Outgrows y x) := by
  have hquot : Leaves .c x y (Word.div x y) → y = 0 ∨ Outgrows y x := by
    intro h
    obtain ⟨quot, rem, hd, hv⟩ := (leaves_iff (Or.inl rfl)).mp h
    rw [if_pos rfl] at hv
    exact outgrows_of_division (hv ▸ hd)
  have hboth : y = 0 ∨ Outgrows y x →
      Leaves .c x y (Word.div x y) ∧ Leaves .e x y (Word.mod x y) := by
    intro h
    have hd := division_of_outgrows h
    exact ⟨(leaves_iff (Or.inl rfl)).mpr ⟨_, _, hd, rfl⟩, (leaves_iff (Or.inr rfl)).mpr ⟨_, _, hd, rfl⟩⟩
  exact ⟨⟨hquot, fun h => (hboth h).1⟩, ⟨fun h => hquot h.1, hboth⟩⟩

/-- A large number divided by itself gives two: its double is below it, and its double again above. -/
theorem self_division_gives_two :
    Leaves .c 12912720851596686131 12912720851596686131 2 ∧
      ¬ Leaves .c 12912720851596686131 12912720851596686131
        (Word.div 12912720851596686131 12912720851596686131) := by
  have hd : division 12912720851596686131 12912720851596686131 = some (2, 5534023222112865485) := by
    cbv
  refine ⟨(leaves_iff (Or.inl rfl)).mpr ⟨_, _, hd, rfl⟩, fun h => ?_⟩
  obtain ⟨quot, rem, hd', hv⟩ := (leaves_iff (Or.inl rfl)).mp h
  rw [hd, Option.some.injEq, Prod.mk.injEq] at hd'
  rw [if_pos rfl, ← hd'.1] at hv
  exact absurd hv (by decide)

end Accumulator.Layout
