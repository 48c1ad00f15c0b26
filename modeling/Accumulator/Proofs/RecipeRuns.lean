import Mathlib
import Accumulator.Flow.Run
import Accumulator.Layout.Program
import Accumulator.Proofs.Exec
import Accumulator.Proofs.MachineRuns

/-!
# Runs of recipes

An `Image` is machine code together with the places of blocks and functions in it. Where it holds the
code of a constant or of an operation, the machine runs through that code and leaves the constant or
the value of the operation. The recipe for quotients has no end for some operands; `division` is what
it computes for the others, and it is division for all dividends below 2^63.
-/

namespace Accumulator.Layout

open Machine (Reg Data Goes)

/-- What `P` says holds of each element of a list and its place, the first of them at place `n`. -/
def Along {α : Type} (P : Nat → α → Prop) (n : Nat) (l : List α) : Prop :=
  ∀ i a, l[i]? = some a → P (n + i) a

lemma along_append {α : Type} {P : Nat → α → Prop} {n : Nat} {l l' : List α} :
    Along P n (l ++ l') ↔ Along P n l ∧ Along P (n + l.length) l' := by
  constructor
  · intro h
    constructor
    · intro i a hi
      have hlt := (List.getElem?_eq_some_iff.mp hi).1
      exact h i a (by rwa [List.getElem?_append_left hlt])
    · intro i a hi
      rw [Nat.add_assoc]
      exact h (l.length + i) a (by rwa [List.getElem?_append_right (by omega), Nat.add_sub_cancel_left])
  · rintro ⟨hl, hl'⟩ i a hi
    by_cases hlt : i < l.length
    · rw [List.getElem?_append_left hlt] at hi
      exact hl i a hi
    · rw [List.getElem?_append_right (by omega)] at hi
      have hplace : n + l.length + (i - l.length) = n + i := by omega
      have := hl' _ a hi
      rwa [hplace] at this

/-- Machine code with the places of blocks and functions. -/
structure Image where
  code : Array Machine.Instr
  blocks : List ((Nat × Flow.BlockId) × Nat)
  funcs : List (Nat × Nat)

variable {m : Image} {k start p q i : Nat} {l l' items : List Item} {it : Item} {x y : Data}
  {r : Reg} {w : UInt64}

namespace Image

/-- The instruction that an item of function number `k` becomes at place `i`. -/
def instr (m : Image) (k i : Nat) (it : Item) : Machine.Instr :=
  { op := it.op, reg := it.reg, addr := ((it.target.place? m.blocks m.funcs k i).getD 0 : Nat) }

/-- The items stand in the code, the first of them at place `start`. -/
def Holds (m : Image) (k start : Nat) (items : List Item) : Prop :=
  ∀ i it, items[i]? = some it → m.code[start + i]? = some (m.instr k (start + i) it)

lemma Holds.slice (h : m.Holds k start items) (i n : Nat) :
    m.Holds k (start + i) ((items.drop i).take n) := by
  intro j it hj
  rw [List.getElem?_take] at hj
  split at hj
  · rw [List.getElem?_drop] at hj
    rw [Nat.add_assoc]
    exact h (i + j) it hj
  · cases hj

lemma holds_append :
    m.Holds k start (l ++ l') ↔ m.Holds k start l ∧ m.Holds k (start + l.length) l' :=
  along_append (P := fun i it => m.code[i]? = some (m.instr k i it))

lemma holds_cons :
    m.Holds k start (it :: l) ↔
      m.code[start]? = some (m.instr k start it) ∧ m.Holds k (start + 1) l := by
  rw [← List.singleton_append, holds_append]
  refine and_congr ⟨fun h => h 0 it rfl, fun h i jt hi => ?_⟩ Iff.rfl
  match i, hi with
  | 0, hi =>
    cases hi
    exact h

end Image

def Item.isStraight (it : Item) : Bool := it.op.isStraight && it.reg.isKnown

/-- What straight code does to the data. -/
def acts (x : Data) (items : List Item) : Data := items.foldl (fun x it => x.act it.op it.reg) x

lemma acts_append : acts x (l ++ l') = acts (acts x l) l' := List.foldl_append

lemma acts_cons : acts x (it :: l) = acts (x.act it.op it.reg) l := rfl

lemma Image.Holds.goes (h : m.Holds k start items) (hs : items.all Item.isStraight = true) :
    Goes m.code items.length start x (start + items.length) (acts x items) := by
  induction items generalizing start x with
  | nil => exact Goes.refl _ _ _
  | cons it items ih =>
    obtain ⟨hit, hrest⟩ := Image.holds_cons.mp h
    rw [List.all_cons, Bool.and_eq_true, Item.isStraight, Bool.and_eq_true] at hs
    have hgo := (Machine.goes_straight (x := x) hit hs.1.1 hs.1.2).trans (ih hrest hs.2)
    rw [List.length_cons, Nat.add_comm items.length 1, ← Nat.add_assoc]
    exact hgo

lemma Image.Holds.goes_slice (h : m.Holds k start items) (i n : Nat) (hi : i + n ≤ items.length)
    (hs : ((items.drop i).take n).all Item.isStraight = true) :
    Goes m.code n (start + i) x (start + i + n) (acts x ((items.drop i).take n)) := by
  have hlen : ((items.drop i).take n).length = n := by simp; omega
  have hgo := (h.slice i n).goes (x := x) hs
  rwa [hlen] at hgo

lemma instr_within {op : Machine.Op} {d : Int} (hq : (i : Int) + d = q) :
    (m.instr k i { op := op, target := .within d }).addr = q := by
  simp only [Image.instr, Target.place?, Option.getD_some]
  omega

lemma Image.Holds.jump {d : Int} (h : m.Holds k start items)
    (hi : items[i]? = some { op := .jump, target := .within d })
    (hq : ((start + i : Nat) : Int) + d = q) : Goes m.code 1 (start + i) x q x :=
  Machine.goes_jump (h i _ hi) rfl rfl (instr_within hq)

lemma Image.Holds.jzero {d : Int} (h : m.Holds k start items)
    (hi : items[i]? = some { op := .jzero, target := .within d })
    (hq : ((start + i : Nat) : Int) + d = q) :
    Goes m.code 1 (start + i) x (if x.regs.a = 0 then q else start + i + 1) x :=
  Machine.goes_jzero (h i _ hi) rfl rfl (instr_within hq)

lemma Image.Holds.jpos {d : Int} (h : m.Holds k start items)
    (hi : items[i]? = some { op := .jpos, target := .within d })
    (hq : ((start + i : Nat) : Int) + d = q) :
    Goes m.code 1 (start + i) x (if 0 < x.regs.a then q else start + i + 1) x :=
  Machine.goes_jpos (h i _ hi) rfl rfl (instr_within hq)

lemma set_set (g : Machine.Registers) (v : UInt64) : (g.set r v).set r w = g.set r w := by
  cases r <;> rfl

lemma get_set (hr : r.isKnown = true) (g : Machine.Registers) : (g.set r w).get r = w := by
  cases r <;> first | rfl | cases hr

lemma straight_bitsOf (hr : r.isKnown = true) (n : Nat) : (bitsOf r n).all Item.isStraight = true := by
  induction n using Nat.strongRecOn with
  | ind n ih =>
    rw [bitsOf]
    split
    · rfl
    · have hhalf := ih (n / 2) (by omega)
      split <;> split <;> simp [hhalf, Item.isStraight, Machine.Op.isStraight, hr]

lemma acts_bitsOf (hr : r.isKnown = true) (n : Nat) :
    acts (x.setReg r 0) (bitsOf r n) = x.setReg r (UInt64.ofNat n) := by
  induction n using Nat.strongRecOn with
  | ind n ih =>
    rw [bitsOf]
    split
    · next h =>
      rw [h]
      rfl
    · next h =>
      have hshl : ∀ v, acts (x.setReg r v) [{ op := .shl, reg := r }] = x.setReg r (v <<< 1) := by
        intro v
        simp only [acts, List.foldl_cons, List.foldl_nil, Data.act, Data.setReg, set_set, get_set hr]
      have hinc : ∀ v, acts (x.setReg r v) [{ op := .inc, reg := r }] = x.setReg r (v + 1) := by
        intro v
        simp only [acts, List.foldl_cons, List.foldl_nil, Data.act, Data.setReg, set_set, get_set hr]
      have heven : acts (x.setReg r 0)
          (if n / 2 = 0 then [] else bitsOf r (n / 2) ++ [{ op := .shl, reg := r }]) =
          x.setReg r (UInt64.ofNat (2 * (n / 2))) := by
        split
        · next h0 =>
          rw [h0]
          rfl
        · rw [acts_append, ih (n / 2) (by omega), hshl]
          congr 1
          apply UInt64.toNat.inj
          simp [UInt64.toNat_shiftLeft, Nat.shiftLeft_eq]
          omega
      rw [acts_append, heven]
      split
      · rw [hinc]
        congr 1
        rw [← UInt64.ofNat_one, ← UInt64.ofNat_add]
        congr 1
        omega
      · change x.setReg r (UInt64.ofNat (2 * (n / 2))) = _
        congr 2
        omega

lemma straight_constant (hr : r.isKnown = true) : (constant w r).all Item.isStraight = true := by
  rw [constant, List.all_cons, straight_bitsOf hr, Item.isStraight, hr]
  rfl

lemma acts_constant (hr : r.isKnown = true) : acts x (constant w r) = x.setReg r w := by
  rw [constant, acts_cons]
  change acts (x.setReg r 0) _ = _
  rw [acts_bitsOf hr, UInt64.ofNat_toNat]

/-- The accumulator is `v`, and the rest is as before, apart from the other registers. -/
structure Obtains (x y : Data) (v : UInt64) : Prop where
  value : y.regs.a = v
  cells : y.cells = x.cells
  input : y.input = x.input
  output : y.output = x.output

lemma shl_eq (v : UInt64) : v <<< 1 = v + v := by
  apply UInt64.toNat.inj
  have hone : 2 ^ ((1 : UInt64).toNat % 64) = 2 := rfl
  rw [UInt64.toNat_shiftLeft, UInt64.toNat_add, Nat.shiftLeft_eq, hone]
  omega

lemma toNat_shr (v : UInt64) : (v >>> 1).toNat = v.toNat / 2 := by
  rw [UInt64.toNat_shiftRight, Nat.shiftRight_eq_div_pow]
  rfl

lemma halves (v : UInt64) : v = v >>> 1 + v >>> 1 ∧ Machine.monus v ((v >>> 1) <<< 1) = 0 ∨
    v = v >>> 1 + v >>> 1 + 1 ∧ Machine.monus v ((v >>> 1) <<< 1) = 1 := by
  have hlt := v.toNat_lt
  have hdouble : ((v >>> 1) <<< 1).toNat = 2 * (v.toNat / 2) := by
    rw [shl_eq, UInt64.toNat_add, toNat_shr]
    omega
  have hnot : ¬ v < (v >>> 1) <<< 1 := by
    rw [UInt64.lt_iff_toNat_lt, hdouble]
    omega
  have hsub : (v - (v >>> 1) <<< 1).toNat = v.toNat % 2 := by
    rw [UInt64.toNat_sub_of_le _ _ (by rw [UInt64.le_iff_toNat_le, hdouble]; omega), hdouble]
    omega
  rw [Machine.monus, if_neg hnot, ← shl_eq]
  rcases Nat.mod_two_eq_zero_or_one v.toNat with h | h
  · left
    exact ⟨UInt64.toNat.inj (by rw [hdouble]; omega), UInt64.toNat.inj (by rw [hsub, h]; rfl)⟩
  · right
    refine ⟨UInt64.toNat.inj ?_, UInt64.toNat.inj (by rw [hsub, h]; rfl)⟩
    rw [UInt64.toNat_add, hdouble]
    change _ = (_ + 1) % _
    omega

lemma mul_round (h : m.Holds k start mul) (hx : x.regs.a ≠ 0) :
    ∃ j y, Goes m.code j (start + 1) x (start + 1) y ∧ Obtains x y (x.regs.a >>> 1) ∧
      y.regs.c + y.regs.a * y.regs.b = x.regs.c + x.regs.a * x.regs.b := by
  have htest := h.jzero (x := x) (i := 1) (d := 14) (q := start + 15) rfl (by push_cast; ring)
  rw [if_neg hx] at htest
  have hbit := htest.trans (h.goes_slice 2 5 (by decide) rfl)
  set x₁ := acts x ((mul.drop 2).take 5)
  have hodd := h.jzero (x := x₁) (i := 7) (d := 4) (q := start + 11) rfl (by push_cast; ring)
  have hhalve : ∀ z, Goes m.code 4 (start + 11) z (start + 1) (acts z ((mul.drop 11).take 3)) :=
    fun z => (h.goes_slice 11 3 (by decide) rfl).trans (h.jump (i := 14) (d := -13) rfl (by push_cast; ring))
  rcases halves x.regs.a with ⟨heven, hzero⟩ | ⟨hodd', hone⟩
  · rw [if_pos (show x₁.regs.a = 0 from hzero)] at hodd
    refine ⟨_, _, (hbit.trans hodd).trans (hhalve _), ⟨rfl, rfl, rfl, rfl⟩, ?_⟩
    change x.regs.c + x.regs.a >>> 1 * x.regs.b <<< 1 = _
    nth_rewrite 2 [heven]
    rw [shl_eq]
    grind
  · rw [if_neg (show x₁.regs.a ≠ 0 by rw [show x₁.regs.a = 1 from hone]; decide)] at hodd
    have hadd := (hbit.trans hodd).trans (h.goes_slice 8 3 (by decide) rfl)
    refine ⟨_, _, hadd.trans (hhalve _), ⟨rfl, rfl, rfl, rfl⟩, ?_⟩
    change x.regs.c + x.regs.b + x.regs.a >>> 1 * x.regs.b <<< 1 = _
    nth_rewrite 2 [hodd']
    rw [shl_eq]
    grind

lemma mul_loop (h : m.Holds k start mul) (n : Nat) (x : Data) (hn : x.regs.a.toNat = n) :
    ∃ j y, Goes m.code j (start + 1) x (start + 16) y ∧
      Obtains x y (x.regs.c + x.regs.a * x.regs.b) := by
  induction n using Nat.strongRecOn generalizing x with
  | ind n ih =>
    by_cases hzero : x.regs.a = 0
    · have htest := h.jzero (x := x) (i := 1) (d := 14) (q := start + 15) rfl (by push_cast; ring)
      rw [if_pos hzero] at htest
      refine ⟨_, _, htest.trans (h.goes_slice 15 1 (by decide) rfl), ?_, rfl, rfl, rfl⟩
      change x.regs.c = _
      rw [hzero]
      simp
    · obtain ⟨j, z, hround, hz, hsum⟩ := mul_round h hzero
      have hpos : x.regs.a.toNat ≠ 0 := fun h0 => hzero (UInt64.toNat.inj h0)
      have hless : z.regs.a.toNat < n := by
        rw [hz.value, toNat_shr]
        omega
      obtain ⟨j', y, hloop, hy⟩ := ih _ hless z rfl
      exact ⟨_, y, hround.trans hloop, by rw [hy.value, hsum], hy.cells.trans hz.cells,
        hy.input.trans hz.input, hy.output.trans hz.output⟩

lemma goes_mul (h : m.Holds k start mul) (x : Data) :
    ∃ j y, Goes m.code j start x (start + mul.length) y ∧ Obtains x y (x.regs.a * x.regs.b) := by
  have hreset := h.goes_slice (x := x) 0 1 (by decide) rfl
  obtain ⟨j, y, hloop, hy⟩ := mul_loop h _ (acts x ((mul.drop 0).take 1)) rfl
  refine ⟨_, y, hreset.trans hloop, ?_, hy.cells, hy.input, hy.output⟩
  rw [hy.value]
  exact UInt64.zero_add _

/-- How often `y` has to be doubled to exceed `e`. All bits are gone after 64 times. -/
def doublings (y e : UInt64) : Option Nat :=
  (List.range 64).find? fun n => e.toNat < y.toNat * 2 ^ n % 2 ^ 64

lemma doublings_some {y e : UInt64} {n : Nat} (h : doublings y e = some n) :
    e < UInt64.ofNat (y.toNat * 2 ^ n) ∧ ∀ j < n, ¬ e < UInt64.ofNat (y.toNat * 2 ^ j) := by
  simp only [UInt64.lt_iff_toNat_lt, UInt64.toNat_ofNat']
  rw [doublings, List.find?_range_eq_some] at h
  exact ⟨by simpa using h.1, fun j hj => by simpa using h.2.2 j hj⟩

lemma doublings_none {y e : UInt64} (h : doublings y e = none) (n : Nat) :
    ¬ e < UInt64.ofNat (y.toNat * 2 ^ n) := by
  simp only [UInt64.lt_iff_toNat_lt, UInt64.toNat_ofNat']
  by_cases hn : n < 64
  · rw [doublings, List.find?_range_eq_none] at h
    simpa using h n hn
  · obtain ⟨j, rfl⟩ := Nat.exists_eq_add_of_le (not_lt.mp hn)
    have hzero : y.toNat * 2 ^ (64 + j) % 2 ^ 64 = 0 := by
      rw [pow_add, Nat.mul_left_comm, Nat.mul_mod_right]
    omega

lemma toNat_monus (v w : UInt64) : (Machine.monus v w).toNat = v.toNat - w.toNat := by
  unfold Machine.monus
  split
  · next h =>
    rw [UInt64.lt_iff_toNat_lt] at h
    change 0 = _
    omega
  · next h =>
    exact UInt64.toNat_sub_of_le _ _ (UInt64.not_lt.mp h)

lemma monus_pos {v w : UInt64} : 0 < Machine.monus v w ↔ w < v := by
  rw [UInt64.lt_iff_toNat_lt, UInt64.lt_iff_toNat_lt, toNat_monus]
  change 0 < _ ↔ _
  omega

lemma less_left {y e : UInt64} {n : Nat} (hle : ¬ e < y) (hn : doublings y e = some n) :
    (Machine.monus e (UInt64.ofNat (y.toNat * 2 ^ n) >>> 1)).toNat < e.toNat := by
  have hexceeds := (doublings_some hn).1
  rw [UInt64.lt_iff_toNat_lt] at hle hexceeds
  have hy : y.toNat ≠ 0 := by
    intro hy
    rw [hy, Nat.zero_mul] at hexceeds
    cases hexceeds
  rw [toNat_monus, toNat_shr]
  omega

/-- Take multiples of `y` off `e` and add up in `c` how often it was taken. The multiple is half of
the first one by a power of two that exceeds `e`. -/
def divideFrom (y c e : UInt64) : Option (UInt64 × UInt64) :=
  if hlt : e < y then some (c, e)
  else
    match hn : doublings y e with
    | none => none
    | some n =>
      have := less_left hlt hn
      divideFrom y (c + UInt64.ofNat (2 ^ n) >>> 1)
        (Machine.monus e (UInt64.ofNat (y.toNat * 2 ^ n) >>> 1))
  termination_by e.toNat
  decreasing_by exact this

lemma divideFrom_of_doublings {y c e : UInt64} {n : Nat} (hlt : ¬ e < y) (hn : doublings y e = some n) :
    divideFrom y c e = divideFrom y (c + UInt64.ofNat (2 ^ n) >>> 1)
      (Machine.monus e (UInt64.ofNat (y.toNat * 2 ^ n) >>> 1)) := by
  rw [divideFrom, dif_neg hlt]
  split
  · next hnone => exact absurd (hn.symm.trans hnone) (by simp)
  · next hsome =>
    obtain rfl := Option.some.inj (hn.symm.trans hsome)
    rfl

lemma divideFrom_of_doublings_eq_none {y c e : UInt64} (hlt : ¬ e < y) (hn : doublings y e = none) :
    divideFrom y c e = none := by
  rw [divideFrom, dif_neg hlt]
  split
  · rfl
  · next hsome => exact absurd (hn.symm.trans hsome) (by simp)

/-- What the recipe for quotients computes: the quotient and the remainder, for the operands for
which it comes to an end. -/
def division : Word.Division := fun x y => if y = 0 then some (0, 0) else divideFrom y 0 x

/-- The multiple has been doubled `n` times. -/
structure Doubled (x z : Data) (n : Nat) : Prop where
  b : z.regs.b = x.regs.b
  c : z.regs.c = x.regs.c
  d : z.regs.d = UInt64.ofNat (x.regs.b.toNat * 2 ^ n)
  e : z.regs.e = x.regs.e
  f : z.regs.f = UInt64.ofNat (2 ^ n)
  cells : z.cells = x.cells
  input : z.input = x.input
  output : z.output = x.output

section Divide

variable {result : Reg} {x₀ z : Data} {n : Nat}

lemma double_ofNat (v : Nat) : UInt64.ofNat v <<< 1 = UInt64.ofNat (v * 2) := by
  rw [shl_eq, ← UInt64.ofNat_add, Nat.mul_two]

lemma double_again (h : m.Holds k start (divide result)) (hz : Doubled x z n)
    (hless : ¬ x.regs.e < UInt64.ofNat (x.regs.b.toNat * 2 ^ n)) :
    ∃ z', Goes m.code 6 (start + 14) z (start + 14) z' ∧ Doubled x z' (n + 1) := by
  have htest := h.goes_slice (x := z) 14 2 (by simp [divide]) rfl
  have hjump := h.jpos (x := acts z (((divide result).drop 14).take 2)) (i := 16) (d := 4)
    (q := start + 20) rfl (by push_cast; ring)
  have hdiff : (acts z (((divide result).drop 14).take 2)).regs.a =
      Machine.monus z.regs.d z.regs.e := rfl
  rw [hdiff, if_neg (by rwa [monus_pos, hz.d, hz.e])] at hjump
  have hshift := (htest.trans hjump).trans (h.goes_slice 17 2 (by simp [divide]) rfl)
  refine ⟨_, hshift.trans (h.jump (i := 19) (d := -5) rfl (by push_cast; ring)), hz.b, hz.c, ?_, hz.e, ?_,
    hz.cells, hz.input, hz.output⟩
  · change z.regs.d <<< 1 = _
    rw [hz.d, double_ofNat, pow_succ, Nat.mul_assoc]
  · change z.regs.f <<< 1 = _
    rw [hz.f, double_ofNat, pow_succ]

lemma doubles (h : m.Holds k start (divide result)) (hz : Doubled x z 0)
    (hless : ∀ j < n, ¬ x.regs.e < UInt64.ofNat (x.regs.b.toNat * 2 ^ j)) :
    ∃ z', Goes m.code (6 * n) (start + 14) z (start + 14) z' ∧ Doubled x z' n := by
  induction n with
  | zero => exact ⟨z, Goes.refl _ _ _, hz⟩
  | succ n ih =>
    obtain ⟨z₁, hgo, hz₁⟩ := ih fun j hj => hless j (by omega)
    obtain ⟨z₂, hgo', hz₂⟩ := double_again h hz₁ (hless n (by omega))
    exact ⟨z₂, hgo.trans hgo', hz₂⟩

lemma exceeds (h : m.Holds k start (divide result)) (hz : Doubled x z n)
    (hmore : x.regs.e < UInt64.ofNat (x.regs.b.toNat * 2 ^ n)) :
    ∃ z', Goes m.code 3 (start + 14) z (start + 20) z' ∧ Doubled x z' n := by
  have htest := h.goes_slice (x := z) 14 2 (by simp [divide]) rfl
  have hjump := h.jpos (x := acts z (((divide result).drop 14).take 2)) (i := 16) (d := 4)
    (q := start + 20) rfl (by push_cast; ring)
  have hdiff : (acts z (((divide result).drop 14).take 2)).regs.a =
      Machine.monus z.regs.d z.regs.e := rfl
  rw [hdiff, if_pos (by rwa [monus_pos, hz.d, hz.e])] at hjump
  exact ⟨_, htest.trans hjump, hz.b, hz.c, hz.d, hz.e, hz.f, hz.cells, hz.input, hz.output⟩

/-- What is left of the dividend is in `a`, the quotient so far in `c`. -/
structure Dividing (x₀ x : Data) (y c e : UInt64) : Prop where
  a : x.regs.a = e
  b : x.regs.b = y
  c : x.regs.c = c
  cells : x.cells = x₀.cells
  input : x.input = x₀.input
  output : x.output = x₀.output

variable {v c e : UInt64}

lemma compares (h : m.Holds k start (divide result)) (hx : Dividing x₀ x v c e) :
    ∃ z, Goes m.code 4 (start + 6) x (if e < v then start + 28 else start + 10) z ∧
      z.regs.b = v ∧ z.regs.c = c ∧ z.regs.e = e ∧ Obtains x₀ z (Machine.monus v e) := by
  have htest := h.goes_slice (x := x) 6 3 (by simp [divide]) rfl
  have hjump := h.jpos (x := acts x (((divide result).drop 6).take 3)) (i := 9) (d := 19)
    (q := start + 28) rfl (by push_cast; ring)
  have hdiff : (acts x (((divide result).drop 6).take 3)).regs.a = Machine.monus v e := by
    change Machine.monus x.regs.b x.regs.a = _
    rw [hx.a, hx.b]
  simp only [hdiff, monus_pos] at hjump
  exact ⟨_, htest.trans hjump, hx.b, hx.c, hx.a, hdiff, hx.cells, hx.input, hx.output⟩

lemma begins (h : m.Holds k start (divide result)) (hx : Dividing x₀ x v c e) (hlt : ¬ e < v) :
    ∃ x' z, Goes m.code 8 (start + 6) x (start + 14) z ∧ Doubled x' z 0 ∧ x'.regs.b = v ∧
      x'.regs.c = c ∧ x'.regs.e = e ∧ x'.cells = x₀.cells ∧ x'.input = x₀.input ∧
      x'.output = x₀.output := by
  obtain ⟨x', hgo, hb, hc, he, hx'⟩ := compares h hx
  rw [if_neg hlt] at hgo
  refine ⟨x', _, hgo.trans (h.goes_slice 10 4 (by simp [divide]) rfl), ⟨rfl, rfl, ?_, rfl, rfl, rfl, rfl,
    rfl⟩, hb, hc, he, hx'.cells, hx'.input, hx'.output⟩
  change x'.regs.b = _
  rw [pow_zero, Nat.mul_one, UInt64.ofNat_toNat]

lemma divide_round (h : m.Holds k start (divide result)) (hx : Dividing x₀ x v c e) (hlt : ¬ e < v)
    (hn : doublings v e = some n) :
    ∃ j x', Goes m.code (j + 1) (start + 6) x (start + 6) x' ∧
      Dividing x₀ x' v (c + UInt64.ofNat (2 ^ n) >>> 1)
        (Machine.monus e (UInt64.ofNat (v.toNat * 2 ^ n) >>> 1)) := by
  obtain ⟨x₁, z, hbegin, hz, hb, hc, he, hcells, hinput, houtput⟩ := begins h hx hlt
  obtain ⟨hmore, hless⟩ := doublings_some hn
  obtain ⟨z₁, hdouble, hz₁⟩ := doubles h hz (n := n) (by rwa [hb, he])
  obtain ⟨z₂, hexit, hz₂⟩ := exceeds h hz₁ (by rwa [hb, he])
  have htake := ((hbegin.trans hdouble).trans hexit).trans (h.goes_slice 20 7 (by simp [divide]) rfl)
  refine ⟨_, _, htake.trans (h.jump (i := 27) (d := -21) rfl (by push_cast; ring)), ?_, hz₂.b.trans hb, ?_,
    hz₂.cells.trans hcells, hz₂.input.trans hinput, hz₂.output.trans houtput⟩
  · change Machine.monus z₂.regs.e (z₂.regs.d >>> 1) = _
    rw [hz₂.e, hz₂.d, he, hb]
  · change z₂.regs.c + z₂.regs.f >>> 1 = _
    rw [hz₂.c, hz₂.f, hc]

lemma divide_loop (h : m.Holds k start (divide result)) (hx : Dividing x₀ x v c e) :
    match divideFrom v c e with
    | some (quot, rem) => ∃ j z, Goes m.code j (start + 6) x (start + 28) z ∧ z.regs.c = quot ∧
        z.regs.e = rem ∧ z.cells = x₀.cells ∧ z.input = x₀.input ∧ z.output = x₀.output
    | none => ∀ N, Machine.Lasts m.code N (start + 6) x := by
  induction c, e using divideFrom.induct v generalizing x with
  | case1 c e hlt =>
    rw [divideFrom, dif_pos hlt]
    obtain ⟨z, hgo, -, hc, he, hz⟩ := compares h hx
    rw [if_pos hlt] at hgo
    exact ⟨_, z, hgo, hc, he, hz.cells, hz.input, hz.output⟩
  | case2 c e hlt hn =>
    rw [divideFrom_of_doublings_eq_none hlt hn]
    intro N
    obtain ⟨x₁, z, hbegin, hz, hb, -, he, -⟩ := begins h hx hlt
    obtain ⟨z₁, hdouble, -⟩ := doubles h hz (n := N) fun j _ => by
      rw [hb, he]
      exact doublings_none hn j
    exact ⟨_, _, z₁, by omega, hbegin.trans hdouble⟩
  | case3 c e hlt n hn _ ih =>
    rw [divideFrom_of_doublings hlt hn]
    obtain ⟨j, x₁, hround, hx₁⟩ := divide_round h hx hlt hn
    have hrest := ih hx₁
    split at hrest
    · obtain ⟨j', z, hgo, hz⟩ := hrest
      exact ⟨_, z, hround.trans hgo, hz⟩
    · exact fun N => (hround.lasts (hrest N)).mono (by omega)

lemma goes_divide (h : m.Holds k start (divide result)) (hr : result = .c ∨ result = .e) (x : Data) :
    match division x.regs.a x.regs.b with
    | some (quot, rem) => ∃ j y, Goes m.code j start x (start + (divide result).length) y ∧
        Obtains x y (if result = .c then quot else rem)
    | none => ∀ N, Machine.Lasts m.code N start x := by
  have hopen := h.goes_slice (x := x) 0 4 (by simp [divide]) rfl
  set x₁ := acts x (((divide result).drop 0).take 4) with hx₁
  have hzero := h.jzero (x := x₁) (i := 4) (d := 24) (q := start + 28) rfl (by push_cast; ring)
  have hend : ∀ {z : Data} {quot rem : UInt64}, z.regs.c = quot → z.regs.e = rem →
      z.cells = x.cells → z.input = x.input → z.output = x.output →
      ∃ y, Goes m.code 1 (start + 28) z (start + 29) y ∧
        Obtains x y (if result = .c then quot else rem) := by
    rintro z quot rem rfl rfl hcells hinput houtput
    rcases hr with rfl | rfl
    · exact ⟨_, h.goes_slice 28 1 (by simp [divide]) rfl, rfl, hcells, hinput, houtput⟩
    · exact ⟨_, h.goes_slice 28 1 (by simp [divide]) rfl, rfl, hcells, hinput, houtput⟩
  unfold division
  by_cases hb : x.regs.b = 0
  · rw [if_pos hb]
    rw [if_pos (show x₁.regs.a = 0 from hb)] at hzero
    obtain ⟨y, hlast, hy⟩ := hend (z := x₁) (rfl : x₁.regs.c = 0) (rfl : x₁.regs.e = 0) rfl rfl rfl
    exact ⟨_, y, (hopen.trans hzero).trans hlast, hy⟩
  · rw [if_neg hb]
    rw [if_neg (show ¬ x₁.regs.a = 0 from hb)] at hzero
    have hstart := (hopen.trans hzero).trans (h.goes_slice 5 1 (by simp [divide]) rfl)
    have hbegun : Dividing x (acts x₁ (((divide result).drop 5).take 1)) x.regs.b 0 x.regs.a :=
      ⟨rfl, rfl, rfl, rfl, rfl, rfl⟩
    have hloop := divide_loop h hbegun
    split at hloop
    · obtain ⟨j, z, hgo, hc, he, hcells, hinput, houtput⟩ := hloop
      obtain ⟨y, hlast, hy⟩ := hend hc he hcells hinput houtput
      exact ⟨_, y, (hstart.trans hgo).trans hlast, hy⟩
    · exact fun N => (hstart.lasts (hloop N)).mono (by omega)

end Divide

/-- The divisor can be doubled until it exceeds the dividend, with no bit lost. -/
def Outgrows (y x : UInt64) : Prop := ∃ j, x.toNat < y.toNat * 2 ^ j ∧ y.toNat * 2 ^ j < 2 ^ 64

lemma outgrows_of_lt {y e : UInt64} (hy : y ≠ 0) (he : e.toNat < 2 ^ 63) : Outgrows y e := by
  have hpos : 0 < y.toNat := Nat.pos_of_ne_zero fun h => hy (UInt64.toNat.inj h)
  have hexists : ∃ j, e.toNat < y.toNat * 2 ^ j :=
    ⟨e.toNat, Nat.lt_two_pow_self.trans_le (Nat.le_mul_of_pos_left _ hpos)⟩
  refine ⟨Nat.find hexists, Nat.find_spec hexists, ?_⟩
  rcases hj : Nat.find hexists with _ | j
  · simpa using y.toNat_lt
  · have hless := Nat.find_min hexists (m := j) (by omega)
    rw [pow_succ, ← Nat.mul_assoc]
    omega

lemma Outgrows.doublings_eq {y e : UInt64} (h : Outgrows y e) :
    ∃ n, doublings y e = some n ∧ e.toNat < y.toNat * 2 ^ n ∧ y.toNat * 2 ^ n < 2 ^ 64 ∧
      ∀ j < n, y.toNat * 2 ^ j ≤ e.toNat := by
  obtain ⟨j, hexceeds, hfits⟩ := h
  have hmono : ∀ {i i'}, i ≤ i' → y.toNat * 2 ^ i ≤ y.toNat * 2 ^ i' := fun hi =>
    Nat.mul_le_mul_left _ (Nat.pow_le_pow_right (by omega) hi)
  have hlt : ∀ i ≤ j, (e < UInt64.ofNat (y.toNat * 2 ^ i) ↔ e.toNat < y.toNat * 2 ^ i) := by
    intro i hi
    rw [UInt64.lt_iff_toNat_lt, UInt64.toNat_ofNat_of_lt' ((hmono hi).trans_lt hfits)]
  cases hn : doublings y e with
  | none => exact absurd ((hlt j le_rfl).mpr hexceeds) (doublings_none hn j)
  | some n =>
    obtain ⟨hmore, hless⟩ := doublings_some hn
    have hnj : n ≤ j := by
      by_contra hjn
      exact hless j (by omega) ((hlt j le_rfl).mpr hexceeds)
    refine ⟨n, rfl, (hlt n hnj).mp hmore, (hmono hnj).trans_lt hfits, fun i hi => ?_⟩
    exact not_lt.mp fun h => hless i hi ((hlt i (by omega)).mpr h)

lemma Outgrows.divideFrom_eq {y c e : UInt64} (h : Outgrows y e) :
    divideFrom y c e =
      some (c + UInt64.ofNat (e.toNat / y.toNat), UInt64.ofNat (e.toNat % y.toNat)) := by
  induction c, e using divideFrom.induct y with
  | case1 c e hlt =>
    rw [divideFrom, dif_pos hlt]
    rw [UInt64.lt_iff_toNat_lt] at hlt
    rw [Nat.div_eq_of_lt hlt, Nat.mod_eq_of_lt hlt, UInt64.ofNat_toNat]
    simp
  | case2 c e hlt hnone =>
    obtain ⟨n, hn, -⟩ := h.doublings_eq
    cases hn.symm.trans hnone
  | case3 c e hlt n hn _ ih =>
    obtain ⟨n', hn', hmore, hfits, hless⟩ := h.doublings_eq
    obtain rfl := Option.some.inj (hn.symm.trans hn')
    obtain ⟨j, rfl⟩ : ∃ j, n = j + 1 := by
      refine ⟨n - 1, ?_⟩
      rcases Nat.eq_zero_or_pos n with rfl | hpos
      · rw [pow_zero, Nat.mul_one] at hmore
        exact absurd (UInt64.lt_iff_toNat_lt.mpr hmore) hlt
      · omega
    have hle := hless j (by omega)
    have hpos : 0 < y.toNat := Nat.pos_of_mul_pos_right (Nat.zero_lt_of_lt hmore)
    have hpow : 2 ^ j ≤ y.toNat * 2 ^ j := Nat.le_mul_of_pos_left _ hpos
    have hmultiple : (UInt64.ofNat (y.toNat * 2 ^ (j + 1)) >>> 1).toNat = y.toNat * 2 ^ j := by
      rw [toNat_shr, UInt64.toNat_ofNat_of_lt' hfits, pow_succ, ← Nat.mul_assoc]
      omega
    have hpower : UInt64.ofNat (2 ^ (j + 1)) >>> 1 = UInt64.ofNat (2 ^ j) := by
      apply UInt64.toNat.inj
      rw [pow_succ, ← Nat.mul_assoc] at hfits
      rw [toNat_shr, UInt64.toNat_ofNat', UInt64.toNat_ofNat', pow_succ]
      omega
    have hleft : (Machine.monus e (UInt64.ofNat (y.toNat * 2 ^ (j + 1)) >>> 1)).toNat =
        e.toNat - y.toNat * 2 ^ j := by
      rw [toNat_monus, hmultiple]
    have hquot : e.toNat / y.toNat = 2 ^ j + (e.toNat - y.toNat * 2 ^ j) / y.toNat := by
      rw [Nat.sub_mul_div, Nat.add_sub_cancel']
      exact (Nat.le_div_iff_mul_le hpos).mpr (by rwa [Nat.mul_comm])
    have hrest : Outgrows y (Machine.monus e (UInt64.ofNat (y.toNat * 2 ^ (j + 1)) >>> 1)) := by
      rw [pow_succ, ← Nat.mul_assoc] at hmore
      exact ⟨j, by rw [hleft]; omega, hle.trans_lt e.toNat_lt⟩
    rw [divideFrom_of_doublings hlt hn, ih hrest, hleft, hpower, hquot, UInt64.ofNat_add,
      Nat.sub_mul_mod hle, UInt64.add_assoc]

lemma division_of_exact {x y : UInt64} {p : UInt64 × UInt64} (h : Word.exact x y = some p) :
    division x y = some p := by
  unfold Word.exact at h
  unfold division
  by_cases hy : y = 0
  · rw [if_pos (Or.inl hy)] at h
    rw [if_pos hy, ← h]
    simp [hy, Word.div, Word.mod]
  · split at h
    · next hx =>
      have hlt : x.toNat < 2 ^ 63 := UInt64.lt_iff_toNat_lt.mp (hx.resolve_left hy)
      rw [if_neg hy, (outgrows_of_lt hy hlt).divideFrom_eq, ← h, Word.div, Word.mod, if_neg hy, UInt64.zero_add]
    · cases h

lemma word_add (v w : UInt64) : Word.add v w = v + w := by
  rw [Word.add, UInt64.ofNat_add, UInt64.ofNat_toNat, UInt64.ofNat_toNat]

lemma word_sub (v w : UInt64) : Word.sub v w = Machine.monus v w := by
  apply UInt64.toNat.inj
  rw [toNat_monus, Word.sub, UInt64.toNat_ofNat_of_lt']
  exact (Nat.sub_le _ _).trans_lt v.toNat_lt

lemma word_mul (v w : UInt64) : Word.mul v w = v * w := by
  rw [Word.mul, UInt64.ofNat_mul, UInt64.ofNat_toNat, UInt64.ofNat_toNat]

lemma toNat_word_div (v w : UInt64) : (Word.div v w).toNat = v.toNat / w.toNat :=
  UInt64.toNat_ofNat_of_lt' ((Nat.div_le_self _ _).trans_lt v.toNat_lt)

lemma word_div_two (v : UInt64) : Word.div v 2 = v >>> 1 := by
  apply UInt64.toNat.inj
  rw [toNat_shr, toNat_word_div]
  rfl

lemma goes_differ (h : m.Holds k start differ) (x : Data) :
    ∃ j y, Goes m.code j start x (start + differ.length) y ∧
      Obtains x y (Machine.monus x.regs.a x.regs.b + Machine.monus x.regs.b x.regs.a) := by
  have hsub := h.goes_slice (x := x) 0 2 (by decide) rfl
  have hjump := h.jpos (x := acts x ((differ.drop 0).take 2)) (i := 2) (d := 3) (q := start + 5) rfl
    (by push_cast; ring)
  have hdiff : (acts x ((differ.drop 0).take 2)).regs.a = Machine.monus x.regs.a x.regs.b := rfl
  rw [hdiff] at hjump
  by_cases hpos : 0 < Machine.monus x.regs.a x.regs.b
  · rw [if_pos hpos] at hjump
    refine ⟨_, _, (hsub.trans hjump).trans (h.goes_slice 5 1 (by decide) rfl), ?_, rfl, rfl, rfl⟩
    change Machine.monus x.regs.a x.regs.b = _
    rw [Machine.monus.eq_1 x.regs.b, if_pos (monus_pos.mp hpos), UInt64.add_zero]
  · rw [if_neg hpos] at hjump
    refine ⟨_, _, (hsub.trans hjump).trans (h.goes_slice 3 3 (by decide) rfl), ?_, rfl, rfl, rfl⟩
    change Machine.monus x.regs.b x.regs.a = _
    have hzero : Machine.monus x.regs.a x.regs.b = 0 := by
      rw [UInt64.not_lt] at hpos
      exact UInt64.le_antisymm hpos (UInt64.zero_le)
    rw [hzero, UInt64.zero_add]

lemma goes_quotient {result : Reg} (h : m.Holds k start (divide result))
    (hresult : result = .c ∨ result = .e) {d : Word.Division}
    (hd : ∀ v w p, d v w = some p → division v w = some p) (x : Data) (s : Flow.Progress) :
    (∃ p j y, (Exec.divide d x.regs.a x.regs.b).run s = (.ok p, s) ∧
      Goes m.code j start x (start + (divide result).length) y ∧
      Obtains x y (if result = .c then p.1 else p.2)) ∨
    ∃ v w, (Exec.divide d x.regs.a x.regs.b).run s = (.error (.division v w), s) ∧
      (division v w = none → ∀ N, Machine.Lasts m.code N start x) := by
  have hgo := goes_divide h hresult x
  unfold Exec.divide
  cases hcase : d x.regs.a x.regs.b with
  | some p =>
    rw [hd _ _ _ hcase] at hgo
    obtain ⟨j, y, hgo, hy⟩ := hgo
    exact Or.inl ⟨p, j, y, rfl, hgo, hy⟩
  | none =>
    refine Or.inr ⟨x.regs.a, x.regs.b, rfl, fun hnone => ?_⟩
    rw [hnone] at hgo
    exact hgo

/-- Where the code holds the recipe of an operation the machine computes what the operation does, or
it goes on for ever if the recipe for quotients does. -/
lemma goes_arithmetic {op : Flow.Op} (hop : arithmetic op = .ok items) (h : m.Holds k start items)
    {r : Flow.Reading} (hr : ∀ v w p, r.division v w = some p → division v w = some p) (x : Data)
    (s : Flow.Progress) :
    (∃ v j y, (r.operate op x.regs.a x.regs.b).run s = (.ok v, s) ∧
      Goes m.code j start x (start + items.length) y ∧ Obtains x y v) ∨
    ∃ v w, (r.operate op x.regs.a x.regs.b).run s = (.error (.division v w), s) ∧
      (division v w = none → ∀ N, Machine.Lasts m.code N start x) := by
  have hstraight : ∀ {v : UInt64}, items.all Item.isStraight = true →
      (r.operate op x.regs.a x.regs.b).run s = (.ok v, s) → Obtains x (acts x items) v →
      ∃ v j y, (r.operate op x.regs.a x.regs.b).run s = (.ok v, s) ∧
        Goes m.code j start x (start + items.length) y ∧ Obtains x y v :=
    fun hs hrun hv => ⟨_, _, _, hrun, h.goes hs, hv⟩
  cases op <;> cases hop
  case add => exact Or.inl (hstraight rfl rfl ⟨(word_add _ _).symm, rfl, rfl, rfl⟩)
  case sub => exact Or.inl (hstraight rfl rfl ⟨(word_sub _ _).symm, rfl, rfl, rfl⟩)
  case shl =>
    refine Or.inl (hstraight rfl rfl ⟨?_, rfl, rfl, rfl⟩)
    change x.regs.a <<< 1 = _
    rw [shl_eq, word_mul]
    grind
  case shr => exact Or.inl (hstraight rfl rfl ⟨(word_div_two _).symm, rfl, rfl, rfl⟩)
  case gt => exact Or.inl (hstraight rfl rfl ⟨(word_sub _ _).symm, rfl, rfl, rfl⟩)
  case lt => exact Or.inl (hstraight rfl rfl ⟨(word_sub _ _).symm, rfl, rfl, rfl⟩)
  case mul =>
    obtain ⟨j, y, hgo, hy⟩ := goes_mul h x
    exact Or.inl ⟨_, j, y, rfl, hgo, by rwa [word_mul]⟩
  case ne =>
    obtain ⟨j, y, hgo, hy⟩ := goes_differ h x
    exact Or.inl ⟨_, j, y, rfl, hgo, by rwa [word_add, word_sub, word_sub]⟩
  case div =>
    rcases goes_quotient h (Or.inl rfl) hr x s with ⟨p, j, y, hrun, hgo, hy⟩ | ⟨v, w, hrun, hlasts⟩
    · exact Or.inl ⟨p.1, j, y, Exec.run_bind_ok hrun, hgo, hy⟩
    · exact Or.inr ⟨v, w, Exec.run_bind_error hrun, hlasts⟩
  case mod =>
    rcases goes_quotient h (Or.inr rfl) hr x s with ⟨p, j, y, hrun, hgo, hy⟩ | ⟨v, w, hrun, hlasts⟩
    · exact Or.inl ⟨p.2, j, y, Exec.run_bind_ok hrun, hgo, hy⟩
    · exact Or.inr ⟨v, w, Exec.run_bind_error hrun, hlasts⟩

end Accumulator.Layout
