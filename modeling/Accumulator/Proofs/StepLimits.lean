import Mathlib
import Accumulator.Proofs.RecipeResults

/-!
# Step limits

A limit on the steps of a machine only pauses it. A run that met its limit goes on from the state it
stopped in, and a run that ended otherwise does not notice a larger limit. The counters tell what
happened in between: there is a step for every instruction carried out, and the cycles are those of
all of them.
-/

namespace Accumulator.Machine

variable {code : Array Instr} {s t : State} {i : Instr} {n m : Nat}

/-- The number of cycles that an instruction takes. -/
def Instr.cost (i : Instr) : Nat := i.op.cost?.getD 0

/-- The instruction that a machine is about to carry out. There is none outside of the program, and
none with a register or an operation that the machine does not have. -/
def next? (code : Array Instr) (s : State) : Option Instr :=
  (fetch? code s.pc).filter fun i => (!i.op.hasReg || i.reg.isKnown) && i.op.cost?.isSome

/-- The instructions that a machine carries out in at most `n` steps, in order. A read without input
is carried out too, as the last one. -/
def executed (code : Array Instr) : Nat → State → List Instr
  | 0, _ => []
  | n + 1, s =>
    if s.halted then []
    else
      match next? code s, step code s with
      | none, _ => []
      | some i, (t, none) => i :: executed code n t
      | some i, (_, some _) => [i]

/-- The instructions that a machine carries out until it has made `limit` steps altogether. -/
def executedTo (code : Array Instr) (limit : Nat) (s : State) : List Instr :=
  executed code (limit - s.steps : Int).toNat s

lemma execute_counters (i : Instr) (s : State) :
    (execute i s).1.steps = s.steps ∧ (execute i s).1.cost = s.cost := by
  unfold execute
  cases i.op
  case read => cases s.input <;> exact ⟨rfl, rfl⟩
  case jpos | jzero =>
    dsimp only
    split <;> exact ⟨rfl, rfl⟩
  all_goals exact ⟨rfl, rfl⟩

lemma step_of_next?_none (hs : s.halted = false) (h : next? code s = none) :
    ∃ why, step code s = (s, some why) := by
  rw [step, hs, if_neg (by decide)]
  cases hf : fetch? code s.pc with
  | none => exact ⟨_, rfl⟩
  | some i =>
    rw [next?, hf, Option.filter_some] at h
    dsimp only
    split
    · exact ⟨_, rfl⟩
    · next hreg =>
      cases hc : i.op.cost? with
      | none => exact ⟨_, rfl⟩
      | some c => simp_all

lemma step_of_next?_some (hs : s.halted = false) (h : next? code s = some i) :
    step code s = execute i (s.advance i.cost) := by
  rw [next?, Option.filter_eq_some_iff, Bool.and_eq_true, Option.isSome_iff_exists] at h
  obtain ⟨hf, hreg, c, hc⟩ := h
  have hknown : ¬(i.op.hasReg && !i.reg.isKnown) = true := by grind
  rw [step, hs, if_neg (by decide), hf]
  dsimp only
  rw [if_neg hknown, hc, Instr.cost, hc]
  rfl

lemma exists_next? (hs : s.halted = false) (h : step code s = (t, none)) :
    ∃ i, next? code s = some i := by
  cases hnext : next? code s with
  | none =>
    obtain ⟨why, hwhy⟩ := step_of_next?_none hs hnext
    rw [hwhy] at h
    cases h
  | some i => exact ⟨i, rfl⟩

lemma step_counters (hs : s.halted = false) (h : next? code s = some i) :
    (step code s).1.steps = s.steps + 1 ∧ (step code s).1.cost = s.cost + .ofNat i.cost := by
  rw [step_of_next?_some hs h]
  exact execute_counters i _

lemma runFor_counters (code : Array Instr) (n : Nat) (s : State) :
    (runFor code n s).1.steps = s.steps + .ofNat (executed code n s).length ∧
      (runFor code n s).1.cost = s.cost + .ofNat ((executed code n s).map Instr.cost).sum := by
  induction n generalizing s with
  | zero =>
    rw [runFor, executed]
    split <;> simp
  | succ n ih =>
    rw [runFor, executed]
    cases hs : s.halted with
    | true => simp
    | false =>
      simp only [Bool.false_eq_true, if_false]
      cases hnext : next? code s with
      | none =>
        obtain ⟨why, hstep⟩ := step_of_next?_none hs hnext
        simp [hstep]
      | some i =>
        have hcount := step_counters hs hnext
        rcases hstep : step code s with ⟨t, _ | why⟩
        · rw [hstep] at hcount
          obtain ⟨hsteps, hcost⟩ := ih t
          dsimp only at hcount ⊢
          rw [hsteps, hcost, hcount.1, hcount.2, List.length_cons, List.map_cons, List.sum_cons,
            Int64.ofNat_add, Int64.ofNat_add, Int64.add_assoc, Int64.add_assoc, Int64.add_comm 1]
          exact ⟨rfl, rfl⟩
        · rw [hstep] at hcount
          simpa using hcount

lemma length_executed_le (code : Array Instr) (n : Nat) (s : State) :
    (executed code n s).length ≤ n := by
  induction n generalizing s with
  | zero => exact le_rfl
  | succ n ih =>
    rw [executed]
    split
    · exact Nat.zero_le _
    · split
      · exact Nat.zero_le _
      · exact Nat.succ_le_succ (ih _)
      · exact Nat.succ_le_succ (Nat.zero_le n)

lemma length_executed (h : runFor code n s = (t, some .stepLimit)) :
    (executed code n s).length = n := by
  induction n generalizing s with
  | zero => rfl
  | succ n ih =>
    obtain ⟨hs, s', hstep, hrest⟩ := step_of_stepLimit h
    obtain ⟨i, hnext⟩ := exists_next? hs hstep
    rw [executed, hs, if_neg (by decide), hnext, hstep]
    exact congrArg Nat.succ (ih hrest)

lemma runFor_resume (h : runFor code n s = (t, some .stepLimit)) (m : Nat) :
    runFor code (n + m) s = runFor code m t := by
  induction n generalizing s with
  | zero =>
    rw [runFor] at h
    split at h
    · cases h
    · cases h
      rw [Nat.zero_add]
  | succ n ih =>
    obtain ⟨hs, s', hstep, hrest⟩ := step_of_stepLimit h
    rw [Nat.succ_add, runFor, hs, if_neg (by decide), hstep]
    exact ih hrest

lemma toInt_add_ofNat {c : Int64} (h : c.toInt + n < 2 ^ 63) : (c + .ofNat n).toInt = c.toInt + n := by
  have hlo := Int64.le_toInt c
  have hn : (Int64.ofNat n).toInt = (n : Int).bmod (2 ^ 64) := Int64.toInt_ofNat'
  rw [Int64.toInt_add, hn, Int.add_bmod_bmod]
  exact Int.bmod_eq_of_le (by omega) (by omega)

lemma steps_runTo (code : Array Instr) (s : State) (hn : n < 2 ^ 63) :
    ((runTo code n s).1.steps : Int) = s.steps + (executedTo code n s).length := by
  have hle := length_executed_le code (n - s.steps : Int).toNat s
  rw [runTo, (runFor_counters code _ s).1, executedTo]
  exact toInt_add_ofNat (by have := Int64.toInt_lt s.steps; omega)

/-- The run as a loop. It looks first whether the machine has halted and then at the limit. -/
lemma runTo_eq (hn : n < 2 ^ 63) :
    runTo code n s =
      if s.halted then (s, none)
      else if (n : Int) ≤ s.steps then (s, some .stepLimit)
      else
        match step code s with
        | (t, none) => runTo code n t
        | r => r := by
  cases hs : s.halted with
  | true =>
    rw [runTo]
    cases (n - s.steps : Int).toNat <;> simp [runFor, hs]
  | false =>
    simp only [Bool.false_eq_true, if_false]
    split
    · next hle => rw [runTo, Int.toNat_of_nonpos (by omega), runFor, hs, if_neg (by decide)]
    · next hlt =>
      obtain ⟨k, hk⟩ : ∃ k : Nat, (n - s.steps : Int) = k + 1 := ⟨(n - s.steps - 1 : Int).toNat, by omega⟩
      rw [runTo, hk, Int.toNat_natCast_add_one, runFor, hs, if_neg (by decide)]
      rcases hstep : step code s with ⟨t, _ | why⟩
      · have hsteps : (t.steps : Int) = s.steps + 1 := by
          obtain ⟨i, hnext⟩ := exists_next? hs hstep
          have hcount := (step_counters hs hnext).1
          rw [hstep] at hcount
          have := Int64.toInt_lt s.steps
          rw [hcount]
          exact toInt_add_ofNat (n := 1) (by omega)
        have hrest : (n - t.steps : Int).toNat = k := by omega
        dsimp only
        rw [runTo, hrest]
      · rfl

lemma runTo_resume (hnm : n ≤ m) (hn : n < 2 ^ 63) (h : runTo code n s = (t, some .stepLimit)) :
    runTo code m t = runTo code m s := by
  have hsteps : (t.steps : Int) = s.steps + (n - s.steps : Int).toNat := by
    have := steps_runTo code s hn
    rw [h, executedTo, length_executed h] at this
    exact this
  -- The second run has just the steps that the first one did not make.
  have hsplit : (m - s.steps : Int).toNat = (n - s.steps : Int).toNat + (m - t.steps : Int).toNat := by
    omega
  rw [runTo, runTo, hsplit, runFor_resume h]

lemma runTo_of_ne_stepLimit (hnm : n ≤ m) (h : (runTo code n s).2 ≠ some .stepLimit) :
    runTo code m s = runTo code n s := by
  have hsplit : (m - s.steps : Int).toNat =
      (n - s.steps : Int).toNat + ((m - s.steps : Int).toNat - (n - s.steps : Int).toNat) := by omega
  rw [runTo, hsplit]
  exact runFor_add h _

/-- A limit only pauses a run. If the machine stops at the limit `n`, then going on with the limit `m`
ends as a single run with the limit `m` does; if it stops for another reason, a larger limit changes
nothing. There are no more steps than the limit or than there were, and steps and cycles are those of
the instructions that were carried out. -/
theorem runTo_pause (code : Array Instr) (s : State) {n m : Nat} (hnm : n ≤ m) (hm : m < 2 ^ 63) :
    (∀ t, runTo code n s = (t, some .stepLimit) → runTo code m t = runTo code m s) ∧
      ((runTo code n s).2 ≠ some .stepLimit → runTo code m s = runTo code n s) ∧
      ((runTo code n s).1.steps : Int) ≤ max (n : Int) s.steps ∧
      (runTo code n s).1.steps = s.steps + .ofNat (executedTo code n s).length ∧
      (runTo code n s).1.cost = s.cost + .ofNat ((executedTo code n s).map Instr.cost).sum := by
  have hn : n < 2 ^ 63 := by omega
  refine ⟨fun t => runTo_resume hnm hn, runTo_of_ne_stepLimit hnm, ?_, runFor_counters code _ s⟩
  have hle := length_executed_le code (n - s.steps : Int).toNat s
  rw [steps_runTo code s hn, executedTo]
  omega

/-- Three steps into a loop that has no end, and on to the fifth. -/
theorem runTo_pause_loop :
    let code : Array Instr := #[{ op := .inc, reg := .b }, { op := .jump }]
    ∃ t, runTo code 3 (.start [7]) = (t, some .stepLimit) ∧
      runTo code 5 t = runTo code 5 (.start [7]) ∧ t.steps = 3 ∧
      t.cost = .ofNat ((executedTo code 3 (.start [7])).map Instr.cost).sum := by
  intro code
  have hpause := runTo_pause code (.start [7]) (n := 3) (m := 5) (by decide) (by decide)
  exact ⟨_, rfl, hpause.1 _ rfl, rfl, hpause.2.2.2.2⟩

end Accumulator.Machine
