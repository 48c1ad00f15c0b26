import Mathlib
import Accumulator.Proofs.Agree

/-!
# Deeper runs

A run that is over within its depth is the same at every greater depth. So what a run does from one
point of a block to another can be said without depths.
-/

namespace Accumulator

variable {σ α β : Type}

/-- The run was not over within its depth. -/
def Unfinished (x : Except Interrupt α × σ) : Prop := x.1 = .error .unfinished

namespace Exec

/-- The second run does what the first one does, as far as that one gets to an end. -/
def Below (x y : Exec σ α) : Prop := ∀ s, ¬ Unfinished (x.run s) → y.run s = x.run s

lemma Below.refl (x : Exec σ α) : Below x x := fun _ _ => rfl

lemma Below.bind {x y : Exec σ α} {f g : α → Exec σ β} (h : Below x y)
    (hfg : ∀ a, Below (f a) (g a)) : Below (x >>= f) (y >>= g) := by
  intro s hs
  rw [run_bind, run_bind]
  rw [run_bind] at hs
  have hx := h s
  rcases hrun : x.run s with ⟨e | a, t⟩
  · rw [hrun] at hs hx
    have hne : ¬ Unfinished ((.error e, t) : Except Interrupt α × σ) := by
      intro hu
      cases hu
      exact hs rfl
    rw [hx hne]
  · rw [hrun] at hs hx
    rw [hx (by simp [Unfinished])]
    exact hfg a t hs

end Exec

namespace Flow.Reading

open Accumulator.Exec

variable {r : Reading} {goTo goTo' : Nat → BlockId → Exec Ending}

lemma exec_below (hgo : ∀ j b, Below (goTo j b) (goTo' j b)) (a : Activation) (l : List Id) :
    Below (r.exec goTo a l) (r.exec goTo' a l) := by
  induction l generalizing a with
  | nil => exact Below.refl _
  | cons i l ih =>
    rw [exec, exec]
    refine (Below.refl _).bind fun x => ?_
    cases x with
    | branch b => exact hgo _ _
    | branchIf test c b b' => exact (Below.refl _).bind fun w => hgo _ _
    | call callee args =>
      refine (Below.refl _).bind fun g => (Below.refl _).bind fun vs => (Below.refl _).bind fun _ =>
        (hgo _ _).bind fun e => ?_
      cases e with
      | stopped => exact Below.refl _
      | returned => exact ih a
    | stop => exact Below.refl _
    | ret => exact Below.refl _
    | _ => exact (Below.refl _).bind fun v => ih _

lemma block_below (n j : Nat) (b : BlockId) : Below (r.block n j b) (r.block (n + 1) j b) := by
  induction n generalizing j b with
  | zero => exact fun s hs => absurd rfl hs
  | succ n ih =>
    rw [block, block]
    exact (Below.refl _).bind fun f => (Below.refl _).bind fun code => (Below.refl _).bind fun _ =>
      exec_below ih _ _

lemma block_mono {n m : Nat} (hnm : n ≤ m) (j : Nat) (b : BlockId) :
    Below (r.block n j b) (r.block m j b) := by
  induction m, hnm using Nat.le_induction with
  | base => exact Below.refl _
  | succ m _ ih =>
    intro s hs
    have hm := ih s hs
    rw [block_below m j b s (by rw [hm]; exact hs), hm]

lemma run_block_succ {j : Nat} {f : Func} (hf : r.program.funcs[j]? = some f) {b : BlockId}
    {l : List Id} (hl : f.listing? b = some l) (n : Nat) (s : Progress) :
    (r.block (n + 1) j b).run s =
      (r.exec (r.block n) { number := j, func := f } l).run
        { s with trace := s.trace ++ [.enter j b] } := by
  have hcode : f.code b = .ok l.toArray := Func.code_eq_ok.mpr hl
  rw [block, hf, required_bind, hcode]
  rfl

lemma runFunc_mono {n m : Nat} (hnm : n ≤ m) {j : Nat} {w : World Value}
    (h : ¬ Unfinished (r.runFunc n j w)) : r.runFunc m j w = r.runFunc n j w := by
  cases hf : r.program.funcs[j]? with
  | none => rw [runFunc_none hf, runFunc_none hf]
  | some f =>
    rw [runFunc_some hf] at h
    rw [runFunc_some hf, runFunc_some hf]
    exact block_mono hnm j f.entry _ h

lemma runGiven_eq_of_finished {given : Nat → Object} {n m : Nat} {words : List UInt64}
    (hn : ¬ Unfinished (r.runGiven given n words)) (hm : ¬ Unfinished (r.runGiven given m words)) :
    r.runGiven given n words = r.runGiven given m words := by
  unfold runGiven at hn hm ⊢
  cases hmain : r.program.main? with
  | none => rfl
  | some k =>
    rw [hmain] at hn hm
    rcases le_total n m with hnm | hnm
    · exact (runFunc_mono hnm hn).symm
    · exact runFunc_mono hnm hm

end Flow.Reading

namespace Flow

open Reading

/-- A point of a run: the rest of the code of a block, and what was done so far. -/
structure Point where
  activation : Activation
  code : List Id
  progress : Progress

namespace Point

/-- Go on from a point to a depth of `n`. -/
def run (r : Reading) (p : Point) (n : Nat) : Except Interrupt Ending × Progress :=
  (r.exec (r.block n) p.activation p.code).run p.progress

variable {r : Reading} {p q u : Point}

lemma run_mono {n m : Nat} (hnm : n ≤ m) (h : ¬ Unfinished (p.run r n)) :
    p.run r m = p.run r n :=
  exec_below (fun j b => block_mono hnm j b) _ _ _ h

/-- Going on from the first point means to go on from the second. -/
structure Proceeds (r : Reading) (p q : Point) : Prop where
  waits : ∀ n, Unfinished (q.run r n) → Unfinished (p.run r n)
  ends : ∀ n, ¬ Unfinished (q.run r n) → ∃ m, p.run r m = q.run r n

lemma Proceeds.refl (r : Reading) (p : Point) : Proceeds r p p := ⟨fun _ h => h, fun n _ => ⟨n, rfl⟩⟩

lemma Proceeds.trans (h : Proceeds r p q) (h' : Proceeds r q u) : Proceeds r p u := by
  refine ⟨fun n hn => h.waits n (h'.waits n hn), fun n hn => ?_⟩
  obtain ⟨m, hm⟩ := h'.ends n hn
  obtain ⟨m', hm'⟩ := h.ends m (by rw [hm]; exact hn)
  exact ⟨m', hm'.trans hm⟩

lemma Proceeds.of_eq (h : ∀ n, p.run r n = q.run r n) : Proceeds r p q :=
  ⟨fun n hn => by rw [h]; exact hn, fun n _ => ⟨n, h n⟩⟩

/-- One step deeper. -/
structure Deepens (r : Reading) (p q : Point) : Prop where
  zero : Unfinished (p.run r 0)
  succ : ∀ n, p.run r (n + 1) = q.run r n

lemma Deepens.proceeds (h : Deepens r p q) : Proceeds r p q := by
  refine ⟨fun n hn => ?_, fun n _ => ⟨n + 1, h.succ n⟩⟩
  cases n with
  | zero => exact h.zero
  | succ n =>
    rw [h.succ]
    by_contra hne
    have := run_mono (Nat.le_succ n) hne
    rw [this] at hn
    exact hne hn

end Point

end Flow

end Accumulator
