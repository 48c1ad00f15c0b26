import Mathlib
import Accumulator.Fault
import Accumulator.World

/-!
# Runs as functions of their state

A run of type `Exec σ α` takes a state to an answer and a new state. The first lemmas compute
answers and runs that are written with `do`. `Exec.Alike` compares two runs: from related states they give related
answers or stop for the same reason, and in both cases end in related states.
-/

namespace Accumulator

variable {σ τ α β γ δ ε : Type}

@[simp] lemma ok_bind (a : α) (f : α → Except ε β) : (Except.ok a >>= f) = f a := rfl

@[simp] lemma error_bind (e : ε) (f : α → Except ε β) :
    ((Except.error e : Except ε α) >>= f) = .error e := rfl

lemma bind_eq_error {x : Except ε α} {f : α → Except ε β} {e : ε} :
    x >>= f = .error e ↔ x = .error e ∨ ∃ a, x = .ok a ∧ f a = .error e := by
  cases x with
  | error e' => simp
  | ok a => simp

lemma exists_ok_of_test {x : Except ε (Except δ α)} {P : α → Prop} [DecidablePred P]
    (h : (match x with
      | .ok (.ok a) => decide (P a)
      | _ => false) = true) : ∃ a, x = .ok (.ok a) ∧ P a := by
  split at h
  · exact ⟨_, rfl, of_decide_eq_true h⟩
  · cases h

@[simp] lemma pure_eq_ok (a : α) : (pure a : Except ε α) = .ok a := rfl

@[simp] lemma throw_eq_error (e : ε) : (throw e : Except ε α) = .error e := rfl

namespace Exec

@[simp] lemma run_pure (a : α) (s : σ) : (pure a : Exec σ α).run s = (.ok a, s) := rfl

@[simp] lemma run_throw (e : Interrupt) (s : σ) :
    (throw e : Exec σ α).run s = (.error e, s) := rfl

lemma run_bind (x : Exec σ α) (f : α → Exec σ β) (s : σ) :
    (x >>= f).run s =
      match x.run s with
      | (.ok a, t) => (f a).run t
      | (.error e, t) => (.error e, t) := by
  unfold ExceptT.run
  simp only [bind, ExceptT.bind, ExceptT.mk, StateT.bind, ExceptT.bindCont]
  rcases x s with ⟨_ | a, t⟩ <;> rfl

lemma run_bind_ok {x : Exec σ α} {f : α → Exec σ β} {s t : σ} {a : α} (h : x.run s = (.ok a, t)) :
    (x >>= f).run s = (f a).run t := by
  rw [run_bind, h]

lemma run_bind_error {x : Exec σ α} {f : α → Exec σ β} {s t : σ} {e : Interrupt}
    (h : x.run s = (.error e, t)) : (x >>= f).run s = (.error e, t) := by
  rw [run_bind, h]

@[simp] lemma run_get (s : σ) : (getThe σ : Exec σ σ).run s = (.ok s, s) := rfl

@[simp] lemma run_modify (f : σ → σ) (s : σ) :
    (modify f : Exec σ Unit).run s = (.ok (), f s) := rfl

@[simp] lemma run_set (s t : σ) : (set t : Exec σ Unit).run s = (.ok (), t) := rfl

@[simp] lemma run_required_some (a : α) (s : σ) : (required (some a) : Exec σ α).run s = (.ok a, s) :=
  rfl

@[simp] lemma run_required_none (s : σ) :
    (required none : Exec σ α).run s = (.error .senseless, s) := rfl

end Exec

/-- Two answers with their states: both are given and related, or both are the same interrupt. -/
def Matching (R : σ → τ → Prop) (Q : α → β → Prop) :
    Except Interrupt α × σ → Except Interrupt β × τ → Prop
  | (.ok a, s), (.ok b, t) => Q a b ∧ R s t
  | (.error e, s), (.error e', t) => e = e' ∧ R s t
  | _, _ => False

namespace Exec

/-- Runs that take related states to matching answers. -/
def Alike (R : σ → τ → Prop) (Q : α → β → Prop) (x : Exec σ α) (y : Exec τ β) : Prop :=
  ∀ s t, R s t → Matching R Q (x.run s) (y.run t)

variable {R : σ → τ → Prop} {Q : α → β → Prop} {Q' : γ → δ → Prop}

lemma Alike.pure {a : α} {b : β} (h : Q a b) : Alike R Q (pure a) (pure b) := by
  intro s t hst
  exact ⟨h, hst⟩

lemma Alike.throw (e : Interrupt) : Alike R Q (throw e) (throw e) := by
  intro s t hst
  exact ⟨rfl, hst⟩

lemma Alike.bind {x : Exec σ α} {y : Exec τ β} {f : α → Exec σ γ} {g : β → Exec τ δ}
    (h : Alike R Q x y) (k : ∀ a b, Q a b → Alike R Q' (f a) (g b)) :
    Alike R Q' (x >>= f) (y >>= g) := by
  intro s t hst
  have hm := h s t hst
  rw [run_bind, run_bind]
  rcases hx : x.run s with ⟨_ | a, s'⟩ <;> rcases hy : y.run t with ⟨_ | b, t'⟩ <;>
    rw [hx, hy] at hm
  · exact hm
  · exact hm.elim
  · exact hm.elim
  · exact k a b hm.1 s' t' hm.2

lemma Alike.required (o : Option α) : Alike R Eq (required o) (required o) := by
  cases o with
  | none => exact Alike.throw _
  | some a => exact Alike.pure rfl

end Exec

end Accumulator
