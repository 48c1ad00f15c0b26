import Mathlib
import Accumulator.Tree.Decode

/-!
# Equality of trees

Statements hold lists of statements, and whether two of them are equal is decided by going down both
at once. So it can be computed what a text is read as.
-/

namespace Accumulator.Tree

namespace Stmt

mutual

/-- Whether two statements are the same. -/
def same : Stmt → Stmt → Bool
  | .missing, .missing => true
  | .assign p d s, .assign p' d' s' => p = p' ∧ d = d' ∧ s = s'
  | .choose p c l m, .choose p' c' l' m' => p = p' ∧ c = c' ∧ sameAll l l' ∧ sameAll m m'
  | .loop p c l, .loop p' c' l' => p = p' ∧ c = c' ∧ sameAll l l'
  | .untilLoop p l c, .untilLoop p' l' c' => p = p' ∧ c = c' ∧ sameAll l l'
  | .call p k l, .call p' k' l' => p = p' ∧ k = k' ∧ l = l'
  | .read p d, .read p' d' => p = p' ∧ d = d'
  | .write p s, .write p' s' => p = p' ∧ s = s'
  | _, _ => false

/-- Whether two lists of statements are the same. -/
def sameAll : List Stmt → List Stmt → Bool
  | [], [] => true
  | s :: l, s' :: l' => s.same s' ∧ sameAll l l'
  | _, _ => false

end

mutual

lemma eq_of_same (s s' : Stmt) (h : s.same s' = true) : s = s' := by
  cases s <;> cases s' <;> simp only [same, decide_eq_true_eq, Bool.false_eq_true] at h
  case missing.missing => rfl
  case choose.choose =>
    obtain ⟨rfl, rfl, hl, hm⟩ := h
    rw [eq_of_sameAll _ _ hl, eq_of_sameAll _ _ hm]
  case loop.loop =>
    obtain ⟨rfl, rfl, hl⟩ := h
    rw [eq_of_sameAll _ _ hl]
  case untilLoop.untilLoop =>
    obtain ⟨rfl, rfl, hl⟩ := h
    rw [eq_of_sameAll _ _ hl]
  all_goals simp [h]

lemma eq_of_sameAll (l l' : List Stmt) (h : sameAll l l' = true) : l = l' := by
  cases l <;> cases l' <;> simp only [sameAll, decide_eq_true_eq, Bool.false_eq_true] at h
  case nil.nil => rfl
  case cons.cons => rw [eq_of_same _ _ h.1, eq_of_sameAll _ _ h.2]

end

mutual

lemma same_self (s : Stmt) : s.same s = true := by
  cases s with
  | choose p c l m => simp [same, sameAll_self l, sameAll_self m]
  | loop p c l => simp [same, sameAll_self l]
  | untilLoop p l c => simp [same, sameAll_self l]
  | _ => simp [same]

lemma sameAll_self (l : List Stmt) : sameAll l l = true := by
  cases l with
  | nil => rfl
  | cons s l => simp [sameAll, same_self s, sameAll_self l]

end

instance : DecidableEq Stmt := fun s s' =>
  decidable_of_iff (s.same s' = true) ⟨eq_of_same s s', fun h => h ▸ same_self s⟩

end Stmt

deriving instance DecidableEq for Proc
deriving instance DecidableEq for File

end Accumulator.Tree
