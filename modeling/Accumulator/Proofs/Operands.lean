import Mathlib
import Accumulator.Flow.Spill
import Accumulator.Proofs.WellFormed

/-!
# Operands in registers and in frames

An operand is either a variable of the frame or a value that was computed before. The values that an
instruction uses are listed in the order in which they have to come into the registers: the last one
into the accumulator, the one before into the second register.
-/

namespace Accumulator.Flow

namespace Payload

/-- Whether an instruction produces a value. -/
def produces : Payload → Bool
  | .alu _ _ _ | .const _ | .read | .load _ | .loadIndirect _ | .loadPair _ | .elemAddr _ _
  | .elemAddrIndirect _ _ => true
  | _ => false

lemma producesValue_eq {x : Payload} (h : ∀ v, x ≠ .var v) : x.producesValue = .ok x.produces := by
  cases x with
  | var v => exact absurd rfl (h v)
  | _ => rfl

/-- Whether an instruction compares. -/
def compares : Payload → Bool
  | .alu op _ _ => op.isRelational
  | _ => false

def isBranchIf : Payload → Bool
  | .branchIf _ _ _ _ => true
  | _ => false

def isCall : Payload → Bool
  | .call _ _ => true
  | _ => false

lemma isTerminal_of_produces {x : Payload} (h : x.produces = true) : x.isTerminal = false := by
  cases x <;> first | rfl | exact absurd h Bool.false_ne_true

lemma isCall_of_produces {x : Payload} (h : x.produces = true) : x.isCall = false := by
  cases x <;> first | rfl | exact absurd h Bool.false_ne_true

lemma asVar_of_produces {x : Payload} (h : x.produces = true) : x.asVar = none := by
  cases x with
  | var v => cases h
  | _ => rfl

end Payload

namespace Func

variable {f f' : Func} {x : Payload} {σ : Id → Id}

/-- The values that an instruction uses, in the order in which they come into the registers. -/
def needs (f : Func) : Payload → List Id
  | .load s => if (f.varOf? s).isSome then [] else [s]
  | .elemAddr _ i | .elemAddrIndirect _ i => [i]
  | .store d s => if (f.varOf? d).isSome then [s] else [d, s]
  | .storeIndirect _ s | .write s => [s]
  | .alu _ l r => [r, l]
  | .branchIf _ c _ _ => [c]
  | _ => []

/-- The variables that an instruction uses. -/
def named (f : Func) : Payload → List Id
  | .load s => if (f.varOf? s).isSome then [s] else []
  | .loadIndirect s | .loadPair s => [s]
  | .elemAddr v _ | .elemAddrIndirect v _ | .storeIndirect v _ => [v]
  | .store d _ => if (f.varOf? d).isSome then [d] else []
  | .call _ args => args
  | _ => []

lemma mem_operands_iff (f : Func) {d : Id} : d ∈ x.operands ↔ d ∈ f.needs x ∨ d ∈ f.named x := by
  cases x <;> simp only [Payload.operands, needs, named] <;>
    (try split) <;> simp <;> tauto

lemma count_operands (f : Func) (d : Id) :
    x.operands.count d = (f.needs x).count d + (f.named x).count d := by
  cases x with
  | load s => by_cases hs : (f.varOf? s).isSome <;> simp [Payload.operands, needs, named, hs]
  | store d' s =>
    by_cases hd : (f.varOf? d').isSome
    · simp [Payload.operands, needs, named, hd, List.count_cons]
    · simp [Payload.operands, needs, named, hd]
  | _ => simp [Payload.operands, needs, named, List.count_cons, Nat.add_comm]

lemma needs_congr (h : ∀ d ∈ x.operands, f'.varOf? d = f.varOf? d) : f'.needs x = f.needs x := by
  cases x with
  | load s => simp only [needs]; rw [h s (by simp [Payload.operands])]
  | store d s => simp only [needs]; rw [h d (by simp [Payload.operands])]
  | _ => rfl

lemma named_congr (h : ∀ d ∈ x.operands, f'.varOf? d = f.varOf? d) : f'.named x = f.named x := by
  cases x with
  | load s => simp only [named]; rw [h s (by simp [Payload.operands])]
  | store d s => simp only [named]; rw [h d (by simp [Payload.operands])]
  | _ => rfl

lemma needs_rename (h : ∀ d ∈ x.operands, (f'.varOf? (σ d)).isSome = (f.varOf? d).isSome) :
    f'.needs (x.rename σ) = (f.needs x).map σ := by
  cases x with
  | load s =>
    have := h s (by simp [Payload.operands])
    simp only [Payload.rename, Payload.operands, List.map, Payload.withOperands, needs, this]
    split <;> simp
  | store d s =>
    have := h d (by simp [Payload.operands])
    simp only [Payload.rename, Payload.operands, List.map, Payload.withOperands, needs, this]
    split <;> simp
  | _ => rfl

lemma named_rename (h : ∀ d ∈ x.operands, (f'.varOf? (σ d)).isSome = (f.varOf? d).isSome) :
    f'.named (x.rename σ) = (f.named x).map σ := by
  cases x with
  | load s =>
    have := h s (by simp [Payload.operands])
    simp only [Payload.rename, Payload.operands, List.map, Payload.withOperands, named, this]
    split <;> simp
  | store d s =>
    have := h d (by simp [Payload.operands])
    simp only [Payload.rename, Payload.operands, List.map, Payload.withOperands, named, this]
    split <;> simp
  | _ => rfl

/-- The values at hand behind an instruction. None lasts through a call. -/
def availStep (f : Func) (at_hand : List Id) (u : Id) : List Id :=
  match f.live? u with
  | none => at_hand
  | some x => if x.isCall then [] else if x.produces then at_hand ++ [u] else at_hand

/-- The values at hand behind some code, oldest first. -/
def avail (f : Func) (code : List Id) : List Id := code.foldl f.availStep []

lemma avail_concat (f : Func) (code : List Id) (u : Id) :
    f.avail (code ++ [u]) = f.availStep (f.avail code) u := by
  simp [avail]

lemma avail_congr_kinds {code : List Id}
    (h : ∀ u ∈ code, (f'.live? u).map (fun x => (x.isCall, x.produces)) =
      (f.live? u).map fun x => (x.isCall, x.produces)) : f'.avail code = f.avail code := by
  induction code using List.reverseRecOn with
  | nil => rfl
  | append_singleton l u ih =>
    have hu := h u (by simp)
    rw [avail_concat, avail_concat, ih fun v hv => h v (by simp [hv]), availStep, availStep]
    cases hx' : f'.live? u with
    | none =>
      cases hx : f.live? u with
      | none => rfl
      | some x => simp [hx, hx'] at hu
    | some x' =>
      cases hx : f.live? u with
      | none => simp [hx, hx'] at hu
      | some x =>
        simp only [hx, hx', Option.map_some, Option.some.injEq, Prod.mk.injEq] at hu
        simp only [hu.1, hu.2]

lemma avail_congr {code : List Id} (h : ∀ u ∈ code, f'.live? u = f.live? u) :
    f'.avail code = f.avail code :=
  avail_congr_kinds fun u hu => by rw [h u hu]

lemma avail_sublist (f : Func) (code : List Id) : (f.avail code).Sublist code := by
  induction code using List.reverseRecOn with
  | nil => exact List.Sublist.refl _
  | append_singleton l u ih =>
    rw [avail_concat, availStep]
    split
    · exact ih.trans (List.sublist_append_left l [u])
    split
    · exact List.nil_sublist _
    split
    · exact ih.append (List.Sublist.refl _)
    · exact ih.trans (List.sublist_append_left l [u])

lemma produces_of_mem_avail {code : List Id} {u : Id} (h : u ∈ f.avail code) :
    ∃ x, f.live? u = some x ∧ x.produces = true := by
  induction code using List.reverseRecOn with
  | nil => simp [avail] at h
  | append_singleton l v ih =>
    rw [avail_concat, availStep] at h
    cases hv : f.live? v with
    | none => exact ih (by simpa [hv] using h)
    | some x =>
      simp only [hv] at h
      split at h
      · simp at h
      split at h
      · rcases List.mem_append.mp h with h | h
        · exact ih h
        · obtain rfl := List.mem_singleton.mp h
          exact ⟨x, hv, by assumption⟩
      · exact ih h

lemma avail_append {code ids : List Id}
    (h : ∀ i ∈ ids, ∃ x, f.live? i = some x ∧ x.produces = true) :
    f.avail (code ++ ids) = f.avail code ++ ids := by
  induction ids using List.reverseRecOn with
  | nil => simp
  | append_singleton l u ih =>
    obtain ⟨x, hx, hp⟩ := h u (by simp)
    rw [← List.append_assoc, avail_concat, ih fun i hi => h i (by simp [hi]), availStep, hx]
    simp [hp, Payload.isCall_of_produces hp]

end Func

end Accumulator.Flow
