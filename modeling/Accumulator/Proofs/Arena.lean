import Mathlib
import Accumulator.Flow.Edit
import Accumulator.Flow.Run
import Accumulator.Proofs.Exec

/-!
# The arena of a function

A function is seen through `at?`, which gives the slots, `live?`, which gives the payloads of those
that were not erased, and `listing?`, which gives the code of the blocks. `Sound` says that these
agree: users are listed once per operand, and an instruction stands in the one block that its slot
names. It holds of a new function and is kept by every edit.
-/

namespace Accumulator.Flow

lemma lookup_eq_ok {α : Type} {table : Array α} {i : Int} {x : α} :
    lookup table i = .ok x ↔ 0 ≤ i ∧ table[i.toNat]? = some x := by
  cases i with
  | ofNat n =>
    simp only [lookup]
    cases h : table[n]? <;> simp [h]
  | negSucc n => simp [lookup]

lemma lookup_natCast {α : Type} {table : Array α} {n : Nat} {x : α} :
    lookup table (n : Int) = .ok x ↔ table[n]? = some x := by
  simp [lookup_eq_ok]

namespace Payload

/-- The same instruction with its operands renamed. -/
def rename (σ : Id → Id) (x : Payload) : Payload := x.withOperands (x.operands.map σ)

lemma operands_withOperands {x : Payload} {l : List Id} (h : l.length = x.operands.length) :
    (x.withOperands l).operands = l := by
  cases x <;> simp only [operands, List.length_cons, List.length_nil] at h ⊢ <;>
    first
    | rfl
    | (rcases l with _ | ⟨a, _ | ⟨b, _ | ⟨c, l⟩⟩⟩ <;> simp_all [withOperands])

lemma withOperands_withOperands {x : Payload} {l m : List Id} (hl : l.length = x.operands.length)
    (hm : m.length = x.operands.length) : (x.withOperands l).withOperands m = x.withOperands m := by
  cases x <;> simp only [operands, List.length_cons, List.length_nil] at hl hm <;>
    first
    | rfl
    | (rcases l with _ | ⟨a, _ | ⟨b, _ | ⟨c, l⟩⟩⟩ <;>
        rcases m with _ | ⟨a, _ | ⟨b, _ | ⟨c, m⟩⟩⟩ <;> simp_all [withOperands])

@[simp] lemma withOperands_operands (x : Payload) : x.withOperands x.operands = x := by
  cases x <;> rfl

@[simp] lemma operands_rename (σ : Id → Id) (x : Payload) :
    (x.rename σ).operands = x.operands.map σ :=
  operands_withOperands (by simp)

lemma rename_rename (σ τ : Id → Id) (x : Payload) : (x.rename τ).rename σ = x.rename (σ ∘ τ) := by
  unfold rename
  rw [operands_withOperands (by simp), withOperands_withOperands (by simp) (by simp), List.map_map]

lemma call_of_rename {x : Payload} {σ : Id → Id} {callee : Int} {args : List Id}
    (h : x.rename σ = .call callee args) : ∃ args', x = .call callee args' := by
  cases x with
  | call k args' =>
    obtain ⟨rfl, -⟩ := Payload.call.inj h
    exact ⟨args', rfl⟩
  | _ => cases h

lemma rename_of_fixed {σ : Id → Id} {x : Payload} (h : ∀ op ∈ x.operands, σ op = op) :
    x.rename σ = x := by
  have : x.operands.map σ = x.operands := by
    conv_rhs => rw [← List.map_id x.operands]
    exact List.map_congr_left h
  rw [rename, this, withOperands_operands]

end Payload

namespace Func

/-- The slot with a number. -/
def at? (f : Func) (id : Id) : Option Slot := (f.slot id).toOption

/-- The payload of a slot that was not erased. -/
def live? (f : Func) (id : Id) : Option Payload :=
  (f.at? id).bind fun s => if s.dead then none else some s.payload

/-- The code of a block. -/
def listing? (f : Func) (b : BlockId) : Option (List Id) := (f.code b).toOption.map Array.toList

/-- How many operands of `u` are `d`. -/
def uses (f : Func) (u d : Id) : Nat := ((f.live? u).map (·.operands.count d)).getD 0

variable {f g : Func} {id : Int} {b : Int} {s : Slot}

lemma slot_eq_ok : f.slot id = .ok s ↔ f.at? id = some s := by
  unfold at?
  cases f.slot id <;> simp [Except.toOption]

lemma at?_eq : f.at? id = if 0 ≤ id then f.slots[id.toNat]? else none := by
  cases id with
  | ofNat n =>
    simp only [at?, slot, lookup]
    cases h : f.slots[n]? <;> simp [h, Except.toOption]
  | negSucc n => simp [at?, slot, lookup, Except.toOption]

lemma at?_isSome : (f.at? id).isSome ↔ 0 ≤ id ∧ id < f.slots.size := by
  rw [at?_eq]
  by_cases h : 0 ≤ id
  · simp only [h, if_true, true_and, isSome_getElem?]
    omega
  · simp [h]

lemma code_eq_ok {c : Array Id} : f.code b = .ok c ↔ f.listing? b = some c.toList := by
  unfold listing?
  cases f.code b with
  | error e => simp [Except.toOption]
  | ok d =>
    simp only [Except.ok.injEq, Except.toOption, Option.map_some, Option.some.injEq]
    exact ⟨fun h => by rw [h], fun h => Array.toList_inj.mp h⟩

lemma listing?_eq : f.listing? b = if 0 ≤ b then f.blocks[b.toNat]?.map Array.toList else none := by
  cases b with
  | ofNat n =>
    simp only [listing?, code, lookup]
    cases h : f.blocks[n]? <;> simp [h, Except.toOption]
  | negSucc n => simp [listing?, code, lookup, Except.toOption]

lemma listing?_isSome {b : Int} : (f.listing? b).isSome ↔ 0 ≤ b ∧ b < f.blocks.size := by
  rw [listing?_eq]
  by_cases h : 0 ≤ b
  · simp only [h, if_true, Option.isSome_map, isSome_getElem?, true_and]
    omega
  · simp [h]

lemma live?_eq_some {x : Payload} :
    f.live? id = some x ↔ ∃ s, f.at? id = some s ∧ s.dead = false ∧ s.payload = x := by
  unfold live?
  cases f.at? id with
  | none => simp
  | some s => by_cases h : s.dead <;> simp [h]

lemma payload_eq_ok {x : Payload} :
    f.payload id = .ok x ↔ ∃ s, f.at? id = some s ∧ s.payload = x := by
  unfold payload at?
  cases f.slot id <;> simp [Except.toOption]

lemma payload_of_live {x : Payload} (h : f.live? id = some x) : f.payload id = .ok x := by
  obtain ⟨s, hs, -, rfl⟩ := live?_eq_some.mp h
  exact payload_eq_ok.mpr ⟨s, hs, rfl⟩

lemma refs_eq_ok {r : List Id} : f.refs id = .ok r ↔ ∃ s, f.at? id = some s ∧ s.refs = r := by
  unfold refs at?
  cases f.slot id <;> simp [Except.toOption]

lemma refs_of_at? (h : f.at? id = some s) : f.refs id = .ok s.refs := refs_eq_ok.mpr ⟨s, h, rfl⟩

/-- Change a slot. -/
def amend (f : Func) (id : Id) (g : Slot → Slot) : Func :=
  { f with slots := f.slots.modify id.toNat g }

/-- Change the code of a block. -/
def recode (f : Func) (b : BlockId) (g : Array Id → Array Id) : Func :=
  { f with blocks := f.blocks.modify b.toNat g }

lemma updateSlot_eq (h : f.at? id = some s) (g : Slot → Slot) :
    f.updateSlot id g = .ok (f.amend id g) := by
  unfold updateSlot
  rw [slot_eq_ok.mpr h]
  rfl

lemma updateSlot_eq_ok {g : Slot → Slot} {f' : Func} :
    f.updateSlot id g = .ok f' ↔ (f.at? id).isSome ∧ f' = f.amend id g := by
  cases h : f.at? id with
  | some s => simp [updateSlot_eq h, eq_comm]
  | none =>
    unfold updateSlot
    cases hs : f.slot id with
    | ok s => rw [slot_eq_ok.mp hs] at h; simp at h
    | error e => simp

lemma updateCode_eq_ok {g : Array Id → Array Id} {f' : Func} :
    f.updateCode b g = .ok f' ↔ (f.listing? b).isSome ∧ f' = f.recode b g := by
  unfold updateCode
  cases h : f.code b with
  | ok c =>
    rw [code_eq_ok.mp h]
    simp [recode, eq_comm]
  | error e => simp [listing?, h, Except.toOption]

lemma nonneg_of_at? (h : f.at? id = some s) : 0 ≤ id :=
  (at?_isSome.mp (by rw [h]; rfl)).1

lemma at?_amend (h : 0 ≤ id) (g : Slot → Slot) (j : Int) :
    (f.amend id g).at? j = if j = id then (f.at? j).map g else f.at? j := by
  rw [at?_eq, at?_eq]
  by_cases hj : 0 ≤ j
  · simp only [hj, if_true, amend, Array.getElem?_modify]
    by_cases hji : j = id
    · simp [hji]
    · have : id.toNat ≠ j.toNat := by omega
      simp [hji, this]
  · have : j ≠ id := by omega
    simp [hj, this]

@[simp] lemma listing?_amend (g : Slot → Slot) (b : BlockId) :
    (f.amend id g).listing? b = f.listing? b := rfl

@[simp] lemma at?_recode (g : Array Id → Array Id) (j : Int) :
    (f.recode b g).at? j = f.at? j := rfl

lemma listing?_recode (h : 0 ≤ b) (g : Array Id → Array Id) (c : Int) :
    (f.recode b g).listing? c =
      if c = b then (f.listing? c).map (fun l => (g l.toArray).toList) else f.listing? c := by
  rw [listing?_eq, listing?_eq]
  by_cases hc : 0 ≤ c
  · simp only [hc, if_true, recode, Array.getElem?_modify]
    by_cases hcb : c = b
    · subst hcb
      cases f.blocks[c.toNat]? <;> simp
    · have : b.toNat ≠ c.toNat := by omega
      simp [hcb, this]
  · have : c ≠ b := by omega
    simp [hc, this]

end Func

end Accumulator.Flow
