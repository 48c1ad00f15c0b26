import Mathlib
import Accumulator.Proofs.Made
import Accumulator.Proofs.WellFormed

/-!
# Functions of one block

Variables and straight code are enough for examples of what the passes do. Such a function is made by
edits, and walks over it visit its one block.
-/

namespace Accumulator.Flow

open Func

variable {f f' : Func}

/-- Put new instructions at the end of a block. -/
def Func.emit (f : Func) (b : BlockId) : List Payload → Except Fault Func
  | [] => .ok f
  | x :: rest => do
    let (i, f) ← f.new {} x
    (← f.append b i).emit b rest

/-- A main function with the given variables and one block of code. -/
def Func.straight (vars : List Variable) (code : List Payload) : Except Fault Func :=
  let f : Func := { name := "main", isMain := true }
  let f := vars.foldl (fun f v => (f.newVar {} v).2) f.newBlock.2
  Func.emit { f with entry := 0 } 0 code

lemma Func.Made.emit {b : BlockId} {code : List Payload} (hf : Made f) (h : f.emit b code = .ok f') :
    Made f' := by
  induction code generalizing f with
  | nil => exact Except.ok.inj h ▸ hf
  | cons x rest ih =>
    rw [Func.emit, bind_eq_ok] at h
    obtain ⟨⟨i, g⟩, hnew, h⟩ := h
    rw [bind_eq_ok] at h
    obtain ⟨g', happend, h⟩ := h
    exact ih ((hf.new hnew).append happend) h

lemma Func.Made.newVars (hf : Made f) (vars : List Variable) :
    Made (vars.foldl (fun f v => (f.newVar {} v).2) f) := by
  induction vars generalizing f with
  | nil => exact hf
  | cons v rest ih => exact ih (hf.newVar {} v)

lemma Func.Made.straight (vars : List Variable) (code : List Payload)
    (h : Func.straight vars code = .ok f) : Made f :=
  (((Made.empty "main" true {}).newBlock.newVars vars).entry 0).emit h

lemma walkFrom_single {σ : Type} {n : Nat} {next : σ → BlockId → Except Fault (List BlockId)}
    {visit : σ → BlockId → Except Fault σ} {s s' : σ} (hn : 0 < n) (hvisit : visit s 0 = .ok s')
    (hnext : next s' 0 = .ok []) : walkFrom n next visit [] s [0] = .ok (s', [0]) := by
  change walkFrom n next visit [] s [.ofNat 0] = _
  rw [walkFrom]
  have hv : visit s (.ofNat 0) = .ok s' := hvisit
  have hx : next s' (.ofNat 0) = .ok [] := hnext
  simp only [hv, hx, hn, List.not_mem_nil, dite_true, dite_false, List.nil_append]
  rw [walkFrom]
  rfl

lemma reachable_single (hentry : f.entry = 0) (hsize : 0 < f.blocks.size)
    (hnext : f.successors 0 = .ok []) : f.reachable = .ok [0] := by
  have hwalk : walkFrom f.blocks.size (fun _ b => f.successors b) (fun _ _ => .ok ()) [] () [0] =
      .ok ((), [0]) := walkFrom_single hsize rfl hnext
  rw [reachable, hentry]
  exact congrArg (fun x => x >>= fun v => .ok v.2.reverse) hwalk

lemma verify_single (hentry : f.entry = 0) (hsize : 0 < f.blocks.size)
    (hnext : f.successors 0 = .ok [])
    (hcheck : Check.Passes (do
      [0].forM f.checkBlock
      f.slots.toList.zipIdx.forM fun (s, id) => f.checkSlot [0] id s) ()) :
    f.verify = .ok (.ok ()) := by
  change Check.Passes f.check ()
  unfold check
  rw [Check.passes_guard, Check.passes_bind]
  exact ⟨by rw [hentry]; decide, [0], Check.passes_lift.mpr (reachable_single hentry hsize hnext),
    hcheck⟩

lemma forall_live {P : Id → Payload → Prop}
    (h : ∀ k < f.slots.size, ∀ x ∈ f.live? (k : Int), P k x) {u : Id} {x : Payload}
    (hx : f.live? u = some x) : P u x := by
  obtain ⟨hnn, hlt⟩ := at?_isSome.mp (at?_isSome_of_live hx)
  obtain ⟨k, rfl⟩ := Int.eq_ofNat_of_zero_le hnn
  exact h k (by simpa using hlt) x hx

end Accumulator.Flow
