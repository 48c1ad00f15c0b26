import Accumulator.Flow.Basic

/-!
# Walking blocks

Blocks are visited depth first from the entry, the successor taken on success before the other,
each block once. A visit may change the function, and the successors of a block are those that it
has after its visit.
-/

namespace Accumulator.Flow

def unvisited (n : Nat) (visited : List BlockId) : List Nat :=
  (List.range n).filter fun k => (k : Int) ∉ visited

theorem unvisited_cons_lt {n k : Nat} {visited : List BlockId} (hk : k < n)
    (hv : (k : Int) ∉ visited) :
    (unvisited n ((k : Int) :: visited)).length < (unvisited n visited).length := by
  obtain ⟨before, after, hsplit⟩ := List.append_of_mem (List.mem_range.mpr hk)
  have hfewer : ∀ l : List Nat, l.countP (fun (a : Nat) => (a : Int) ∉ (k : Int) :: visited) ≤
      l.countP fun (a : Nat) => (a : Int) ∉ visited := by
    intro l
    refine List.countP_mono_left fun a _ ha => ?_
    simp only [List.mem_cons, not_or, decide_eq_true_eq] at ha ⊢
    exact ha.2
  have hbefore := hfewer before
  have hafter := hfewer after
  simp only [unvisited, ← List.countP_eq_length_filter, hsplit, List.countP_append]
  rw [List.countP_cons_of_neg (by simp), List.countP_cons_of_pos (by simpa using hv)]
  omega

/-- Visit the pending blocks and all that can be reached from them through blocks not visited yet.
The list of visited blocks is kept newest first. -/
def walkFrom {σ : Type} (n : Nat) (next : σ → BlockId → Except Fault (List BlockId))
    (visit : σ → BlockId → Except Fault σ) (visited : List BlockId) (s : σ) :
    List BlockId → Except Fault (σ × List BlockId)
  | [] => .ok (s, visited)
  | b :: pending =>
    match b with
    | .negSucc _ => .error (.block b)
    | .ofNat k =>
      if _hv : (k : Int) ∈ visited then walkFrom n next visit visited s pending
      else if _hk : k < n then
        match visit s b with
        | .error e => .error e
        | .ok s' =>
          match next s' b with
          | .error e => .error e
          | .ok succs => walkFrom n next visit ((k : Int) :: visited) s' (succs ++ pending)
      else .error .outOfRange
  termination_by pending => ((unvisited n visited).length, pending.length)
  decreasing_by
    · exact Prod.Lex.right _ (by simp)
    · exact Prod.Lex.left _ _ (unvisited_cons_lt _hk _hv)

namespace Func

/-- Visit the blocks of a function, which each visit may change together with the rest of the
state. -/
def walk {σ : Type} (f : Func) (func : σ → Func) (visit : σ → BlockId → Except Fault σ) (s : σ) :
    Except Fault σ :=
  Prod.fst <$> walkFrom f.blocks.size (fun s b => (func s).successors b) visit [] s [f.entry]

def reachable (f : Func) : Except Fault (List BlockId) := do
  let (_, visited) ← walkFrom f.blocks.size (fun _ b => f.successors b) (fun _ _ => .ok ()) [] ()
    [f.entry]
  return visited.reverse

end Func

end Accumulator.Flow
