import Mathlib
import Accumulator.Proofs.Placing
import Accumulator.Proofs.Straight

/-!
# Frames tile the memory

Frames are given out first, in the order of the declarations, and cells for return addresses later, in
the order of the code. All ranges together cover the memory without overlap, as long as there are fewer
than 2^63 cells.
-/

namespace Accumulator

namespace Flow

/-- The number of cells that a function takes: those of its variables, at least one for each, and one
for the return address. -/
def Func.cellCount (f : Func) : Nat :=
  ((f.locals ++ f.params).map fun v => ((f.varOf? v).map fun w => max 1 w.size.toNat).getD 0).sum +
    if f.isMain then 0 else 1

def Program.cellCount (p : Program) (ids : List Nat) : Nat :=
  (ids.map fun k => ((p.funcs[k]?).map Func.cellCount).getD 0).sum

end Flow

namespace Layout

open Accumulator.Flow (Id)

variable {p : Flow.Program} {frames : Frames} {f : Flow.Func} {g : Func} {n n' main : Nat}
  {l : List Cells} {ids : List Nat} {codes : List (Nat × FuncCode)} {q : Program}

/-- The addresses of a range of cells. -/
def Cells.range (c : Cells) : Set Int := Set.Ico c.addr.toInt (c.addr.toInt + c.size)

lemma Consecutive.tiles (h : Consecutive n l n') (hn : n' < 2 ^ 63) :
    (l.map Cells.range).Pairwise Disjoint ∧
      ∀ a : Int, (∃ c ∈ l, a ∈ c.range) ↔ a ∈ Set.Ico (n : Int) n' := by
  induction h with
  | nil => simp
  | @cons n n' s c l haddr hsize hpos hrest ih =>
    obtain ⟨hdisjoint, hcover⟩ := ih hn
    have hend := hrest.end_eq
    have hrange : c.range = Set.Ico (n : Int) ((n + s : Nat) : Int) := by
      rw [Cells.range, haddr, hsize, Int64.toInt_ofNat_of_lt (by omega), Nat.cast_add]
    constructor
    · rw [List.map_cons, List.pairwise_cons, List.forall_mem_map]
      refine ⟨fun d hd => Set.disjoint_left.mpr fun a ha had => ?_, hdisjoint⟩
      have hbehind := (hcover a).mp ⟨d, hd, had⟩
      rw [hrange, Set.mem_Ico] at ha
      rw [Set.mem_Ico] at hbehind
      omega
    · intro a
      simp only [List.mem_cons, exists_eq_or_imp, hcover, hrange, Set.mem_Ico]
      omega

/-- The cells of a function: one range for each of its variables, and a cell for the return address
unless it is a main program. -/
structure Houses (f : Flow.Func) (g : Func) : Prop where
  name : g.name = f.name
  frame : List.Forall₂ (Accommodates f) (f.locals ++ f.params) g.frame
  ret : g.ret.map (·.size) = if f.isMain then none else some 1

lemma Houses.cellCount (h : Houses f g) :
    (g.frame.map (·.size.toNat)).sum + (g.ret.map (·.size.toNat)).getD 0 = f.cellCount := by
  have hframe : ((f.locals ++ f.params).map fun v =>
      ((f.varOf? v).map fun w => max 1 w.size.toNat).getD 0) = g.frame.map (·.size.toNat) := by
    refine map_eq_map_of_forall₂ h.frame ?_
    rintro v c ⟨w, hw, hsize, -⟩
    rw [hw, hsize]
    rfl
  have hret : (g.ret.map (·.size.toNat)).getD 0 = if f.isMain then 0 else 1 := by
    have := congrArg (Option.map Int.toNat) h.ret
    rw [Option.map_map] at this
    rw [show (fun c : Cells => c.size.toNat) = Int.toNat ∘ fun c => c.size from rfl, this]
    cases f.isMain <;> rfl
  rw [hret, Flow.Func.cellCount, hframe]

lemma LaidOut.houses (h : LaidOut p ids main frames codes q) (hids : ids.Nodup) :
    List.Forall₂ (fun k g => ∃ f, p.funcs[k]? = some f ∧ Houses f g) (mainFirst p ids) q.funcs := by
  obtain ⟨next, hframes, hchosen⟩ := h.parts
  obtain ⟨hkeys, hvars⟩ := buildFrames_keys hframes
  obtain ⟨-, hsuits⟩ := buildFrames_consecutive (n := 0) hframes
  rw [← h.numbers, h.funcs, List.forall₂_map_left_iff, List.forall₂_map_right_iff, List.forall₂_same]
  intro e he
  obtain ⟨f, after, hf, hcoded⟩ := hchosen.coded.2 e he
  have hmem : e.2.number ∈ frames.map Prod.fst := by
    rw [hkeys, ← (h.mainFirst_perm hids).mem_iff, ← h.numbers]
    exact List.mem_map.mpr ⟨e, he, rfl⟩
  obtain ⟨⟨k, frame⟩, hframe, hk⟩ := List.mem_map.mp hmem
  obtain rfl : k = e.2.number := hk
  obtain ⟨f', hf', hnames⟩ := hvars _ _ hframe
  obtain rfl : f = f' := Option.some.inj (hf.symm.trans hf')
  refine ⟨f, hf, hcoded.name, ?_, ?_⟩
  · have hown : frames.frame e.2.number = frame := Frames.frame_of_mem (by rwa [hkeys]) hframe
    rw [← hnames, hown, List.forall₂_map_left_iff, List.forall₂_map_right_iff, List.forall₂_same]
    intro d hd
    obtain ⟨f', hf', hsuit⟩ := hsuits e.2.number d.1 d.2
      (List.mem_flatMap.mpr ⟨_, hframe, List.mem_map.mpr ⟨d, hd, rfl⟩⟩)
    obtain rfl : f = f' := Option.some.inj (hf.symm.trans hf')
    exact hsuit
  · have hret : e.2.ret = retCell f after := hcoded.ret
    rw [hret, retCell]
    cases f.isMain <;> rfl

lemma LaidOut.cellCount_eq (h : LaidOut p ids main frames codes q) (hids : ids.Nodup) :
    q.cellCount = p.cellCount ids := by
  rw [Flow.Program.cellCount, ← ((h.mainFirst_perm hids).map _).sum_eq, Program.cellCount]
  refine congrArg List.sum (map_eq_map_of_forall₂ (h.houses hids) ?_).symm
  rintro k g ⟨f, hf, hhouses⟩
  rw [hf, hhouses.cellCount]
  rfl

/-- In a program of different functions, made by edits, the ranges of all variables and return
addresses do not overlap and cover the memory. Each variable has one of them, and it holds an address
if the variable is by reference. -/
theorem frames_tile_memory (hids : ids.Nodup)
    (hmade : ∀ k ∈ ids, ∃ f, p.funcs[k]? = some f ∧ f.Made)
    (hcells : p.cellCount ids < 2 ^ 63) (h : (lowerOnly p ids).run = .ok (.ok q)) :
    List.Forall₂ (fun k g => ∃ f, p.funcs[k]? = some f ∧ (f.locals ++ f.params).Nodup ∧ Houses f g)
        (mainFirst p ids) q.funcs ∧
      (mainFirst p ids).Perm ids ∧ (q.cells.map Cells.range).Pairwise Disjoint ∧
      ∀ a : Int, (∃ c ∈ q.cells, a ∈ c.range) ↔ a ∈ Set.Ico 0 q.memory.toInt := by
  obtain ⟨main, frames, codes, hlaid⟩ := lowerOnly_eq_ok.mp h
  have hperm := hlaid.mainFirst_perm hids
  obtain ⟨hconsecutive, hmemory⟩ := hlaid.consecutive hids
  have hcount : q.cellCount < 2 ^ 63 := by rwa [hlaid.cellCount_eq hids]
  obtain ⟨hdisjoint, hcover⟩ := hconsecutive.tiles hcount
  have hcellsPerm := hlaid.cells_perm hids
  refine ⟨?_, hperm, ?_, fun a => ?_⟩
  · have hdistinct : ∀ k ∈ mainFirst p ids, ∃ f, p.funcs[k]? = some f ∧ f.Made :=
      fun k hk => hmade k (hperm.mem_iff.mp hk)
    refine ((List.forall₂_and_left _ _).mpr ⟨hdistinct, hlaid.houses hids⟩).imp ?_
    rintro k g ⟨⟨f, hf, hmade⟩, f', hf', hhouses⟩
    obtain rfl : f = f' := Option.some.inj (hf.symm.trans hf')
    exact ⟨f, hf, hmade.nodup_vars, hhouses⟩
  · exact ((hcellsPerm.map Cells.range).pairwise_iff fun h => h.symm).mpr hdisjoint
  · rw [hmemory, Int64.toInt_ofNat_of_lt hcount]
    simp only [hcellsPerm.mem_iff]
    exact hcover a

/-- A procedure with a table of three numbers and a reference. -/
def tabulate : Flow.Func :=
  { name := "tabulate"
    locals := [0]
    params := [1]
    entry := 0
    blocks := #[#[2]]
    slots := #[
      { payload := .var { name := "t", kind := .localVar, size := 3 } },
      { payload := .var { name := "x", kind := .param, size := 1, byRef := true } },
      { payload := .ret, block := 0 }] }

/-- A main program that passes a variable without a size. -/
def tabulating : Flow.Func :=
  { name := "main"
    isMain := true
    locals := [0]
    entry := 0
    blocks := #[#[1, 2]]
    slots := #[
      { payload := .var { name := "n", kind := .localVar, size := 0 }, refs := [1] },
      { payload := .call 0 [0], block := 0 },
      { payload := .stop, block := 0 }] }

lemma tabulate_made : tabulate.Made :=
  (((Flow.Func.Made.empty "tabulate" false {}).newBlock.newVars
    [{ name := "t", kind := .localVar, size := 3 },
      { name := "x", kind := .param, size := 1, byRef := true }]).entry 0).emit
    (show Flow.Func.emit _ 0 [.ret] = .ok tabulate by decide)

lemma tabulating_made : tabulating.Made :=
  Flow.Func.Made.straight [{ name := "n", kind := .localVar, size := 0 }] [.call 0 [0], .stop] (by decide)

/-- The table comes first, then the reference, the variable of the main program and the return
address. -/
theorem tabulating_frames_tile_memory :
    ∃ q, lower ⟨#[tabulate, tabulating]⟩ = .ok (.ok q) ∧ q.memory = 6 ∧
      q.cells = [⟨"n", 4, 1, false⟩, ⟨"t", 0, 3, false⟩, ⟨"x", 3, 1, true⟩, ⟨"ret", 5, 1, false⟩] ∧
      (q.cells.map Cells.range).Pairwise Disjoint ∧
      ∀ a : Int, (∃ c ∈ q.cells, a ∈ c.range) ↔ a ∈ Set.Ico 0 6 := by
  obtain ⟨q, hq, hmemory, hcells⟩ : ∃ q, lower ⟨#[tabulate, tabulating]⟩ = .ok (.ok q) ∧
      q.memory = 6 ∧ q.cells =
        [⟨"n", 4, 1, false⟩, ⟨"t", 0, 3, false⟩, ⟨"x", 3, 1, true⟩, ⟨"ret", 5, 1, false⟩] :=
    exists_ok_of_test (by cbv)
  have hmade : ∀ k ∈ List.range 2,
      ∃ f, (#[tabulate, tabulating] : Array Flow.Func)[k]? = some f ∧ f.Made := by
    intro k hk
    have hk := List.mem_range.mp hk
    interval_cases k
    · exact ⟨_, rfl, tabulate_made⟩
    · exact ⟨_, rfl, tabulating_made⟩
  obtain ⟨-, -, hdisjoint, hcover⟩ := frames_tile_memory List.nodup_range hmade (by decide) hq
  rw [hmemory] at hcover
  exact ⟨q, hq, hmemory, hcells, hdisjoint, hcover⟩

end Layout

end Accumulator
