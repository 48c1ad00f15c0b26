import Mathlib
import Accumulator.Proofs.Compiling
import Accumulator.Proofs.ListingRoundTrip
import Accumulator.Proofs.Placing

/-!
# Jumps of machine programs

Every jump of a program that was laid out leads to one of its instructions. Inside a recipe this is a
matter of the recipe; blocks and functions have some code, so that their places are in the program.
-/

namespace Accumulator.Layout

open Machine (Reg Instr)
open Accumulator.Flow (Id BlockId Payload)

/-- A known operation with a known register, which is the accumulator if it has none. Just the jumps
lead somewhere. -/
def Item.isSound (it : Item) : Bool :=
  decide (it.op ∈ Machine.Op.all) && decide (it.reg ∈ Reg.all) && (it.op.hasReg || it.reg == .a) &&
    it.op.isJump == (it.target != .nowhere)

/-- Whether an item at place `i` of `n` is sound and, inside a recipe, does not lead out of them. -/
def Item.staysIn (n i : Nat) (it : Item) : Bool :=
  it.isSound &&
    match it.target with
    | .within d => decide (0 ≤ i + d ∧ i + d < n)
    | _ => true

/-- Code whose recipes are complete. -/
def Complete (l : List Item) : Prop :=
  ∀ (i : Nat) (it : Item), l[i]? = some it → it.staysIn l.length i = true

variable {l m : List Item} {it : Item}

lemma Item.isSound_iff : it.isSound = true ↔
    it.op ∈ Machine.Op.all ∧ it.reg ∈ Reg.all ∧ (it.op.hasReg = false → it.reg = .a) ∧
      (it.op.isJump = true ↔ it.target ≠ .nowhere) := by
  unfold Item.isSound
  cases it.op.hasReg <;> cases it.op.isJump <;> simp [and_assoc]

lemma complete_of_all (h : l.zipIdx.all (fun (it, i) => it.staysIn l.length i) = true) : Complete l := by
  intro i it hi
  exact List.all_eq_true.mp h (it, i) (List.mem_zipIdx_iff_getElem?.mpr hi)

lemma Item.staysIn_add {n i : Nat} (h : it.staysIn n i = true) (j k : Nat) :
    it.staysIn (j + n + k) (j + i) = true := by
  unfold Item.staysIn at h ⊢
  rw [Bool.and_eq_true] at h ⊢
  refine ⟨h.1, ?_⟩
  have hrest := h.2
  split at hrest
  · simp only [decide_eq_true_eq, Nat.cast_add] at hrest ⊢
    omega
  · rfl

lemma Complete.append (hl : Complete l) (hm : Complete m) : Complete (l ++ m) := by
  intro i it hi
  rw [List.length_append]
  rcases Nat.lt_or_ge i l.length with hlt | hge
  · rw [List.getElem?_append_left hlt] at hi
    have := Item.staysIn_add (hl i it hi) 0 m.length
    rwa [Nat.zero_add, Nat.zero_add] at this
  · rw [List.getElem?_append_right hge] at hi
    have := Item.staysIn_add (hm _ it hi) l.length 0
    rwa [Nat.add_zero, Nat.add_sub_cancel' hge] at this

lemma Complete.flatten {parts : List (List Item)} (h : ∀ l ∈ parts, Complete l) : Complete parts.flatten := by
  induction parts with
  | nil =>
    intro i it hi
    cases hi
  | cons l parts ih =>
    rw [List.flatten_cons]
    exact (h l (by simp)).append (ih fun m hm => h m (by simp [hm]))

lemma complete_of_straight (h : ∀ it ∈ l, it.isSound = true ∧ it.target = .nowhere) : Complete l := by
  intro i it hi
  obtain ⟨hsound, htarget⟩ := h it (List.mem_of_getElem? hi)
  rw [Item.staysIn, hsound, htarget]
  rfl

lemma complete_constant (w : UInt64) {r : Reg} (hr : r ∈ Reg.all) : Complete (constant w r) := by
  have hsound : ∀ r ∈ Reg.all, ∀ op ∈ [Machine.Op.rst, .shl, .inc],
      ({ op := op, reg := r } : Item).isSound = true := by decide
  refine complete_of_straight fun it hit => ?_
  obtain ⟨op, hop, rfl⟩ := mem_constant hit
  exact ⟨hsound r hr op hop, rfl⟩

lemma complete_argument (q a : Cells) : Complete (Context.argument q a) := by
  have hconst : ∀ (w : UInt64) (r : Reg), r ∈ [Reg.a, .b] → Complete (constant w r) := by
    intro w r hr
    refine complete_constant w ?_
    revert r
    decide
  unfold Context.argument
  split
  · exact (((hconst _ .a (by simp)).append (complete_of_all (by decide))).append
      (hconst _ .b (by simp))).append (complete_of_all (by decide))
  split
  · exact ((hconst _ .b (by simp)).append (hconst _ .a (by simp))).append (complete_of_all (by decide))
  · refine ((((hconst _ .a (by simp)).append (complete_of_all (by decide))).append ?_).append
      (hconst _ .b (by simp))).append (complete_of_all (by decide))
    split <;> exact complete_of_all (by decide)

lemma complete_arithmetic {op : Flow.Op} (h : arithmetic op = .ok l) : Complete l := by
  cases op <;> cases h <;> exact complete_of_all (by decide)

variable {c : Context} {x : Payload}

lemma Context.arguments_complete {k : Int} {params args : List Id}
    (h : c.arguments k params args = .ok l) : Complete l := by
  rw [Context.arguments, bind_eq_ok] at h
  obtain ⟨parts, hparts, h⟩ := h
  cases h
  refine Complete.flatten fun part hpart => ?_
  obtain ⟨e, -, he⟩ := exists_of_forall₂ (mapM_eq_ok.mp hparts) hpart
  simp only [bind_eq_ok] at he
  obtain ⟨q, -, a, -, he⟩ := he
  cases he
  exact complete_argument q a

lemma SelfContained.complete (h : SelfContained l) : Complete l := by
  cases h with
  | fixed hl =>
    have hfixed : ∀ l ∈ fixedCode, l.zipIdx.all (fun (it, i) => it.staysIn l.length i) = true := by
      decide
    exact complete_of_all (hfixed l hl)
  | recipe hl => exact complete_arithmetic hl
  | around before w hmem =>
    have hsides : ∀ s ∈ surroundings, s.2.1 ∈ Reg.all ∧
        s.1.zipIdx.all (fun (it, i) => it.staysIn s.1.length i) = true ∧
        s.2.2.zipIdx.all (fun (it, i) => it.staysIn s.2.2.length i) = true := by decide
    obtain ⟨hr, hbefore, hafter⟩ := hsides _ hmem
    exact ((complete_of_all hbefore).append (complete_constant w hr)).append (complete_of_all hafter)

lemma Context.select_complete (h : c.select x = .ok l) : Complete l := by
  cases x with
  | call k args =>
    rw [Context.select, Context.call, bind_eq_ok] at h
    obtain ⟨g, -, h⟩ := h
    split at h
    · cases h
    · rw [bind_eq_ok] at h
      obtain ⟨l, hl, h⟩ := h
      cases h
      exact (Context.arguments_complete hl).append (complete_of_all rfl)
  | branch t =>
    cases h
    exact complete_of_all rfl
  | branchIf test d t e =>
    cases h
    cases test <;> exact complete_of_all rfl
  | _ => exact (Context.select_selfContained h rfl (by simp)).complete

lemma map_item_locate (loc : Position) (l : List Item) : (locate loc l).map (·.item) = l := by
  rw [locate, List.map_map]
  exact List.map_id _

lemma Context.block_complete {b : BlockId} {ids : List Id} {code : List Located}
    (hl : c.func.listing? b = some ids) (h : c.block b = .ok code) : Complete (code.map (·.item)) := by
  obtain ⟨-, parts, hparts, rfl⟩ := (Context.block_eq_ok hl).mp h
  rw [List.map_flatten]
  refine Complete.flatten fun l hmem => ?_
  obtain ⟨part, hpart, rfl⟩ := List.mem_map.mp hmem
  obtain ⟨i, -, s, items, -, hitems, rfl⟩ := exists_of_forall₂ hparts hpart
  rw [map_item_locate]
  exact Context.select_complete hitems

lemma Selected.complete {code : FuncCode} (h : Selected c code) (hw : c.func.WellFormed) :
    Complete (code.items.map (·.item)) := by
  rw [FuncCode.items, List.map_append, h.opening, map_item_locate]
  refine Complete.append ?_ ?_
  · unfold openingOf
    split
    · exact complete_of_all (by decide)
    · exact (complete_constant _ (by decide)).append (complete_of_all (by decide))
  · rw [List.map_flatMap]
    refine Complete.flatten fun l hmem => ?_
    obtain ⟨⟨b, part⟩, hb, rfl⟩ := List.mem_map.mp hmem
    obtain ⟨ids, hids, -⟩ := hw.closes ((h.mem b).mp (List.mem_map.mpr ⟨_, hb, rfl⟩))
    exact Context.block_complete hids (h.code b part hb)

section Program

variable {p : Flow.Program} {frames : Frames} {codes : List (Nat × FuncCode)} {e : Nat × FuncCode}
  {q : Program} {main : Nat}

lemma Chosen.end_le {start : Nat} {ids : List Nat} {next final : Int64}
    (h : Chosen p frames start next ids codes final) {L : Nat × FuncCode → List Placed}
    (hL : ∀ e, (L e).length = e.2.items.length) (he : e ∈ codes) :
    e.1 + e.2.items.length ≤ start + (codes.flatMap L).length ∧ 0 < e.2.items.length := by
  induction h with
  | nil => cases he
  | @cons start k next after final ids c codes _ hpos _ ih =>
    have hlen : (L (start, c)).length = c.items.length := hL (start, c)
    rw [List.flatMap_cons, List.length_append, hlen]
    rcases List.mem_cons.mp he with rfl | he
    · exact ⟨by dsimp only; omega, Nat.pos_of_ne_zero hpos⟩
    · obtain ⟨hle, hpos⟩ := ih he
      exact ⟨by omega, hpos⟩

lemma Laid.end_le (h : Laid p main frames codes q) (he : e ∈ codes) :
    e.1 + e.2.items.length ≤ q.code.size ∧ 0 < e.2.items.length := by
  obtain ⟨next, -, hchosen⟩ := h.parts
  rw [h.code, List.size_toArray]
  have := hchosen.end_le (L := fun e => placeItems (blockStarts codes) (funcStarts codes) e.1 e.2)
    (fun e => by simp [placeItems]) he
  rwa [Nat.zero_add] at this

lemma mem_of_lookup {α β : Type} [BEq α] [LawfulBEq α] {l : List (α × β)} {a : α} {b : β}
    (h : l.lookup a = some b) : (a, b) ∈ l := by
  obtain ⟨l₁, l₂, rfl, -⟩ := List.lookup_eq_some_iff.mp h
  simp

lemma forM_eq_ok {α : Type} {l : List α} {f : α → Except Fault Unit} (h : l.forM f = .ok ()) :
    ∀ a ∈ l, f a = .ok () := by
  induction l with
  | nil => simp
  | cons a l ih =>
    change (f a >>= fun _ => l.forM f) = .ok () at h
    obtain ⟨_, ha, hl⟩ := bind_eq_ok.mp h
    exact List.forall_mem_cons.mpr ⟨ha, ih hl⟩

lemma LaidOut.lookup_block {ids : List Nat} (h : LaidOut p ids main frames codes q) (he : e ∈ codes)
    {y : Located} (hy : y ∈ e.2.items) {b : BlockId} (hb : y.item.target = .block b) :
    ∃ t, (blockStarts codes).lookup (e.2.number, b) = some t := by
  have hcheck := forM_eq_ok (h.blocks e he) y hy
  rw [hb] at hcheck
  dsimp only at hcheck
  split at hcheck
  · next hsome => exact Option.isSome_iff_exists.mp hsome
  · cases hcheck

lemma LaidOut.lookup_func {ids : List Nat} (h : LaidOut p ids main frames codes q) (he : e ∈ codes)
    {y : Located} (hy : y ∈ e.2.items) {k : Int} (hk : y.item.target = .func k) :
    ∃ t, (funcStarts codes).lookup k.toNat = some t := by
  have hcheck := forM_eq_ok (h.calls e he) y hy
  rw [hk] at hcheck
  dsimp only at hcheck
  split at hcheck
  · next hsome => exact Option.isSome_iff_exists.mp hsome
  · rw [bind_eq_ok] at hcheck
    obtain ⟨_, -, hcheck⟩ := hcheck
    cases hcheck

lemma startsFrom_le {b : BlockId} {start t : Nat} {blocks : List (BlockId × List Located)}
    (h : (b, t) ∈ FuncCode.startsFrom start blocks) :
    ∃ code, (b, code) ∈ blocks ∧ t + code.length ≤ start + (blocks.flatMap (·.2)).length := by
  induction blocks generalizing start with
  | nil => cases h
  | cons d blocks ih =>
    obtain ⟨d, code⟩ := d
    rw [List.flatMap_cons, List.length_append]
    rcases List.mem_cons.mp h with heq | h
    · cases heq
      exact ⟨code, by simp, by dsimp only; omega⟩
    · obtain ⟨code', hmem, hle⟩ := ih h
      exact ⟨code', by simp [hmem], by dsimp only at hle ⊢; omega⟩

lemma Laid.func_lt (h : Laid p main frames codes q) {n t : Nat} (ht : (n, t) ∈ funcStarts codes) : t < q.code.size := by
  rw [funcStarts, List.mem_reverse] at ht
  obtain ⟨e, he, heq⟩ := List.mem_map.mp ht
  cases heq
  have := h.end_le he
  omega

section Target

variable (h : Laid p main frames codes q)
  (hf : ∀ {k : Nat} {f}, p.funcs[k]? = some f → f.Sound ∧ f.WellFormed)

include h hf

lemma Laid.block_lt {n t : Nat} {b : BlockId} (ht : ((n, b), t) ∈ blockStarts codes) :
    t < q.code.size := by
  rw [blockStarts, List.mem_reverse, List.mem_flatMap] at ht
  obtain ⟨e, he, ht⟩ := ht
  obtain ⟨⟨b, t⟩, hmem, heq⟩ := List.mem_map.mp ht
  cases heq
  obtain ⟨code, hcode, hle⟩ := startsFrom_le hmem
  obtain ⟨f, next, hk, hsel⟩ := (h.selected hf).2 e he
  obtain ⟨ids, hids, -⟩ := (hf hk).2.closes ((hsel.mem b).mp (List.mem_map.mpr ⟨_, hcode, rfl⟩))
  have hne := List.length_pos_of_ne_nil (length_pos_of_block hids (hsel.code b code hcode))
  have hend := (h.end_le he).1
  rw [FuncCode.items, List.length_append] at hend
  omega

lemma Laid.place_lt (he : e ∈ codes) {i : Nat} {y : Located} (hy : e.2.items[i]? = some y)
    (htarget : y.item.target ≠ .nowhere) :
    ∃ t, y.item.target.place? (blockStarts codes) (funcStarts codes) e.2.number (e.1 + i) = some t ∧
      t < q.code.size := by
  have hmem := List.mem_of_getElem? hy
  cases ht : y.item.target with
  | nowhere => exact absurd ht htarget
  | within d =>
    obtain ⟨f, next, hk, hsel⟩ := (h.selected hf).2 e he
    have hstays := hsel.complete (hf hk).2 i y.item (by rw [List.getElem?_map, hy]; rfl)
    rw [Item.staysIn, ht, Bool.and_eq_true, List.length_map, decide_eq_true_eq] at hstays
    have hend := (h.end_le he).1
    exact ⟨_, rfl, by push_cast; omega⟩
  | block b =>
    obtain ⟨t, hlookup⟩ := LaidOut.lookup_block h he hmem ht
    exact ⟨t, hlookup, h.block_lt hf (mem_of_lookup hlookup)⟩
  | func k =>
    obtain ⟨t, hlookup⟩ := LaidOut.lookup_func h he hmem ht
    exact ⟨t, hlookup, h.func_lt (mem_of_lookup hlookup)⟩

/-- The instructions of a program are known ones with just the part that they use, and its jumps
lead to its instructions. -/
theorem Laid.legible {i : Instr} (hi : i ∈ q.resolve.instrs.toList) :
    Listing.Legible q.code.size i ∧ Listing.essential i = i := by
  rw [Program.instrs, Program.resolve, Array.map_map, Array.toList_map, h.code] at hi
  obtain ⟨x, hx, rfl⟩ := List.mem_map.mp hi
  obtain ⟨e, he, hx⟩ := List.mem_flatMap.mp hx
  obtain ⟨⟨y, j⟩, hy, rfl⟩ := List.mem_map.mp hx
  have hy := List.mem_zipIdx_iff_getElem?.mp hy
  obtain ⟨f, next, hk, hsel⟩ := (h.selected hf).2 e he
  have hstays := hsel.complete (hf hk).2 j y.item (by rw [List.getElem?_map, hy]; rfl)
  rw [Item.staysIn, Bool.and_eq_true] at hstays
  obtain ⟨hop, hreg, hplain, hjump⟩ := Item.isSound_iff.mp hstays.1
  by_cases htarget : y.item.target = .nowhere
  · have hnot : y.item.op.isJump = false := by simpa [htarget] using hjump
    simp only [Function.comp, htarget, Target.place?]
    refine ⟨⟨hop, fun _ => hreg, fun hj => ?_⟩, ?_⟩
    · rw [hnot] at hj
      cases hj
    · rw [Listing.essential, hnot]
      cases hhas : y.item.op.hasReg with
      | true => rfl
      | false => rw [hplain hhas]; rfl
  · have hj : y.item.op.isJump = true := hjump.mpr htarget
    have hhas : y.item.op.hasReg = false := by
      cases hcase : y.item.op <;> rw [hcase] at hj <;> first | rfl | cases hj
    obtain ⟨t, ht, hlt⟩ := h.place_lt hf he hy htarget
    simp only [Function.comp, ht]
    refine ⟨⟨hop, fun _ => hreg, fun _ => ⟨Int.natCast_nonneg t, Int.ofNat_lt.mpr hlt⟩⟩, ?_⟩
    rw [Listing.essential, if_pos hj, hplain hhas]

end Target

end Program

end Accumulator.Layout

namespace Accumulator.Compile

variable {o : Options} {p : Flow.Program} {r : Result}

lemma Compiled.legible (hc : Compiled o p r) {i : Machine.Instr} (hi : i ∈ r.program.instrs.toList) :
    Listing.Legible r.program.code.size i ∧ Listing.essential i = i := by
  obtain ⟨q, hq, hprogram⟩ := hc.program
  obtain ⟨main, frames, codes, hlaid⟩ := Layout.lower_eq_ok.mp hq
  have hsize : q.resolve.code.size = q.code.size := by simp [Layout.Program.resolve]
  rw [hprogram] at hi ⊢
  rw [hsize]
  refine hlaid.legible (fun hf => ?_) hi
  have htidy := hc.placeable.tidy hf
  exact ⟨htidy.sound, htidy.wellFormed⟩

end Accumulator.Compile
