import Mathlib
import Accumulator.Proofs.LayingOut
import Accumulator.Proofs.RecipeRuns

/-!
# Places of cells and of code

In a program that was laid out no two cells have the same address, as long as there are fewer than
2^63 of them: neither cells of variables nor those for return addresses. The code of each function
and of each of its blocks stands at the place that jumps to it lead to.
-/

namespace Accumulator.Layout

open Accumulator.Flow (Id BlockId Payload lookup_natCast)

variable {p : Flow.Program} {frames : Frames} {f : Flow.Func} {k n n' : Nat} {b : BlockId}
  {v : Id} {c c' : Cells} {l l' : List Cells} {ids : List Nat}

/-- Ranges of cells that follow one another from address `n` up to `n'`. -/
inductive Consecutive : Nat → List Cells → Nat → Prop where
  | nil {n : Nat} : Consecutive n [] n
  | cons {n n' s : Nat} {c : Cells} {l : List Cells} : c.addr = Int64.ofNat n → c.size = s → 0 < s →
    Consecutive (n + s) l n' → Consecutive n (c :: l) n'

namespace Consecutive

lemma append {n'' : Nat} (h : Consecutive n l n') (h' : Consecutive n' l' n'') :
    Consecutive n (l ++ l') n'' := by
  induction h with
  | nil => exact h'
  | cons haddr hsize hpos _ ih => exact .cons haddr hsize hpos (ih h')

lemma end_eq (h : Consecutive n l n') : n' = n + (l.map (·.size.toNat)).sum := by
  induction h with
  | nil => rfl
  | cons _ hsize _ _ ih =>
    rw [ih, List.map_cons, List.sum_cons, hsize, Int.toNat_natCast, Nat.add_assoc]

lemma between (h : Consecutive n l n') (hc : c ∈ l) :
    ∃ a, c.addr.toUInt64 = UInt64.ofNat a ∧ n ≤ a ∧ a + c.size.toNat ≤ n' ∧ 0 < c.size.toNat := by
  induction h with
  | nil => cases hc
  | @cons n n' s d l haddr hsize hpos hrest ih =>
    have hend := hrest.end_eq
    rcases List.mem_cons.mp hc with rfl | hc
    · refine ⟨n, by rw [haddr, Int64.toUInt64_ofNat'], le_rfl, ?_, ?_⟩ <;>
        rw [hsize, Int.toNat_natCast] <;> omega
    · obtain ⟨a, ha, hle, hlt⟩ := ih hc
      exact ⟨a, ha, by omega, hlt⟩

lemma unique {κ : Type} {l : List (κ × Cells)} (h : Consecutive n (l.map Prod.snd) n')
    (hn : n' ≤ 2 ^ 64) {e e' : κ × Cells} (he : e ∈ l) (he' : e' ∈ l) {i j : Nat}
    (hi : i < e.2.size.toNat) (hj : j < e'.2.size.toNat)
    (heq : e.2.addr.toUInt64 + UInt64.ofNat i = e'.2.addr.toUInt64 + UInt64.ofNat j) :
    e = e' ∧ i = j := by
  generalize hm : l.map Prod.snd = m at h
  have hsame : ∀ {a a' : Nat} {d d' : Cells}, d.addr.toUInt64 = UInt64.ofNat a →
      d'.addr.toUInt64 = UInt64.ofNat a' → a + i < 2 ^ 64 → a' + j < 2 ^ 64 →
      d.addr.toUInt64 + UInt64.ofNat i = d'.addr.toUInt64 + UInt64.ofNat j → a + i = a' + j := by
    intro a a' d d' ha ha' hlt hlt' heq
    rw [ha, ha', ← UInt64.ofNat_add, ← UInt64.ofNat_add] at heq
    have := congrArg UInt64.toNat heq
    rwa [UInt64.toNat_ofNat_of_lt' hlt, UInt64.toNat_ofNat_of_lt' hlt'] at this
  induction h generalizing l with
  | nil =>
    rw [List.map_eq_nil_iff.mp hm] at he
    cases he
  | @cons n n' s d m haddr hsize hpos hrest ih =>
    obtain ⟨x, l, rfl, rfl, rfl⟩ := List.map_eq_cons_iff.mp hm
    have hd : x.2.addr.toUInt64 = UInt64.ofNat n := by rw [haddr, Int64.toUInt64_ofNat']
    have hs : x.2.size.toNat = s := by rw [hsize, Int.toNat_natCast]
    have hend := hrest.end_eq
    have hin : ∀ {y}, y ∈ l → ∃ a, y.2.addr.toUInt64 = UInt64.ofNat a ∧ n + s ≤ a ∧
        a + y.2.size.toNat ≤ n' ∧ 0 < y.2.size.toNat :=
      fun hy => hrest.between (List.mem_map.mpr ⟨_, hy, rfl⟩)
    rcases List.mem_cons.mp he with rfl | hel <;> rcases List.mem_cons.mp he' with rfl | hel'
    · exact ⟨rfl, by have := hsame hd hd (by omega) (by omega) heq; omega⟩
    · obtain ⟨a, ha, hle, hlt, -⟩ := hin hel'
      have := hsame hd ha (by omega) (by omega) heq
      omega
    · obtain ⟨a, ha, hle, hlt, -⟩ := hin hel
      have := hsame ha hd (by omega) (by omega) heq
      omega
    · exact ih hn hel hel' rfl

end Consecutive

lemma allocate_consecutive (n : Nat) (name : Bytes) (size : Int) (indirect : Bool) :
    (allocate (Int64.ofNat n) name size indirect).1.addr = Int64.ofNat n ∧
      (allocate (Int64.ofNat n) name size indirect).1.size = (max 1 size.toNat : Nat) ∧
      (allocate (Int64.ofNat n) name size indirect).2 = Int64.ofNat (n + max 1 size.toNat) := by
  have hsize : (if size < 1 then 1 else size) = ((max 1 size.toNat : Nat) : Int) := by
    split <;> omega
  unfold allocate
  dsimp only
  rw [hsize]
  exact ⟨rfl, rfl, by rw [Int64.ofInt_eq_ofNat, ← Int64.ofNat_add]⟩

/-- The cells of a variable are as many as it has, and hold an address if it is by reference. -/
def Accommodates (f : Flow.Func) (v : Id) (c : Cells) : Prop :=
  ∃ w, f.varOf? v = some w ∧ c.size.toNat = max 1 w.size.toNat ∧ c.indirect = w.byRef

lemma varOf?_of_var? {w : Flow.Variable} (h : f.var? v = .ok (some w)) : f.varOf? v = some w := by
  unfold Flow.Func.var? at h
  split at h
  · cases h
  · rw [bind_eq_ok] at h
    obtain ⟨x, hx, h⟩ := h
    cases x <;> cases h
    rw [Flow.Func.varOf?, hx]

lemma buildFrame_consecutive {vs : List Id} {frame : Frame} {next : Int64}
    (h : buildFrame f (Int64.ofNat n) vs = .ok (frame, next)) :
    (∃ n', next = Int64.ofNat n' ∧ Consecutive n (frame.map Prod.snd) n') ∧
      ∀ e ∈ frame, Accommodates f e.1 e.2 := by
  induction vs generalizing n frame with
  | nil =>
    cases h
    exact ⟨⟨n, rfl, .nil⟩, by simp⟩
  | cons v vs ih =>
    rw [buildFrame, bind_eq_ok] at h
    obtain ⟨o, hvar, h⟩ := h
    cases o with
    | none => cases h
    | some w =>
      obtain ⟨haddr, hsize, hnext⟩ := allocate_consecutive n w.name w.size w.byRef
      simp only [bind_eq_ok] at h
      obtain ⟨⟨rest, after⟩, hrest, h⟩ := h
      cases h
      rw [hnext] at hrest
      obtain ⟨⟨n', rfl, hcons⟩, hall⟩ := ih hrest
      refine ⟨⟨n', rfl, .cons haddr hsize (by omega) hcons⟩, fun e he => ?_⟩
      rcases List.mem_cons.mp he with rfl | he
      · refine ⟨w, varOf?_of_var? hvar, ?_, rfl⟩
        rw [hsize, Int.toNat_natCast]
      · exact hall e he

/-- The cells of all variables with their owners. -/
def Frames.all (fs : Frames) : List ((Nat × Option Id) × Cells) :=
  fs.flatMap fun e => e.2.map fun d => ((e.1, some d.1), d.2)

lemma Frames.mem_frame {fs : Frames} (h : fs.cells k v = .ok c) :
    (k, fs.frame k) ∈ fs ∧ (v, c) ∈ fs.frame k := by
  have hmem : ∀ {α β : Type} [BEq α] [LawfulBEq α] {l : List (α × β)} {a : α} {b : β},
      List.lookup a l.reverse = some b → (a, b) ∈ l := by
    intro α β _ _ l a b h
    obtain ⟨l₁, l₂, heq, -⟩ := List.lookup_eq_some_iff.mp h
    rw [← List.mem_reverse, heq]
    simp
  unfold Frames.cells Frames.frame at h
  unfold Frames.frame
  split at h
  · next d hd =>
    cases h
    cases hframe : List.lookup k fs.reverse with
    | none =>
      rw [hframe] at hd
      cases hd
    | some frame =>
      rw [hframe] at hd
      exact ⟨hmem hframe, hmem hd⟩
  · cases h

lemma Frames.mem_all {fs : Frames} (h : fs.cells k v = .ok c) : ((k, some v), c) ∈ fs.all := by
  obtain ⟨hframe, hmem⟩ := Frames.mem_frame h
  exact List.mem_flatMap.mpr ⟨(k, fs.frame k), hframe, List.mem_map.mpr ⟨(v, c), hmem, rfl⟩⟩

lemma buildFrames_consecutive {next : Int64}
    (h : buildFrames p (Int64.ofNat n) ids = .ok (frames, next)) :
    (∃ n', next = Int64.ofNat n' ∧ Consecutive n (frames.all.map Prod.snd) n') ∧
      ∀ k v c, ((k, some v), c) ∈ frames.all → ∃ f, p.funcs[k]? = some f ∧ Accommodates f v c := by
  induction ids generalizing n frames with
  | nil =>
    cases h
    exact ⟨⟨n, rfl, .nil⟩, by simp [Frames.all]⟩
  | cons k ids ih =>
    rw [buildFrames] at h
    simp only [bind_eq_ok] at h
    obtain ⟨f, hf, ⟨frame, after⟩, hframe, ⟨rest, final⟩, hrest, h⟩ := h
    cases h
    obtain ⟨⟨n₁, rfl, hcons⟩, hsuits⟩ := buildFrame_consecutive hframe
    obtain ⟨⟨n₂, rfl, hcons'⟩, hall⟩ := ih hrest
    refine ⟨⟨n₂, rfl, ?_⟩, fun j v c hj => ?_⟩
    · have hmap : (Frames.all ((k, frame) :: rest)).map Prod.snd =
          frame.map Prod.snd ++ (Frames.all rest).map Prod.snd := by
        simp [Frames.all]
      rw [hmap]
      exact hcons.append hcons'
    · rcases List.mem_append.mp hj with hj | hj
      · obtain ⟨d, hd, heq⟩ := List.mem_map.mp hj
        cases heq
        exact ⟨f, lookup_natCast.mp hf, hsuits d hd⟩
      · exact hall j v c hj

/-- The cells of return addresses with their owners. -/
def returns (codes : List (Nat × FuncCode)) : List ((Nat × Option Id) × Cells) :=
  codes.filterMap fun e => e.2.ret.map fun c => ((e.2.number, none), c)

lemma Chosen.consecutive {start : Nat} {codes : List (Nat × FuncCode)} {next final : Int64}
    (h : Chosen p frames start next ids codes final) (hnext : next = Int64.ofNat n) :
    ∃ n', final = Int64.ofNat n' ∧ Consecutive n ((returns codes).map Prod.snd) n' := by
  induction h generalizing n with
  | nil => exact ⟨n, hnext, .nil⟩
  | @cons start k next after final ids c codes hc _ _ ih =>
    obtain ⟨f, hk, hcoded, hafter⟩ := selectFunc_coded hc
    have hret : c.ret = retCell f next := hcoded.ret
    obtain ⟨haddr, hsize, hend⟩ := allocate_consecutive n (Text.bytes "ret") 1 false
    unfold retCell at hret
    unfold afterRet at hafter
    rw [hnext] at hret hafter
    split at hret
    · next hmain =>
      rw [if_pos hmain] at hafter
      obtain ⟨n', hfinal, hrest⟩ := ih hafter
      refine ⟨n', hfinal, ?_⟩
      simpa [returns, hret] using hrest
    · next hmain =>
      rw [if_neg hmain, hend] at hafter
      obtain ⟨n', hfinal, hrest⟩ := ih hafter
      refine ⟨n', hfinal, ?_⟩
      have hall : (returns ((start, c) :: codes)).map Prod.snd =
          (allocate (Int64.ofNat n) (Text.bytes "ret") 1 false).1 :: (returns codes).map Prod.snd := by
        simp [returns, hret]
      rw [hall]
      exact .cons haddr hsize (by omega) hrest

section Code

variable {codes : List (Nat × FuncCode)} {e : Nat × FuncCode} {q : Program} {main : Nat}

/-- The code of a program with the places in it. -/
def image (q : Program) (codes : List (Nat × FuncCode)) : Image :=
  { code := q.resolve.instrs, blocks := blockStarts codes, funcs := funcStarts codes }

lemma Chosen.getElem?_flatMap {start : Nat} {next final : Int64}
    (h : Chosen p frames start next ids codes final) {L : Nat × FuncCode → List Placed}
    (hL : ∀ e, (L e).length = e.2.items.length) (he : e ∈ codes) {i : Nat}
    (hi : i < e.2.items.length) :
    start ≤ e.1 ∧ (codes.flatMap L)[e.1 - start + i]? = (L e)[i]? := by
  induction h with
  | nil => cases he
  | @cons start k next after final ids c codes _ _ _ ih =>
    have hlen : (L (start, c)).length = c.items.length := hL (start, c)
    rw [List.flatMap_cons]
    rcases List.mem_cons.mp he with rfl | he
    · rw [Nat.sub_self, Nat.zero_add, List.getElem?_append_left (by rw [hlen]; exact hi)]
      exact ⟨le_rfl, rfl⟩
    · obtain ⟨hle, hget⟩ := ih he
      rw [List.getElem?_append_right (by omega), ← hget, hlen]
      refine ⟨by omega, ?_⟩
      congr 1
      omega

lemma getElem?_resolve (q : Program) (i : Nat) :
    q.resolve.code[i]? = (q.code[i]?).map fun x =>
      { x with instr := { x.instr with addr := (x.target.map Int.ofNat).getD x.instr.addr } } := by
  rw [Program.resolve, Array.getElem?_map]
  refine congrArg (Option.map · _) (funext fun ⟨instr, target, loc⟩ => ?_)
  cases target <;> rfl

lemma getElem?_instrs (q : Program) (i : Nat) :
    q.resolve.instrs[i]? = (q.code[i]?).map fun x =>
      { x.instr with addr := (x.target.map Int.ofNat).getD x.instr.addr } := by
  rw [Program.instrs, Array.getElem?_map, getElem?_resolve, Option.map_map]
  rfl

/-- The instruction that an item of function number `k` becomes at place `i`. -/
def placed (codes : List (Nat × FuncCode)) (k i : Nat) (y : Located) : Placed :=
  { instr := { op := y.item.op, reg := y.item.reg }, loc := y.loc,
    target := y.item.target.place? (blockStarts codes) (funcStarts codes) k i }

lemma LaidOut.along (h : LaidOut p ids main frames codes q) (he : e ∈ codes) :
    Along (fun i y => q.code[i]? = some (placed codes e.2.number i y)) e.1 e.2.items := by
  intro i y hy
  obtain ⟨next, -, hchosen⟩ := h.parts
  have hlt := (List.getElem?_eq_some_iff.mp hy).1
  have hplace := (hchosen.getElem?_flatMap
    (L := fun e => placeItems (blockStarts codes) (funcStarts codes) e.1 e.2)
    (fun e => by simp [placeItems]) he hlt).2
  rw [Nat.sub_zero] at hplace
  rw [h.code, List.getElem?_toArray, hplace, placeItems, List.getElem?_map, List.getElem?_zipIdx, hy]
  simp only [Option.map_some, Nat.zero_add]
  rfl

lemma LaidOut.holds (h : LaidOut p ids main frames codes q) (he : e ∈ codes) :
    (image q codes).Holds e.2.number e.1 (e.2.items.map (·.item)) := by
  intro i it hi
  obtain ⟨x, hx, rfl⟩ : ∃ x, e.2.items[i]? = some x ∧ x.item = it := by
    rwa [List.getElem?_map, Option.map_eq_some_iff] at hi
  rw [image, getElem?_instrs, h.along he i x hx]
  simp only [Option.map_some, placed, Image.instr, Option.some.injEq]
  cases x.item.target.place? (blockStarts codes) (funcStarts codes) e.2.number (e.1 + i) <;> rfl

lemma lookup_of_mem {α β : Type} [BEq α] [LawfulBEq α] {l : List (α × β)} {a : α} {b : β}
    (hl : (l.map Prod.fst).Nodup) (h : (a, b) ∈ l) : l.lookup a = some b := by
  obtain ⟨l₁, l₂, rfl⟩ := List.append_of_mem h
  refine List.lookup_eq_some_iff.mpr ⟨l₁, l₂, rfl, fun d hd => ?_⟩
  rw [bne_iff_ne]
  rintro rfl
  simp only [List.map_append, List.map_cons, List.nodup_append, List.nodup_cons] at hl
  exact hl.2.2 d.1 (List.mem_map.mpr ⟨d, hd, rfl⟩) d.1 (by simp) rfl

lemma mem_startsFrom {start : Nat} {pre post : List (BlockId × List Located)} {code : List Located} :
    (b, start + (pre.flatMap (·.2)).length) ∈ FuncCode.startsFrom start (pre ++ (b, code) :: post) := by
  induction pre generalizing start with
  | nil => simp [FuncCode.startsFrom]
  | cons d pre ih =>
    obtain ⟨d, l⟩ := d
    rw [List.cons_append, FuncCode.startsFrom, List.flatMap_cons, List.length_append, ← Nat.add_assoc]
    exact List.mem_cons_of_mem _ ih

lemma LaidOut.holds_block (h : LaidOut p ids main frames codes q) (he : e ∈ codes) {code : List Located}
    (hb : (b, code) ∈ e.2.blocks) :
    ∃ s, ((e.2.number, b), s) ∈ blockStarts codes ∧
      (image q codes).Holds e.2.number s (code.map (·.item)) := by
  obtain ⟨pre, post, hblocks⟩ := List.append_of_mem hb
  refine ⟨e.1 + e.2.opening.length + (pre.flatMap (·.2)).length, ?_, ?_⟩
  · rw [blockStarts, List.mem_reverse, List.mem_flatMap]
    refine ⟨e, he, List.mem_map.mpr ⟨(b, _), ?_, rfl⟩⟩
    rw [FuncCode.starts, hblocks]
    exact mem_startsFrom
  · have hall := h.holds he
    rw [FuncCode.items, hblocks, List.flatMap_append, List.flatMap_cons, List.map_append,
      List.map_append, List.map_append, Image.holds_append, Image.holds_append, Image.holds_append] at hall
    simpa using hall.2.2.1

lemma blockStarts_keys (e : Nat × FuncCode) :
    ((e.2.starts e.1).map fun (b, i) => ((e.2.number, b), i)).map Prod.fst =
      (e.2.blocks.map Prod.fst).map (e.2.number, ·) := by
  rw [← startsFrom_keys (e.1 + e.2.opening.length), List.map_map, List.map_map]
  rfl

lemma nodup_blockStarts (hcodes : (codes.map fun e => e.2.number).Nodup)
    (hblocks : ∀ e ∈ codes, (e.2.blocks.map Prod.fst).Nodup) :
    ((blockStarts codes).map Prod.fst).Nodup := by
  rw [blockStarts, List.map_reverse, List.nodup_reverse, List.map_flatMap, List.nodup_flatMap]
  constructor
  · intro e he
    simp only [blockStarts_keys]
    exact (hblocks e he).map (Prod.mk_right_injective _)
  · rw [List.nodup_iff_pairwise_ne, List.pairwise_map] at hcodes
    refine hcodes.imp fun {e e'} hne => ?_
    simp only [Function.onFun, blockStarts_keys]
    intro key hkey hkey'
    obtain ⟨b, -, rfl⟩ := List.mem_map.mp hkey
    obtain ⟨b', -, heq⟩ := List.mem_map.mp hkey'
    exact hne (Prod.mk.inj heq).1.symm

end Code

/-- The address of a cell. -/
def Frames.address (fs : Frames) (c : Cell) : UInt64 :=
  match fs.cells c.object.func c.object.var with
  | .ok cells => cells.addr.toUInt64 + UInt64.ofNat c.offset
  | .error _ => 0

/-- The cells that have an address. -/
def Frames.Owns (fs : Frames) (c : Cell) : Prop :=
  ∃ cells, fs.cells c.object.func c.object.var = .ok cells ∧ c.offset < cells.size.toNat

/-- The code of an instruction without positions. -/
def Context.Selects (c : Context) (i : Id) (items : List Item) : Prop :=
  ∃ x, c.func.payload i = .ok x ∧ c.select x = .ok items

/-- The code and the cells of a program have their places: those of its variables are in `frames`, and
`ret` are the cells for return addresses. -/
structure Installed (p : Flow.Program) (frames : Frames) (ret : Nat → Option Cells) (m : Image) :
    Prop where
  suits : ∀ {k v c}, frames.cells k v = .ok c → ∃ f, p.funcs[k]? = some f ∧ Accommodates f v c
  inj : ∀ {c d}, frames.Owns c → frames.Owns d → frames.address c = frames.address d → c = d
  apart : ∀ {c k r}, frames.Owns c → ret k = some r → frames.address c ≠ r.addr.toUInt64
  ret_inj : ∀ {j k r r'}, ret j = some r → ret k = some r' →
    r.addr.toUInt64 = r'.addr.toUInt64 → j = k
  func : ∀ {k f}, p.funcs[k]? = some f → ∃ s, m.funcs.lookup k = some s ∧
    m.Holds k s (openingOf (ret k)) ∧
    m.blocks.lookup (k, f.entry) = some (s + (openingOf (ret k)).length)
  block : ∀ {k f b l}, p.funcs[k]? = some f → f.Reaches b → f.listing? b = some l →
    ∃ s parts, m.blocks.lookup (k, b) = some s ∧
      List.Forall₂ (Context.Selects ⟨p, frames, k, f, ret k⟩) l parts ∧ m.Holds k s parts.flatten
  main : ∀ {k}, p.main? = some k → m.funcs.lookup k = some 0 ∧ ret k = none

/-- All cells of a program, those for return addresses included. -/
def Program.cells (q : Program) : List Cells := q.funcs.flatMap fun f => f.frame ++ f.ret.toList

/-- The number of all cells, those for return addresses included. -/
def Program.cellCount (q : Program) : Nat :=
  (q.funcs.map fun f => (f.frame.map (·.size.toNat)).sum + (f.ret.map (·.size.toNat)).getD 0).sum

section Laid

variable {codes : List (Nat × FuncCode)} {q : Program} {main : Nat}

lemma LaidOut.perm (h : LaidOut p ids main frames codes q) (hids : ids.Nodup) :
    (main :: ids.filter (· ≠ main)).Perm ids := by
  have hmem := List.mem_of_find?_eq_some h.found
  refine List.Perm.trans ?_ (List.perm_cons_erase hmem).symm
  rw [hids.erase_eq_filter main]
  refine List.Perm.of_eq (congrArg _ (List.filter_congr fun j _ => ?_))
  by_cases hj : j = main <;> simp [hj]

lemma Laid.perm (h : Laid p main frames codes q) :
    (main :: (List.range p.funcs.size).filter (· ≠ main)).Perm (List.range p.funcs.size) :=
  LaidOut.perm h List.nodup_range

/-- Functions in the order of their code: the first main program, and then the others. -/
def mainFirst (p : Flow.Program) (ids : List Nat) : List Nat :=
  match ids.find? fun k => (p.funcs[k]?).any (·.isMain) with
  | none => []
  | some main => main :: ids.filter (· ≠ main)

lemma LaidOut.mainFirst_eq (h : LaidOut p ids main frames codes q) :
    mainFirst p ids = main :: ids.filter (· ≠ main) := by
  rw [mainFirst, h.found]

lemma LaidOut.numbers (h : LaidOut p ids main frames codes q) :
    codes.map (fun e => e.2.number) = mainFirst p ids := by
  obtain ⟨next, -, hchosen⟩ := h.parts
  rw [hchosen.coded.1, h.mainFirst_eq]

lemma LaidOut.mainFirst_perm (h : LaidOut p ids main frames codes q) (hids : ids.Nodup) :
    (mainFirst p ids).Perm ids := by
  rw [h.mainFirst_eq]
  exact h.perm hids

lemma Program.cellCount_eq (q : Program) : q.cellCount = (q.cells.map (·.size.toNat)).sum := by
  unfold Program.cellCount Program.cells
  induction q.funcs with
  | nil => rfl
  | cons f funcs ih =>
    rw [List.map_cons, List.sum_cons, ih, List.flatMap_cons, List.map_append, List.sum_append,
      List.map_append, List.sum_append]
    congr 2
    cases f.ret <;> simp

lemma Frames.frame_of_mem (hnodup : (frames.map Prod.fst).Nodup) {e : Nat × Frame} (he : e ∈ frames) :
    frames.frame e.1 = e.2 := by
  rw [Frames.frame, lookup_of_mem (by rwa [List.map_reverse, List.nodup_reverse])
    (List.mem_reverse.mpr he)]
  rfl

lemma Frames.map_all (hnodup : (frames.map Prod.fst).Nodup) :
    frames.all.map Prod.snd =
      (frames.map Prod.fst).flatMap fun k => (frames.frame k).map Prod.snd := by
  rw [Frames.all, List.map_flatMap, List.flatMap_map]
  refine List.flatMap_congr fun e he => ?_
  rw [Frames.frame_of_mem hnodup he, List.map_map]
  rfl

lemma map_returns (codes : List (Nat × FuncCode)) :
    (returns codes).map Prod.snd = codes.flatMap fun e => e.2.ret.toList := by
  induction codes with
  | nil => rfl
  | cons e codes ih =>
    rw [List.flatMap_cons, ← ih]
    cases hret : e.2.ret <;> simp [returns, hret]

/-- The cells of a program are those of all variables and those for return addresses. -/
lemma LaidOut.cells_perm (h : LaidOut p ids main frames codes q) (hids : ids.Nodup) :
    q.cells.Perm ((frames.all ++ returns codes).map Prod.snd) := by
  obtain ⟨next, hframes, -⟩ := h.parts
  have hkeys := (buildFrames_keys hframes).1
  have hcells : q.cells =
      codes.flatMap fun e => (frames.frame e.2.number).map Prod.snd ++ e.2.ret.toList := by
    rw [Program.cells, h.funcs, List.flatMap_map]
  have hall : (codes.flatMap fun e => (frames.frame e.2.number).map Prod.snd).Perm
      (frames.all.map Prod.snd) := by
    have hperm := (h.mainFirst_perm hids).flatMap (f := fun k => (frames.frame k).map Prod.snd)
      fun _ _ => List.Perm.refl _
    rwa [← h.numbers, List.flatMap_map, ← hkeys, ← Frames.map_all (by rwa [hkeys])] at hperm
  rw [hcells, List.map_append, map_returns]
  exact (List.flatMap_append_perm _ _ _).symm.trans (hall.append_right _)

lemma LaidOut.consecutive (h : LaidOut p ids main frames codes q) (hids : ids.Nodup) :
    Consecutive 0 ((frames.all ++ returns codes).map Prod.snd) q.cellCount ∧
      q.memory = Int64.ofNat q.cellCount := by
  obtain ⟨next, hframes, hchosen⟩ := h.parts
  obtain ⟨⟨n₁, rfl, hcons⟩, -⟩ := buildFrames_consecutive (n := 0) hframes
  obtain ⟨n₂, hmemory, hcons'⟩ := hchosen.consecutive rfl
  have hall := hcons.append hcons'
  rw [← List.map_append] at hall
  have hcount : n₂ = q.cellCount := by
    rw [hall.end_eq, q.cellCount_eq, ((h.cells_perm hids).map _).sum_eq, Nat.zero_add]
  rw [← hcount]
  exact ⟨hall, hmemory⟩

/-- The cell for the return address of a function. -/
def retOf (codes : List (Nat × FuncCode)) (k : Nat) : Option Cells :=
  ((codes.map fun e => (e.2.number, e.2.ret)).lookup k).join

lemma retOf_number {e : Nat × FuncCode} (hnodup : (codes.map fun e => e.2.number).Nodup)
    (he : e ∈ codes) : retOf codes e.2.number = e.2.ret := by
  have hlookup : (codes.map fun e => (e.2.number, e.2.ret)).lookup e.2.number = some e.2.ret :=
    lookup_of_mem (by simpa [Function.comp_def] using hnodup) (List.mem_map.mpr ⟨e, he, rfl⟩)
  rw [retOf, hlookup, Option.join_some]

lemma mem_returns (h : retOf codes k = some c) : ((k, none), c) ∈ returns codes := by
  rw [retOf, Option.join_eq_some_iff, List.lookup_eq_some_iff] at h
  obtain ⟨l₁, l₂, heq, -⟩ := h
  have hmem : (k, some c) ∈ codes.map fun e => (e.2.number, e.2.ret) := by
    rw [heq]
    simp
  obtain ⟨e, he, hke⟩ := List.mem_map.mp hmem
  obtain ⟨rfl, hret⟩ := Prod.mk.inj hke
  exact List.mem_filterMap.mpr ⟨e, he, by rw [hret]; rfl⟩

lemma Laid.selected (h : Laid p main frames codes q)
    (hf : ∀ {k : Nat} {f}, p.funcs[k]? = some f → f.Sound ∧ f.WellFormed) :
    codes.map (fun e => e.2.number) = main :: (List.range p.funcs.size).filter (· ≠ main) ∧
      ∀ e ∈ codes, ∃ f next, p.funcs[e.2.number]? = some f ∧
        Selected (funcContext p frames next e.2.number f) e.2 := by
  obtain ⟨next, -, hchosen⟩ := h.parts
  refine hchosen.selected fun k hk => ?_
  have hlt := List.mem_range.mp (h.perm.mem_iff.mp hk)
  exact ⟨_, Array.getElem?_eq_getElem hlt, hf (Array.getElem?_eq_getElem hlt)⟩

lemma Laid.code_of (h : Laid p main frames codes q)
    (hf : ∀ {k : Nat} {f}, p.funcs[k]? = some f → f.Sound ∧ f.WellFormed) :
    codes.map (fun e => e.2.number) = main :: (List.range p.funcs.size).filter (· ≠ main) ∧
      (codes.map fun e => e.2.number).Nodup ∧
      ∀ {k : Nat} {f}, p.funcs[k]? = some f → ∃ e ∈ codes, e.2.number = k ∧
        Selected ⟨p, frames, k, f, retOf codes k⟩ e.2 ∧ (f.isMain = true → retOf codes k = none) := by
  obtain ⟨hnumbers, hselected⟩ := h.selected hf
  have hnodup : (codes.map fun e => e.2.number).Nodup := by
    rw [hnumbers, h.perm.nodup_iff]
    exact List.nodup_range
  refine ⟨hnumbers, hnodup, fun {k f} hk => ?_⟩
  have hmem : k ∈ codes.map fun e => e.2.number := by
    rw [hnumbers, h.perm.mem_iff, List.mem_range]
    exact (Array.getElem?_eq_some_iff.mp hk).1
  obtain ⟨e, he, rfl⟩ := List.mem_map.mp hmem
  obtain ⟨f', after, hf', hsel⟩ := hselected e he
  obtain rfl := Option.some.inj (hk.symm.trans hf')
  have hret : retOf codes e.2.number = retCell f after := (retOf_number hnodup he).trans hsel.ret
  refine ⟨e, he, rfl, ?_, fun hmain => ?_⟩
  · rw [hret]
    exact hsel
  · rw [hret, retCell, if_pos hmain]

lemma Laid.main? (h : Laid p main frames codes q) : p.main? = some main := by
  obtain ⟨hmain, hmem, hless⟩ := List.find?_range_eq_some.mp h.found
  have hlt := List.mem_range.mp hmem
  rw [Flow.Program.main?, Array.findIdx?_eq_some_iff_getElem]
  refine ⟨hlt, ?_, fun j hj => ?_⟩
  · simpa [Array.getElem?_eq_getElem hlt] using hmain
  · simpa [Array.getElem?_eq_getElem (hj.trans hlt)] using hless j hj

/-- Different cells, of variables or for return addresses, have different addresses. -/
lemma Laid.unique (h : Laid p main frames codes q) (hq : q.cellCount < 2 ^ 63)
    {e e' : (Nat × Option Id) × Cells} {i j : Nat}
    (he : e ∈ frames.all ++ returns codes) (he' : e' ∈ frames.all ++ returns codes)
    (hi : i < e.2.size.toNat) (hj : j < e'.2.size.toNat)
    (heq : e.2.addr.toUInt64 + UInt64.ofNat i = e'.2.addr.toUInt64 + UInt64.ofNat j) :
    e = e' ∧ i = j :=
  (h.consecutive List.nodup_range).1.unique (by omega) he he' hi hj heq

lemma Laid.mem_of_retOf (h : Laid p main frames codes q) {c : Cells} (hc : retOf codes k = some c) :
    ((k, none), c) ∈ frames.all ++ returns codes ∧ 0 < c.size.toNat := by
  have hmem := List.mem_append_right frames.all (mem_returns hc)
  obtain ⟨-, -, -, -, hpos⟩ :=
    (h.consecutive List.nodup_range).1.between (List.mem_map.mpr ⟨_, hmem, rfl⟩)
  exact ⟨hmem, hpos⟩

section Installing

variable (h : Laid p main frames codes q)
  (hf : ∀ {k : Nat} {f}, p.funcs[k]? = some f → f.Sound ∧ f.WellFormed)

include h hf

lemma Laid.lookup_func {e : Nat × FuncCode} (he : e ∈ codes) :
    (funcStarts codes).lookup e.2.number = some e.1 := by
  refine lookup_of_mem ?_ (List.mem_reverse.mpr (List.mem_map.mpr ⟨e, he, rfl⟩))
  rw [funcStarts, List.map_reverse, List.nodup_reverse, List.map_map]
  exact (h.code_of hf).2.1

lemma Laid.nodup_blocks : ((blockStarts codes).map Prod.fst).Nodup := by
  obtain ⟨hnumbers, hnodup, hcode⟩ := h.code_of hf
  refine nodup_blockStarts hnodup fun e he => ?_
  have hlt : e.2.number < p.funcs.size := by
    rw [← List.mem_range, ← h.perm.mem_iff, ← hnumbers]
    exact List.mem_map.mpr ⟨e, he, rfl⟩
  obtain ⟨e', he', hsame, hsel, -⟩ := hcode (Array.getElem?_eq_getElem hlt)
  rw [← List.inj_on_of_nodup_map hnodup he' he hsame]
  exact hsel.nodup

lemma Laid.func (hk : p.funcs[k]? = some f) :
    ∃ s, (funcStarts codes).lookup k = some s ∧
      (image q codes).Holds k s (openingOf (retOf codes k)) ∧
      (blockStarts codes).lookup (k, f.entry) = some (s + (openingOf (retOf codes k)).length) := by
  obtain ⟨e, he, rfl, hsel, -⟩ := (h.code_of hf).2.2 hk
  have hopening : e.2.opening.map (·.item) = openingOf (retOf codes e.2.number) := by
    rw [hsel.opening, locate, List.map_map]
    exact List.map_id _
  refine ⟨e.1, h.lookup_func hf he, ?_, ?_⟩
  · have hall := h.holds he
    rw [FuncCode.items, List.map_append, Image.holds_append, hopening] at hall
    exact hall.1
  · obtain ⟨first, rest, hentry⟩ := hsel.entry
    refine lookup_of_mem (h.nodup_blocks hf) ?_
    rw [blockStarts, List.mem_reverse, List.mem_flatMap]
    refine ⟨e, he, List.mem_map.mpr ⟨(f.entry, _), ?_, rfl⟩⟩
    rw [FuncCode.starts, hentry, FuncCode.startsFrom, ← hopening, List.length_map]
    exact List.mem_cons_self

lemma Laid.block {l : List Id} (hk : p.funcs[k]? = some f) (hb : f.Reaches b)
    (hl : f.listing? b = some l) :
    ∃ s parts, (blockStarts codes).lookup (k, b) = some s ∧
      List.Forall₂ (Context.Selects ⟨p, frames, k, f, retOf codes k⟩) l parts ∧
      (image q codes).Holds k s parts.flatten := by
  obtain ⟨e, he, rfl, hsel, -⟩ := (h.code_of hf).2.2 hk
  obtain ⟨⟨b, code⟩, hmem, rfl⟩ := List.mem_map.mp ((hsel.mem b).mpr hb)
  obtain ⟨s, hs, hholds⟩ := h.holds_block he hmem
  obtain ⟨-, parts, hparts, rfl⟩ := (Context.block_eq_ok hl).mp (hsel.code b code hmem)
  refine ⟨s, parts.map (·.map (·.item)), lookup_of_mem (h.nodup_blocks hf) hs, ?_, ?_⟩
  · rw [List.forall₂_map_right_iff]
    refine hparts.imp fun i part hpart => ?_
    obtain ⟨slot, items, hslot, hitems, rfl⟩ := hpart
    have hplain : (locate slot.loc items).map (·.item) = items := by
      rw [locate, List.map_map]
      exact List.map_id _
    rw [hplain]
    exact ⟨slot.payload, Flow.Func.payload_eq_ok.mpr ⟨slot, hslot, rfl⟩, hitems⟩
  · rwa [← List.map_flatten]

lemma Laid.first (hk : p.main? = some k) :
    (funcStarts codes).lookup k = some 0 ∧ retOf codes k = none := by
  obtain rfl : k = main := Option.some.inj (hk.symm.trans h.main?)
  obtain ⟨f, hfunc, hmain⟩ : ∃ f, p.funcs[k]? = some f ∧ f.isMain = true := by
    simpa [Option.any_eq_true] using List.find?_some h.found
  obtain ⟨e, he, hnumber, -, hret⟩ := (h.code_of hf).2.2 hfunc
  refine ⟨?_, hret hmain⟩
  have hlookup := fun c => h.lookup_func hf (e := (0, c))
  obtain ⟨next, -, hchosen⟩ := h.parts
  cases hchosen with
  | @cons _ _ _ _ _ _ c codes hc _ _ =>
    have hfirst := hlookup c (by simp)
    obtain ⟨f, -, hcoded, -⟩ := selectFunc_coded hc
    rwa [hcoded.number] at hfirst

/-- What was laid out is installed. -/
theorem Laid.installed (hq : q.cellCount < 2 ^ 63) :
    Installed p frames (retOf codes) (image q codes) := by
  obtain ⟨next, hframes, -⟩ := h.parts
  have howned : ∀ {d : Cell}, frames.Owns d → ∃ c,
      ((d.object.func, some (d.object.var : Int)), c) ∈ frames.all ++ returns codes ∧
      frames.address d = c.addr.toUInt64 + UInt64.ofNat d.offset ∧ d.offset < c.size.toNat := by
    rintro d ⟨c, hc, hlt⟩
    exact ⟨c, List.mem_append_left _ (Frames.mem_all hc), by rw [Frames.address, hc], hlt⟩
  have hzero : ∀ c : Cells, c.addr.toUInt64 = c.addr.toUInt64 + UInt64.ofNat 0 := by simp
  refine ⟨fun hc => (buildFrames_consecutive hframes).2 _ _ _ (Frames.mem_all hc), ?_, ?_, ?_,
    h.func hf, h.block hf, h.first hf⟩
  · intro c d hc hd heq
    obtain ⟨cc, hmem, haddr, hlt⟩ := howned hc
    obtain ⟨cd, hmem', haddr', hlt'⟩ := howned hd
    obtain ⟨hsame, hoff⟩ := h.unique hq hmem hmem' hlt hlt' (by rw [← haddr, ← haddr', heq])
    simp only [Prod.mk.injEq, Option.some.injEq, Int.natCast_inj] at hsame
    obtain ⟨⟨i, u⟩, o⟩ := c
    obtain ⟨⟨j, w⟩, o'⟩ := d
    obtain ⟨⟨rfl, rfl⟩, -⟩ := hsame
    obtain rfl : o = o' := hoff
    rfl
  · intro c k r hc hr heq
    obtain ⟨cc, hmem, haddr, hlt⟩ := howned hc
    obtain ⟨hmem', hlt'⟩ := h.mem_of_retOf hr
    obtain ⟨hsame, -⟩ := h.unique hq hmem hmem' hlt hlt' (by rw [← haddr, ← hzero, heq])
    cases hsame
  · intro j k r r' hr hr' heq
    obtain ⟨hmem, hlt⟩ := h.mem_of_retOf hr
    obtain ⟨hmem', hlt'⟩ := h.mem_of_retOf hr'
    obtain ⟨hsame, -⟩ := h.unique hq hmem hmem' hlt hlt' (by rw [← hzero, ← hzero, heq])
    cases hsame
    rfl

end Installing

end Laid

end Accumulator.Layout
