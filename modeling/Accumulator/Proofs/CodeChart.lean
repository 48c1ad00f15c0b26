import Mathlib
import Accumulator.Proofs.ComplementMeaning
import Accumulator.Proofs.PlacedJumps

/-!
# Charts of code

A chart of a program that was laid out says where the code of each function stands, in it that of
each of its blocks, and in that the code of each instruction. Functions fill the code of the program,
blocks fill that of a function behind its opening, and instructions that of a block. Every jump leads
to the start of a block of the same function, to the start of a function or to a place in the code of
the same instruction, as the instruction has it, and no block runs on into what stands behind it.
-/

namespace Accumulator.Layout

open Accumulator.Flow (Id BlockId Payload)

/-- The places from `first` up to `behind`, which is not one of them. -/
structure Span where
  first : Nat
  behind : Nat

/-- Spans, none of them empty, that follow one another from `n` up to `n'`. -/
inductive Tiles : Nat → List Span → Nat → Prop where
  | nil {n : Nat} : Tiles n [] n
  | cons {n m n' : Nat} {l : List Span} : n < m → Tiles m l n' → Tiles n (⟨n, m⟩ :: l) n'

/-- Where the code of a block stands, and that of its instructions. -/
structure BlockChart where
  block : BlockId
  span : Span
  instrs : List (Id × Span)

/-- Where the code of a function stands, and that of its blocks. -/
structure FuncChart where
  number : Nat
  span : Span
  /-- The place behind the opening of the function. -/
  body : Nat
  blocks : List BlockChart

/-- The first places of the blocks. -/
def FuncChart.starts (g : FuncChart) : List (BlockId × Nat) :=
  g.blocks.map fun d => (d.block, d.span.first)

/-- The first places of the functions. -/
def starts (chart : List FuncChart) : List (Nat × Nat) :=
  chart.map fun g => (g.number, g.span.first)

/-- Jump number `j` in the code of an instruction, which stands in `s`, may lead to place `t`. -/
def Aims (blocks : List (BlockId × Nat)) (funcs : List (Nat × Nat)) (x : Payload) (s : Span)
    (j t : Nat) : Prop :=
  match x with
  | .branch b => (b, t) ∈ blocks
  | .branchIf _ _ a b => (if j = 0 then a else b, t) ∈ blocks
  | .call k _ => ∃ n : Nat, k = n ∧ (n, t) ∈ funcs
  | _ => s.first ≤ t ∧ t < s.behind

/-- The code of an instruction stands in a span, and its jumps lead where they should. -/
def Context.Occupies (c : Context) (r : Program) (blocks : List (BlockId × Nat))
    (funcs : List (Nat × Nat)) (i : Id) (s : Span) : Prop :=
  ∃ x items, c.func.payload i = .ok x ∧ c.select x = .ok items ∧
    s.behind = s.first + items.length ∧
    ∀ j it, items[j]? = some it → ∃ y, r.code[s.first + j]? = some y ∧ y.instr.op = it.op ∧
      y.instr.reg = it.reg ∧ (it.op.isJump = true →
        ∃ t : Nat, y.target = some t ∧ y.instr.addr = t ∧ Aims blocks funcs x s j t)

/-- The instructions of a block fill its span in their order. Control does not leave it at its end. -/
structure BlockChart.Fits (d : BlockChart) (c : Context) (r : Program)
    (blocks : List (BlockId × Nat)) (funcs : List (Nat × Nat)) : Prop where
  listing : c.func.listing? d.block = some (d.instrs.map Prod.fst)
  tiles : Tiles d.span.first (d.instrs.map Prod.snd) d.span.behind
  code : ∀ e ∈ d.instrs, c.Occupies r blocks funcs e.1 e.2
  transfers : ∃ y, r.code[d.span.behind - 1]? = some y ∧ y.instr.op ∈ [Machine.Op.jump, .jumpr, .halt]

/-- The span of a function has its opening and then its blocks: those that can be reached, the entry
first. -/
structure FuncChart.Fits (g : FuncChart) (c : Context) (r : Program) (funcs : List (Nat × Nat)) :
    Prop where
  body : g.body = g.span.first + (openingOf c.ret).length
  opening : Along (fun n it => ∃ y, r.code[n]? = some y ∧ y.instr.op = it.op ∧ y.instr.reg = it.reg)
    g.span.first (openingOf c.ret)
  reachable : c.func.reachable = .ok (g.blocks.map (·.block))
  entry : (g.blocks.map (·.block)).head? = some c.func.entry
  nodup : (g.blocks.map (·.block)).Nodup
  tiles : Tiles g.body (g.blocks.map (·.span)) g.span.behind
  code : ∀ d ∈ g.blocks, d.Fits c r g.starts funcs

/-- A chart of a program with all functions, the main program first. -/
structure Charts (chart : List FuncChart) (p : Flow.Program) (ids : List Nat) (q : Program) : Prop where
  order : chart.map (·.number) = mainFirst p ids
  tiles : Tiles 0 (chart.map (·.span)) q.code.size
  funcs : ∃ frames next, buildFrames p 0 ids = .ok (frames, next) ∧
    List.Forall₂ (fun g e => ∃ f, p.funcs[g.number]? = some f ∧ e.name = f.name ∧
      g.span = ⟨e.start, e.start + e.size⟩ ∧
      g.Fits ⟨p, frames, g.number, f, e.ret⟩ q.resolve (starts chart)) chart q.funcs

section Tiles

variable {n n' i : Nat} {l : List Span} {s : Span}

lemma Tiles.le (h : Tiles n l n') : n ≤ n' := by
  induction h with
  | nil => exact le_rfl
  | cons hlt _ ih => exact hlt.le.trans ih

lemma Tiles.bounds (h : Tiles n l n') (hs : s ∈ l) :
    n ≤ s.first ∧ s.first < s.behind ∧ s.behind ≤ n' := by
  induction h with
  | nil => cases hs
  | cons hlt hrest ih =>
    rcases List.mem_cons.mp hs with rfl | hs
    · exact ⟨le_rfl, hlt, hrest.le⟩
    · obtain ⟨hle, hbounds⟩ := ih hs
      exact ⟨hlt.le.trans hle, hbounds⟩

lemma Tiles.cover (h : Tiles n l n') (hle : n ≤ i) (hlt : i < n') :
    ∃ s ∈ l, s.first ≤ i ∧ i < s.behind := by
  induction h with
  | nil => omega
  | @cons n m n' l _ _ ih =>
    by_cases hi : i < m
    · exact ⟨⟨n, m⟩, by simp, hle, hi⟩
    · obtain ⟨s, hs, hin⟩ := ih (by omega) hlt
      exact ⟨s, by simp [hs], hin⟩

lemma exists_spans {α β : Type} {R : α → List β → Prop} {P : Nat → β → Prop} {as : List α}
    {parts : List (List β)} (h : List.Forall₂ R as parts) (hpos : ∀ a part, R a part → part ≠ [])
    (hall : Along P n parts.flatten) :
    ∃ es : List (α × Span), es.map Prod.fst = as ∧
      Tiles n (es.map Prod.snd) (n + parts.flatten.length) ∧
      ∀ e ∈ es, ∃ part ∈ parts, R e.1 part ∧ e.2.behind = e.2.first + part.length ∧
        Along P e.2.first part := by
  induction h generalizing n with
  | nil => exact ⟨[], rfl, .nil, by simp⟩
  | @cons a part as parts ha _ ih =>
    rw [List.flatten_cons, along_append] at hall
    obtain ⟨es, hes, htiles, hparts⟩ := ih hall.2
    have hlen := List.length_pos_iff.mpr (hpos a part ha)
    refine ⟨(a, ⟨n, n + part.length⟩) :: es, by rw [List.map_cons, hes], ?_, ?_⟩
    · rw [List.flatten_cons, List.length_append, ← Nat.add_assoc]
      exact .cons (by omega) htiles
    · refine List.forall_mem_cons.mpr ⟨⟨part, by simp, ha, rfl, hall.1⟩, fun e he => ?_⟩
      obtain ⟨part', hmem, hrest⟩ := hparts e he
      exact ⟨part', by simp [hmem], hrest⟩

lemma exists_forall₂ {α β : Type} {R : α → β → Prop} {as : List α} (h : ∀ a ∈ as, ∃ b, R a b) :
    ∃ bs, List.Forall₂ R as bs := by
  induction as with
  | nil => exact ⟨[], .nil⟩
  | cons a as ih =>
    rw [List.forall_mem_cons] at h
    obtain ⟨b, hb⟩ := h.1
    obtain ⟨bs, hbs⟩ := ih h.2
    exact ⟨b :: bs, .cons hb hbs⟩

end Tiles

section Select

variable {c : Context} {x : Payload} {items : List Item} {j : Nat} {it : Item}

lemma Context.select_within (h : c.select x = .ok items) (hx : x.targets = [])
    (hcall : ∀ k args, x ≠ .call k args) (hj : items[j]? = some it) (hjump : it.op.isJump = true) :
    ∃ d : Int, it.target = .within d ∧ 0 ≤ j + d ∧ j + d < items.length := by
  have hleads := (Context.select_heads h).2 it (List.mem_of_getElem? hj)
  obtain ⟨hsound, hin⟩ := (Bool.and_eq_true _ _).mp (Context.select_complete h j it hj)
  have htarget := (Item.isSound_iff.mp hsound).2.2.2.mp hjump
  cases ht : it.target with
  | nowhere => exact absurd ht htarget
  | within d =>
    rw [ht] at hin
    exact ⟨d, rfl, decide_eq_true_eq.mp hin⟩
  | block b =>
    have := hleads.1 b ht
    rw [hx] at this
    cases this
  | func k =>
    obtain ⟨args, hargs⟩ := hleads.2 k ht
    exact absurd hargs (hcall k args)

lemma Context.call_target {k : Int} {args : List Id} (h : c.select (.call k args) = .ok items)
    (hj : items[j]? = some it) (hjump : it.op.isJump = true) :
    it.target = .func k ∧ ∃ n : Nat, k = n := by
  obtain ⟨hsound, -⟩ := (Bool.and_eq_true _ _).mp (Context.select_complete h j it hj)
  have htarget := (Item.isSound_iff.mp hsound).2.2.2.mp hjump
  rw [Context.select, Context.call, bind_eq_ok] at h
  obtain ⟨g, hg, h⟩ := h
  split at h
  · cases h
  · rw [bind_eq_ok] at h
    obtain ⟨l, hl, h⟩ := h
    cases h
    refine ⟨?_, k.toNat, (Int.toNat_of_nonneg (Flow.lookup_eq_ok.mp hg).1).symm⟩
    rcases List.mem_append.mp (List.mem_of_getElem? hj) with hit | hit
    · exact absurd (Context.arguments_target hl it hit) htarget
    · simp only [List.mem_cons, List.not_mem_nil, or_false] at hit
      rcases hit with rfl | rfl
      · cases hjump
      · rfl

lemma Context.select_transfers (h : c.select x = .ok items) (hx : x.isTerminal = true) :
    ∃ pre it, items = pre ++ [it] ∧ it.op ∈ [Machine.Op.jump, .jumpr, .halt] := by
  cases x <;> cases hx
  case branch b =>
    cases h
    exact ⟨[], _, rfl, by simp⟩
  case branchIf test d a b =>
    cases h
    exact ⟨[_], _, rfl, by simp⟩
  case stop =>
    cases h
    exact ⟨[], _, rfl, by simp⟩
  case ret =>
    rw [Context.select] at h
    cases hret : c.ret with
    | none =>
      rw [hret] at h
      cases h
    | some cell =>
      rw [hret] at h
      cases h
      exact ⟨constant cell.addr.toUInt64 .a ++
        [{ op := .load, reg := .a }, { op := .inc, reg := .a }, { op := .inc, reg := .a }],
        { op := .jumpr, reg := .a }, by simp, by simp⟩

lemma Context.transfers {l : List Id} {parts : List (List Located)}
    (hparts : List.Forall₂ c.Codes l parts) (hcloses : c.func.Closes l) :
    ∃ pre y, parts.flatten = pre ++ [y] ∧ y.item.op ∈ [Machine.Op.jump, .jumpr, .halt] := by
  induction hparts with
  | nil => exact hcloses.elim
  | @cons i part l parts hpart hrest ih =>
    cases hrest with
    | nil =>
      obtain ⟨x, hx, hterm⟩ := hcloses
      obtain ⟨slot, items, hslot, hitems, rfl⟩ := hpart
      obtain ⟨slot', hslot', -, rfl⟩ := Flow.Func.live?_eq_some.mp hx
      obtain rfl : slot = slot' := Option.some.inj (hslot.symm.trans hslot')
      obtain ⟨pre, it, rfl, hop⟩ := Context.select_transfers hitems hterm
      exact ⟨locate slot.loc pre, ⟨it, slot.loc⟩, by simp [locate], hop⟩
    | cons hnext hrest =>
      obtain ⟨pre, y, hflatten, hop⟩ := ih hcloses.2
      exact ⟨part ++ pre, y, by rw [List.flatten_cons, hflatten, List.append_assoc], hop⟩

end Select

section Program

variable {p : Flow.Program} {ids : List Nat} {main : Nat} {frames : Frames}
  {codes : List (Nat × FuncCode)} {q : Program} {e : Nat × FuncCode} {c : Context}

lemma LaidOut.nodup_numbers (h : LaidOut p ids main frames codes q) (hids : ids.Nodup) :
    (codes.map fun e => e.2.number).Nodup := by
  rw [h.numbers]
  exact (h.mainFirst_perm hids).nodup_iff.mpr hids

lemma startsFrom_eq {n n' : Nat} {es : List ((BlockId × List Located) × Span)}
    (h : Tiles n (es.map Prod.snd) n') (hes : ∀ d ∈ es, d.2.behind = d.2.first + d.1.2.length) :
    FuncCode.startsFrom n (es.map Prod.fst) = es.map fun d => (d.1.1, d.2.first) := by
  induction es generalizing n with
  | nil => rfl
  | cons d es ih =>
    obtain ⟨⟨b, code⟩, s⟩ := d
    rw [List.forall_mem_cons] at hes
    rw [List.map_cons] at h
    cases h with
    | @cons _ m _ _ _ hrest =>
      obtain rfl : m = n + code.length := hes.1
      rw [List.map_cons, FuncCode.startsFrom, ih hrest hes.2, List.map_cons]

section Function

variable (h : LaidOut p ids main frames codes q) (hids : ids.Nodup) (he : e ∈ codes)

include h hids he

lemma LaidOut.mem_starts {b : BlockId} {t : Nat}
    (ht : (blockStarts codes).lookup (e.2.number, b) = some t) : (b, t) ∈ e.2.starts e.1 := by
  have hmem := mem_of_lookup ht
  rw [blockStarts, List.mem_reverse, List.mem_flatMap] at hmem
  obtain ⟨e', he', hmem⟩ := hmem
  obtain ⟨⟨b', t'⟩, hstart, heq⟩ := List.mem_map.mp hmem
  simp only [Prod.mk.injEq] at heq
  obtain ⟨⟨hnumber, rfl⟩, rfl⟩ := heq
  obtain rfl : e' = e := List.inj_on_of_nodup_map (h.nodup_numbers hids) he' he hnumber
  exact hstart

lemma LaidOut.aims {x : Payload} {items : List Item} {y : Located} {s : Span} {j : Nat}
    (hy : y ∈ e.2.items) (hx : c.select x = .ok items) (hj : items[j]? = some y.item)
    (hjump : y.item.op.isJump = true) (hs : s.behind = s.first + items.length) :
    ∃ t, y.item.target.place? (blockStarts codes) (funcStarts codes) e.2.number (s.first + j) = some t ∧
      Aims (e.2.starts e.1) (codes.map fun e => (e.2.number, e.1)) x s j t := by
  have hblock : ∀ {b}, y.item.target = .block b →
      ∃ t, y.item.target.place? (blockStarts codes) (funcStarts codes) e.2.number (s.first + j) = some t ∧
        (b, t) ∈ e.2.starts e.1 := by
    intro b hb
    obtain ⟨t, ht⟩ := h.lookup_block he hy hb
    exact ⟨t, by rw [hb]; exact ht, h.mem_starts hids he ht⟩
  obtain ⟨it, loc⟩ := y
  cases x with
  | branch b =>
    cases hx
    match j, hj with
    | 0, hj =>
      cases hj
      exact hblock rfl
  | branchIf test d a b =>
    cases hx
    match j, hj with
    | 0, hj =>
      cases hj
      exact hblock rfl
    | 1, hj =>
      cases hj
      exact hblock rfl
  | call k args =>
    obtain ⟨htarget, n, rfl⟩ := Context.call_target hx hj hjump
    obtain ⟨t, ht⟩ := h.lookup_func he hy htarget
    refine ⟨t, by rw [htarget]; exact ht, n, rfl, ?_⟩
    have hmem := mem_of_lookup ht
    rwa [funcStarts, List.mem_reverse, Int.toNat_natCast] at hmem
  | _ =>
    obtain ⟨d, htarget, hle, hlt⟩ := Context.select_within hx rfl (by simp) hj hjump
    refine ⟨(((s.first + j : Nat) : Int) + d).toNat, by rw [htarget]; rfl, ?_⟩
    change s.first ≤ _ ∧ _ < s.behind
    omega

lemma LaidOut.stands {i : Id} {s : Span} {part : List Located} (hpart : c.Codes i part)
    (hsub : ∀ y ∈ part, y ∈ e.2.items) (hs : s.behind = s.first + part.length)
    (halong : Along (fun n y => q.code[n]? = some (placed codes e.2.number n y)) s.first part) :
    c.Occupies q.resolve (e.2.starts e.1) (codes.map fun e => (e.2.number, e.1)) i s := by
  obtain ⟨slot, items, hslot, hitems, rfl⟩ := hpart
  have hlen : (locate slot.loc items).length = items.length := by simp [locate]
  rw [hlen] at hs
  refine ⟨slot.payload, items, Flow.Func.payload_eq_ok.mpr ⟨slot, hslot, rfl⟩, hitems, hs, ?_⟩
  intro j it hj
  have hy : (locate slot.loc items)[j]? = some ⟨it, slot.loc⟩ := by
    rw [locate, List.getElem?_map, hj]
    rfl
  have hcode := halong j _ hy
  refine ⟨_, by rw [getElem?_resolve, hcode]; rfl, rfl, rfl, fun hjump => ?_⟩
  obtain ⟨t, ht, haims⟩ := h.aims hids he (hsub _ (List.mem_of_getElem? hy)) hitems hj hjump hs
  refine ⟨t, ht, ?_, haims⟩
  simp only [placed, ht]
  rfl

lemma LaidOut.exists_blockChart {b : BlockId} {l : List Id} {code : List Located} {n : Nat}
    (hl : c.func.listing? b = some l) (hcloses : c.func.Closes l) (hcode : c.block b = .ok code)
    (hsub : ∀ y ∈ code, y ∈ e.2.items)
    (halong : Along (fun n y => q.code[n]? = some (placed codes e.2.number n y)) n code) :
    ∃ d : BlockChart, d.block = b ∧ d.span = ⟨n, n + code.length⟩ ∧
      d.Fits c q.resolve (e.2.starts e.1) (codes.map fun e => (e.2.number, e.1)) := by
  obtain ⟨-, parts, hparts, rfl⟩ := (Context.block_eq_ok hl).mp hcode
  have hpos : ∀ i part, c.Codes i part → part ≠ [] := by
    rintro i part ⟨slot, items, -, hitems, rfl⟩
    exact fun hnil => (Context.select_heads hitems).1 (List.map_eq_nil_iff.mp hnil)
  obtain ⟨es, rfl, htiles, hes⟩ := exists_spans hparts hpos halong
  refine ⟨⟨b, ⟨n, n + parts.flatten.length⟩, es⟩, rfl, rfl, hl, htiles, fun d hd => ?_, ?_⟩
  · obtain ⟨part, hmem, hpart, hspan, hall⟩ := hes d hd
    exact h.stands hids he hpart
      (fun y hy => hsub y (List.mem_flatten.mpr ⟨part, hmem, hy⟩)) hspan hall
  · obtain ⟨pre, y, hflatten, hop⟩ := Context.transfers hparts hcloses
    have hlast := halong pre.length y (by simp [hflatten])
    have hplace : n + parts.flatten.length - 1 = n + pre.length := by
      rw [hflatten, List.length_append, List.length_singleton]
      omega
    rw [hplace, getElem?_resolve, hlast]
    exact ⟨_, rfl, hop⟩

/-- The blocks of a function have charts, which follow one another behind its opening. -/
lemma LaidOut.exists_blockCharts (hcoded : Coded c e.2)
    (hcloses : ∀ d ∈ e.2.blocks, ∃ l, c.func.listing? d.1 = some l ∧ c.func.Closes l) :
    ∃ bs : List BlockChart, bs.map (·.block) = e.2.blocks.map Prod.fst ∧
      (bs.map fun b => (b.block, b.span.first)) = e.2.starts e.1 ∧
      Tiles (e.1 + e.2.opening.length) (bs.map (·.span)) (e.1 + e.2.items.length) ∧
      ∀ b ∈ bs, b.Fits c q.resolve (e.2.starts e.1) (codes.map fun e => (e.2.number, e.1)) := by
  have hparts : List.Forall₂ (fun (d : BlockId × List Located) part => d ∈ e.2.blocks ∧ d.2 = part)
      e.2.blocks (e.2.blocks.map Prod.snd) :=
    List.forall₂_map_right_iff.mpr (List.forall₂_same.mpr fun d hd => ⟨hd, rfl⟩)
  have hpos : ∀ (d : BlockId × List Located) part, d ∈ e.2.blocks ∧ d.2 = part → part ≠ [] := by
    rintro d part ⟨hd, rfl⟩
    obtain ⟨l, hl, -⟩ := hcloses d hd
    exact length_pos_of_block hl (hcoded.code d.1 d.2 hd)
  obtain ⟨es, hes, htiles, hall⟩ := exists_spans hparts hpos (along_append.mp (h.along he)).2
  have hcharts : ∀ d ∈ es, ∃ b : BlockChart, b.block = d.1.1 ∧ b.span = d.2 ∧
      b.Fits c q.resolve (e.2.starts e.1) (codes.map fun e => (e.2.number, e.1)) := by
    intro d hd
    obtain ⟨part, -, ⟨hmem, rfl⟩, hspan, hcode⟩ := hall d hd
    obtain ⟨l, hl, hcl⟩ := hcloses d.1 hmem
    obtain ⟨b, hblock, hb, hfits⟩ := h.exists_blockChart hids he hl hcl (hcoded.code d.1.1 d.1.2 hmem)
      (fun y hy => List.mem_append_right _ (List.mem_flatMap.mpr ⟨d.1, hmem, hy⟩)) hcode
    exact ⟨b, hblock, by rw [hb, ← hspan], hfits⟩
  obtain ⟨bs, hbs⟩ := exists_forall₂ hcharts
  refine ⟨bs, ?_, ?_, ?_, fun b hb => ?_⟩
  · rw [← hes, List.map_map]
    exact (map_eq_map_of_forall₂ hbs fun d b hdb => hdb.1.symm).symm
  · rw [FuncCode.starts, ← hes, startsFrom_eq htiles fun d hd => ?_]
    · exact (map_eq_map_of_forall₂ hbs fun d b hdb => by rw [hdb.1, hdb.2.1]).symm
    · obtain ⟨part, -, ⟨-, rfl⟩, hspan, -⟩ := hall d hd
      exact hspan
  · have hspans : es.map Prod.snd = bs.map (·.span) :=
      map_eq_map_of_forall₂ hbs fun d b hdb => hdb.2.1.symm
    rw [hspans, ← List.flatMap_def] at htiles
    rwa [FuncCode.items, List.length_append, ← Nat.add_assoc]
  · obtain ⟨d, -, -, -, hfits⟩ := exists_of_forall₂ hbs hb
    exact hfits

lemma LaidOut.exists_funcChart (hcoded : Coded c e.2) (hverify : c.func.verify = .ok (.ok ())) :
    ∃ g : FuncChart, g.number = e.2.number ∧ g.span = ⟨e.1, e.1 + e.2.items.length⟩ ∧
      g.Fits c q.resolve (codes.map fun e => (e.2.number, e.1)) := by
  obtain ⟨blocks, hblocks⟩ := Flow.Func.verify_iff_verified.mp hverify
  obtain rfl : e.2.blocks.map Prod.fst = blocks :=
    Except.ok.inj (hcoded.reachable.symm.trans hblocks.reachable)
  obtain ⟨bs, hnames, hstarts, htiles, hfits⟩ := h.exists_blockCharts hids he hcoded
    fun d hd => hblocks.code (List.mem_map.mpr ⟨d, hd, rfl⟩)
  have hopening := (along_append.mp (h.along he)).1
  have hlen : e.2.opening.length = (openingOf c.ret).length := by
    rw [hcoded.opening, locate, List.length_map]
  have hreachable : c.func.reachable = .ok (bs.map (·.block)) := by rw [hcoded.reachable, hnames]
  refine ⟨⟨e.2.number, ⟨e.1, e.1 + e.2.items.length⟩, e.1 + e.2.opening.length, bs⟩, rfl, rfl, ?_⟩
  refine ⟨by rw [hlen], ?_, hreachable, ?_, ?_, htiles, fun b hb => ?_⟩
  · intro i it hi
    have hat := hopening i ⟨it, c.func.loc⟩ (by rw [hcoded.opening, locate, List.getElem?_map, hi]; rfl)
    rw [getElem?_resolve, hat]
    exact ⟨_, rfl, rfl, rfl⟩
  · obtain ⟨rest, hrest⟩ := Flow.Func.reachable_eq_cons hreachable
    rw [hrest, List.head?_cons]
  · rw [hnames]
    exact hcoded.nodup
  · have hb := hfits b hb
    rwa [← hstarts] at hb

end Function

lemma Chosen.tiles {start : Nat} {next final : Int64} (h : Chosen p frames start next ids codes final) :
    Tiles start (codes.map fun e => ⟨e.1, e.1 + e.2.items.length⟩)
      (start + (codes.map fun e => e.2.items.length).sum) := by
  induction h with
  | nil => exact .nil
  | cons _ hpos _ ih =>
    rw [List.map_cons, List.map_cons, List.sum_cons, ← Nat.add_assoc]
    exact .cons (Nat.lt_add_of_pos_right (Nat.pos_of_ne_zero hpos)) ih

lemma LaidOut.exists_chart (h : LaidOut p ids main frames codes q) (hids : ids.Nodup)
    (hverify : ∀ k ∈ ids, ∃ f, p.funcs[k]? = some f ∧ f.verify = .ok (.ok ())) :
    ∃ chart, Charts chart p ids q := by
  obtain ⟨next, hframes, hchosen⟩ := h.parts
  have hcharts : ∀ e ∈ codes, ∃ g : FuncChart, g.number = e.2.number ∧
      g.span = ⟨e.1, e.1 + e.2.items.length⟩ ∧ ∃ f, p.funcs[e.2.number]? = some f ∧ e.2.name = f.name ∧
        g.Fits ⟨p, frames, e.2.number, f, e.2.ret⟩ q.resolve (codes.map fun e => (e.2.number, e.1)) := by
    intro e he
    obtain ⟨f, after, hf, hcoded⟩ := hchosen.coded.2 e he
    have hmem : e.2.number ∈ ids := by
      rw [← (h.mainFirst_perm hids).mem_iff, ← h.numbers]
      exact List.mem_map.mpr ⟨e, he, rfl⟩
    obtain ⟨f', hf', hcheck⟩ := hverify _ hmem
    obtain rfl : f = f' := Option.some.inj (hf.symm.trans hf')
    obtain ⟨g, hnumber, hspan, hfits⟩ := h.exists_funcChart hids he hcoded hcheck
    refine ⟨g, hnumber, hspan, f, hf, hcoded.name, ?_⟩
    have hret := hcoded.ret
    rw [hret]
    exact hfits
  obtain ⟨chart, hchart⟩ := exists_forall₂ hcharts
  have hstarts : (codes.map fun e => (e.2.number, e.1)) = starts chart :=
    map_eq_map_of_forall₂ hchart fun e g heg => by rw [heg.1, heg.2.1]
  refine ⟨chart, ?_, ?_, frames, next, hframes, ?_⟩
  · rw [← h.numbers]
    exact (map_eq_map_of_forall₂ hchart fun e g heg => heg.1.symm).symm
  · have hspans : (codes.map fun e => (⟨e.1, e.1 + e.2.items.length⟩ : Span)) = chart.map (·.span) :=
      map_eq_map_of_forall₂ hchart fun e g heg => heg.2.1.symm
    have htiles := hchosen.tiles
    rwa [hspans, Nat.zero_add, ← h.code_size] at htiles
  · rw [h.funcs, List.forall₂_map_right_iff]
    refine hchart.flip.imp ?_
    rintro g e ⟨hnumber, hspan, f, hf, hname, hfits⟩
    rw [← hstarts, hnumber]
    exact ⟨f, hf, hname, hspan, hfits⟩

lemma isJump_of_mem_openingOf {ret : Option Cells} {it : Item} (hit : it ∈ openingOf ret) :
    it.op.isJump = false := by
  unfold openingOf at hit
  split at hit
  · cases hit
  · rcases List.mem_append.mp hit with hit | hit
    · have hplain : ∀ op ∈ [Machine.Op.rst, .shl, .inc], op.isJump = false := by decide
      obtain ⟨op, hop, rfl⟩ := mem_constant hit
      exact hplain op hop
    · rw [List.mem_singleton.mp hit]
      rfl

variable {chart : List FuncChart} {g : FuncChart}

lemma Aims.lt {x : Payload} {s : Span} {j t size : Nat} (h : Aims g.starts (starts chart) x s j t)
    (hblocks : ∀ d ∈ g.blocks, d.span.first < size) (hfuncs : ∀ g ∈ chart, g.span.first < size)
    (hs : s.behind ≤ size) : t < size := by
  have hblock : ∀ {b}, (b, t) ∈ g.starts → t < size := by
    intro b hb
    obtain ⟨d, hd, heq⟩ := List.mem_map.mp hb
    cases heq
    exact hblocks d hd
  cases x with
  | branch b => exact hblock h
  | branchIf test d a b => exact hblock h
  | call k args =>
    obtain ⟨n, -, hn⟩ := h
    obtain ⟨d, hd, heq⟩ := List.mem_map.mp hn
    cases heq
    exact hfuncs d hd
  | _ => exact h.2.trans_le hs

lemma BlockChart.Fits.jump {d : BlockChart} {blocks : List (BlockId × Nat)} {funcs : List (Nat × Nat)}
    {r : Program} {i : Nat} {y : Placed} (h : d.Fits c r blocks funcs) (hi : r.code[i]? = some y)
    (hle : d.span.first ≤ i) (hlt : i < d.span.behind) (hjump : y.instr.op.isJump = true) :
    ∃ (x : Payload) (s : Span) (j t : Nat), s.behind ≤ d.span.behind ∧ y.target = some t ∧
      y.instr.addr = t ∧ Aims blocks funcs x s j t := by
  obtain ⟨s, hs, hfirst, hbehind⟩ := h.tiles.cover hle hlt
  have hspan := (h.tiles.bounds hs).2.2
  obtain ⟨u, hu, rfl⟩ := List.mem_map.mp hs
  obtain ⟨x, items, -, -, hlen, hitems⟩ := h.code u hu
  have hin : i - u.2.first < items.length := by omega
  obtain ⟨y', hy', hop, -, hleads⟩ := hitems _ _ (List.getElem?_eq_getElem hin)
  rw [Nat.add_sub_cancel' hfirst, hi] at hy'
  cases hy'
  rw [hop] at hjump
  obtain ⟨t, htarget, haddr, haims⟩ := hleads hjump
  exact ⟨x, u.2, _, t, hspan, htarget, haddr, haims⟩

lemma FuncChart.Fits.jump {funcs : List (Nat × Nat)} {r : Program} {i : Nat} {y : Placed}
    (h : g.Fits c r funcs) (hi : r.code[i]? = some y) (hle : g.span.first ≤ i)
    (hlt : i < g.span.behind) (hjump : y.instr.op.isJump = true) :
    ∃ (x : Payload) (s : Span) (j t : Nat), s.behind ≤ g.span.behind ∧ y.target = some t ∧
      y.instr.addr = t ∧ Aims g.starts funcs x s j t := by
  by_cases hbody : i < g.body
  · have hend := h.body
    have hin : i - g.span.first < (openingOf c.ret).length := by omega
    obtain ⟨y', hy', hop, -⟩ := h.opening _ _ (List.getElem?_eq_getElem hin)
    rw [Nat.add_sub_cancel' hle, hi] at hy'
    cases hy'
    rw [hop, isJump_of_mem_openingOf (List.getElem_mem hin)] at hjump
    cases hjump
  · obtain ⟨s, hs, hfirst, hbehind⟩ := h.tiles.cover (Nat.le_of_not_lt hbody) hlt
    have hspan := (h.tiles.bounds hs).2.2
    obtain ⟨d, hd, rfl⟩ := List.mem_map.mp hs
    obtain ⟨x, s, j, t, hs, hrest⟩ := (h.code d hd).jump hi hfirst hbehind hjump
    exact ⟨x, s, j, t, hs.trans hspan, hrest⟩

lemma Charts.jump (h : Charts chart p ids q) {y : Placed} (hy : y ∈ q.resolve.code)
    (hjump : y.instr.op.isJump = true) :
    ∃ t : Nat, t < q.code.size ∧ y.target = some t ∧ y.instr.addr = t := by
  obtain ⟨i, hlt, hi⟩ := Array.mem_iff_getElem.mp hy
  have hsize : q.resolve.code.size = q.code.size := by simp [Program.resolve]
  rw [hsize] at hlt
  replace hi : q.resolve.code[i]? = some y := by rw [← hi, Array.getElem?_eq_getElem]
  have hfuncs : ∀ g ∈ chart, g.span.first < g.span.behind ∧ g.span.behind ≤ q.code.size :=
    fun g hg => (h.tiles.bounds (List.mem_map.mpr ⟨g, hg, rfl⟩)).2
  obtain ⟨frames, next, -, hall⟩ := h.funcs
  obtain ⟨s, hs, hfirst, hbehind⟩ := h.tiles.cover (Nat.zero_le i) hlt
  obtain ⟨g, hg, rfl⟩ := List.mem_map.mp hs
  obtain ⟨e, -, f, -, -, -, hfits⟩ := exists_of_forall₂ hall.flip hg
  obtain ⟨x, s, j, t, hs, htarget, haddr, haims⟩ := hfits.jump hi hfirst hbehind hjump
  have hend := (hfuncs g hg).2
  refine ⟨t, haims.lt (fun d hd => ?_) (fun g hg => ?_) (hs.trans hend), htarget, haddr⟩
  · have := (hfits.tiles.bounds (List.mem_map.mpr ⟨d, hd, rfl⟩)).2
    omega
  · have := hfuncs g hg
    omega

lemma Program.resolve_resolve (q : Program) : q.resolve.resolve = q.resolve := by
  unfold Program.resolve
  rw [Program.mk.injEq, Array.map_map]
  refine ⟨congrArg (Array.map · q.code) (funext fun ⟨instr, target, loc⟩ => ?_), rfl, rfl⟩
  cases target <;> rfl

/-- The code of different functions that pass their checks has a chart: that of the main program
comes first, that of the others in their order, and it has no gaps. Every jump has the place that it
leads to as its address, and this does not change any more. -/
theorem resolved_jumps_follow_chart (hids : ids.Nodup)
    (hverify : ∀ k ∈ ids, ∃ f, p.funcs[k]? = some f ∧ f.verify = .ok (.ok ()))
    (h : (lowerOnly p ids).run = .ok (.ok q)) :
    (∃ chart, Charts chart p ids q) ∧
      (∀ y ∈ q.resolve.code, y.instr.op.isJump = true →
        ∃ t : Nat, t < q.code.size ∧ y.target = some t ∧ y.instr.addr = t) ∧
      q.resolve.resolve = q.resolve := by
  obtain ⟨main, frames, codes, hlaid⟩ := lowerOnly_eq_ok.mp h
  obtain ⟨chart, hchart⟩ := hlaid.exists_chart hids hverify
  exact ⟨⟨chart, hchart⟩, fun y hy hjump => hchart.jump hy hjump, q.resolve_resolve⟩

/-- A procedure that reads numbers up to the first positive one. -/
def waiting : Flow.Func :=
  { name := "wait"
    entry := 0
    blocks := #[#[0, 1], #[2]]
    slots := #[
      { payload := .read, block := 0, refs := [1] },
      { payload := .branchIf .positive 0 1 0, block := 0 },
      { payload := .ret, block := 1 }] }

/-- A main program that calls it. -/
def awaiting : Flow.Func :=
  { name := "main"
    isMain := true
    entry := 0
    blocks := #[#[0, 1]]
    slots := #[
      { payload := .call 0 [], block := 0 },
      { payload := .stop, block := 0 }] }

/-- The jump of the call leads behind the main program. Those of the procedure lead behind themselves
and back behind its opening. -/
theorem awaiting_jumps_follow_chart :
    ∃ q, lower ⟨#[waiting, awaiting]⟩ = .ok (.ok q) ∧
      (q.resolve.code.toList.filter (·.instr.op.isJump)).map (·.instr.addr) = [3, 9, 5] ∧
      (∃ chart, Charts chart ⟨#[waiting, awaiting]⟩ [0, 1] q) ∧
      (∀ y ∈ q.resolve.code, y.instr.op.isJump = true →
        ∃ t : Nat, t < q.code.size ∧ y.target = some t ∧ y.instr.addr = t) ∧
      q.resolve.resolve = q.resolve := by
  obtain ⟨q, hq, haddrs⟩ : ∃ q, lower ⟨#[waiting, awaiting]⟩ = .ok (.ok q) ∧
      (q.resolve.code.toList.filter (·.instr.op.isJump)).map (·.instr.addr) = [3, 9, 5] :=
    exists_ok_of_test (by cbv)
  have hverify : ∀ k ∈ [0, 1], ∃ f, (#[waiting, awaiting] : Array Flow.Func)[k]? = some f ∧
      f.verify = .ok (.ok ()) := by
    have hwaiting : waiting.verify = .ok (.ok ()) := by cbv
    have hawaiting : awaiting.verify = .ok (.ok ()) := by cbv
    simp only [List.forall_mem_cons, List.not_mem_nil, false_imp_iff, implies_true, and_true]
    exact ⟨⟨waiting, rfl, hwaiting⟩, awaiting, rfl, hawaiting⟩
  obtain ⟨hchart, hjumps, hagain⟩ := resolved_jumps_follow_chart (by decide) hverify hq
  exact ⟨q, hq, haddrs, hchart, hjumps, hagain⟩

end Program

end Accumulator.Layout
