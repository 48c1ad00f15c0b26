import Mathlib
import Accumulator.Proofs.CodeLength
import Accumulator.Proofs.Compiling
import Accumulator.Proofs.DecidableTrees
import Accumulator.Proofs.Placing

/-!
# Coalescing and the length of code

With the prices of addresses as they are, no rule of coalescing makes a block longer. But coalescing
also drops local variables, and so moves what stands behind them in memory. A program gets no longer
as long as no cell moves to an address that takes more instructions. It may happen that one does.
-/

namespace Accumulator

namespace Flow.Func

open Layout (Prices)
open Layout.Prices

variable {f g f' : Func} {b c : BlockId} {i v : Id} {pre mid mid' post : List Id} {σ : Id → Id}

lemma Shape.code_le (h : Shape f f' v pre mid mid' σ) (hvars : ∀ j, f'.varOf? j = f.varOf? j)
    (π : Prices) : π.code f' mid' ≤ π.code f mid := by
  cases h with
  | drop hs hl hv => simp
  | swap h₁ hs h₂ h₃ hx hy hyv hv h₁' h₂' =>
    simp only [code_cons, code_nil, π.slot_eq h₁, π.slot_eq hs, π.slot_eq h₂,
      π.slot_eq h₃, π.slot_eq h₁', π.slot_eq h₂', piece_congr hvars]
    omega
  | pair hs ha hc hm hmv hv hp hfresh =>
    simp only [code_cons, code_nil, π.slot_eq hs, π.slot_eq ha, π.slot_eq hc,
      π.slot_eq hp, piece, hm, hv.isSome, if_true]
    omega
  | double hs ha hc hv hs' hp hfresh =>
    simp only [code_cons, code_nil, π.slot_eq hs, π.slot_eq ha, π.slot_eq hc,
      π.slot_eq hs', π.slot_eq hp, piece, hvars, hv.isSome, if_true]
    omega

section Window

variable (hf : Tidy f) (hset : Settled f) (hr : f.Reaches b)
  (hwin : Window f f' b pre mid mid' post σ) (hs : Shape f f' v pre mid mid' σ) (π : Prices)
include hf hset hr hwin hs

lemma Window.slot_post (hi : i ∈ post) : π.slot f' i = π.slot f i := by
  have hmem : i ∈ pre ++ (mid ++ post) := by simp [hi]
  obtain ⟨x, hx, -⟩ := hf.sound.live_of_mem hwin.before hmem
  have hx' : f'.live? i = some (x.rename σ) := by
    rw [hwin.live_map (hwin.disjoint hf.sound (Or.inr hi)), hx, Option.map_some]
  rw [π.slot_eq hx, π.slot_eq hx']
  refine piece_rename (fun d hd => hwin.varOf?_operand hf hs hx hd) fun d hd => ?_
  have hvar := hset.named ⟨b, _, hr, hwin.before, hmem⟩ hx d hd
  exact hwin.fixed d (hwin.var hf.sound hvar).1

lemma Window.block_le (hc : f.Reaches c) : π.block f' c ≤ π.block f c := by
  by_cases hcb : c = b
  · subst hcb
    have hpre : π.code f' pre = π.code f pre :=
      code_congr fun i hi => slot_congr hwin.vars (hwin.live_pre hf hr hi)
    have hmid := hs.code_le hwin.vars π
    have hpost : π.code f' post = π.code f post :=
      code_congr fun i hi => hwin.slot_post hf hset hr hs π hi
    simp only [π.block_eq hwin.listing_self, π.block_eq hwin.before, code_append]
    omega
  · obtain ⟨l, hl, -⟩ := hf.wellFormed.closes hc
    rw [π.block_eq ((hwin.listing_of_ne hcb).trans hl), π.block_eq hl]
    apply le_of_eq
    exact code_congr fun i hi => slot_congr hwin.vars (hwin.live_other hf hc hcb hl hi)

end Window

lemma Coalesces.block_le (hf : Tidy f) (hset : Settled f) (h : Coalesces f g) (π : Prices)
    (hc : f.Reaches c) : π.block g c ≤ π.block f c := by
  induction h with
  | refl => exact le_rfl
  | tail hchain hstep ih =>
    obtain ⟨b, hr, v, pre, mid, mid', post, σ, hwin, hs⟩ := hstep
    obtain ⟨ht, hkept⟩ := Coalesces.keeps hf hchain
    have hreach := (hkept.reaches c).mpr hc
    exact (hwin.block_le ht (Coalesces.settled hf hset hchain) hr hs π hreach).trans ih

lemma Pruned.block_eq (hf : Tidy f) (h : Pruned f f') (π : Prices) (c : BlockId) :
    π.block f' c = π.block f c := by
  cases hl : f.listing? c with
  | none => simp [block, h.code, hl]
  | some l =>
    rw [π.block_eq ((h.code c).trans hl), π.block_eq hl]
    exact code_congr fun i hi => slot_congr h.vars (h.live_of_mem hf hl hi)

lemma Coalesced.block_le (hf : Tidy f) (hset : Settled f) (h : Coalesced f f') (π : Prices)
    (hc : f.Reaches c) : π.block f' c ≤ π.block f c := by
  obtain ⟨g, hchain, hp⟩ := h.chain
  rw [hp.block_eq (hchain.keeps hf).1]
  exact hchain.block_le hf hset π hc

end Flow.Func

namespace Layout

open Accumulator.Flow (Id BlockId)

variable {p p' : Flow.Program} {frames frames' : Frames} {f f' : Flow.Func} {c c' : Context}
  {k main main' : Nat} {v : Id} {a a' d d' : Cells} {codes codes' : List (Nat × FuncCode)}
  {q q' : Program} {next next' : Int64}

/-- Cells of the same kind whose address takes no more instructions. -/
structure Cells.NoFarther (a' a : Cells) : Prop where
  indirect : a'.indirect = a.indirect
  address : constantLength a'.addr.toUInt64 ≤ constantLength a.addr.toUInt64

lemma length_argument_le (hd : d'.NoFarther d) (ha : a'.NoFarther a) :
    (Context.argument d' a').length ≤ (Context.argument d a).length := by
  have hdl := hd.address
  have hal := ha.address
  unfold Context.argument
  rw [hd.indirect, ha.indirect]
  split_ifs <;> simp only [List.length_append, length_constant] <;> omega

/-- The code that passes an argument to a parameter of function `k`. -/
def Context.Passing (c : Context) (k : Int) (e : Id × Id) (part : List Item) : Prop :=
  ∃ d a, c.frames.cells k.toNat e.1 = .ok d ∧ c.frames.cells c.number e.2 = .ok a ∧
    part = Context.argument d a

lemma Context.arguments_eq_ok {k : Int} {params args : List Id} {items : List Item} :
    c.arguments k params args = .ok items ↔
      ∃ parts, List.Forall₂ (c.Passing k) (params.zip args) parts ∧ items = parts.flatten := by
  have hpart : ∀ (e : Id × Id) part, (do
      let d ← c.frames.cells k.toNat e.1
      let a ← c.frames.cells c.number e.2
      return Context.argument d a : Except Fault (List Item)) = .ok part ↔ c.Passing k e part := by
    intro e part
    simp only [bind_eq_ok, pure_eq_ok, Except.ok.injEq, Context.Passing]
    constructor
    · rintro ⟨d, hd, a, ha, rfl⟩
      exact ⟨d, a, hd, ha, rfl⟩
    · rintro ⟨d, a, hd, ha, rfl⟩
      exact ⟨d, hd, a, ha, rfl⟩
  rw [Context.arguments, bind_eq_ok]
  simp only [mapM_eq_ok, hpart]
  refine exists_congr fun parts => and_congr_right fun _ => ?_
  rw [pure_eq_ok, Except.ok.injEq, eq_comm]

/-- Whatever has cells in a context has cells in another one that are no nearer. -/
structure Context.NoFarther (c' c : Context) : Prop where
  number : c'.number = c.number
  params : ∀ {k g'}, Flow.lookup c'.program.funcs k = .ok g' →
    ∃ g, Flow.lookup c.program.funcs k = .ok g ∧ g.params = g'.params
  cells : ∀ {k v a'}, c'.frames.cells k v = .ok a' →
    ∃ a, c.frames.cells k v = .ok a ∧ a'.NoFarther a
  ret : ∀ {a'}, c'.ret = some a' → ∃ a, c.ret = some a ∧ a'.NoFarther a

namespace Context.NoFarther

lemma arguments (h : c'.NoFarther c) {k : Int} {params args : List Id} {items' : List Item}
    (hitems : c'.arguments k params args = .ok items') :
    ∃ items, c.arguments k params args = .ok items ∧ items'.length ≤ items.length := by
  obtain ⟨parts', hparts, rfl⟩ := Context.arguments_eq_ok.mp hitems
  suffices hall : ∃ parts, List.Forall₂ (c.Passing k) (params.zip args) parts ∧
      parts'.flatten.length ≤ parts.flatten.length by
    obtain ⟨parts, hparts, hle⟩ := hall
    exact ⟨parts.flatten, Context.arguments_eq_ok.mpr ⟨parts, hparts, rfl⟩, hle⟩
  clear hitems
  generalize params.zip args = l at hparts
  induction hparts with
  | nil => exact ⟨[], .nil, le_rfl⟩
  | cons hpart _ ih =>
    obtain ⟨d', a', hd', ha', rfl⟩ := hpart
    obtain ⟨parts, hparts, hle⟩ := ih
    obtain ⟨d, hd, hdd⟩ := h.cells hd'
    obtain ⟨a, ha, haa⟩ := h.cells ha'
    rw [h.number] at ha
    refine ⟨Context.argument d a :: parts, .cons ⟨d, a, hd, ha, rfl⟩ hparts, ?_⟩
    rw [List.flatten_cons, List.flatten_cons, List.length_append, List.length_append]
    exact Nat.add_le_add (length_argument_le hdd haa) hle

lemma call (h : c'.NoFarther c) {k : Int} {args : List Id} {items' : List Item}
    (hitems : c'.call k args = .ok items') :
    ∃ items, c.call k args = .ok items ∧ items'.length ≤ items.length := by
  rw [Context.call, bind_eq_ok] at hitems
  obtain ⟨g', hg', hitems⟩ := hitems
  obtain ⟨g, hg, hparams⟩ := h.params hg'
  split at hitems
  · cases hitems
  · next hlen =>
    rw [bind_eq_ok] at hitems
    obtain ⟨l', hl', hitems⟩ := hitems
    cases hitems
    obtain ⟨l, hl, hle⟩ := h.arguments hl'
    refine ⟨l ++ [{ op := .strk, reg := .a }, { op := .jump, target := .func k }], ?_, by simpa using hle⟩
    rw [Context.call, hg, ok_bind, hparams, if_neg hlen, hl]
    rfl

lemma atMost (h : c'.NoFarther c) : c'.prices.AtMost c.prices := by
  refine ⟨fun v => ?_, ?_, fun k args => ?_⟩
  · cases ha' : c'.frames.cells c'.number v with
    | error => simp [Context.prices, ha', Except.toOption]
    | ok a' =>
      obtain ⟨a, ha, hle⟩ := h.cells ha'
      rw [h.number] at ha ha'
      simpa [Context.prices, ha, ha', h.number, Except.toOption] using hle.address
  · cases ha' : c'.ret with
    | none => simp [Context.prices, ha']
    | some a' =>
      obtain ⟨a, ha, hle⟩ := h.ret ha'
      simpa [Context.prices, ha, ha'] using hle.address
  · cases hitems' : c'.call k args with
    | error => simp [Context.prices, hitems', Except.toOption]
    | ok items' =>
      obtain ⟨items, hitems, hle⟩ := h.call hitems'
      simpa [Context.prices, hitems, hitems', Except.toOption] using hle

end Context.NoFarther

lemma Selected.length_le {code code' : FuncCode} (h : Selected c code) (h' : Selected c' code')
    (hf : c.func.Tidy) (hset : c.func.Settled) (hco : c.func.Coalesced c'.func)
    (hnear : c'.NoFarther c) : code'.items.length ≤ code.items.length := by
  have hprices := hnear.atMost
  rw [h.length_items hf.sound hf.wellFormed,
    h'.length_items hco.tidy.sound hco.tidy.wellFormed]
  have hopening : (if c'.ret.isSome then c'.prices.ret + 1 else 0) ≤
      if c.ret.isSome then c.prices.ret + 1 else 0 := by
    cases ha' : c'.ret with
    | none => simp
    | some a' =>
      obtain ⟨a, ha, -⟩ := hnear.ret ha'
      simpa [ha] using hprices.ret
  have hperm : (code'.blocks.map Prod.fst).Perm (code.blocks.map Prod.fst) := by
    rw [List.perm_ext_iff_of_nodup h'.nodup h.nodup]
    intro b
    rw [h'.mem, h.mem, hco.reaches]
  have hblocks : ((code'.blocks.map Prod.fst).map (c'.prices.block c'.func)).sum ≤
      ((code.blocks.map Prod.fst).map (c.prices.block c.func)).sum := by
    rw [(hperm.map _).sum_eq]
    refine List.sum_le_sum fun b hb => ?_
    exact (hprices.block b).trans (hco.block_le hf hset c.prices ((h.mem b).mp hb))
  exact Nat.add_le_add hopening hblocks

/-- The functions of a program in the order of their code, the entry first. -/
def codeOrder (p : Flow.Program) : List Nat :=
  match p.main? with
  | none => []
  | some main => main :: (List.range p.funcs.size).filter (· ≠ main)

/-- The variables of a function, in the order of their cells. -/
def frameVars (p : Flow.Program) (k : Nat) : List Id :=
  ((p.funcs[k]?).map fun f => f.locals ++ f.params).getD []

/-- All cells of a program with their owners: a variable of a function, or its return address. -/
def owned (p : Flow.Program) (q : Program) : List ((Nat × Option Id) × Cells) :=
  ((codeOrder p).zip q.funcs).flatMap fun (k, f) =>
    f.ret.toList.map (fun a => ((k, none), a)) ++
      ((frameVars p k).map fun v => (k, some v)).zip f.frame

lemma Laid.codeOrder_eq (h : Laid p main frames codes q) :
    codeOrder p = main :: (List.range p.funcs.size).filter (· ≠ main) := by
  rw [codeOrder, h.main?]

lemma Laid.numbers (h : Laid p main frames codes q) (hp : p.Placeable) :
    codes.map (fun e => e.2.number) = codeOrder p ∧ ∀ e ∈ codes, ∃ f next,
      p.funcs[e.2.number]? = some f ∧ Selected (funcContext p frames next e.2.number f) e.2 := by
  rw [h.codeOrder_eq]
  exact h.selected fun hf => ⟨(hp.tidy hf).sound, (hp.tidy hf).wellFormed⟩

lemma Laid.zip_eq (h : Laid p main frames codes q) (hp : p.Placeable) :
    (codeOrder p).zip q.funcs = codes.map fun e => (e.2.number,
      { name := e.2.name, start := e.1, size := e.2.items.length,
        frame := (frames.frame e.2.number).map (·.2), ret := e.2.ret }) := by
  rw [← (h.numbers hp).1, h.funcs, List.zip_map']

lemma Laid.mem_owned_ret (h : Laid p main frames codes q) (hp : p.Placeable) {e : Nat × FuncCode}
    (he : e ∈ codes) (ha : e.2.ret = some a) : ((e.2.number, none), a) ∈ owned p q := by
  rw [owned, h.zip_eq hp, List.mem_flatMap]
  exact ⟨_, List.mem_map.mpr ⟨e, he, rfl⟩, List.mem_append_left _ (by simp [ha])⟩

lemma Laid.mem_owned_var (h : Laid p main frames codes q) (hp : p.Placeable)
    (ha : frames.cells k v = .ok a) : ((k, some v), a) ∈ owned p q := by
  obtain ⟨next, hframes, -⟩ := h.parts
  obtain ⟨hframe, hmem⟩ := Frames.mem_frame ha
  obtain ⟨f, hf, hvars⟩ := (buildFrames_keys hframes).2 k _ hframe
  have hk : k ∈ codes.map fun e => e.2.number := by
    rw [(h.numbers hp).1, h.codeOrder_eq, h.perm.mem_iff, List.mem_range]
    exact (Array.getElem?_eq_some_iff.mp hf).1
  obtain ⟨e, he, rfl⟩ := List.mem_map.mp hk
  rw [owned, h.zip_eq hp, List.mem_flatMap]
  refine ⟨_, List.mem_map.mpr ⟨e, he, rfl⟩, List.mem_append_right _ ?_⟩
  have hframeVars : frameVars p e.2.number = (frames.frame e.2.number).map Prod.fst := by
    rw [frameVars, hf, hvars, Option.map_some, Option.getD_some]
  simp only [hframeVars, List.map_map, List.zip_map']
  exact List.mem_map.mpr ⟨(v, a), hmem, rfl⟩

/-- No cell of a program takes more instructions to address than that of its owner in another. -/
def NoFarther (l' l : List ((Nat × Option Id) × Cells)) : Prop :=
  ∀ e' ∈ l', ∀ e ∈ l, e'.1 = e.1 →
    constantLength e'.2.addr.toUInt64 ≤ constantLength e.2.addr.toUInt64

instance (l' l : List ((Nat × Option Id) × Cells)) : Decidable (NoFarther l' l) :=
  inferInstanceAs (Decidable (∀ e' ∈ l', ∀ e ∈ l, e'.1 = e.1 →
    constantLength e'.2.addr.toUInt64 ≤ constantLength e.2.addr.toUInt64))

/-- Functions that were coalesced one by one. -/
structure CoalescedAll (p p' : Flow.Program) : Prop where
  size : p'.funcs.size = p.funcs.size
  func : ∀ {k : Nat} {f f'}, p.funcs[k]? = some f → p'.funcs[k]? = some f' → f.Coalesced f'

namespace CoalescedAll

lemma of_forall₂ (h : List.Forall₂ Flow.Func.Coalesced p.funcs.toList p'.funcs.toList) :
    CoalescedAll p p' := by
  refine ⟨by simpa using h.length_eq.symm, fun {k f f'} hf hf' => ?_⟩
  rw [← Array.getElem?_toList, List.getElem?_eq_some_iff] at hf hf'
  obtain ⟨hk, rfl⟩ := hf
  obtain ⟨hk', rfl⟩ := hf'
  exact h.get hk hk'

variable (hall : CoalescedAll p p')
include hall

lemma exists_func (hf' : p'.funcs[k]? = some f') : ∃ f, p.funcs[k]? = some f ∧ f.Coalesced f' := by
  have hk : k < p.funcs.size := by
    rw [← hall.size]
    exact (Array.getElem?_eq_some_iff.mp hf').1
  have hf : p.funcs[k]? = some _ := Array.getElem?_eq_getElem hk
  exact ⟨_, hf, hall.func hf hf'⟩

lemma codeOrder_eq (h : Laid p main frames codes q) (h' : Laid p' main' frames' codes' q') :
    codeOrder p' = codeOrder p := by
  have hentry : ∀ k : Nat, (p'.funcs[k]?).any (·.isMain) = (p.funcs[k]?).any (·.isMain) := by
    intro k
    cases hf' : p'.funcs[k]? with
    | none =>
      have hf : p.funcs[k]? = none := by
        rw [Array.getElem?_eq_none_iff] at hf' ⊢
        rwa [← hall.size]
      rw [hf]
    | some f' =>
      obtain ⟨f, hf, hco⟩ := hall.exists_func hf'
      obtain ⟨slots, blocks, locals, rfl⟩ := hco.rest
      rw [hf]
      rfl
  have hmain : main' = main := by
    have hfound := h'.found
    simp only [hall.size, hentry, h.found, Option.some.injEq] at hfound
    exact hfound.symm
  rw [h'.codeOrder_eq, h.codeOrder_eq, hall.size, hmain]

lemma cells (hp : p.Placeable) (hp' : p'.Placeable) (h : Laid p main frames codes q)
    (h' : Laid p' main' frames' codes' q') (hnear : NoFarther (owned p' q') (owned p q))
    (ha' : frames'.cells k v = .ok a') : ∃ a, frames.cells k v = .ok a ∧ a'.NoFarther a := by
  obtain ⟨next, hframes, -⟩ := h.parts
  obtain ⟨next', hframes', -⟩ := h'.parts
  obtain ⟨hframe, hmem⟩ := Frames.mem_frame ha'
  obtain ⟨f', hf', hvars⟩ := (buildFrames_keys hframes').2 k _ hframe
  obtain ⟨f, hf, hco⟩ := hall.exists_func hf'
  have hv : v ∈ f.locals ++ f.params := by
    have hv' : v ∈ f'.locals ++ f'.params := by
      rw [← hvars]
      exact List.mem_map.mpr ⟨(v, a'), hmem, rfl⟩
    obtain ⟨slots, blocks, locals, hrest⟩ := hco.rest
    rcases List.mem_append.mp hv' with hv' | hv'
    · exact List.mem_append_left _ (hco.locals.subset hv')
    · rw [hrest] at hv'
      exact List.mem_append_right _ hv'
  have hk : k ∈ List.range p.funcs.size :=
    List.mem_range.mpr (Array.getElem?_eq_some_iff.mp hf).1
  obtain ⟨a, ha⟩ := cells_ok hframes hk hf hv
  refine ⟨a, ha, ?_, ?_⟩
  · obtain ⟨g, hg, w, hw, -, hind⟩ :=
      (buildFrames_consecutive (n := 0) hframes).2 k v a (Frames.mem_all ha)
    obtain ⟨g', hg', w', hw', -, hind'⟩ :=
      (buildFrames_consecutive (n := 0) hframes').2 k v a' (Frames.mem_all ha')
    obtain rfl := Option.some.inj (hf.symm.trans hg)
    obtain rfl := Option.some.inj (hf'.symm.trans hg')
    rw [hco.vars, hw] at hw'
    rw [hind, hind', Option.some.inj hw']
  · exact hnear _ (h'.mem_owned_var hp' ha') _ (h.mem_owned_var hp ha) rfl

end CoalescedAll

lemma exists_retCell (h : f.Coalesced f') (ha' : retCell f' next' = some a')
    (next : Int64) : ∃ a, retCell f next = some a ∧ a'.indirect = a.indirect := by
  obtain ⟨slots, blocks, locals, rfl⟩ := h.rest
  unfold retCell at ha' ⊢
  split at ha'
  · cases ha'
  · next hmain =>
    cases ha'
    exact ⟨_, if_neg hmain, rfl⟩

/-- A program is not longer after coalescing if no cell is farther. -/
theorem Laid.size_le (hall : CoalescedAll p p') (hp : p.Placeable) (hp' : p'.Placeable)
    (h : Laid p main frames codes q) (h' : Laid p' main' frames' codes' q')
    (hnear : NoFarther (owned p' q') (owned p q)) : q'.code.size ≤ q.code.size := by
  obtain ⟨hnumbers, hselected⟩ := h.numbers hp
  obtain ⟨hnumbers', hselected'⟩ := h'.numbers hp'
  have hle : ∀ e' ∈ codes', ∀ e ∈ codes, e'.2.number = e.2.number →
      e'.2.items.length ≤ e.2.items.length := by
    intro e' he' e he heq
    obtain ⟨f, next, hf, hsel⟩ := hselected e he
    obtain ⟨f', next', hf', hsel'⟩ := hselected' e' he'
    rw [heq] at hf'
    have hco := hall.func hf hf'
    refine hsel.length_le hsel' (hp.tidy hf) (hp.settled hf) hco ⟨heq, fun hg' => ?_,
      fun ha' => hall.cells hp hp' h h' hnear ha', fun {a'} ha' => ?_⟩
    · obtain ⟨hk, hg'⟩ := Flow.lookup_eq_ok.mp hg'
      obtain ⟨g, hg, hcog⟩ := hall.exists_func hg'
      obtain ⟨slots, blocks, locals, rfl⟩ := hcog.rest
      exact ⟨g, Flow.lookup_eq_ok.mpr ⟨hk, hg⟩, rfl⟩
    · obtain ⟨a, ha, hind⟩ := exists_retCell hco ha' next
      refine ⟨a, ha, hind, ?_⟩
      exact hnear _ (h'.mem_owned_ret hp' he' (hsel'.ret.trans ha')) _
        (h.mem_owned_ret hp he (hsel.ret.trans ha)) (by rw [heq])
  have heq : codes'.map (fun e => e.2.number) = codes.map fun e => e.2.number := by
    rw [hnumbers', hall.codeOrder_eq h h', hnumbers]
  have hpairs : List.Forall₂ (· ≤ ·) (codes'.map fun e => e.2.items.length)
      (codes.map fun e => e.2.items.length) := by
    rw [List.forall₂_map_left_iff, List.forall₂_map_right_iff, List.forall₂_iff_get]
    refine ⟨by simpa using congrArg List.length heq, fun i hi' hi => ?_⟩
    apply hle _ (List.get_mem ..) _ (List.get_mem ..)
    have := congrArg (·[i]?) heq
    simpa [hi, hi'] using this
  rw [h.code_size, h'.code_size]
  exact hpairs.sum_le_sum

end Layout

namespace Compile

variable {p : Flow.Program} {o o' : Options} {r s : Result}

/-- All cells of a compiled program with their owners. -/
def Result.owned (r : Result) : List ((Nat × Option Flow.Id) × Layout.Cells) :=
  Layout.owned r.flow r.program

lemma coalesced_of_optimized {fs gs gs' : List Flow.Func} (ho : o.noCoalesce = true)
    (ho' : o'.noCoalesce = false) (h : List.Forall₂ (Optimized o) fs gs)
    (h' : List.Forall₂ (Optimized o') fs gs') : List.Forall₂ Flow.Func.Coalesced gs gs' := by
  induction h generalizing gs' with
  | nil =>
    cases h'
    exact .nil
  | cons hopt _ ih =>
    cases h' with
    | cons hopt' hrest =>
      refine .cons ?_ (ih hrest)
      obtain ⟨n, S, f₁, ids, f₂, hcanon, -, hspill, -, hg⟩ := hopt
      obtain ⟨n', S', f₁', ids', f₂', hcanon', -, hspill', -, hg'⟩ := hopt'
      obtain ⟨-, rfl⟩ := Prod.mk.inj (Except.ok.inj (hcanon.symm.trans hcanon'))
      obtain ⟨-, rfl⟩ := Prod.mk.inj (Except.ok.inj (hspill.symm.trans hspill'))
      simp only [ho, ho', Bool.true_eq_false, Bool.false_eq_true, false_and, true_and, or_false,
        false_or] at hg hg'
      rw [hg]
      exact hg'

lemma Compiled.size_le (h : Compiled o p s) (h' : Compiled o' p r) (ho : o.noCoalesce = true)
    (ho' : o'.noCoalesce = false) (hnear : Layout.NoFarther r.owned s.owned) :
    r.program.code.size ≤ s.program.code.size := by
  obtain ⟨q, hq, hs⟩ := h.program
  obtain ⟨q', hq', hr⟩ := h'.program
  obtain ⟨main, frames, codes, hlaid⟩ := Layout.lower_eq_ok.mp hq
  obtain ⟨main', frames', codes', hlaid'⟩ := Layout.lower_eq_ok.mp hq'
  have hall := coalesced_of_optimized ho ho' h.funcs h'.funcs
  have hnear' : Layout.NoFarther (Layout.owned r.flow q') (Layout.owned s.flow q) := by
    rw [Result.owned, Result.owned, hs, hr] at hnear
    exact hnear
  have hle := hlaid.size_le (.of_forall₂ hall) h.placeable h'.placeable hlaid' hnear'
  simpa [hs, hr, Layout.Program.resolve] using hle

lemma compare_results {P : Result → Result → Prop} [∀ r s, Decidable (P r s)] {file : Tree.File}
    (hr : compile o file = .ok (.ok r)) (hs : compile o' file = .ok (.ok s))
    (h : ((compile o file).toOption.bind Except.toOption).any (fun r =>
      ((compile o' file).toOption.bind Except.toOption).any fun s => decide (P r s)) = true) :
    P r s := by
  rw [hr, hs] at h
  simpa [Except.toOption] using h

end Compile

/-- Coalescing makes no program longer, unless a variable or a return address that is left moves to
an address that takes more instructions. -/
theorem coalesced_size_le {raw : Tree.RawFile} {file : Tree.File}
    (h : raw.link.run = .ok (.ok file)) (noVerify : Bool) :
    ∃ r s, compile { noCoalesce := false, noVerify := noVerify } file = .ok (.ok r) ∧
      compile { noCoalesce := true, noVerify := noVerify } file = .ok (.ok s) ∧
      (Layout.NoFarther r.owned s.owned → r.program.code.size ≤ s.program.code.size) := by
  have hfile := (raw.link_linked h).sensible
  obtain ⟨p, r, hp, hr, hcr⟩ := hfile.compile_ok { noCoalesce := false, noVerify := noVerify }
  obtain ⟨p', s, hp', hs, hcs⟩ := hfile.compile_ok { noCoalesce := true, noVerify := noVerify }
  obtain rfl : p = p' := Except.ok.inj (Except.ok.inj (hp.symm.trans hp'))
  exact ⟨r, s, hr, hs, fun hnear => hcs.size_le hcr rfl rfl hnear⟩

open Tree.Node in
/-- A program with an array of the given size. -/
def arrayOf (size : Int) : Tree.RawFile where
  procedures := [some {
    name := "p"
    params := [{ name := "y" }]
    body := [record [("write", word "1")]] }]
  main := some {
    locals := [{ name := "t", size := size }]
    body := [record [("call", word "p"), ("args", list [word "t"])]] }

def arrayFile (size : Int) : Tree.File where
  decls := [{
    name := "p", params := [{ name := "y" }]
    body := [.write {} (.number {} 1)] }, {
    name := "main", isMain := true
    locals := [{ name := "t", size := size }]
    body := [.call {} (some 0) [.ident {} (.localVar 0)]] }]

set_option maxRecDepth 2000 in
/-- The cells move from 1, 2 and 257 to 0, 1 and 256. -/
theorem array_size_le :
    ∃ file r s, (arrayOf 255).link.run = .ok (.ok file) ∧
      compile { noCoalesce := false, noVerify := false } file = .ok (.ok r) ∧
      compile { noCoalesce := true, noVerify := false } file = .ok (.ok s) ∧
      Layout.NoFarther r.owned s.owned ∧ r.program.code.size ≤ s.program.code.size := by
  have hfile : (arrayOf 255).link.run = .ok (.ok (arrayFile 255)) := by decide +kernel
  obtain ⟨r, s, hr, hs, hle⟩ := coalesced_size_le hfile false
  have hnear : Layout.NoFarther r.owned s.owned :=
    Compile.compare_results (P := fun r s => Layout.NoFarther r.owned s.owned) hr hs (by cbv)
  exact ⟨_, r, s, hfile, hr, hs, hnear, hle hnear⟩

set_option maxRecDepth 2000 in
/-- The cell for the return address of `p` moves from 256 to 255, which takes more instructions. -/
theorem array_size_gt :
    ∃ file r s, (arrayOf 254).link.run = .ok (.ok file) ∧
      compile { noCoalesce := false, noVerify := false } file = .ok (.ok r) ∧
      compile { noCoalesce := true, noVerify := false } file = .ok (.ok s) ∧
      s.program.code.size < r.program.code.size := by
  have hfile : (arrayOf 254).link.run = .ok (.ok (arrayFile 254)) := by decide +kernel
  have hsensible := (Tree.RawFile.link_linked _ hfile).sensible
  obtain ⟨-, r, -, hr, -⟩ := hsensible.compile_ok { noCoalesce := false, noVerify := false }
  obtain ⟨-, s, -, hs, -⟩ := hsensible.compile_ok { noCoalesce := true, noVerify := false }
  refine ⟨_, r, s, hfile, hr, hs, ?_⟩
  exact Compile.compare_results (P := fun r s => s.program.code.size < r.program.code.size) hr hs
    (by cbv)

end Accumulator
