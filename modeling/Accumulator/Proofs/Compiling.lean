import Mathlib
import Accumulator.Compile
import Accumulator.Proofs.BuildingBodies
import Accumulator.Proofs.LayingOut
import Accumulator.Proofs.Selectable

/-!
# Programs compile

What was linked is built into orderly functions. These pass all checks between the stages
of compilation, no stage breaks on them, and what comes out can be laid out.
-/

namespace Accumulator

open Accumulator.Flow (Id BlockId Payload)
open Accumulator.Flow.Func
open Accumulator.Flow.Check (Passes passes_bind passes_seq passes_pure passes_lift)

section Stages

variable {arity : Nat → Nat → Prop} {f g : Flow.Func} {o : Compile.Options} {ids S : List Id}

namespace Flow.Func

/-- The values that an instruction of an orderly function uses are computed in their order. -/
lemma Orderly.arranged (hf : Orderly arity ∅ f) : Arranged f := by
  refine ⟨fun {c l u x} _ hl hu hx => ?_, fun {u x} _ hx d hd => hf.framed d (hf.named hx d hd),
    fun _ => hf.unpaired⟩
  obtain ⟨pre, post, rfl⟩ := List.append_of_mem hu
  have hall : (f.avail pre).filter f.producesAt = f.avail pre := by
    refine List.filter_eq_self.mpr fun d hd => ?_
    obtain ⟨y, hy, hp⟩ := produces_of_mem_avail hd
    simp [producesAt, hy, hp]
  have hsub : (f.avail pre).Sublist ((pre ++ u :: post).filter f.producesAt) := by
    rw [← hall]
    exact ((f.avail_sublist pre).trans (List.sublist_append_left _ _)).filter _
  exact (hf.ready hl hx).trans hsub

lemma Orderly.storeless (hf : Orderly arity ∅ f) : Storeless f := by
  intro u x hx d hd v src hstore
  obtain ⟨b, l, hl, hu⟩ := hf.placed hx (asVar_of_operand hd)
  obtain ⟨pre, post, rfl⟩ := List.append_of_mem hu
  rcases hf.operand hl hx hd with ⟨-, hv⟩ | ⟨-, -, y, hy, hp⟩
  · rw [varOf?_of_live hstore] at hv
    cases hv
  · obtain rfl := Option.some.inj (hstore.symm.trans hy)
    cases hp

lemma Orderly.spillAll_ok (hf : Orderly arity ∅ f) :
    ∃ ids g, f.spillAll = .ok (ids.length, g) ∧ SpilledAll f ids g := by
  refine (spillAll_cases hf.sound hf.framed hf.wellFormed).resolve_left ?_
  rintro ⟨⟨i, -, hplaced⟩, -⟩
  refine absurd ?_ hplaced
  intro u x hx hi
  exact hf.placed hx (asVar_of_operand hi)

end Flow.Func

namespace Compile

/-- Function `g` is what the stages between building and layout make of `f`. -/
def Optimized (o : Options) (f g : Flow.Func) : Prop :=
  ∃ n S f₁ ids f₂, f.canonicalize = .ok (n, f₁) ∧ Canonical f S f₁ ∧
    f₁.spillAll = .ok (ids.length, f₂) ∧ SpilledAll f₁ ids f₂ ∧
    (o.noCoalesce = true ∧ g = f₂ ∨ o.noCoalesce = false ∧ Coalesced f₂ g)

/-- The figures of a function that becomes `g`: its sizes after the stages, and what these did. -/
structure Stats.Records (o : Options) (f : Flow.Func) (s : Stats) (g : Flow.Func) : Prop where
  name : s.name = g.name
  built : s.built = f.size
  coalesced : s.coalesced = g.size
  stages : ∃ f₁ f₂, f.canonicalize = .ok (s.canonicalized, f₁) ∧ f₁.spillAll = .ok (s.spills, f₂) ∧
    s.spilled = f₂.size ∧
    if o.noCoalesce then s.merges = 0 ∧ g = f₂ else f₂.coalesce = .ok (s.merges, g)

lemma verify_passes (hf : Sound f) (hw : WellFormed f) (stage : String) :
    Passes (verify o stage f) () := by
  unfold verify
  by_cases h : o.noVerify = true
  · rw [if_pos h]
    exact passes_pure.mpr rfl
  · rw [if_neg h]
    refine passes_bind.mpr ⟨.ok (), passes_lift.mpr (hf.verify_iff.mpr hw), passes_pure.mpr rfl⟩

lemma checkSpilled_passes (h : f.checkSpilled = .ok (.ok ())) : Passes (checkSpilled o f) () := by
  unfold checkSpilled
  by_cases hv : o.noVerify = true
  · rw [if_pos hv]
    exact passes_pure.mpr rfl
  · rw [if_neg hv]
    exact passes_bind.mpr ⟨.ok (), passes_lift.mpr h, passes_pure.mpr rfl⟩

/-- What spilling makes of a canonical function. -/
structure Spilled (arity : Nat → Nat → Prop) (f g : Flow.Func) : Prop where
  tidy : Tidy g
  framed : Framed g
  settled : Settled g
  selectable : Selectable arity g
  name : g.name = f.name
  isMain : g.isMain = f.isMain
  params : g.params = f.params

lemma spilled_of_orderly {f₁ f₂ : Flow.Func} (hf : Orderly arity ∅ f)
    (hnodup : (f.locals ++ f.params).Nodup) (hc : Canonical f S f₁) (hs : SpilledAll f₁ ids f₂) :
    Spilled arity f f₂ := by
  have h₁ := hf.complement hc.toComplements
  have hhead := hc.becomes.frame.head
  obtain ⟨vs, hp⟩ := hs.chain.progress h₁.sound h₁.framed h₁.wellFormed
  exact ⟨⟨hp.sound, hp.wellFormed, hs.chain.storeless h₁.storeless⟩, hp.framed,
    hs.settled h₁.sound h₁.framed h₁.wellFormed h₁.arranged,
    hs.chain.selectable (hc.selectable hf hnodup), hp.name.trans hhead.name,
    hp.isMain.trans hhead.isMain, hp.params.trans hhead.params⟩

lemma Optimized.spilled (h : Optimized o f g) (hf : Orderly arity ∅ f)
    (hnodup : (f.locals ++ f.params).Nodup) : Spilled arity f g := by
  obtain ⟨n, S, f₁, ids, f₂, -, hc, -, hs, hg⟩ := h
  have h₂ := spilled_of_orderly hf hnodup hc hs
  rcases hg with ⟨-, rfl⟩ | ⟨-, hco⟩
  · exact h₂
  · obtain ⟨slots, blocks, locals, hrest⟩ := hco.rest
    exact ⟨hco.tidy, hco.framed, hco.settled h₂.tidy h₂.settled,
      hco.selectable h₂.tidy h₂.selectable, by rw [hrest]; exact h₂.name,
      by rw [hrest]; exact h₂.isMain,
      by rw [hrest]; exact h₂.params⟩

/-- The stages take every orderly function to its end. -/
theorem optimize_ok (hf : Orderly arity ∅ f) (hnodup : (f.locals ++ f.params).Nodup)
    (o : Options) : ∃ st g, Passes (optimize o f) (st, g) ∧ Optimized o f g ∧ st.Records o f g ∧
      st.code = 0 ∧ st.frame = 0 := by
  obtain ⟨n₁, S, f₁, hcanon, hc⟩ := hf.canonicalize_ok
  have h₁ := hf.complement hc.toComplements
  obtain ⟨ids, f₂, hspill, hs⟩ := h₁.spillAll_ok
  have h₂ := spilled_of_orderly hf hnodup hc hs
  obtain ⟨vs, hp⟩ := hs.chain.progress h₁.sound h₁.framed h₁.wellFormed
  have hchecked : f₂.checkSpilled = .ok (.ok ()) :=
    hp.checkSpilled h₁.sound fun i hi => (hs.mem i).mpr hi
  obtain ⟨n₃, g, hcoalesce, hg, hmerges⟩ : ∃ n g, Passes (coalesce o f₂) (n, g) ∧
      (o.noCoalesce = true ∧ g = f₂ ∨ o.noCoalesce = false ∧ Coalesced f₂ g) ∧
      if o.noCoalesce then n = 0 ∧ g = f₂ else f₂.coalesce = .ok (n, g) := by
    unfold coalesce
    cases ho : o.noCoalesce with
    | true => exact ⟨0, f₂, passes_pure.mpr rfl, Or.inl ⟨rfl, rfl⟩, rfl, rfl⟩
    | false =>
      obtain ⟨n, g, hok, hco, -⟩ := h₂.tidy.coalesce_ok h₂.framed
      refine ⟨n, g, ?_, Or.inr ⟨rfl, hco⟩, hok⟩
      refine passes_bind.mpr ⟨(n, g), passes_lift.mpr hok, ?_⟩
      exact passes_seq.mpr ⟨verify_passes hco.tidy.sound hco.tidy.wellFormed _, passes_pure.mpr rfl⟩
  let st : Stats :=
    { name := g.name, built := f.size, spilled := f₂.size, coalesced := g.size,
      canonicalized := n₁, spills := ids.length, merges := n₃ }
  refine ⟨st, g, ?_, ⟨n₁, S, f₁, ids, f₂, hcanon, hc, hspill, hs, hg⟩,
    ⟨rfl, rfl, rfl, f₁, f₂, hcanon, hspill, rfl, hmerges⟩, rfl, rfl⟩
  unfold optimize
  refine passes_seq.mpr ⟨verify_passes hf.sound hf.wellFormed _, ?_⟩
  refine passes_bind.mpr ⟨(n₁, f₁), passes_lift.mpr hcanon, ?_⟩
  refine passes_seq.mpr ⟨verify_passes h₁.sound h₁.wellFormed _, ?_⟩
  refine passes_bind.mpr ⟨(ids.length, f₂), passes_lift.mpr hspill, ?_⟩
  refine passes_seq.mpr ⟨verify_passes h₂.tidy.sound h₂.tidy.wellFormed _, ?_⟩
  refine passes_seq.mpr ⟨checkSpilled_passes hchecked, ?_⟩
  exact passes_bind.mpr ⟨(n₃, g), hcoalesce, passes_pure.mpr rfl⟩

lemma optimizeAll_ok (o : Options) {fs : List Flow.Func}
    (h : ∀ f ∈ fs, ∃ arity, Orderly arity ∅ f ∧ (f.locals ++ f.params).Nodup) :
    ∃ parts, Passes (optimizeAll o fs) parts ∧ List.Forall₂ (Optimized o) fs (parts.map (·.2)) ∧
      List.Forall₂ (fun f e => e.1.Records o f e.2 ∧ e.1.code = 0 ∧ e.1.frame = 0) fs parts := by
  induction fs with
  | nil => exact ⟨[], passes_pure.mpr rfl, .nil, .nil⟩
  | cons f fs ih =>
    obtain ⟨arity, hf, hnodup⟩ := h f (by simp)
    obtain ⟨st, g, hpass, hopt, hrecords⟩ := optimize_ok hf hnodup o
    obtain ⟨parts, hrest, hall, hstats⟩ := ih fun f hf => h f (by simp [hf])
    refine ⟨(st, g) :: parts, ?_, .cons hopt hall, .cons hrecords hstats⟩
    rw [optimizeAll]
    refine passes_bind.mpr ⟨.ok (st, g), passes_lift.mpr hpass, ?_⟩
    exact passes_bind.mpr ⟨parts, hrest, passes_pure.mpr rfl⟩

end Compile

end Stages

/-- Function number `n` of a program has `m` parameters. -/
def Flow.Program.arity (p : Flow.Program) (n m : Nat) : Prop :=
  (p.funcs[n]?).map (·.params.length) = some m

/-- A program with an entry whose functions can all be laid out. -/
structure Flow.Program.Placeable (p : Flow.Program) : Prop where
  main : ∃ (k : Nat) (f : Flow.Func), p.funcs[k]? = some f ∧ f.isMain = true
  tidy : ∀ {k : Nat} {f}, p.funcs[k]? = some f → f.Tidy
  framed : ∀ {k : Nat} {f}, p.funcs[k]? = some f → f.Framed
  settled : ∀ {k : Nat} {f}, p.funcs[k]? = some f → f.Settled
  selectable : ∀ {k : Nat} {f}, p.funcs[k]? = some f → f.Selectable p.arity

namespace Layout

variable {p : Flow.Program} {frames : Frames} {f : Flow.Func} {k : Nat} {next : Int64}
  {u : Id} {x : Payload}

lemma ready_of_placeable (hp : p.Placeable)
    (hframes : buildFrames p 0 (List.range p.funcs.size) = .ok (frames, next))
    (hk : p.funcs[k]? = some f) (after : Int64) (hu : f.Runs u) (hx : f.live? u = some x) :
    (funcContext p frames after k f).Ready x := by
  have hrange : ∀ {j : Nat} {g}, p.funcs[j]? = some g → j ∈ List.range p.funcs.size :=
    fun hj => List.mem_range.mpr (Array.getElem?_eq_some_iff.mp hj).1
  have hsound := (hp.tidy hk).sound
  have hsuits := (hp.selectable hk).suits hu hx
  refine ⟨?_, hsound.operands hx, fun v hv => ?_, ?_, ?_, ?_⟩
  · obtain ⟨c, l, -, hl, hul⟩ := hu
    obtain ⟨y, hy, hvar⟩ := hsound.live_of_mem hl hul
    obtain rfl := Option.some.inj (hx.symm.trans hy)
    exact Payload.asVar_eq_none.mpr hvar
  · have hvar := (hp.settled hk).named hu hx v hv
    have hmem := (hp.selectable hk).listed hvar ⟨u, x, hx, (mem_operands_iff f).mpr (Or.inr hv)⟩
    exact cells_ok hframes (hrange hk) hk hmem
  · rintro op l r rfl
    exact hsuits
  · rintro rfl
    have hmain : f.isMain = false := hsuits
    simp [funcContext, retCell, hmain]
  · rintro j args rfl
    obtain ⟨n, rfl, harity⟩ := hsuits
    obtain ⟨g, hg, hlen⟩ := Option.map_eq_some_iff.mp harity
    refine ⟨g, Flow.lookup_natCast.mpr hg, hlen.symm, fun v hv => ?_⟩
    exact cells_ok hframes (hrange hg) hg (List.mem_append_right _ hv)

lemma block_of_placeable (hp : p.Placeable)
    (hframes : buildFrames p 0 (List.range p.funcs.size) = .ok (frames, next))
    (hk : p.funcs[k]? = some f) (after : Int64) {b : BlockId} (hb : f.Reaches b) :
    ∃ code, (funcContext p frames after k f).block b = .ok code := by
  obtain ⟨l, hl, hcloses⟩ := (hp.tidy hk).wellFormed.closes hb
  have hne : l ≠ [] := by
    rintro rfl
    exact hcloses
  have hparts : ∀ m : List Id, (∀ i ∈ m, i ∈ l) →
      ∃ parts, List.Forall₂ (funcContext p frames after k f).Codes m parts := by
    intro m hm
    induction m with
    | nil => exact ⟨[], .nil⟩
    | cons i m ih =>
      obtain ⟨parts, hrest⟩ := ih fun j hj => hm j (by simp [hj])
      obtain ⟨x, hx, -⟩ := (hp.tidy hk).sound.live_of_mem hl (hm i (by simp))
      obtain ⟨items, hitems⟩ :=
        (ready_of_placeable hp hframes hk after ⟨b, l, hb, hl, hm i (by simp)⟩ hx).select
      obtain ⟨s, hs, -, rfl⟩ := live?_eq_some.mp hx
      exact ⟨_, .cons ⟨s, items, hs, hitems, rfl⟩ hrest⟩
  obtain ⟨parts, hparts⟩ := hparts l fun _ h => h
  exact ⟨_, (Context.block_eq_ok hl).mpr ⟨hne, parts, hparts, rfl⟩⟩

lemma chosen_of_placeable (hp : p.Placeable)
    (hframes : buildFrames p 0 (List.range p.funcs.size) = .ok (frames, next))
    {ids : List Nat} (hids : ∀ k ∈ ids, k < p.funcs.size) (start : Nat) (after : Int64) :
    ∃ codes final, Chosen p frames start after ids codes final := by
  induction ids generalizing start after with
  | nil => exact ⟨[], after, .nil⟩
  | cons k ids ih =>
    obtain ⟨f, hk⟩ : ∃ f, p.funcs[k]? = some f := ⟨_, Array.getElem?_eq_getElem (hids k (by simp))⟩
    have htidy := hp.tidy hk
    obtain ⟨code, hok, hsel⟩ :=
      (selectFunc_cases frames after hk htidy.sound htidy.wellFormed).resolve_left
        fun ⟨⟨b, hb, e, he⟩, _⟩ => by
          obtain ⟨code, hcode⟩ := block_of_placeable hp hframes hk after hb
          exact absurd (hcode.symm.trans he) (by simp)
    have hsize : code.items.length ≠ 0 := by
      obtain ⟨first, rest, hblocks⟩ := hsel.entry
      obtain ⟨l, hl, -⟩ := htidy.wellFormed.closes Relation.ReflTransGen.refl
      have hne := length_pos_of_block hl (hsel.code _ first (by rw [hblocks]; exact List.mem_cons_self))
      rw [FuncCode.items, hblocks]
      intro h
      rw [List.length_eq_zero_iff, List.append_eq_nil_iff, List.flatMap_cons,
        List.append_eq_nil_iff] at h
      exact hne h.2.1
    obtain ⟨codes, final, hrest⟩ := ih (fun j hj => hids j (by simp [hj])) (start + code.items.length)
      (afterRet f after)
    exact ⟨_, final, .cons hok hsize hrest⟩

/-- Programs whose functions can be laid out have machine code. -/
theorem lower_ok (hp : p.Placeable) : ∃ q, lower p = .ok (.ok q) := by
  obtain ⟨k, fm, hk, hmain⟩ := hp.main
  obtain ⟨main, hfound⟩ : ∃ main, (List.range p.funcs.size).find?
      (fun k => (p.funcs[k]?).any (·.isMain)) = some main := by
    rw [← Option.isSome_iff_exists, List.find?_isSome]
    exact ⟨k, List.mem_range.mpr (Array.getElem?_eq_some_iff.mp hk).1, by simp [hk, hmain]⟩
  have hfunc : ∀ {j}, j < p.funcs.size → ∃ f, p.funcs[j]? = some f :=
    fun hj => ⟨_, Array.getElem?_eq_getElem hj⟩
  have hframed : ∀ j ∈ List.range p.funcs.size, ∃ f, p.funcs[j]? = some f ∧ f.Framed := by
    intro j hj
    obtain ⟨f, hf⟩ := hfunc (List.mem_range.mp hj)
    exact ⟨f, hf, hp.framed hf⟩
  obtain ⟨frames, next, hframes⟩ := buildFrames_ok hframed 0
  set ids := main :: (List.range p.funcs.size).filter (· ≠ main) with hids
  have hlt : ∀ j, j ∈ ids ↔ j < p.funcs.size := by
    intro j
    have hm : main < p.funcs.size := List.mem_range.mp (List.mem_of_find?_eq_some hfound)
    by_cases hj : j = main
    · simp [hids, hj, hm]
    · simp [hids, hj]
  obtain ⟨codes, final, hchosen⟩ :=
    chosen_of_placeable hp hframes (fun j hj => (hlt j).mp hj) 0 next
  obtain ⟨hnumbers, hselected⟩ := hchosen.selected fun j hj => by
    obtain ⟨f, hf⟩ := hfunc ((hlt j).mp hj)
    exact ⟨f, hf, (hp.tidy hf).sound, (hp.tidy hf).wellFormed⟩
  refine ⟨⟨_, _, final⟩, lower_eq_ok.mpr ⟨main, frames, codes, hfound, ⟨next, hframes, hchosen⟩,
    fun e he => ?_, fun e he => ?_, rfl, rfl⟩⟩
  · obtain ⟨f, after, hf, hsel⟩ := hselected e he
    refine forM_ok fun y hy => ?_
    rcases hsel.heads (hp.tidy hf).wellFormed hy with hlocal | ⟨b, l, i, s, hb, hl, hi, hs, hleads⟩
    · cases hy : y.item.target with
      | block t => simp [Item.isLocal, hy] at hlocal
      | _ => rfl
    · cases hy : y.item.target with
      | block t =>
        obtain ⟨z, hz, -⟩ := (hp.tidy hf).sound.live_of_mem hl hi
        obtain ⟨s', hs', -, rfl⟩ := live?_eq_some.mp hz
        obtain rfl := Option.some.inj (hs.symm.trans hs')
        have hreach := (hp.tidy hf).wellFormed.reaches_target hb hl hi hz (hleads.1 t hy)
        have hplace := lookup_isSome_of_mem (mem_blockStarts he ((hsel.mem t).mpr hreach))
        simp only [hplace, if_true]
      | _ => rfl
  · obtain ⟨f, after, hf, hsel⟩ := hselected e he
    refine forM_ok fun y hy => ?_
    rcases hsel.heads (hp.tidy hf).wellFormed hy with hlocal | ⟨b, l, i, s, hb, hl, hi, hs, hleads⟩
    · cases hy : y.item.target with
      | func j => simp [Item.isLocal, hy] at hlocal
      | _ => rfl
    · cases hy : y.item.target with
      | func j =>
        obtain ⟨args, hcall⟩ := hleads.2 j hy
        obtain ⟨z, hz, -⟩ := (hp.tidy hf).sound.live_of_mem hl hi
        obtain ⟨s', hs', -, rfl⟩ := live?_eq_some.mp hz
        obtain rfl := Option.some.inj (hs.symm.trans hs')
        have hsuits := (hp.selectable hf).suits ⟨b, l, hb, hl, hi⟩ hz
        rw [hcall] at hsuits
        obtain ⟨n, rfl, harity⟩ := hsuits
        obtain ⟨g, hg, -⟩ := Option.map_eq_some_iff.mp harity
        have hmem : n ∈ codes.map fun e => e.2.number := by
          rw [hnumbers, hlt]
          exact (Array.getElem?_eq_some_iff.mp hg).1
        have hplace := lookup_isSome_of_mem (mem_funcStarts hmem)
        simp only [Int.toNat_natCast, hplace, if_true]
        rfl
      | _ => rfl

end Layout

namespace Compile

variable {file : Tree.File} {p : Flow.Program} {o : Options}

/-- What compilation makes of a built program. -/
structure Compiled (o : Options) (p : Flow.Program) (r : Result) : Prop where
  funcs : List.Forall₂ (Optimized o) p.funcs.toList r.flow.funcs.toList
  placeable : r.flow.Placeable
  program : ∃ q, Layout.lower r.flow = .ok (.ok q) ∧ r.program = q.resolve
  stats : ∃ parts : List (Stats × Flow.Func), r.flow.funcs.toList = parts.map (·.2) ∧
    r.stats = account r.program.funcs (parts.map (·.1)) ∧
    List.Forall₂ (fun f e => e.1.Records o f e.2 ∧ e.1.code = 0 ∧ e.1.frame = 0) p.funcs.toList parts

lemma nodup_frame {k : Nat} {d : Tree.Proc} {f : Flow.Func} (h : Tree.Built file k d f) :
    (f.locals ++ f.params).Nodup := by
  have hnodup : ∀ start n, (Tree.slotRange start n).Nodup := by
    intro start n
    exact List.Nodup.map (fun a b hab => Int.ofNat.inj hab) (List.nodup_range' ..)
  rw [h.params, h.locals]
  refine List.nodup_append.mpr ⟨hnodup _ _, hnodup _ _, fun a ha b hb hab => ?_⟩
  obtain ⟨i, hi, hlo, -⟩ := Tree.mem_slotRange.mp ha
  obtain ⟨j, hj, -, hhi⟩ := Tree.mem_slotRange.mp hb
  have : (i : Int) = j := hi.symm.trans (hab.trans hj)
  omega

section Built

variable (hsize : p.funcs.size = file.decls.length)
  (hbuilt : ∀ {k d}, file.decls[k]? = some d → ∃ f, p.funcs[k]? = some f ∧ Tree.Built file k d f)

include hsize hbuilt

lemma built_of_func {k : Nat} {f : Flow.Func} (hf : p.funcs[k]? = some f) :
    ∃ d, file.decls[k]? = some d ∧ Tree.Built file k d f := by
  have hk : k < file.decls.length := by
    rw [← hsize]
    exact (Array.getElem?_eq_some_iff.mp hf).1
  obtain ⟨f', hf', hb⟩ := hbuilt (List.getElem?_eq_getElem hk)
  obtain rfl := Option.some.inj (hf.symm.trans hf')
  exact ⟨_, List.getElem?_eq_getElem hk, hb⟩

lemma orderly_of_built {f : Flow.Func} (hf : f ∈ p.funcs.toList) :
    ∃ arity, Orderly arity ∅ f ∧ (f.locals ++ f.params).Nodup := by
  obtain ⟨k, hk⟩ := List.mem_iff_getElem?.mp hf
  rw [Array.getElem?_toList] at hk
  obtain ⟨d, -, hb⟩ := built_of_func hsize hbuilt hk
  exact ⟨_, hb.orderly, nodup_frame hb⟩

lemma spilled_of_optimized {q : Flow.Program}
    (hq : List.Forall₂ (Optimized o) p.funcs.toList q.funcs.toList) {k : Nat} {g : Flow.Func}
    (hg : q.funcs[k]? = some g) : ∃ d f, file.decls[k]? = some d ∧ p.funcs[k]? = some f ∧
      Tree.Built file k d f ∧ Spilled (file.arity k) f g := by
  rw [← Array.getElem?_toList, List.getElem?_eq_some_iff] at hg
  obtain ⟨hkg, rfl⟩ := hg
  have hkf : k < p.funcs.toList.length := by rwa [hq.length_eq]
  have hf : p.funcs[k]? = some (p.funcs.toList.get ⟨k, hkf⟩) := by
    rw [← Array.getElem?_toList]
    exact List.getElem?_eq_getElem hkf
  obtain ⟨d, hd, hb⟩ := built_of_func hsize hbuilt hf
  exact ⟨d, _, hd, hf, hb, (hq.get hkf hkg).spilled hb.orderly (nodup_frame hb)⟩

lemma placeable_of_built (hfile : file.Sensible) {q : Flow.Program}
    (hq : List.Forall₂ (Optimized o) p.funcs.toList q.funcs.toList) :
    q.Placeable := by
  have hlen : q.funcs.size = p.funcs.size := by
    have := hq.length_eq
    simpa using this.symm
  have hfunc : ∀ {k : Nat} {g}, q.funcs[k]? = some g → ∃ d f, file.decls[k]? = some d ∧
      p.funcs[k]? = some f ∧ Tree.Built file k d f ∧ Spilled (file.arity k) f g :=
    fun hg => spilled_of_optimized hsize hbuilt hq hg
  have hsome : ∀ {k : Nat} {f}, p.funcs[k]? = some f → ∃ g, q.funcs[k]? = some g := by
    intro k f hf
    have hk : k < q.funcs.size := by
      rw [hlen]
      exact (Array.getElem?_eq_some_iff.mp hf).1
    exact ⟨_, Array.getElem?_eq_getElem hk⟩
  have harity : ∀ k n m, file.arity k n m → q.arity n m := by
    rintro k n m ⟨-, h⟩
    obtain ⟨e, he, rfl⟩ := Option.map_eq_some_iff.mp h
    obtain ⟨f, hf, -⟩ := hbuilt he
    obtain ⟨g, hg⟩ := hsome hf
    obtain ⟨e', f', he', hf', hb, hs⟩ := hfunc hg
    obtain rfl := Option.some.inj (he.symm.trans he')
    rw [Flow.Program.arity, hg, Option.map_some, hs.params, hb.params]
    simp [Tree.slotRange]
  refine ⟨?_, fun hg => ?_, fun hg => ?_, fun hg => ?_, fun hg => ?_⟩
  · obtain ⟨d, hd, hmain⟩ := List.countP_pos_iff.mp (by rw [hfile.main]; exact Nat.one_pos)
    obtain ⟨k, hk⟩ := List.mem_iff_getElem?.mp hd
    obtain ⟨f, hf, -⟩ := hbuilt hk
    obtain ⟨g, hg⟩ := hsome hf
    obtain ⟨e, f', he, hf', hb, hs⟩ := hfunc hg
    obtain rfl := Option.some.inj (hk.symm.trans he)
    exact ⟨k, g, hg, by rw [hs.isMain, hb.isMain, hmain]⟩
  · obtain ⟨d, f, -, -, -, hs⟩ := hfunc hg
    exact hs.tidy
  · obtain ⟨d, f, -, -, -, hs⟩ := hfunc hg
    exact hs.framed
  · obtain ⟨d, f, -, -, -, hs⟩ := hfunc hg
    exact hs.settled
  · obtain ⟨d, f, -, -, -, hs⟩ := hfunc hg
    exact ⟨fun hu hx => (hs.selectable.suits hu hx).mono (harity _), hs.selectable.listed,
      hs.selectable.nodup⟩

end Built

variable {r : Result}

lemma Compiled.map_name (hc : Compiled o p r) (hsize : p.funcs.size = file.decls.length)
    (hbuilt : ∀ {k d}, file.decls[k]? = some d → ∃ f, p.funcs[k]? = some f ∧ Tree.Built file k d f) :
    r.flow.funcs.toList.map (·.name) = file.decls.map (·.name) := by
  have hlen : r.flow.funcs.toList.length = file.decls.length := by
    rw [← hc.funcs.length_eq, Array.length_toList, hsize]
  apply List.ext_getElem?
  intro k
  rw [List.getElem?_map, List.getElem?_map]
  cases hg : r.flow.funcs.toList[k]? with
  | none =>
    rw [List.getElem?_eq_none_iff, hlen, ← List.getElem?_eq_none_iff] at hg
    rw [hg]
    rfl
  | some g =>
    rw [Array.getElem?_toList] at hg
    obtain ⟨d, f, hd, -, hb, hs⟩ := spilled_of_optimized hsize hbuilt hc.funcs hg
    rw [hd, Option.map_some, Option.map_some, hs.name, hb.name]

end Compile

open Compile in
/-- Sensible programs compile. -/
theorem Tree.File.Sensible.compile_ok {file : Tree.File} (hfile : file.Sensible) (o : Options) :
    ∃ p r, file.build = .ok (.ok p) ∧ compile o file = .ok (.ok r) ∧ Compiled o p r := by
  obtain ⟨p, hbuild, hsize, hbuilt⟩ := hfile.build
  obtain ⟨parts, hparts, hall, hstats⟩ := optimizeAll_ok o fun f => orderly_of_built hsize hbuilt
  set flow : Flow.Program := { funcs := (parts.map (·.2)).toArray } with hflow
  have hplace : flow.Placeable := placeable_of_built hsize hbuilt hfile (by simpa [hflow] using hall)
  obtain ⟨q, hq⟩ := Layout.lower_ok hplace
  refine ⟨p, ⟨flow, q.resolve, account q.funcs (parts.map (·.1))⟩, hbuild, ?_,
    by simpa [hflow] using hall, hplace, ⟨q, hq, rfl⟩, parts, by rw [hflow], rfl, hstats⟩
  have hrun : (optimizeAll o p.funcs.toList).run = .ok (.ok parts) := hparts
  rw [compile, hbuild, ok_bind]
  simp only [hrun, ok_bind, ← hflow, hq]
  rfl

open Compile in
lemma Tree.File.Sensible.compiled {file : Tree.File} (hfile : file.Sensible) (o : Options) :
    ∃ p r, compile o file = .ok (.ok r) ∧ Compiled o p r ∧ p.funcs.size = file.decls.length ∧
      ∀ {k d}, file.decls[k]? = some d → ∃ f, p.funcs[k]? = some f ∧ Tree.Built file k d f := by
  obtain ⟨p, r, hp, hr, hc⟩ := hfile.compile_ok o
  obtain ⟨p', hp', hsize, hbuilt⟩ := hfile.build
  obtain rfl : p' = p := Except.ok.inj (Except.ok.inj (hp'.symm.trans hp))
  exact ⟨p', r, hr, hc, hsize, hbuilt⟩

/-- Whatever links compiles, whatever the options: no stage breaks, and no check between the stages
finds a defect. -/
theorem linked_compiles {raw : Tree.RawFile} {file : Tree.File} (h : raw.link.run = .ok (.ok file))
    (o : Compile.Options) : ∃ r, compile o file = .ok (.ok r) := by
  obtain ⟨_, r, -, hr, -⟩ := (raw.link_linked h).sensible.compile_ok o
  exact ⟨r, hr⟩

open Tree.Node in
/-- A program that writes what it reads, up to the first zero. -/
def echo : Tree.RawFile where
  main := some {
    locals := [{ name := "x" }]
    body := [
      record [("read", word "x")],
      record [("while", word "x"),
        ("do", list [record [("write", word "x")], record [("read", word "x")]])]] }

theorem echo_compiles :
    ∃ file, echo.link.run = .ok (.ok file) ∧
      ∃ r, compile { noCoalesce := false, noVerify := false } file = .ok (.ok r) := by
  obtain ⟨file, hfile⟩ : ∃ file, echo.link.run = .ok (.ok file) :=
    Tree.RawFile.exists_linked (by decide +kernel)
  exact ⟨file, hfile, linked_compiles hfile _⟩

end Accumulator
