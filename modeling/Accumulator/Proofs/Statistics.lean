import Mathlib
import Accumulator.Proofs.Compiling
import Accumulator.Proofs.DecidableTrees
import Accumulator.Proofs.FrameTiling
import Accumulator.Proofs.StackCode

/-!
# Statistics of compiled programs

Spilling a value that has one user adds a store and a load, and each rewriting takes one or two
instructions away, which ties the sizes of a function to the counts of its statistics. The code and
the cells of the layout are joined to the statistics by the names of the functions, so they are right
just if no two functions have the same name.
-/

namespace Accumulator

open Accumulator.Flow (Id BlockId Payload)
open Accumulator.Flow.Func

section Sizes

variable {f g : Flow.Func} {S : List Id} {i : Id}

lemma Flow.Func.Complements.users_eq (h : Complements f S g) (i : Id) : g.users i = f.users i := by
  ext u
  constructor
  · rintro ⟨y, hy, hi⟩
    obtain ⟨x, hx, rfl⟩ := h.live_cases hy
    exact ⟨x, hx, by rwa [Payload.operands_complemented] at hi⟩
  · rintro ⟨x, hx, hi⟩
    exact ⟨_, h.live hx, by rwa [Payload.operands_complemented]⟩

lemma Flow.Func.Complements.producer (h : Complements f S g) (hi : g.Producer i) : f.Producer i := by
  obtain ⟨b, l, y, hb, hl, hmem, hy, hp⟩ := hi
  obtain ⟨x, hx, rfl⟩ := h.live_cases hy
  exact ⟨b, l, x, h.reaches.mp hb, by rwa [← h.becomes.code], hmem, hx,
    by rwa [Payload.produces_complemented] at hp⟩

namespace Compile

variable {o : Options} {s : Stats} {file : Tree.File} {k : Nat} {d : Tree.Proc}

/-- Every spilled value brings a store and a load, and every rewriting takes instructions away. -/
lemma Stats.Records.sizes (h : s.Records o f g) (hb : Tree.Built file k d f) :
    s.spilled = s.built + 2 * s.spills ∧ s.coalesced + s.merges ≤ s.spilled := by
  have hf := hb.orderly
  obtain ⟨f₁, f₂, hcanon, hspill, hspilled, hmerges⟩ := h.stages
  obtain ⟨n, S, f₁', hcanon', hc⟩ := hf.canonicalize_ok
  obtain rfl : f₁' = f₁ := (Prod.mk.inj (Except.ok.inj (hcanon'.symm.trans hcanon))).2
  have h₁ := hf.complement hc.toComplements
  obtain ⟨ids, f₂', hspill', hs⟩ := h₁.spillAll_ok
  obtain ⟨hspills, rfl⟩ := Prod.mk.inj (Except.ok.inj (hspill'.symm.trans hspill))
  have h₂ := spilled_of_orderly hf (nodup_frame hb) hc hs
  obtain ⟨vs, hp⟩ := hs.chain.progress h₁.sound h₁.framed h₁.wellFormed
  constructor
  · have husers : (ids.map fun i => (f₁'.users i).ncard) = ids.map fun _ => 1 := by
      refine List.map_congr_left fun i hi => ?_
      rw [hc.users_eq]
      exact hb.users_ncard (hc.producer ((hs.mem i).mp hi))
    have hsize := hp.size
    rw [husers, size_congr hc.becomes.blocks hc.becomes.code, List.map_const', List.sum_replicate,
      smul_eq_mul, mul_one] at hsize
    rw [hspilled, hsize, h.built, ← hspills]
    omega
  · rw [hspilled, h.coalesced]
    cases ho : o.noCoalesce with
    | true =>
      rw [ho, if_pos rfl] at hmerges
      rw [hmerges.1, hmerges.2, Nat.add_zero]
    | false =>
      rw [ho, if_neg Bool.false_ne_true] at hmerges
      obtain ⟨n, g', hcoalesce, -, hle, -⟩ := h₂.tidy.coalesce_ok h₂.framed
      obtain ⟨rfl, rfl⟩ := Prod.mk.inj (Except.ok.inj (hcoalesce.symm.trans hmerges))
      exact hle

end Compile

end Sizes

/-- The number of cells of a function that was laid out. -/
def Layout.Func.cellCount (g : Layout.Func) : Nat :=
  (g.frame.map (·.size.toNat)).sum + (g.ret.map (·.size.toNat)).getD 0

namespace Compile

open Layout (mainFirst Houses)

/-- Function number `k` in the layout, which has the main program first and then the others in their
order. -/
def Result.func? (r : Result) (k : Nat) : Option Layout.Func :=
  ((mainFirst r.flow (List.range r.flow.funcs.size)).zip r.program.funcs).lookup k

/-- The figures of function number `k` are those of its code and its cells. -/
def Stats.Describes (r : Result) (k : Nat) (s : Stats) : Prop :=
  ∃ g, r.func? k = some g ∧ s.code = g.size ∧ s.frame.toInt = g.cellCount

section Figures

variable {f : Flow.Func} {g : Layout.Func} {s : Stats}

lemma foldl_sizes {l : List Layout.Cells} (hl : ∀ c ∈ l, 0 ≤ c.size) (n : Nat) :
    l.foldl (fun n c => n + Int64.ofInt c.size) (Int64.ofNat n) =
      Int64.ofNat (n + (l.map (·.size.toNat)).sum) := by
  induction l generalizing n with
  | nil => rfl
  | cons c l ih =>
    have hsize : Int64.ofInt c.size = Int64.ofNat c.size.toNat := by
      rw [← Int64.ofInt_eq_ofNat, Int.toNat_of_nonneg (hl c (by simp))]
    rw [List.foldl_cons, hsize, ← Int64.ofNat_add, ih fun c hc => hl c (by simp [hc]), List.map_cons,
      List.sum_cons, Nat.add_assoc]

lemma frameSize_eq (h : Houses f g) : frameSize g = Int64.ofNat g.cellCount := by
  have hframe : ∀ c ∈ g.frame, 0 ≤ c.size := by
    intro c hc
    obtain ⟨v, -, w, -, hsize, -⟩ := Layout.exists_of_forall₂ h.frame hc
    omega
  have hret : (if g.ret.isSome then 1 else 0) = Int64.ofNat ((g.ret.map (·.size.toNat)).getD 0) := by
    cases hr : g.ret with
    | none => rfl
    | some c =>
      have hc := h.ret
      rw [hr] at hc
      cases hmain : f.isMain with
      | true => simp [hmain] at hc
      | false =>
        have hone : c.size = 1 := by simpa [hmain] using hc
        simp [hone]
  have hsizes := foldl_sizes hframe 0
  rw [Nat.zero_add] at hsizes
  rw [frameSize, hret, Layout.Func.cellCount, Int64.ofNat_add, ← hsizes]
  rfl

/-- The statistics get the code of the last function of their name, and the cells of all of them. -/
lemma foldl_account (funcs : List Layout.Func) (s : Stats) :
    funcs.foldl (fun s g => s.account g) s =
      { s with
        code := ((funcs.filter (·.name = s.name)).getLast?.map (·.size)).getD s.code
        frame := s.frame + ((funcs.filter (·.name = s.name)).map frameSize).sum } := by
  induction funcs using List.reverseRecOn with
  | nil => simp
  | append_singleton funcs g ih =>
    rw [List.foldl_append, List.foldl_cons, List.foldl_nil, ih, Stats.account]
    by_cases hname : s.name = g.name
    · simp [hname, Int64.add_assoc]
    · have hne : ¬ g.name = s.name := fun h => hname h.symm
      simp [hname, hne]

end Figures

section Tables

variable {α β : Type} {R : α → β → Prop} {m : List α} {l : List β}

lemma map_lookup_zip [DecidableEq α] [Inhabited β] (h : List.Forall₂ R m l) (hm : m.Nodup) :
    l = m.map (fun a => ((m.zip l).lookup a).getD default) ∧
      ∀ a ∈ m, ∃ b, (m.zip l).lookup a = some b ∧ R a b := by
  have hfst : (m.zip l).map Prod.fst = m := List.map_fst_zip h.length_eq.le
  have hsnd : (m.zip l).map Prod.snd = l := List.map_snd_zip h.length_eq.ge
  have hlookup : ∀ e ∈ m.zip l, (m.zip l).lookup e.1 = some e.2 :=
    fun e he => Layout.lookup_of_mem (by rwa [hfst]) he
  constructor
  · calc
      l = (m.zip l).map Prod.snd := hsnd.symm
      _ = (m.zip l).map ((fun a => ((m.zip l).lookup a).getD default) ∘ Prod.fst) := by
        refine List.map_congr_left fun e he => ?_
        rw [Function.comp_apply, hlookup e he, Option.getD_some]
      _ = m.map (fun a => ((m.zip l).lookup a).getD default) := by rw [← List.map_map, hfst]
  · intro a ha
    rw [← hfst] at ha
    obtain ⟨e, he, rfl⟩ := List.mem_map.mp ha
    exact ⟨e.2, hlookup e he, List.forall₂_zip h he⟩

lemma sum_ofNat (F : α → Nat) (m : List α) :
    (m.map fun a => Int64.ofNat (F a)).sum = Int64.ofNat (m.map F).sum := by
  induction m with
  | nil => rfl
  | cons a m ih => rw [List.map_cons, List.sum_cons, ih, List.map_cons, List.sum_cons, Int64.ofNat_add]

end Tables

section Result

variable {o : Options} {p : Flow.Program} {r : Result} {G : Nat → Layout.Func} {k : Nat} {s : Stats}

/-- Function `G k` of the layout is that of function number `k`. -/
structure Places (r : Result) (G : Nat → Layout.Func) : Prop where
  perm : (mainFirst r.flow (List.range r.flow.funcs.size)).Perm (List.range r.flow.funcs.size)
  funcs : r.program.funcs = (mainFirst r.flow (List.range r.flow.funcs.size)).map G
  func : ∀ k < r.flow.funcs.size, r.func? k = some (G k)
  houses : ∀ k < r.flow.funcs.size, ∃ f, r.flow.funcs[k]? = some f ∧ Houses f (G k)

lemma Compiled.places (hc : Compiled o p r) : ∃ G, Places r G := by
  obtain ⟨q, hq, hprogram⟩ := hc.program
  obtain ⟨main, frames, codes, hlaid⟩ := Layout.lower_eq_ok.mp hq
  have hfuncs : r.program.funcs = q.funcs := by rw [hprogram]; rfl
  have hperm := Layout.LaidOut.mainFirst_perm hlaid List.nodup_range
  have hhouses := Layout.LaidOut.houses hlaid List.nodup_range
  rw [← hfuncs] at hhouses
  obtain ⟨hmap, hall⟩ := map_lookup_zip hhouses (hperm.nodup_iff.mpr List.nodup_range)
  refine ⟨fun k => (r.func? k).getD default, hperm, hmap, fun k hk => ?_, fun k hk => ?_⟩
  · obtain ⟨g, hg, -⟩ := hall k (hperm.mem_iff.mpr (List.mem_range.mpr hk))
    rw [Result.func?, hg, Option.getD_some]
  · obtain ⟨g, hg, hh⟩ := hall k (hperm.mem_iff.mpr (List.mem_range.mpr hk))
    rw [Result.func?, hg, Option.getD_some]
    exact hh

/-- The functions of a name in the order of the layout. -/
def namesakes (r : Result) (G : Nat → Layout.Func) (name : Bytes) : List Nat :=
  (mainFirst r.flow (List.range r.flow.funcs.size)).filter fun k => (G k).name = name

lemma mem_namesakes (hG : Places r G) {name : Bytes} {j : Nat} :
    j ∈ namesakes r G name ↔ j < r.flow.funcs.size ∧ (G j).name = name := by
  rw [namesakes, List.mem_filter, hG.perm.mem_iff, List.mem_range, decide_eq_true_eq]

/-- The statistics have an entry for each function: its figures from the stages, and what the layout
says about its name. -/
lemma Compiled.entry (hc : Compiled o p r) (hG : Places r G) (hs : r.stats[k]? = some s) :
    ∃ f g, p.funcs[k]? = some f ∧ r.flow.funcs[k]? = some g ∧ s.Records o f g ∧
      s.name = (G k).name ∧
      s.code = ((namesakes r G s.name).getLast?.map fun j => (G j).size).getD 0 ∧
      s.frame = Int64.ofNat ((namesakes r G s.name).map fun j => (G j).cellCount).sum := by
  obtain ⟨parts, hflow, hstats, hall⟩ := hc.stats
  rw [hstats, account, List.map_map, List.getElem?_map, Option.map_eq_some_iff] at hs
  obtain ⟨e, he, rfl⟩ := hs
  have hg : r.flow.funcs[k]? = some e.2 := by
    rw [← Array.getElem?_toList, hflow, List.getElem?_map, he]
    rfl
  obtain ⟨f, hf, hrecords, hcode, hframe⟩ : ∃ f, p.funcs[k]? = some f ∧ e.1.Records o f e.2 ∧
      e.1.code = 0 ∧ e.1.frame = 0 := by
    obtain ⟨hk, rfl⟩ := List.getElem?_eq_some_iff.mp he
    have hk' : k < p.funcs.toList.length := by rwa [hall.length_eq]
    exact ⟨p.funcs.toList.get ⟨k, hk'⟩, by rw [← Array.getElem?_toList]; exact List.getElem?_eq_getElem hk',
      hall.get hk' hk⟩
  obtain ⟨g, hg', hhouses⟩ := hG.houses k (Array.getElem?_eq_some_iff.mp hg).1
  obtain rfl : e.2 = g := Option.some.inj (hg.symm.trans hg')
  have hname : e.1.name = (G k).name := hrecords.name.trans hhouses.name.symm
  have hfilter : r.program.funcs.filter (·.name = e.1.name) = (namesakes r G e.1.name).map G := by
    rw [hG.funcs, List.filter_map]
    rfl
  have hcells : ((namesakes r G e.1.name).map G).map frameSize =
      (namesakes r G e.1.name).map fun j => Int64.ofNat (G j).cellCount := by
    rw [List.map_map]
    refine List.map_congr_left fun j hj => ?_
    obtain ⟨g, -, hh⟩ := hG.houses j ((mem_namesakes hG).mp hj).1
    exact frameSize_eq hh
  rw [Function.comp_apply, foldl_account, hfilter, hcells, sum_ofNat, List.getLast?_map, Option.map_map,
    hcode, hframe, Int64.zero_add]
  exact ⟨f, e.2, hf, hg, ⟨hrecords.name, hrecords.built, hrecords.coalesced, hrecords.stages⟩, hname,
    rfl, rfl⟩

lemma Compiled.stats_size (hc : Compiled o p r) : r.stats.length = r.flow.funcs.size := by
  obtain ⟨parts, hflow, hstats, -⟩ := hc.stats
  rw [hstats, account, List.length_map, ← Array.length_toList, hflow, List.length_map, List.length_map]

lemma Compiled.describes (hc : Compiled o p r) (hG : Places r G)
    (hnames : ∀ i < r.flow.funcs.size, ∀ j < r.flow.funcs.size, (G i).name = (G j).name → i = j)
    (hs : r.stats[k]? = some s) :
    k < r.flow.funcs.size ∧ s.code = (G k).size ∧ s.frame = Int64.ofNat (G k).cellCount := by
  obtain ⟨f, g, -, hg, -, hname, hcode, hframe⟩ := hc.entry hG hs
  have hk := (Array.getElem?_eq_some_iff.mp hg).1
  have honly : namesakes r G s.name = [k] := by
    have hmem : k ∈ namesakes r G s.name := (mem_namesakes hG).mpr ⟨hk, hname.symm⟩
    have hall : ∀ j ∈ namesakes r G s.name, j = k := by
      intro j hj
      obtain ⟨hj, hjname⟩ := (mem_namesakes hG).mp hj
      exact hnames j hj k hk (hjname.trans hname)
    have hnodup : (namesakes r G s.name).Nodup :=
      (hG.perm.nodup_iff.mpr List.nodup_range).filter _
    by_contra hne
    rcases (hnodup.ne_singleton_iff k).mp hne with hnil | ⟨j, hj, hjk⟩
    · rw [hnil] at hmem
      cases hmem
    · exact hjk (hall j hj)
  rw [honly] at hcode hframe
  exact ⟨hk, by simpa using hcode, by simpa using hframe⟩

lemma Places.cellCount_eq (hG : Places r G) :
    ((mainFirst r.flow (List.range r.flow.funcs.size)).map fun k => (G k).cellCount).sum =
      r.program.cellCount := by
  rw [Layout.Program.cellCount, hG.funcs, List.map_map]
  rfl

lemma Places.cellCount_le (hG : Places r G) (hk : k < r.flow.funcs.size) :
    (G k).cellCount ≤ r.program.cellCount := by
  rw [← hG.cellCount_eq]
  exact List.single_le_sum (by simp) _
    (List.mem_map.mpr ⟨k, hG.perm.mem_iff.mpr (List.mem_range.mpr hk), rfl⟩)

lemma Places.namesakes_le (hG : Places r G) (name : Bytes) :
    ((namesakes r G name).map fun j => (G j).cellCount).sum ≤ r.program.cellCount := by
  rw [← hG.cellCount_eq]
  exact (List.filter_sublist.map _).sum_le_sum fun _ _ => Nat.zero_le _

lemma Compiled.cellCount_eq_zero (hc : Compiled o p r) (hG : Places r G)
    (hcells : r.program.cellCount < 2 ^ 63) (hall : ∀ (k : Nat) s, r.stats[k]? = some s → Stats.Describes r k s)
    {i j : Nat} (hi : i < r.flow.funcs.size) (hj : j < r.flow.funcs.size) (hij : i ≠ j)
    (hname : (G i).name = (G j).name) : (G i).cellCount = 0 := by
  have hsum : ∀ k < r.flow.funcs.size,
      ((namesakes r G (G k).name).map fun j => (G j).cellCount).sum = (G k).cellCount := by
    intro k hk
    have hs : r.stats[k]? = some (r.stats.get ⟨k, by rwa [hc.stats_size]⟩) := List.getElem?_eq_getElem _
    obtain ⟨g, hg, -, hframe⟩ := hall k _ hs
    obtain rfl : g = G k := Option.some.inj (hg.symm.trans (hG.func k hk))
    obtain ⟨-, -, -, -, -, hkname, -, hk'⟩ := hc.entry hG hs
    have hle := hG.namesakes_le (G k).name
    rw [hk', hkname, Int64.toInt_ofNat_of_lt (by omega)] at hframe
    exact_mod_cast hframe
  have hnodup : (namesakes r G (G i).name).Nodup := (hG.perm.nodup_iff.mpr List.nodup_range).filter _
  have hpair : (G i).cellCount + (G j).cellCount ≤
      ((namesakes r G (G i).name).map fun j => (G j).cellCount).sum := by
    rw [← List.sum_toFinset _ hnodup, ← Finset.sum_pair (f := fun k => (G k).cellCount) hij]
    refine Finset.sum_le_sum_of_subset fun k hk => ?_
    rw [List.mem_toFinset, mem_namesakes hG]
    rcases Finset.mem_insert.mp hk with rfl | hk
    · exact ⟨hi, rfl⟩
    · rw [Finset.mem_singleton.mp hk]
      exact ⟨hj, hname.symm⟩
  have hi' := hsum i hi
  have hj' := hsum j hj
  rw [← hname] at hj'
  omega

lemma Compiled.sums (hc : Compiled o p r) (hG : Places r G) (hcells : r.program.cellCount < 2 ^ 63)
    (hnames : ∀ i < r.flow.funcs.size, ∀ j < r.flow.funcs.size, (G i).name = (G j).name → i = j) :
    (r.stats.map (·.code)).sum = r.program.code.size ∧
      (r.stats.map (·.frame.toInt)).sum = r.program.memory.toInt := by
  obtain ⟨q, hq, hprogram⟩ := hc.program
  obtain ⟨main, frames, codes, hlaid⟩ := Layout.lower_eq_ok.mp hq
  have hfigures : ∀ {α : Type} {u : Stats → α} {v : Nat → α},
      (∀ (k : Nat) s, r.stats[k]? = some s → u s = v k) →
      r.stats.map u = (List.range r.flow.funcs.size).map v := by
    intro α u v huv
    rw [← hc.stats_size]
    refine List.ext_getElem (by simp) fun k hk hk' => ?_
    rw [List.length_map] at hk
    simpa using huv k _ (List.getElem?_eq_getElem hk)
  have hdescribes := fun k s hs => (hc.describes hG hnames (k := k) (s := s) hs).2
  constructor
  · have hcode : q.code.size = (q.funcs.map (·.size)).sum := by
      rw [Layout.LaidOut.code_size hlaid, hlaid.funcs, List.map_map]
      rfl
    have hsize : r.program.code.size = (r.program.funcs.map (·.size)).sum := by
      rw [hprogram]
      simpa [Layout.Program.resolve] using hcode
    rw [hfigures fun k s hs => (hdescribes k s hs).1, hsize, hG.funcs, List.map_map]
    exact (hG.perm.map _).sum_eq.symm
  · have hmemory : r.program.memory = Int64.ofNat r.program.cellCount := by
      rw [hprogram]
      exact (Layout.LaidOut.consecutive hlaid List.nodup_range).2
    have hframe : ∀ (k : Nat) s, r.stats[k]? = some s → s.frame.toInt = ((G k).cellCount : Int) := by
      intro k s hs
      obtain ⟨hk, -, hframe⟩ := hc.describes hG hnames hs
      rw [hframe, Int64.toInt_ofNat_of_lt ((hG.cellCount_le hk).trans_lt hcells)]
    rw [hfigures hframe, hmemory, Int64.toInt_ofNat_of_lt hcells, ← hG.cellCount_eq,
      (hG.perm.map _).sum_eq]
    push_cast
    rw [List.map_map]
    rfl

end Result

section Decls

variable {file : Tree.File} {o : Options} {p : Flow.Program} {r : Result} {G : Nat → Layout.Func}
  (hc : Compiled o p r) (hG : Places r G) (hsize : p.funcs.size = file.decls.length)
  (hbuilt : ∀ {k d}, file.decls[k]? = some d → ∃ f, p.funcs[k]? = some f ∧ Tree.Built file k d f)

include hc hG hsize hbuilt

lemma nodup_names_iff : (file.decls.map (·.name)).Nodup ↔
    ∀ i < r.flow.funcs.size, ∀ j < r.flow.funcs.size, (G i).name = (G j).name → i = j := by
  have hnames : file.decls.map (·.name) =
      (List.range r.flow.funcs.size).map fun k => (G k).name := by
    rw [← hc.map_name hsize hbuilt]
    refine List.ext_getElem (by simp) fun k hk hk' => ?_
    have hlt : k < r.flow.funcs.size := by simpa using hk
    obtain ⟨f, hf, hhouses⟩ := hG.houses k hlt
    obtain ⟨hfunc, rfl⟩ := Array.getElem?_eq_some_iff.mp hf
    simpa using hhouses.name.symm
  rw [hnames, List.nodup_map_iff_inj_on List.nodup_range]
  simp only [List.mem_range]

/-- Statistics that are right have different names: functions of the same name would have no cells,
but only a main program has none. -/
lemma describes_iff_nodup (hmain : file.decls.countP (·.isMain) = 1)
    (hcells : r.program.cellCount < 2 ^ 63) :
    (∀ (k : Nat) s, r.stats[k]? = some s → Stats.Describes r k s) ↔ (file.decls.map (·.name)).Nodup := by
  rw [nodup_names_iff hc hG hsize hbuilt]
  constructor
  · intro hall i hi j hj hname
    by_contra hij
    have hdecl : ∀ {k}, k < r.flow.funcs.size → (G k).cellCount = 0 →
        ∃ d, file.decls[k]? = some d ∧ d.isMain = true := by
      intro k hk hzero
      obtain ⟨g, hg, hhouses⟩ := hG.houses k hk
      obtain ⟨d, f, hd, -, hb, hs⟩ := spilled_of_optimized hsize hbuilt hc.funcs hg
      refine ⟨d, hd, ?_⟩
      rw [← hb.isMain, ← hs.isMain]
      have hcount : (G k).cellCount = g.cellCount := hhouses.cellCount
      rw [hzero, Flow.Func.cellCount] at hcount
      cases hgm : g.isMain with
      | true => rfl
      | false =>
        rw [hgm, if_neg Bool.false_ne_true] at hcount
        omega
    obtain ⟨d, hd, hdm⟩ := hdecl hi (hc.cellCount_eq_zero hG hcells hall hi hj hij hname)
    obtain ⟨e, he, hem⟩ :=
      hdecl hj (hc.cellCount_eq_zero hG hcells hall hj hi (Ne.symm hij) hname.symm)
    exact hij (Tree.eq_of_countP_eq_one hmain hd hdm he hem)
  · intro hnames k s hs
    obtain ⟨hk, hcode, hframe⟩ := hc.describes hG hnames hs
    refine ⟨G k, hG.func k hk, hcode, ?_⟩
    rw [hframe, Int64.toInt_ofNat_of_lt (hG.cellCount_le hk |>.trans_lt hcells)]

end Decls

/-- Whatever links compiles. Its statistics have an entry for each procedure, in order,
that tells its sizes after the stages and what these did: two more instructions for each spill, and at
least one less for each merge. Code and cells of all entries are those of their functions just if no
two procedures have the same name, and then they add up to those of the program. -/
theorem stats_describe_iff_names_differ {raw : Tree.RawFile} {file : Tree.File}
    (h : raw.link.run = .ok (.ok file)) (o : Options) :
    ∃ p r, file.build = .ok (.ok p) ∧ compile o file = .ok (.ok r) ∧
      (∀ (k : Nat) f, r.flow.funcs[k]? = some f → ∃ g, r.func? k = some g ∧ Houses f g) ∧
      r.stats.length = file.decls.length ∧
      (∀ (k : Nat) s, r.stats[k]? = some s → ∃ d f g, file.decls[k]? = some d ∧
        p.funcs[k]? = some f ∧ r.flow.funcs[k]? = some g ∧ s.name = d.name ∧ s.Records o f g ∧
        s.spilled = s.built + 2 * s.spills ∧ s.coalesced + s.merges ≤ s.spilled) ∧
      (r.program.cellCount < 2 ^ 63 →
        ((∀ (k : Nat) s, r.stats[k]? = some s → Stats.Describes r k s) ↔
          (file.decls.map (·.name)).Nodup) ∧
        ((file.decls.map (·.name)).Nodup → (r.stats.map (·.code)).sum = r.program.code.size ∧
          (r.stats.map (·.frame.toInt)).sum = r.program.memory.toInt)) := by
  have hfile := (raw.link_linked h).sensible
  obtain ⟨p, r, hp, hr, hc⟩ := hfile.compile_ok o
  obtain ⟨p', hp', hsize, hbuilt⟩ := hfile.build
  obtain rfl : p' = p := Except.ok.inj (Except.ok.inj (hp'.symm.trans hp))
  obtain ⟨G, hG⟩ := hc.places
  refine ⟨p', r, hp, hr, fun k f hf => ?_, ?_, fun k s hs => ?_, fun hcells => ⟨?_, fun hnames => ?_⟩⟩
  · have hk := (Array.getElem?_eq_some_iff.mp hf).1
    obtain ⟨f', hf', hhouses⟩ := hG.houses k hk
    obtain rfl : f = f' := Option.some.inj (hf.symm.trans hf')
    exact ⟨G k, hG.func k hk, hhouses⟩
  · rw [hc.stats_size, ← Array.length_toList, ← hc.funcs.length_eq, Array.length_toList, hsize]
  · obtain ⟨f, g, hf, hg, hrecords, -⟩ := hc.entry hG hs
    obtain ⟨d, f', hd, hf', hb, hspilled⟩ := spilled_of_optimized hsize hbuilt hc.funcs hg
    obtain rfl : f = f' := Option.some.inj (hf.symm.trans hf')
    exact ⟨d, f, g, hd, hf, hg, by rw [hrecords.name, hspilled.name, hb.name], hrecords,
      hrecords.sizes hb⟩
  · exact describes_iff_nodup hc hG hsize hbuilt hfile.main hcells
  · exact hc.sums hG hcells ((nodup_names_iff hc hG hsize hbuilt).mp hnames)

open Tree.Node in
/-- A main program that does nothing, and a procedure of the given name. -/
def beside (name : Bytes) : Tree.RawFile where
  procedures := [some { name := name, body := [record [("write", word "1")]] }]
  main := some {}

def besideTree (name : Bytes) : Tree.File where
  decls := [{ name := name, body := [.write {} (.number {} 1)] },
    { name := "main", isMain := true }]

/-- Different names have the right figures. -/
theorem beside_main_described :
    ∃ r, (beside "one").link.run = .ok (.ok (besideTree "one")) ∧
      compile {} (besideTree "one") = .ok (.ok r) ∧
      r.stats = [⟨"one", 3, 5, 3, 0, 1, 1, 1, 10⟩, ⟨"main", 1, 1, 1, 0, 0, 0, 0, 1⟩] ∧
      (∀ (k : Nat) s, r.stats[k]? = some s → Stats.Describes r k s) ∧
      (r.stats.map (·.code)).sum = r.program.code.size ∧
      (r.stats.map (·.frame.toInt)).sum = r.program.memory.toInt := by
  have hlink : (beside "one").link.run = .ok (.ok (besideTree "one")) := by decide +kernel
  obtain ⟨r, hr, hstats, hcells⟩ : ∃ r, compile {} (besideTree "one") = .ok (.ok r) ∧
      r.stats = [⟨"one", 3, 5, 3, 0, 1, 1, 1, 10⟩, ⟨"main", 1, 1, 1, 0, 0, 0, 0, 1⟩] ∧
      r.program.cellCount = 1 := exists_ok_of_test (by cbv)
  obtain ⟨p, r', -, hr', -, -, -, hfigures⟩ := stats_describe_iff_names_differ hlink {}
  obtain rfl : r = r' := Except.ok.inj (Except.ok.inj (hr.symm.trans hr'))
  have hnames : ((besideTree "one").decls.map (·.name)).Nodup := by decide
  obtain ⟨hdescribes, hsums⟩ := hfigures (by rw [hcells]; decide)
  exact ⟨r, hlink, hr, hstats, hdescribes.mpr hnames, hsums hnames⟩

/-- A procedure with the name of the main program makes both figures of the main program wrong: it has
one instruction and no cell. -/
theorem namesake_of_main_not_described :
    ∃ r, (beside "main").link.run = .ok (.ok (besideTree "main")) ∧
      compile {} (besideTree "main") = .ok (.ok r) ∧
      r.stats = [⟨"main", 3, 5, 3, 0, 1, 1, 1, 10⟩, ⟨"main", 1, 1, 1, 0, 0, 0, 1, 10⟩] ∧
      (r.func? 1).map (fun g => (g.size, g.cellCount)) = some (1, 0) ∧
      ¬ ∀ (k : Nat) s, r.stats[k]? = some s → Stats.Describes r k s := by
  have hlink : (beside "main").link.run = .ok (.ok (besideTree "main")) := by decide +kernel
  obtain ⟨r, hr, hstats, hfunc⟩ : ∃ r, compile {} (besideTree "main") = .ok (.ok r) ∧
      r.stats = [⟨"main", 3, 5, 3, 0, 1, 1, 1, 10⟩, ⟨"main", 1, 1, 1, 0, 0, 0, 1, 10⟩] ∧
      (r.func? 1).map (fun g => (g.size, g.cellCount)) = some (1, 0) := exists_ok_of_test (by cbv)
  refine ⟨r, hlink, hr, hstats, hfunc, fun hall => ?_⟩
  obtain ⟨g, hg, hcode, -⟩ := hall 1 ⟨"main", 1, 1, 1, 0, 0, 0, 1, 10⟩ (by rw [hstats]; rfl)
  rw [hg, Option.map_some, Option.some.injEq, Prod.mk.injEq] at hfunc
  rw [hfunc.1] at hcode
  cases hcode

end Compile

end Accumulator
