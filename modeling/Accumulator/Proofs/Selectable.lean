import Mathlib
import Accumulator.Layout.Recipe
import Accumulator.Proofs.Complementing
import Accumulator.Proofs.OperandsInPlace

/-!
# Functions that can be laid out

A function can be laid out if its operations have recipes, its calls match the functions that they
lead to, and its variables are those of its frame. An orderly function is such a function once its
comparisons can be tested, and stays so when values are spilled and coalesced.
-/

namespace Accumulator.Flow

/-- The operations that the machine has a recipe for. -/
def Op.HasRecipe (op : Op) : Prop := ∃ items, Layout.arithmetic op = .ok items

lemma Op.hasRecipe_of_testable {op : Op} (htree : op.isTree = true) (h : op.complement? = none) :
    op.HasRecipe := by
  cases op with
  | shl | shr | unknown => cases htree
  | eq | le | ge => simp [Op.complement?] at h
  | _ => exact ⟨_, rfl⟩

namespace Func

variable {f f' g : Func} {arity : Nat → Nat → Prop} {i u : Int} {b c : BlockId} {x : Payload}
  {S ids us l pre post mid mid' : List Id} {id : Int} {σ : Id → Id} {v : Id}

/-- All instructions that control comes to have recipes, and all variables in use are listed once. -/
structure Selectable (arity : Nat → Nat → Prop) (f : Func) : Prop where
  suits : ∀ {u x}, f.Runs u → f.live? u = some x → x.Suits Op.HasRecipe arity f.isMain
  listed : ∀ {v}, (f.varOf? v).isSome → Used f v → v ∈ f.locals ++ f.params
  nodup : (f.locals ++ f.params).Nodup

lemma Canonical.selectable (hf : Orderly arity ∅ f) (hnodup : (f.locals ++ f.params).Nodup)
    (h : Canonical f S g) : Selectable arity g := by
  have hg := hf.complement h.toComplements
  have hhead := h.becomes.frame.head
  refine ⟨fun {u y} hu hy => ?_, fun {v} hv hused => ?_, by rw [hhead.locals, hhead.params]; exact hnodup⟩
  · have hsuits := hg.suits hy
    obtain ⟨c, l, hc, hl, hul⟩ := hu
    cases y with
    | alu op a b =>
      refine Op.hasRecipe_of_testable hsuits ?_
      obtain ⟨x, hx, heq⟩ := h.live_cases hy
      rw [h.reaches] at hc
      rw [h.becomes.code] at hl
      rcases Payload.complemented_cases S u x with hsame | ⟨op', a', b', -, -, hc'⟩ | ⟨_, _, _, _, -, -, hc'⟩
      · rw [hsame] at heq
        subst heq
        by_contra hne
        have hmem := h.all hc hl hul hx (Option.isSome_iff_ne_none.mpr hne)
        rw [Payload.complemented, if_pos hmem] at hsame
        have hop : op.complement?.getD op = op := by injection hsame
        exact hne (hop ▸ Payload.complement?_getD_none op)
      · rw [hc'] at heq
        cases heq
        exact Payload.complement?_getD_none op'
      · rw [hc'] at heq
        cases heq
    | call k args => exact hsuits
    | ret => exact hsuits
    | _ => trivial
  · obtain ⟨u, x, hx, hop⟩ := hused
    obtain ⟨b, l, hl, hu⟩ := hg.placed hx (asVar_of_operand hop)
    obtain ⟨pre, post, rfl⟩ := List.append_of_mem hu
    rcases hg.operand hl hx hop with ⟨hmem, -⟩ | ⟨-, -, y, hy, hp⟩
    · exact hmem
    · rw [varOf?_of_live hy, Payload.asVar_of_produces hp] at hv
      cases hv

lemma Spills.runs_old (hs : Spills f f' id b pre post us) (h : Spillable f id b pre post)
    (hu : f'.Runs u) (hlt : u < f.slots.size) : f.Runs u := by
  obtain ⟨c, m, hc, hm, hum⟩ := hu
  rw [hs.reaches_iff h] at hc
  obtain ⟨l, hl, -⟩ := h.wellFormed.closes hc
  have heq := Option.some.inj ((hs.listing_around h hc hl).symm.trans hm)
  rw [← heq, List.mem_flatMap] at hum
  obtain ⟨j, hj, huj⟩ := hum
  have hju : u = j := by
    simp only [around, List.mem_append, List.mem_cons] at huj
    rcases huj with hfill | rfl | hstore
    · split at hfill
      · next hjus =>
        have hge := (fillOf_bounds (n := f.slots.size) hjus).1
        rw [← List.mem_singleton.mp hfill] at hge
        exact absurd hlt (by omega)
      · simp at hfill
    · rfl
    · split at hstore
      · have hge : u = ((f.slots.size + 1 + us.length : Nat) : Int) := List.mem_singleton.mp hstore
        exact absurd hlt (by omega)
      · simp at hstore
  exact ⟨c, l, hc, hl, hju ▸ hj⟩

lemma Spills.selectable (hs : Spills f f' id b pre post us) (h : Spillable f id b pre post)
    (hsel : Selectable arity f) : Selectable arity f' := by
  obtain ⟨slots, blocks, hrest⟩ := hs.rest
  have hmain : f'.isMain = f.isMain := by rw [hrest]
  have hlocals : f'.locals = f.locals ++ [(f.slots.size : Int)] := by rw [hrest]
  have hparams : f'.params = f.params := by rw [hrest]
  refine ⟨fun {u y} hu hy => ?_, fun {v} hv hused => ?_, ?_⟩
  · rw [hmain]
    rcases hs.live_cases hy with ⟨x, hx, rfl⟩ | ⟨-, rfl⟩ | ⟨k, -, -, rfl⟩ | ⟨-, rfl⟩
    · rw [Payload.suits_rename]
      exact hsel.suits (hs.runs_old h hu (lt_size_of_live hx)) hx
    · trivial
    · trivial
    · trivial
  · rw [hlocals, hparams]
    rw [hs.vars] at hv
    split at hv
    · next hnew => simp [hnew]
    · obtain ⟨u, y, hy, hop⟩ := hused
      have hused : Used f v := by
        rcases hs.live_cases hy with ⟨x, hx, rfl⟩ | ⟨-, rfl⟩ | ⟨k, -, -, rfl⟩ | ⟨-, rfl⟩
        · rw [Payload.operands_rename, List.mem_map] at hop
          obtain ⟨d, hd, rfl⟩ := hop
          by_cases hid : d = id
          · subst hid
            rw [instead_self] at hv
            obtain ⟨hlo, -⟩ := fillOf_bounds (n := f.slots.size) ((hs.users u).mpr ⟨x, hx, hd⟩)
            have := (at?_isSome.mp (at?_of_varOf? hv)).2
            omega
          · rw [instead_of_ne hid] at hv ⊢
            exact ⟨u, x, hx, hd⟩
        · simp [Payload.operands] at hop
        · have hnew : v = f.slots.size := by simpa [Payload.operands] using hop
          contradiction
        · have hnew : v = f.slots.size ∨ v = id := by simpa [Payload.operands] using hop
          exact absurd (hnew.resolve_left (by assumption)) (h.ne_var hv)
      have := hsel.listed hv hused
      simp only [List.mem_append] at this ⊢
      tauto
  · have hfresh : ∀ v ∈ f.locals ++ f.params, v ≠ (f.slots.size : Int) := by
      rintro v hv rfl
      have := at?_of_varOf? (h.framed _ hv)
      rw [at?_size_eq_none] at this
      cases this
    rw [hlocals, hparams, List.append_assoc, List.singleton_append]
    refine List.nodup_middle.mpr (List.nodup_cons.mpr ⟨fun hmem => hfresh _ hmem rfl, hsel.nodup⟩)

lemma SpillChain.selectable (h : SpillChain f ids g) (hsel : Selectable arity f) :
    Selectable arity g := by
  induction h with
  | refl => exact hsel
  | tail _ hsp hs _ _ ih => exact hs.selectable hsp ih

lemma Rewrites.suits (hf : Tidy f) (hr : f.Reaches b) (h : Rewrites f f' b)
    (hsuits : ∀ {u x}, f.Runs u → f.live? u = some x → x.Suits Op.HasRecipe arity f.isMain)
    (hu : f'.Runs u) (hx : f'.live? u = some x) : x.Suits Op.HasRecipe arity f'.isMain := by
  obtain ⟨v, pre, mid, mid', post, σ, hwin, hshape⟩ := h
  rw [hwin.frame.head.isMain]
  rcases hwin.live_cases hx with hnew | ⟨-, hm', y, hy, rfl⟩
  · obtain ⟨s, r, t, hm⟩ := hshape.merging hf hwin
    rcases hm.new u hnew with ⟨d, w, -, -, -, -, -, hload | hload⟩ | ⟨rfl, hst, -⟩
    · obtain rfl := Option.some.inj (hx.symm.trans hload)
      trivial
    · obtain rfl := Option.some.inj (hx.symm.trans hload)
      trivial
    · obtain rfl := Option.some.inj (hx.symm.trans hst)
      trivial
  · rw [Payload.suits_rename]
    exact hsuits (hwin.runs_old hf hr hshape hu hm').1 hy

lemma Coalesces.suits (hf : Tidy f) (h : Coalesces f g)
    (hsuits : ∀ {u x}, f.Runs u → f.live? u = some x → x.Suits Op.HasRecipe arity f.isMain) :
    ∀ {u x}, g.Runs u → g.live? u = some x → x.Suits Op.HasRecipe arity g.isMain := by
  induction h with
  | refl => exact hsuits
  | tail hchain hstep ih =>
    obtain ⟨b, hr, hrw⟩ := hstep
    exact hrw.suits (Coalesces.keeps hf hchain).1 hr ih

lemma Coalesced.selectable (hf : Tidy f) (h : Coalesced f f') (hsel : Selectable arity f) :
    Selectable arity f' := by
  obtain ⟨g, hchain, hp⟩ := h.chain
  obtain ⟨slots, blocks, locals, hf'⟩ := h.rest
  refine ⟨fun {u x} hu hx => ?_, fun {v} hv hused => ?_, ?_⟩
  · obtain ⟨ht, hkept⟩ := hchain.keeps hf
    obtain ⟨slots', blocks', hg⟩ := hkept.frame
    obtain ⟨hru, hlive⟩ := hp.runs ht (by rw [hf', hg]) hu
    have hsuits := hchain.suits hf hsel.suits hru (hlive.symm.trans hx)
    rw [hg] at hsuits
    rw [hf']
    exact hsuits
  · rw [h.vars] at hv
    have hmem := hsel.listed hv (h.used v hv hused)
    have hparams : f'.params = f.params := by rw [hf']
    rw [hparams]
    rcases List.mem_append.mp hmem with hl | hp
    · exact List.mem_append_left _ (h.kept v hl hused)
    · exact List.mem_append_right _ hp
  · have hparams : f'.params = f.params := by rw [hf']
    rw [hparams]
    exact hsel.nodup.sublist (h.locals.append (List.Sublist.refl _))

end Func

end Accumulator.Flow
