import Mathlib
import Accumulator.Proofs.Building

/-!
# Building bodies and programs

Statements are built one after the other, and blocks are opened, filled and closed on the way. What
comes out for a whole program is an orderly function for each procedure.
-/

namespace Accumulator.Tree

open Accumulator.Flow (Id BlockId Payload lookup lookup_eq_ok lookup_natCast)
open Accumulator.Flow.Func (Extends Orderly Admits)

section Statements

variable {c : Scope} {arity : Nat → Nat → Prop} {opened : Set BlockId} {st st' st'' : Builder}
  {f f' f'' : Flow.Func} {l l' ids ids' : List Id} {x : Payload}

lemma Stands.assign (h : Stands c arity (insert st.current opened) st f l)
    (hcur : st.current ∉ opened) {dst src : Expr} (hdst : dst.LinkedTarget c.proc)
    (hsrc : src.Linked c.proc) (pos : Position) :
    Yields (c.stmt (.assign pos dst src)) st fun _ =>
      Ran c arity opened st f l [.assign pos dst src] := by
  rw [Scope.stmt, Scope.assign]
  refine (h.address hdst).bind fun d st₁ ⟨f₁, ids, hw₁, ho₁, hd, hmem⟩ => ?_
  have h₁ := h.wrote hw₁ ho₁
  refine (h₁.expr hsrc).bind fun s st₂ ⟨f₂, ids', hw₂, ho₂, hs⟩ => ?_
  have h₂ := h₁.wrote hw₂ ho₂
  have hd₂ := hd.mono hw₂.ext
  have hmem₂ : d ∈ f₂.locals ++ f₂.params ∨ d ∈ ids := by
    rw [hw₂.ext.head.locals, hw₂.ext.head.params]
    exact hmem
  refine (h₂.emit_plain pos (h₂.admits_store hd₂ hmem₂ hs) rfl).discard
    fun i st₃ ⟨f₃, hw₃, ho₃, hi⟩ => ?_
  refine Ran.of_wrote h hcur ((hw₁.trans hw₂).trans hw₃) ho₃ fun hwithin => ?_
  exact .assign (hd₂.mono hw₃.ext) (hs.mono hw₃.ext) hi hwithin .nil

lemma Stands.read (h : Stands c arity (insert st.current opened) st f l)
    (hcur : st.current ∉ opened) {dst : Expr} (hdst : dst.LinkedTarget c.proc) (pos : Position) :
    Yields (c.stmt (.read pos dst)) st fun _ => Ran c arity opened st f l [.read pos dst] := by
  have hplain : ∀ {f : Flow.Func} {r : Id}, f.live? r = some .read → Plain f r :=
    fun h => ⟨_, h, rfl, rfl⟩
  rw [Scope.stmt]
  unfold Scope.read
  cases dst with
  | ident pos' ref =>
    obtain ⟨v, hslot, hv⟩ := h.vars hdst
    refine Yields.lift hslot ?_
    refine (h.emit_plain pos admits_read rfl).bind fun r st₁ ⟨f₁, hw₁, ho₁, hr⟩ => ?_
    have h₁ := h.wrote hw₁ ho₁
    have hv₁ : v ∈ f₁.locals ++ f₁.params := by
      rw [hw₁.ext.head.locals, hw₁.ext.head.params]
      exact hv
    have hfits : Admits arity f₁ (l ++ [r]) (c.storing ref v r) :=
      admits_storing ho₁.framed ref hv₁ (hplain hr)
        (mem_avail_of_plain (by simpa using hplain hr) (by simp))
    have hterm : (c.storing ref v r).isTerminal = false := by
      unfold Scope.storing
      split <;> rfl
    refine (h₁.emit_plain pos hfits hterm).discard fun i st₂ ⟨f₂, hw₂, ho₂, hi⟩ => ?_
    refine Ran.of_wrote h hcur (hw₁.trans hw₂) ho₂ fun hwithin => ?_
    exact .readIdent hslot (hw₂.ext.live hr) hi hwithin .nil
  | index pos' ref offset =>
    refine (h.address hdst).bind fun d st₁ ⟨f₁, ids, hw₁, ho₁, hd, hmem⟩ => ?_
    have h₁ := h.wrote hw₁ ho₁
    refine (h₁.emit_plain pos admits_read rfl).bind fun r st₂ ⟨f₂, hw₂, ho₂, hr⟩ => ?_
    have h₂ := h₁.wrote hw₂ ho₂
    have hd₂ := hd.mono hw₂.ext
    have hids : d ∈ ids := by
      cases hd
      simp
    have hall : ∀ j ∈ ids ++ [r], Plain f₂ j := by
      intro j hj
      rcases List.mem_append.mp hj with hj | hj
      · exact hd₂.plain j hj
      · obtain rfl := List.mem_singleton.mp hj
        exact hplain hr
    have hfits : Admits arity f₂ (l ++ ids ++ [r]) (.store d r) := by
      refine Tree.admits_store (Or.inr (hd₂.plain d hids)) ho₂.framed (hplain hr) (fun _ => ?_)
        fun _ => ?_
      · rw [List.append_assoc]
        exact mem_avail_of_plain hall (by simp)
      · rw [List.append_assoc, Flow.Func.avail_append
          fun j hj => (hall j hj).imp fun z hz => ⟨hz.1, hz.2.1⟩]
        refine List.Sublist.trans ?_ (List.sublist_append_right _ _)
        exact (List.singleton_sublist.mpr hids).append (List.Sublist.refl [r])
    refine (h₂.emit_plain pos hfits rfl).discard fun i st₃ ⟨f₃, hw₃, ho₃, hi⟩ => ?_
    have hw := (hw₁.trans hw₂).trans hw₃
    rw [List.append_assoc] at hw
    refine Ran.of_wrote h hcur hw ho₃ fun hwithin => ?_
    exact .readIndex (hd₂.mono hw₃.ext) (hw₃.ext.live hr) hi hwithin .nil
  | _ => exact hdst.elim

lemma Stands.write (h : Stands c arity (insert st.current opened) st f l)
    (hcur : st.current ∉ opened) {src : Expr} (hsrc : src.Linked c.proc) (pos : Position) :
    Yields (c.stmt (.write pos src)) st fun _ => Ran c arity opened st f l [.write pos src] := by
  rw [Scope.stmt, Scope.write]
  refine (h.expr hsrc).bind fun s st₁ ⟨f₁, ids, hw₁, ho₁, hs⟩ => ?_
  have h₁ := h.wrote hw₁ ho₁
  have hfits : Admits arity f₁ (l ++ ids) (.write s) :=
    admits_write (hs.plain.2 s hs.plain.1) (mem_avail_of_plain hs.plain.2 hs.plain.1)
  refine (h₁.emit_plain pos hfits rfl).discard fun i st₂ ⟨f₂, hw₂, ho₂, hi⟩ => ?_
  refine Ran.of_wrote h hcur (hw₁.trans hw₂) ho₂ fun hwithin => ?_
  exact .write (hs.mono hw₂.ext) hi hwithin .nil

lemma mapM_lift {args : List Expr} {ids : List Id} (h : args.mapM c.argument = .ok ids) :
    Yields (args.mapM fun a => (c.argument a : Build Id)) st fun ids' st' => ids' = ids ∧ st' = st := by
  induction args generalizing ids with
  | nil =>
    cases h
    exact Yields.pure ⟨rfl, rfl⟩
  | cons e rest ih =>
    rw [List.mapM_cons, bind_eq_ok] at h
    obtain ⟨v, hv, h⟩ := h
    rw [bind_eq_ok] at h
    obtain ⟨vs, hvs, h⟩ := h
    cases h
    rw [List.mapM_cons]
    refine Yields.lift hv ?_
    refine (ih hvs).bind fun vs' st' hvs' => ?_
    rw [hvs'.1]
    exact Yields.pure ⟨rfl, hvs'.2⟩

lemma Stands.call (h : Stands c arity (insert st.current opened) st f l)
    (hcur : st.current ∉ opened) {k : Nat} {args : List Expr} (hk : arity k args.length)
    (hargs : ∀ e ∈ args, e.LinkedArgument c.proc) (pos : Position) :
    Yields (c.stmt (.call pos (some k) args)) st fun _ =>
      Ran c arity opened st f l [.call pos (some k) args] := by
  rw [Scope.stmt, Scope.call]
  obtain ⟨ids, hids, hlen, hmem⟩ := h.arguments hargs
  refine (mapM_lift hids).bind fun ids' st' hst' => ?_
  obtain ⟨rfl, rfl⟩ := hst'
  refine (h.emit_plain pos (admits_call (by rw [hlen]; exact hk) hmem) rfl).discard
    fun i st₁ ⟨f₁, hw₁, ho₁, hi⟩ => ?_
  exact Ran.of_wrote h hcur hw₁ ho₁ fun hwithin => .call hids hi hwithin .nil

/-- Statements that can be built at any point. -/
def Buildable (c : Scope) (arity : Nat → Nat → Prop) (ss : List Stmt) : Prop :=
  ∀ {opened : Set BlockId} {st : Builder} {f : Flow.Func} {l : List Id},
    Stands c arity (insert st.current opened) st f l → st.current ∉ opened →
    Yields (c.stmts ss) st fun _ => Ran c arity opened st f l ss

lemma Stands.jump (h : Stands c arity (insert st.current opened) st f l)
    (hcur : st.current ∉ opened) (pos : Position) (hx : Admits arity f l x)
    (hterm : x.isTerminal = true) {b : BlockId} (hb : b ∈ opened) (hempty : f.listing? b = some []) :
    Yields (discard (c.emit pos x)) st fun _ st₁ => Yields (Scope.enter b) st₁ fun _ st' => ∃ f' i,
      Stands c arity opened st' f' [] ∧ Grows c st f st' f' ∧ st'.current = b ∧
      f'.live? i = some x ∧ Within f' st.current (l ++ [i]) ∧
      (∀ b', b' ∈ opened → f'.listing? b' = f.listing? b') ∧
      ∀ {d}, (f'.listing? d).isSome → (f.listing? d).isSome := by
  have hne : b ≠ st.current := fun h' => hcur (h' ▸ hb)
  obtain ⟨u, st₁, hu, henter⟩ := h.close pos hx hterm (Or.inr hb) hne
  refine ⟨u, st₁, hu, henter.mono ?_⟩
  rintro _ st' ⟨f', m, i, h', hm, hg, hc, hi, hwithin, hsame⟩
  obtain rfl : [] = m := Option.some.inj (hempty.symm.trans hm)
  rw [Set.insert_sdiff_self_of_notMem hcur] at h'
  refine ⟨f', i, h', hg, hc, hi, hwithin, fun b' hb' => hsame b' fun h'' => hcur (h'' ▸ hb'),
    fun {d} hd => ?_⟩
  by_cases hdc : d = st.current
  · rw [hdc, h.listing]
    rfl
  · rwa [← hsame d hdc]

lemma mem_foldr_insert {bs : List BlockId} {b : BlockId} :
    b ∈ bs.foldr insert opened ↔ b ∈ bs ∨ b ∈ opened := by
  induction bs with
  | nil => simp
  | cons d bs ih => rw [List.foldr_cons, Set.mem_insert_iff, ih, List.mem_cons, or_assoc]

/-- Empty blocks `bs` were opened beside the current one, in this order. -/
structure OpensBlocks (c : Scope) (arity : Nat → Nat → Prop) (opened : Set BlockId) (st : Builder)
    (f : Flow.Func) (l : List Id) (bs : List BlockId) (st' : Builder) (f' : Flow.Func) : Prop where
  stands : Stands c arity (insert st'.current (bs.foldr insert opened)) st' f' l
  grows : Grows c st f st' f'
  current : st'.current = st.current
  out : st'.current ∉ bs.foldr insert opened
  nodup : bs.Nodup
  fresh : ∀ b ∈ bs, b ∉ opened
  empty : ∀ b ∈ bs, f'.listing? b = some []
  same : ∀ b ∈ opened, f'.listing? b = f.listing? b
  spans : ∀ {g : Flow.Func}, (∀ b ∈ bs, Relation.ReflTransGen g.Leads st.current b) →
    Spans g f st.current f' st.current

lemma OpensBlocks.refl (h : Stands c arity (insert st.current opened) st f l)
    (hcur : st.current ∉ opened) : OpensBlocks c arity opened st f l [] st f where
  stands := h
  grows := ⟨h.func, Extends.refl f, Others.refl _ _⟩
  current := rfl
  out := hcur
  nodup := List.nodup_nil
  fresh := by simp
  empty := by simp
  same := fun _ _ => rfl
  spans := fun {g} _ => Spans.refl g f st.current

lemma OpensBlocks.newBlock {bs : List BlockId} (h : OpensBlocks c arity opened st f l bs st' f') :
    Yields c.newBlock st' fun b st'' => ∃ f'', OpensBlocks c arity opened st f l (bs ++ [b]) st'' f'' := by
  refine h.stands.newBlock.mono fun b st'' ⟨f'', h', hg, hc, hb, hempty, hsame⟩ => ⟨f'', ?_⟩
  simp only [Set.mem_insert_iff, mem_foldr_insert, not_or] at hb
  obtain ⟨hbc, hbs, hbo⟩ := hb
  have hset : insert b (insert st'.current (bs.foldr insert opened)) =
      insert st''.current ((bs ++ [b]).foldr insert opened) := by
    ext d
    simp only [hc, Set.mem_insert_iff, mem_foldr_insert, List.mem_append, List.mem_singleton]
    tauto
  have hold : ∀ d ∈ bs, f''.listing? d = f'.listing? d := fun d hd => hsame d fun h' => hbs (h' ▸ hd)
  refine ⟨hset ▸ h', h.grows.trans hg, hc.trans h.current, ?_, ?_, ?_, ?_, fun d hd => ?_,
    fun {g} hleads => ?_⟩
  · have hout := h.out
    rw [mem_foldr_insert, not_or] at hout
    rw [hc, mem_foldr_insert, List.mem_append, List.mem_singleton]
    rintro ((hd | hd) | hd)
    · exact hout.1 hd
    · exact hbc hd.symm
    · exact hout.2 hd
  · rw [← List.concat_eq_append]
    exact h.nodup.concat hbs
  · rw [List.forall_mem_append]
    exact ⟨h.fresh, by simpa using hbo⟩
  · rw [List.forall_mem_append]
    exact ⟨fun d hd => (hold d hd).trans (h.empty d hd), by simpa using hempty⟩
  · exact (hsame d fun h' => hbo (h' ▸ hd)).trans (h.same d hd)
  · rw [List.forall_mem_append] at hleads
    exact (h.spans hleads.1).newBlock hsame (hleads.2 b (by simp))

lemma Stands.choose (h : Stands c arity (insert st.current opened) st f l)
    (hcur : st.current ∉ opened) {cond : Expr} (hcond : cond.LinkedTest c.proc)
    {yes no : List Stmt} (hyes : Buildable c arity yes) (hno : Buildable c arity no)
    (pos : Position) :
    Yields (c.stmt (.choose pos cond yes no)) st fun _ =>
      Ran c arity opened st f l [.choose pos cond yes no] := by
  rw [Scope.stmt]
  refine (OpensBlocks.refl h hcur).newBlock.bind fun thenTo st₁ ⟨f₁, ho₁⟩ => ?_
  refine ho₁.newBlock.bind fun elseTo st₂ ⟨f₂, ho₂⟩ => ?_
  refine ho₂.newBlock.bind fun merge st₃ ⟨f₃, ho₃⟩ => ?_
  have h₃ : Stands c arity (insert st₃.current (insert thenTo (insert elseTo (insert merge opened))))
      st₃ f₃ l := ho₃.stands
  have hout₃ : st₃.current ∉ insert thenTo (insert elseTo (insert merge opened)) := ho₃.out
  obtain ⟨⟨hTE, hTM⟩, hEM⟩ : (thenTo ≠ elseTo ∧ thenTo ≠ merge) ∧ elseTo ≠ merge := by
    simpa using ho₃.nodup
  obtain ⟨hTo, hEo, hMo⟩ : thenTo ∉ opened ∧ elseTo ∉ opened ∧ merge ∉ opened := by
    simpa using ho₃.fresh
  refine (h₃.condition hcond).bind fun t st₄ ⟨f₄, ids, hw₄, ho₄, ht⟩ => ?_
  have h₄ := h₃.wrote hw₄ ho₄
  rw [← hw₄.current] at h₄ hout₃
  have hsame₄ : ∀ b ∈ insert thenTo (insert elseTo (insert merge opened)),
      f₄.listing? b = f₃.listing? b :=
    fun b hb => hw₄.other b fun h' => hout₃ (by rw [hw₄.current, ← h']; exact hb)
  have hempty : ∀ b ∈ [thenTo, elseTo, merge], f₄.listing? b = some [] := by
    intro b hb
    rw [hsame₄ b (mem_foldr_insert.mpr (Or.inl hb)), ho₃.empty b hb]
  have hold₄ : ∀ b ∈ opened, f₄.listing? b = f.listing? b := by
    intro b hb
    rw [hsame₄ b (by simp [hb]), ho₃.same b hb]
  have hfits : Admits arity f₄ (l ++ ids) (.branchIf .positive t thenTo elseTo) :=
    admits_branchIf ht (by simp [hempty]) (by simp [hempty])
  refine (h₄.jump hout₃ pos hfits rfl (Set.mem_insert _ _) (hempty _ (by simp))).bind
    fun _ _ henter => henter.bind fun _ st₅ ⟨f₅, i, h₅, hg₅, hc₅, hi, hwithin, hs₅, hb₅⟩ => ?_
  rw [← hc₅] at h₅
  refine (hyes h₅ (by simp [hc₅, hTE, hTM, hTo])).bind
    fun _ st₆ ⟨f₆, l₆, h₆, hcur₆, hg₆, hs₆, hfl₆, hsp₆⟩ => ?_
  have hempty₆ : ∀ b ∈ [elseTo, merge], f₆.listing? b = some [] := by
    intro b hb
    rcases List.mem_pair.mp hb with rfl | rfl
    · rw [hs₆ _ (by simp), hs₅ _ (by simp), hempty _ (by simp)]
    · rw [hs₆ _ (by simp), hs₅ _ (by simp), hempty _ (by simp)]
  refine (h₆.jump hcur₆ pos (admits_branch (by rw [hempty₆ merge (by simp)]; rfl)) rfl
    (Set.mem_insert _ _) (hempty₆ _ (by simp))).bind
    fun _ _ henter => henter.bind fun _ st₇ ⟨f₇, i₁, h₇, hg₇, hc₇, hi₁, hwithin₁, hs₇, hb₇⟩ => ?_
  rw [← hc₇] at h₇
  refine (hno h₇ (by simp [hc₇, hEM, hEo])).bind
    fun _ st₈ ⟨f₈, l₈, h₈, hcur₈, hg₈, hs₈, hfl₈, hsp₈⟩ => ?_
  have hempty₈ : f₈.listing? merge = some [] := by
    rw [hs₈ merge (by simp), hs₇ merge (by simp), hempty₆ merge (by simp)]
  refine (h₈.jump hcur₈ pos (admits_branch (by rw [hempty₈]; rfl)) rfl
    (Set.mem_insert _ _) hempty₈).bind
    fun _ _ henter => henter.mono fun _ st₉ ⟨f₉, i₂, h₉, hg₉, hc₉, hi₂, hwithin₂, hs₉, hb₉⟩ => ?_
  have hext₅ : Extends f₅ f₉ := hg₆.ext.trans (hg₇.ext.trans (hg₈.ext.trans hg₉.ext))
  have hext₇ : Extends f₇ f₉ := hg₈.ext.trans hg₉.ext
  rw [hw₄.current, ho₃.current] at hwithin
  refine ⟨f₉, [], by rw [hc₉]; exact h₉, by rw [hc₉]; exact hMo, ?_, fun b hb => ?_, ?_,
    fun {g} hg => ?_⟩
  · exact ho₃.grows.trans (hw₄.toGrows.trans (hg₅.trans (hg₆.trans (hg₇.trans (hg₈.trans hg₉)))))
  · rw [hs₉ b (by simp [hb]), hs₈ b (by simp [hb]), hs₇ b (by simp [hb]), hs₆ b (by simp [hb]),
      hs₅ b (by simp [hb]), hold₄ b hb]
  · rw [hc₉]
    rw [hc₅] at hfl₆
    rw [hc₇] at hfl₈
    rw [List.append_assoc] at hwithin
    exact .choose (ht.mono (hg₅.ext.trans hext₅)) (hext₅.live hi) (hwithin.mono hext₅)
      (hfl₆.mono (hg₇.ext.trans hext₇)) (hext₇.live hi₁) (hwithin₁.mono hext₇)
      (hfl₈.mono hg₉.ext) hi₂ hwithin₂ .nil
  · have hg₇' : Completes f₇ g := hg.of_extends hext₇
    have hyes' := hsp₆ (hg₇'.of_extends hg₇.ext)
    have hno' := hsp₈ (hg.of_extends hg₉.ext)
    rw [hc₅] at hyes'
    rw [hc₇] at hno'
    have hleads : ∀ b ∈ [thenTo, elseTo], Relation.ReflTransGen g.Leads st.current b :=
      fun b hb => .single ((hg.of_extends hext₅).leads hi rfl hwithin hb)
    have hthen := hleads thenTo (by simp)
    have helse := hleads elseTo (by simp)
    have hmerge : Relation.ReflTransGen g.Leads st.current merge :=
      (hthen.trans hyes'.finish).tail (hg₇'.leads hi₁ rfl hwithin₁ (List.mem_singleton_self _))
    have hopen := ho₃.spans (g := g) (by simp [hthen, helse, hmerge])
    have hinside := hopen.turn (fun hd => hw₄.blocks h₃.listing (hb₅ hd)) hthen
    rw [hc₉]
    exact (((hinside.trans hyes').turn hb₇ helse).trans hno').turn hb₉ hmerge

lemma Stands.loop (h : Stands c arity (insert st.current opened) st f l)
    (hcur : st.current ∉ opened) {cond : Expr} (hcond : cond.LinkedTest c.proc)
    {body : List Stmt} (hbody : Buildable c arity body) (pos : Position) :
    Yields (c.stmt (.loop pos cond body)) st fun _ =>
      Ran c arity opened st f l [.loop pos cond body] := by
  rw [Scope.stmt]
  refine (OpensBlocks.refl h hcur).newBlock.bind fun head st₁ ⟨f₁, ho₁⟩ => ?_
  refine ho₁.newBlock.bind fun inside st₂ ⟨f₂, ho₂⟩ => ?_
  refine ho₂.newBlock.bind fun merge st₃ ⟨f₃, ho₃⟩ => ?_
  have h₃ : Stands c arity (insert st₃.current (insert head (insert inside (insert merge opened))))
      st₃ f₃ l := ho₃.stands
  have hout₃ : st₃.current ∉ insert head (insert inside (insert merge opened)) := ho₃.out
  obtain ⟨⟨hHI, hHM⟩, hIM⟩ : (head ≠ inside ∧ head ≠ merge) ∧ inside ≠ merge := by
    simpa using ho₃.nodup
  obtain ⟨hHo, hIo, hMo⟩ : head ∉ opened ∧ inside ∉ opened ∧ merge ∉ opened := by
    simpa using ho₃.fresh
  have hempty : ∀ b ∈ [head, inside, merge], f₃.listing? b = some [] := ho₃.empty
  refine (h₃.jump hout₃ pos (admits_branch (by simp [hempty])) rfl (Set.mem_insert _ _)
    (hempty head (by simp))).bind
    fun _ _ henter => henter.bind fun _ st₄ ⟨f₄, i, h₄, hg₄, hc₄, hi, hwithin, hs₄, hb₄⟩ => ?_
  rw [← hc₄] at h₄
  have hout₄ : st₄.current ∉ insert inside (insert merge opened) := by
    simp [hc₄, hHI, hHM, hHo]
  refine (h₄.condition hcond).bind fun t st₅ ⟨f₅, ids, hw₅, ho₅, ht⟩ => ?_
  have h₅ := h₄.wrote hw₅ ho₅
  rw [← hw₅.current] at h₅ hout₄
  have hsame₅ : ∀ b ∈ insert inside (insert merge opened), f₅.listing? b = f₄.listing? b :=
    fun b hb => hw₅.other b fun h' => hout₄ (by rw [hw₅.current, ← h']; exact hb)
  have hempty₅ : ∀ b ∈ [inside, merge], f₅.listing? b = some [] := by
    intro b hb
    rcases List.mem_pair.mp hb with rfl | rfl
    · rw [hsame₅ _ (by simp), hs₄ _ (by simp), hempty _ (by simp)]
    · rw [hsame₅ _ (by simp), hs₄ _ (by simp), hempty _ (by simp)]
  have hfits : Admits arity f₅ ([] ++ ids) (.branchIf .positive t inside merge) :=
    admits_branchIf ht (by simp [hempty₅]) (by simp [hempty₅])
  refine (h₅.jump hout₄ pos hfits rfl (Set.mem_insert _ _) (hempty₅ _ (by simp))).bind
    fun _ _ henter => henter.bind fun _ st₆ ⟨f₆, i₁, h₆, hg₆, hc₆, hi₁, hwithin₁, hs₆, hb₆⟩ => ?_
  rw [← hc₆] at h₆
  refine (hbody h₆ (by simp [hc₆, hIM, hIo])).bind
    fun _ st₇ ⟨f₇, l₇, h₇, hcur₇, hg₇, hs₇, hfl₇, hsp₇⟩ => ?_
  have hempty₇ : f₇.listing? merge = some [] := by
    rw [hs₇ merge (by simp), hs₆ merge (by simp), hempty₅ merge (by simp)]
  have hhead : (f₇.listing? head).isSome := by
    obtain ⟨rest, hrest⟩ := (hwithin₁.mono hg₇.ext)
    rw [hw₅.current, hc₄] at hrest
    rw [hrest]
    rfl
  refine (h₇.jump hcur₇ pos (admits_branch hhead) rfl (Set.mem_insert _ _) hempty₇).bind
    fun _ _ henter => henter.mono fun _ st₈ ⟨f₈, i₂, h₈, hg₈, hc₈, hi₂, hwithin₂, hs₈, hb₈⟩ => ?_
  have hext₆ : Extends f₆ f₈ := hg₇.ext.trans hg₈.ext
  have hext₅ : Extends f₅ f₈ := hg₆.ext.trans hext₆
  have hext₄ : Extends f₄ f₈ := hw₅.ext.trans hext₅
  rw [ho₃.current] at hwithin
  rw [hw₅.current, hc₄] at hwithin₁
  rw [hc₆] at hfl₇
  refine ⟨f₈, [], by rw [hc₈]; exact h₈, by rw [hc₈]; exact hMo, ?_, fun b hb => ?_, ?_,
    fun {g} hg => ?_⟩
  · exact ho₃.grows.trans (hg₄.trans (hw₅.toGrows.trans (hg₆.trans (hg₇.trans hg₈))))
  · rw [hs₈ b (by simp [hb]), hs₇ b (by simp [hb]), hs₆ b (by simp [hb]), hsame₅ b (by simp [hb]),
      hs₄ b (by simp [hb]), ho₃.same b hb]
  · rw [hc₈]
    exact .loop (hext₄.live hi) (hwithin.mono hext₄) (ht.mono hext₅) (hext₆.live hi₁)
      (hwithin₁.mono hext₆) (hfl₇.mono hg₈.ext) hi₂ hwithin₂ .nil
  · have hbody' := hsp₇ (hg.of_extends hg₈.ext)
    rw [hc₆] at hbody'
    have hhead' : Relation.ReflTransGen g.Leads st.current head :=
      .single ((hg.of_extends hext₄).leads hi rfl hwithin (List.mem_singleton_self _))
    have hleads : ∀ b ∈ [inside, merge], Relation.ReflTransGen g.Leads st.current b :=
      fun b hb => hhead'.tail ((hg.of_extends hext₆).leads hi₁ rfl hwithin₁ hb)
    have hinside := hleads inside (by simp)
    have hmerge := hleads merge (by simp)
    have hopen := ho₃.spans (g := g) (by simp [hhead', hinside, hmerge])
    have hround := (hopen.turn hb₄ hhead').turn (fun hd => hw₅.blocks h₄.listing (hb₆ hd)) hinside
    rw [hc₈]
    exact (hround.trans hbody').turn hb₈ hmerge

lemma Stands.untilLoop (h : Stands c arity (insert st.current opened) st f l)
    (hcur : st.current ∉ opened) {cond : Expr} (hcond : cond.LinkedTest c.proc)
    {body : List Stmt} (hbody : Buildable c arity body) (pos : Position) :
    Yields (c.stmt (.untilLoop pos body cond)) st fun _ =>
      Ran c arity opened st f l [.untilLoop pos body cond] := by
  rw [Scope.stmt]
  refine (OpensBlocks.refl h hcur).newBlock.bind fun inside st₁ ⟨f₁, ho₁⟩ => ?_
  refine ho₁.newBlock.bind fun merge st₂ ⟨f₂, ho₂⟩ => ?_
  have h₂ : Stands c arity (insert st₂.current (insert inside (insert merge opened))) st₂ f₂ l :=
    ho₂.stands
  have hout₂ : st₂.current ∉ insert inside (insert merge opened) := ho₂.out
  have hIM : inside ≠ merge := by simpa using ho₂.nodup
  obtain ⟨hIo, hMo⟩ : inside ∉ opened ∧ merge ∉ opened := by simpa using ho₂.fresh
  have hempty : f₂.listing? inside = some [] := ho₂.empty inside (by simp)
  refine (h₂.jump hout₂ pos (admits_branch (by simp [hempty])) rfl (Set.mem_insert _ _) hempty).bind
    fun _ _ henter => henter.bind fun _ st₃ ⟨f₃, i, h₃, hg₃, hc₃, hi, hwithin, hs₃, hb₃⟩ => ?_
  rw [← hc₃] at h₃
  refine (hbody h₃ (by simp [hc₃, hIM, hIo])).bind
    fun _ st₄ ⟨f₄, l₄, h₄, hcur₄, hg₄, hs₄, hfl₄, hsp₄⟩ => ?_
  refine (h₄.condition hcond).bind fun t st₅ ⟨f₅, ids, hw₅, ho₅, ht⟩ => ?_
  have h₅ := h₄.wrote hw₅ ho₅
  have hcur₅ := hcur₄
  rw [← hw₅.current] at h₅ hcur₅
  have hsame₅ : ∀ b ∈ insert merge opened, f₅.listing? b = f₄.listing? b :=
    fun b hb => hw₅.other b fun h' => hcur₄ (h' ▸ hb)
  have hempty₅ : f₅.listing? merge = some [] := by
    rw [hsame₅ merge (by simp), hs₄ merge (by simp), hs₃ merge (by simp),
      ho₂.empty merge (by simp)]
  have hinside : (f₅.listing? inside).isSome := by
    obtain ⟨m, hm⟩ := hg₄.ext.code (hc₃ ▸ h₃.listing)
    obtain ⟨m', hm'⟩ := hw₅.ext.code hm
    rw [hm']
    rfl
  have hfits : Admits arity f₅ (l₄ ++ ids) (.branchIf .positive t merge inside) :=
    admits_branchIf ht (by simp [hempty₅]) hinside
  refine (h₅.jump hcur₅ pos hfits rfl (Set.mem_insert _ _) hempty₅).bind
    fun _ _ henter => henter.mono fun _ st₆ ⟨f₆, i₁, h₆, hg₆, hc₆, hi₁, hwithin₁, hs₆, hb₆⟩ => ?_
  have hext₄ : Extends f₄ f₆ := hw₅.ext.trans hg₆.ext
  have hext₃ : Extends f₃ f₆ := hg₄.ext.trans hext₄
  rw [ho₂.current] at hwithin
  rw [hw₅.current, List.append_assoc] at hwithin₁
  rw [hc₃] at hfl₄
  refine ⟨f₆, [], by rw [hc₆]; exact h₆, by rw [hc₆]; exact hMo, ?_, fun b hb => ?_, ?_,
    fun {g} hg => ?_⟩
  · exact ho₂.grows.trans (hg₃.trans (hg₄.trans (hw₅.toGrows.trans hg₆)))
  · rw [hs₆ b (by simp [hb]), hsame₅ b (by simp [hb]), hs₄ b (by simp [hb]), hs₃ b (by simp [hb]),
      ho₂.same b hb]
  · rw [hc₆]
    exact .untilLoop (hext₃.live hi) (hwithin.mono hext₃) (hfl₄.mono hext₄) (ht.mono hg₆.ext) hi₁
      hwithin₁ .nil
  · have hbody' := hsp₄ (hg.of_extends hext₄)
    rw [hc₃] at hbody'
    have hinside' : Relation.ReflTransGen g.Leads st.current inside :=
      .single ((hg.of_extends hext₃).leads hi rfl hwithin (List.mem_singleton_self _))
    rw [← List.append_assoc] at hwithin₁
    have hmerge : Relation.ReflTransGen g.Leads st.current merge :=
      (hinside'.trans hbody'.finish).tail (hg.leads hi₁ rfl hwithin₁ (List.mem_cons_self ..))
    have hround := (ho₂.spans (g := g) (by simp [hinside', hmerge])).turn hb₃ hinside'
    rw [hc₆]
    exact (hround.trans hbody').turn (fun hd => hw₅.blocks h₄.listing (hb₆ hd)) hmerge

/-- Linked statements can be built. -/
theorem Linked.buildable {ss : List Stmt} (hss : Linked arity c.proc ss) : Buildable c arity ss := by
  have hcons : ∀ {s : Stmt} {rest : List Stmt},
      (∀ {opened : Set BlockId} {st : Builder} {f : Flow.Func} {l : List Id},
        Stands c arity (insert st.current opened) st f l → st.current ∉ opened →
        Yields (c.stmt s) st fun _ => Ran c arity opened st f l [s]) →
      Buildable c arity rest → Buildable c arity (s :: rest) := by
    intro s rest hs hrest opened st f l h hcur
    rw [Scope.stmts]
    refine (hs h hcur).bind fun _ st₁ ⟨f₁, l₁, h₁, hcur₁, hg₁, hsame₁, hfl₁, hsp₁⟩ => ?_
    exact (hrest h₁ hcur₁).mono fun _ st₂ h₂ => Ran.append hg₁ hsame₁ hfl₁ hsp₁ h₂
  induction hss with
  | nil =>
    intro opened st f l h hcur
    rw [Scope.stmts]
    exact Yields.pure ⟨f, l, h, hcur, ⟨h.func, Extends.refl f, Others.refl _ _⟩, fun _ _ => rfl,
      .nil, fun {g} _ => Spans.refl g f st.current⟩
  | assign hdst hsrc _ ih => exact hcons (fun h hcur => h.assign hcur hdst hsrc _) ih
  | read hdst _ ih => exact hcons (fun h hcur => h.read hcur hdst _) ih
  | write hsrc _ ih => exact hcons (fun h hcur => h.write hcur hsrc _) ih
  | call hk hargs _ ih => exact hcons (fun h hcur => h.call hcur hk hargs _) ih
  | choose hcond _ _ _ ihyes ihno ih =>
    exact hcons (fun h hcur => h.choose hcur hcond ihyes ihno _) ih
  | loop hcond _ _ ihbody ih => exact hcons (fun h hcur => h.loop hcur hcond ihbody _) ih
  | untilLoop hcond _ _ ihbody ih => exact hcons (fun h hcur => h.untilLoop hcur hcond ihbody _) ih

end Statements

/-- Consecutive slots. -/
def slotRange (start n : Nat) : List Id := (List.range' start n).map fun i : Nat => (i : Int)

/-- The slots of variables. -/
def varSlots (vs : List (Position × Flow.Variable)) : Array Flow.Slot :=
  (vs.map fun p => { payload := .var p.2, loc := p.1 : Flow.Slot }).toArray

lemma slotRange_succ (start n : Nat) :
    slotRange start (n + 1) = (start : Int) :: slotRange (start + 1) n := by
  simp [slotRange, List.range'_succ]

lemma varSlots_cons (p : Position × Flow.Variable) (vs : List (Position × Flow.Variable)) :
    varSlots (p :: vs) = #[{ payload := .var p.2, loc := p.1 : Flow.Slot }] ++ varSlots vs := by
  simp [varSlots]

lemma foldl_newVar_params {vs : List (Position × Flow.Variable)}
    (h : ∀ p ∈ vs, p.2.kind = .param) (f : Flow.Func) :
    vs.foldl (fun f (pos, v) => (f.newVar pos v).2) f =
      { f with
        slots := f.slots ++ varSlots vs
        params := f.params ++ slotRange f.slots.size vs.length } := by
  induction vs generalizing f with
  | nil => simp [varSlots, slotRange]
  | cons p vs ih =>
    have hnew : (f.newVar p.1 p.2).2 =
        { f with
          slots := f.slots.push { payload := .var p.2, loc := p.1 }
          params := f.params ++ [(f.slots.size : Int)] } := by
      simp [Flow.Func.newVar, h p (by simp)]
    rw [List.foldl_cons]
    change vs.foldl _ (f.newVar p.1 p.2).2 = _
    rw [hnew, ih fun q hq => h q (by simp [hq])]
    simp [slotRange_succ, varSlots_cons]

lemma foldl_newVar_locals {vs : List (Position × Flow.Variable)}
    (h : ∀ p ∈ vs, p.2.kind = .localVar) (f : Flow.Func) :
    vs.foldl (fun f (pos, v) => (f.newVar pos v).2) f =
      { f with
        slots := f.slots ++ varSlots vs
        locals := f.locals ++ slotRange f.slots.size vs.length } := by
  induction vs generalizing f with
  | nil => simp [varSlots, slotRange]
  | cons p vs ih =>
    have hnew : (f.newVar p.1 p.2).2 =
        { f with
          slots := f.slots.push { payload := .var p.2, loc := p.1 }
          locals := f.locals ++ [(f.slots.size : Int)] } := by
      simp [Flow.Func.newVar, h p (by simp)]
    rw [List.foldl_cons]
    change vs.foldl _ (f.newVar p.1 p.2).2 = _
    rw [hnew, ih fun q hq => h q (by simp [hq])]
    simp [slotRange_succ, varSlots_cons]

section Declare

variable {d : Proc} {f : Flow.Func}

lemma declare_eq (d : Proc) (hslots : f.slots = #[]) (hblocks : f.blocks = #[])
    (hparams : f.params = []) (hlocals : f.locals = []) :
    d.declare f =
      { f with
        slots := varSlots d.vars
        params := slotRange 0 d.params.length
        locals := slotRange d.params.length d.locals.length
        blocks := #[#[]]
        entry := 0 } := by
  unfold Proc.declare Proc.vars
  rw [List.foldl_append, foldl_newVar_locals (by simp), foldl_newVar_params (by simp)]
  simp [Flow.Func.newBlock, hslots, hblocks, hparams, hlocals, varSlots]

lemma varSlots_getElem? (vs : List (Position × Flow.Variable)) (n : Nat) :
    (varSlots vs)[n]? = vs[n]?.map fun p => { payload := .var p.2, loc := p.1 : Flow.Slot } := by
  simp [varSlots]

lemma varOf?_varSlots (hslots : f.slots = varSlots d.vars) (i : Id) :
    f.varOf? i = if 0 ≤ i then d.vars[i.toNat]?.map (·.2) else none := by
  rw [Flow.Func.varOf?_eq, Flow.Func.at?_eq, hslots]
  split
  · rw [varSlots_getElem?]
    cases d.vars[i.toNat]? <;> simp [Payload.asVar]
  · rfl

lemma live?_varSlots (hslots : f.slots = varSlots d.vars) {i : Id} {x : Payload}
    (h : f.live? i = some x) : ∃ v, x = .var v := by
  obtain ⟨s, hs, -, rfl⟩ := Flow.Func.live?_eq_some.mp h
  rw [Flow.Func.at?_eq, hslots] at hs
  split at hs
  · rw [varSlots_getElem?, Option.map_eq_some_iff] at hs
    obtain ⟨p, -, rfl⟩ := hs
    exact ⟨_, rfl⟩
  · cases hs

lemma live?_of_varSlots (hslots : f.slots = varSlots d.vars) {i : Id} (h : (f.varOf? i).isSome) :
    (f.live? i).isSome := by
  rw [varOf?_varSlots hslots] at h
  rw [Flow.Func.live?, Flow.Func.at?_eq, hslots]
  split at h
  · rw [varSlots_getElem?]
    obtain ⟨p, hp⟩ := Option.isSome_iff_exists.mp h
    obtain ⟨q, hq, -⟩ := Option.map_eq_some_iff.mp hp
    simp [*]
  · cases h

lemma mem_slotRange {start n : Nat} {i : Id} :
    i ∈ slotRange start n ↔ ∃ k : Nat, i = k ∧ start ≤ k ∧ k < start + n := by
  simp only [slotRange, List.mem_map, List.mem_range'_1]
  constructor
  · rintro ⟨k, hk, rfl⟩
    exact ⟨k, rfl, hk⟩
  · rintro ⟨k, rfl, hk⟩
    exact ⟨k, hk, rfl⟩

lemma slotOf_ok {c : Scope} {ref : Ref} (h : c.proc.Declares ref) :
    ∃ v, c.slotOf ref = .ok v ∧
      v ∈ slotRange c.proc.params.length c.proc.locals.length ++
        slotRange 0 c.proc.params.length := by
  cases ref with
  | param i =>
    refine ⟨(i : Int), if_pos h, List.mem_append_right _ (mem_slotRange.mpr ⟨i, rfl, ?_⟩)⟩
    have : i < c.proc.params.length := h
    omega
  | localVar i =>
    refine ⟨((c.proc.params.length + i : Nat) : Int), if_pos h,
      List.mem_append_left _ (mem_slotRange.mpr ⟨_, rfl, ?_⟩)⟩
    have : i < c.proc.locals.length := h
    omega
  | _ => exact h.elim

lemma length_vars (d : Proc) : d.vars.length = d.params.length + d.locals.length := by
  simp [Proc.vars]

lemma only_entry (hblocks : f.blocks = #[#[]]) {b : BlockId} (hb : (f.listing? b).isSome) :
    b = 0 := by
  obtain ⟨l, hl⟩ := Option.isSome_iff_exists.mp hb
  obtain ⟨hb, hlt⟩ := Flow.Func.bounds_of_listing? hl
  rw [hblocks] at hlt
  exact le_antisymm (Int.lt_add_one_iff.mp (by simpa using hlt)) hb

lemma declare_orderly (arity : Nat → Nat → Prop) (hslots : f.slots = varSlots d.vars)
    (hparams : f.params = slotRange 0 d.params.length)
    (hlocals : f.locals = slotRange d.params.length d.locals.length) (hblocks : f.blocks = #[#[]])
    (hentry : f.entry = 0) (hsound : f.Sound) : f.Orderly arity {0} := by
  have hlisting : f.listing? 0 = some [] := by
    rw [Flow.Func.listing?_eq, hblocks]
    rfl
  have honly : ∀ {b l}, f.listing? b = some l → b = 0 ∧ l = [] := by
    intro b l hl
    obtain rfl := only_entry hblocks (by rw [hl]; rfl)
    exact ⟨rfl, (Option.some.inj (hlisting.symm.trans hl)).symm⟩
  have hframed : f.Framed := by
    intro v hv
    rw [varOf?_varSlots hslots]
    rw [hparams, hlocals, List.mem_append, mem_slotRange, mem_slotRange] at hv
    have hlt : ∃ k : Nat, v = k ∧ k < d.vars.length := by
      rw [length_vars]
      rcases hv with ⟨k, rfl, hk⟩ | ⟨k, rfl, hk⟩
      · exact ⟨k, rfl, by omega⟩
      · exact ⟨k, rfl, by omega⟩
    obtain ⟨k, rfl, hk⟩ := hlt
    simp [hk]
  refine ⟨hsound, hframed, ?_, ?_, ?_, ?_, ?_, ?_, ?_, ?_, ?_, ?_, fun v hv => ?_⟩
  · rw [hentry, hlisting]
    rfl
  · rintro b rfl
    exact ⟨[], hlisting, by simp⟩
  · intro b l hl hb
    exact absurd (honly hl).1 hb
  · intro u x hu t ht
    obtain ⟨v, rfl⟩ := live?_varSlots hslots hu
    simp [Payload.targets] at ht
  · intro u x hu
    obtain ⟨v, rfl⟩ := live?_varSlots hslots hu
    trivial
  · intro u v hu
    obtain ⟨w, hw⟩ := live?_varSlots hslots hu
    cases hw
  · intro u x hu v hv
    obtain ⟨w, rfl⟩ := live?_varSlots hslots hu
    simp [Flow.Func.named] at hv
  · intro u x e y hu he
    obtain ⟨w, rfl⟩ := live?_varSlots hslots hu
    simp [Flow.Func.needs] at he
  · intro b pre u post x hl
    have := (honly hl).2
    simp at this
  · intro u x hu hx
    obtain ⟨w, rfl⟩ := live?_varSlots hslots hu
    cases hx
  · exact live?_of_varSlots hslots (hframed v hv)

lemma declare_sound (d : Proc) (hslots : f.slots = #[]) (hblocks : f.blocks = #[]) :
    (d.declare f).Sound := by
  have hvars : ∀ (vs : List (Position × Flow.Variable)) (g : Flow.Func), g.Sound →
      (vs.foldl (fun f (pos, v) => (f.newVar pos v).2) g).Sound := by
    intro vs
    induction vs with
    | nil => exact fun g hg => hg
    | cons p vs ih => exact fun g hg => ih _ (hg.newVar p.1 p.2)
  have hfinal := (hvars d.vars f (Flow.Func.Sound.empty f hslots hblocks)).newBlock
  exact hfinal.congr (fun _ => rfl) fun _ => rfl

/-- The function of procedure number `k`, whose declaration is `d`. Its calls are as `arity` says. -/
structure BuiltWith (arity : Nat → Nat → Prop) (k : Nat) (d : Proc) (f : Flow.Func) : Prop where
  orderly : f.Orderly arity ∅
  name : f.name = d.name
  isMain : f.isMain = d.isMain
  params : f.params = slotRange 0 d.params.length
  locals : f.locals = slotRange d.params.length d.locals.length
  vars : ∀ i, f.varOf? i = if 0 ≤ i then d.vars[i.toNat]?.map (·.2) else none
  body : ∃ b l i, Flows ⟨k, d⟩ f d.body f.entry [] b l ∧
    f.live? i = some (if d.isMain then .stop else .ret) ∧ Within f b (l ++ [i])
  callees : ∀ {u} {j : Nat} {args}, f.live? u = some (.call j args) → ∃ n, (j, n) ∈ callsIn d.body
  reached : ∀ {b}, (f.listing? b).isSome → f.Reaches b

/-- A function whose calls pass as many arguments as the procedures of the file take. -/
abbrev Built (file : File) (k : Nat) (d : Proc) (f : Flow.Func) : Prop :=
  BuiltWith (file.arity k) k d f

lemma BuiltWith.callers {arity : Nat → Nat → Prop} {k : Nat} (h : BuiltWith arity k d f)
    (sites : List Flow.CallSite) : BuiltWith arity k d { f with callers := sites } := by
  obtain ⟨b, l, i, hflows, hi, hwithin⟩ := h.body
  exact ⟨h.orderly.callers sites, h.name, h.isMain, h.params, h.locals, h.vars,
    ⟨b, l, i, hflows.mono (Extends.callers f sites), hi, hwithin⟩, h.callees, h.reached⟩

end Declare

section Files

variable {file : File} {k : Nat} {d : Proc} {p : Flow.Program} {f : Flow.Func}

lemma admits_end {arity : Nat → Nat → Prop} {l : List Id} {isMain : Bool} (h : f.isMain = isMain) :
    Admits arity f l (if isMain then .stop else .ret) := by
  subst h
  cases hm : f.isMain
  · exact ⟨by simp, by simp, hm, by simp [Payload.targets], by simp [Flow.Func.named],
      by simp [Flow.Func.needs], by simp [Flow.Func.needs]⟩
  · exact ⟨by simp, by simp, trivial, by simp [Payload.targets], by simp [Flow.Func.named],
      by simp [Flow.Func.needs], by simp [Flow.Func.needs]⟩

/-- A function that nothing was put into yet. -/
structure Blank (d : Proc) (f : Flow.Func) : Prop where
  slots : f.slots = #[]
  blocks : f.blocks = #[]
  params : f.params = []
  locals : f.locals = []
  name : f.name = d.name
  isMain : f.isMain = d.isMain

lemma Linked.build {arity : Nat → Nat → Prop} (hbody : Linked arity d d.body)
    (hcallees : ∀ {n m}, arity n m → n < p.funcs.size) (hf : p.funcs[k]? = some f)
    (hblank : Blank d f) :
    ∃ p' f', Scope.build ⟨k, d⟩ p = .ok p' ∧ p'.funcs[k]? = some f' ∧ BuiltWith arity k d f' ∧
      Others k p p' := by
  obtain ⟨hslots, hblocks, hparams, hlocals, hname, hmain⟩ := hblank
  have heq := declare_eq d hslots hblocks hparams hlocals
  set g := d.declare f with hg
  have hgslots : g.slots = varSlots d.vars := by rw [heq]
  have hgparams : g.params = slotRange 0 d.params.length := by rw [heq]
  have hglocals : g.locals = slotRange d.params.length d.locals.length := by rw [heq]
  have hgblocks : g.blocks = #[#[]] := by rw [heq]
  have hgentry : g.entry = 0 := by rw [heq]
  have hgname : g.name = d.name := by rw [heq]; exact hname
  have hgmain : g.isMain = d.isMain := by rw [heq]; exact hmain
  set calls : Nat → Nat → Prop := fun n m => arity n m ∧ (n, m) ∈ callsIn d.body with hcalls
  have hlinked : Linked calls d d.body := hbody.mono fun n m hmem hn => ⟨hn, hmem⟩
  have ho := declare_orderly calls hgslots hgparams hglocals hgblocks hgentry
    (declare_sound d hslots hblocks)
  set q : Flow.Program := { funcs := p.funcs.setIfInBounds k g } with hq
  have hself : q.funcs[k]? = some g := getElem?_set_self hf g
  have hsize : q.funcs.size = p.funcs.size := by simp [hq]
  have hupdate : p.update k (fun f => .ok (d.declare f)) = .ok q := update_ok hf rfl
  have hfunc : q.func (k : Int) = .ok g := lookup_natCast.mpr hself
  let st : Builder := { program := q, current := g.entry }
  have hstands : Stands ⟨k, d⟩ calls (insert st.current ∅) st g [] := by
    refine ⟨hself, ?_, by simp, ?_, hgmain, fun hd => ?_, fun h => ?_⟩
    · have : insert st.current (∅ : Set BlockId) = {0} := by simp [st, hgentry]
      rw [this]
      exact ho
    · obtain ⟨l, hl, -⟩ := ho.opens 0 rfl
      change g.listing? g.entry = _
      rw [hgentry, Flow.Func.listing?_eq, hgblocks]
      rfl
    · rw [hglocals, hgparams]
      exact slotOf_ok hd
    · rw [hsize]
      exact hcallees h.1
  obtain ⟨_, st₁, hrun₁, f₁, l₁, h₁, -, hgrows₁, -, hflows₁, hspans₁⟩ :=
    hlinked.buildable hstands (by simp)
  obtain ⟨i, st₂, hrun₂, f₂, hw₂, hi, ho₂⟩ := h₁.emit d.pos (admits_end h₁.isMain)
  have hext := hgrows₁.ext.trans hw₂.ext
  have hterm : (if d.isMain then Payload.stop else Payload.ret).isTerminal = true := by
    cases d.isMain <;> rfl
  have ho' : f₂.Orderly calls ∅ := by
    rw [hterm] at ho₂
    simpa using ho₂
  have hwhole : Completes f₁ f₂ := ⟨hw₂.ext, fun hl => ho'.closes hl (Set.notMem_empty _)⟩
  refine ⟨st₂.program, f₂, ?_, hw₂.func,
    ⟨ho'.mono fun n m h => h.1, ?_, ?_, ?_, ?_, fun j => ?_,
      ⟨st₁.current, l₁, i, ?_, hi, ?_⟩, fun {u j args} hu => ?_, fun {b} hb => ?_⟩,
    (others_set k p g).trans (hgrows₁.others.trans hw₂.others)⟩
  · rw [Scope.build]
    change (p.update k (fun f => .ok (d.declare f)) >>= _) = _
    rw [hupdate, ok_bind, hfunc, ok_bind]
    change ((Scope.stmts ⟨k, d⟩ d.body >>= fun _ => discard _ : Build Unit).run st >>= _) = _
    rw [StateT.run_bind, hrun₁, ok_bind]
    change ((Scope.emit ⟨k, d⟩ d.pos _ >>= fun _ => pure () : Build Unit).run st₁ >>= _) = _
    rw [StateT.run_bind, hrun₂]
    rfl
  · rw [hext.head.name, hgname]
  · rw [hext.head.isMain, hgmain]
  · rw [hext.head.params, hgparams]
  · rw [hext.head.locals, hglocals]
  · rw [hext.vars, varOf?_varSlots hgslots]
  · rw [hext.head.entry]
    exact hflows₁.mono hw₂.ext
  · exact ⟨[], by rw [hw₂.listing l₁ h₁.listing, List.append_nil]⟩
  · obtain ⟨n, hn, hcall⟩ := ho'.suits hu
    obtain rfl : j = n := by exact_mod_cast hn
    exact ⟨_, hcall.2⟩
  · rw [Flow.Func.Reaches, hext.head.entry]
    rcases (hspans₁ hwhole).blocks (hw₂.blocks h₁.listing hb) with hold | hreach
    · rw [hgentry, only_entry hgblocks hold]
    · exact hreach

/-- The first `n` procedures are built. -/
structure BuiltTo (arity : Nat → Nat → Nat → Prop) (file : File) (n : Nat) (p : Flow.Program) :
    Prop where
  size : p.funcs.size = file.decls.length
  built : ∀ {k d}, k < n → file.decls[k]? = some d →
    ∃ f, p.funcs[k]? = some f ∧ BuiltWith (arity k) k d f
  blank : ∀ {k d}, n ≤ k → file.decls[k]? = some d → ∃ f, p.funcs[k]? = some f ∧ Blank d f

section Linked

variable {arity : Nat → Nat → Nat → Prop}
  (hbodies : ∀ {k d}, file.decls[k]? = some d → Linked (arity k) d d.body)
  (hcallees : ∀ {k n m}, arity k n m → n < file.decls.length)

include hbodies hcallees

lemma BuiltTo.next (h : BuiltTo arity file k p) (hd : file.decls[k]? = some d) :
    ∃ p', Scope.build ⟨k, d⟩ p = .ok p' ∧ BuiltTo arity file (k + 1) p' := by
  obtain ⟨f, hf, hblank⟩ := h.blank le_rfl hd
  obtain ⟨p', f', hp', hf', hbuilt, hothers⟩ :=
    (hbodies hd).build (fun hn => by rw [h.size]; exact hcallees hn) hf hblank
  refine ⟨p', hp', hothers.size.trans h.size, fun {j e} hj he => ?_, fun {j e} hj he => ?_⟩
  · rcases Nat.lt_succ_iff_lt_or_eq.mp hj with hj | rfl
    · obtain ⟨g, hg, hgb⟩ := h.built hj he
      obtain ⟨sites, hsites⟩ := hothers.same (by omega) hg
      exact ⟨_, hsites, hgb.callers sites⟩
    · obtain rfl : d = e := Option.some.inj (hd.symm.trans he)
      exact ⟨f', hf', hbuilt⟩
  · obtain ⟨g, hg, hgb⟩ := h.blank (by omega) he
    obtain ⟨sites, hsites⟩ := hothers.same (by omega) hg
    exact ⟨_, hsites, hgb.slots, hgb.blocks, hgb.params, hgb.locals, hgb.name,
      hgb.isMain⟩

lemma BuiltTo.rest (rest : List Proc) :
    ∀ {k p}, BuiltTo arity file k p → file.decls.drop k = rest →
      ∃ p', (rest.zipIdx k).foldlM (fun p (d, k) => Scope.build ⟨k, d⟩ p) p = .ok p' ∧
        BuiltTo arity file file.decls.length p' := by
  induction rest with
  | nil =>
    intro k p h hrest
    have hk : file.decls.length ≤ k := List.drop_eq_nil_iff.mp hrest
    refine ⟨p, rfl, h.size, fun hj he => h.built (by omega) he, fun hj he => ?_⟩
    rw [List.getElem?_eq_none hj] at he
    cases he
  | cons d rest ih =>
    intro k p h hrest
    have hd : file.decls[k]? = some d := by
      rw [← List.head?_drop, hrest]
      rfl
    obtain ⟨p₁, hp₁, h₁⟩ := h.next hbodies hcallees hd
    obtain ⟨p₂, hp₂, h₂⟩ := ih h₁ (by rw [← List.tail_drop, hrest]; rfl)
    refine ⟨p₂, ?_, h₂⟩
    rw [List.zipIdx_cons, List.foldlM_cons]
    change (Scope.build ⟨k, d⟩ p >>= _) = _
    rw [hp₁]
    exact hp₂

/-- Programs of linked procedures can be built. -/
theorem build_of_linked (hmain : file.decls.countP (·.isMain) = 1) :
    ∃ p, file.build = .ok (.ok p) ∧ p.funcs.size = file.decls.length ∧
      ∀ {k d}, file.decls[k]? = some d →
        ∃ f, p.funcs[k]? = some f ∧ BuiltWith (arity k) k d f := by
  have hstart : BuiltTo arity file 0 { funcs := (file.decls.map fun d =>
      { name := d.name, isMain := d.isMain, loc := d.pos : Flow.Func }).toArray } := by
    refine ⟨by simp, fun hk => absurd hk (Nat.not_lt_zero _), fun {k d} _ hd => ?_⟩
    exact ⟨{ name := d.name, isMain := d.isMain, loc := d.pos }, by simp [hd], rfl, rfl, rfl, rfl, rfl,
      rfl⟩
  obtain ⟨p, hp, hbuilt⟩ := hstart.rest hbodies hcallees file.decls rfl
  refine ⟨p, ?_, hbuilt.size, fun {k d} hd => ?_⟩
  · unfold File.build
    rw [hmain, if_neg (by simp)]
    change (List.foldlM _ _ _ >>= _) = _
    rw [hp]
    rfl
  · exact hbuilt.built (List.getElem?_eq_some_iff.mp hd).1 hd

end Linked

/-- Sensible programs can be built. -/
theorem File.Sensible.build (hfile : file.Sensible) :
    ∃ p, file.build = .ok (.ok p) ∧ p.funcs.size = file.decls.length ∧
      ∀ {k d}, file.decls[k]? = some d → ∃ f, p.funcs[k]? = some f ∧ Built file k d f := by
  refine build_of_linked (fun hd => hfile.bodies hd) (fun {k n m} hn => ?_) hfile.main
  obtain ⟨e, he, -⟩ := Option.map_eq_some_iff.mp hn.2
  exact (List.getElem?_eq_some_iff.mp he).1

end Files

end Accumulator.Tree
