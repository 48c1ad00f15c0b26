import Mathlib
import Accumulator.Proofs.Linked
import Accumulator.Proofs.TreeCode

/-!
# Building succeeds

Building the function of a linked procedure does not break. It gives an orderly function whose code
follows the tree of the procedure, and changes nothing of the other functions but the lists of their
callers.
-/

namespace Accumulator.Tree

open Accumulator.Flow (Id BlockId Payload lookup lookup_eq_ok lookup_natCast)
open Accumulator.Flow.Func (Extends Orderly Admits)

/-- A step of building succeeds, with a result and a state that fulfil `Q`. -/
def Yields {α : Type} (m : Build α) (st : Builder) (Q : α → Builder → Prop) : Prop :=
  ∃ a st', m.run st = .ok (a, st') ∧ Q a st'

section Yields

variable {α β : Type} {st : Builder} {Q : α → Builder → Prop}

lemma Yields.pure {a : α} (h : Q a st) : Yields (pure a) st Q := ⟨a, st, rfl, h⟩

lemma Yields.bind {m : Build α} {k : α → Build β} {R : β → Builder → Prop} (h : Yields m st Q)
    (hk : ∀ a st', Q a st' → Yields (k a) st' R) : Yields (m >>= k) st R := by
  obtain ⟨a, st', hm, ha⟩ := h
  obtain ⟨b, st'', hb, hR⟩ := hk a st' ha
  refine ⟨b, st'', ?_, hR⟩
  rw [StateT.run_bind, hm]
  exact hb

lemma Yields.mono {m : Build α} {R : α → Builder → Prop} (h : Yields m st Q)
    (hQ : ∀ a st', Q a st' → R a st') : Yields m st R := by
  obtain ⟨a, st', hm, ha⟩ := h
  exact ⟨a, st', hm, hQ a st' ha⟩

lemma Yields.lift {x : Except Fault α} {k : α → Build β} {R : β → Builder → Prop} {a : α}
    (hx : x = .ok a) (h : Yields (k a) st R) : Yields (liftM x >>= k) st R := by
  obtain ⟨b, st', hb, hR⟩ := h
  refine ⟨b, st', ?_, hR⟩
  rw [hx]
  exact hb

lemma Yields.discard {m : Build α} {R : Unit → Builder → Prop} (h : Yields m st Q)
    (hQ : ∀ a st', Q a st' → R () st') : Yields (discard m) st R := by
  obtain ⟨a, st', hm, ha⟩ := h
  refine ⟨(), st', ?_, hQ a st' ha⟩
  change (m.run st >>= fun p => Except.ok ((), p.2)) = _
  rw [hm]
  rfl

end Yields

/-- Two programs that differ in function number `k` and in lists of callers only. -/
structure Others (k : Nat) (p p' : Flow.Program) : Prop where
  size : p'.funcs.size = p.funcs.size
  same : ∀ {j g}, j ≠ k → p.funcs[j]? = some g →
    ∃ callers, p'.funcs[j]? = some { g with callers := callers }

section Programs

variable {k : Nat} {p p' p'' : Flow.Program} {f f' : Flow.Func}

lemma Others.refl (k : Nat) (p : Flow.Program) : Others k p p :=
  ⟨rfl, fun {_ g} _ hg => ⟨g.callers, hg⟩⟩

lemma Others.trans (h : Others k p p') (h' : Others k p' p'') : Others k p p'' := by
  refine ⟨h'.size.trans h.size, fun hj hg => ?_⟩
  obtain ⟨cs, hcs⟩ := h.same hj hg
  obtain ⟨cs', hcs'⟩ := h'.same hj hcs
  exact ⟨cs', hcs'⟩

lemma others_set (k : Nat) (p : Flow.Program) (f : Flow.Func) :
    Others k p { funcs := p.funcs.setIfInBounds k f } := by
  refine ⟨by simp, fun {j g} hj hg => ⟨g.callers, ?_⟩⟩
  rw [Array.getElem?_setIfInBounds_ne hj.symm]
  exact hg

lemma getElem?_set_self (hf : p.funcs[k]? = some f) (f' : Flow.Func) :
    (p.funcs.setIfInBounds k f')[k]? = some f' := by
  obtain ⟨hk, -⟩ := Array.getElem?_eq_some_iff.mp hf
  rw [Array.getElem?_setIfInBounds_self_of_lt hk]

lemma update_ok (hf : p.funcs[k]? = some f) {g : Flow.Func → Except Fault Flow.Func}
    (hg : g f = .ok f') :
    p.update k g = .ok { p with funcs := p.funcs.setIfInBounds k f' } := by
  have hfunc : p.func (k : Int) = .ok f := lookup_natCast.mpr hf
  rw [Flow.Program.update, hfunc, ok_bind, hg]
  rfl

lemma update_eq_ok {n : Int} {g : Flow.Func → Except Fault Flow.Func} :
    p.update n g = .ok p' ↔ ∃ (m : Nat) (f f' : Flow.Func), n = m ∧ p.funcs[m]? = some f ∧
      g f = .ok f' ∧ p' = { funcs := p.funcs.setIfInBounds m f' } := by
  rw [Flow.Program.update, bind_eq_ok]
  constructor
  · rintro ⟨f, hf, h⟩
    obtain ⟨hn, hf⟩ := lookup_eq_ok.mp hf
    obtain ⟨f', hf', h⟩ := bind_eq_ok.mp h
    exact ⟨n.toNat, f, f', (Int.toNat_of_nonneg hn).symm, hf, hf', (Except.ok.inj h).symm⟩
  · rintro ⟨m, f, f', rfl, hf, hf', rfl⟩
    exact ⟨f, lookup_natCast.mpr hf, by rw [hf']; rfl⟩

/-- A function with some more callers. -/
def noting (sites : List Flow.CallSite) (g : Flow.Func) : Flow.Func :=
  { g with callers := g.callers ++ sites }

/-- What an instruction adds to the callers of function number `j`. -/
def sitesFor (x : Payload) (site : Flow.CallSite) (j : Nat) : List Flow.CallSite :=
  match x with
  | .call n _ => if n = j then [site] else []
  | _ => []

/-- A program in whose function number `k`, which is `f` now, instruction `i` was allocated. -/
def recording (p : Flow.Program) (k : Nat) (f : Flow.Func) (x : Payload) (i : Id) : Flow.Program :=
  { funcs := (p.funcs.setIfInBounds k f).mapIdx fun j => noting (sitesFor x ⟨k, i⟩ j) }

/-- The callees of an instruction are functions of the program. -/
def Callable (p : Flow.Program) (x : Payload) : Prop :=
  ∀ n args, x = .call n args → ∃ m : Nat, n = m ∧ m < p.funcs.size

@[simp] lemma noting_nil : noting [] = id := by
  funext g
  simp [noting]

section Recording

variable {x : Payload} {i : Id}

@[simp] lemma size_recording : (recording p k f x i).funcs.size = p.funcs.size := by
  simp [recording]

lemma recording_self (hf : p.funcs[k]? = some f) :
    (recording p k f' x i).funcs[k]? = some (noting (sitesFor x ⟨k, i⟩ k) f') := by
  obtain ⟨hk, -⟩ := Array.getElem?_eq_some_iff.mp hf
  simp [recording, hk]

lemma recording_of_ne {j : Nat} (hj : j ≠ k) :
    (recording p k f' x i).funcs[j]? = (p.funcs[j]?).map (noting (sitesFor x ⟨k, i⟩ j)) := by
  rw [recording, Array.getElem?_mapIdx, Array.getElem?_setIfInBounds_ne hj.symm]

lemma others_recording : Others k p (recording p k f' x i) := by
  refine ⟨size_recording, fun {j g} hj hg => ⟨g.callers ++ sitesFor x ⟨k, i⟩ j, ?_⟩⟩
  rw [recording_of_ne hj, hg]
  rfl

lemma set_recording {f₁ f₂ : Flow.Func} :
    { funcs := (recording p k f₁ x i).funcs.setIfInBounds k (noting (sitesFor x ⟨k, i⟩ k) f₂) } =
      recording p k f₂ x i := by
  refine congrArg Flow.Program.mk (Array.ext_getElem? fun j => ?_)
  rcases Nat.lt_or_ge k p.funcs.size with hk | hk
  · by_cases hj : k = j
    · subst hj
      simp [recording, hk]
    · simp [recording, Array.getElem?_setIfInBounds_ne hj]
  · simp [recording, Array.setIfInBounds_eq_of_size_le, hk]

end Recording

lemma set_noting {m : Nat} {g : Flow.Func} (hg : p.funcs[m]? = some g) (site : Flow.CallSite)
    (args : List Id) :
    p.funcs.setIfInBounds m (noting [site] g) =
      p.funcs.mapIdx fun j => noting (sitesFor (.call m args) site j) := by
  refine Array.ext_getElem? fun j => ?_
  rw [Array.getElem?_mapIdx]
  by_cases hj : j = m
  · subst hj
    rw [getElem?_set_self hg, hg]
    simp [sitesFor]
  · have hne : ¬ (m : Int) = j := by omega
    rw [Array.getElem?_setIfInBounds_ne (Ne.symm hj)]
    simp [sitesFor, hne]

lemma new_eq_ok {pos : Position} {x : Payload} {i : Id} :
    p.new k pos x = .ok (i, p') ↔ ∃ f f', p.funcs[k]? = some f ∧ f.new pos x = .ok (i, f') ∧
      Callable p x ∧ p' = recording p k f' x i := by
  have hfunc : ∀ {f}, p.func (k : Int) = .ok f ↔ p.funcs[k]? = some f := lookup_natCast
  simp only [Flow.Program.new, bind_eq_ok, hfunc, Prod.exists]
  refine exists_congr fun f => ?_
  cases x with
  | call n args =>
    constructor
    · rintro ⟨hf, i', f', hnew, h⟩
      obtain ⟨p₁, hp₁, h⟩ := bind_eq_ok.mp h
      cases h
      obtain ⟨m, g, g', rfl, hg, hg', rfl⟩ := update_eq_ok.mp hp₁
      cases hg'
      refine ⟨f', hf, hnew, ?_, congrArg Flow.Program.mk (set_noting hg ⟨k, i⟩ args)⟩
      rintro _ _ ⟨⟩
      exact ⟨m, rfl, by simpa using (Array.getElem?_eq_some_iff.mp hg).1⟩
    · rintro ⟨f', hf, hnew, hcall, rfl⟩
      obtain ⟨m, rfl, hm⟩ := hcall n args rfl
      refine ⟨hf, i, f', hnew, ?_⟩
      set q : Flow.Program := { funcs := p.funcs.setIfInBounds k f' }
      obtain ⟨g, hg⟩ : ∃ g, q.funcs[m]? = some g :=
        ⟨_, Array.getElem?_eq_getElem (by simpa [q] using hm)⟩
      have hupdate : q.update m (fun g => .ok (noting [⟨k, i⟩] g)) =
          .ok { funcs := q.funcs.setIfInBounds m (noting [⟨k, i⟩] g) } := update_ok hg rfl
      rw [set_noting hg ⟨k, i⟩ args] at hupdate
      exact congrArg (fun r => r >>= fun p => .ok (i, p)) hupdate
  | _ =>
    simp only [recording, sitesFor, noting_nil, Array.mapIdx_eq_zipIdx_map]
    constructor
    · rintro ⟨hf, i', f', hnew, h⟩
      cases h
      exact ⟨f', hf, hnew, by rintro _ _ ⟨⟩, by simp⟩
    · rintro ⟨f', hf, hnew, -, rfl⟩
      exact ⟨hf, i, f', hnew, by simp⟩

lemma append_noting {sites : List Flow.CallSite} {b : BlockId} {i : Id} {g : Flow.Func} :
    (noting sites f).append b i = .ok g ↔ ∃ f', f.append b i = .ok f' ∧ g = noting sites f' := by
  simp only [Flow.Func.append, bind_eq_ok, Flow.Func.place_eq_ok, Flow.Func.updateCode_eq_ok]
  constructor
  · rintro ⟨_, ⟨s, hs, hv, hb, hd, rfl⟩, hl, rfl⟩
    exact ⟨_, ⟨_, ⟨s, hs, hv, hb, hd, rfl⟩, hl, rfl⟩, rfl⟩
  · rintro ⟨_, ⟨_, ⟨s, hs, hv, hb, hd, rfl⟩, hl, rfl⟩, rfl⟩
    exact ⟨_, ⟨s, hs, hv, hb, hd, rfl⟩, hl, rfl⟩

lemma emit_eq_ok {c : Scope} {st st' : Builder} {pos : Position} {x : Payload} {i : Id} :
    (c.emit pos x).run st = .ok (i, st') ↔ ∃ f f₁ f₂, st.program.funcs[c.number]? = some f ∧
      f.new pos x = .ok (i, f₁) ∧ f₁.append st.current i = .ok f₂ ∧ Callable st.program x ∧
      st' = ⟨recording st.program c.number f₂ x i, st.current⟩ := by
  have hrun : (c.emit pos x).run st = (st.program.new c.number pos x >>= fun r =>
      r.2.update c.number (fun f => f.append st.current r.1) >>= fun p =>
        .ok (r.1, ⟨p, st.current⟩)) := by
    change ((st.program.new c.number pos x >>= fun a => Except.ok (a, st)) >>= _) = _
    rcases st.program.new c.number pos x with e | ⟨i, p⟩
    · rfl
    · change ((p.update c.number _ >>= fun a => Except.ok (a, st)) >>= _) =
        (p.update c.number _ >>= _)
      rcases p.update c.number fun f => f.append st.current i with e | p'
      · rfl
      · rfl
  rw [hrun, bind_eq_ok]
  constructor
  · rintro ⟨⟨i', p₁⟩, hnew, h⟩
    obtain ⟨p₂, hupdate, h⟩ := bind_eq_ok.mp h
    cases h
    obtain ⟨f, f₁, hf, hf₁, hcall, rfl⟩ := new_eq_ok.mp hnew
    obtain ⟨m, g, g', hm, hg, hg', rfl⟩ := update_eq_ok.mp hupdate
    obtain rfl : c.number = m := by exact_mod_cast hm
    obtain rfl := Option.some.inj ((recording_self hf).symm.trans hg)
    obtain ⟨f₂, hf₂, rfl⟩ := append_noting.mp hg'
    exact ⟨f, f₁, f₂, hf, hf₁, hf₂, hcall, by rw [set_recording]⟩
  · rintro ⟨f, f₁, f₂, hf, hf₁, hf₂, hcall, rfl⟩
    refine ⟨(i, _), new_eq_ok.mpr ⟨f, f₁, hf, hf₁, hcall, rfl⟩, ?_⟩
    rw [update_ok (recording_self hf) (append_noting.mpr ⟨f₂, hf₂, rfl⟩), ok_bind, set_recording]

end Programs

/-- A point of building: the function so far, the open blocks and the code of the current one. -/
structure Stands (c : Scope) (arity : Nat → Nat → Prop) (opened : Set BlockId) (st : Builder)
    (f : Flow.Func) (l : List Id) : Prop where
  func : st.program.funcs[c.number]? = some f
  orderly : f.Orderly arity opened
  current : st.current ∈ opened
  listing : f.listing? st.current = some l
  isMain : f.isMain = c.proc.isMain
  vars : ∀ {ref}, c.proc.Declares ref → ∃ v, c.slotOf ref = .ok v ∧ v ∈ f.locals ++ f.params
  callees : ∀ {n m}, arity n m → n < st.program.funcs.size

/-- What two points of building have to do with each other. -/
structure Grows (c : Scope) (st : Builder) (f : Flow.Func) (st' : Builder) (f' : Flow.Func) :
    Prop where
  func : st'.program.funcs[c.number]? = some f'
  ext : Extends f f'
  others : Others c.number st.program st'.program

/-- Code was put behind that of the current block, and nothing else was touched. -/
structure Wrote (c : Scope) (st : Builder) (f : Flow.Func) (st' : Builder) (f' : Flow.Func)
    (ids : List Id) : Prop extends Grows c st f st' f' where
  current : st'.current = st.current
  listing : ∀ l, f.listing? st.current = some l → f'.listing? st.current = some (l ++ ids)
  other : ∀ b, b ≠ st.current → f'.listing? b = f.listing? b

section Instructions

variable {c : Scope} {arity : Nat → Nat → Prop} {opened : Set BlockId} {st st' st'' : Builder}
  {f f' f'' : Flow.Func} {l ids ids' : List Id} {x : Payload}

lemma Grows.trans (h : Grows c st f st' f') (h' : Grows c st' f' st'' f'') :
    Grows c st f st'' f'' :=
  ⟨h'.func, h.ext.trans h'.ext, h.others.trans h'.others⟩

lemma Wrote.trans (h : Wrote c st f st' f' ids) (h' : Wrote c st' f' st'' f'' ids') :
    Wrote c st f st'' f'' (ids ++ ids') := by
  refine ⟨h.toGrows.trans h'.toGrows, h'.current.trans h.current, fun l hl => ?_, fun b hb => ?_⟩
  · have := h'.listing (l ++ ids) (by rw [h.current]; exact h.listing l hl)
    rw [h.current] at this
    rw [this, List.append_assoc]
  · rw [h'.other b (by rw [h.current]; exact hb), h.other b hb]

lemma Wrote.nil (h : st.program.funcs[c.number]? = some f) : Wrote c st f st f [] :=
  ⟨⟨h, Extends.refl f, Others.refl _ _⟩, rfl, fun l hl => by rw [hl, List.append_nil],
    fun _ _ => rfl⟩

lemma Stands.wrote (h : Stands c arity opened st f l) (hw : Wrote c st f st' f' ids)
    (ho : f'.Orderly arity opened) : Stands c arity opened st' f' (l ++ ids) := by
  refine ⟨hw.func, ho, by rw [hw.current]; exact h.current,
    by rw [hw.current]; exact hw.listing l h.listing, ?_, fun {ref} hd => ?_, fun {n m} hn => ?_⟩
  · rw [hw.ext.head.isMain]
    exact h.isMain
  · rw [hw.ext.head.locals, hw.ext.head.params]
    exact h.vars hd
  · rw [hw.others.size]
    exact h.callees hn

lemma Stands.emit (h : Stands c arity opened st f l) (pos : Position) (hx : Admits arity f l x) :
    Yields (c.emit pos x) st fun i st' => ∃ f', Wrote c st f st' f' [i] ∧ f'.live? i = some x ∧
      f'.Orderly arity (if x.isTerminal then opened \ {st.current} else opened) := by
  obtain ⟨f₁, f', hnew, happend, hext, hlive, hcode, hother, ho⟩ :=
    h.orderly.emit pos h.current h.listing hx
  have hcall : Callable st.program x := by
    rintro n args rfl
    obtain ⟨m, rfl, hm⟩ := hx.suits
    exact ⟨m, rfl, h.callees hm⟩
  refine ⟨_, _, emit_eq_ok.mpr ⟨f, f₁, f', h.func, hnew, happend, hcall, rfl⟩, _,
    ⟨⟨recording_self h.func, hext.trans (Extends.callers f' _), others_recording⟩, rfl, ?_, hother⟩,
    hlive, ho.callers _⟩
  intro m hm
  obtain rfl : l = m := Option.some.inj (h.listing.symm.trans hm)
  exact hcode

lemma Plain.not_var {i : Id} (h : Plain f i) : f.varOf? i = none := by
  obtain ⟨y, hy, hp, -⟩ := h
  rw [Flow.Func.varOf?_of_live hy, Payload.asVar_eq_none]
  rintro v rfl
  exact absurd hp Bool.false_ne_true

lemma Plain.tests {i : Id} (h : Plain f i) {y : Payload} (hy : f.live? i = some y)
    (hc : y.compares = true) : x.isBranchIf = true := by
  obtain ⟨z, hz, -, hz'⟩ := h
  obtain rfl : y = z := Option.some.inj (hy.symm.trans hz)
  simp [hc] at hz'

lemma admits_const (k : UInt64) : Admits arity f l (.const k) :=
  ⟨by simp, by simp, trivial, by simp [Payload.targets], by simp [Flow.Func.named],
    by simp [Flow.Func.needs], by simp [Flow.Func.needs]⟩

lemma admits_loading (hf : f.Framed) (ref : Ref) {v : Id} (hv : v ∈ f.locals ++ f.params) :
    Admits arity f l (c.loading ref v) := by
  have hvar := hf v hv
  unfold Scope.loading
  split
  · exact ⟨by simp, by simp, trivial, by simp [Payload.targets], by simpa [Flow.Func.named] using hv,
      by simp [Flow.Func.needs], by simp [Flow.Func.needs]⟩
  · exact ⟨by simp, by simp, trivial, by simp [Payload.targets],
      by simpa [Flow.Func.named, hvar] using hv, by simp [Flow.Func.needs, hvar],
      by simp [Flow.Func.needs, hvar]⟩

lemma admits_locating (ref : Ref) {v j : Id} (hv : v ∈ f.locals ++ f.params) (hj : Plain f j)
    (hmem : j ∈ f.avail l) : Admits arity f l (c.locating ref v j) := by
  unfold Scope.locating
  split
  all_goals
    exact ⟨by simp, by simp, trivial, by simp [Payload.targets],
      by simpa [Flow.Func.named] using hv,
      by simpa [Flow.Func.needs] using List.singleton_sublist.mpr hmem,
      by simpa [Flow.Func.needs] using fun y hy hc => hj.tests hy hc⟩

lemma admits_load {a : Id} (ha : Plain f a) (hmem : a ∈ f.avail l) : Admits arity f l (.load a) := by
  have hvar := ha.not_var
  exact ⟨by simp, by simp, trivial, by simp [Payload.targets], by simp [Flow.Func.named, hvar],
    by simpa [Flow.Func.needs, hvar] using hmem,
    by simpa [Flow.Func.needs, hvar] using fun y hy hc => ha.tests hy hc⟩

lemma admits_alu {op : Op} {op' : Flow.Op} (hop : op.toFlow? = some op') {i j : Id}
    (hi : Plain f i) (hj : Plain f j) (hmem : [j, i].Sublist (f.avail l)) : Admits arity f l (.alu op' i j) := by
  refine ⟨by simp, by simp, (Op.isRelational_toFlow? hop).2, by simp [Payload.targets],
    by simp [Flow.Func.named], hmem, fun d hd y hy hc => ?_⟩
  simp only [Flow.Func.needs, List.mem_cons, List.not_mem_nil, or_false] at hd
  rcases hd with rfl | rfl
  · exact hj.tests hy hc
  · exact hi.tests hy hc

/-- A value was computed behind the code of the current block. -/
def Computed (c : Scope) (arity : Nat → Nat → Prop) (opened : Set BlockId) (st : Builder)
    (f : Flow.Func) (e : Expr) (i : Id) (st' : Builder) : Prop :=
  ∃ f' ids, Wrote c st f st' f' ids ∧ f'.Orderly arity opened ∧ Computes c f' e ids i

lemma mem_avail_of_plain {i : Id} (hids : ∀ j ∈ ids, Plain f j) (hi : i ∈ ids) :
    i ∈ f.avail (l ++ ids) := by
  rw [Flow.Func.avail_append fun j hj => (hids j hj).imp fun y hy => ⟨hy.1, hy.2.1⟩]
  exact List.mem_append_right _ hi

lemma Stands.emit_plain (h : Stands c arity opened st f l) (pos : Position)
    (hx : Admits arity f l x) (hterm : x.isTerminal = false) :
    Yields (c.emit pos x) st fun i st' => ∃ f', Wrote c st f st' f' [i] ∧ f'.Orderly arity opened ∧
      f'.live? i = some x := by
  refine (h.emit pos hx).mono fun i st' ⟨f', hw, hlive, ho⟩ => ⟨f', hw, ?_, hlive⟩
  simpa [hterm] using ho

lemma Stands.element (h : Stands c arity opened st f l) {ref : Ref} {offset : Expr}
    (hoffset : Yields (c.expr offset) st (Computed c arity opened st f offset))
    (href : c.proc.Declares ref) (pos : Position) :
    Yields (c.element pos ref offset) st fun a st' => ∃ f' ids j v, Wrote c st f st' f' (ids ++ [a]) ∧
      f'.Orderly arity opened ∧ Computes c f' offset ids j ∧ c.slotOf ref = .ok v ∧
      f'.live? a = some (c.locating ref v j) := by
  rw [Scope.element]
  refine hoffset.bind fun j st₁ ⟨f₁, ids, hw₁, ho₁, hj⟩ => ?_
  have h₁ := h.wrote hw₁ ho₁
  obtain ⟨v, hslot, hv⟩ := h₁.vars href
  refine Yields.lift hslot ?_
  have hfits : Admits arity f₁ (l ++ ids) (c.locating ref v j) :=
    admits_locating ref hv (hj.plain.2 j hj.plain.1) (mem_avail_of_plain hj.plain.2 hj.plain.1)
  have hterm := Payload.isTerminal_of_produces (c.locating_plain ref v j).1
  have hemit := h₁.emit_plain pos hfits hterm
  have heq : (if c.isRef ref then c.emit pos (.elemAddrIndirect v j) else c.emit pos (.elemAddr v j)) =
      c.emit pos (c.locating ref v j) := by
    unfold Scope.locating
    split <;> rfl
  rw [heq]
  refine hemit.mono fun a st₂ ⟨f₂, hw₂, ho₂, ha⟩ => ?_
  exact ⟨f₂, ids, j, v, hw₁.trans hw₂, ho₂, hj.mono hw₂.ext, hslot, ha⟩

lemma Stands.operate (h : Stands c arity opened st f l) {left right : Expr}
    (hright : Yields (c.expr right) st (Computed c arity opened st f right))
    (hleft : ∀ {st₁ f₁ l₁}, Stands c arity opened st₁ f₁ l₁ →
      Yields (c.expr left) st₁ (Computed c arity opened st₁ f₁ left))
    {op : Op} (hop : op.toFlow?.isSome) (pos : Position) :
    Yields (do
      let y ← c.expr right
      let x ← c.expr left
      match op.toFlow? with
      | some op => c.emit pos (.alu op x y)
      | none => throw .outOfRange : Build Id) st fun i st' => ∃ f' ids ids' x y op',
        Wrote c st f st' f' (ids ++ ids' ++ [i]) ∧ f'.Orderly arity opened ∧
        op.toFlow? = some op' ∧ Computes c f' right ids y ∧ Computes c f' left ids' x ∧
        f'.live? i = some (.alu op' x y) := by
  obtain ⟨op', hop'⟩ := Option.isSome_iff_exists.mp hop
  refine hright.bind fun y st₁ ⟨f₁, ids, hw₁, ho₁, hy⟩ => ?_
  have h₁ := h.wrote hw₁ ho₁
  refine (hleft h₁).bind fun x st₂ ⟨f₂, ids', hw₂, ho₂, hx⟩ => ?_
  have h₂ := h₁.wrote hw₂ ho₂
  have hy₂ := hy.mono hw₂.ext
  have hall : ∀ j ∈ ids ++ ids', Plain f₂ j := by
    intro j hj
    rcases List.mem_append.mp hj with hj | hj
    · exact hy₂.plain.2 j hj
    · exact hx.plain.2 j hj
  have hsub : [y, x].Sublist (f₂.avail (l ++ ids ++ ids')) := by
    rw [List.append_assoc, Flow.Func.avail_append
      fun j hj => (hall j hj).imp fun z hz => ⟨hz.1, hz.2.1⟩]
    refine List.Sublist.trans ?_ (List.sublist_append_right _ _)
    exact (List.singleton_sublist.mpr hy.plain.1).append (List.singleton_sublist.mpr hx.plain.1)
  have hfits : Admits arity f₂ (l ++ ids ++ ids') (.alu op' x y) :=
    admits_alu hop' (hx.plain.2 x hx.plain.1) (hy₂.plain.2 y hy₂.plain.1) hsub
  rw [hop']
  refine (h₂.emit_plain pos hfits rfl).mono fun i st₃ ⟨f₃, hw₃, ho₃, hi⟩ => ?_
  exact ⟨f₃, ids, ids', x, y, op', (hw₁.trans hw₂).trans hw₃, ho₃, rfl,
    hy₂.mono hw₃.ext, hx.mono hw₃.ext, hi⟩

lemma Stands.expr (h : Stands c arity opened st f l) {e : Expr} (he : e.Linked c.proc) :
    Yields (c.expr e) st (Computed c arity opened st f e) := by
  induction e generalizing st f l with
  | missing => exact he.elim
  | number pos v =>
    rw [Scope.expr]
    refine (h.emit_plain pos (admits_const v) rfl).mono ?_
    rintro i st' ⟨f', hw, ho, hi⟩
    exact ⟨f', [i], hw, ho, .number hi⟩
  | ident pos ref =>
    rw [Scope.expr]
    obtain ⟨v, hslot, hv⟩ := h.vars he
    refine Yields.lift hslot ?_
    have heq : (if c.isRef ref then c.emit pos (.loadIndirect v) else c.emit pos (.load v)) =
        c.emit pos (c.loading ref v) := by
      unfold Scope.loading
      split <;> rfl
    rw [heq]
    have hterm := Payload.isTerminal_of_produces (c.loading_plain ref v).1
    refine (h.emit_plain pos (admits_loading h.orderly.framed ref hv) hterm).mono ?_
    rintro i st' ⟨f', hw, ho, hi⟩
    exact ⟨f', [i], hw, ho, .ident hslot hi⟩
  | index pos ref offset ih =>
    rw [Scope.expr]
    refine (h.element (ih h he.2) he.1 pos).bind ?_
    rintro a st₁ ⟨f₁, ids, j, v, hw₁, ho₁, hj, hslot, ha⟩
    have h₁ := h.wrote hw₁ ho₁
    have hloc : Locates c f₁ (.index pos ref offset) (ids ++ [a]) a := .index hj hslot ha
    have hplain := hloc.plain
    have hfits : Admits arity f₁ (l ++ (ids ++ [a])) (.load a) :=
      admits_load (hplain a (by simp)) (mem_avail_of_plain hplain (by simp))
    refine (h₁.emit_plain pos hfits rfl).mono ?_
    rintro i st₂ ⟨f₂, hw₂, ho₂, hi⟩
    refine ⟨f₂, ids ++ [a, i], ?_, ho₂, .index (hj.mono hw₂.ext) hslot (hw₂.ext.live ha) hi⟩
    have hw := hw₁.trans hw₂
    rwa [List.append_assoc] at hw
  | binary pos op left right ihl ihr =>
    obtain ⟨hrel, hop, hl, hr⟩ := he
    rw [Scope.expr, if_neg (by simp [hrel])]
    refine (h.operate (ihr h hr) (fun h₁ => ihl h₁ hl) hop pos).mono ?_
    rintro i st' ⟨f', ids, ids', x, y, op', hw, ho, hop', hy, hx, hi⟩
    exact ⟨f', _, hw, ho, .binary hrel hop' hy hx hi⟩

lemma Stands.condition (h : Stands c arity opened st f l) {e : Expr} (he : e.LinkedTest c.proc) :
    Yields (c.condition e) st fun t st' => ∃ f' ids, Wrote c st f st' f' ids ∧
      f'.Orderly arity opened ∧ Tests c f' e ids t := by
  have hvalue : ∀ {e : Expr}, e.Linked c.proc → Yields (c.expr e) st fun t st' => ∃ f' ids,
      Wrote c st f st' f' ids ∧ f'.Orderly arity opened ∧ Tests c f' e ids t := by
    intro e he
    refine (h.expr he).mono fun t st' ⟨f', ids, hw, ho, ht⟩ => ?_
    exact ⟨f', ids, hw, ho, .value ht⟩
  cases e with
  | binary pos op left right =>
    rw [Scope.condition]
    cases hrel : op.isRelational with
    | false => exact hvalue ⟨hrel, he⟩
    | true =>
      obtain ⟨hop, hl, hr⟩ := he
      refine (h.operate (h.expr hr) (fun h₁ => h₁.expr hl) hop pos).mono ?_
      rintro i st' ⟨f', ids, ids', x, y, op', hw, ho, hop', hy, hx, hi⟩
      exact ⟨f', _, hw, ho, .compare hrel hop' hy hx hi⟩
  | _ => exact hvalue he

lemma Stands.address (h : Stands c arity opened st f l) {e : Expr} (he : e.LinkedTarget c.proc) :
    Yields (c.address e) st fun d st' => ∃ f' ids, Wrote c st f st' f' ids ∧
      f'.Orderly arity opened ∧ Locates c f' e ids d ∧
      (d ∈ f'.locals ++ f'.params ∨ d ∈ ids) := by
  cases e with
  | ident pos ref =>
    rw [Scope.address]
    obtain ⟨v, hslot, hv⟩ := h.vars he
    refine Yields.lift hslot ?_
    cases href : c.isRef ref with
    | false => exact Yields.pure ⟨f, [], .nil h.func, h.orderly, .frame href hslot, Or.inl hv⟩
    | true =>
      have hvar := h.orderly.framed v hv
      have hfits : Admits arity f l (.load v) :=
        ⟨by simp, by simp, trivial, by simp [Payload.targets],
          by simpa [Flow.Func.named, hvar] using hv, by simp [Flow.Func.needs, hvar],
          by simp [Flow.Func.needs, hvar]⟩
      refine (h.emit_plain pos hfits rfl).mono ?_
      rintro i st' ⟨f', hw, ho, hi⟩
      exact ⟨f', [i], hw, ho, .reference href hslot hi, Or.inr (by simp)⟩
  | index pos ref offset =>
    rw [Scope.address]
    refine (h.element (h.expr he.2) he.1 pos).mono ?_
    rintro a st' ⟨f', ids, j, v, hw, ho, hj, hslot, ha⟩
    exact ⟨f', _, hw, ho, .index hj hslot ha, Or.inr (by simp)⟩
  | _ => exact he.elim

lemma Stands.arguments (h : Stands c arity opened st f l) {args : List Expr}
    (hargs : ∀ e ∈ args, e.LinkedArgument c.proc) :
    ∃ ids, args.mapM c.argument = .ok ids ∧ ids.length = args.length ∧
      ∀ v ∈ ids, v ∈ f.locals ++ f.params := by
  induction args with
  | nil => exact ⟨[], rfl, rfl, by simp⟩
  | cons e rest ih =>
    obtain ⟨ids, hids, hlen, hmem⟩ := ih fun e' he' => hargs e' (by simp [he'])
    have he := hargs e (by simp)
    cases e with
    | ident pos ref =>
      obtain ⟨v, hslot, hv⟩ := h.vars he
      refine ⟨v :: ids, ?_, by simp [hlen], by simpa using ⟨by simpa using hv, by simpa using hmem⟩⟩
      have hv' : c.argument (.ident pos ref) = .ok v := hslot
      rw [List.mapM_cons, hv', ok_bind, hids]
      rfl
    | _ => exact he.elim

end Instructions

section Statements

variable {c : Scope} {arity : Nat → Nat → Prop} {opened : Set BlockId} {st st' st'' : Builder}
  {f f' f'' : Flow.Func} {l l' ids ids' : List Id} {x : Payload}

lemma Stands.newBlock (h : Stands c arity opened st f l) :
    Yields c.newBlock st fun b st' => ∃ f', Stands c arity (insert b opened) st' f' l ∧
      Grows c st f st' f' ∧ st'.current = st.current ∧ b ∉ opened ∧ f'.listing? b = some [] ∧
      ∀ b', b' ≠ b → f'.listing? b' = f.listing? b' := by
  obtain ⟨hfresh, hext, hnew, ho⟩ := h.orderly.newBlock
  have hfunc : st.program.func (c.number : Int) = .ok f := lookup_natCast.mpr h.func
  have hself := getElem?_set_self h.func f.newBlock.2
  have hother : ∀ b', b' ≠ (f.blocks.size : Int) → f.newBlock.2.listing? b' = f.listing? b' := by
    intro b' hb'
    rw [Flow.Func.listing?_newBlock, if_neg hb']
  refine ⟨(f.blocks.size : Int), ⟨{ funcs := st.program.funcs.setIfInBounds c.number f.newBlock.2 },
    st.current⟩, ?_, f.newBlock.2, ⟨hself, ho, Or.inr h.current, ?_, h.isMain, h.vars, ?_⟩,
    ⟨hself, hext, others_set _ _ _⟩, rfl, hfresh, hnew, hother⟩
  · change ((st.program.func c.number >>= fun a => Except.ok (a, st)) >>= _) = _
    rw [hfunc]
    rfl
  · rw [hother _ fun h' => hfresh (h' ▸ h.current)]
    exact h.listing
  · intro n m hn
    simpa using h.callees hn

/-- Close the current block with a terminal instruction, and go on in another open one. -/
lemma Stands.close (h : Stands c arity opened st f l) (pos : Position) (hx : Admits arity f l x)
    (hterm : x.isTerminal = true) {b : BlockId} (hb : b ∈ opened) (hne : b ≠ st.current) :
    Yields (discard (c.emit pos x)) st fun _ st₁ => Yields (Scope.enter b) st₁ fun _ st' => ∃ f' m i,
      Stands c arity (opened \ {st.current}) st' f' m ∧ f.listing? b = some m ∧
      Grows c st f st' f' ∧ st'.current = b ∧ f'.live? i = some x ∧
      Within f' st.current (l ++ [i]) ∧ ∀ b', b' ≠ st.current → f'.listing? b' = f.listing? b' := by
  refine (h.emit pos hx).discard fun i st₁ ⟨f', hw, hlive, ho⟩ => ?_
  obtain ⟨m, hm, -⟩ := h.orderly.opens b hb
  refine ⟨(), { st₁ with current := b }, rfl, f', m, i, ⟨hw.func, ?_, ⟨hb, hne⟩, ?_, ?_, ?_, ?_⟩, hm,
    ⟨hw.func, hw.ext, hw.others⟩, rfl, hlive, ⟨[], ?_⟩, hw.other⟩
  · simpa [hterm] using ho
  · rw [hw.other b hne, hm]
  · rw [hw.ext.head.isMain]
    exact h.isMain
  · intro ref hd
    rw [hw.ext.head.locals, hw.ext.head.params]
    exact h.vars hd
  · intro n k hn
    rw [hw.others.size]
    exact h.callees hn
  · rw [hw.listing l h.listing, List.append_nil]

/-- A function with more code, whose blocks are all closed. -/
structure Completes (f g : Flow.Func) : Prop where
  ext : Extends f g
  closes : ∀ {b l}, g.listing? b = some l → g.Closes l

lemma Completes.of_extends {g : Flow.Func} (h : Completes f' g) (hext : Extends f f') :
    Completes f g :=
  ⟨hext.trans h.ext, h.closes⟩

lemma Completes.leads {g : Flow.Func} (h : Completes f g) {b b' : BlockId} {i : Id}
    (hi : f.live? i = some x) (hterm : x.isTerminal = true) (hw : Within f b (l ++ [i]))
    (hb : b' ∈ x.targets) : g.Leads b b' :=
  have hl := Flow.Func.Closes.listing_eq (fun hl => h.closes hl) (hw.mono h.ext) (h.ext.live hi)
    hterm
  ⟨_, i, x, hl, List.getLast?_concat, h.ext.live hi, hb⟩

/-- In the whole function `g`, control may come from block `b` to block `b'`, and to every block
that `f'` has and `f` has not. -/
structure Spans (g f : Flow.Func) (b : BlockId) (f' : Flow.Func) (b' : BlockId) : Prop where
  finish : Relation.ReflTransGen g.Leads b b'
  blocks : ∀ {d}, (f'.listing? d).isSome →
    (f.listing? d).isSome ∨ Relation.ReflTransGen g.Leads b d

section Spans

variable {g : Flow.Func} {b b' b'' n : BlockId}

lemma Spans.refl (g f : Flow.Func) (b : BlockId) : Spans g f b f b := ⟨.refl, Or.inl⟩

lemma Spans.trans (h : Spans g f b f' b') (h' : Spans g f' b' f'' b'') : Spans g f b f'' b'' :=
  ⟨h.finish.trans h'.finish,
    fun hd => (h'.blocks hd).elim h.blocks fun hd => .inr (h.finish.trans hd)⟩

lemma Spans.turn (h : Spans g f b f' b')
    (hsame : ∀ {d}, (f''.listing? d).isSome → (f'.listing? d).isSome)
    (hb : Relation.ReflTransGen g.Leads b b'') : Spans g f b f'' b'' :=
  ⟨hb, fun hd => h.blocks (hsame hd)⟩

lemma Spans.newBlock (h : Spans g f b f' b') (hsame : ∀ d, d ≠ n → f''.listing? d = f'.listing? d)
    (hn : Relation.ReflTransGen g.Leads b n) : Spans g f b f'' b' := by
  refine ⟨h.finish, fun {d} hd => ?_⟩
  by_cases hdn : d = n
  · exact Or.inr (hdn ▸ hn)
  · rw [hsame d hdn] at hd
    exact h.blocks hd

end Spans

lemma Wrote.blocks (h : Wrote c st f st' f' ids) (hl : f.listing? st.current = some l) {d : BlockId}
    (hd : (f'.listing? d).isSome) : (f.listing? d).isSome := by
  by_cases hdc : d = st.current
  · rw [hdc, hl]
    rfl
  · rwa [← h.other d hdc]

/-- Statements were built: the code goes from one current block to another, the blocks of `opened`
are as they were, and only the current block is open beside them. Control comes to all blocks. -/
def Ran (c : Scope) (arity : Nat → Nat → Prop) (opened : Set BlockId) (st : Builder)
    (f : Flow.Func) (l : List Id) (ss : List Stmt) (st' : Builder) : Prop :=
  ∃ f' l', Stands c arity (insert st'.current opened) st' f' l' ∧ st'.current ∉ opened ∧
    Grows c st f st' f' ∧ (∀ b ∈ opened, f'.listing? b = f.listing? b) ∧
    Flows c f' ss st.current l st'.current l' ∧
    ∀ {g}, Completes f' g → Spans g f st.current f' st'.current

lemma Ran.of_wrote {s : Stmt} (h : Stands c arity (insert st.current opened) st f l)
    (hcur : st.current ∉ opened) (hw : Wrote c st f st' f' ids)
    (ho : f'.Orderly arity (insert st.current opened))
    (hflows : Within f' st.current (l ++ ids) → Flows c f' [s] st.current l st.current (l ++ ids)) :
    Ran c arity opened st f l [s] st' := by
  have hstands := h.wrote hw ho
  refine ⟨f', l ++ ids, by rw [hw.current]; exact hstands, by rw [hw.current]; exact hcur,
    hw.toGrows, fun b hb => hw.other b fun h' => hcur (h' ▸ hb), ?_, fun {g} _ => ?_⟩
  · rw [hw.current]
    exact hflows ⟨[], by rw [hw.listing l h.listing, List.append_nil]⟩
  · rw [hw.current]
    exact (Spans.refl g f st.current).turn (hw.blocks h.listing) .refl

lemma Ran.append {s : Stmt} {ss : List Stmt} {st₁ st₂ : Builder} {f₁ : Flow.Func} {l₁ : List Id}
    (hgrows : Grows c st f st₁ f₁) (hsame : ∀ b ∈ opened, f₁.listing? b = f.listing? b)
    (hflows : Flows c f₁ [s] st.current l st₁.current l₁)
    (hspans : ∀ {g}, Completes f₁ g → Spans g f st.current f₁ st₁.current)
    (h₂ : Ran c arity opened st₁ f₁ l₁ ss st₂) : Ran c arity opened st f l (s :: ss) st₂ := by
  obtain ⟨f₂, l₂, hstands, hcur, hgrows₂, hsame₂, hflows₂, hspans₂⟩ := h₂
  exact ⟨f₂, l₂, hstands, hcur, hgrows.trans hgrows₂,
    fun b hb => (hsame₂ b hb).trans (hsame b hb), (hflows.mono hgrows₂.ext).append hflows₂,
    fun hg => (hspans (hg.of_extends hgrows₂.ext)).trans (hspans₂ hg)⟩

lemma admits_store {d s : Id} (hd : d ∈ f.locals ++ f.params ∨ Plain f d) (hf : f.Framed)
    (hs : Plain f s) (hmem : (f.varOf? d).isSome → s ∈ f.avail l)
    (hsub : f.varOf? d = none → [d, s].Sublist (f.avail l)) : Admits arity f l (.store d s) := by
  refine ⟨by simp, by simp, trivial, by simp [Payload.targets], ?_, ?_, ?_⟩
  · cases hv : f.varOf? d with
    | none => simp [Flow.Func.named, hv]
    | some v =>
      rcases hd with hd | hd
      · simpa [Flow.Func.named, hv] using hd
      · simp [hd.not_var] at hv
  · cases hv : f.varOf? d with
    | none => simpa [Flow.Func.needs, hv] using hsub hv
    | some v => simpa [Flow.Func.needs, hv] using hmem (by simp [hv])
  · intro e he y hy hc
    have he' : e = s ∨ (e = d ∧ f.varOf? d = none) := by
      cases hv : f.varOf? d with
      | none =>
        simp only [Flow.Func.needs, hv] at he
        simp at he
        tauto
      | some v =>
        simp only [Flow.Func.needs, hv] at he
        simp at he
        exact Or.inl he
    rcases he' with rfl | ⟨rfl, hv⟩
    · exact hs.tests hy hc
    · rcases hd with hd | hd
      · have := hf e hd
        simp [hv] at this
      · exact hd.tests hy hc

lemma Stands.admits_store (h : Stands c arity opened st f (l ++ ids ++ ids')) {e e' : Expr} {d s : Id}
    (hd : Locates c f e ids d) (hd' : d ∈ f.locals ++ f.params ∨ d ∈ ids)
    (hs : Computes c f e' ids' s) : Admits arity f (l ++ ids ++ ids') (.store d s) := by
  have hall : ∀ j ∈ ids ++ ids', Plain f j := by
    intro j hj
    rcases List.mem_append.mp hj with hj | hj
    · exact hd.plain j hj
    · exact hs.plain.2 j hj
  have havail : f.avail (l ++ ids ++ ids') = f.avail l ++ (ids ++ ids') := by
    rw [List.append_assoc, Flow.Func.avail_append
      fun j hj => (hall j hj).imp fun z hz => ⟨hz.1, hz.2.1⟩]
  refine Tree.admits_store (hd'.imp id fun hm => hd.plain d hm) h.orderly.framed
    (hs.plain.2 s hs.plain.1) (fun _ => ?_) fun hv => ?_
  · rw [havail]
    simp [hs.plain.1]
  · rw [havail]
    have hmem : d ∈ ids := by
      rcases hd' with hd' | hd'
      · have := h.orderly.framed d hd'
        simp [hv] at this
      · exact hd'
    refine List.Sublist.trans ?_ (List.sublist_append_right _ _)
    exact (List.singleton_sublist.mpr hmem).append (List.singleton_sublist.mpr hs.plain.1)

lemma admits_read : Admits arity f l .read :=
  ⟨by simp, by simp, trivial, by simp [Payload.targets], by simp [Flow.Func.named],
    by simp [Flow.Func.needs], by simp [Flow.Func.needs]⟩

lemma admits_write {s : Id} (hs : Plain f s) (hmem : s ∈ f.avail l) : Admits arity f l (.write s) :=
  ⟨by simp, by simp, trivial, by simp [Payload.targets], by simp [Flow.Func.named],
    by simpa [Flow.Func.needs] using hmem,
    by simpa [Flow.Func.needs] using fun y hy hc => hs.tests hy hc⟩

lemma admits_storing (hf : f.Framed) (ref : Ref) {v r : Id} (hv : v ∈ f.locals ++ f.params)
    (hr : Plain f r) (hmem : r ∈ f.avail l) : Admits arity f l (c.storing ref v r) := by
  have hvar := hf v hv
  unfold Scope.storing
  split
  · exact ⟨by simp, by simp, trivial, by simp [Payload.targets], by simpa [Flow.Func.named] using hv,
      by simpa [Flow.Func.needs] using hmem,
      by simpa [Flow.Func.needs] using fun y hy hc => hr.tests hy hc⟩
  · refine Tree.admits_store (Or.inl hv) hf hr (fun _ => hmem) fun h => ?_
    simp [h] at hvar

lemma admits_call {k : Nat} {args : List Id} (hk : arity k args.length)
    (hargs : ∀ v ∈ args, v ∈ f.locals ++ f.params) : Admits arity f l (.call k args) :=
  ⟨by simp, by simp, ⟨k, rfl, hk⟩, by simp [Payload.targets], hargs, by simp [Flow.Func.needs],
    by simp [Flow.Func.needs]⟩

lemma admits_branch {b : BlockId} (hb : (f.listing? b).isSome) : Admits arity f l (.branch b) :=
  ⟨by simp, by simp, trivial, by simpa [Payload.targets] using hb, by simp [Flow.Func.named],
    by simp [Flow.Func.needs], by simp [Flow.Func.needs]⟩

lemma admits_branchIf {e : Expr} {t : Id} {b b' : BlockId} (ht : Tests c f e ids t)
    (hb : (f.listing? b).isSome) (hb' : (f.listing? b').isSome) :
    Admits arity f (l ++ ids) (.branchIf .positive t b b') := by
  refine ⟨by simp, by simp, trivial, by simpa [Payload.targets] using ⟨hb, hb'⟩,
    by simp [Flow.Func.named], ?_, fun _ _ _ _ _ => rfl⟩
  have : t ∈ f.avail (l ++ ids) := by
    rw [Flow.Func.avail_append ht.produces.2]
    exact List.mem_append_right _ ht.produces.1
  simpa [Flow.Func.needs] using this

end Statements

end Accumulator.Tree
