import Mathlib
import Accumulator.Proofs.BuildMeaning

/-!
# What the steps of building keep

Building consists of opening a block, entering one, and putting an instruction at the end of the
current one. What these keep is kept by building statements. So at every time the callers of a
function are the calls of the program that name it, and a function gets its end last.
-/

namespace Accumulator

open Accumulator.Flow (Id BlockId Payload lookup_natCast)

namespace Flow

/-- Whether an instruction ends a function. -/
def Payload.isEnd : Payload → Bool
  | .stop | .ret => true
  | _ => false

/-- The call at a site names function number `j`. -/
def Program.CallAt (p : Program) (site : CallSite) (j : Nat) : Prop :=
  ∃ f args, p.funcs[site.func]? = some f ∧ f.live? site.call = some (.call j args)

/-- A function ends at an instruction. -/
def Func.EndsAt (f : Func) (i : Id) : Prop := ∃ x, f.live? i = some x ∧ x.isEnd = true

end Flow

namespace Tree

/-- From a state with `I`, the step comes to a state with `I`, and only if `Q`. -/
def Upholds (I : Builder → Prop) (Q : Prop) {α : Type} (m : Build α) : Prop :=
  ∀ st a st', I st → m.run st = .ok (a, st') → I st' ∧ Q

section Upholds

variable {α β : Type} {I : Builder → Prop} {Q R : Prop} {m : Build α} {k : α → Build β}

lemma Upholds.pure (hq : Q) (a : α) : Upholds I Q (pure a) := by
  intro st b st' h hrun
  cases hrun
  exact ⟨h, hq⟩

lemma Upholds.bind (h : Upholds I Q m) (hk : ∀ a, Q → Upholds I R (k a)) :
    Upholds I R (m >>= k) := by
  intro st b st' hst hrun
  obtain ⟨a, st₁, hm, hrun⟩ := run_bind_eq_ok hrun
  obtain ⟨hst₁, hq⟩ := h st a st₁ hst hm
  exact hk a hq st₁ b st' hst₁ hrun

lemma Upholds.imp (h : Upholds I Q m) (hq : Q → R) : Upholds I R m :=
  fun st a st' hst hrun => (h st a st' hst hrun).imp_right hq

lemma Upholds.seq (h : Upholds I Q m) (hk : ∀ a, Upholds I R (k a)) : Upholds I R (m >>= k) :=
  h.bind fun a _ => hk a

lemma Upholds.lift (x : Except Fault α) : Upholds I True (liftM x : Build α) := by
  intro st a st' hst hrun
  cases x with
  | error e => cases hrun
  | ok b =>
    cases hrun
    exact ⟨hst, trivial⟩

lemma Upholds.throw (e : Fault) : Upholds I Q (throw e : Build α) :=
  fun _ _ _ _ hrun => absurd hrun not_run_throw

lemma Upholds.discard (h : Upholds I Q m) : Upholds I Q (discard m) :=
  h.bind fun _ hq => Upholds.pure hq ()

lemma Upholds.mapM {γ : Type} (l : List γ) (g : γ → Except Fault α) :
    Upholds I True (l.mapM fun x => (g x : Build α)) := by
  induction l with
  | nil => exact .pure trivial []
  | cons x l ih =>
    rw [List.mapM_cons]
    exact (Upholds.lift (g x)).seq fun a => ih.seq fun as => .pure trivial (a :: as)

end Upholds

/-- A property that the steps of building keep as long as no end is built. Calls are built only of
functions with `Q`. -/
structure Stable (c : Scope) (I : Builder → Prop) (Q : Nat → Prop) : Prop where
  newBlock : Upholds I True c.newBlock
  enter : ∀ b, Upholds I True (Scope.enter b)
  emit : ∀ pos x, x.isEnd = false →
    Upholds I (∀ (k : Nat) args, x = .call k args → Q k) (c.emit pos x)

section Stable

variable {c : Scope} {I : Builder → Prop} {Q : Nat → Prop}

lemma Stable.plain (h : Stable c I Q) (pos : Position) {x : Payload} (hx : x.isEnd = false) :
    Upholds I True (c.emit pos x) :=
  (h.emit pos x hx).imp fun _ => trivial

lemma Stable.element (h : Stable c I Q) {offset : Expr} (hoffset : Upholds I True (c.expr offset))
    (pos : Position) (ref : Ref) : Upholds I True (c.element pos ref offset) := by
  rw [Scope.element]
  refine hoffset.seq fun i => (Upholds.lift (c.slotOf ref)).seq fun v => ?_
  split
  · exact h.plain pos rfl
  · exact h.plain pos rfl

lemma Stable.operate (h : Stable c I Q) {left right : Expr}
    (hleft : Upholds I True (c.expr left)) (hright : Upholds I True (c.expr right)) (pos : Position)
    (op : Op) :
    Upholds I True (do
      let y ← c.expr right
      let x ← c.expr left
      match op.toFlow? with
      | some op => c.emit pos (.alu op x y)
      | none => throw .outOfRange : Build Id) := by
  refine hright.seq fun y => hleft.seq fun x => ?_
  split
  · exact h.plain pos rfl
  · exact .throw _

lemma Stable.expr (h : Stable c I Q) (e : Expr) : Upholds I True (c.expr e) := by
  induction e with
  | missing =>
    rw [Scope.expr]
    exact .throw _
  | number pos v =>
    rw [Scope.expr]
    exact h.plain pos rfl
  | ident pos ref =>
    rw [Scope.expr]
    refine (Upholds.lift (c.slotOf ref)).seq fun v => ?_
    split
    · exact h.plain pos rfl
    · exact h.plain pos rfl
  | index pos ref offset ih =>
    rw [Scope.expr]
    exact (h.element ih pos ref).seq fun a => h.plain pos rfl
  | binary pos op left right ihl ihr =>
    rw [Scope.expr]
    split
    · exact .throw _
    · exact h.operate ihl ihr pos op

lemma Stable.condition (h : Stable c I Q) (e : Expr) : Upholds I True (c.condition e) := by
  cases e with
  | binary pos op left right =>
    rw [Scope.condition]
    split
    · exact h.operate (h.expr left) (h.expr right) pos op
    · exact h.expr _
  | _ => exact h.expr _

lemma Stable.address (h : Stable c I Q) (e : Expr) : Upholds I True (c.address e) := by
  cases e with
  | ident pos ref =>
    rw [Scope.address]
    refine (Upholds.lift (c.slotOf ref)).seq fun v => ?_
    split
    · exact h.plain pos rfl
    · exact .pure trivial v
  | index pos ref offset =>
    rw [Scope.address]
    exact h.element (h.expr offset) pos ref
  | _ => exact .throw _

lemma Stable.read (h : Stable c I Q) (pos : Position) (dst : Expr) :
    Upholds I True (c.read pos dst) := by
  unfold Scope.read
  split
  · next ref =>
    refine (Upholds.lift (c.slotOf ref)).seq fun v => (h.plain pos rfl).seq fun r => ?_
    refine Upholds.discard (h.plain pos ?_)
    split <;> rfl
  · exact (h.address _).seq fun d => (h.plain pos rfl).seq fun r => (h.plain pos rfl).discard

mutual

/-- Building a statement keeps the property, and its calls are of functions with `Q`. -/
theorem Stable.stmt (h : Stable c I Q) (s : Stmt) :
    Upholds I (∀ k n, (k, n) ∈ s.calls → Q k) (c.stmt s) := by
  cases s with
  | missing => exact .throw _
  | assign pos dst src =>
    refine Upholds.imp (Q := True) ?_ fun _ k n hk => nomatch hk
    exact (h.address dst).seq fun d => (h.expr src).seq fun s => (h.plain pos rfl).discard
  | read pos dst => exact (h.read pos dst).imp fun _ k n hk => nomatch hk
  | write pos src =>
    refine Upholds.imp (Q := True) ?_ fun _ k n hk => nomatch hk
    exact (h.expr src).seq fun s => (h.plain pos rfl).discard
  | call pos callee args =>
    cases callee with
    | none => exact .throw _
    | some j =>
      refine (Upholds.mapM args c.argument).seq fun ids => ?_
      refine (h.emit pos (.call j ids) rfl).discard.imp fun hq k n hk => ?_
      obtain ⟨rfl, -⟩ : k = j ∧ n = args.length := by simpa [Stmt.calls] using hk
      exact hq k ids rfl
  | choose pos cond yes no =>
    rw [Scope.stmt]
    refine h.newBlock.seq fun thenTo => h.newBlock.seq fun elseTo => h.newBlock.seq fun merge => ?_
    refine (h.condition cond).seq fun t => (h.plain pos rfl).discard.seq fun _ => ?_
    refine (h.enter thenTo).seq fun _ => (h.stmts yes).bind fun _ hyes => ?_
    refine (h.plain pos rfl).discard.seq fun _ => (h.enter elseTo).seq fun _ => ?_
    refine (h.stmts no).bind fun _ hno => (h.plain pos rfl).discard.seq fun _ => ?_
    refine (h.enter merge).imp fun _ k n hk => ?_
    rcases List.mem_append.mp hk with hk | hk
    · exact hyes k n hk
    · exact hno k n hk
  | loop pos cond body =>
    rw [Scope.stmt]
    refine h.newBlock.seq fun head => h.newBlock.seq fun inside => h.newBlock.seq fun merge => ?_
    refine (h.plain pos rfl).discard.seq fun _ => (h.enter head).seq fun _ => ?_
    refine (h.condition cond).seq fun t => (h.plain pos rfl).discard.seq fun _ => ?_
    refine (h.enter inside).seq fun _ => (h.stmts body).bind fun _ hbody => ?_
    exact (h.plain pos rfl).discard.seq fun _ => (h.enter merge).imp fun _ => hbody
  | untilLoop pos body cond =>
    rw [Scope.stmt]
    refine h.newBlock.seq fun inside => h.newBlock.seq fun merge => ?_
    refine (h.plain pos rfl).discard.seq fun _ => (h.enter inside).seq fun _ => ?_
    refine (h.stmts body).bind fun _ hbody => (h.condition cond).seq fun t => ?_
    exact (h.plain pos rfl).discard.seq fun _ => (h.enter merge).imp fun _ => hbody

theorem Stable.stmts (h : Stable c I Q) (ss : List Stmt) :
    Upholds I (∀ k n, (k, n) ∈ callsIn ss → Q k) (c.stmts ss) := by
  cases ss with
  | nil => exact .pure (fun k n hk => nomatch hk) ()
  | cons s rest =>
    rw [Scope.stmts]
    refine (h.stmt s).bind fun _ hs => (h.stmts rest).imp fun hrest k n hk => ?_
    rcases List.mem_append.mp hk with hk | hk
    · exact hs k n hk
    · exact hrest k n hk

end

end Stable

section Records

variable {N n k : Nat} {p p' : Flow.Program} {f f' : Flow.Func} {i : Id} {x : Payload}

lemma mem_sitesFor {site s : Flow.CallSite} {j : Nat} :
    s ∈ sitesFor x site j ↔ s = site ∧ ∃ args, x = .call j args := by
  unfold sitesFor
  split
  · next m args =>
    by_cases hm : m = j
    · simp [hm]
    · simp [hm]
  · next hx => simpa using fun _ args => hx j args

@[simp] lemma live?_noting {sites : List Flow.CallSite} {u : Id} :
    (noting sites f).live? u = f.live? u := rfl

/-- Instruction `i` was added to a function. -/
structure Gains (f f' : Flow.Func) (i : Id) (x : Payload) : Prop where
  made : f'.Made
  callers : f'.callers = f.callers
  fresh : f.live? i = none
  live : ∀ j, f'.live? j = if j = i then some x else f.live? j

lemma gains_of_append {f₁ : Flow.Func} {pos : Position} {b : BlockId} (hf : f.Made)
    (hnew : f.new pos x = .ok (i, f₁)) (happend : f₁.append b i = .ok f') : Gains f f' i x := by
  have hmade := hf.new hnew
  obtain ⟨code, hbecomes⟩ := hmade.sound.1.of_append happend
  obtain ⟨-, hlive⟩ := hf.sound.1.new hnew
  obtain ⟨rfl, ⟨slots, hslots⟩, -⟩ := Flow.Func.new_spec hnew
  refine ⟨hmade.append happend, ?_, ?_, fun j => by rw [hbecomes.live, hlive]⟩
  · obtain ⟨slots', blocks', rfl⟩ := hbecomes.frame
    rw [hslots]
  · cases h : f.live? (f.slots.size : Int) with
    | none => rfl
    | some y => exact absurd rfl (Flow.Func.size_ne_of_live h)

lemma Gains.endsAt (h : Gains f f' i x) {j : Id} :
    f'.EndsAt j ↔ j = i ∧ x.isEnd = true ∨ f.EndsAt j := by
  unfold Flow.Func.EndsAt
  rw [h.live]
  split
  · next hj => simp [hj, h.fresh]
  · next hj => simp [hj]

/-- A program of `N` functions. The callers of each are the calls that name it, listed once. -/
structure Recorded (N : Nat) (p : Flow.Program) : Prop where
  size : p.funcs.size = N
  made : ∀ {j : Nat} {g}, p.funcs[j]? = some g → g.Made
  nodup : ∀ {j : Nat} {g}, p.funcs[j]? = some g → g.callers.Nodup
  callers : ∀ {j : Nat} {g}, p.funcs[j]? = some g → ∀ s, s ∈ g.callers ↔ p.CallAt s j

lemma Recorded.change (h : Recorded N p) (sites : Nat → List Flow.CallSite)
    (hsize : p'.funcs.size = p.funcs.size)
    (hfuncs : ∀ {j : Nat} {g'}, p'.funcs[j]? = some g' →
      ∃ g, p.funcs[j]? = some g ∧ g'.Made ∧ g'.callers = g.callers ++ sites j)
    (hcalls : ∀ s j, p'.CallAt s j ↔ p.CallAt s j ∨ s ∈ sites j)
    (hnodup : ∀ j, (sites j).Nodup) (hnew : ∀ j, ∀ s ∈ sites j, ¬ p.CallAt s j) :
    Recorded N p' := by
  refine ⟨hsize.trans h.size, fun hg' => ?_, fun {j} {g'} hg' => ?_, fun {j} {g'} hg' s => ?_⟩
  · obtain ⟨g, -, hmade, -⟩ := hfuncs hg'
    exact hmade
  · obtain ⟨g, hg, -, hcallers⟩ := hfuncs hg'
    rw [hcallers]
    refine (h.nodup hg).append (hnodup j) fun s hs hs' => ?_
    exact hnew j s hs' ((h.callers hg s).mp hs)
  · obtain ⟨g, hg, -, hcallers⟩ := hfuncs hg'
    rw [hcallers, List.mem_append, h.callers hg, hcalls]

/-- The functions before number `n` end at one instruction, and the others do not end yet. -/
structure Underway (N n : Nat) (p : Flow.Program) : Prop extends Recorded N p where
  finished : ∀ {j : Nat} {g}, j < n → p.funcs[j]? = some g → ∃! i, g.EndsAt i
  unfinished : ∀ {j : Nat} {g}, n ≤ j → p.funcs[j]? = some g → ∀ i, ¬ g.EndsAt i

lemma Underway.change (h : Underway N n p) (hp' : Recorded N p')
    (hfuncs : ∀ {j : Nat} {g'}, p'.funcs[j]? = some g' →
      ∃ g, p.funcs[j]? = some g ∧ ∀ i, g'.EndsAt i ↔ g.EndsAt i) : Underway N n p' := by
  refine ⟨hp', fun hj hg' => ?_, fun hj hg' i => ?_⟩
  · obtain ⟨g, hg, hends⟩ := hfuncs hg'
    simpa only [hends] using h.finished hj hg
  · obtain ⟨g, hg, hends⟩ := hfuncs hg'
    rw [hends]
    exact h.unfinished hj hg i

lemma Underway.set (h : Underway N n p) (hf : p.funcs[k]? = some f) (hmade : f'.Made)
    (hcallers : f'.callers = f.callers)
    (hlive : ∀ i y, y.asVar = none → (f'.live? i = some y ↔ f.live? i = some y)) :
    Underway N n { funcs := p.funcs.setIfInBounds k f' } := by
  have hself := getElem?_set_self hf f'
  have hother : ∀ {j}, j ≠ k → (p.funcs.setIfInBounds k f')[j]? = p.funcs[j]? :=
    fun hj => Array.getElem?_setIfInBounds_ne (Ne.symm hj)
  have hcalls : ∀ s j, Flow.Program.CallAt { funcs := p.funcs.setIfInBounds k f' } s j ↔
      p.CallAt s j := by
    rintro ⟨m, u⟩ j
    unfold Flow.Program.CallAt
    by_cases hm : m = k
    · subst hm
      simp only [hself, hf, Option.some.injEq, exists_and_left, exists_eq_left']
      exact exists_congr fun args => hlive u _ rfl
    · simp only [hother hm]
  have hfuncs : ∀ {j : Nat} {g'}, (p.funcs.setIfInBounds k f')[j]? = some g' →
      ∃ g, p.funcs[j]? = some g ∧ g'.Made ∧ g'.callers = g.callers ∧
        ∀ i, g'.EndsAt i ↔ g.EndsAt i := by
    intro j g' hg'
    by_cases hj : j = k
    · subst hj
      obtain rfl := Option.some.inj (hself.symm.trans hg')
      refine ⟨f, hf, hmade, hcallers, fun i => exists_congr fun y => and_congr_left fun hy => ?_⟩
      refine hlive i y ?_
      cases y <;> first | rfl | cases hy
    · rw [hother hj] at hg'
      exact ⟨g', hg', h.made hg', rfl, fun _ => Iff.rfl⟩
  refine h.change (h.toRecorded.change (fun _ => []) (by simp) (fun hg' => ?_)
    (by simpa using hcalls) (fun _ => List.nodup_nil) (by simp)) fun hg' => ?_
  · obtain ⟨g, hg, hmade', hcallers', -⟩ := hfuncs hg'
    exact ⟨g, hg, hmade', by rw [hcallers', List.append_nil]⟩
  · obtain ⟨g, hg, -, -, hends⟩ := hfuncs hg'
    exact ⟨g, hg, hends⟩

lemma Recorded.emit (h : Recorded N p) (hf : p.funcs[k]? = some f) (hg : Gains f f' i x) :
    Recorded N (recording p k f' x i) := by
  have hcalls : ∀ s j, (recording p k f' x i).CallAt s j ↔
      p.CallAt s j ∨ s ∈ sitesFor x ⟨k, i⟩ j := by
    rintro ⟨m, u⟩ j
    rw [mem_sitesFor]
    unfold Flow.Program.CallAt
    by_cases hm : m = k
    · subst hm
      simp only [recording_self hf, hf, Option.some.injEq, exists_and_left, exists_eq_left']
      rw [live?_noting, hg.live]
      by_cases hu : u = i
      · simp [hu, hg.fresh]
      · simp [hu]
    · simp [recording_of_ne hm, hm]
  refine h.change _ size_recording (fun {j g'} hg' => ?_) hcalls (fun j => ?_) fun j s hs => ?_
  · by_cases hj : j = k
    · subst hj
      obtain rfl := Option.some.inj ((recording_self hf).symm.trans hg')
      exact ⟨f, hf, hg.made.callers _, congrArg (· ++ _) hg.callers⟩
    · rw [recording_of_ne hj, Option.map_eq_some_iff] at hg'
      obtain ⟨g, hg₀, rfl⟩ := hg'
      exact ⟨g, hg₀, (h.made hg₀).callers _, rfl⟩
  · unfold sitesFor
    split
    · split <;> simp
    · exact List.nodup_nil
  · obtain ⟨rfl, -⟩ := mem_sitesFor.mp hs
    rintro ⟨g, args, hg₀, hi⟩
    obtain rfl := Option.some.inj (hf.symm.trans hg₀)
    rw [hg.fresh] at hi
    cases hi

lemma recording_endsAt {j : Nat} {g' : Flow.Func} (hj : j ≠ k)
    (hg' : (recording p k f' x i).funcs[j]? = some g') :
    ∃ g, p.funcs[j]? = some g ∧ ∀ u, g'.EndsAt u ↔ g.EndsAt u := by
  rw [recording_of_ne hj, Option.map_eq_some_iff] at hg'
  obtain ⟨g, hg, rfl⟩ := hg'
  exact ⟨g, hg, fun _ => Iff.rfl⟩

lemma Underway.emit (h : Underway N n p) (hf : p.funcs[k]? = some f) (hg : Gains f f' i x)
    (hx : x.isEnd = false) : Underway N n (recording p k f' x i) := by
  refine h.change (h.toRecorded.emit hf hg) fun {j g'} hg' => ?_
  by_cases hj : j = k
  · subst hj
    obtain rfl := Option.some.inj ((recording_self hf).symm.trans hg')
    exact ⟨f, hf, fun u => hg.endsAt.trans (by simp [hx])⟩
  · exact recording_endsAt hj hg'

lemma Underway.finish (h : Underway N n p) (hf : p.funcs[n]? = some f) (hg : Gains f f' i x)
    (hx : x.isEnd = true) : Underway N (n + 1) (recording p n f' x i) := by
  refine ⟨h.toRecorded.emit hf hg, fun {j g'} hj hg' => ?_, fun {j g'} hj hg' => ?_⟩
  · rcases Nat.lt_succ_iff_lt_or_eq.mp hj with hj | rfl
    · obtain ⟨g, hg, hends⟩ := recording_endsAt hj.ne hg'
      simpa only [hends] using h.finished hj hg
    · obtain rfl := Option.some.inj ((recording_self hf).symm.trans hg')
      refine ⟨i, hg.endsAt.mpr (Or.inl ⟨rfl, hx⟩), fun u hu => ?_⟩
      exact ((hg.endsAt.mp hu).resolve_right (h.unfinished le_rfl hf u)).1
  · obtain ⟨g, hg, hends⟩ := recording_endsAt (by omega) hg'
    intro u
    rw [hends]
    exact h.unfinished (by omega) hg u

lemma newBlock_eq_ok {c : Scope} {st st' : Builder} {b : BlockId}
    (h : c.newBlock.run st = .ok (b, st')) : ∃ f, st.program.funcs[c.number]? = some f ∧
      st' = ⟨{ funcs := st.program.funcs.setIfInBounds c.number f.newBlock.2 }, st.current⟩ := by
  have hrun : c.newBlock.run st = (st.program.func c.number >>= fun f => .ok (f.newBlock.1,
      ⟨{ funcs := st.program.funcs.setIfInBounds c.number f.newBlock.2 }, st.current⟩)) := by
    change ((st.program.func c.number >>= fun a => Except.ok (a, st)) >>= _) = _
    rcases st.program.func c.number with e | f
    · rfl
    · rfl
  rw [hrun, bind_eq_ok] at h
  obtain ⟨f, hf, h⟩ := h
  cases h
  exact ⟨f, lookup_natCast.mp hf, rfl⟩

lemma stable_underway (c : Scope) : Stable c (fun st => Underway N n st.program) (· < N) := by
  refine ⟨fun st b st' h hrun => ?_, fun b st a st' h hrun => ?_,
    fun pos x hx st i st' h hrun => ?_⟩
  · obtain ⟨f, hf, rfl⟩ := newBlock_eq_ok hrun
    exact ⟨h.set hf (h.made hf).newBlock rfl fun _ _ _ => Iff.rfl, trivial⟩
  · cases hrun
    exact ⟨h, trivial⟩
  · obtain ⟨f, f₁, f₂, hf, hnew, happend, hcall, rfl⟩ := emit_eq_ok.mp hrun
    refine ⟨h.emit hf (gains_of_append (h.made hf) hnew happend) hx, fun k args hk => ?_⟩
    obtain ⟨m, hm, hlt⟩ := hcall k args hk
    obtain rfl : k = m := by exact_mod_cast hm
    exact h.size ▸ hlt

lemma newVars_made (vs : List (Position × Flow.Variable)) (hf : f.Made) :
    (vs.foldl (fun f (pos, v) => (f.newVar pos v).2) f).Made ∧
    (vs.foldl (fun f (pos, v) => (f.newVar pos v).2) f).callers = f.callers ∧
    ∀ i y, y.asVar = none →
      ((vs.foldl (fun f (pos, v) => (f.newVar pos v).2) f).live? i = some y ↔ f.live? i = some y) := by
  induction vs generalizing f with
  | nil => exact ⟨hf, rfl, fun _ _ _ => Iff.rfl⟩
  | cons v vs ih =>
    obtain ⟨hmade, hcallers, hlive⟩ := ih (hf.newVar v.1 v.2)
    refine ⟨hmade, hcallers.trans ?_, fun i y hy => (hlive i y hy).trans ?_⟩
    · unfold Flow.Func.newVar
      cases v.2.kind <;> rfl
    · rw [Flow.Func.live?, Flow.Func.at?_newVar]
      split
      · next hi =>
        constructor
        · rintro ⟨⟩
          cases hy
        · exact fun h => absurd hi (Flow.Func.size_ne_of_live h)
      · rfl

lemma declare_made (d : Proc) (hf : f.Made) : (d.declare f).Made ∧
    (d.declare f).callers = f.callers ∧
    ∀ i y, y.asVar = none → ((d.declare f).live? i = some y ↔ f.live? i = some y) := by
  obtain ⟨hmade, hcallers, hlive⟩ := newVars_made d.vars hf
  exact ⟨hmade.newBlock.entry _, hcallers, hlive⟩

/-- A procedure is built. Its function is finished, and it calls functions of the program. -/
lemma Underway.build {d : Proc} (h : Underway N k p) (hbuild : Scope.build ⟨k, d⟩ p = .ok p') :
    Underway N (k + 1) p' ∧ Linked (fun j _ => j < N) d d.body := by
  obtain ⟨f, st, st₁, st₂, i, hf, hst, hstmts, hemit, rfl⟩ := build_cases hbuild
  obtain ⟨hmade, hcallers, hlive⟩ := declare_made d (h.made hf)
  have hstart : Underway N k st.program := hst ▸ h.set hf hmade hcallers hlive
  obtain ⟨h₁, hcalls⟩ := (stable_underway ⟨k, d⟩).stmts d.body st () st₁ hstart hstmts
  obtain ⟨g, g₁, g₂, hg, hnew, happend, -, rfl⟩ := emit_eq_ok.mp hemit
  refine ⟨h₁.finish hg (gains_of_append (h₁.made hg) hnew happend) ?_,
    linked_of_stmts (c := ⟨k, d⟩) d.body hstmts hcalls⟩
  split <;> rfl

lemma Underway.rest (procs : List Proc) : ∀ {k p p'}, Underway N k p →
    (procs.zipIdx k).foldlM (fun p (d, k) => Scope.build ⟨k, d⟩ p) p = .ok p' →
    Underway N (k + procs.length) p' ∧ ∀ d ∈ procs, Linked (fun j _ => j < N) d d.body := by
  induction procs with
  | nil =>
    intro k p p' h hrun
    cases hrun
    exact ⟨h, by simp⟩
  | cons d procs ih =>
    intro k p p' h hrun
    rw [List.zipIdx_cons, List.foldlM_cons] at hrun
    obtain ⟨p₁, hbuild, hrun⟩ := bind_eq_ok.mp hrun
    obtain ⟨h₁, hd⟩ := h.build hbuild
    obtain ⟨h₂, hprocs⟩ := ih h₁ hrun
    exact ⟨by rw [List.length_cons]; convert h₂ using 1; omega, by simpa using ⟨hd, hprocs⟩⟩

lemma underway_of_build {file : File} (h : file.build = .ok (.ok p)) :
    Underway file.decls.length file.decls.length p ∧
      ∀ d ∈ file.decls, Linked (fun j _ => j < file.decls.length) d d.body := by
  obtain ⟨-, hfold⟩ := foldlM_of_build h
  set q : Flow.Program := { funcs := (file.decls.map fun d =>
    { name := d.name, isMain := d.isMain, loc := d.pos : Flow.Func }).toArray } with hq
  have hempty : ∀ {j : Nat} {g}, q.funcs[j]? = some g → ∃ d : Proc,
      g = { name := d.name, isMain := d.isMain, loc := d.pos } := by
    intro j g hg
    rw [hq, List.getElem?_toArray, List.getElem?_map, Option.map_eq_some_iff] at hg
    obtain ⟨d, -, rfl⟩ := hg
    exact ⟨d, rfl⟩
  have hlive : ∀ {j : Nat} {g}, q.funcs[j]? = some g → ∀ i, g.live? i = none := by
    intro j g hg i
    obtain ⟨d, rfl⟩ := hempty hg
    simp [Flow.Func.live?, Flow.Func.at?_eq]
  have hstart : Underway file.decls.length 0 q := by
    refine ⟨⟨by simp [hq], fun hg => ?_, fun hg => ?_, fun hg s => ?_⟩, fun hj => ?_,
      fun _ hg i => ?_⟩
    · obtain ⟨d, rfl⟩ := hempty hg
      exact .empty ..
    · obtain ⟨d, rfl⟩ := hempty hg
      exact List.nodup_nil
    · obtain ⟨d, rfl⟩ := hempty hg
      constructor
      · intro hs
        exact absurd hs List.not_mem_nil
      · rintro ⟨f, args, hf, hs⟩
        rw [hlive hf] at hs
        cases hs
    · exact absurd hj (Nat.not_lt_zero _)
    · rintro ⟨x, hx, -⟩
      rw [hlive hg] at hx
      cases hx
  simpa using hstart.rest file.decls hfold

end Records

end Tree

end Accumulator
