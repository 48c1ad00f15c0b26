import Mathlib
import Accumulator.Tree.Run
import Accumulator.Proofs.BuildingBodies
import Accumulator.Proofs.Depth

/-!
# Runs of the code of trees

The code of a tree does what the tree does. A parameter by reference holds the address of the
variable that it stands for, and all other cells hold the same words on both sides.
-/

namespace Accumulator.Tree

open Accumulator.Flow (Id BlockId Payload Value Progress)
open Accumulator.Exec

/-- Whether an object is a parameter by reference. -/
def File.isReference (file : File) (o : Object) : Bool :=
  (file.decls[o.func]?).any fun d => (d.params[o.var]?).any (·.isRef)

/-- The world of a tree and the world of its code. -/
structure Mirrors (file : File) (w : World UInt64) (W : World Value) : Prop where
  cells : ∀ c, file.isReference c.object = false → W.cells c = .word (w.cells c)
  input : W.input = w.input
  output : W.output = w.output

/-- The references of an activation hold what its parameters stand for. -/
structure Bound (file : File) (a : Activation) (W : World Value) : Prop where
  decl : file.decls[a.number]? = some a.proc
  length : a.params.length = a.proc.params.length
  byRef : ∀ {i : Nat} {p : Param} {o : Object}, a.proc.params[i]? = some p →
    a.params[i]? = some o → p.isRef = true →
    W.cells ⟨⟨a.number, i⟩, 0⟩ = .addr ⟨o, 0⟩ ∧ file.isReference o = false
  byValue : ∀ {i : Nat} {p : Param} {o : Object}, a.proc.params[i]? = some p →
    a.params[i]? = some o → p.isRef = false → o = ⟨a.number, i⟩

/-- The procedure of an activation. -/
def Activation.scope (a : Activation) : Scope := ⟨a.number, a.proc⟩

section Worlds

variable {file : File} {a : Activation} {w : World UInt64} {W : World Value} {ref : Ref} {v : Id}

lemma isReference_of_proc {d : Proc} {k i : Nat} (hd : file.decls[k]? = some d) :
    file.isReference ⟨k, i⟩ = (d.params[i]?).any (·.isRef) := by
  simp [File.isReference, hd]

lemma slotOf_eq_ok {c : Scope} (h : c.slotOf ref = .ok v) :
    (∃ i : Nat, ref = .param i ∧ i < c.proc.params.length ∧ v = i) ∨
      ∃ i : Nat, ref = .localVar i ∧ i < c.proc.locals.length ∧
        v = ((c.proc.params.length + i : Nat) : Int) := by
  cases ref with
  | param i =>
    by_cases hi : i < c.proc.params.length
    · rw [Scope.slotOf, if_pos hi] at h
      exact Or.inl ⟨i, rfl, hi, (Except.ok.inj h).symm⟩
    · rw [Scope.slotOf, if_neg hi] at h
      cases h
  | localVar i =>
    by_cases hi : i < c.proc.locals.length
    · rw [Scope.slotOf, if_pos hi] at h
      exact Or.inr ⟨i, rfl, hi, (Except.ok.inj h).symm⟩
    · rw [Scope.slotOf, if_neg hi] at h
      cases h
  | _ => cases h

lemma Bound.object (h : Bound file a W) (hv : a.scope.slotOf ref = .ok v) :
    ∃ o, a.object? ref = some o ∧ file.isReference o = false ∧
      (a.scope.isRef ref = true → W.cells ⟨⟨a.number, v.toNat⟩, 0⟩ = .addr ⟨o, 0⟩) ∧
      (a.scope.isRef ref = false → o = ⟨a.number, v.toNat⟩) := by
  rcases slotOf_eq_ok hv with ⟨i, rfl, hi, rfl⟩ | ⟨i, rfl, hi, rfl⟩
  · have hp : a.proc.params[i]? = some (a.proc.params.get ⟨i, hi⟩) := List.getElem?_eq_getElem hi
    obtain ⟨o, ho⟩ : ∃ o, a.params[i]? = some o := by
      have hlt : i < a.params.length := by rw [h.length]; exact hi
      exact ⟨_, List.getElem?_eq_getElem hlt⟩
    set p := a.proc.params.get ⟨i, hi⟩
    have href : a.scope.isRef (.param i) = p.isRef := by
      simp [Scope.isRef, Activation.scope, hp]
    refine ⟨o, ho, ?_, fun hr => ?_, fun hr => ?_⟩
    · cases hr : p.isRef with
      | true => exact (h.byRef hp ho hr).2
      | false =>
        rw [h.byValue hp ho hr, isReference_of_proc h.decl, hp]
        exact hr
    · exact (h.byRef hp ho (href.symm.trans hr)).1
    · exact h.byValue hp ho (href.symm.trans hr)
  · refine ⟨⟨a.number, a.proc.params.length + i⟩, if_pos hi, ?_, fun hr => ?_, fun _ => rfl⟩
    · rw [isReference_of_proc h.decl, List.getElem?_eq_none (by omega)]
      rfl
    · cases hr

lemma Mirrors.write (h : Mirrors file w W) {c : Cell} (x : UInt64) :
    Mirrors file (w.write c x) (W.write c (.word x)) := by
  refine ⟨fun d hd => ?_, h.input, h.output⟩
  simp only [World.write]
  split
  · rfl
  · exact h.cells d hd

end Worlds

section Variables

variable {file : File} {k : Nat} {d : Proc} {f : Flow.Func} {ref : Ref} {v : Id}

lemma vars_getElem?_param {i : Nat} {p : Param} (h : d.params[i]? = some p) :
    d.vars[i]?.map (·.2) =
      some { name := p.name, kind := .param, size := 1, byRef := p.isRef } := by
  have hi : i < d.params.length := (List.getElem?_eq_some_iff.mp h).1
  rw [Proc.vars, List.getElem?_append_left (by simpa using hi), List.getElem?_map, h]
  rfl

lemma vars_getElem?_local {i : Nat} {x : Local} (h : d.locals[i]? = some x) :
    d.vars[d.params.length + i]?.map (·.2) =
      some { name := x.name, kind := .localVar, size := if x.size < 1 then 1 else x.size } := by
  simp [Proc.vars, List.getElem?_append, h]

lemma BuiltWith.var {arity : Nat → Nat → Prop} (h : BuiltWith arity k d f)
    (hv : Scope.slotOf ⟨k, d⟩ ref = .ok v) :
    ∃ x, f.varOf? v = some x ∧ x.byRef = Scope.isRef ⟨k, d⟩ ref ∧ 0 ≤ v := by
  rcases slotOf_eq_ok hv with ⟨i, rfl, hi, rfl⟩ | ⟨i, rfl, hi, rfl⟩
  · have hp : d.params[i]? = some (d.params.get ⟨i, hi⟩) := List.getElem?_eq_getElem hi
    have hvar := h.vars i
    rw [if_pos (Int.natCast_nonneg i), Int.toNat_natCast, vars_getElem?_param hp] at hvar
    exact ⟨_, hvar, by simp [Scope.isRef, hp], Int.natCast_nonneg i⟩
  · have hx : d.locals[i]? = some (d.locals.get ⟨i, hi⟩) := List.getElem?_eq_getElem hi
    have hvar := h.vars ((d.params.length + i : Nat) : Int)
    rw [if_pos (Int.natCast_nonneg _), Int.toNat_natCast, vars_getElem?_local hx] at hvar
    exact ⟨_, hvar, rfl, Int.natCast_nonneg _⟩

lemma cellCount_eq {R : Flow.Reading} (hsize : R.program.funcs.size = file.decls.length)
    (hfuncs : ∀ {k d}, file.decls[k]? = some d → ∃ f, R.program.funcs[k]? = some f ∧ Built file k d f)
    (o : Object) : R.cellCount o = file.cellCount o := by
  unfold Flow.Reading.cellCount File.cellCount
  cases hd : file.decls[o.func]? with
  | none =>
    have : R.program.funcs[o.func]? = none := by
      rw [Array.getElem?_eq_none_iff, hsize]
      exact List.getElem?_eq_none_iff.mp hd
    rw [this]
  | some d =>
    obtain ⟨f, hf, hb⟩ := hfuncs hd
    simp only [hf, hb.vars, Int.natCast_nonneg, if_true, Int.toNat_natCast]
    by_cases hparam : o.var < d.params.length
    · rw [vars_getElem?_param (List.getElem?_eq_getElem hparam), if_pos hparam]
      rfl
    · rw [if_neg hparam]
      obtain ⟨i, hi⟩ : ∃ i, o.var = d.params.length + i := ⟨o.var - d.params.length, by omega⟩
      rw [hi, Nat.add_sub_cancel_left]
      cases hx : d.locals[i]? with
      | none =>
        have : d.vars[d.params.length + i]? = none := by
          rw [List.getElem?_eq_none_iff] at hx ⊢
          rw [length_vars]
          omega
        rw [this]
        rfl
      | some x =>
        rw [vars_getElem?_local hx]
        simp only
        split <;> omega

end Variables

/-- The code does what a run on the tree does that leaves its world alone. -/
def Reproduces {α : Type} (R : Flow.Reading) (A : Flow.Activation) (s : Progress) (w : World UInt64)
    (ids : List Id) (x : Exec α) (Q : α → (Id → Value) → Prop) : Prop :=
  (∃ a vs, x.run w = (.ok a, w) ∧ Q a vs ∧ (∀ j ∉ ids, vs j = A.values j) ∧
    ∀ goTo rest, (R.exec goTo A (ids ++ rest)).run s =
      (R.exec goTo { A with values := vs } rest).run s) ∨
  ∃ e, e ≠ .senseless ∧ e ≠ .unfinished ∧ x.run w = (.error e, w) ∧
    ∀ goTo rest, (R.exec goTo A (ids ++ rest)).run s = (.error e, s)

section Reproduces

variable {α β : Type} {R : Flow.Reading} {A : Flow.Activation} {s : Progress} {w : World UInt64}
  {ids ids' : List Id} {x : Exec α} {Q : α → (Id → Value) → Prop} {i : Id} {y : Payload}

lemma Reproduces.pure {a : α} (h : Q a A.values) : Reproduces R A s w [] (pure a) Q :=
  Or.inl ⟨a, A.values, rfl, h, fun _ _ => rfl, fun _ _ => rfl⟩

lemma Reproduces.bind {k : α → Exec β} {Q' : β → (Id → Value) → Prop} (h : Reproduces R A s w ids x Q)
    (hk : ∀ a vs, Q a vs → (∀ j ∉ ids, vs j = A.values j) →
      Reproduces R { A with values := vs } s w ids' (k a) Q') :
    Reproduces R A s w (ids ++ ids') (x >>= k) Q' := by
  rcases h with ⟨a, vs, hx, hq, hvs, hrun⟩ | ⟨e, he, he', hx, hrun⟩
  · rcases hk a vs hq hvs with ⟨b, vs', hy, hq', hvs', hrun'⟩ | ⟨e, he, he', hy, hrun'⟩
    · refine Or.inl ⟨b, vs', ?_, hq', fun j hj => ?_, fun goTo rest => ?_⟩
      · rw [run_bind_ok hx, hy]
      · rw [List.mem_append, not_or] at hj
        rw [hvs' j hj.2, ← hvs j hj.1]
      · rw [List.append_assoc, hrun, hrun']
    · refine Or.inr ⟨e, he, he', ?_, fun goTo rest => ?_⟩
      · rw [run_bind_ok hx, hy]
      · rw [List.append_assoc, hrun, hrun']
  · refine Or.inr ⟨e, he, he', run_bind_error hx, fun goTo rest => ?_⟩
    rw [List.append_assoc, hrun]

lemma Reproduces.mono {Q' : α → (Id → Value) → Prop} (h : Reproduces R A s w ids x Q)
    (hq : ∀ a vs, Q a vs → Q' a vs) : Reproduces R A s w ids x Q' := by
  rcases h with ⟨a, vs, hx, ha, h⟩ | h
  · exact Or.inl ⟨a, vs, hx, hq a vs ha, h⟩
  · exact Or.inr h

lemma Reproduces.value {a : α} {v : Value} (hy : A.func.live? i = some y) (hc : y.computes = true)
    (hrun : (R.compute A y).run s = (.ok (some v), s)) (hx : x.run w = (.ok a, w))
    (hq : Q a fun j => if j = i then v else A.values j) : Reproduces R A s w [i] x Q := by
  refine Or.inl ⟨a, _, hx, hq, fun j hj => if_neg (by simpa using hj), fun goTo rest => ?_⟩
  rw [List.singleton_append, Flow.Reading.exec_computes (Flow.Func.payload_of_live hy) hc,
    run_bind_ok hrun]
  rfl

lemma Reproduces.error {e : Interrupt} (hy : A.func.live? i = some y) (hc : y.computes = true)
    (hrun : (R.compute A y).run s = (.error e, s)) (hx : x.run w = (.error e, w))
    (he : e ≠ .senseless) (he' : e ≠ .unfinished) : Reproduces R A s w [i] x Q := by
  refine Or.inr ⟨e, he, he', hx, fun goTo rest => ?_⟩
  rw [List.singleton_append, Flow.Reading.exec_computes (Flow.Func.payload_of_live hy) hc,
    run_bind_error hrun]

end Reproduces

/-- A flow program with the code of a tree. -/
structure Renders (r : Reading) (R : Flow.Reading) : Prop where
  division : R.division = r.division
  size : R.program.funcs.size = r.file.decls.length
  funcs : ∀ {k d}, r.file.decls[k]? = some d →
    ∃ f, R.program.funcs[k]? = some f ∧ Built r.file k d f

/-- The run of a procedure and the run of its code. -/
structure Beside (r : Reading) (a : Activation) (A : Flow.Activation) (w : World UInt64)
    (W : World Value) : Prop where
  number : A.number = a.number
  built : Built r.file a.number a.proc A.func
  bound : Bound r.file a W
  mirrors : Mirrors r.file w W

section Expressions

variable {r : Reading} {R : Flow.Reading} {a : Activation} {A : Flow.Activation} {w : World UInt64}
  {s : Progress} {ref : Ref} {v i j : Id} {o : Object}

lemma Beside.values (h : Beside r a A w s.world) (vs : Id → Value) :
    Beside r a { A with values := vs } w s.world :=
  ⟨h.number, h.built, h.bound, h.mirrors⟩

lemma Beside.object? (h : Beside r a A w s.world) (hv : a.scope.slotOf ref = .ok v) :
    A.object? v = some ⟨a.number, v.toNat⟩ := by
  obtain ⟨x, hx, -, -⟩ := h.built.var hv
  simp [Flow.Activation.object?, hx, h.number]

lemma run_behind {c : Cell} (ho : A.object? v = some o) (hc : s.world.cells ⟨o, 0⟩ = .addr c) :
    (Flow.Reading.behind A v).run s = (.ok c, s) := by
  unfold Flow.Reading.behind
  rw [ho, run_bind_ok (run_required_some o s)]
  have hget : (Flow.Reading.get ⟨o, 0⟩).run s = (.ok (.addr c), s) := by
    rw [← hc]
    rfl
  rw [run_bind_ok hget]
  rfl

lemma Beside.loading (h : Beside r a A w s.world) (hv : a.scope.slotOf ref = .ok v)
    (ho : a.object? ref = some o) (hi : A.func.live? i = some (a.scope.loading ref v)) :
    Reproduces R A s w [i] (Reading.get ⟨o, 0⟩) fun x vs => vs i = .word x := by
  obtain ⟨o', ho', hdata, href, hval⟩ := h.bound.object hv
  obtain rfl : o' = o := Option.some.inj (ho'.symm.trans ho)
  have hobj := h.object? hv
  have hword : s.world.cells ⟨o', 0⟩ = .word (w.cells ⟨o', 0⟩) := h.mirrors.cells ⟨o', 0⟩ hdata
  refine Reproduces.value (a := w.cells ⟨o', 0⟩) (v := .word (w.cells ⟨o', 0⟩)) hi ?_ ?_ rfl
    (if_pos rfl)
  · unfold Scope.loading
    split <;> rfl
  · unfold Scope.loading
    cases hr : a.scope.isRef ref with
    | true =>
      rw [if_pos rfl, Flow.Reading.compute, run_bind_ok (run_behind hobj (href hr)), ← hword]
      rfl
    | false =>
      have hcell : A.cell? v = some ⟨o', 0⟩ := by
        rw [Flow.Activation.cell?, hobj, ← hval hr]
      rw [if_neg Bool.false_ne_true, Flow.Reading.compute, hcell,
        run_bind_ok (run_required_some _ s), ← hword]
      rfl

lemma run_element (hR : Renders r R) (o : Object) (x : UInt64) (s : Progress) (w : World UInt64) :
    (x.toNat < r.file.cellCount o ∧ (R.element ⟨o, 0⟩ x).run s = (.ok ⟨o, x.toNat⟩, s) ∧
      (r.element o x).run w = (.ok ⟨o, x.toNat⟩, w)) ∨
    (R.element ⟨o, 0⟩ x).run s = (.error (.outside ⟨o, x.toNat⟩), s) ∧
      (r.element o x).run w = (.error (.outside ⟨o, x.toNat⟩), w) := by
  unfold Flow.Reading.element Reading.element
  rw [cellCount_eq hR.size hR.funcs]
  simp only [Nat.zero_add]
  by_cases hx : x.toNat < r.file.cellCount o
  · rw [if_pos hx, if_pos hx]
    exact Or.inl ⟨hx, rfl, rfl⟩
  · rw [if_neg hx, if_neg hx]
    exact Or.inr ⟨rfl, rfl⟩

lemma Beside.locating (hR : Renders r R) (h : Beside r a A w s.world)
    (hv : a.scope.slotOf ref = .ok v) (ho : a.object? ref = some o) {x : UInt64}
    (hj : A.values j = .word x) (hi : A.func.live? i = some (a.scope.locating ref v j)) :
    Reproduces R A s w [i] (r.element o x) fun c vs => vs i = .addr c ∧ c.object = o := by
  obtain ⟨o', ho', -, href, hval⟩ := h.bound.object hv
  obtain rfl : o' = o := Option.some.inj (ho'.symm.trans ho)
  have hobj := h.object? hv
  have hword : A.word? j = some x := by rw [Flow.Activation.word?, hj]; rfl
  have hcomputes : (a.scope.locating ref v j).computes = true := by
    unfold Scope.locating
    split <;> rfl
  have hcompute : (R.compute A (a.scope.locating ref v j)).run s =
      (do return some (.addr (← R.element ⟨o', 0⟩ x)) : Flow.Exec (Option Value)).run s := by
    unfold Scope.locating
    cases hr : a.scope.isRef ref with
    | true =>
      rw [if_pos rfl, Flow.Reading.compute, run_bind_ok (run_behind hobj (href hr)), hword,
        run_bind_ok (run_required_some _ s)]
    | false =>
      rw [if_neg Bool.false_ne_true, Flow.Reading.compute, hobj, run_bind_ok (run_required_some _ s),
        hword, run_bind_ok (run_required_some _ s), hval hr]
  rcases run_element hR o' x s w with ⟨-, hflow, htree⟩ | ⟨hflow, htree⟩
  · refine Reproduces.value hi hcomputes ?_ htree ⟨if_pos rfl, rfl⟩
    rw [hcompute, run_bind_ok hflow]
    rfl
  · refine Reproduces.error hi hcomputes ?_ htree (by simp) (by simp)
    rw [hcompute, run_bind_error hflow]

lemma Beside.fetching (h : Beside r a A w s.world) {c : Cell} (hj : A.values j = .addr c)
    (hplain : A.func.varOf? j = none) (hc : r.file.isReference c.object = false)
    (hi : A.func.live? i = some (.load j)) :
    Reproduces R A s w [i] (Reading.get c) fun x vs => vs i = .word x := by
  refine Reproduces.value (a := w.cells c) (v := .word (w.cells c)) hi rfl ?_ rfl (if_pos rfl)
  have hcell : A.cell? j = some c := by
    simp [Flow.Activation.cell?, Flow.Activation.object?, hplain, hj, Value.addr?]
  rw [Flow.Reading.compute, hcell, run_bind_ok (run_required_some _ s), ← h.mirrors.cells c hc]
  rfl

lemma run_divide (hR : Renders r R) (x y : UInt64) (s : Progress) (w : World UInt64) :
    (∃ q, (Exec.divide R.division x y : Flow.Exec _).run s = (.ok q, s) ∧
      (Exec.divide r.division x y : Exec _).run w = (.ok q, w)) ∨
    (Exec.divide R.division x y : Flow.Exec _).run s = (.error (.division x y), s) ∧
      (Exec.divide r.division x y : Exec _).run w = (.error (.division x y), w) := by
  rw [hR.division]
  unfold Exec.divide
  cases r.division x y with
  | some q => exact Or.inl ⟨q, rfl, rfl⟩
  | none => exact Or.inr ⟨rfl, rfl⟩

lemma run_operate (hR : Renders r R) {op : Op} {op' : Flow.Op} (hrel : op.isRelational = false)
    (hop : op.toFlow? = some op') (x y : UInt64) (s : Progress) (w : World UInt64) :
    (∃ z, (R.operate op' x y).run s = (.ok z, s) ∧ (r.operate op x y).run w = (.ok z, w)) ∨
    (R.operate op' x y).run s = (.error (.division x y), s) ∧
      (r.operate op x y).run w = (.error (.division x y), w) := by
  cases op with
  | add => cases hop; exact Or.inl ⟨_, rfl, rfl⟩
  | sub => cases hop; exact Or.inl ⟨_, rfl, rfl⟩
  | mul => cases hop; exact Or.inl ⟨_, rfl, rfl⟩
  | div =>
    cases hop
    rcases run_divide hR x y s w with ⟨q, hflow, htree⟩ | ⟨hflow, htree⟩
    · exact Or.inl ⟨q.1, run_bind_ok hflow, run_bind_ok htree⟩
    · exact Or.inr ⟨run_bind_error hflow, run_bind_error htree⟩
  | mod =>
    cases hop
    rcases run_divide hR x y s w with ⟨q, hflow, htree⟩ | ⟨hflow, htree⟩
    · exact Or.inl ⟨q.2, run_bind_ok hflow, run_bind_ok htree⟩
    · exact Or.inr ⟨run_bind_error hflow, run_bind_error htree⟩
  | unknown n => cases hop
  | _ => cases hrel

lemma run_alu {op : Flow.Op} {x y : UInt64} (hx : A.values i = .word x) (hy : A.values j = .word y) :
    (R.compute A (.alu op i j)).run s =
      (do return some (.word (← R.operate op x y)) : Flow.Exec (Option Value)).run s := by
  have hwordx : A.word? i = some x := by rw [Flow.Activation.word?, hx]; rfl
  have hwordy : A.word? j = some y := by rw [Flow.Activation.word?, hy]; rfl
  rw [Flow.Reading.compute, hwordy, run_bind_ok (run_required_some _ s), hwordx,
    run_bind_ok (run_required_some _ s)]

lemma required_some_bind {σ α β : Type} (x : α) (k : α → Accumulator.Exec σ β) :
    (Exec.required (some x) >>= k) = k x :=
  pure_bind x k

/-- The code of an expression computes its value. -/
theorem Computes.reproduces (hR : Renders r R) {f : Flow.Func} {e : Expr} {ids : List Id}
    (h : Computes a.scope f e ids i) (hA : A.func = f) (hb : Beside r a A w s.world)
    (hnodup : ids.Nodup) : Reproduces R A s w ids (r.value a e) fun x vs => vs i = .word x := by
  induction h generalizing A with
  | @number pos n i hi =>
    subst hA
    exact Reproduces.value (v := .word n) hi rfl rfl rfl (if_pos rfl)
  | @ident pos ref v i hv hi =>
    subst hA
    obtain ⟨o, ho, -⟩ := hb.bound.object hv
    rw [Reading.value, ho, required_some_bind]
    exact hb.loading hv ho hi
  | @index pos ref offset v j q i ids hoffset hv hq hi ih =>
    subst hA
    obtain ⟨o, ho, hdata, -⟩ := hb.bound.object hv
    rw [Reading.value, ho]
    refine (ih rfl hb (List.nodup_append.mp hnodup).1).bind fun x vs hx _ => ?_
    rw [required_some_bind]
    change Reproduces R _ s w ([q] ++ [i]) _ _
    refine ((hb.values vs).locating hR hv ho hx hq).bind fun c vs' ⟨hc, hobj⟩ _ => ?_
    have hplain : A.func.varOf? q = none := by
      rw [Flow.Func.varOf?_of_live hq]
      unfold Scope.locating
      split <;> rfl
    exact (hb.values vs').fetching hc hplain (by rw [hobj]; exact hdata) hi
  | @binary pos op left right op' x y i ids ids' hrel hop hr hl hi ihr ihl =>
    subst hA
    have hdisjoint : y ∉ ids' := by
      rw [List.append_assoc] at hnodup
      intro hmem
      exact (List.nodup_append.mp hnodup).2.2 y hr.plain.1 y (by simp [hmem]) rfl
    rw [List.append_assoc] at hnodup ⊢
    have hnodup' := (List.nodup_append.mp hnodup).2.1
    rw [Reading.value]
    refine (ihr rfl hb (List.nodup_append.mp hnodup).1).bind fun n vs hy _ => ?_
    refine (ihl (A := { A with values := vs }) rfl (hb.values vs)
      (List.nodup_append.mp hnodup').1).bind fun m vs' hx hsame => ?_
    have hy' : vs' y = .word n := (hsame y hdisjoint).trans hy
    rcases run_operate hR hrel hop m n s w with ⟨z, hflow, htree⟩ | ⟨hflow, htree⟩
    · refine Reproduces.value hi rfl ?_ htree (if_pos rfl)
      rw [run_alu hx hy', run_bind_ok hflow]
      rfl
    · refine Reproduces.error hi rfl ?_ htree (by simp) (by simp)
      rw [run_alu hx hy', run_bind_error hflow]

end Expressions

end Accumulator.Tree
