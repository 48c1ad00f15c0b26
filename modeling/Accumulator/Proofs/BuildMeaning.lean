import Mathlib
import Accumulator.Proofs.TreeMeaning

/-!
# Programs that can be built mean what their trees mean

Building only succeeds on trees without missing parts. If in addition calls fit and do not recurse,
the flow program and the tree run alike, to the end and without an end.
-/

namespace Accumulator.Tree

open Accumulator.Flow (Id BlockId Payload Value Progress Point)
open Accumulator.Exec

section Inversion

variable {α β : Type} {c : Scope} {st st' : Builder}

lemma run_bind_eq_ok {m : Build α} {k : α → Build β} {b : β} (h : (m >>= k).run st = .ok (b, st')) :
    ∃ a st₁, m.run st = .ok (a, st₁) ∧ (k a).run st₁ = .ok (b, st') := by
  rw [StateT.run_bind, bind_eq_ok] at h
  obtain ⟨⟨a, st₁⟩, ha, h⟩ := h
  exact ⟨a, st₁, ha, h⟩

lemma run_lift_eq_ok {x : Except Fault α} {a : α} (h : (liftM x : Build α).run st = .ok (a, st')) :
    x = .ok a := by
  cases x with
  | error e => cases h
  | ok b =>
    obtain ⟨rfl, -⟩ := Prod.mk.inj (Except.ok.inj h)
    rfl

lemma not_run_throw {e : Fault} {a : α} : (throw e : Build α).run st ≠ .ok (a, st') := nofun

lemma declares_of_slotOf {ref : Ref} {v : Id} (h : c.slotOf ref = .ok v) : c.proc.Declares ref := by
  rcases slotOf_eq_ok h with ⟨i, rfl, hi, -⟩ | ⟨i, rfl, hi, -⟩
  · exact hi
  · exact hi

lemma linked_of_expr {e : Expr} {i : Id} (h : (c.expr e).run st = .ok (i, st')) :
    e.Linked c.proc := by
  induction e generalizing st st' i with
  | missing =>
    rw [Scope.expr] at h
    exact absurd h not_run_throw
  | number => exact trivial
  | ident pos ref =>
    rw [Scope.expr] at h
    obtain ⟨v, st₁, hv, -⟩ := run_bind_eq_ok h
    exact declares_of_slotOf (run_lift_eq_ok hv)
  | index pos ref offset ih =>
    rw [Scope.expr, Scope.element] at h
    obtain ⟨a, st₁, ha, -⟩ := run_bind_eq_ok h
    obtain ⟨j, st₂, hj, ha⟩ := run_bind_eq_ok ha
    obtain ⟨v, st₃, hv, -⟩ := run_bind_eq_ok ha
    exact ⟨declares_of_slotOf (run_lift_eq_ok hv), ih hj⟩
  | binary pos op l r ihl ihr =>
    rw [Scope.expr] at h
    cases hrel : op.isRelational with
    | true =>
      rw [hrel] at h
      exact absurd h not_run_throw
    | false =>
      rw [hrel] at h
      obtain ⟨right, st₁, hr, h⟩ := run_bind_eq_ok h
      obtain ⟨left, st₂, hl, h⟩ := run_bind_eq_ok h
      cases hop : op.toFlow? with
      | none =>
        rw [hop] at h
        exact absurd h not_run_throw
      | some op' => exact ⟨hrel, by simp [hop], ihl hl, ihr hr⟩

lemma linkedTest_of_condition {e : Expr} {i : Id} (h : (c.condition e).run st = .ok (i, st')) :
    e.LinkedTest c.proc := by
  cases e with
  | binary pos op l r =>
    rw [Scope.condition] at h
    cases hrel : op.isRelational with
    | false =>
      rw [hrel] at h
      exact Expr.LinkedTest.of_linked (linked_of_expr h)
    | true =>
      rw [hrel] at h
      obtain ⟨right, st₁, hr, h⟩ := run_bind_eq_ok h
      obtain ⟨left, st₂, hl, h⟩ := run_bind_eq_ok h
      cases hop : op.toFlow? with
      | none =>
        rw [hop] at h
        exact absurd h not_run_throw
      | some op' => exact ⟨by simp [hop], linked_of_expr hl, linked_of_expr hr⟩
  | _ => exact Expr.LinkedTest.of_linked (linked_of_expr h)

lemma linkedTarget_of_address {e : Expr} {i : Id} (h : (c.address e).run st = .ok (i, st')) :
    e.LinkedTarget c.proc := by
  cases e with
  | ident pos ref =>
    rw [Scope.address] at h
    obtain ⟨v, st₁, hv, -⟩ := run_bind_eq_ok h
    exact declares_of_slotOf (run_lift_eq_ok hv)
  | index pos ref offset =>
    rw [Scope.address, Scope.element] at h
    obtain ⟨j, st₁, hj, h⟩ := run_bind_eq_ok h
    obtain ⟨v, st₂, hv, -⟩ := run_bind_eq_ok h
    exact ⟨declares_of_slotOf (run_lift_eq_ok hv), linked_of_expr hj⟩
  | _ => exact absurd h not_run_throw

lemma linkedArgument_of_argument {e : Expr} {i : Id} (h : c.argument e = .ok i) :
    e.LinkedArgument c.proc := by
  cases e with
  | ident pos ref => exact declares_of_slotOf h
  | _ => cases h

lemma linkedArguments_of_mapM {es : List Expr} {ids : List Id}
    (h : (es.mapM fun a => (c.argument a : Build Id)).run st = .ok (ids, st')) :
    ∀ e ∈ es, e.LinkedArgument c.proc := by
  induction es generalizing st st' ids with
  | nil => simp
  | cons e es ih =>
    rw [List.mapM_cons] at h
    obtain ⟨v, st₁, hv, h⟩ := run_bind_eq_ok h
    obtain ⟨vs, st₂, hvs, -⟩ := run_bind_eq_ok h
    intro e' he'
    rcases List.mem_cons.mp he' with rfl | he'
    · exact linkedArgument_of_argument (run_lift_eq_ok hv)
    · exact ih hvs e' he'

variable {arity : Nat → Nat → Prop}

mutual

/-- Statements that can be built are linked if their calls fit. -/
theorem linked_of_stmt (s : Stmt) {st st' : Builder} (h : (c.stmt s).run st = .ok ((), st'))
    (ha : ∀ k n, (k, n) ∈ s.calls → arity k n) : Linked arity c.proc [s] := by
  cases s with
  | missing => exact absurd h not_run_throw
  | assign pos dst src =>
    obtain ⟨d, st₁, hd, h⟩ := run_bind_eq_ok h
    obtain ⟨i, st₂, hi, -⟩ := run_bind_eq_ok h
    exact .assign (linkedTarget_of_address hd) (linked_of_expr hi) .nil
  | read pos dst =>
    cases dst with
    | ident pos' ref =>
      obtain ⟨v, st₁, hv, -⟩ := run_bind_eq_ok h
      exact .read (declares_of_slotOf (run_lift_eq_ok hv)) .nil
    | _ =>
      obtain ⟨d, st₁, hd, -⟩ := run_bind_eq_ok h
      exact .read (linkedTarget_of_address hd) .nil
  | write pos src =>
    obtain ⟨i, st₁, hi, -⟩ := run_bind_eq_ok h
    exact .write (linked_of_expr hi) .nil
  | call pos callee args =>
    cases callee with
    | none => exact absurd h not_run_throw
    | some k =>
      obtain ⟨ids, st₁, hids, -⟩ := run_bind_eq_ok h
      exact .call (ha k _ (by simp [Stmt.calls])) (linkedArguments_of_mapM hids) .nil
  | choose pos cond yes no =>
    rw [Scope.stmt] at h
    obtain ⟨thenTo, st₁, -, h⟩ := run_bind_eq_ok h
    obtain ⟨elseTo, st₂, -, h⟩ := run_bind_eq_ok h
    obtain ⟨merge, st₃, -, h⟩ := run_bind_eq_ok h
    obtain ⟨t, st₄, ht, h⟩ := run_bind_eq_ok h
    obtain ⟨⟨⟩, st₅, -, h⟩ := run_bind_eq_ok h
    obtain ⟨⟨⟩, st₆, -, h⟩ := run_bind_eq_ok h
    obtain ⟨⟨⟩, st₇, hyes, h⟩ := run_bind_eq_ok h
    obtain ⟨⟨⟩, st₈, -, h⟩ := run_bind_eq_ok h
    obtain ⟨⟨⟩, st₉, -, h⟩ := run_bind_eq_ok h
    obtain ⟨⟨⟩, st₁₀, hno, -⟩ := run_bind_eq_ok h
    exact .choose (linkedTest_of_condition ht)
      (linked_of_stmts yes hyes fun k n hk => ha k n (by simp [Stmt.calls, hk]))
      (linked_of_stmts no hno fun k n hk => ha k n (by simp [Stmt.calls, hk])) .nil
  | loop pos cond body =>
    rw [Scope.stmt] at h
    obtain ⟨head, st₁, -, h⟩ := run_bind_eq_ok h
    obtain ⟨inside, st₂, -, h⟩ := run_bind_eq_ok h
    obtain ⟨merge, st₃, -, h⟩ := run_bind_eq_ok h
    obtain ⟨⟨⟩, st₄, -, h⟩ := run_bind_eq_ok h
    obtain ⟨⟨⟩, st₅, -, h⟩ := run_bind_eq_ok h
    obtain ⟨t, st₆, ht, h⟩ := run_bind_eq_ok h
    obtain ⟨⟨⟩, st₇, -, h⟩ := run_bind_eq_ok h
    obtain ⟨⟨⟩, st₈, -, h⟩ := run_bind_eq_ok h
    obtain ⟨⟨⟩, st₉, hbody, -⟩ := run_bind_eq_ok h
    exact .loop (linkedTest_of_condition ht)
      (linked_of_stmts body hbody fun k n hk => ha k n (by simp [Stmt.calls, hk])) .nil
  | untilLoop pos body cond =>
    rw [Scope.stmt] at h
    obtain ⟨inside, st₁, -, h⟩ := run_bind_eq_ok h
    obtain ⟨merge, st₂, -, h⟩ := run_bind_eq_ok h
    obtain ⟨⟨⟩, st₃, -, h⟩ := run_bind_eq_ok h
    obtain ⟨⟨⟩, st₄, -, h⟩ := run_bind_eq_ok h
    obtain ⟨⟨⟩, st₅, hbody, h⟩ := run_bind_eq_ok h
    obtain ⟨t, st₆, ht, -⟩ := run_bind_eq_ok h
    exact .untilLoop (linkedTest_of_condition ht)
      (linked_of_stmts body hbody fun k n hk => ha k n (by simp [Stmt.calls, hk])) .nil

theorem linked_of_stmts (ss : List Stmt) {st st' : Builder}
    (h : (c.stmts ss).run st = .ok ((), st'))
    (ha : ∀ k n, (k, n) ∈ callsIn ss → arity k n) : Linked arity c.proc ss := by
  cases ss with
  | nil => exact .nil
  | cons s rest =>
    rw [Scope.stmts] at h
    obtain ⟨⟨⟩, st₁, hs, h⟩ := run_bind_eq_ok h
    have hs' := linked_of_stmt s hs fun k n hk => ha k n (by simp [callsIn, hk])
    exact hs'.append (linked_of_stmts rest h fun k n hk => ha k n (by simp [callsIn, hk]))

end

end Inversion

section Files

variable {file : File} {p : Flow.Program}

lemma build_cases {c : Scope} {q q' : Flow.Program} (h : c.build q = .ok q') :
    ∃ f st st₁ st₂ i, q.funcs[c.number]? = some f ∧
      st.program = { funcs := q.funcs.setIfInBounds c.number (c.proc.declare f) } ∧
      (c.stmts c.proc.body).run st = .ok ((), st₁) ∧
      (c.emit c.proc.pos (if c.proc.isMain then .stop else .ret)).run st₁ = .ok (i, st₂) ∧
      q' = st₂.program := by
  unfold Scope.build at h
  obtain ⟨q₁, hq₁, h⟩ := bind_eq_ok.mp h
  obtain ⟨m, f, f', hm, hf, hf', rfl⟩ := update_eq_ok.mp hq₁
  obtain rfl : c.number = m := by exact_mod_cast hm
  cases hf'
  obtain ⟨g, -, h⟩ := bind_eq_ok.mp h
  obtain ⟨⟨⟨⟩, st'⟩, hrun, h⟩ := bind_eq_ok.mp h
  cases h
  obtain ⟨⟨⟩, st₁, hstmts, hrun⟩ := run_bind_eq_ok hrun
  obtain ⟨i, st₂, hemit, hrun⟩ := run_bind_eq_ok (m := c.emit _ _) (k := fun _ => pure ()) hrun
  cases hrun
  exact ⟨f, _, st₁, st', i, hf, rfl, hstmts, hemit, rfl⟩

lemma build_of_foldlM {l : List (Proc × Nat)} {q q' : Flow.Program}
    (h : l.foldlM (fun p (d, k) => Scope.build ⟨k, d⟩ p) q = .ok q') {d : Proc} {k : Nat}
    (hd : (d, k) ∈ l) : ∃ q₁ q₂, Scope.build ⟨k, d⟩ q₁ = .ok q₂ := by
  induction l generalizing q with
  | nil => cases hd
  | cons e l ih =>
    rw [List.foldlM_cons, bind_eq_ok] at h
    obtain ⟨q₁, hq₁, h⟩ := h
    rcases List.mem_cons.mp hd with rfl | hd
    · exact ⟨q, q₁, hq₁⟩
    · exact ih h hd

lemma foldlM_of_build (h : file.build = .ok (.ok p)) :
    file.decls.countP (·.isMain) = 1 ∧
      file.decls.zipIdx.foldlM (fun p (d, k) => Scope.build ⟨k, d⟩ p)
        { funcs := (file.decls.map fun d =>
          { name := d.name, isMain := d.isMain, loc := d.pos : Flow.Func }).toArray } = .ok p := by
  unfold File.build at h
  by_cases hmain : file.decls.countP (·.isMain) = 1
  · rw [if_neg (by simpa using hmain)] at h
    obtain ⟨q, hq, h⟩ := bind_eq_ok.mp h
    cases h
    exact ⟨hmain, hq⟩
  · rw [if_pos (by simpa using hmain)] at h
    cases h

lemma sensible_of_build (h : file.build = .ok (.ok p)) (hcalls : file.Calling) : file.Sensible := by
  obtain ⟨hmain, hfold⟩ := foldlM_of_build h
  refine ⟨hmain, fun {k d} hd => ?_⟩
  obtain ⟨q₁, q₂, hbuild⟩ := build_of_foldlM hfold (List.mk_mem_zipIdx_iff_getElem?.mpr hd)
  obtain ⟨-, st, st', -, -, -, -, hstmts, -⟩ := build_cases hbuild
  refine linked_of_stmts (c := ⟨k, d⟩) d.body hstmts fun m n hm => ?_
  have hne : m ≠ k := by
    rintro rfl
    exact hcalls.acyclic m (.single ⟨d, n, hd, hm⟩)
  exact ⟨hne, hcalls.arity hd hm⟩

lemma renders_of_build (h : file.build = .ok (.ok p)) (hcalls : file.Calling)
    (division : Word.Division) : Renders ⟨file, division⟩ ⟨p, division⟩ := by
  obtain ⟨p', hp', hsize, hfuncs⟩ := (sensible_of_build h hcalls).build
  obtain rfl : p' = p := Except.ok.inj (Except.ok.inj (hp'.symm.trans h))
  exact ⟨rfl, hsize, hfuncs⟩

lemma main?_eq (p : Flow.Program) : p.main? = (p.funcs.toList.map (·.isMain)).findIdx? id := by
  have hlist : p.main? = p.funcs.toList.findIdx? (·.isMain) := by
    rw [Flow.Program.main?, ← List.findIdx?_toArray, Array.toArray_toList]
  rw [hlist, List.findIdx?_map]
  rfl

lemma Renders.main? {r : Reading} {R : Flow.Reading} (hR : Renders r R) :
    R.program.main? = r.file.main? := by
  have hmap : R.program.funcs.toList.map (·.isMain) = r.file.decls.map (·.isMain) := by
    refine List.ext_getElem? fun k => ?_
    rw [List.getElem?_map, List.getElem?_map, Array.getElem?_toList]
    cases hd : r.file.decls[k]? with
    | none =>
      have hnone : R.program.funcs[k]? = none := by
        rw [Array.getElem?_eq_none_iff, hR.size]
        exact List.getElem?_eq_none_iff.mp hd
      rw [hnone]
      rfl
    | some d =>
      obtain ⟨f, hf, hb⟩ := hR.funcs hd
      rw [hf, Option.map_some, Option.map_some, hb.isMain]
  rw [main?_eq, hmap, File.main?, List.findIdx?_map]
  rfl

end Files

/-- Both runs are over, in the same way, with the same input left and the same output. -/
def SameEnd (x : Except Interrupt Unit × World UInt64)
    (y : Except Interrupt Flow.Ending × Progress) : Prop :=
  y.1 = x.1.map (fun _ => .stopped) ∧ y.2.world.input = x.2.input ∧ y.2.world.output = x.2.output

lemma SameEnd.unfinished {x : Except Interrupt Unit × World UInt64}
    {y : Except Interrupt Flow.Ending × Progress} (h : SameEnd x y) : Unfinished y ↔ Unfinished x := by
  unfold Unfinished
  rw [h.1]
  rcases x with ⟨e | ⟨⟩, w⟩
  · exact ⟨fun h => congrArg _ (Except.error.inj h), fun h => congrArg _ (Except.error.inj h)⟩
  · exact ⟨nofun, nofun⟩

section Runs

variable {r : Reading} {R : Flow.Reading} {k : Nat} {d : Proc} {words : List UInt64}

lemma Reading.runGiven_eq (hmain : r.file.main? = some k) (hd : r.file.decls[k]? = some d)
    (given : Nat → Object) (n : Nat) (words : List UInt64) :
    r.runGiven given n words =
      (r.exec n (.opening given k d) d.body).run (World.start 0 words) := by
  unfold Reading.runGiven
  rw [hmain, run_bind_ok (run_required_some _ _), hd, run_bind_ok (run_required_some _ _)]

lemma flow_runGiven_eq (hmain : R.program.main? = some k) {f : Flow.Func}
    (hf : R.program.funcs[k]? = some f) (given : Nat → Object) (n : Nat) (words : List UInt64) :
    R.runGiven given n words =
      (R.block n k f.entry).run { world := R.givenWorld k given words } := by
  unfold Flow.Reading.runGiven
  rw [hmain]
  exact Flow.Reading.runFunc_some hf n _

lemma byRef_eq {f : Flow.Func} (hd : r.file.decls[k]? = some d) (hb : Built r.file k d f) (i : Nat) :
    (f.varOf? i).any (·.byRef) = r.file.isReference ⟨k, i⟩ := by
  rw [isReference_of_proc hd, hb.vars, if_pos (Int.natCast_nonneg i), Int.toNat_natCast]
  rcases Nat.lt_or_ge i d.params.length with hi | hi
  · rw [vars_getElem?_param (List.getElem?_eq_getElem hi), List.getElem?_eq_getElem hi]
    rfl
  · rw [List.getElem?_eq_none hi]
    obtain ⟨j, rfl⟩ := Nat.exists_eq_add_of_le hi
    cases hx : d.locals[j]? with
    | some x =>
      rw [vars_getElem?_local hx]
      rfl
    | none =>
      have hnone : d.vars[d.params.length + j]? = none := by
        rw [List.getElem?_eq_none_iff] at hx ⊢
        rw [length_vars]
        omega
      rw [hnone]
      rfl

lemma givenWorld_cells {f : Flow.Func} (hd : r.file.decls[k]? = some d)
    (hf : R.program.funcs[k]? = some f) (hb : Built r.file k d f) (given : Nat → Object)
    (words : List UInt64) (c : Cell) :
    (R.givenWorld k given words).cells c =
      if c.object.func = k ∧ r.file.isReference c.object = true then .addr ⟨given c.object.var, 0⟩
      else .word 0 := by
  have hvar : ((R.program.funcs[k]?).bind fun f => f.varOf? c.object.var).any (·.byRef) =
      r.file.isReference ⟨k, c.object.var⟩ := by
    rw [hf]
    exact byRef_eq hd hb c.object.var
  unfold Flow.Reading.givenWorld
  dsimp only
  rw [hvar]
  obtain ⟨⟨j, i⟩, offset⟩ := c
  by_cases hj : j = k
  · subst hj
    rfl
  · simp [hj]

lemma bound_opening {f : Flow.Func} (hd : r.file.decls[k]? = some d)
    (hf : R.program.funcs[k]? = some f) (hb : Built r.file k d f) {given : Nat → Object}
    (hgiven : ∀ i, r.file.isReference (given i) = false) :
    Bound r.file (.opening given k d) (R.givenWorld k given words) := by
  have hparam : ∀ {i : Nat} {p : Param} {o : Object}, d.params[i]? = some p →
      (Activation.opening given k d).params[i]? = some o → o = if p.isRef then given i else ⟨k, i⟩ := by
    intro i p o hp ho
    rw [Activation.opening, List.getElem?_mapIdx, hp] at ho
    exact (Option.some.inj ho).symm
  refine ⟨hd, by simp [Activation.opening], fun {i p o} hp ho hr => ?_, fun {i p o} hp ho hr => ?_⟩
  · have hreference : r.file.isReference ⟨k, i⟩ = true := by
      rw [isReference_of_proc hd, show d.params[i]? = some p from hp]
      exact hr
    rw [hparam hp ho, if_pos hr]
    refine ⟨?_, hgiven i⟩
    rw [givenWorld_cells hd hf hb]
    exact if_pos ⟨rfl, hreference⟩
  · rw [hparam hp ho, if_neg (by simp [hr])]
    rfl

lemma mirrors_opening {f : Flow.Func} (hd : r.file.decls[k]? = some d)
    (hf : R.program.funcs[k]? = some f) (hb : Built r.file k d f) (given : Nat → Object) :
    Mirrors r.file (World.start 0 words) (R.givenWorld k given words) := by
  refine ⟨fun c hc => ?_, rfl, rfl⟩
  rw [givenWorld_cells hd hf hb, if_neg (by simp [hc])]
  rfl

lemma run_stop {a : Activation} {f : Flow.Func} {b : BlockId} {l : List Id} {i : Id}
    {w : World UInt64} {q : Point} (hq : StandsAt r a f b l w q)
    (hb : Built r.file a.number a.proc f) (hi : f.live? i = some .stop) (hw : Within f b (l ++ [i]))
    (m : Nat) : q.run R m = (.ok .stopped, q.progress) := by
  obtain ⟨rest, hcode, -⟩ := hq.rest hb hw
  have hpay : q.activation.func.payload i = .ok .stop := by
    rw [hq.func]
    exact Flow.Func.payload_of_live hi
  rw [Point.run, hcode, List.singleton_append, Flow.Reading.exec_stop hpay]
  rfl

/-- At each depth the tree either is not done, and then neither is the code, or the code ends the
same way at some depth. -/
lemma Renders.runGiven (hR : Renders r R) (hcalls : r.file.Calling)
    (hone : r.file.decls.countP (·.isMain) = 1) {given : Nat → Object}
    (hgiven : ∀ i, r.file.isReference (given i) = false) (n : Nat) (words : List UInt64) :
    (Unfinished (r.runGiven given n words) → Unfinished (R.runGiven given n words)) ∧
      (¬ Unfinished (r.runGiven given n words) →
        ∃ m, SameEnd (r.runGiven given n words) (R.runGiven given m words)) := by
  obtain ⟨k, d, hmain, hd, hisMain⟩ := File.exists_main hone
  obtain ⟨f, hf, hb⟩ := hR.funcs hd
  obtain ⟨b, l, i, hflows, hi, hwithin⟩ := hb.body
  obtain ⟨code, hcode⟩ := Option.isSome_iff_exists.mp hb.orderly.entry
  have hrun := flow_runGiven_eq (hR.main?.trans hmain) hf given
  rw [Reading.runGiven_eq hmain hd]
  set a : Activation := .opening given k d with ha
  cases n with
  | zero => exact ⟨fun _ => by rw [hrun]; rfl, fun h => absurd rfl h⟩
  | succ n =>
    set c : Point := ⟨{ number := k, func := f }, code,
      entering { world := R.givenWorld k given words } k f.entry⟩ with hc
    have hdeeper : ∀ m, R.runGiven given (m + 1) words = c.run R m := by
      intro m
      rw [hrun, Flow.Reading.run_block_succ hf hcode]
      rfl
    have hnot : ∀ m e, Relation.TransGen r.file.Calls k m → r.file.decls[m]? = some e →
        e.isMain = false := by
      intro m e hm he
      by_contra hne
      obtain rfl := eq_of_countP_eq_one hone he (by simpa using hne) hd hisMain
      exact hcalls.acyclic m hm
    have hat : StandsAt r a f f.entry [] (World.start 0 words) c :=
      ⟨rfl, rfl, hcode, bound_opening hd hf hb hgiven, mirrors_opening hd hf hb given⟩
    have hsim : Simulates R c n (Arrives r a f b l c.progress.world)
        ((r.stmts (r.exec n) a d.body).run (World.start 0 words)) :=
      doesBody hR hcalls n hnot a f b l rfl hd hf hb hflows _ c hat
    rw [hisMain, if_pos rfl] at hi
    rw [Reading.exec, hdeeper]
    rcases htree : (r.stmts (r.exec n) a d.body).run (World.start 0 words) with ⟨e | ⟨⟩, w⟩
    · rw [htree] at hsim
      refine ⟨fun hun => hsim.1 (Except.error.inj hun), fun hfin => ?_⟩
      obtain ⟨m, s, hm, hin, hout⟩ := hsim.2 fun he => hfin (by rw [he]; rfl)
      exact ⟨m + 1, by rw [hdeeper, hm]; exact ⟨rfl, hin, hout⟩⟩
    · rw [htree] at hsim
      refine ⟨fun hun => absurd hun (by simp [Unfinished]), fun _ => ?_⟩
      obtain ⟨q, hleads, hq, -⟩ := hsim
      have hstop := run_stop hq hb hi hwithin (R := R)
      obtain ⟨m, hm⟩ := hleads.ends 0 (by rw [hstop]; simp [Unfinished])
      refine ⟨m + 1, ?_⟩
      rw [hdeeper, hm, hstop]
      exact ⟨rfl, hq.mirrors.input, hq.mirrors.output⟩

lemma Reading.runGiven_eq_run (hmain : r.file.main? = some k) (hd : r.file.decls[k]? = some d)
    (hparams : ∀ p ∈ d.params, p.isRef = false) (given : Nat → Object) (n : Nat)
    (words : List UInt64) : r.runGiven given n words = r.run n words := by
  have hopening : Activation.opening given k d =
      ⟨k, d, (List.range d.params.length).map (⟨k, ·⟩)⟩ := by
    refine congrArg (Activation.mk k d) (List.ext_getElem? fun i => ?_)
    rw [List.getElem?_mapIdx, List.getElem?_map]
    rcases Nat.lt_or_ge i d.params.length with hi | hi
    · rw [List.getElem?_eq_getElem hi, List.getElem?_range hi]
      simp [hparams _ (List.getElem_mem hi)]
    · rw [List.getElem?_eq_none hi, List.getElem?_eq_none (by simpa using hi)]
      rfl
  rw [Reading.runGiven_eq hmain hd, hopening]
  unfold Reading.run
  rw [hmain, run_bind_ok (run_required_some _ _), hd, run_bind_ok (run_required_some _ _)]

lemma flow_runGiven_eq_run {f : Flow.Func} (hmain : R.program.main? = some k)
    (hd : r.file.decls[k]? = some d) (hf : R.program.funcs[k]? = some f) (hb : Built r.file k d f)
    (hparams : ∀ p ∈ d.params, p.isRef = false) (given : Nat → Object) (n : Nat)
    (words : List UInt64) : R.runGiven given n words = R.run n words := by
  have hworld : R.givenWorld k given words = World.start (.word 0) words := by
    refine congrArg (fun cells => World.mk cells words #[]) (funext fun c => ?_)
    refine (givenWorld_cells hd hf hb given words c).trans (if_neg ?_)
    rintro ⟨hk, hreference⟩
    obtain ⟨⟨j, i⟩, offset⟩ := c
    obtain rfl : j = k := hk
    rw [isReference_of_proc hd, Option.any_eq_true] at hreference
    obtain ⟨p, hp, hr⟩ := hreference
    exact Bool.false_ne_true ((hparams p (List.mem_of_getElem? hp)).symm.trans hr)
  unfold Flow.Reading.runGiven Flow.Reading.run
  rw [hmain]
  exact congrArg (R.runFunc n k) hworld

lemma Renders.run (hR : Renders r R) (hcalls : r.file.Calling)
    (hone : r.file.decls.countP (·.isMain) = 1)
    (hparams : ∀ d ∈ r.file.decls, d.isMain = true → ∀ p ∈ d.params, p.isRef = false)
    (n : Nat) (words : List UInt64) :
    (Unfinished (r.run n words) → Unfinished (R.run n words)) ∧
      (¬ Unfinished (r.run n words) → ∃ m, SameEnd (r.run n words) (R.run m words)) := by
  obtain ⟨k, d, hmain, hd, hisMain⟩ := File.exists_main hone
  obtain ⟨f, hf, hb⟩ := hR.funcs hd
  have hvalues := hparams d (List.mem_of_getElem? hd) hisMain
  have hnobody : ∀ i : Nat, r.file.isReference ⟨r.file.decls.length, i⟩ = false := by
    simp [File.isReference]
  have hruns := hR.runGiven hcalls hone hnobody n words
  rw [Reading.runGiven_eq_run hmain hd hvalues] at hruns
  have hflow := flow_runGiven_eq_run (hR.main?.trans hmain) hd hf hb hvalues
    fun i => ⟨r.file.decls.length, i⟩
  simpa only [hflow] using hruns

/-- A program that is built from a tree has the meaning of the tree. Calls have to fit and not to
recurse. The main program has no caller: its parameters by reference hold the addresses of any variables
that are not such parameters themselves. Then the one comes to an end exactly if the other does, in the
same way, with the same output and the same input left. -/
theorem build_keeps_meaning {file : File} {p : Flow.Program} (hbuild : file.build = .ok (.ok p))
    (hcalls : file.Calling) (division : Word.Division) {given : Nat → Object}
    (hgiven : ∀ i, file.isReference (given i) = false) (words : List UInt64) :
    (∀ n, ¬ Unfinished (Reading.runGiven ⟨file, division⟩ given n words) →
      ∃ m, SameEnd (Reading.runGiven ⟨file, division⟩ given n words)
        (Flow.Reading.runGiven ⟨p, division⟩ given m words)) ∧
    ∀ m, ¬ Unfinished (Flow.Reading.runGiven ⟨p, division⟩ given m words) →
      ∃ n, SameEnd (Reading.runGiven ⟨file, division⟩ given n words)
        (Flow.Reading.runGiven ⟨p, division⟩ given m words) := by
  have hR := renders_of_build hbuild hcalls division
  have hone := (sensible_of_build hbuild hcalls).main
  have hrun := fun n => hR.runGiven hcalls hone hgiven n words
  refine ⟨fun n hn => (hrun n).2 hn, fun m hm => ?_⟩
  have hfin : ¬ Unfinished (Reading.runGiven ⟨file, division⟩ given m words) :=
    fun h => hm ((hrun m).1 h)
  obtain ⟨m', hsame⟩ := (hrun m).2 hfin
  have hfin' : ¬ Unfinished (Flow.Reading.runGiven ⟨p, division⟩ given m' words) :=
    fun h => hfin (hsame.unfinished.mp h)
  exact ⟨m, by rwa [Flow.Reading.runGiven_eq_of_finished hm hfin']⟩

/-- A program that doubles what it reads until that is at least a hundred. The doubling is done by a
procedure with a parameter by reference, and the main program passes on such a parameter of its own. -/
def doubling : File :=
  { decls := [
      { name := "double"
        params := [{ name := "x" }]
        body := [.assign {} (.ident {} (.param 0))
          (.binary {} .add (.ident {} (.param 0)) (.ident {} (.param 0)))] },
      { name := "main"
        isMain := true
        params := [{ name := "n" }]
        body := [.read {} (.ident {} (.param 0)),
          .loop {} (.binary {} .lt (.ident {} (.param 0)) (.number {} 100))
            [.call {} (some 0) [.ident {} (.param 0)]],
          .write {} (.ident {} (.param 0))] }] }

lemma doubling_calls {k m n : Nat} {d : Proc} (hd : doubling.decls[k]? = some d)
    (h : (m, n) ∈ callsIn d.body) : k = 1 ∧ m = 0 ∧ n = 1 := by
  match k with
  | 0 =>
    obtain rfl := Option.some.inj hd
    simp [callsIn, Stmt.calls] at h
  | 1 =>
    obtain rfl := Option.some.inj hd
    simpa [callsIn, Stmt.calls] using h
  | k + 2 => cases hd

lemma doubling_calling : doubling.Calling := by
  refine ⟨fun hd h => ?_, fun k hk => ?_⟩
  · obtain ⟨-, rfl, rfl⟩ := doubling_calls hd h
    rfl
  · have hlt : ∀ {k m}, Relation.TransGen doubling.Calls k m → m < k := by
      intro k m h
      induction h with
      | single h =>
        obtain ⟨d, n, hd, hn⟩ := h
        obtain ⟨rfl, rfl, -⟩ := doubling_calls hd hn
        exact Nat.one_pos
      | tail _ h ih =>
        obtain ⟨d, n, hd, hn⟩ := h
        obtain ⟨rfl, rfl, -⟩ := doubling_calls hd hn
        omega
    exact Nat.lt_irrefl k (hlt hk)

lemma doubling_sensible : doubling.Sensible := by
  refine ⟨by decide, fun {k d} hd => ?_⟩
  match k with
  | 0 =>
    obtain rfl := Option.some.inj hd
    exact .assign Nat.one_pos ⟨rfl, rfl, Nat.one_pos, Nat.one_pos⟩ .nil
  | 1 =>
    obtain rfl := Option.some.inj hd
    refine .read Nat.one_pos (.loop ⟨rfl, Nat.one_pos, trivial⟩
      (.call ⟨Nat.zero_ne_one, rfl⟩ (fun e he => ?_) .nil) (.write Nat.one_pos .nil))
    obtain rfl := List.mem_singleton.mp he
    exact Nat.one_pos
  | k + 2 => cases hd

/-- A variable of no procedure. -/
def nobodys (i : Nat) : Object := ⟨2, i⟩

/-- The example is built, and the flow program writes what the tree writes. -/
theorem doubling_keeps_meaning :
    ∃ p, doubling.build = .ok (.ok p) ∧ doubling.Calling ∧
      (∀ i, doubling.isReference (nobodys i) = false) ∧
      (Reading.runGiven ⟨doubling, Word.exact⟩ nobodys 8 [13, 1]).1 = .ok () ∧
      (Reading.runGiven ⟨doubling, Word.exact⟩ nobodys 8 [13, 1]).2.output = #[104] ∧
      ∃ m, (Flow.Reading.runGiven ⟨p, Word.exact⟩ nobodys m [13, 1]).1 = .ok .stopped ∧
        (Flow.Reading.runGiven ⟨p, Word.exact⟩ nobodys m [13, 1]).2.world.output = #[104] ∧
        (Flow.Reading.runGiven ⟨p, Word.exact⟩ nobodys m [13, 1]).2.world.input = [1] := by
  obtain ⟨p, hp, -⟩ := doubling_sensible.build
  have hnobodys : ∀ i, doubling.isReference (nobodys i) = false := fun _ => rfl
  have hok : (Reading.runGiven ⟨doubling, Word.exact⟩ nobodys 8 [13, 1]).1 = .ok () := by
    decide +kernel
  have hout : (Reading.runGiven ⟨doubling, Word.exact⟩ nobodys 8 [13, 1]).2.output = #[104] := by
    decide +kernel
  have hin : (Reading.runGiven ⟨doubling, Word.exact⟩ nobodys 8 [13, 1]).2.input = [1] := by
    decide +kernel
  obtain ⟨m, hend, hleft, hsame⟩ := (build_keeps_meaning hp doubling_calling Word.exact hnobodys
    [13, 1]).1 8 (by rw [Unfinished, hok]; simp)
  exact ⟨p, hp, doubling_calling, hnobodys, hok, hout, m, by rw [hend, hok]; rfl, hsame.trans hout,
    hleft.trans hin⟩

end Runs

end Accumulator.Tree
