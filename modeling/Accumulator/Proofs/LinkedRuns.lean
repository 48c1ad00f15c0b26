import Mathlib
import Accumulator.Proofs.Linked
import Accumulator.Tree.Run

/-!
# Runs of linked trees

In a tree that was linked every name has a variable, every operator a meaning and every call a
procedure that takes the arguments. So a run of it never meets a part without meaning: if it stops
before its end, then for want of input, or because of an index or a division.
-/

namespace Accumulator

/-- What stops a run of a program that makes sense. A division only stops it if it has no answer. -/
def Interrupt.Apt (d : Word.Division) : Interrupt → Prop
  | .senseless => False
  | .division x y => d x y = none
  | _ => True

/-- A run that makes sense. Its answer is as `Q` says. -/
def Exec.Meets {σ α : Type} (d : Word.Division) (Q : α → Prop) (x : Exec σ α) : Prop :=
  ∀ s, match (x.run s).1 with
    | .ok v => Q v
    | .error e => e.Apt d

namespace Exec.Meets

variable {σ α β : Type} {d : Word.Division} {Q : α → Prop} {P : β → Prop} {x : Exec σ α}

lemma pure {v : α} (hv : Q v) : Meets d Q (pure v : Exec σ α) := fun _ => hv

lemma throw {e : Interrupt} (he : e.Apt d) : Meets d Q (throw e : Exec σ α) := fun _ => he

lemma bind {f : α → Exec σ β} (hx : Meets d Q x) (hf : ∀ v, Q v → Meets d P (f v)) :
    Meets d P (x >>= f) := by
  intro s
  have hs := hx s
  rcases hrun : x.run s with ⟨e | v, t⟩ <;> rw [hrun] at hs
  · rw [run_bind_error hrun]
    exact hs
  · rw [run_bind_ok hrun]
    exact hf v hs t

lemma seq {f : α → Exec σ β} (hx : Meets d (fun _ => True) x) (hf : ∀ v, Meets d P (f v)) :
    Meets d P (x >>= f) :=
  hx.bind fun v _ => hf v

lemma required {o : Option α} (ho : o.isSome = true) :
    Meets d (fun _ => True) (Exec.required o : Exec σ α) := by
  obtain ⟨v, rfl⟩ := Option.isSome_iff_exists.mp ho
  exact pure trivial

end Exec.Meets

namespace Tree

open Exec (Meets)

section Runs

variable {r : Reading} {a : Activation} {again : Activation → List Stmt → Exec Unit}

lemma meets_get (c : Cell) : Meets r.division (fun _ => True) (Reading.get c) := fun _ => trivial

lemma meets_put (c : Cell) (v : UInt64) : Meets r.division (fun _ => True) (Reading.put c v) :=
  fun _ => trivial

lemma meets_output (v : UInt64) : Meets r.division (fun _ => True) (Reading.output v) :=
  fun _ => trivial

lemma meets_input : Meets r.division (fun _ => True) Reading.input := by
  unfold Reading.input
  refine Meets.seq (fun _ => trivial) fun w => ?_
  split
  · exact .throw trivial
  · exact Meets.seq (fun _ => trivial) fun _ => .pure trivial

lemma meets_element (o : Object) (i : UInt64) : Meets r.division (fun _ => True) (r.element o i) := by
  unfold Reading.element
  split
  · exact .pure trivial
  · exact .throw trivial

lemma meets_divide (v w : UInt64) :
    Meets r.division (fun _ => True) (Exec.divide r.division v w : Exec (UInt64 × UInt64)) := by
  unfold Exec.divide
  split
  · exact .pure trivial
  · next hnone => exact .throw hnone

lemma meets_operate {op : Op} (hrel : op.isRelational = false) (hop : op.toFlow?.isSome) (x y : UInt64) :
    Meets r.division (fun _ => True) (r.operate op x y) := by
  cases op with
  | add => exact .pure trivial
  | sub => exact .pure trivial
  | mul => exact .pure trivial
  | div => exact (meets_divide x y).seq fun _ => .pure trivial
  | mod => exact (meets_divide x y).seq fun _ => .pure trivial
  | unknown n => cases hop
  | _ => cases hrel

lemma meets_object (ha : a.params.length = a.proc.params.length) {ref : Ref}
    (href : a.proc.Declares ref) :
    Meets r.division (fun _ => True) (Exec.required (a.object? ref) : Exec Object) := by
  refine .required ?_
  cases ref with
  | param i =>
    have hi : i < a.params.length := ha ▸ href
    simp [Activation.object?, hi]
  | localVar i =>
    have hi : i < a.proc.locals.length := href
    simp [Activation.object?, hi]
  | _ => exact href.elim

lemma meets_value (ha : a.params.length = a.proc.params.length) {e : Expr} (he : e.Linked a.proc) :
    Meets r.division (fun _ => True) (r.value a e) := by
  induction e with
  | missing => exact he.elim
  | number => exact .pure trivial
  | ident pos ref =>
    rw [Reading.value]
    exact (meets_object ha he).seq fun o => meets_get _
  | index pos ref offset ih =>
    rw [Reading.value]
    exact (ih he.2).seq fun i => (meets_object ha he.1).seq fun o => (meets_element o i).seq meets_get
  | binary pos op l l' ihl ihr =>
    obtain ⟨hrel, hop, hl, hr⟩ := he
    rw [Reading.value]
    exact (ihr hr).seq fun y => (ihl hl).seq fun x => meets_operate hrel hop x y

lemma meets_holds (ha : a.params.length = a.proc.params.length) {e : Expr}
    (he : e.LinkedTest a.proc) : Meets r.division (fun _ => True) (r.holds a e) := by
  have hvalue : ∀ {e : Expr}, e.Linked a.proc →
      Meets r.division (fun _ => True) (do return decide (0 < (← r.value a e)) : Exec Bool) :=
    fun he => (meets_value ha he).seq fun v => .pure trivial
  cases e with
  | binary pos op l l' =>
    obtain ⟨hop, hl, hr⟩ := he
    rw [Reading.holds]
    cases hrel : op.isRelational with
    | true =>
      refine (meets_value ha hr).seq fun y => (meets_value ha hl).seq fun x =>
        .required ?_
      cases op with
      | unknown n => cases hop
      | add => cases hrel
      | sub => cases hrel
      | mul => cases hrel
      | div => cases hrel
      | mod => cases hrel
      | _ => rfl
    | false => exact hvalue ⟨hrel, hop, hl, hr⟩
  | _ => exact hvalue he

lemma meets_place (ha : a.params.length = a.proc.params.length) {e : Expr}
    (he : e.LinkedTarget a.proc) : Meets r.division (fun _ => True) (r.place a e) := by
  cases e with
  | ident pos ref => exact (meets_object ha he).seq fun o => .pure trivial
  | index pos ref offset =>
    exact (meets_value ha he.2).seq fun i => (meets_object ha he.1).seq fun o => meets_element o i
  | _ => exact he.elim

lemma meets_argument (ha : a.params.length = a.proc.params.length) {e : Expr}
    (he : e.LinkedArgument a.proc) : Meets r.division (fun _ => True) (Reading.argument a e) := by
  cases e with
  | ident pos ref => exact meets_object ha he
  | _ => exact he.elim

lemma meets_pass (ha : a.params.length = a.proc.params.length) (k : Nat) {params : List Param}
    {args : List Expr} (hlen : args.length = params.length)
    (hargs : ∀ e ∈ args, e.LinkedArgument a.proc) (i : Nat) :
    Meets r.division (fun os => os.length = params.length) (Reading.pass a k i params args) := by
  induction params generalizing args i with
  | nil =>
    obtain rfl := List.length_eq_zero_iff.mp hlen
    exact .pure rfl
  | cons p params ih =>
    obtain ⟨e, args, rfl⟩ := List.exists_cons_of_length_eq_add_one hlen
    have hrest := ih (by simpa using hlen) (fun e he => hargs e (by simp [he])) (i + 1)
    rw [Reading.pass]
    refine (meets_argument ha (hargs e (by simp))).seq fun o => ?_
    split
    · exact hrest.bind fun os hos => .pure (by simp [hos])
    · refine (meets_get _).seq fun v => (meets_put _ v).seq fun _ => ?_
      exact hrest.bind fun os hos => .pure (by simp [hos])

/-- One step deeper: the statements of a procedure, given that called bodies and further rounds make
sense. -/
lemma meets_stmts (hfile : r.file.Sensible) {ss : List Stmt}
    (hagain : ∀ a' ss', a'.params.length = a'.proc.params.length →
      Linked (r.file.arity a'.number) a'.proc ss' → Meets r.division (fun _ => True) (again a' ss'))
    (ha : a.params.length = a.proc.params.length) (hss : Linked (r.file.arity a.number) a.proc ss) :
    Meets r.division (fun _ => True) (r.stmts again a ss) := by
  induction hss with
  | nil => exact .pure trivial
  | assign hdst hsrc _ ih =>
    rw [Reading.stmts, Reading.stmt]
    refine Meets.seq ?_ fun _ => ih
    exact (meets_place ha hdst).seq fun c => (meets_value ha hsrc).seq (meets_put c)
  | read hdst _ ih =>
    rw [Reading.stmts, Reading.stmt]
    refine Meets.seq ?_ fun _ => ih
    exact (meets_place ha hdst).seq fun c => meets_input.seq (meets_put c)
  | write hsrc _ ih =>
    rw [Reading.stmts, Reading.stmt]
    refine Meets.seq ?_ fun _ => ih
    exact (meets_value ha hsrc).seq meets_output
  | @call pos k args rest harity hargs _ ih =>
    rw [Reading.stmts, Reading.stmt]
    refine Meets.seq ?_ fun _ => ih
    obtain ⟨d, hd, hlen⟩ : ∃ d, r.file.decls[k]? = some d ∧ args.length = d.params.length := by
      obtain ⟨d, hd, hlen⟩ := Option.map_eq_some_iff.mp harity.2
      exact ⟨d, hd, hlen.symm⟩
    simp only [Exec.required, pure_bind, hd]
    refine (meets_pass ha k hlen hargs 0).bind fun os hos => ?_
    exact hagain ⟨k, d, os⟩ d.body hos (hfile.bodies hd)
  | @choose pos cond yes no rest hcond _ _ _ ihyes ihno ih =>
    rw [Reading.stmts, Reading.stmt]
    refine Meets.seq ?_ fun _ => ih
    refine (meets_holds ha hcond).seq fun b => ?_
    split
    · exact ihyes
    · exact ihno
  | @loop pos cond body rest hcond hbody _ ihbody ih =>
    rw [Reading.stmts, Reading.stmt]
    refine Meets.seq ?_ fun _ => ih
    refine (meets_holds ha hcond).seq fun b => ?_
    split
    · exact ihbody.seq fun _ => hagain a _ ha (.loop hcond hbody .nil)
    · exact .pure trivial
  | @untilLoop pos cond body rest hcond hbody _ ihbody ih =>
    rw [Reading.stmts, Reading.stmt]
    refine Meets.seq ?_ fun _ => ih
    refine ihbody.seq fun _ => (meets_holds ha hcond).seq fun b => ?_
    split
    · exact .pure trivial
    · exact hagain a _ ha (.untilLoop hcond hbody .nil)

lemma meets_exec (hfile : r.file.Sensible) (n : Nat) {ss : List Stmt}
    (ha : a.params.length = a.proc.params.length) (hss : Linked (r.file.arity a.number) a.proc ss) :
    Meets r.division (fun _ => True) (r.exec n a ss) := by
  induction n generalizing a ss with
  | zero => exact .throw trivial
  | succ n ih => exact meets_stmts hfile (fun a' ss' ha' hss' => ih ha' hss') ha hss

/-- If a run of a sensible program stops before its end, then at no part without meaning, and at a
division only if that has no answer. -/
theorem File.Sensible.apt_of_run (hfile : r.file.Sensible) {n : Nat} {words : List UInt64}
    {e : Interrupt} (h : (r.run n words).1 = .error e) : e.Apt r.division := by
  obtain ⟨k, d, hmain, hd, -⟩ := File.exists_main hfile.main
  have hmeets : Meets r.division (fun _ => True)
      (r.exec n ⟨k, d, (List.range d.params.length).map (⟨k, ·⟩)⟩ d.body) :=
    meets_exec hfile n (by simp) (hfile.bodies hd)
  have hrun := hmeets (World.start 0 words)
  unfold Reading.run at h
  rw [hmain, Exec.run_bind_ok (Exec.run_required_some _ _), hd,
    Exec.run_bind_ok (Exec.run_required_some _ _)] at h
  rw [h] at hrun
  exact hrun

end Runs

end Tree

end Accumulator
