import Mathlib
import Accumulator.Proofs.Agree

/-!
# Runs that leave objects alone

A run cannot write to an object of which nothing holds the address, unless it names it. `Spares`
says this of a run: from a world in which no cell points to the objects in `H` it leaves their
contents as they are, and again no cell points to them. Functions from which no chain of calls leads
to the owner of the objects have such runs.
-/

namespace Accumulator.Flow

/-- A call in the code of function number `i` of which the callee is number `j`. -/
def Program.Calls (p : Program) (i j : Nat) : Prop :=
  ∃ f b code u args, p.funcs[i]? = some f ∧ f.code b = .ok code ∧ u ∈ code ∧
    f.payload u = .ok (.call (j : Int) args)

lemma Program.Calls.slot {p : Program} {f : Func} {k j : Nat} (h : p.Calls k j)
    (hk : p.funcs[k]? = some f) :
    ∃ s ∈ f.slots.toList, ∃ args, s.payload = .call (j : Int) args := by
  obtain ⟨g, b, code, u, args, hg, -, -, hp⟩ := h
  obtain rfl : f = g := Option.some.inj (hk.symm.trans hg)
  obtain ⟨s, hs, hcall⟩ := Func.payload_eq_ok.mp hp
  refine ⟨s, ?_, args, hcall⟩
  rw [Func.at?_eq] at hs
  grind

variable {α β : Type} {H : List Object}

/-- A run that leaves the hidden objects as they are and makes no address of them. Its answer
meets `Q`. -/
def Spares (H : List Object) (Q : α → Prop) (x : Exec α) : Prop :=
  ∀ s, (∀ c, (s.world.cells c).Clean H) →
    (∀ c, c.object ∈ H → (x.run s).2.world.cells c = s.world.cells c) ∧
      (∀ c, ((x.run s).2.world.cells c).Clean H) ∧ ∀ a, (x.run s).1 = .ok a → Q a

namespace Spares

variable {Q : α → Prop} {Q' : β → Prop} {x : Exec α}

lemma pure {a : α} (h : Q a) : Spares H Q (Pure.pure a) := by
  intro s hs
  refine ⟨fun _ _ => rfl, hs, ?_⟩
  intro b hb
  obtain rfl := Except.ok.inj hb
  exact h

lemma throw (e : Interrupt) : Spares H Q (MonadExcept.throw e : Exec α) := by
  intro s hs
  refine ⟨fun _ _ => rfl, hs, ?_⟩
  intro a ha
  cases ha

lemma bind {f : α → Exec β} (h : Spares H Q x) (hf : ∀ a, Q a → Spares H Q' (f a)) :
    Spares H Q' (x >>= f) := by
  intro s hs
  obtain ⟨hcells, hclean, hq⟩ := h s hs
  rw [Exec.run_bind]
  rcases hx : x.run s with ⟨e | a, t⟩ <;> rw [hx] at hcells hclean hq
  · refine ⟨hcells, hclean, ?_⟩
    intro b hb
    cases hb
  · obtain ⟨hcells', hclean', hq'⟩ := hf a (hq a rfl) t hclean
    exact ⟨fun c hc => (hcells' c hc).trans (hcells c hc), hclean', hq'⟩

lemma mono {Q'' : α → Prop} (h : Spares H Q x) (hq : ∀ a, Q a → Q'' a) : Spares H Q'' x := by
  intro s hs
  obtain ⟨hcells, hclean, ha⟩ := h s hs
  exact ⟨hcells, hclean, fun a h => hq a (ha a h)⟩

lemma required (o : Option α) : Spares H (fun a => o = some a) (Exec.required o) := by
  cases o with
  | none => exact throw _
  | some a => exact pure rfl

lemma modifying {f : Progress → Progress} (h : ∀ s, (f s).world.cells = s.world.cells) :
    Spares H (fun _ => True) (modify f : Exec Unit) := by
  intro s hs
  rw [Exec.run_modify]
  refine ⟨fun c _ => congrFun (h s) c, fun c => ?_, fun _ _ => trivial⟩
  rw [h]
  exact hs c

end Spares

namespace Reading

variable {a : Activation} {U : Id → Prop} {r : Reading} {d : Id} {c : Cell} {v : Value}

lemma spares_record (e : Event) : Spares H (fun _ => True) (record e) :=
  .modifying fun _ => rfl

lemma spares_get (c : Cell) : Spares H (fun v => v.Clean H) (get c) := by
  intro s hs
  refine ⟨fun _ _ => rfl, hs, ?_⟩
  intro v hv
  obtain rfl := Except.ok.inj hv
  exact hs c

lemma spares_fill (hc : c.object ∉ H) (hv : v.Clean H) : Spares H (fun _ => True) (fill c v) := by
  intro s hs
  refine ⟨fun d hd => ?_, fun d => ?_, fun _ _ => trivial⟩
  · have : d ≠ c := fun h => hc (h ▸ hd)
    exact if_neg this
  · change (if d = c then v else s.world.cells d).Clean H
    split
    · exact hv
    · exact hs d

lemma spares_put (hc : c.object ∉ H) (hv : v.Clean H) : Spares H (fun _ => True) (put c v) :=
  (spares_fill hc hv).bind fun _ _ => spares_record _

lemma spares_input : Spares H (fun _ => True) input := by
  intro s hs
  rcases hin : s.world.input with _ | ⟨w, rest⟩
  · have hrun : input.run s = (.error .noInput, s) := by
      unfold input
      rw [Exec.run_bind_ok (Exec.run_get s), hin]
      rfl
    rw [hrun]
    exact ⟨fun _ _ => rfl, hs, fun _ _ => trivial⟩
  · have hcells : (input.run s).2.world.cells = s.world.cells := by
      unfold input
      rw [Exec.run_bind_ok (Exec.run_get s), hin]
      rfl
    rw [hcells]
    exact ⟨fun _ _ => rfl, hs, fun _ _ => trivial⟩

lemma spares_output (w : UInt64) : Spares H (fun _ => True) (output w) := by
  unfold output
  refine Spares.bind (Q := fun _ => True) (.modifying ?_) fun _ _ => spares_record _
  exact fun _ => rfl

lemma spares_element (hc : c.object ∉ H) (i : UInt64) :
    Spares H (fun d => d.object ∉ H) (r.element c i) := by
  unfold element
  dsimp only
  split
  · exact .pure hc
  · exact .throw _

lemma spares_operate (op : Op) (x y : UInt64) : Spares H (fun _ => True) (r.operate op x y) := by
  have hdiv : Spares H (fun _ => True) (Exec.divide r.division x y : Exec (UInt64 × UInt64)) := by
    unfold Exec.divide
    split
    · exact .pure trivial
    · exact .throw _
  unfold operate
  cases op with
  | div => exact hdiv.bind fun _ _ => .pure trivial
  | mod => exact hdiv.bind fun _ _ => .pure trivial
  | unknown => exact .throw _
  | _ => exact .pure trivial

lemma spares_behind (a : Activation) (d : Id) :
    Spares H (fun c => c.object ∉ H) (behind a d) := by
  refine (Spares.required _).bind fun o _ => ?_
  refine (spares_get _).bind fun v hv => ?_
  exact (Spares.required _).mono fun c hc => Value.addr?_clean hv hc

/-- An activation whose operands in `U` are neither hidden variables nor addresses of them. -/
structure Apart (H : List Object) (U : Id → Prop) (a : Activation) : Prop where
  objects : ∀ d, U d → ∀ o, a.object? d = some o → o ∉ H
  values : ∀ d, U d → (a.values d).Clean H

namespace Apart

lemma cell? (h : Apart H U a) (hd : U d) (hc : a.cell? d = some c) : c.object ∉ H := by
  unfold Activation.cell? at hc
  cases ho : a.object? d with
  | none =>
    rw [ho] at hc
    exact Value.addr?_clean (h.values d hd) hc
  | some o =>
    rw [ho] at hc
    obtain rfl := Option.some.inj hc
    exact h.objects d hd o ho

lemma compute (h : Apart H U a) {x : Payload} (hx : ∀ d ∈ x.operands, U d) :
    Spares H (fun v => ∀ y, v = some y → y.Clean H) (r.compute a x) := by
  have hsome : ∀ {v : Value}, v.Clean H →
      Spares H (fun v => ∀ y, v = some y → y.Clean H) (pure (some v) : Exec (Option Value)) := by
    intro v hv
    refine .pure fun y hy => ?_
    rw [← Option.some.inj hy]
    exact hv
  have hnone : Spares H (fun v => ∀ y, v = some y → y.Clean H) (pure none : Exec (Option Value)) :=
    .pure (by simp)
  cases x with
  | const k => exact hsome (Value.clean_word H k)
  | elemAddr v i =>
    refine (Spares.required _).bind fun o ho => ?_
    refine (Spares.required _).bind fun w _ => ?_
    refine (spares_element (h.objects v (hx v (by simp [Payload.operands])) o ho) w).bind ?_
    exact fun c hc => hsome (Value.clean_addr.mpr hc)
  | elemAddrIndirect v i =>
    refine (spares_behind a v).bind fun c hc => ?_
    refine (Spares.required _).bind fun w _ => ?_
    exact (spares_element hc w).bind fun d hd => hsome (Value.clean_addr.mpr hd)
  | load src =>
    refine (Spares.required _).bind fun c _ => ?_
    exact (spares_get c).bind fun v hv => hsome hv
  | loadPair src =>
    refine (Spares.required _).bind fun c _ => ?_
    exact (spares_get c).bind fun v hv => hsome hv
  | loadIndirect src =>
    refine (spares_behind a src).bind fun c _ => ?_
    exact (spares_get c).bind fun v hv => hsome hv
  | alu op left right =>
    refine (Spares.required _).bind fun y _ => ?_
    refine (Spares.required _).bind fun x _ => ?_
    exact (spares_operate op x y).bind fun w _ => hsome (Value.clean_word H w)
  | read => exact spares_input.bind fun w _ => hsome (Value.clean_word H w)
  | store dst src =>
    refine (Spares.required _).bind fun c hc => ?_
    refine (spares_put (h.cell? (hx dst (by simp [Payload.operands])) hc)
      (h.values src (hx src (by simp [Payload.operands])))).bind ?_
    exact fun _ _ => hnone
  | storeIndirect dst src =>
    refine (spares_behind a dst).bind fun c hc => ?_
    refine (spares_put hc (h.values src (hx src (by simp [Payload.operands])))).bind ?_
    exact fun _ _ => hnone
  | write src =>
    refine (Spares.required _).bind fun w _ => ?_
    exact (spares_output w).bind fun _ _ => hnone
  | _ => exact .throw _

lemma passed (h : Apart H U a) (p : Variable) (hd : U d) :
    Spares H (fun v => v.Clean H) (passed a p d) := by
  refine (Spares.required _).bind fun v hv => ?_
  have ho : a.object? d = some ⟨a.number, d.toNat⟩ := by simp [Activation.object?, hv]
  dsimp only
  split
  · split
    · exact spares_get _
    · exact .pure (Value.clean_addr.mpr (h.objects d hd _ ho))
  · split
    · exact (spares_behind a d).bind fun c _ => spares_get c
    · exact spares_get _

lemma pass (h : Apart H U a) {k : Nat} (hk : ∀ o ∈ H, o.func ≠ k) (g : Func) {params args : List Id}
    (ha : ∀ d ∈ args, U d) : Spares H (fun _ => True) (pass a k g params args) := by
  induction params generalizing args with
  | nil =>
    cases args with
    | nil => exact .pure trivial
    | cons d args => exact .throw _
  | cons p params ih =>
    cases args with
    | nil => exact .throw _
    | cons d args =>
      refine (Spares.required _).bind fun w _ => ?_
      refine (h.passed w (ha d (by simp))).bind fun v hv => ?_
      refine (spares_fill (fun hmem => hk _ hmem rfl) hv).bind fun _ _ => ?_
      exact (ih fun e he => ha e (by simp [he])).bind fun _ _ => .pure trivial

end Apart

variable {goTo : Nat → BlockId → Exec Ending} {i : Id} {m : List Id}

/-- Pass control to a function and wait for its end. -/
def enter (r : Reading) (goTo : Nat → BlockId → Exec Ending) (a : Activation) (callee : Int)
    (args : List Id) : Exec Ending := do
  let g ← Exec.required (lookup r.program.funcs callee).toOption
  record (.call callee.toNat (← pass a callee.toNat g g.params args))
  goTo callee.toNat g.entry

lemma exec_enter {callee : Int} {args : List Id}
    (hp : a.func.payload i = .ok (.call callee args)) :
    r.exec goTo a (i :: m) = (do
      match ← r.enter goTo a callee args with
      | .stopped => return .stopped
      | .returned => r.exec goTo a m) := by
  simp only [enter, bind_assoc]
  exact exec_call hp

lemma enter_spares (h : Apart H U a) {callee : Int} {args : List Id} (hargs : ∀ d ∈ args, U d)
    (hcallee : 0 ≤ callee → (∀ o ∈ H, o.func ≠ callee.toNat) ∧
      ∀ b, Spares H (fun _ => True) (goTo callee.toNat b)) :
    Spares H (fun _ => True) (r.enter goTo a callee args) := by
  refine (Spares.required _).bind fun g hg => ?_
  have hnn : 0 ≤ callee := by
    rw [toOption_lookup] at hg
    by_contra hneg
    simp [hneg] at hg
  obtain ⟨hH, hgo⟩ := hcallee hnn
  refine (h.pass hH g hargs).bind fun vs _ => ?_
  exact (spares_record _).bind fun _ _ => hgo _

/-- Code of a function without hidden variables, whose calls lead to such functions. -/
lemma spares_exec {l : List Id} (hnum : ∀ o ∈ H, o.func ≠ a.number)
    (hvals : ∀ d, (a.values d).Clean H)
    (hbranch : ∀ b, Spares H (fun _ => True) (goTo a.number b))
    (hcall : ∀ u ∈ l, ∀ (j : Nat) args, a.func.payload u = .ok (.call (j : Int) args) →
      (∀ o ∈ H, o.func ≠ j) ∧ ∀ b, Spares H (fun _ => True) (goTo j b)) :
    Spares H (fun _ => True) (r.exec goTo a l) := by
  induction l generalizing a with
  | nil => exact .throw _
  | cons i m ih =>
    have hapart : Apart H (fun _ => True) a := by
      refine ⟨fun d _ o ho hmem => ?_, fun d _ => hvals d⟩
      obtain ⟨v, -, rfl⟩ := Option.map_eq_some_iff.mp ho
      exact hnum _ hmem rfl
    have hrest : ∀ v, (∀ y, v = some y → y.Clean H) →
        Spares H (fun _ => True) (r.exec goTo (a.set i v) m) := by
      intro v hv
      have hfunc : (a.set i v).func = a.func := by cases v <;> rfl
      have hnumber : (a.set i v).number = a.number := by cases v <;> rfl
      refine ih (by rwa [hnumber]) (fun d => ?_) (by rwa [hnumber]) ?_
      · cases v with
        | none => exact hvals d
        | some y =>
          change (if d = i then y else a.values d).Clean H
          split
          · exact hv y rfl
          · exact hvals d
      · rw [hfunc]
        exact fun u hu => hcall u (by simp [hu])
    cases hp : a.func.payload i with
    | error e =>
      have : r.exec goTo a (i :: m) = throw .senseless := by
        rw [exec, hp]
        rfl
      rw [this]
      exact .throw _
    | ok x =>
      cases hc : x.computes with
      | true =>
        rw [exec_computes hp hc]
        exact (hapart.compute fun _ _ => trivial).bind hrest
      | false =>
        cases x with
        | stop => rw [exec_stop hp]; exact .pure trivial
        | ret => rw [exec_ret hp]; exact .pure trivial
        | branch b => rw [exec_branch hp]; exact hbranch b
        | branchIf test cond b c =>
          rw [exec_branchIf hp]
          exact (Spares.required _).bind fun w _ => hbranch _
        | call callee args =>
          rw [exec_enter hp]
          refine (enter_spares hapart (fun _ _ => trivial) fun hnn => ?_).bind fun e _ => ?_
          · obtain ⟨j, rfl⟩ := Int.eq_ofNat_of_zero_le hnn
            exact hcall i (by simp) j args hp
          · cases e with
            | stopped => exact .pure trivial
            | returned => exact hrest none (by simp)
        | _ => simp [Payload.computes] at hc

/-- Functions leave hidden objects alone if they do not own them, and neither do those that they
call. -/
theorem spares_block {N : Nat → Prop} (hN : ∀ j, N j → ∀ o ∈ H, o.func ≠ j)
    (hcalls : ∀ i j, N i → r.program.Calls i j → N j) (n : Nat) {j : Nat} (hj : N j) (b : BlockId) :
    Spares H (fun _ => True) (r.block n j b) := by
  induction n generalizing j b with
  | zero => exact .throw _
  | succ n ih =>
    refine (Spares.required _).bind fun f hf => ?_
    refine (Spares.required _).bind fun code hcode => ?_
    refine (spares_record _).bind fun _ _ => ?_
    refine spares_exec (hN j hj) (fun _ => Value.clean_nothing H) (ih hj) ?_
    intro u hu k args hp
    have hcode' : f.code b = .ok code := by
      cases hc : f.code b with
      | error e => simp [hc, Except.toOption] at hcode
      | ok c => simpa [hc, Except.toOption] using hcode
    have hk : N k := hcalls j k hj ⟨f, b, code, u, args, hf, hcode', by simpa using hu, hp⟩
    exact ⟨hN k hk, ih hk⟩

variable {α β γ δ : Type} {Q : α → β → Prop} {Q' : γ → δ → Prop} {s t : Progress} {r' : Reading}
  {a' : Activation} {σ : Id → Id} {x : Payload} {m' : List Id} {goTo' : Nat → BlockId → Exec Ending}

lemma matching_bind {x : Exec α} {y : Exec β} {f : α → Exec γ} {g : β → Exec δ} {P : β → Prop}
    (h : Exec.Alike (Agree H) Q x y) (hy : Spares H P y) (hst : Agree H s t)
    (hrest : ∀ a b s' t', Q a b → Agree H s' t' →
      (∀ c, c.object ∈ H → t'.world.cells c = t.world.cells c) →
      Matching (Agree H) Q' ((f a).run s') ((g b).run t')) :
    Matching (Agree H) Q' ((x >>= f).run s) ((y >>= g).run t) := by
  have hm := h s t hst
  have hcells := (hy t hst.clean').1
  rw [Exec.run_bind, Exec.run_bind]
  rcases hx : x.run s with ⟨_ | a, s'⟩ <;> rcases hy : y.run t with ⟨_ | b, t'⟩ <;>
    rw [hx, hy] at hm <;> rw [hy] at hcells
  · exact hm
  · exact hm.elim
  · exact hm.elim
  · exact hrest a b s' t' hm.1 hm.2 hcells

lemma Tracks.apart (h : Tracks H U σ a a') : Apart H (fun e => ∃ d, U d ∧ e = σ d) a' := by
  refine ⟨?_, ?_⟩
  · rintro _ ⟨d, hd, rfl⟩ o ho
    obtain ⟨heq, hout⟩ := h.object? hd
    exact hout o (heq ▸ ho)
  · rintro _ ⟨d, hd, rfl⟩
    rw [h.values d hd]
    exact h.clean d hd

lemma alike_enter (hr : Similar H r r') (h : Tracks H U σ a a') {callee : Int} {args : List Id}
    (hargs : ∀ d ∈ args, U d)
    (hcall : ∀ {j : Nat} {g}, r.program.funcs[j]? = some g →
      Exec.Alike (Agree H) Eq (goTo j g.entry) (goTo' j g.entry)) :
    Exec.Alike (Agree H) Eq (r.enter goTo a callee args) (r'.enter goTo' a' callee (args.map σ)) := by
  have hend : ∀ (r : Reading) (a : Activation) (goTo : Nat → BlockId → Exec Ending) (args : List Id),
      r.enter goTo a callee args = (do
        let g ← Exec.required (lookup r.program.funcs callee).toOption
        record (.call callee.toNat (← pass a callee.toNat g g.params args))
        match ← goTo callee.toNat g.entry with
        | .stopped => return .stopped
        | .returned => return .returned) := by
    intro r a goTo args
    have hid : ∀ e : Ending, (match e with
        | .stopped => return .stopped
        | .returned => return .returned : Exec Ending) = pure e := by
      intro e
      cases e <;> rfl
    simp only [hid, bind_pure]
    rfl
  rw [hend, hend]
  exact alike_call hr h hargs hcall (Exec.Alike.pure rfl)

/-- One instruction with other operands, given what follows if hidden objects are left alone. -/
lemma matching_exec_cons (hr : Similar H r r') (h : Tracks H U σ a a')
    (hp : a.func.payload i = .ok x) (hp' : a'.func.payload i = .ok (x.rename σ))
    (hx : ∀ d ∈ x.operands, U d)
    (hbranch : ∀ b ∈ x.targets, Exec.Alike (Agree H) Eq (goTo a.number b) (goTo' a.number b))
    (hcall : ∀ {j : Nat} {g}, r.program.funcs[j]? = some g →
      Exec.Alike (Agree H) Eq (goTo j g.entry) (goTo' j g.entry))
    (hspare : ∀ (j : Nat) args, x = .call (j : Int) args →
      (∀ o ∈ H, o.func ≠ j) ∧ ∀ b, Spares H (fun _ => True) (goTo' j b))
    (hst : Agree H s t)
    (hrest : ∀ v s' t', (∀ y, v = some y → y.Clean H) → Agree H s' t' →
      (∀ c, c.object ∈ H → t'.world.cells c = t.world.cells c) →
      Matching (Agree H) Eq ((r.exec goTo (a.set i v) m).run s')
        ((r'.exec goTo' (a'.set i v) m').run t')) :
    Matching (Agree H) Eq ((r.exec goTo a (i :: m)).run s)
      ((r'.exec goTo' a' (i :: m')).run t) := by
  have hx' : ∀ d ∈ (x.rename σ).operands, ∃ e, U e ∧ d = σ e := by
    intro d hd
    rw [Payload.operands_rename, List.mem_map] at hd
    obtain ⟨e, he, rfl⟩ := hd
    exact ⟨e, hx e he, rfl⟩
  cases hc : x.computes with
  | true =>
    have hc' : (x.rename σ).computes = true := by
      cases x <;> simp_all [Payload.rename, Payload.withOperands, Payload.computes, Payload.operands]
    rw [exec_computes hp hc, exec_computes hp' hc']
    refine matching_bind (alike_compute hr h hx) (h.apart.compute hx') hst ?_
    rintro v _ s' t' ⟨rfl, hv⟩ hst' hcells
    exact hrest v s' t' hv hst' hcells
  | false =>
    cases x with
    | call callee args =>
      rw [exec_enter hp, exec_enter hp']
      refine matching_bind (alike_enter hr h hx hcall) (enter_spares h.apart hx' fun hnn => ?_)
        hst ?_
      · obtain ⟨j, rfl⟩ := Int.eq_ofNat_of_zero_le hnn
        exact hspare j args rfl
      · rintro e _ s' t' rfl hst' hcells
        cases e with
        | stopped => exact ⟨rfl, hst'⟩
        | returned => exact hrest none s' t' (by simp) hst' hcells
    | stop =>
      rw [exec_stop hp, exec_stop hp']
      exact ⟨rfl, hst⟩
    | ret =>
      rw [exec_ret hp, exec_ret hp']
      exact ⟨rfl, hst⟩
    | branch b =>
      rw [exec_branch hp, exec_branch hp', h.number]
      exact hbranch b (by simp [Payload.targets]) s t hst
    | branchIf test cond b c =>
      rw [exec_branchIf hp, exec_branchIf hp', h.word? (hx cond (by simp [Payload.operands])),
        h.number]
      refine (Exec.Alike.bind (Exec.Alike.required (a.word? cond)) ?_) s t hst
      rintro w _ rfl
      split
      · exact hbranch b (by simp [Payload.targets])
      · exact hbranch c (by simp [Payload.targets])
    | _ => simp [Payload.computes] at hc

end Reading

end Accumulator.Flow
