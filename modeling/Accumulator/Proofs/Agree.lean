import Mathlib
import Accumulator.Proofs.Editing

/-!
# Runs that agree but for hidden variables

Two runs of similar flow programs are compared by `Agree H`: they have read and written the same,
and their cells hold the same outside the objects in `H`, which no cell points to. Steps on renamed
operands keep this.
-/

namespace Accumulator.Flow

/-- An instruction that computes, and goes on to the next. -/
def Payload.computes : Payload → Bool
  | .stop | .ret | .branch _ | .branchIf _ _ _ _ | .call _ _ => false
  | _ => true

/-- The first cell of a variable of function number `k`. -/
def home (k : Nat) (v : Id) : Cell := ⟨⟨k, v.toNat⟩, 0⟩

/-- Progress after a store. -/
def Progress.store (p : Progress) (c : Cell) (v : Value) : Progress :=
  { p with world := p.world.write c v, trace := p.trace ++ [.store c v] }

/-- An event that is no store to a hidden object. -/
def Event.avoids (H : List Object) : Event → Bool
  | .store c _ => c.object ∉ H
  | _ => true

/-- A value that is no address of a hidden object. -/
def Value.Clean (H : List Object) (v : Value) : Prop := ∀ c, v = .addr c → c.object ∉ H

/-- Progress that is the same but for hidden objects. -/
structure Agree (H : List Object) (s t : Progress) : Prop where
  cells : ∀ c, c.object ∉ H → s.world.cells c = t.world.cells c
  input : s.world.input = t.world.input
  output : s.world.output = t.world.output
  trace : s.trace.filter (·.avoids H) = t.trace.filter (·.avoids H)
  clean : ∀ c, (s.world.cells c).Clean H
  clean' : ∀ c, (t.world.cells c).Clean H

variable {H : List Object} {s t : Progress}

lemma Value.clean_word (H : List Object) (n : UInt64) : (Value.word n).Clean H := by
  intro c hc
  cases hc

lemma Value.clean_nothing (H : List Object) : Value.nothing.Clean H := by
  intro c hc
  cases hc

lemma Value.clean_addr {c : Cell} : (Value.addr c).Clean H ↔ c.object ∉ H := by
  simp [Clean]

namespace Agree

lemma record (h : Agree H s t) (e : Event) :
    Agree H { s with trace := s.trace ++ [e] } { t with trace := t.trace ++ [e] } :=
  ⟨h.cells, h.input, h.output, by simp [h.trace], h.clean, h.clean'⟩

lemma fill (h : Agree H s t) (c : Cell) {v : Value} (hv : v.Clean H) :
    Agree H { s with world := s.world.write c v } { t with world := t.world.write c v } := by
  refine ⟨fun d hd => ?_, h.input, h.output, h.trace, fun d => ?_, fun d => ?_⟩
  · simp only [World.write]
    split
    · rfl
    · exact h.cells d hd
  · simp only [World.write]
    split
    · exact hv
    · exact h.clean d
  · simp only [World.write]
    split
    · exact hv
    · exact h.clean' d

lemma store (h : Agree H s t) (c : Cell) {v : Value} (hv : v.Clean H) :
    Agree H (s.store c v) (t.store c v) :=
  (h.fill c hv).record _

lemma hide (h : Agree H s t) {c : Cell} (hc : c.object ∈ H) {v : Value} (hv : v.Clean H) :
    Agree H (s.store c v) t := by
  unfold Progress.store
  refine ⟨fun d hd => ?_, h.input, h.output, ?_, fun d => ?_, h.clean'⟩
  · simp only [World.write]
    split
    · rename_i heq
      rw [heq] at hd
      exact absurd hc hd
    · exact h.cells d hd
  · have havoids : (Event.store c v).avoids H = false := by simp [Event.avoids, hc]
    simp [havoids, h.trace]
  · simp only [World.write]
    split
    · exact hv
    · exact h.clean d

lemma symm (h : Agree H s t) : Agree H t s :=
  ⟨fun c hc => (h.cells c hc).symm, h.input.symm, h.output.symm, h.trace.symm, h.clean', h.clean⟩

end Agree

namespace Reading

open Accumulator.Exec

lemma alike_record (e : Event) : Alike (Agree H) (fun _ _ => True) (record e) (record e) := by
  intro s t h
  exact ⟨trivial, h.record e⟩

lemma alike_get {c : Cell} (hc : c.object ∉ H) :
    Alike (Agree H) (fun v w => v = w ∧ v.Clean H) (get c) (get c) := by
  intro s t h
  exact ⟨⟨h.cells c hc, h.clean c⟩, h⟩

lemma alike_fill (c : Cell) {v : Value} (hv : v.Clean H) :
    Alike (Agree H) (fun _ _ => True) (fill c v) (fill c v) := by
  intro s t h
  exact ⟨trivial, h.fill c hv⟩

lemma alike_put (c : Cell) {v : Value} (hv : v.Clean H) :
    Alike (Agree H) (fun _ _ => True) (put c v) (put c v) :=
  (alike_fill c hv).bind fun _ _ _ => alike_record _

lemma alike_input : Alike (Agree H) Eq input input := by
  intro s t h
  unfold input
  rw [run_bind, run_bind, run_get, run_get]
  simp only [← h.input]
  cases hs : s.world.input with
  | nil => exact ⟨rfl, h⟩
  | cons v rest =>
    refine ⟨rfl, ?_⟩
    have h' : Agree H { s with world := { s.world with input := rest } }
        { t with world := { t.world with input := rest } } :=
      ⟨h.cells, rfl, h.output, h.trace, h.clean, h.clean'⟩
    exact h'.record (.read v)

lemma alike_output (v : UInt64) : Alike (Agree H) (fun _ _ => True) (output v) (output v) := by
  intro s t h
  refine ⟨trivial, ?_⟩
  have h' : Agree H { s with world := { s.world with output := s.world.output.push v } }
      { t with world := { t.world with output := t.world.output.push v } } :=
    ⟨h.cells, h.input, by simp [h.output], h.trace, h.clean, h.clean'⟩
  exact h'.record (.write v)

/-- Functions that look the same to a caller. -/
structure SameFace (g g' : Func) : Prop where
  params : g'.params = g.params
  entry : g'.entry = g.entry
  vars : ∀ p ∈ g.params, g'.varOf? p = g.varOf? p

/-- Readings that divide alike, with functions that look the same to a caller, in which the objects
have the same cells but for hidden ones. -/
structure Similar (H : List Object) (r r' : Reading) : Prop where
  division : r'.division = r.division
  cellCount : ∀ o, o ∉ H → r'.cellCount o = r.cellCount o
  faces : ∀ {j : Nat} {g}, r.program.funcs[j]? = some g →
    ∃ g', r'.program.funcs[j]? = some g' ∧ SameFace g g'
  size : r'.program.funcs.size = r.program.funcs.size

variable {r r' : Reading}

lemma alike_element (hr : Similar H r r') {c : Cell} (hc : c.object ∉ H) (i : UInt64) :
    Alike (Agree H) (fun d e => d = e ∧ d.object ∉ H) (r.element c i) (r'.element c i) := by
  unfold element
  simp only [hr.cellCount c.object hc]
  split
  · exact Alike.pure ⟨rfl, hc⟩
  · exact Alike.throw _

lemma alike_operate (hr : Similar H r r') (op : Op) (x y : UInt64) :
    Alike (Agree H) Eq (r.operate op x y) (r'.operate op x y) := by
  have hdiv : Alike (Agree H) Eq (Exec.divide r.division x y) (Exec.divide r'.division x y) := by
    rw [hr.division]
    unfold Exec.divide
    split
    · exact Alike.pure rfl
    · exact Alike.throw _
  cases op with
  | div => exact hdiv.bind fun p q hpq => hpq ▸ Alike.pure rfl
  | mod => exact hdiv.bind fun p q hpq => hpq ▸ Alike.pure rfl
  | unknown n => exact Alike.throw _
  | _ => exact Alike.pure rfl

/-- Activations of similar functions. The operands in `U` are known by other names on the other
side, where they have the same values; variables keep their names. -/
structure Tracks (H : List Object) (U : Id → Prop) (σ : Id → Id) (a a' : Activation) : Prop where
  number : a'.number = a.number
  vars : ∀ d, U d → a'.func.varOf? (σ d) = a.func.varOf? d
  names : ∀ d v, U d → a.func.varOf? d = some v → σ d = d ∧ ⟨a.number, d.toNat⟩ ∉ H
  values : ∀ d, U d → a'.values (σ d) = a.values d
  clean : ∀ d, U d → (a.values d).Clean H

variable {U : Id → Prop} {σ : Id → Id} {a a' : Activation}

namespace Tracks

lemma object? (h : Tracks H U σ a a') {d : Id} (hd : U d) :
    a'.object? (σ d) = a.object? d ∧ ∀ o, a.object? d = some o → o ∉ H := by
  unfold Activation.object?
  rw [h.vars d hd, h.number]
  cases hv : a.func.varOf? d with
  | none => simp
  | some v =>
    obtain ⟨hname, hH⟩ := h.names d v hd hv
    simp [hname, hH]

lemma word? (h : Tracks H U σ a a') {d : Id} (hd : U d) : a'.word? (σ d) = a.word? d := by
  unfold Activation.word?
  rw [h.values d hd]

lemma cell? (h : Tracks H U σ a a') {d : Id} (hd : U d) :
    a'.cell? (σ d) = a.cell? d ∧ ∀ c, a.cell? d = some c → c.object ∉ H := by
  obtain ⟨hobj, hH⟩ := h.object? hd
  unfold Activation.cell?
  rw [hobj, h.values d hd]
  cases ho : a.object? d with
  | some o =>
    refine ⟨rfl, fun c hc => ?_⟩
    obtain rfl := Option.some.inj hc
    exact hH o ho
  | none =>
    refine ⟨rfl, fun c hc => ?_⟩
    cases hv : a.values d with
    | addr e =>
      rw [hv] at hc
      obtain rfl : e = c := Option.some.inj hc
      exact Value.clean_addr.mp (hv ▸ h.clean d hd)
    | word n => simp [hv, Value.addr?] at hc
    | nothing => simp [hv, Value.addr?] at hc

end Tracks

lemma alike_required {α : Type} {o o' : Option α} {p : α → Prop} (h : o' = o)
    (hp : ∀ x, o = some x → p x) :
    Alike (Agree H) (fun x y => x = y ∧ p x) (Exec.required o) (Exec.required o') := by
  subst h
  cases o' with
  | none => exact Alike.throw _
  | some x => exact Alike.pure ⟨rfl, hp x rfl⟩

lemma Value.addr?_clean {v : Value} (hv : v.Clean H) {c : Cell} (h : v.addr? = some c) :
    c.object ∉ H := by
  cases v with
  | addr d =>
    obtain rfl : d = c := Option.some.inj h
    exact Value.clean_addr.mp hv
  | word n => simp [Value.addr?] at h
  | nothing => simp [Value.addr?] at h

lemma alike_behind (h : Tracks H U σ a a') {d : Id} (hd : U d) :
    Alike (Agree H) (fun c e => c = e ∧ c.object ∉ H) (behind a d) (behind a' (σ d)) := by
  obtain ⟨hobj, hH⟩ := h.object? hd
  unfold behind
  refine (alike_required hobj hH).bind ?_
  rintro o _ ⟨rfl, ho⟩
  refine (alike_get (c := ⟨o, 0⟩) ho).bind ?_
  rintro v _ ⟨rfl, hv⟩
  exact alike_required rfl fun c hc => Value.addr?_clean hv hc

/-- Equal answers, of which none is an address of a hidden object. -/
def SameAnswer (H : List Object) (v w : Option Value) : Prop :=
  v = w ∧ ∀ x, v = some x → x.Clean H

lemma SameAnswer.some {v : Value} (hv : v.Clean H) : SameAnswer H (some v) (some v) := by
  refine ⟨rfl, fun x hx => ?_⟩
  obtain rfl := Option.some.inj hx
  exact hv

lemma SameAnswer.none : SameAnswer H none none := ⟨rfl, by simp⟩

lemma alike_compute (hr : Similar H r r') (h : Tracks H U σ a a') {x : Payload}
    (hx : ∀ d ∈ x.operands, U d) :
    Alike (Agree H) (SameAnswer H) (r.compute a x) (r'.compute a' (x.rename σ)) := by
  cases x with
  | const k => exact Alike.pure (SameAnswer.some (Value.clean_word H k))
  | elemAddr v i =>
    obtain ⟨hobj, hH⟩ := h.object? (hx v (by simp [Payload.operands]))
    have hi := h.word? (hx i (by simp [Payload.operands]))
    refine (alike_required hobj hH).bind ?_
    rintro o _ ⟨rfl, ho⟩
    refine (alike_required (p := fun _ => True) hi (by simp)).bind ?_
    rintro n _ ⟨rfl, -⟩
    refine (alike_element hr (c := ⟨o, 0⟩) ho n).bind ?_
    rintro c _ ⟨rfl, hc⟩
    exact Alike.pure (SameAnswer.some (Value.clean_addr.mpr hc))
  | elemAddrIndirect v i =>
    have hi := h.word? (hx i (by simp [Payload.operands]))
    refine (alike_behind h (hx v (by simp [Payload.operands]))).bind ?_
    rintro c _ ⟨rfl, hc⟩
    refine (alike_required (p := fun _ => True) hi (by simp)).bind ?_
    rintro n _ ⟨rfl, -⟩
    refine (alike_element hr hc n).bind ?_
    rintro d _ ⟨rfl, hd⟩
    exact Alike.pure (SameAnswer.some (Value.clean_addr.mpr hd))
  | load src =>
    obtain ⟨hcell, hH⟩ := h.cell? (hx src (by simp [Payload.operands]))
    refine (alike_required hcell hH).bind ?_
    rintro c _ ⟨rfl, hc⟩
    refine (alike_get hc).bind ?_
    rintro v _ ⟨rfl, hv⟩
    exact Alike.pure (SameAnswer.some hv)
  | loadPair src =>
    obtain ⟨hcell, hH⟩ := h.cell? (hx src (by simp [Payload.operands]))
    refine (alike_required hcell hH).bind ?_
    rintro c _ ⟨rfl, hc⟩
    refine (alike_get hc).bind ?_
    rintro v _ ⟨rfl, hv⟩
    exact Alike.pure (SameAnswer.some hv)
  | loadIndirect src =>
    refine (alike_behind h (hx src (by simp [Payload.operands]))).bind ?_
    rintro c _ ⟨rfl, hc⟩
    refine (alike_get hc).bind ?_
    rintro v _ ⟨rfl, hv⟩
    exact Alike.pure (SameAnswer.some hv)
  | alu op left right =>
    have hl := h.word? (hx left (by simp [Payload.operands]))
    have hright := h.word? (hx right (by simp [Payload.operands]))
    refine (alike_required (p := fun _ => True) hright (by simp)).bind ?_
    rintro n _ ⟨rfl, -⟩
    refine (alike_required (p := fun _ => True) hl (by simp)).bind ?_
    rintro m _ ⟨rfl, -⟩
    refine (alike_operate hr op m n).bind ?_
    rintro v _ rfl
    exact Alike.pure (SameAnswer.some (Value.clean_word H v))
  | read =>
    refine alike_input.bind ?_
    rintro v _ rfl
    exact Alike.pure (SameAnswer.some (Value.clean_word H v))
  | store dst src =>
    obtain ⟨hcell, hH⟩ := h.cell? (hx dst (by simp [Payload.operands]))
    have hsrc : U src := hx src (by simp [Payload.operands])
    refine (alike_required hcell hH).bind ?_
    rintro c _ ⟨rfl, hc⟩
    rw [h.values src hsrc]
    exact (alike_put c (h.clean src hsrc)).bind fun _ _ _ => Alike.pure SameAnswer.none
  | storeIndirect dst src =>
    have hsrc : U src := hx src (by simp [Payload.operands])
    refine (alike_behind h (hx dst (by simp [Payload.operands]))).bind ?_
    rintro c _ ⟨rfl, hc⟩
    rw [h.values src hsrc]
    exact (alike_put c (h.clean src hsrc)).bind fun _ _ _ => Alike.pure SameAnswer.none
  | write src =>
    have hsrc := h.word? (hx src (by simp [Payload.operands]))
    refine (alike_required (p := fun _ => True) hsrc (by simp)).bind ?_
    rintro n _ ⟨rfl, -⟩
    exact (alike_output n).bind fun _ _ _ => Alike.pure SameAnswer.none
  | var v => exact Alike.throw _
  | stop => exact Alike.throw _
  | ret => exact Alike.throw _
  | call callee args => exact Alike.throw _
  | branch b => exact Alike.throw _
  | branchIf test c b d => exact Alike.throw _

lemma alike_passed (h : Tracks H U σ a a') (p : Variable) {arg : Id} (ha : U arg) :
    Alike (Agree H) (fun v w => v = w ∧ v.Clean H) (passed a p arg) (passed a' p (σ arg)) := by
  unfold passed
  refine (alike_required (p := fun v => a.func.varOf? arg = some v) (h.vars arg ha)
    fun _ hv => hv).bind ?_
  rintro v _ ⟨rfl, hv⟩
  obtain ⟨hname, hH⟩ := h.names arg v ha hv
  have hbehind := alike_behind h ha
  rw [hname] at hbehind ⊢
  simp only [h.number]
  split
  · split
    · exact alike_get hH
    · exact Alike.pure ⟨rfl, Value.clean_addr.mpr hH⟩
  · split
    · refine hbehind.bind ?_
      rintro c _ ⟨rfl, hc⟩
      exact alike_get hc
    · exact alike_get hH

lemma alike_pass (h : Tracks H U σ a a') (k : Nat) {g g' : Func} {params args : List Id}
    (hg : ∀ p ∈ params, g'.varOf? p = g.varOf? p) (ha : ∀ arg ∈ args, U arg) :
    Alike (Agree H) Eq (pass a k g params args) (pass a' k g' params (args.map σ)) := by
  induction params generalizing args with
  | nil =>
    cases args with
    | nil => exact Alike.pure rfl
    | cons arg args => exact Alike.throw _
  | cons p params ih =>
    cases args with
    | nil => exact Alike.throw _
    | cons arg args =>
      rw [List.map_cons, pass, pass]
      refine (alike_required (p := fun _ => True) (hg p (by simp)) (by simp)).bind ?_
      rintro w _ ⟨rfl, -⟩
      refine (alike_passed h w (ha arg (by simp))).bind ?_
      rintro v _ ⟨rfl, hv⟩
      refine (alike_fill _ hv).bind fun _ _ _ => ?_
      refine (ih (fun q hq => hg q (by simp [hq])) fun b hb => ha b (by simp [hb])).bind ?_
      rintro vs _ rfl
      exact Alike.pure rfl

lemma toOption_lookup {α : Type} (table : Array α) (i : Int) :
    (lookup table i).toOption = if 0 ≤ i then table[i.toNat]? else none := by
  cases i with
  | ofNat n =>
    simp only [lookup]
    cases h : table[n]? <;> simp [h, Except.toOption]
  | negSucc n => simp [lookup, Except.toOption]

variable {goTo goTo' : Nat → BlockId → Exec Ending} {i : Id} {x : Payload} {m m' : List Id}

lemma run_input_nil {s : Progress} (hs : s.world.input = []) : input.run s = (.error .noInput, s) := by
  obtain ⟨⟨cells, input, output⟩, trace⟩ := s
  cases hs
  rfl

lemma run_input_cons {s : Progress} {n : UInt64} {rest : List UInt64} (hs : s.world.input = n :: rest) :
    input.run s = (.ok n, { s with
      world := { s.world with input := rest }, trace := s.trace ++ [.read n] }) := by
  obtain ⟨⟨cells, input, output⟩, trace⟩ := s
  cases hs
  rfl

lemma required_bind {α β : Type} (y : α) (k : α → Exec β) :
    (Exec.required (some y) >>= k) = k y :=
  pure_bind y k

lemma exec_computes (hp : a.func.payload i = .ok x) (hx : x.computes = true) :
    r.exec goTo a (i :: m) = (do r.exec goTo (a.set i (← r.compute a x)) m) := by
  rw [exec, hp]
  cases x <;> first | exact required_bind _ _ | simp [Payload.computes] at hx

lemma exec_stop (hp : a.func.payload i = .ok .stop) :
    r.exec goTo a (i :: m) = pure .stopped := by
  rw [exec, hp]
  exact required_bind _ _

lemma exec_ret (hp : a.func.payload i = .ok .ret) :
    r.exec goTo a (i :: m) = pure .returned := by
  rw [exec, hp]
  exact required_bind _ _

lemma exec_branch {b : BlockId} (hp : a.func.payload i = .ok (.branch b)) :
    r.exec goTo a (i :: m) = goTo a.number b := by
  rw [exec, hp]
  exact required_bind _ _

lemma exec_branchIf {test : Test} {cond : Id} {b c : BlockId}
    (hp : a.func.payload i = .ok (.branchIf test cond b c)) :
    r.exec goTo a (i :: m) = (do
      let w ← Exec.required (a.word? cond)
      goTo a.number (if test.holds w then b else c)) := by
  rw [exec, hp]
  exact required_bind _ _

lemma exec_call {callee : Int} {args : List Id}
    (hp : a.func.payload i = .ok (.call callee args)) :
    r.exec goTo a (i :: m) = (do
      let g ← Exec.required (lookup r.program.funcs callee).toOption
      record (.call callee.toNat (← pass a callee.toNat g g.params args))
      match ← goTo callee.toNat g.entry with
      | .stopped => return .stopped
      | .returned => r.exec goTo a m) := by
  rw [exec, hp]
  exact required_bind _ _

lemma alike_call (hr : Similar H r r') (h : Tracks H U σ a a') {callee : Int} {args : List Id}
    (hargs : ∀ d ∈ args, U d)
    (hcall : ∀ {j : Nat} {g}, r.program.funcs[j]? = some g →
      Alike (Agree H) Eq (goTo j g.entry) (goTo' j g.entry))
    {k k' : Exec Ending} (hrest : Alike (Agree H) Eq k k') :
    Alike (Agree H) Eq
      (do
        let g ← Exec.required (lookup r.program.funcs callee).toOption
        record (.call callee.toNat (← pass a callee.toNat g g.params args))
        match ← goTo callee.toNat g.entry with
        | .stopped => return .stopped
        | .returned => k)
      (do
        let g ← Exec.required (lookup r'.program.funcs callee).toOption
        record (.call callee.toNat (← pass a' callee.toNat g g.params (args.map σ)))
        match ← goTo' callee.toNat g.entry with
        | .stopped => return .stopped
        | .returned => k') := by
  have hfunc : Alike (Agree H)
      (fun g g' => r.program.funcs[callee.toNat]? = some g ∧ SameFace g g')
      (Exec.required (lookup r.program.funcs callee).toOption)
      (Exec.required (lookup r'.program.funcs callee).toOption) := by
    rw [toOption_lookup, toOption_lookup]
    split
    · cases hg : r.program.funcs[callee.toNat]? with
      | some g =>
        obtain ⟨g', hg', hface⟩ := hr.faces hg
        rw [hg']
        exact Alike.pure ⟨rfl, hface⟩
      | none =>
        have : r'.program.funcs[callee.toNat]? = none := by
          rw [Array.getElem?_eq_none_iff] at hg ⊢
          rw [hr.size]
          exact hg
        rw [this]
        exact Alike.throw _
    · exact Alike.throw _
  refine hfunc.bind ?_
  rintro g g' ⟨hg, hface⟩
  rw [hface.params, hface.entry]
  refine (alike_pass h _ hface.vars hargs).bind ?_
  rintro vs _ rfl
  refine (alike_record _).bind fun _ _ _ => ?_
  refine (hcall hg).bind ?_
  rintro e _ rfl
  cases e with
  | stopped => exact Alike.pure rfl
  | returned => exact hrest

lemma alike_exec_cons (hr : Similar H r r') (h : Tracks H U σ a a')
    (hp : a.func.payload i = .ok x) (hp' : a'.func.payload i = .ok (x.rename σ))
    (hx : ∀ d ∈ x.operands, U d)
    (hbranch : ∀ b ∈ x.targets, Alike (Agree H) Eq (goTo a.number b) (goTo' a.number b))
    (hcall : ∀ {j : Nat} {g}, r.program.funcs[j]? = some g →
      Alike (Agree H) Eq (goTo j g.entry) (goTo' j g.entry))
    (hrest : ∀ v, (∀ y, v = some y → y.Clean H) →
      Alike (Agree H) Eq (r.exec goTo (a.set i v) m) (r'.exec goTo' (a'.set i v) m')) :
    Alike (Agree H) Eq (r.exec goTo a (i :: m)) (r'.exec goTo' a' (i :: m')) := by
  cases hc : x.computes with
  | true =>
    have hc' : (x.rename σ).computes = true := by cases x <;> first | rfl | simp [Payload.computes] at hc
    rw [exec_computes hp hc, exec_computes hp' hc']
    refine (alike_compute hr h hx).bind ?_
    rintro v _ ⟨rfl, hv⟩
    exact hrest v hv
  | false =>
    cases x with
    | stop =>
      rw [exec_stop hp, exec_stop hp']
      exact Alike.pure rfl
    | ret =>
      rw [exec_ret hp, exec_ret hp']
      exact Alike.pure rfl
    | branch b =>
      rw [exec_branch hp, exec_branch hp', h.number]
      exact hbranch b (by simp [Payload.targets])
    | branchIf test cond b c =>
      rw [exec_branchIf hp, exec_branchIf hp', h.number]
      refine (alike_required (p := fun _ => True)
        (h.word? (hx cond (by simp [Payload.operands]))) (by simp)).bind ?_
      rintro w _ ⟨rfl, -⟩
      split
      · exact hbranch b (by simp [Payload.targets])
      · exact hbranch c (by simp [Payload.targets])
    | call callee args =>
      rw [exec_call hp, exec_call hp']
      exact alike_call hr h hx hcall (hrest none (by simp))
    | _ => simp [Payload.computes] at hc

lemma Tracks.set (h : Tracks H U σ a a') {v : Option Value} (hv : ∀ y, v = some y → y.Clean H)
    (hi : σ i = i) (hinj : ∀ d, U d → σ d = i → d = i) :
    Tracks H U σ (a.set i v) (a'.set i v) := by
  cases v with
  | none => exact h
  | some v =>
    refine ⟨h.number, h.vars, h.names, fun d hd => ?_, fun d hd => ?_⟩
    · simp only [Activation.set]
      by_cases hdi : d = i
      · subst hdi
        simp [hi]
      · have : σ d ≠ i := fun he => hdi (hinj d hd he)
        simp [hdi, this, h.values d hd]
    · simp only [Activation.set]
      split
      · exact hv v rfl
      · exact h.clean d hd

lemma alike_exec_append (hr : Similar H r r') {l : List Id}
    (hcall : ∀ {j : Nat} {g}, r.program.funcs[j]? = some g →
      Alike (Agree H) Eq (goTo j g.entry) (goTo' j g.entry)) (h : Tracks H U σ a a')
    (hl : ∀ i ∈ l, (σ i = i ∧ ∀ d, U d → σ d = i → d = i) ∧ ∃ x, a.func.payload i = .ok x ∧
      a'.func.payload i = .ok (x.rename σ) ∧ (∀ d ∈ x.operands, U d) ∧
      ∀ b ∈ x.targets, Alike (Agree H) Eq (goTo a.number b) (goTo' a.number b))
    (hrest : ∀ vs vs', Tracks H U σ { a with values := vs } { a' with values := vs' } →
      Alike (Agree H) Eq (r.exec goTo { a with values := vs } m)
        (r'.exec goTo' { a' with values := vs' } m')) :
    Alike (Agree H) Eq (r.exec goTo a (l ++ m)) (r'.exec goTo' a' (l ++ m')) := by
  induction l generalizing a a' with
  | nil => exact hrest _ _ h
  | cons i l ih =>
    obtain ⟨⟨hi, hinj⟩, x, hp, hp', hx, hb⟩ := hl i (by simp)
    rw [List.cons_append, List.cons_append]
    refine alike_exec_cons hr h hp hp' hx hb hcall fun v hv => ?_
    have hset : ∀ b : Activation, b.set i v = { b with values := (b.set i v).values } := by
      intro b
      cases v <;> rfl
    have htracks := h.set hv hi hinj
    rw [hset a, hset a'] at htracks ⊢
    exact ih htracks (fun j hj => hl j (by simp [hj])) hrest

section Home

variable {k : Nat} {f : Func} {v y : Id} {vs : Id → Value}

lemma cell?_home (hv : (f.varOf? v).isSome) :
    Activation.cell? { number := k, func := f, values := vs } v = some (home k v) := by
  obtain ⟨w, hw⟩ := Option.isSome_iff_exists.mp hv
  simp [Activation.cell?, Activation.object?, hw, home]

lemma run_exec_store (hp : f.live? i = some (.store v y)) (hv : (f.varOf? v).isSome)
    (p : Progress) :
    (r.exec goTo { number := k, func := f, values := vs } (i :: m)).run p =
      (r.exec goTo { number := k, func := f, values := vs } m).run
        (p.store (home k v) (vs y)) := by
  rw [exec_computes (Func.payload_of_live hp) rfl, compute, cell?_home hv]
  rfl

lemma run_exec_load (hp : f.live? i = some (.load v) ∨ f.live? i = some (.loadPair v))
    (hv : (f.varOf? v).isSome) (p : Progress) :
    (r.exec goTo { number := k, func := f, values := vs } (i :: m)).run p =
      (r.exec goTo
        { number := k
          func := f
          values := fun j => if j = i then p.world.cells (home k v) else vs j } m).run p := by
  rcases hp with hp | hp
  · rw [exec_computes (Func.payload_of_live hp) rfl, compute, cell?_home hv]
    rfl
  · rw [exec_computes (Func.payload_of_live hp) rfl, compute, cell?_home hv]
    rfl

end Home

@[simp] lemma store_cells_self (p : Progress) (c : Cell) (v : Value) :
    (p.store c v).world.cells c = v := by
  simp [Progress.store, World.write]

lemma store_cells_of_ne (p : Progress) {c d : Cell} (h : d ≠ c) (v : Value) :
    (p.store c v).world.cells d = p.world.cells d := by
  simp [Progress.store, World.write, h]

/-- Blocks are alike if their code is, however control goes on from it. What is known of the runs of
blocks on one side may be used. -/
lemma alike_block {C : Nat → BlockId → Prop} {G : (Nat → BlockId → Exec Ending) → Prop}
    (hr : Similar H r r') (hG : ∀ n, G (r'.block n))
    (hcode : ∀ {j b g g'}, C j b → r.program.funcs[j]? = some g → r'.program.funcs[j]? = some g' →
      (g.listing? b = none ∧ g'.listing? b = none) ∨ ∃ l l', g.listing? b = some l ∧
        g'.listing? b = some l' ∧ ∀ goTo goTo' : Nat → BlockId → Exec Ending, G goTo' →
          (∀ j b, C j b → Alike (Agree H) Eq (goTo j b) (goTo' j b)) →
          Alike (Agree H) Eq (r.exec goTo { number := j, func := g } l)
            (r'.exec goTo' { number := j, func := g' } l'))
    (n j : Nat) (b : BlockId) (hC : C j b) :
    Alike (Agree H) Eq (r.block n j b) (r'.block n j b) := by
  induction n generalizing j b with
  | zero => exact Alike.throw _
  | succ n ih =>
    have hlisting : ∀ g : Func, (g.code b).toOption = (g.listing? b).map List.toArray := by
      intro g
      unfold Func.listing?
      cases g.code b <;> simp [Except.toOption]
    rw [block, block]
    cases hg : r.program.funcs[j]? with
    | none =>
      have : r'.program.funcs[j]? = none := by
        rw [Array.getElem?_eq_none_iff] at hg ⊢
        rw [hr.size]
        exact hg
      rw [this]
      exact Alike.throw _
    | some g =>
      obtain ⟨g', hg', -⟩ := hr.faces hg
      rw [hg', required_bind, required_bind, hlisting, hlisting]
      rcases hcode hC hg hg' with ⟨hl, hl'⟩ | ⟨l, l', hl, hl', halike⟩
      · rw [hl, hl']
        exact Alike.throw _
      · rw [hl, hl', Option.map_some, Option.map_some, required_bind, required_bind]
        exact (alike_record _).bind fun _ _ _ => halike _ _ (hG n) ih

/-- The same program with another function number `k`. -/
def withFunc (r : Reading) (k : Nat) (f : Func) : Reading :=
  { r with program := { r.program with funcs := r.program.funcs.setIfInBounds k f } }

variable {k : Nat} {f f' : Func}

lemma withFunc_self (hk : r.program.funcs[k]? = some f) :
    (r.withFunc k f').program.funcs[k]? = some f' := by
  have := (Array.getElem?_eq_some_iff.mp hk).1
  simp [withFunc, this]

lemma withFunc_of_ne {j : Nat} (hj : j ≠ k) :
    (r.withFunc k f').program.funcs[j]? = r.program.funcs[j]? := by
  simp [withFunc, hj.symm]

lemma similar_withFunc (hk : r.program.funcs[k]? = some f) (hface : SameFace f f')
    (hvars : ∀ i : Nat, ⟨k, i⟩ ∉ H → f'.varOf? i = f.varOf? i) :
    Similar H r (r.withFunc k f') := by
  refine ⟨rfl, fun o ho => ?_, fun {j g} hg => ?_, by simp [withFunc]⟩
  · unfold cellCount
    by_cases hj : o.func = k
    · rw [hj, withFunc_self hk, hk]
      simp only [hvars o.var (by rw [← hj]; exact ho)]
    · rw [withFunc_of_ne hj]
  · by_cases hj : j = k
    · subst hj
      obtain rfl : f = g := Option.some.inj (hk.symm.trans hg)
      exact ⟨f', withFunc_self hk, hface⟩
    · exact ⟨g, by rw [withFunc_of_ne hj, hg], rfl, rfl, fun _ _ => rfl⟩

lemma alike_exec_same (hr : Similar H r r') {l : List Id}
    (h : Tracks H (fun _ => True) id a a') (hfunc : a'.func = a.func)
    (hbranch : ∀ b, Alike (Agree H) Eq (goTo a.number b) (goTo' a.number b))
    (hcall : ∀ {j : Nat} {g}, r.program.funcs[j]? = some g →
      Alike (Agree H) Eq (goTo j g.entry) (goTo' j g.entry)) :
    Alike (Agree H) Eq (r.exec goTo a l) (r'.exec goTo' a' l) := by
  induction l generalizing a a' with
  | nil => exact Alike.throw _
  | cons i l ih =>
    cases hp : a.func.payload i with
    | error e =>
      rw [exec, exec, hfunc, hp]
      exact Alike.throw _
    | ok x =>
      have hid : x.rename id = x := Payload.rename_of_fixed fun _ _ => rfl
      refine alike_exec_cons hr h hp (by rw [hfunc, hp, hid]) (fun _ _ => trivial)
        (fun b _ => hbranch b) hcall fun v hv => ?_
      have htracks := h.set (i := i) hv rfl fun _ _ h => h
      have hnum : ∀ b : Activation, (b.set i v).number = b.number ∧ (b.set i v).func = b.func := by
        intro b
        cases v <;> exact ⟨rfl, rfl⟩
      refine ih htracks (by rw [(hnum a).2, (hnum a').2, hfunc]) ?_
      rw [(hnum a).1]
      exact hbranch

/-- Programs that differ in one function are alike if its code is, given what is known of the runs of
blocks in the new program. -/
theorem alike_withFunc_given {G : (Nat → BlockId → Exec Ending) → Prop}
    (hG : ∀ n, G ((r.withFunc k f').block n)) (hk : r.program.funcs[k]? = some f)
    (hsim : Similar H r (r.withFunc k f')) (hH : ∀ o ∈ H, o.func = k) {R : BlockId → Prop} (hentry : R f.entry)
    (hcode : ∀ b, R b → ∃ l l', f.listing? b = some l ∧ f'.listing? b = some l' ∧
      ∀ goTo goTo' : Nat → BlockId → Exec Ending, G goTo' →
        (∀ c, R c → Alike (Agree H) Eq (goTo k c) (goTo' k c)) →
        (∀ {j : Nat} {g}, r.program.funcs[j]? = some g →
          Alike (Agree H) Eq (goTo j g.entry) (goTo' j g.entry)) →
        Alike (Agree H) Eq (r.exec goTo { number := k, func := f } l)
          ((r.withFunc k f').exec goTo' { number := k, func := f' } l'))
    (n j : Nat) (b : BlockId) (hb : j = k → R b) :
    Alike (Agree H) Eq (r.block n j b) ((r.withFunc k f').block n j b) := by
  refine alike_block (C := fun j b => j = k → R b) hsim hG (fun {j b g g'} hC hg hg' => ?_) n j b hb
  have hcalls : ∀ goTo goTo' : Nat → BlockId → Exec Ending,
      (∀ j b, (j = k → R b) → Alike (Agree H) Eq (goTo j b) (goTo' j b)) →
      ∀ {j : Nat} {g}, r.program.funcs[j]? = some g →
        Alike (Agree H) Eq (goTo j g.entry) (goTo' j g.entry) := by
    intro goTo goTo' hgo j g hg
    refine hgo j g.entry fun hj => ?_
    subst hj
    obtain rfl : f = g := Option.some.inj (hk.symm.trans hg)
    exact hentry
  by_cases hj : j = k
  · subst hj
    obtain rfl : f = g := Option.some.inj (hk.symm.trans hg)
    obtain rfl : f' = g' := Option.some.inj ((withFunc_self hk).symm.trans hg')
    obtain ⟨l, l', hl, hl', halike⟩ := hcode b (hC rfl)
    refine Or.inr ⟨l, l', hl, hl', fun goTo goTo' hG' hgo => ?_⟩
    exact halike goTo goTo' hG' (fun c hc => hgo j c fun _ => hc) (hcalls goTo goTo' hgo)
  · rw [withFunc_of_ne hj, hg] at hg'
    obtain rfl := Option.some.inj hg'
    cases hl : g.listing? b with
    | none => exact Or.inl ⟨rfl, rfl⟩
    | some l =>
      refine Or.inr ⟨l, l, rfl, rfl, fun goTo goTo' _ hgo => ?_⟩
      refine alike_exec_same hsim ⟨rfl, fun _ _ => rfl, fun d v _ _ => ⟨rfl, fun hmem => ?_⟩,
        fun _ _ => rfl, fun _ _ => Value.clean_nothing H⟩ rfl
        (fun c => hgo j c fun h => absurd h hj) (hcalls goTo goTo' hgo)
      exact hj (hH _ hmem)

/-- Programs that differ in one function are alike if its code is. -/
theorem alike_withFunc (hk : r.program.funcs[k]? = some f) (hsim : Similar H r (r.withFunc k f'))
    (hH : ∀ o ∈ H, o.func = k) {R : BlockId → Prop} (hentry : R f.entry)
    (hcode : ∀ b, R b → ∃ l l', f.listing? b = some l ∧ f'.listing? b = some l' ∧
      ∀ goTo goTo' : Nat → BlockId → Exec Ending,
        (∀ c, R c → Alike (Agree H) Eq (goTo k c) (goTo' k c)) →
        (∀ {j : Nat} {g}, r.program.funcs[j]? = some g →
          Alike (Agree H) Eq (goTo j g.entry) (goTo' j g.entry)) →
        Alike (Agree H) Eq (r.exec goTo { number := k, func := f } l)
          ((r.withFunc k f').exec goTo' { number := k, func := f' } l'))
    (n j : Nat) (b : BlockId) (hb : j = k → R b) :
    Alike (Agree H) Eq (r.block n j b) ((r.withFunc k f').block n j b) := by
  refine alike_withFunc_given (G := fun _ => True) (fun _ => trivial) hk hsim hH hentry ?_ n j b hb
  intro b hb
  obtain ⟨l, l', hl, hl', halike⟩ := hcode b hb
  exact ⟨l, l', hl, hl', fun goTo goTo' _ => halike goTo goTo'⟩

lemma withFunc_withFunc (r : Reading) (k : Nat) (f f' : Func) :
    (r.withFunc k f).withFunc k f' = r.withFunc k f' := by
  simp [withFunc]

lemma withFunc_eq_self (hk : r.program.funcs[k]? = some f) : r.withFunc k f = r := by
  have : r.program.funcs.setIfInBounds k f = r.program.funcs := by
    refine Array.ext_getElem? fun i => ?_
    rw [Array.getElem?_setIfInBounds]
    split
    · rename_i hki
      subst hki
      rw [if_pos (Array.getElem?_eq_some_iff.mp hk).1, hk]
    · rfl
  unfold withFunc
  rw [this]

/-- Progress that is the same but for the contents of hidden objects and stores to them. -/
structure SameBut (H : List Object) (s t : Progress) : Prop where
  cells : ∀ c, c.object ∉ H → s.world.cells c = t.world.cells c
  input : s.world.input = t.world.input
  output : s.world.output = t.world.output
  trace : s.trace.filter (·.avoids H) = t.trace.filter (·.avoids H)

lemma SameBut.refl (s : Progress) : SameBut H s s := ⟨fun _ _ => rfl, rfl, rfl, rfl⟩

lemma avoids_append (H H' : List Object) (e : Event) :
    e.avoids (H ++ H') = (e.avoids H && e.avoids H') := by
  cases e <;> simp [Event.avoids]

lemma SameBut.trans {H' : List Object} {u : Progress} (h : SameBut H s t) (h' : SameBut H' t u) :
    SameBut (H ++ H') s u := by
  refine ⟨fun c hc => ?_, h.input.trans h'.input, h.output.trans h'.output, ?_⟩
  · rw [List.mem_append, not_or] at hc
    exact (h.cells c hc.1).trans (h'.cells c hc.2)
  · have hfilter : ∀ l : List Event, l.filter (·.avoids (H ++ H')) =
        (l.filter (·.avoids H)).filter (·.avoids H') := by
      intro l
      rw [List.filter_filter]
      refine List.filter_congr fun e _ => ?_
      rw [avoids_append, Bool.and_comm]
    have hcomm : ∀ l : List Event, (l.filter (·.avoids H)).filter (·.avoids H') =
        (l.filter (·.avoids H')).filter (·.avoids H) := by
      intro l
      rw [List.filter_filter, List.filter_filter]
      exact List.filter_congr fun e _ => Bool.and_comm _ _
    rw [hfilter, hfilter, h.trace, hcomm, h'.trace, ← hcomm]

/-- Function number `j` runs the same in both programs but for hidden objects, at every depth and
from every world in which nothing points to them. -/
def SameRuns (H : List Object) (r r' : Reading) (j : Nat) : Prop :=
  ∀ n w, (∀ c, (w.cells c).Clean H) →
    (r'.runFunc n j w).1 = (r.runFunc n j w).1 ∧ SameBut H (r.runFunc n j w).2 (r'.runFunc n j w).2

lemma SameRuns.refl (r : Reading) (j : Nat) : SameRuns H r r j :=
  fun _ _ _ => ⟨rfl, SameBut.refl _⟩

lemma SameRuns.trans {H' : List Object} {r'' : Reading} {j : Nat} (h : SameRuns H r r' j)
    (h' : SameRuns H' r' r'' j) : SameRuns (H ++ H') r r'' j := by
  intro n w hw
  have hclean : ∀ c, (w.cells c).Clean H ∧ (w.cells c).Clean H' := by
    intro c
    refine ⟨fun d hd hmem => hw c d hd (by simp [hmem]), fun d hd hmem => hw c d hd (by simp [hmem])⟩
  obtain ⟨h₁, h₂⟩ := h n w fun c => (hclean c).1
  obtain ⟨h₁', h₂'⟩ := h' n w fun c => (hclean c).2
  exact ⟨h₁'.trans h₁, h₂.trans h₂'⟩

lemma runFunc_some {j : Nat} {g : Func} (hg : r.program.funcs[j]? = some g) (n : Nat)
    (w : World Value) : r.runFunc n j w = (r.block n j g.entry).run { world := w } := by
  unfold runFunc
  rw [hg]
  exact congrArg (fun x : Exec Ending => x.run { world := w }) (required_bind g _)

lemma runFunc_none {j : Nat} (hg : r.program.funcs[j]? = none) (n : Nat) (w : World Value) :
    r.runFunc n j w = (.error .senseless, { world := w }) := by
  unfold runFunc
  rw [hg]
  rfl

lemma SameBut.of_matching {x y : Except Interrupt Ending × Progress}
    (h : Matching (Agree H) Eq x y) : y.1 = x.1 ∧ SameBut H x.2 y.2 := by
  rcases x with ⟨e | e, s⟩ <;> rcases y with ⟨e' | e', t⟩
  · exact ⟨by rw [h.1], h.2.cells, h.2.input, h.2.output, h.2.trace⟩
  · exact h.elim
  · exact h.elim
  · exact ⟨by rw [h.1], h.2.cells, h.2.input, h.2.output, h.2.trace⟩

lemma sameRuns_of_alike (hr : Similar H r r') {j : Nat}
    (h : ∀ n g, r.program.funcs[j]? = some g →
      Alike (Agree H) Eq (r.block n j g.entry) (r'.block n j g.entry)) : SameRuns H r r' j := by
  intro n w hw
  cases hg : r.program.funcs[j]? with
  | none =>
    have hg' : r'.program.funcs[j]? = none := by
      rw [Array.getElem?_eq_none_iff] at hg ⊢
      rw [hr.size]
      exact hg
    rw [runFunc_none hg, runFunc_none hg']
    exact ⟨rfl, SameBut.refl _⟩
  | some g =>
    obtain ⟨g', hg', hface⟩ := hr.faces hg
    rw [runFunc_some hg, runFunc_some hg', hface.entry]
    exact SameBut.of_matching (h n g hg _ _ ⟨fun _ _ => rfl, rfl, rfl, rfl, hw, hw⟩)

end Reading

end Accumulator.Flow
