import Mathlib
import Accumulator.Tree.Build
import Accumulator.Tree.Decode
import Accumulator.Proofs.Exec

/-!
# Linked trees

A tree that was linked has no missing parts: its names refer to declarations of their
procedure, comparisons stand on top of conditions only, what is assigned to is a variable or an
element, and calls lead to earlier procedures and pass as many arguments as these have parameters.
-/

namespace Accumulator.Tree

/-- Whether a name refers to a declaration of the procedure. -/
def Proc.Declares (d : Proc) : Ref → Prop
  | .param i => i < d.params.length
  | .localVar i => i < d.locals.length
  | _ => False

/-- A value all of whose names are declared, without comparisons. -/
def Expr.Linked (d : Proc) : Expr → Prop
  | .missing => False
  | .number _ _ => True
  | .ident _ ref => d.Declares ref
  | .index _ ref offset => d.Declares ref ∧ offset.Linked d
  | .binary _ op l r => op.isRelational = false ∧ op.toFlow?.isSome ∧ l.Linked d ∧ r.Linked d

/-- A condition: a comparison of values, or a value. -/
def Expr.LinkedTest (d : Proc) : Expr → Prop
  | .binary _ op l r => op.toFlow?.isSome ∧ l.Linked d ∧ r.Linked d
  | e => e.Linked d

/-- What can be assigned to. -/
def Expr.LinkedTarget (d : Proc) : Expr → Prop
  | .ident _ ref => d.Declares ref
  | .index _ ref offset => d.Declares ref ∧ offset.Linked d
  | _ => False

/-- What can be passed to a procedure. -/
def Expr.LinkedArgument (d : Proc) : Expr → Prop
  | .ident _ ref => d.Declares ref
  | _ => False

/-- Statements of procedure `d`. Calls pass a number of arguments that the called procedures may have
by `arity`. -/
inductive Linked (arity : Nat → Nat → Prop) (d : Proc) : List Stmt → Prop where
  | nil : Linked arity d []
  | assign {pos : Position} {dst src : Expr} {rest : List Stmt} :
    dst.LinkedTarget d → src.Linked d → Linked arity d rest →
    Linked arity d (.assign pos dst src :: rest)
  | read {pos : Position} {dst : Expr} {rest : List Stmt} :
    dst.LinkedTarget d → Linked arity d rest → Linked arity d (.read pos dst :: rest)
  | write {pos : Position} {src : Expr} {rest : List Stmt} :
    src.Linked d → Linked arity d rest → Linked arity d (.write pos src :: rest)
  | call {pos : Position} {k : Nat} {args : List Expr} {rest : List Stmt} :
    arity k args.length → (∀ e ∈ args, e.LinkedArgument d) → Linked arity d rest →
    Linked arity d (.call pos (some k) args :: rest)
  | choose {pos : Position} {cond : Expr} {yes no rest : List Stmt} :
    cond.LinkedTest d → Linked arity d yes → Linked arity d no → Linked arity d rest →
    Linked arity d (.choose pos cond yes no :: rest)
  | loop {pos : Position} {cond : Expr} {body rest : List Stmt} :
    cond.LinkedTest d → Linked arity d body → Linked arity d rest →
    Linked arity d (.loop pos cond body :: rest)
  | untilLoop {pos : Position} {cond : Expr} {body rest : List Stmt} :
    cond.LinkedTest d → Linked arity d body → Linked arity d rest →
    Linked arity d (.untilLoop pos body cond :: rest)

/-- The numbers of parameters of some procedures. -/
def arities (procs : List Proc) (n : Nat) : Option Nat := (procs[n]?).map (·.params.length)

/-- Procedure number `n` takes `m` arguments. -/
def takes (procs : List Proc) (n m : Nat) : Prop := arities procs n = some m

/-- A program whose main program comes last, without parameters, and whose procedures only call
earlier ones. -/
structure File.Linked (file : File) : Prop where
  main : ∃ procs d, file.decls = procs ++ [d] ∧ d.isMain = true ∧ d.params = [] ∧
    ∀ p ∈ procs, p.isMain = false
  bodies : ∀ {k d}, file.decls[k]? = some d → Tree.Linked (takes (file.decls.take k)) d d.body

/-- Procedure number `n` is not `k`, and takes `m` arguments. -/
def File.arity (file : File) (k n m : Nat) : Prop := n ≠ k ∧ takes file.decls n m

/-- A program in which every procedure is linked to the others. -/
structure File.Sensible (file : File) : Prop where
  main : file.decls.countP (·.isMain) = 1
  bodies : ∀ {k d}, file.decls[k]? = some d → Tree.Linked (file.arity k) d d.body

mutual

/-- The procedures that a statement calls, with the numbers of arguments. -/
def Stmt.calls : Stmt → List (Nat × Nat)
  | .call _ (some k) args => [(k, args.length)]
  | .choose _ _ yes no => callsIn yes ++ callsIn no
  | .loop _ _ body => callsIn body
  | .untilLoop _ body _ => callsIn body
  | _ => []

/-- The procedures that statements call. -/
def callsIn : List Stmt → List (Nat × Nat)
  | [] => []
  | s :: rest => s.calls ++ callsIn rest

end

/-- Procedure number `k` calls procedure number `m`. -/
def File.Calls (file : File) (k m : Nat) : Prop :=
  ∃ d n, file.decls[k]? = some d ∧ (m, n) ∈ callsIn d.body

/-- Calls pass as many arguments as there are parameters, and never lead back to the caller. -/
structure File.Calling (file : File) : Prop where
  arity : ∀ {k m n : Nat} {d : Proc}, file.decls[k]? = some d → (m, n) ∈ callsIn d.body →
    arities file.decls m = some n
  acyclic : ∀ k, ¬ Relation.TransGen file.Calls k k

section Calls

variable {arity arity' : Nat → Nat → Prop} {d : Proc} {ss : List Stmt} {file : File}

lemma Linked.mono (h : Linked arity d ss)
    (ha : ∀ n m, (n, m) ∈ callsIn ss → arity n m → arity' n m) :
    Linked arity' d ss := by
  induction h with
  | nil => exact .nil
  | assign hdst hsrc _ ih => exact .assign hdst hsrc (ih fun n m h => ha n m (by simp [callsIn, h]))
  | read hdst _ ih => exact .read hdst (ih fun n m h => ha n m (by simp [callsIn, h]))
  | write hsrc _ ih => exact .write hsrc (ih fun n m h => ha n m (by simp [callsIn, h]))
  | call hk hargs _ ih =>
    exact .call (ha _ _ (by simp [callsIn, Stmt.calls]) hk) hargs
      (ih fun n m h => ha n m (by simp [callsIn, h]))
  | choose hcond _ _ _ ihyes ihno ih =>
    exact .choose hcond (ihyes fun n m h => ha n m (by simp [callsIn, Stmt.calls, h]))
      (ihno fun n m h => ha n m (by simp [callsIn, Stmt.calls, h]))
      (ih fun n m h => ha n m (by simp [callsIn, h]))
  | loop hcond _ _ ihbody ih =>
    exact .loop hcond (ihbody fun n m h => ha n m (by simp [callsIn, Stmt.calls, h]))
      (ih fun n m h => ha n m (by simp [callsIn, h]))
  | untilLoop hcond _ _ ihbody ih =>
    exact .untilLoop hcond (ihbody fun n m h => ha n m (by simp [callsIn, Stmt.calls, h]))
      (ih fun n m h => ha n m (by simp [callsIn, h]))

lemma Linked.calls (h : Linked arity d ss) {k n : Nat} (hk : (k, n) ∈ callsIn ss) :
    arity k n := by
  induction h with
  | nil => simp [callsIn] at hk
  | assign _ _ _ ih => exact ih (by simpa [callsIn, Stmt.calls] using hk)
  | read _ _ ih => exact ih (by simpa [callsIn, Stmt.calls] using hk)
  | write _ _ ih => exact ih (by simpa [callsIn, Stmt.calls] using hk)
  | call hargs _ _ ih =>
    simp only [callsIn, Stmt.calls, List.singleton_append, List.mem_cons, Prod.mk.injEq] at hk
    rcases hk with ⟨rfl, rfl⟩ | hk
    · exact hargs
    · exact ih hk
  | choose _ _ _ _ ihyes ihno ih =>
    simp only [callsIn, Stmt.calls, List.mem_append] at hk
    rcases hk with (hk | hk) | hk
    · exact ihyes hk
    · exact ihno hk
    · exact ih hk
  | loop _ _ _ ihbody ih =>
    simp only [callsIn, Stmt.calls, List.mem_append] at hk
    exact hk.elim ihbody ih
  | untilLoop _ _ _ ihbody ih =>
    simp only [callsIn, Stmt.calls, List.mem_append] at hk
    exact hk.elim ihbody ih

lemma arities_take {procs : List Proc} {k m n : Nat} (h : arities (procs.take k) m = some n) :
    m < k ∧ arities procs m = some n := by
  unfold arities at h
  rw [List.getElem?_take] at h
  split at h
  · next hlt => exact ⟨hlt, h⟩
  · cases h

lemma File.Linked.calling (h : file.Linked) : file.Calling := by
  have hless : ∀ {k m}, file.Calls k m → m < k := by
    rintro k m ⟨d, n, hd, hm⟩
    exact (arities_take ((h.bodies hd).calls hm)).1
  refine ⟨fun hd hm => (arities_take ((h.bodies hd).calls hm)).2, fun k hk => ?_⟩
  have hlt : ∀ {m}, Relation.TransGen file.Calls k m → m < k := by
    intro m hm
    induction hm with
    | single hstep => exact hless hstep
    | tail _ hstep ih => exact (hless hstep).trans ih
  exact (hlt hk).false

lemma eq_of_countP_eq_one {α : Type} {q : α → Bool} {l : List α} (h : l.countP q = 1) {m k : Nat}
    {x y : α} (hm : l[m]? = some x) (hx : q x = true) (hk : l[k]? = some y) (hy : q y = true) :
    m = k := by
  have hnot : ∀ {m k : Nat} {x y : α}, m < k → l[m]? = some x → q x = true → l[k]? = some y →
      q y = true → False := by
    intro m k x y hlt hm hx hk hy
    have hleft : 0 < (l.take k).countP q :=
      List.countP_pos_iff.mpr ⟨x, List.mem_of_getElem? (i := m) (by rw [List.getElem?_take_of_lt hlt, hm]),
        hx⟩
    have hright : 0 < (l.drop k).countP q :=
      List.countP_pos_iff.mpr ⟨y, List.mem_of_getElem? (i := 0) (by rw [List.getElem?_drop]; exact hk),
        hy⟩
    have hsum : (l.take k).countP q + (l.drop k).countP q = 1 := by
      rw [← List.countP_append, List.take_append_drop, h]
    omega
  rcases Nat.lt_trichotomy m k with hlt | heq | hlt
  · exact (hnot hlt hm hx hk hy).elim
  · exact heq
  · exact (hnot hlt hk hy hm hx).elim

lemma File.exists_main (hone : file.decls.countP (·.isMain) = 1) :
    ∃ k d, file.main? = some k ∧ file.decls[k]? = some d ∧ d.isMain = true := by
  have hsome : file.main?.isSome = true := by
    rw [File.main?, List.findIdx?_isSome, List.any_eq_true]
    exact List.countP_pos_iff.mp (by rw [hone]; exact Nat.one_pos)
  obtain ⟨k, hk⟩ := Option.isSome_iff_exists.mp hsome
  obtain ⟨hlt, hmain, -⟩ := List.findIdx?_eq_some_iff_getElem.mp hk
  exact ⟨k, _, hk, List.getElem?_eq_getElem hlt, hmain⟩

lemma File.Linked.params (h : file.Linked) (hd : d ∈ file.decls) (hmain : d.isMain = true) :
    d.params = [] := by
  obtain ⟨procs, e, heq, -, hparams, hprocs⟩ := h.main
  rw [heq] at hd
  rcases List.mem_append.mp hd with hd | hd
  · rw [hprocs d hd] at hmain
    cases hmain
  · rw [List.mem_singleton.mp hd]
    exact hparams

lemma File.Linked.sensible (h : file.Linked) : file.Sensible := by
  refine ⟨?_, fun {k d} hd => (h.bodies hd).mono fun n m _ hn => ?_⟩
  · obtain ⟨procs, d, heq, hd, -, hprocs⟩ := h.main
    have hnone : procs.countP (·.isMain) = 0 :=
      List.countP_eq_zero.mpr fun p hp => by simp [hprocs p hp]
    rw [heq, List.countP_append, hnone, List.countP_singleton, if_pos hd]
  · obtain ⟨hlt, hn⟩ := arities_take hn
    have hk : k < file.decls.length := (List.getElem?_eq_some_iff.mp hd).1
    exact ⟨by omega, hn⟩

end Calls

lemma inPart_eq_ok {α : Type} {part : Bytes} {x : Except DecodeError α} {a : α} :
    inPart part x = .ok a ↔ x = .ok a := by
  cases x <;> simp [inPart]

lemma Linked.append {arity : Nat → Nat → Prop} {d : Proc} {s : Stmt} {rest : List Stmt}
    (hs : Linked arity d [s]) (hrest : Linked arity d rest) : Linked arity d (s :: rest) := by
  cases hs with
  | assign h₁ h₂ _ => exact .assign h₁ h₂ hrest
  | read h _ => exact .read h hrest
  | write h _ => exact .write h hrest
  | call h₁ h₂ _ => exact .call h₁ h₂ hrest
  | choose h₁ h₂ h₃ _ => exact .choose h₁ h₂ h₃ hrest
  | loop h₁ h₂ _ => exact .loop h₁ h₂ hrest
  | untilLoop h₁ h₂ _ => exact .untilLoop h₁ h₂ hrest

lemma Op.toFlow?_of_ofSymbol? {s : Bytes} {op : Op} (h : Op.ofSymbol? s = some op) :
    op.toFlow?.isSome := by
  have hmem := List.mem_of_find?_eq_some h
  simp only [Op.all, List.mem_cons, List.not_mem_nil, or_false] at hmem
  rcases hmem with rfl | rfl | rfl | rfl | rfl | rfl | rfl | rfl | rfl | rfl | rfl <;> rfl

/-- The names of a procedure lead to its declarations and to earlier procedures. -/
structure Names.Resolves (c : Names) (before : List Proc) (d : Proc) : Prop where
  vars : ∀ {name ref}, c.ref? name = some ref → d.Declares ref
  procs : ∀ {name p}, c.callee? name = some p →
    ∃ callee, before[p.number]? = some callee ∧ callee.params.length = p.arity

section Body

variable {c : Names} {before : List Proc} {d : Proc}

lemma Expr.LinkedTest.of_linked {e : Expr} (h : e.Linked d) : e.LinkedTest d := by
  cases e with
  | binary pos op l r => exact h.2
  | _ => exact h

namespace Names

lemma linked_of_inPart {key : String} {part : Bytes} {es : List (Node × Node)} {l : Expr}
    (hes : ∀ v : Node, sizeOf v < sizeOf es → ∀ {e}, c.value false v = .ok e →
      e.LinkedTest d ∧ (false = false → e.Linked d))
    (h : inPart part (match lastUnder? key es with
      | some ⟨v, _⟩ => c.value false v
      | none => .error .expressionMissing) = .ok l) : l.Linked d := by
  rw [inPart_eq_ok] at h
  split at h
  · exact (hes _ (by assumption) h).2 rfl
  · cases h

/-- What is read as a value is linked, and what is read as a condition is a condition. -/
lemma Resolves.value (hc : c.Resolves before d) {b : Bool} {n : Node} {e : Expr}
    (h : c.value b n = .ok e) : e.LinkedTest d ∧ (b = false → e.Linked d) := by
  fun_induction Names.value c b n generalizing e with
  | case1 => cases h; exact ⟨trivial, fun _ => trivial⟩
  | case2 _ _ _ _ _ _ href => cases h; exact ⟨hc.vars href, fun _ => hc.vars href⟩
  | case5 _ _ _ _ _ _ _ href ih =>
    rw [bind_eq_ok] at h
    obtain ⟨offset, hoffset, h⟩ := h
    cases h
    have hlinked := linked_of_inPart ih hoffset
    exact ⟨⟨hc.vars href, hlinked⟩, fun _ => ⟨hc.vars href, hlinked⟩⟩
  | case9 _ _ _ _ _ _ _ op hop hrel ih =>
    rw [bind_eq_ok] at h
    obtain ⟨l, hl, h⟩ := h
    rw [bind_eq_ok] at h
    obtain ⟨r, hr, h⟩ := h
    cases h
    have hflow := Op.toFlow?_of_ofSymbol? hop
    have hleft := linked_of_inPart ih hl
    have hright := linked_of_inPart ih hr
    refine ⟨⟨hflow, hleft, hright⟩, fun hb => ⟨?_, hflow, hleft, hright⟩⟩
    simpa [hb] using hrel
  | _ => cases h

lemma Resolves.target (hc : c.Resolves before d) {n : Node} {e : Expr} (h : c.target n = .ok e) :
    e.LinkedTarget d := by
  rw [Names.target, bind_eq_ok] at h
  obtain ⟨e', he', h⟩ := h
  have hlinked := (hc.value he').2 rfl
  cases e' with
  | ident pos ref => cases h; exact hlinked
  | index pos ref offset => cases h; exact hlinked
  | _ => cases h

lemma Resolves.argument (hc : c.Resolves before d) {n : Node} {e : Expr}
    (h : c.argument n = .ok e) : e.LinkedArgument d := by
  rw [Names.argument, bind_eq_ok] at h
  obtain ⟨e', he', h⟩ := h
  have hlinked := (hc.value (inPart_eq_ok.mp he')).2 rfl
  cases e' with
  | ident pos ref => cases h; exact hlinked
  | _ => cases h

lemma Resolves.arguments (hc : c.Resolves before d) {n : Option Node} {args : List Expr}
    (h : c.arguments n = .ok args) : ∀ e ∈ args, e.LinkedArgument d := by
  have hitems : ∀ {items : List Node} {args : List Expr},
      items.mapM c.argument = .ok args → ∀ e ∈ args, e.LinkedArgument d := by
    intro items
    induction items with
    | nil =>
      intro args h
      cases h
      simp
    | cons n rest ih =>
      intro args h
      rw [List.mapM_cons, bind_eq_ok] at h
      obtain ⟨e, he, h⟩ := h
      rw [bind_eq_ok] at h
      obtain ⟨es, hes, h⟩ := h
      cases h
      rw [List.forall_mem_cons]
      exact ⟨hc.argument he, ih hes⟩
  cases n with
  | none => cases h; simp
  | some n =>
    cases n with
    | sequence _ items => exact hitems h
    | _ => cases h

lemma Resolves.call (hc : c.Resolves before d) {pos : Position} {name : Bytes}
    {args : Option Node} {s : Stmt} (h : c.call pos name args = .ok s) :
    Linked (takes before) d [s] := by
  unfold Names.call at h
  split at h
  · cases h
  · next p hp =>
    rw [bind_eq_ok] at h
    obtain ⟨es, hes, h⟩ := h
    split at h
    · cases h
    · next hlen =>
      cases h
      obtain ⟨callee, hcallee, harity⟩ := hc.procs hp
      refine .call ?_ (hc.arguments hes) .nil
      rw [takes, arities, hcallee, Option.map_some, harity, not_not.mp hlen]

lemma Resolves.mapping (hc : c.Resolves before d) {pos : Position}
    {es : List (Node × Node)}
    (hbranch : ∀ {key ss}, c.branch es key = .ok ss → Linked (takes before) d ss) {s : Stmt}
    (h : c.stmt (.mapping pos es) = .ok s) : Linked (takes before) d [s] := by
  have hvalue : ∀ {b : Bool} {n : Option Node} {e : Expr}, c.valueOf b n = .ok e →
      e.LinkedTest d ∧ (b = false → e.Linked d) := by
    intro b n e h
    cases n with
    | none => cases h
    | some n => exact hc.value h
  rw [Names.stmt] at h
  dsimp only at h
  split at h
  · simp only [bind_eq_ok, inPart_eq_ok] at h
    obtain ⟨dst, hdst, src, hsrc, h⟩ := h
    cases h
    exact .assign (hc.target hdst) ((hvalue hsrc).2 rfl) .nil
  split at h
  · simp only [bind_eq_ok, inPart_eq_ok] at h
    obtain ⟨cond, hcond, yes, hyes, no, hno, h⟩ := h
    cases h
    exact .choose (hc.value hcond).1 (hbranch hyes) (hbranch hno) .nil
  split at h
  · simp only [bind_eq_ok, inPart_eq_ok] at h
    obtain ⟨cond, hcond, body, hbody, h⟩ := h
    cases h
    exact .loop (hc.value hcond).1 (hbranch hbody) .nil
  split at h
  · simp only [bind_eq_ok, inPart_eq_ok] at h
    obtain ⟨body, hbody, cond, hcond, h⟩ := h
    cases h
    exact .untilLoop (hvalue hcond).1 (hbranch hbody) .nil
  split at h
  · exact hc.call h
  split at h
  · simp only [bind_eq_ok] at h
    obtain ⟨dst, hdst, h⟩ := h
    cases h
    exact .read (hc.target hdst) .nil
  split at h
  · simp only [bind_eq_ok] at h
    obtain ⟨src, hsrc, h⟩ := h
    cases h
    exact .write ((hc.value hsrc).2 rfl) .nil
  · cases h

mutual

lemma Resolves.stmt (hc : c.Resolves before d) (n : Node) {s : Stmt} (h : c.stmt n = .ok s) :
    Linked (takes before) d [s] := by
  match n with
  | .mapping pos es => exact hc.mapping (fun {key _} => hc.branch es key) h
  | .scalar _ _ | .sequence _ _ | .alias _ _ => rw [Names.stmt] at h; cases h
  termination_by sizeOf n

lemma Resolves.branch (hc : c.Resolves before d) (es : List (Node × Node)) (key : String)
    {ss : List Stmt} (h : c.branch es key = .ok ss) : Linked (takes before) d ss := by
  rw [Names.branch] at h
  split at h
  · cases h
    exact .nil
  · next n _ _ => exact hc.block n h
  termination_by sizeOf es

lemma Resolves.block (hc : c.Resolves before d) (n : Node) {ss : List Stmt}
    (h : c.block n = .ok ss) : Linked (takes before) d ss := by
  match n with
  | .sequence _ items =>
    rw [Names.block] at h
    exact hc.stmts items h
  | .scalar _ _ | .mapping _ _ | .alias _ _ => rw [Names.block] at h; cases h
  termination_by sizeOf n

lemma Resolves.stmts (hc : c.Resolves before d) (l : List Node) {ss : List Stmt}
    (h : c.stmts l = .ok ss) : Linked (takes before) d ss := by
  match l with
  | [] =>
    rw [Names.stmts] at h
    cases h
    exact .nil
  | n :: rest =>
    simp only [Names.stmts, bind_eq_ok] at h
    obtain ⟨s, hs, ss, hss, h⟩ := h
    cases h
    exact (hc.stmt n hs).append (hc.stmts rest hss)
  termination_by sizeOf l

end

end Names

end Body

lemma declare_eq_ok {scope scope' : List (Bytes × Ref)} {name : Bytes} {ref : Ref}
    (h : declare scope name ref = .ok scope') : scope' = (name, ref) :: scope := by
  unfold declare at h
  split at h
  · cases h
  split at h
  · cases h
  · cases h
    rfl

lemma declared_of_foldlM {α : Type} {f : List (Bytes × Ref) → α → Nat → Except DecodeError (List (Bytes × Ref))}
    {g : Nat → Ref} (hf : ∀ {scope a i scope'}, f scope a i = .ok scope' →
      ∃ name, scope' = (name, g i) :: scope)
    {P : Ref → Prop} {l : List (α × Nat)} (hP : ∀ p ∈ l, P (g p.2)) {scope scope' : List (Bytes × Ref)}
    (hscope : ∀ p ∈ scope, P p.2)
    (h : l.foldlM (fun scope (a, i) => f scope a i) scope = .ok scope') : ∀ p ∈ scope', P p.2 := by
  induction l generalizing scope with
  | nil =>
    cases h
    exact hscope
  | cons q rest ih =>
    rw [List.foldlM_cons, bind_eq_ok] at h
    obtain ⟨mid, hmid, h⟩ := h
    obtain ⟨name, rfl⟩ := hf hmid
    refine ih (fun p hp => hP p (by simp [hp])) ?_ h
    rw [List.forall_mem_cons]
    exact ⟨hP q (by simp), hscope⟩

namespace RawProc

variable {rp : RawProc} {d : Proc}

lemma scope_declares {vars : List (Bytes × Ref)} (h : rp.scope = .ok vars)
    (hparams : d.params.length = rp.params.length) (hlocals : d.locals.length = rp.locals.length) :
    ∀ p ∈ vars, d.Declares p.2 := by
  rw [RawProc.scope, bind_eq_ok] at h
  obtain ⟨params, hp, hl⟩ := h
  have hnum : ∀ {α : Type} {l : List α} {p : α × Nat}, p ∈ l.zipIdx → p.2 < l.length := by
    intro α l p hp
    have := List.snd_lt_of_mem_zipIdx hp
    simpa using this
  refine declared_of_foldlM (g := .localVar) ?_ ?_
    (declared_of_foldlM (g := .param) ?_ ?_ (by simp) hp) hl
  · intro scope v i scope' h
    unfold RawLocal.declare at h
    split at h
    · cases h
    · exact ⟨_, declare_eq_ok h⟩
  · intro p hp
    have hlt := hnum hp
    rw [← hlocals] at hlt
    exact hlt
  · intro scope p i scope' h
    unfold RawParam.declare at h
    split at h
    · cases h
    · exact ⟨_, declare_eq_ok h⟩
  · intro p hp
    have hlt := hnum hp
    rw [← hparams] at hlt
    exact hlt

lemma link_linked {name : Bytes} {isMain : Bool} {before : List Proc}
    (h : rp.link name isMain (callees before) = .ok d) :
    Linked (takes before) d d.body ∧ d.isMain = isMain ∧ d.params.length = rp.params.length := by
  rw [RawProc.link, bind_eq_ok] at h
  obtain ⟨vars, hvars, h⟩ := h
  rw [bind_eq_ok] at h
  obtain ⟨body, hbody, h⟩ := h
  cases h
  refine ⟨?_, rfl, by simp⟩
  refine Names.Resolves.stmts ⟨?_, ?_⟩ rp.body (inPart_eq_ok.mp hbody)
  · intro name ref href
    refine scope_declares hvars (by simp) (by simp) (name, ref) ?_
    have hlookup : vars.lookup name = some ref := href
    obtain ⟨l₁, l₂, rfl, -⟩ := List.lookup_eq_some_iff.mp hlookup
    simp
  · intro name p hp
    have hmem := List.mem_of_find?_eq_some hp
    rw [callees, List.mem_map] at hmem
    obtain ⟨⟨callee, i⟩, hi, rfl⟩ := hmem
    exact ⟨callee, by simpa using List.mem_zipIdx_iff_getElem?.mp hi, rfl⟩

lemma linkProc_linked (rp : RawProc) {before : List Proc}
    (h : rp.linkProc (callees before) = .ok d) : Linked (takes before) d d.body ∧ d.isMain = false := by
  unfold RawProc.linkProc at h
  split at h
  · cases h
  split at h
  · cases h
  · obtain ⟨hbody, hmain, -⟩ := link_linked h
    exact ⟨hbody, hmain⟩

lemma linkMain_linked (rp : RawProc) {before : List Proc}
    (h : rp.linkMain (callees before) = .ok d) :
    Linked (takes before) d d.body ∧ d.isMain = true ∧ d.params = [] := by
  unfold RawProc.linkMain at h
  split at h
  · cases h
  · next hparams =>
    obtain ⟨hbody, hmain, hlen⟩ := link_linked h
    refine ⟨hbody, hmain, List.eq_nil_of_length_eq_zero ?_⟩
    simp only [Bool.not_eq_true, Bool.not_eq_false', List.isEmpty_iff] at hparams
    rw [hlen, hparams]
    rfl

end RawProc

/-- Procedures that were linked so far. -/
structure LinkedProcs (decls : List Proc) : Prop where
  bodies : ∀ {k d}, decls[k]? = some d → Linked (takes (decls.take k)) d d.body
  isMain : ∀ p ∈ decls, p.isMain = false

lemma linked_concat {decls : List Proc} {p : Proc}
    (h : ∀ {k d}, decls[k]? = some d → Linked (takes (decls.take k)) d d.body)
    (hp : Linked (takes decls) p p.body) {k : Nat} {d : Proc} (hk : (decls ++ [p])[k]? = some d) :
    Linked (takes ((decls ++ [p]).take k)) d d.body := by
  rcases Nat.lt_or_ge k decls.length with hlt | hge
  · rw [List.getElem?_append_left hlt] at hk
    rw [List.take_append_of_le_length hlt.le]
    exact h hk
  · rw [List.getElem?_append_right hge] at hk
    obtain ⟨hk', rfl⟩ : k - decls.length = 0 ∧ p = d := by
      rw [List.getElem?_singleton] at hk
      split at hk <;> simp_all
    have : k = decls.length := by omega
    subst this
    simpa using hp

lemma linkProcs_of_error {done : List Proc} {rp : RawProc} {e : DecodeError}
    (h : inPart (Text.bytes "procedure " ++ rp.name) (rp.linkProc (callees done)) = .error e)
    (rest : List (Option RawProc)) : (linkProcs done (some rp :: rest)).run = .ok (.error e) := by
  rw [linkProcs, h]
  rfl

lemma linkProcs_of_ok {done : List Proc} {rp : RawProc} {p : Proc}
    (h : inPart (Text.bytes "procedure " ++ rp.name) (rp.linkProc (callees done)) = .ok p)
    (rest : List (Option RawProc)) :
    (linkProcs done (some rp :: rest)).run = (linkProcs (done ++ [p]) rest).run := by
  rw [linkProcs, h]
  rfl

/-- What linking each procedure behind the earlier ones preserves, linking all of them does. -/
lemma linkProcs_invariant {P : List Proc → Prop} {raw : List (Option RawProc)} {done decls : List Proc}
    (hstep : ∀ {done : List Proc} {rp : RawProc} {p : Proc}, P done →
      rp.linkProc (callees done) = .ok p → P (done ++ [p]))
    (hdone : P done) (h : (linkProcs done raw).run = .ok (.ok decls)) : P decls := by
  induction raw generalizing done with
  | nil =>
    cases h
    exact hdone
  | cons rp rest ih =>
    cases rp with
    | none => cases h
    | some rp =>
      cases hlink : inPart (Text.bytes "procedure " ++ rp.name) (rp.linkProc (callees done)) with
      | error e =>
        rw [linkProcs_of_error hlink] at h
        cases h
      | ok p =>
        rw [linkProcs_of_ok hlink] at h
        exact ih (hstep hdone (inPart_eq_ok.mp hlink)) h

lemma linkProcs_linked {raw : List (Option RawProc)} {decls : List Proc}
    (h : (linkProcs [] raw).run = .ok (.ok decls)) : LinkedProcs decls := by
  refine linkProcs_invariant (fun {done rp p} hdone hp => ?_) ⟨by simp, by simp⟩ h
  obtain ⟨hbody, hmain⟩ := rp.linkProc_linked hp
  refine ⟨linked_concat hdone.bodies hbody, fun q hq => ?_⟩
  rcases List.mem_append.mp hq with hq | hq
  · exact hdone.isMain q hq
  · rw [List.mem_singleton.mp hq, hmain]

lemma RawFile.link_of_main {raw : RawFile} {main : RawProc} (h : raw.main = some main) :
    raw.link.run = (linkProcs [] raw.procedures).run >>= fun r => .ok (r.bind fun procs =>
      (inPart (Text.bytes "main") (main.linkMain (callees procs))).map fun p =>
        { decls := procs ++ [p] }) := by
  rw [RawFile.link, h]
  change (linkProcs [] raw.procedures).run >>= _ = _
  congr 1
  funext r
  cases r with
  | error e => rfl
  | ok procs =>
    change (ExceptT.mk (.ok (inPart (Text.bytes "main") (main.linkMain (callees procs)))) >>= fun p =>
      pure (File.mk (procs ++ [p])) : ExceptT DecodeError (Except Fault) File).run = _
    cases hp : inPart (Text.bytes "main") (main.linkMain (callees procs)) <;>
      simp only [Except.bind, Except.map, hp] <;> rfl

lemma RawFile.link_eq_ok {raw : RawFile} {file : File} (h : raw.link.run = .ok (.ok file)) :
    ∃ (main : RawProc) (procs : List Proc) (p : Proc), file = { decls := procs ++ [p] } ∧
      (linkProcs [] raw.procedures).run = .ok (.ok procs) ∧ main.linkMain (callees procs) = .ok p := by
  cases hmain : raw.main with
  | none =>
    rw [RawFile.link, hmain] at h
    cases h
  | some main =>
    rw [link_of_main hmain, bind_eq_ok] at h
    obtain ⟨r, hprocs, h⟩ := h
    cases r with
    | error e => cases h
    | ok procs =>
      cases hp : inPart (Text.bytes "main") (main.linkMain (callees procs)) with
      | error e => simp [Except.bind, Except.map, hp] at h
      | ok p =>
        simp only [Except.bind, Except.map, hp, Except.ok.injEq] at h
        exact ⟨main, procs, p, h.symm, hprocs, inPart_eq_ok.mp hp⟩

lemma RawFile.link_linked (raw : RawFile) {file : File} (h : raw.link.run = .ok (.ok file)) :
    file.Linked := by
  obtain ⟨main, procs, p, rfl, hprocs, hp⟩ := link_eq_ok h
  have hdone := linkProcs_linked hprocs
  obtain ⟨hbody, hismain, hparams⟩ := main.linkMain_linked hp
  exact ⟨⟨procs, p, rfl, hismain, hparams, hdone.isMain⟩, linked_concat hdone.bodies hbody⟩

/-- A scalar whose place does not matter. -/
def Node.word (s : String) : Node := .scalar {} (Text.bytes s)

def Node.list (items : List Node) : Node := .sequence {} items

/-- A mapping whose keys are words. -/
def Node.record (es : List (String × Node)) : Node := .mapping {} (es.map fun (k, v) => (word k, v))

lemma RawFile.exists_linked {raw : RawFile}
    (h : (raw.link.run.toOption.bind Except.toOption).isSome = true) :
    ∃ file, raw.link.run = .ok (.ok file) := by
  cases hlink : raw.link.run with
  | error e =>
    rw [hlink] at h
    cases h
  | ok r =>
    cases r with
    | error e =>
      rw [hlink] at h
      cases h
    | ok file => exact ⟨file, rfl⟩

end Accumulator.Tree
