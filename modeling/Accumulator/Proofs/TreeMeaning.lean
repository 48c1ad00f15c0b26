import Mathlib
import Accumulator.Proofs.ComplementMeaning
import Accumulator.Proofs.TreeRuns

/-!
# Building keeps the meaning

The function that is built from a procedure does what the procedure does: it reads and writes the
same, and ends the same way. A run of a tree is followed from one point of the code to the next.
Rounds of loops and calls go deeper on both sides, so neither side ends without the other.
-/

namespace Accumulator.Tree

open Accumulator.Flow (Id BlockId Payload Value Progress Point)
open Accumulator.Flow.Point (Proceeds Deepens)
open Accumulator.Exec

section Places

variable {r : Reading} {R : Flow.Reading} {a : Activation} {A : Flow.Activation} {w : World UInt64}
  {s : Progress} {t d : Id} {ids : List Id}

lemma compared?_of_holds? {op : Op} {op' : Flow.Op} (hrel : op.isRelational = true)
    (hop : op.toFlow? = some op') (x y : UInt64) :
    ∃ b z, op.holds? x y = some b ∧ op'.compared? x y = some z ∧ (0 < z ↔ b = true) := by
  cases op with
  | eq => cases hop; exact ⟨_, _, rfl, rfl, Flow.ofBool_pos⟩
  | ne => cases hop; exact ⟨_, _, rfl, rfl, by rw [Flow.differ_pos, decide_eq_true_iff]⟩
  | lt => cases hop; exact ⟨_, _, rfl, rfl, by rw [Flow.sub_pos, decide_eq_true_iff]⟩
  | gt => cases hop; exact ⟨_, _, rfl, rfl, by rw [Flow.sub_pos, decide_eq_true_iff]⟩
  | le => cases hop; exact ⟨_, _, rfl, rfl, Flow.ofBool_pos⟩
  | ge => cases hop; exact ⟨_, _, rfl, rfl, Flow.ofBool_pos⟩
  | unknown n => cases hop
  | _ => cases hrel

lemma holds_of_computes {c : Scope} {f : Flow.Func} {e : Expr} {i : Id}
    (h : Computes c f e ids i) :
    r.holds a e = (do return decide (0 < (← r.value a e))) := by
  cases h with
  | binary hrel _ _ _ _ => rw [Reading.holds, hrel]; rfl
  | _ => rfl

lemma Tests.reproduces (hR : Renders r R) {e : Expr} (h : Tests a.scope A.func e ids t)
    (hb : Beside r a A w s.world) (hnodup : ids.Nodup) :
    Reproduces R A s w ids (r.holds a e) fun b vs => ∃ z, vs t = .word z ∧ (0 < z ↔ b = true) := by
  cases h with
  | value h =>
    rw [holds_of_computes h, ← List.append_nil ids]
    refine (h.reproduces hR rfl hb hnodup).bind fun x vs hx _ => ?_
    exact Reproduces.pure ⟨x, hx, by simp⟩
  | @compare pos op left right op' x y i ids ids' hrel hop hr hl hi =>
    have hdisjoint : y ∉ ids' := by
      rw [List.append_assoc] at hnodup
      intro hmem
      exact (List.nodup_append.mp hnodup).2.2 y hr.plain.1 y (by simp [hmem]) rfl
    rw [List.append_assoc] at hnodup ⊢
    have hnodup' := (List.nodup_append.mp hnodup).2.1
    rw [Reading.holds, hrel, if_pos rfl]
    refine (hr.reproduces hR rfl hb (List.nodup_append.mp hnodup).1).bind fun n vs hy _ => ?_
    refine (hl.reproduces (A := { A with values := vs }) hR rfl (hb.values vs)
      (List.nodup_append.mp hnodup').1).bind fun m vs' hx hsame => ?_
    have hy' : vs' y = .word n := (hsame y hdisjoint).trans hy
    obtain ⟨b, z, hholds, hz, hpos⟩ := compared?_of_holds? hrel hop m n
    refine Reproduces.value (a := b) (v := .word z) hi rfl ?_ (by rw [hholds]; rfl)
      ⟨z, if_pos rfl, hpos⟩
    rw [run_alu hx hy', Flow.operate_of_compared R hz]
    rfl

/-- An operand that names a cell: a variable, or an instruction with the address. -/
def Designates (A : Flow.Activation) (ids : List Id) (d : Id) (c : Cell) : Prop :=
  ((A.func.varOf? d).isSome ∧ c = ⟨⟨A.number, d.toNat⟩, 0⟩) ∨
    (A.func.varOf? d = none ∧ d ∈ ids ∧ A.values d = .addr c)

lemma Designates.cell? {c : Cell} (h : Designates A ids d c) : A.cell? d = some c := by
  rcases h with ⟨hvar, rfl⟩ | ⟨hvar, -, hval⟩
  · obtain ⟨x, hx⟩ := Option.isSome_iff_exists.mp hvar
    simp [Flow.Activation.cell?, Flow.Activation.object?, hx]
  · simp [Flow.Activation.cell?, Flow.Activation.object?, hvar, hval, Value.addr?]

lemma Designates.keeps {c : Cell} {vs vs' : Id → Value} {ids' : List Id}
    (h : Designates { A with values := vs } ids d c) (hsame : ∀ j ∉ ids', vs' j = vs j)
    (hdisjoint : ∀ j ∈ ids, j ∉ ids') : Designates { A with values := vs' } ids d c := by
  refine h.imp_right ?_
  rintro ⟨hvar, hd, hval⟩
  exact ⟨hvar, hd, (hsame d (hdisjoint d hd)).trans hval⟩

lemma Locates.reproduces (hR : Renders r R) {e : Expr} (h : Locates a.scope A.func e ids d)
    (hb : Beside r a A w s.world) (hnodup : ids.Nodup) :
    Reproduces R A s w ids (r.place a e) fun c vs =>
      Designates { A with values := vs } ids d c ∧ r.file.isReference c.object = false := by
  cases h with
  | @frame pos ref v href hv =>
    obtain ⟨o, ho, hdata, -, hval⟩ := hb.bound.object hv
    obtain ⟨x, hx, -⟩ := hb.built.var hv
    rw [Reading.place, ho, required_some_bind]
    refine Reproduces.pure ⟨Or.inl ⟨by simp [hx], ?_⟩, hdata⟩
    rw [hval href, hb.number]
  | @reference pos ref v i href hv hi =>
    obtain ⟨o, ho, hdata, haddr, -⟩ := hb.bound.object hv
    have hobj := hb.object? hv
    rw [Reading.place, ho, required_some_bind]
    refine Reproduces.value (v := .addr ⟨o, 0⟩) hi rfl ?_ rfl ⟨Or.inr ⟨?_, by simp, if_pos rfl⟩, hdata⟩
    · have hcell : A.cell? v = some ⟨⟨a.number, v.toNat⟩, 0⟩ := by
        rw [Flow.Activation.cell?, hobj]
      rw [Flow.Reading.compute, hcell, run_bind_ok (run_required_some _ s), ← haddr href]
      rfl
    · rw [Flow.Func.varOf?_of_live hi]
      rfl
  | @index pos ref offset v j q ids hoffset hv hq =>
    obtain ⟨o, ho, hdata, -⟩ := hb.bound.object hv
    rw [Reading.place, ho]
    refine (hoffset.reproduces hR rfl hb (List.nodup_append.mp hnodup).1).bind fun x vs hx _ => ?_
    rw [required_some_bind]
    refine ((hb.values vs).locating hR hv ho hx hq).mono ?_
    rintro c vs' ⟨hc, hobj⟩
    refine ⟨Or.inr ⟨?_, by simp, hc⟩, by rw [hobj]; exact hdata⟩
    change A.func.varOf? d = none
    rw [Flow.Func.varOf?_of_live hq]
    unfold Scope.locating
    split <;> rfl

end Places

/-- The code from a point on does what a run of the tree does: it gets to a point at which `Q` holds,
or it stops for the same reason. If the tree is not done within its depth `n`, neither is the code. -/
def Simulates (R : Flow.Reading) (p : Point) (n : Nat) (Q : World UInt64 → Point → Prop) :
    Except Interrupt Unit × World UInt64 → Prop
  | (.ok (), w) => ∃ q, Proceeds R p q ∧ Q w q
  | (.error e, w) => (e = .unfinished → Unfinished (p.run R n)) ∧
    (e ≠ .unfinished → ∃ m s, p.run R m = (.error e, s) ∧ s.world.input = w.input ∧
      s.world.output = w.output)

section Simulates

variable {R : Flow.Reading} {p q : Point} {n : Nat} {Q Q' : World UInt64 → Point → Prop}
  {w : World UInt64} {x : Except Interrupt Unit × World UInt64}

lemma Simulates.done (h : Q w p) : Simulates R p n Q (.ok (), w) := ⟨p, Proceeds.refl R p, h⟩

lemma Simulates.proceeds (h : Proceeds R p q) (hx : Simulates R q n Q x) : Simulates R p n Q x := by
  rcases x with ⟨e | ⟨⟩, w⟩
  · refine ⟨fun he => h.waits n (hx.1 he), fun he => ?_⟩
    obtain ⟨m, s, hm, hio⟩ := hx.2 he
    have hfin : ¬ Unfinished (q.run R m) := by
      rw [hm]
      intro hu
      cases hu
      exact he rfl
    obtain ⟨m', hm'⟩ := h.ends m hfin
    exact ⟨m', s, hm'.trans hm, hio⟩
  · obtain ⟨u, hu, hQ⟩ := hx
    exact ⟨u, h.trans hu, hQ⟩

lemma Simulates.bind {y : Exec Unit} {k : Unit → Exec Unit} (h : Simulates R p n Q (y.run w))
    (hk : ∀ w' q, Q w' q → Simulates R q n Q' ((k ()).run w')) :
    Simulates R p n Q' ((y >>= k).run w) := by
  rw [run_bind]
  rcases hy : y.run w with ⟨e | ⟨⟩, w'⟩
  · rw [hy] at h
    exact h
  · rw [hy] at h
    obtain ⟨q, hq, hQ⟩ := h
    exact (hk w' q hQ).proceeds hq

lemma Simulates.mono (h : Simulates R p n Q x) (hQ : ∀ w q, Q w q → Q' w q) :
    Simulates R p n Q' x := by
  rcases x with ⟨e | ⟨⟩, w⟩
  · exact h
  · obtain ⟨q, hq, hqQ⟩ := h
    exact ⟨q, hq, hQ w q hqQ⟩

lemma Simulates.after (h : Simulates R p n Q x) (hQ : ∀ w q, Q w q → ∃ u, Proceeds R q u ∧ Q' w u) :
    Simulates R p n Q' x := by
  rcases x with ⟨e | ⟨⟩, w⟩
  · exact h
  · obtain ⟨q, hq, hqQ⟩ := h
    obtain ⟨u, hu, huQ⟩ := hQ w q hqQ
    exact ⟨u, hq.trans hu, huQ⟩

lemma Simulates.deeper (h : Deepens R p q) (hx : Simulates R q n Q x) : Simulates R p (n + 1) Q x := by
  rcases x with ⟨e | ⟨⟩, w⟩
  · refine ⟨fun he => by rw [h.succ]; exact hx.1 he, fun he => ?_⟩
    obtain ⟨m, s, hm, hio⟩ := hx.2 he
    exact ⟨m + 1, s, (h.succ m).trans hm, hio⟩
  · obtain ⟨u, hu, hQ⟩ := hx
    exact ⟨u, h.proceeds.trans hu, hQ⟩

lemma Reproduces.simulates {α : Type} {A : Flow.Activation} {s : Progress} {ids rest : List Id}
    {y : Exec α} {k : α → Exec Unit} {P : α → (Id → Value) → Prop} (h : Reproduces R A s w ids y P)
    (hin : s.world.input = w.input) (hout : s.world.output = w.output)
    (hk : ∀ a vs, P a vs → (∀ j ∉ ids, vs j = A.values j) →
      Simulates R ⟨{ A with values := vs }, rest, s⟩ n Q ((k a).run w)) :
    Simulates R ⟨A, ids ++ rest, s⟩ n Q ((y >>= k).run w) := by
  rcases h with ⟨a, vs, hy, hP, hvs, hrun⟩ | ⟨e, -, he, hy, hrun⟩
  · rw [run_bind_ok hy]
    have hproceeds : Proceeds R ⟨A, ids ++ rest, s⟩ ⟨{ A with values := vs }, rest, s⟩ :=
      Proceeds.of_eq fun n => hrun _ rest
    exact (hk a vs hP hvs).proceeds hproceeds
  · rw [run_bind_error hy]
    exact ⟨fun h => absurd h he, fun _ => ⟨0, s, hrun _ rest, hin, hout⟩⟩

end Simulates

section Steps

variable {R : Flow.Reading} {A : Flow.Activation} {s : Progress} {i d y : Id} {rest : List Id}

/-- Progress after a block was entered. -/
def entering (s : Progress) (k : Nat) (b : BlockId) : Progress :=
  { s with trace := s.trace ++ [.enter k b] }

lemma cell?_of_object? {o : Object} (h : A.object? d = some o) : A.cell? d = some ⟨o, 0⟩ := by
  rw [Flow.Activation.cell?, h]

lemma proceeds_store {c : Cell} {v : Value} (hi : A.func.live? i = some (.store d y))
    (hc : A.cell? d = some c) (hy : A.values y = v) :
    Proceeds R ⟨A, i :: rest, s⟩ ⟨A, rest, s.store c v⟩ := by
  refine Proceeds.of_eq fun n => ?_
  rw [Point.run, Flow.Reading.exec_computes (Flow.Func.payload_of_live hi) rfl, Flow.Reading.compute,
    hc, hy]
  rfl

lemma proceeds_storeIndirect {c : Cell} {v : Value} (hi : A.func.live? i = some (.storeIndirect d y))
    (hc : (Flow.Reading.behind A d).run s = (.ok c, s)) (hy : A.values y = v) :
    Proceeds R ⟨A, i :: rest, s⟩ ⟨A, rest, s.store c v⟩ := by
  refine Proceeds.of_eq fun n => ?_
  have hcompute : (R.compute A (.storeIndirect d y)).run s = (.ok none, s.store c v) := by
    rw [Flow.Reading.compute, run_bind_ok hc, hy]
    rfl
  rw [Point.run, Flow.Reading.exec_computes (Flow.Func.payload_of_live hi) rfl, run_bind_ok hcompute]
  rfl

lemma proceeds_write {x : UInt64} (hi : A.func.live? i = some (.write y)) (hy : A.values y = .word x) :
    Proceeds R ⟨A, i :: rest, s⟩ ⟨A, rest,
      { world := { s.world with output := s.world.output.push x }
        trace := s.trace ++ [.write x] }⟩ := by
  refine Proceeds.of_eq fun n => ?_
  have hword : A.word? y = some x := by rw [Flow.Activation.word?, hy]; rfl
  rw [Point.run, Flow.Reading.exec_computes (Flow.Func.payload_of_live hi) rfl, Flow.Reading.compute,
    hword]
  rfl

lemma proceeds_read {x : UInt64} {more : List UInt64} (hi : A.func.live? i = some .read)
    (hin : s.world.input = x :: more) :
    Proceeds R ⟨A, i :: rest, s⟩ ⟨A.set i (some (.word x)), rest,
      { world := { s.world with input := more }, trace := s.trace ++ [.read x] }⟩ := by
  refine Proceeds.of_eq fun n => ?_
  have hcompute : (R.compute A .read).run s = (.ok (some (.word x)),
      { world := { s.world with input := more }, trace := s.trace ++ [.read x] }) := by
    rw [Flow.Reading.compute, run_bind_ok (Flow.Reading.run_input_cons hin)]
    rfl
  rw [Point.run, Flow.Reading.exec_computes (Flow.Func.payload_of_live hi) rfl, run_bind_ok hcompute]
  rfl

lemma run_read_empty (hi : A.func.live? i = some .read) (hin : s.world.input = []) (n : Nat) :
    Point.run R ⟨A, i :: rest, s⟩ n = (.error .noInput, s) := by
  have hcompute : (R.compute A .read).run s = (.error .noInput, s) := by
    rw [Flow.Reading.compute, run_bind_error (Flow.Reading.run_input_nil hin)]
  rw [Point.run, Flow.Reading.exec_computes (Flow.Func.payload_of_live hi) rfl,
    run_bind_error hcompute]

lemma deepens_of_goTo {p : Point} {k : Nat} {f : Flow.Func} {b : BlockId} {l : List Id}
    (hf : R.program.funcs[k]? = some f) (hl : f.listing? b = some l)
    (hp : ∀ n, p.run R n = (R.block n k b).run s) :
    Deepens R p ⟨{ number := k, func := f }, l, entering s k b⟩ :=
  ⟨by rw [hp]; rfl, fun n => by rw [hp, Flow.Reading.run_block_succ hf hl]; rfl⟩

lemma deepens_branch {b : BlockId} {l : List Id} (hf : R.program.funcs[A.number]? = some A.func)
    (hi : A.func.live? i = some (.branch b)) (hl : A.func.listing? b = some l) :
    Deepens R ⟨A, i :: rest, s⟩ ⟨{ number := A.number, func := A.func }, l, entering s A.number b⟩ := by
  refine deepens_of_goTo hf hl fun n => ?_
  rw [Point.run, Flow.Reading.exec_branch (Flow.Func.payload_of_live hi)]

lemma deepens_branchIf {t : Id} {b b' : BlockId} {l : List Id} {z : UInt64} {holds : Bool}
    (hf : R.program.funcs[A.number]? = some A.func)
    (hi : A.func.live? i = some (.branchIf .positive t b b')) (ht : A.values t = .word z)
    (hz : 0 < z ↔ holds = true) (hl : A.func.listing? (if holds then b else b') = some l) :
    Deepens R ⟨A, i :: rest, s⟩ ⟨{ number := A.number, func := A.func }, l,
      entering s A.number (if holds then b else b')⟩ := by
  refine deepens_of_goTo hf hl fun n => ?_
  have hword : A.word? t = some z := by rw [Flow.Activation.word?, ht]; rfl
  have htest : Flow.Test.holds .positive z = holds := by
    have : Flow.Test.holds .positive z = decide (0 < z) := rfl
    rw [this, Bool.eq_iff_iff, decide_eq_true_iff]
    exact hz
  rw [Point.run, Flow.Reading.exec_branchIf (Flow.Func.payload_of_live hi), hword,
    run_bind_ok (run_required_some _ s), htest]

end Steps

/-- The references are the same but for those of procedures that `k` calls. -/
def KeepsReferences (file : File) (k : Nat) (W W' : World Value) : Prop :=
  ∀ c, file.isReference c.object = true → ¬ Relation.TransGen file.Calls k c.object.func →
    W'.cells c = W.cells c

section KeepsReferences

variable {file : File} {a : Activation} {k : Nat} {W W' W'' : World Value}

lemma KeepsReferences.refl (file : File) (k : Nat) (W : World Value) : KeepsReferences file k W W := fun _ _ _ => rfl

lemma KeepsReferences.trans (h : KeepsReferences file k W W') (h' : KeepsReferences file k W' W'') : KeepsReferences file k W W'' :=
  fun c hc hk => (h' c hc hk).trans (h c hc hk)

lemma KeepsReferences.write (file : File) (k : Nat) (W : World Value) {c : Cell}
    (hc : file.isReference c.object = false) (v : Value) : KeepsReferences file k W (W.write c v) := by
  intro d hd _
  have hne : d ≠ c := by
    rintro rfl
    simp [hc] at hd
  simp [World.write, hne]

lemma Bound.congr (h : Bound file a W)
    (hW : ∀ i : Nat, file.isReference ⟨a.number, i⟩ = true →
      W'.cells ⟨⟨a.number, i⟩, 0⟩ = W.cells ⟨⟨a.number, i⟩, 0⟩) : Bound file a W' := by
  refine ⟨h.decl, h.length, fun {i p o} hp ho hr => ?_, h.byValue⟩
  rw [hW i (by rw [isReference_of_proc h.decl, hp]; exact hr)]
  exact h.byRef hp ho hr

lemma KeepsReferences.bound (h : KeepsReferences file a.number W W')
    (hacyclic : ¬ Relation.TransGen file.Calls a.number a.number) (hb : Bound file a W) :
    Bound file a W' :=
  hb.congr fun _ hi => h _ hi hacyclic

end KeepsReferences

/-- A point behind code `l` of block `b`, where the worlds of the tree and of the code agree. -/
structure StandsAt (r : Reading) (a : Activation) (f : Flow.Func) (b : BlockId) (l : List Id)
    (w : World UInt64) (p : Point) : Prop where
  number : p.activation.number = a.number
  func : p.activation.func = f
  code : f.listing? b = some (l ++ p.code)
  bound : Bound r.file a p.progress.world
  mirrors : Mirrors r.file w p.progress.world

/-- A point where the references are those of `W`. -/
def Arrives (r : Reading) (a : Activation) (f : Flow.Func) (b : BlockId) (l : List Id)
    (W : World Value) (w : World UInt64) (p : Point) : Prop :=
  StandsAt r a f b l w p ∧ KeepsReferences r.file a.number W p.progress.world

/-- The code from `b` and `l` to `b'` and `l'` does what a run does. -/
def Does (r : Reading) (R : Flow.Reading) (n : Nat) (a : Activation) (f : Flow.Func) (x : Exec Unit)
    (b : BlockId) (l : List Id) (b' : BlockId) (l' : List Id) : Prop :=
  ∀ w p, StandsAt r a f b l w p → Simulates R p n (Arrives r a f b' l' p.progress.world) (x.run w)

section Points

variable {r : Reading} {R : Flow.Reading} {n : Nat} {a : Activation} {f : Flow.Func}
  {b b₁ b' : BlockId} {l l₁ l' ids : List Id} {w : World UInt64} {p : Point}

lemma StandsAt.beside (h : StandsAt r a f b l w p) (hb : Built r.file a.number a.proc f) :
    Beside r a p.activation w p.progress.world :=
  ⟨h.number, by rw [h.func]; exact hb, h.bound, h.mirrors⟩

lemma StandsAt.rest (h : StandsAt r a f b l w p) (hb : Built r.file a.number a.proc f)
    (hw : Within f b (l ++ ids)) : ∃ rest, p.code = ids ++ rest ∧ ids.Nodup := by
  obtain ⟨rest, hrest⟩ := hw
  have heq := Option.some.inj (h.code.symm.trans hrest)
  rw [List.append_assoc, List.append_cancel_left_eq] at heq
  have hnodup := hb.orderly.sound.nodup hrest
  exact ⟨rest, heq, (List.nodup_append.mp (List.nodup_append.mp hnodup).1).2.1⟩

lemma Does.seq {x y : Exec Unit} (hx : Does r R n a f x b l b₁ l₁) (hy : Does r R n a f y b₁ l₁ b' l') :
    Does r R n a f (do x; y) b l b' l' := by
  intro w p hp
  refine (hx w p hp).bind fun w' q hq => ?_
  exact (hy w' q hq.1).mono fun w'' u hu => ⟨hu.1, hq.2.trans hu.2⟩

lemma StandsAt.entering {A : Flow.Activation} {code : List Id} {s : Progress}
    (h : StandsAt r a f b l w ⟨A, code, s⟩) {m : List Id} (hm : f.listing? b' = some m) :
    StandsAt r a f b' [] w ⟨{ number := A.number, func := A.func }, m, entering s A.number b'⟩ :=
  ⟨h.number, h.func, hm, h.bound, h.mirrors⟩

lemma StandsAt.store {A : Flow.Activation} {code rest : List Id} {s : Progress}
    (h : StandsAt r a f b l w ⟨A, code, s⟩) (hcode : f.listing? b = some (l' ++ rest)) (vs : Id → Value)
    {c : Cell} (hc : r.file.isReference c.object = false) (x : UInt64) :
    Arrives r a f b l' s.world (w.write c x)
      ⟨{ A with values := vs }, rest, s.store c (.word x)⟩ := by
  have hkeeps := KeepsReferences.write r.file a.number s.world hc (.word x)
  refine ⟨⟨h.number, h.func, hcode, h.bound.congr fun i hi => ?_, h.mirrors.write x⟩, hkeeps⟩
  have hne : (⟨⟨a.number, i⟩, 0⟩ : Cell) ≠ c := by
    rintro rfl
    simp [hc] at hi
  simp [Progress.store, World.write, hne]

end Points

section Statements

variable {r : Reading} {R : Flow.Reading} {n : Nat} {a : Activation} {f : Flow.Func}
  {again : Activation → List Stmt → Exec Unit} {b : BlockId} {l ids ids' : List Id} {pos : Position}

lemma does_assign (hR : Renders r R) (hb : Built r.file a.number a.proc f) {dst src : Expr}
    {d s i : Id} (hd : Locates a.scope f dst ids d) (hs : Computes a.scope f src ids' s)
    (hi : f.live? i = some (.store d s)) (hw : Within f b (l ++ (ids ++ ids' ++ [i]))) :
    Does r R n a f (r.stmt again a (.assign pos dst src)) b l b (l ++ (ids ++ ids' ++ [i])) := by
  intro w p hp
  obtain ⟨rest, hcode, hnodup⟩ := hp.rest hb hw
  obtain ⟨A, code, S⟩ := p
  obtain rfl : code = ids ++ ids' ++ [i] ++ rest := hcode
  have hbeside := hp.beside hb
  obtain rfl : A.func = f := hp.func
  have hnodup' := (List.nodup_append.mp hnodup).1
  rw [Reading.stmt, List.append_assoc, List.append_assoc]
  refine (hd.reproduces hR hbeside (List.nodup_append.mp hnodup').1).simulates hp.mirrors.input
    hp.mirrors.output fun c vs ⟨hname, hdata⟩ _ => ?_
  refine (hs.reproduces (A := { A with values := vs }) hR rfl (hbeside.values vs)
    (List.nodup_append.mp hnodup').2.1).simulates hp.mirrors.input hp.mirrors.output
    fun x vs' hx hsame => ?_
  have hname' := hname.keeps (A := A) hsame fun j hj hj' =>
    (List.nodup_append.mp hnodup').2.2 j hj j hj' rfl
  refine Simulates.proceeds (proceeds_store hi hname'.cell? hx) (Simulates.done ?_)
  exact hp.store (by simpa using hp.code) vs' hdata x

lemma simulates_input {A : Flow.Activation} {s : Progress} {i : Id} {rest : List Id}
    {w : World UInt64} {k : UInt64 → Exec Unit} {Q : World UInt64 → Point → Prop}
    (hi : A.func.live? i = some .read) (hm : Mirrors r.file w s.world)
    (hk : ∀ x more, w.input = x :: more → Simulates R
      ⟨{ A with values := fun j => if j = i then .word x else A.values j }, rest,
        { world := { s.world with input := more }, trace := s.trace ++ [.read x] }⟩ n Q
      ((k x).run { w with input := more })) :
    Simulates R ⟨A, i :: rest, s⟩ n Q ((Reading.input >>= k).run w) := by
  cases hin : w.input with
  | nil =>
    have htree : Reading.input.run w = (.error .noInput, w) := by
      rw [Reading.input, run_bind_ok (run_get w), hin]
      rfl
    rw [run_bind_error htree]
    refine ⟨fun h => absurd h (by simp), fun _ => ⟨0, s, ?_, hm.input, hm.output⟩⟩
    exact run_read_empty hi (hm.input.trans hin) 0
  | cons x more =>
    have htree : Reading.input.run w = (.ok x, { w with input := more }) := by
      rw [Reading.input, run_bind_ok (run_get w), hin]
      rfl
    rw [run_bind_ok htree]
    exact (hk x more hin).proceeds (proceeds_read hi (hm.input.trans hin))

lemma StandsAt.input {A : Flow.Activation} {code rest : List Id} {s : Progress} {l' : List Id}
    {w : World UInt64} (h : StandsAt r a f b l w ⟨A, code, s⟩) (hcode : f.listing? b = some (l' ++ rest))
    (vs : Id → Value) (x : UInt64) (more : List UInt64) :
    StandsAt r a f b l' { w with input := more } ⟨{ A with values := vs }, rest,
      { world := { s.world with input := more }, trace := s.trace ++ [.read x] }⟩ :=
  ⟨h.number, h.func, hcode, ⟨h.bound.decl, h.bound.length, h.bound.byRef, h.bound.byValue⟩,
    ⟨h.mirrors.cells, rfl, h.mirrors.output⟩⟩

lemma does_readIdent (hb : Built r.file a.number a.proc f) {pos' : Position}
    {ref : Ref} {v d i : Id} (hv : a.scope.slotOf ref = .ok v) (hd : f.live? d = some .read)
    (hi : f.live? i = some (a.scope.storing ref v d)) (hw : Within f b (l ++ [d, i])) :
    Does r R n a f (r.stmt again a (.read pos (.ident pos' ref))) b l b (l ++ [d, i]) := by
  intro w p hp
  obtain ⟨rest, hcode, -⟩ := hp.rest hb hw
  obtain ⟨A, code, s⟩ := p
  obtain rfl : code = d :: i :: rest := hcode
  have hbeside := hp.beside hb
  obtain rfl : A.func = f := hp.func
  obtain ⟨o, ho, hdata, href, hval⟩ := hbeside.bound.object hv
  have hobj := hbeside.object? hv
  rw [Reading.stmt, Reading.place, ho]
  simp only [required_some_bind, pure_bind]
  refine simulates_input hd hp.mirrors fun x more hin => ?_
  have hcode₁ : A.func.listing? b = some ((l ++ [d]) ++ i :: rest) := by simpa using hp.code
  have hcode₂ : A.func.listing? b = some ((l ++ [d, i]) ++ rest) := by simpa using hp.code
  have hread := hp.input hcode₁ (fun j => if j = d then .word x else A.values j) x more
  have harrives := hread.store hcode₂ (fun j => if j = d then .word x else A.values j)
    (c := ⟨o, 0⟩) hdata x
  refine Simulates.proceeds ?_ (Simulates.done harrives)
  unfold Scope.storing at hi
  cases hr : a.scope.isRef ref with
  | true =>
    rw [hr, if_pos rfl] at hi
    refine proceeds_storeIndirect hi (run_behind (o := ⟨a.number, v.toNat⟩) ?_ (href hr)) (if_pos rfl)
    exact hobj
  | false =>
    rw [hr, if_neg Bool.false_ne_true] at hi
    refine proceeds_store hi ?_ (if_pos rfl)
    rw [hval hr]
    exact cell?_of_object? (A := { A with values := fun j => if j = d then .word x else A.values j }) hobj

lemma does_readIndex (hR : Renders r R) (hb : Built r.file a.number a.proc f) {pos' : Position}
    {ref : Ref} {offset : Expr} {d e i : Id}
    (hd : Locates a.scope f (.index pos' ref offset) ids d) (he : f.live? e = some .read)
    (hi : f.live? i = some (.store d e)) (hw : Within f b (l ++ (ids ++ [e, i]))) :
    Does r R n a f (r.stmt again a (.read pos (.index pos' ref offset))) b l b
      (l ++ (ids ++ [e, i])) := by
  intro w p hp
  obtain ⟨rest, hcode, hnodup⟩ := hp.rest hb hw
  obtain ⟨A, code, s⟩ := p
  obtain rfl : code = ids ++ [e, i] ++ rest := hcode
  have hbeside := hp.beside hb
  obtain rfl : A.func = f := hp.func
  rw [Reading.stmt, List.append_assoc]
  refine (hd.reproduces hR hbeside (List.nodup_append.mp hnodup).1).simulates hp.mirrors.input
    hp.mirrors.output fun c vs ⟨hname, hdata⟩ _ => ?_
  refine simulates_input he hp.mirrors fun x more hin => ?_
  have hsame : ∀ j ∉ [e], (if j = e then .word x else vs j) = vs j :=
    fun j hj => if_neg (by simpa using hj)
  have hname' := hname.keeps (A := A) hsame fun j hj hj' =>
    (List.nodup_append.mp hnodup).2.2 j hj e (by simp) (by simpa using hj')
  have hcode₁ : A.func.listing? b = some ((l ++ (ids ++ [e])) ++ i :: rest) := by
    simpa using hp.code
  have hread := hp.input hcode₁ (fun j => if j = e then .word x else vs j) x more
  refine Simulates.proceeds (proceeds_store hi hname'.cell? (if_pos rfl)) (Simulates.done ?_)
  exact hread.store (by simpa using hp.code) _ hdata x

lemma does_write (hR : Renders r R) (hb : Built r.file a.number a.proc f) {src : Expr} {s i : Id}
    (hs : Computes a.scope f src ids s) (hi : f.live? i = some (.write s))
    (hw : Within f b (l ++ (ids ++ [i]))) :
    Does r R n a f (r.stmt again a (.write pos src)) b l b (l ++ (ids ++ [i])) := by
  intro w p hp
  obtain ⟨rest, hcode, hnodup⟩ := hp.rest hb hw
  obtain ⟨A, code, S⟩ := p
  obtain rfl : code = ids ++ [i] ++ rest := hcode
  have hbeside := hp.beside hb
  obtain rfl : A.func = f := hp.func
  rw [Reading.stmt, List.append_assoc]
  refine (hs.reproduces hR rfl hbeside (List.nodup_append.mp hnodup).1).simulates hp.mirrors.input
    hp.mirrors.output fun x vs hx _ => ?_
  refine Simulates.proceeds (proceeds_write (A := { A with values := vs }) hi hx) (Simulates.done ⟨?_, ?_⟩)
  · refine ⟨hp.number, rfl, by simpa using hp.code,
      ⟨hp.bound.decl, hp.bound.length, hp.bound.byRef, hp.bound.byValue⟩, hp.mirrors.cells,
      hp.mirrors.input, ?_⟩
    exact congrArg (·.push x) hp.mirrors.output
  · exact KeepsReferences.refl _ _ _

lemma StandsAt.branch (hf : R.program.funcs[a.number]? = some f) (hb : Built r.file a.number a.proc f)
    {w : World UInt64} {p : Point} {b' : BlockId} {i : Id} (hp : StandsAt r a f b l w p)
    (hi : f.live? i = some (.branch b')) (hw : Within f b (l ++ [i])) :
    ∃ u, Deepens R p u ∧ StandsAt r a f b' [] w u ∧ u.progress.world = p.progress.world := by
  obtain ⟨m, hm⟩ := Option.isSome_iff_exists.mp
    (hb.orderly.targets hi b' (by simp [Payload.targets]))
  obtain ⟨rest, hcode, -⟩ := hp.rest hb hw
  obtain ⟨A, code, s⟩ := p
  obtain rfl : code = i :: rest := hcode
  obtain rfl : A.func = f := hp.func
  have hnumber : A.number = a.number := hp.number
  exact ⟨_, deepens_branch (by rw [hnumber]; exact hf) hi hm, hp.entering hm, rfl⟩

lemma Does.branch {x : Exec Unit} {b' b₁ : BlockId} {l₁ : List Id} {i : Id}
    (hf : R.program.funcs[a.number]? = some f) (hb : Built r.file a.number a.proc f)
    (hx : Does r R n a f x b l b₁ l₁) (hi : f.live? i = some (.branch b'))
    (hw : Within f b₁ (l₁ ++ [i])) : Does r R n a f x b l b' [] := by
  intro w p hp
  refine (hx w p hp).after fun w' q ⟨hq, hkeeps⟩ => ?_
  obtain ⟨u, hdeepens, hu, hworld⟩ := hq.branch hf hb hi hw
  rw [← hworld] at hkeeps
  exact ⟨u, hdeepens.proceeds, hu, hkeeps⟩

lemma Does.behindBranch {x : Exec Unit} {b' b₁ : BlockId} {l₁ : List Id} {i : Id}
    (hf : R.program.funcs[a.number]? = some f) (hb : Built r.file a.number a.proc f)
    (hi : f.live? i = some (.branch b')) (hw : Within f b (l ++ [i]))
    (hx : Does r R n a f x b' [] b₁ l₁) : Does r R n a f x b l b₁ l₁ := by
  intro w p hp
  obtain ⟨u, hdeepens, hu, hworld⟩ := hp.branch hf hb hi hw
  rw [← hworld]
  exact (hx w u hu).proceeds hdeepens.proceeds

lemma simulates_test (hR : Renders r R) (hf : R.program.funcs[a.number]? = some f)
    (hb : Built r.file a.number a.proc f) {cond : Expr} {t i : Id} {b₁ b₂ : BlockId}
    (ht : Tests a.scope f cond ids t) (hi : f.live? i = some (.branchIf .positive t b₁ b₂))
    (hw : Within f b (l ++ (ids ++ [i]))) {k : Bool → Exec Unit} {Q : World UInt64 → Point → Prop}
    {w : World UInt64} {p : Point} (hp : StandsAt r a f b l w p)
    (hk : ∀ holds q u, Deepens R q u → StandsAt r a f (if holds then b₁ else b₂) [] w u →
      u.progress.world = p.progress.world → Simulates R q n Q ((k holds).run w)) :
    Simulates R p n Q ((r.holds a cond >>= k).run w) := by
  obtain ⟨rest, hcode, hnodup⟩ := hp.rest hb hw
  obtain ⟨A, code, s⟩ := p
  obtain rfl : code = ids ++ [i] ++ rest := hcode
  have hbeside := hp.beside hb
  obtain rfl : A.func = f := hp.func
  have hnumber : A.number = a.number := hp.number
  rw [List.append_assoc]
  refine (ht.reproduces hR hbeside (List.nodup_append.mp hnodup).1).simulates hp.mirrors.input
    hp.mirrors.output fun holds vs ⟨z, hz, hpos⟩ _ => ?_
  obtain ⟨m, hm⟩ : ∃ m, A.func.listing? (if holds then b₁ else b₂) = some m := by
    refine Option.isSome_iff_exists.mp (hb.orderly.targets hi _ ?_)
    cases holds <;> simp [Payload.targets]
  refine hk holds _ _ (deepens_branchIf (A := { A with values := vs }) (by rw [hnumber]; exact hf) hi hz
    hpos hm) (hp.entering hm) rfl

lemma does_choose (hR : Renders r R) (hf : R.program.funcs[a.number]? = some f)
    (hb : Built r.file a.number a.proc f) {cond : Expr} {yes no : List Stmt} {t i : Id}
    {b₁ b₂ merge : BlockId} (ht : Tests a.scope f cond ids t)
    (hi : f.live? i = some (.branchIf .positive t b₁ b₂)) (hw : Within f b (l ++ (ids ++ [i])))
    (hyes : Does r R n a f (r.stmts again a yes) b₁ [] merge [])
    (hno : Does r R n a f (r.stmts again a no) b₂ [] merge []) :
    Does r R n a f (r.stmt again a (.choose pos cond yes no)) b l merge [] := by
  intro w p hp
  rw [Reading.stmt]
  refine simulates_test hR hf hb ht hi hw hp fun holds q u hdeepens hu hworld => ?_
  rw [← hworld]
  refine Simulates.proceeds hdeepens.proceeds ?_
  cases holds with
  | true => exact hyes w u hu
  | false => exact hno w u hu

lemma stmts_singleton (s : Stmt) : r.stmts again a [s] = r.stmt again a s := by
  simp only [Reading.stmts]
  exact bind_pure _

lemma simulates_again {st : Stmt} {head merge : BlockId} {q u : Point} {w : World UInt64}
    (hdeepens : Deepens R q u) (hu : StandsAt r a f head [] w u)
    (hdoes : ∀ m < n, Does r R m a f (r.stmt (r.exec m) a st) head [] merge []) :
    Simulates R q n (Arrives r a f merge [] u.progress.world) ((r.exec n a [st]).run w) := by
  cases n with
  | zero => exact ⟨fun _ => hdeepens.zero, fun h => absurd rfl h⟩
  | succ m =>
    rw [Reading.exec, stmts_singleton]
    exact (hdoes m (Nat.lt_succ_self m) w u hu).deeper hdeepens

lemma does_rounds (hR : Renders r R) (hf : R.program.funcs[a.number]? = some f)
    (hb : Built r.file a.number a.proc f) {cond : Expr} {body : List Stmt} {t i j : Id}
    {head inside merge b₁ : BlockId} {l₁ : List Id} (ht : Tests a.scope f cond ids t)
    (hi : f.live? i = some (.branchIf .positive t inside merge)) (hw : Within f head (ids ++ [i]))
    (hj : f.live? j = some (.branch head)) (hwj : Within f b₁ (l₁ ++ [j])) {N : Nat}
    (hbody : ∀ n ≤ N, Does r R n a f (r.stmts (r.exec n) a body) inside [] b₁ l₁) :
    ∀ n ≤ N, Does r R n a f (r.stmt (r.exec n) a (.loop pos cond body)) head [] merge [] := by
  intro n
  induction n using Nat.strong_induction_on with
  | _ n ih =>
    intro hn w p hp
    rw [Reading.stmt]
    refine simulates_test hR hf hb ht hi hw hp fun holds q u hdeepens hu hworld => ?_
    refine Simulates.proceeds hdeepens.proceeds ?_
    rw [← hworld]
    cases holds with
    | false => exact Simulates.done ⟨hu, KeepsReferences.refl _ _ _⟩
    | true =>
      refine (hbody n hn w u hu).bind fun w' v ⟨hv, hkeeps⟩ => ?_
      obtain ⟨q', hdeepens', hq', hworld'⟩ := hv.branch hf hb hj hwj
      rw [← hworld'] at hkeeps
      have hagain := simulates_again hdeepens' hq' fun m hm => ih m hm (by omega)
      exact hagain.mono fun w'' v' ⟨hv', hkeeps'⟩ => ⟨hv', hkeeps.trans hkeeps'⟩

lemma does_untilRounds (hR : Renders r R) (hf : R.program.funcs[a.number]? = some f)
    (hb : Built r.file a.number a.proc f) {cond : Expr} {body : List Stmt} {t i : Id}
    {inside merge b₁ : BlockId} {l₁ : List Id} (ht : Tests a.scope f cond ids t)
    (hi : f.live? i = some (.branchIf .positive t merge inside))
    (hw : Within f b₁ (l₁ ++ (ids ++ [i]))) {N : Nat}
    (hbody : ∀ n ≤ N, Does r R n a f (r.stmts (r.exec n) a body) inside [] b₁ l₁) :
    ∀ n ≤ N, Does r R n a f (r.stmt (r.exec n) a (.untilLoop pos body cond)) inside [] merge [] := by
  intro n
  induction n using Nat.strong_induction_on with
  | _ n ih =>
    intro hn w p hp
    rw [Reading.stmt]
    refine (hbody n hn w p hp).bind fun w' v ⟨hv, hkeeps⟩ => ?_
    refine simulates_test hR hf hb ht hi hw hv fun holds q u hdeepens hu hworld => ?_
    rw [← hworld] at hkeeps
    cases holds with
    | true => exact Simulates.proceeds hdeepens.proceeds (Simulates.done ⟨hu, hkeeps⟩)
    | false =>
      have hagain := simulates_again hdeepens hu fun m hm => ih m hm (by omega)
      exact hagain.mono fun w'' v' ⟨hv', hkeeps'⟩ => ⟨hv', hkeeps.trans hkeeps'⟩

end Statements

section Passing

variable {r : Reading} {a : Activation} {A : Flow.Activation} {w : World UInt64} {s : Progress}
  {k : Nat} {d : Proc} {g : Flow.Func} {ref : Ref} {v : Id} {o : Object} {y : Flow.Variable}

lemma Beside.passed (h : Beside r a A w s.world) (hv : a.scope.slotOf ref = .ok v)
    (ho : a.object? ref = some o) :
    (Flow.Reading.passed A y v).run s =
      (.ok (if y.byRef then .addr ⟨o, 0⟩ else .word (w.cells ⟨o, 0⟩)), s) := by
  obtain ⟨o', ho', hdata, href, hval⟩ := h.bound.object hv
  obtain rfl : o' = o := Option.some.inj (ho'.symm.trans ho)
  obtain ⟨x, hx, hbyRef, -⟩ := h.built.var hv
  have hobj := h.object? hv
  have hword : s.world.cells ⟨o', 0⟩ = .word (w.cells ⟨o', 0⟩) := h.mirrors.cells ⟨o', 0⟩ hdata
  have hnumber := h.number
  have hbyRef' : x.byRef = a.scope.isRef ref := hbyRef
  unfold Flow.Reading.passed
  rw [hx, run_bind_ok (run_required_some _ s), hnumber, hbyRef']
  cases hr : a.scope.isRef ref with
  | true =>
    cases y.byRef with
    | true =>
      simp only [if_true]
      rw [← href hr]
      rfl
    | false =>
      simp only [if_true, Bool.false_eq_true, if_false]
      rw [run_bind_ok (run_behind hobj (href hr)), ← hword]
      rfl
  | false =>
    rw [← hval hr]
    cases y.byRef with
    | true => rfl
    | false =>
      simp only [Bool.false_eq_true, if_false]
      rw [← hword]
      rfl

/-- The parameters from number `i` on that were passed. -/
structure Passed (file : File) (k i : Nat) (params : List Param) (os : List Object)
    (W W' : World Value) : Prop where
  length : os.length = params.length
  byRef : ∀ {j : Nat} {p : Param} {o : Object}, params[j]? = some p → os[j]? = some o →
    p.isRef = true → W'.cells ⟨⟨k, i + j⟩, 0⟩ = .addr ⟨o, 0⟩ ∧ file.isReference o = false
  byValue : ∀ {j : Nat} {p : Param} {o : Object}, params[j]? = some p → os[j]? = some o →
    p.isRef = false → o = ⟨k, i + j⟩
  keeps : ∀ c, file.isReference c.object = true → c.object.func ≠ k ∨ c.object.var < i →
    W'.cells c = W.cells c

lemma Passed.cons {file : File} {i : Nat} {p : Param} {params : List Param} {os : List Object}
    {W W' : World Value} {x : Value} (hisRef : file.isReference ⟨k, i⟩ = p.isRef)
    (h : Passed file k (i + 1) params os (W.write ⟨⟨k, i⟩, 0⟩ x) W')
    (href : p.isRef = true → x = .addr ⟨o, 0⟩ ∧ file.isReference o = false)
    (hval : p.isRef = false → o = ⟨k, i⟩) : Passed file k i (p :: params) (o :: os) W W' := by
  refine ⟨by simp [h.length], fun {j q o'} hq ho hr => ?_, fun {j q o'} hq ho hr => ?_,
    fun c hc hk => ?_⟩
  · cases j with
    | zero =>
      obtain rfl := Option.some.inj hq
      obtain rfl := Option.some.inj ho
      have hkeeps := h.keeps ⟨⟨k, i⟩, 0⟩ (hisRef.trans hr) (Or.inr (Nat.lt_succ_self i))
      refine ⟨?_, (href hr).2⟩
      rw [Nat.add_zero, hkeeps, (href hr).1]
      simp [World.write]
    | succ j =>
      have := h.byRef (by simpa using hq) (by simpa using ho) hr
      rwa [Nat.add_assoc, Nat.add_comm 1 j] at this
  · cases j with
    | zero =>
      obtain rfl := Option.some.inj hq
      obtain rfl := Option.some.inj ho
      exact hval hr
    | succ j =>
      have := h.byValue (by simpa using hq) (by simpa using ho) hr
      rwa [Nat.add_assoc, Nat.add_comm 1 j] at this
  · rw [h.keeps c hc (hk.imp_right fun h => Nat.lt_succ_of_lt h)]
    have hne : c ≠ ⟨⟨k, i⟩, 0⟩ := by
      rintro rfl
      rcases hk with hk | hk
      · exact hk rfl
      · exact Nat.lt_irrefl _ hk
    simp [World.write, hne]

lemma mapM_argument_cons {c : Scope} {e : Expr} {es : List Expr} {ids : List Id}
    (h : (e :: es).mapM c.argument = .ok ids) :
    ∃ pos ref v vs, e = .ident pos ref ∧ c.slotOf ref = .ok v ∧ es.mapM c.argument = .ok vs ∧
      ids = v :: vs := by
  rw [List.mapM_cons, bind_eq_ok] at h
  obtain ⟨v, hv, h⟩ := h
  rw [bind_eq_ok] at h
  obtain ⟨vs, hvs, h⟩ := h
  obtain rfl : v :: vs = ids := Except.ok.inj h
  cases e with
  | ident pos ref => exact ⟨pos, ref, v, vs, rfl, hv, hvs, rfl⟩
  | _ => cases hv

/-- The world in which parameter number `i` of procedure `k` was given the variable `o`. -/
def given (w : World UInt64) (k i : Nat) (p : Param) (o : Object) : World UInt64 :=
  if p.isRef then w else w.write ⟨⟨k, i⟩, 0⟩ (w.cells ⟨o, 0⟩)

/-- What the cell of a parameter then holds. -/
def passedFor (w : World UInt64) (p : Param) (o : Object) : Value :=
  if p.isRef then .addr ⟨o, 0⟩ else .word (w.cells ⟨o, 0⟩)

lemma run_pass_cons {i : Nat} {p : Param} {params : List Param} {pos : Position} {args : List Expr}
    {os : List Object} {w' : World UInt64} (ho : a.object? ref = some o)
    (hrest : (Reading.pass a k (i + 1) params args).run (given w k i p o) = (.ok os, w')) :
    (Reading.pass a k i (p :: params) (.ident pos ref :: args)).run w =
      (.ok ((if p.isRef then o else ⟨k, i⟩) :: os), w') := by
  unfold given at hrest
  rw [Reading.pass, Reading.argument, ho, run_bind_ok (run_required_some _ w)]
  cases hr : p.isRef with
  | true =>
    rw [hr, if_pos rfl] at hrest
    rw [if_pos rfl, run_bind_ok hrest]
    rfl
  | false =>
    rw [hr, if_neg Bool.false_ne_true] at hrest
    have hget : (Reading.get ⟨o, 0⟩).run w = (.ok (w.cells ⟨o, 0⟩), w) := rfl
    have hput : (Reading.put ⟨⟨k, i⟩, 0⟩ (w.cells ⟨o, 0⟩)).run w =
        (.ok (), w.write ⟨⟨k, i⟩, 0⟩ (w.cells ⟨o, 0⟩)) := rfl
    rw [if_neg Bool.false_ne_true, run_bind_ok hget, run_bind_ok hput, run_bind_ok hrest]
    rfl

lemma Beside.given {i : Nat} {p : Param} (hb : Beside r a A w s.world) (hka : k ≠ a.number)
    (hisRef : r.file.isReference ⟨k, i⟩ = p.isRef) :
    Beside r a A (given w k i p o) (s.world.write ⟨⟨k, i⟩, 0⟩ (passedFor w p o)) := by
  refine ⟨hb.number, hb.built, hb.bound.congr fun j _ => ?_, ?_⟩
  · have hne : (⟨⟨a.number, j⟩, 0⟩ : Cell) ≠ ⟨⟨k, i⟩, 0⟩ := by
      intro heq
      exact hka (congrArg (fun c : Cell => c.object.func) heq).symm
    simp [World.write, hne]
  · unfold Tree.given passedFor
    cases hr : p.isRef with
    | true =>
      refine ⟨fun c hc => ?_, hb.mirrors.input, hb.mirrors.output⟩
      have hne : c ≠ ⟨⟨k, i⟩, 0⟩ := by
        rintro rfl
        rw [hisRef, hr] at hc
        cases hc
      simp [World.write, hne, hb.mirrors.cells c hc]
    | false => exact hb.mirrors.write _

lemma pass_reproduces (hd : r.file.decls[k]? = some d) (hg : Built r.file k d g) (hka : k ≠ a.number)
    {params : List Param} {args : List Expr} {ids : List Id} {i : Nat}
    (hparams : d.params.drop i = params) (hargs : args.mapM a.scope.argument = .ok ids)
    (hlen : args.length = params.length) (hb : Beside r a A w s.world) :
    ∃ os w' vs W', (Reading.pass a k i params args).run w = (.ok os, w') ∧
      (Flow.Reading.pass A k g (slotRange i params.length) ids).run s =
        (.ok vs, { s with world := W' }) ∧
      Mirrors r.file w' W' ∧ Passed r.file k i params os s.world W' := by
  induction params generalizing args ids i w s with
  | nil =>
    obtain rfl : args = [] := List.length_eq_zero_iff.mp hlen
    obtain rfl : ([] : List Id) = ids := Except.ok.inj hargs
    exact ⟨[], w, [], s.world, rfl, rfl, hb.mirrors, rfl, by simp, by simp, fun _ _ _ => rfl⟩
  | cons p params ih =>
    obtain ⟨e, es, rfl⟩ := List.exists_cons_of_length_eq_add_one hlen
    obtain ⟨pos, ref, v, vs, rfl, hv, hvs, rfl⟩ := mapM_argument_cons hargs
    obtain ⟨o, ho, hdata, -⟩ := hb.bound.object hv
    have hp : d.params[i]? = some p := by
      rw [← List.head?_drop, hparams]
      rfl
    have hslot : Scope.slotOf ⟨k, d⟩ (.param i) = .ok (i : Int) :=
      if_pos (List.getElem?_eq_some_iff.mp hp).1
    obtain ⟨y, hy, hbyRef, -⟩ := hg.var hslot
    have hyRef : y.byRef = p.isRef := by
      rw [hbyRef, Scope.isRef, hp]
      rfl
    have hisRef : r.file.isReference ⟨k, i⟩ = p.isRef := by
      rw [isReference_of_proc hd, hp]
      rfl
    have hpassed := hb.passed (y := y) hv ho
    rw [hyRef] at hpassed
    obtain ⟨os, w', vals, W', htree, hflow, hmirrors, hpass⟩ :=
      ih (s := { s with world := s.world.write ⟨⟨k, i⟩, 0⟩ (passedFor w p o) })
        (by rw [← List.tail_drop, hparams]; rfl) hvs (by simpa using hlen) (hb.given hka hisRef)
    refine ⟨_, w', passedFor w p o :: vals, W', run_pass_cons ho htree, ?_, hmirrors, ?_⟩
    · rw [List.length_cons, slotRange_succ, Flow.Reading.pass, hy, run_bind_ok (run_required_some _ s),
        run_bind_ok hpassed]
      have hfill : (Flow.Reading.fill ⟨⟨k, (i : Int).toNat⟩, 0⟩ (passedFor w p o)).run s =
          (.ok (), { s with world := s.world.write ⟨⟨k, i⟩, 0⟩ (passedFor w p o) }) := rfl
      exact (run_bind_ok hfill).trans ((run_bind_ok hflow).trans rfl)
    · refine Passed.cons hisRef hpass (fun hr => ?_) fun hr => ?_
      · rw [passedFor, if_pos hr, if_pos hr]
        exact ⟨rfl, hdata⟩
      · rw [if_neg (by simp [hr])]

end Passing

section Calling

variable {r : Reading} {R : Flow.Reading} {n : Nat} {a : Activation} {f : Flow.Func}
  {b : BlockId} {l ids : List Id} {pos : Position}

/-- A call goes deeper into the called function, and goes on behind the call when that returns. -/
structure Visits (R : Flow.Reading) (p q : Point) (back : Progress → Point) : Prop where
  zero : Unfinished (p.run R 0)
  returned : ∀ {n s}, q.run R n = (.ok .returned, s) → p.run R (n + 1) = (back s).run R (n + 1)
  stops : ∀ {n e s}, q.run R n = (.error e, s) → p.run R (n + 1) = (.error e, s)

lemma Visits.proceeds {p q u : Point} {back : Progress → Point} (h : Visits R p q back)
    (hq : Proceeds R q u) (hu : ∀ n, u.run R n = (.ok .returned, u.progress)) :
    Proceeds R p (back u.progress) := by
  obtain ⟨m, hm⟩ := hq.ends 0 (by rw [hu]; simp [Unfinished])
  rw [hu] at hm
  have hcases : ∀ n, Unfinished (q.run R n) ∨ q.run R n = (.ok .returned, u.progress) := by
    intro n
    by_cases hn : Unfinished (q.run R n)
    · exact Or.inl hn
    · right
      rcases le_total n m with hnm | hnm
      · rw [← hm, Point.run_mono hnm hn]
      · rw [Point.run_mono hnm (by rw [hm]; simp [Unfinished]), hm]
  refine ⟨fun n hn => ?_, fun n hn => ?_⟩
  · cases n with
    | zero => exact h.zero
    | succ n =>
      rcases hcases n with hun | hret
      · rcases hrun : q.run R n with ⟨e | e, s⟩
        · rw [hrun] at hun
          rw [h.stops hrun]
          exact hun
        · rw [hrun] at hun
          cases hun
      · rw [h.returned hret]
        exact hn
  · refine ⟨max n m + 1, ?_⟩
    have hmax : q.run R (max n m) = (.ok .returned, u.progress) := by
      rw [Point.run_mono (le_max_right n m) (by rw [hm]; simp [Unfinished]), hm]
    rw [h.returned hmax, Point.run_mono (by omega) hn]

lemma Simulates.visits {p q : Point} {back : Progress → Point} (h : Visits R p q back)
    {Q Q' : World UInt64 → Point → Prop} {x : Except Interrupt Unit × World UInt64}
    (hx : Simulates R q n Q x)
    (hQ : ∀ w u, Q w u → ∃ v, Proceeds R u v ∧ (∀ n, v.run R n = (.ok .returned, v.progress)) ∧
      Q' w (back v.progress)) : Simulates R p (n + 1) Q' x := by
  rcases x with ⟨e | ⟨⟩, w⟩
  · refine ⟨fun he => ?_, fun he => ?_⟩
    · have hun := hx.1 he
      rcases hrun : q.run R n with ⟨e' | e', s⟩
      · rw [hrun] at hun
        rw [h.stops hrun]
        exact hun
      · rw [hrun] at hun
        cases hun
    · obtain ⟨m, s, hm, hio⟩ := hx.2 he
      exact ⟨m + 1, s, h.stops hm, hio⟩
  · obtain ⟨u, hu, hQu⟩ := hx
    obtain ⟨v, hv, hret, hQv⟩ := hQ w u hQu
    exact ⟨back v.progress, h.proceeds (hu.trans hv) hret, hQv⟩

lemma run_call {A : Flow.Activation} {i : Id} {k : Nat} {g : Flow.Func} {s : Progress} {vs : List Value}
    {W : World Value} (hi : A.func.live? i = some (.call k ids)) (hg : R.program.funcs[k]? = some g)
    (hpass : (Flow.Reading.pass A k g g.params ids).run s = (.ok vs, { s with world := W }))
    (rest : List Id) (n : Nat) :
    Point.run R ⟨A, i :: rest, s⟩ n =
      (do
        match ← R.block n k g.entry with
        | .stopped => return .stopped
        | .returned => R.exec (R.block n) A rest : Flow.Exec Flow.Ending).run
        { world := W, trace := s.trace ++ [.call k vs] } := by
  have hlookup : (Flow.lookup R.program.funcs (k : Int)).toOption = some g := by
    rw [Flow.Reading.toOption_lookup, if_pos (Int.natCast_nonneg k), Int.toNat_natCast, hg]
  have hrecord : (Flow.Reading.record (.call k vs)).run { s with world := W } =
      (.ok (), { world := W, trace := s.trace ++ [.call k vs] }) := rfl
  rw [Point.run, Flow.Reading.exec_call (Flow.Func.payload_of_live hi), hlookup,
    run_bind_ok (run_required_some _ s)]
  simp only [Int.toNat_natCast]
  exact (run_bind_ok hpass).trans (run_bind_ok hrecord)

lemma visits_call {A : Flow.Activation} {i : Id} {k : Nat} {g : Flow.Func} {code : List Id}
    {s : Progress} {vs : List Value} {W : World Value} (hi : A.func.live? i = some (.call k ids))
    (hg : R.program.funcs[k]? = some g) (hcode : g.listing? g.entry = some code)
    (hpass : (Flow.Reading.pass A k g g.params ids).run s = (.ok vs, { s with world := W }))
    (rest : List Id) :
    Visits R ⟨A, i :: rest, s⟩
      ⟨{ number := k, func := g }, code,
        entering { world := W, trace := s.trace ++ [.call k vs] } k g.entry⟩
      fun t => ⟨A, rest, t⟩ := by
  have hrun := run_call hi hg hpass rest
  refine ⟨?_, fun {n t} hq => ?_, fun {n e t} hq => ?_⟩
  · rw [hrun]
    rfl
  · rw [hrun, run_bind_ok ((Flow.Reading.run_block_succ hg hcode n _).trans hq)]
    rfl
  · rw [hrun, run_bind_error ((Flow.Reading.run_block_succ hg hcode n _).trans hq)]

lemma Passed.bound {k : Nat} {d : Proc} {os : List Object} {W W' : World Value}
    (hd : r.file.decls[k]? = some d) (h : Passed r.file k 0 d.params os W W') :
    Bound r.file ⟨k, d, os⟩ W' :=
  ⟨hd, h.length, fun hp ho hr => by simpa using h.byRef hp ho hr,
    fun hp ho hr => by simpa using h.byValue hp ho hr⟩

lemma keeps_of_call {k : Nat} {params : List Param} {os : List Object} {W W' W'' : World Value}
    (hcalls : r.file.Calls a.number k) (hpass : Passed r.file k 0 params os W W')
    (hkeeps : KeepsReferences r.file k W' W'') : KeepsReferences r.file a.number W W'' := by
  intro c hc hnot
  rw [hkeeps c hc fun h => hnot (.head hcalls h), hpass.keeps c hc (Or.inl ?_)]
  rintro rfl
  exact hnot (.single hcalls)

/-- The body of procedure number `k` is done as its tree says. -/
def DoesBody (r : Reading) (R : Flow.Reading) (n k : Nat) : Prop :=
  ∀ (a : Activation) (f : Flow.Func) (b : BlockId) (l : List Id), a.number = k →
    r.file.decls[k]? = some a.proc → R.program.funcs[k]? = some f → Built r.file k a.proc f →
    Flows a.scope f a.proc.body f.entry [] b l →
    Does r R n a f (r.stmts (r.exec n) a a.proc.body) f.entry [] b l

lemma does_call (hR : Renders r R) (hfile : r.file.Calling) (hb : Built r.file a.number a.proc f)
    (hproc : r.file.decls[a.number]? = some a.proc) {k : Nat} {args : List Expr} {i : Id}
    (hargs : args.mapM a.scope.argument = .ok ids) (hi : f.live? i = some (.call k ids))
    (hw : Within f b (l ++ [i])) (hcall : (k, args.length) ∈ callsIn a.proc.body)
    (hmain : ∀ d, r.file.decls[k]? = some d → d.isMain = false)
    (hbody : ∀ m < n, DoesBody r R m k) :
    Does r R n a f (r.stmt (r.exec n) a (.call pos (some k) args)) b l b (l ++ [i]) := by
  intro w p hp
  obtain ⟨rest, hcode, -⟩ := hp.rest hb hw
  obtain ⟨A, code, s⟩ := p
  obtain rfl : code = i :: rest := hcode
  have hbeside := hp.beside hb
  obtain rfl : A.func = f := hp.func
  have hcalls : r.file.Calls a.number k := ⟨a.proc, args.length, hproc, hcall⟩
  have hka : k ≠ a.number := by
    rintro rfl
    exact hfile.acyclic _ (.single hcalls)
  obtain ⟨d, hd, hlen⟩ := Option.map_eq_some_iff.mp (hfile.arity hproc hcall)
  obtain ⟨g, hg, hgb⟩ := hR.funcs hd
  obtain ⟨b', l', i', hflows, hi', hwithin⟩ := hgb.body
  obtain ⟨entry, hentry⟩ := Option.isSome_iff_exists.mp hgb.orderly.entry
  obtain ⟨os, w', vs, W', htree, hflow, hmirrors, hpass⟩ :=
    pass_reproduces hd hgb hka List.drop_zero hargs hlen.symm hbeside
  rw [← hgb.params] at hflow
  have hvisits := visits_call hi hg hentry hflow rest
  have hat : StandsAt r ⟨k, d, os⟩ g g.entry [] w'
      ⟨{ number := k, func := g }, entry,
        entering { world := W', trace := s.trace ++ [.call k vs] } k g.entry⟩ :=
    ⟨rfl, rfl, hentry, hpass.bound hd, hmirrors⟩
  have hstmt : (r.stmt (r.exec n) a (.call pos (some k) args)).run w =
      (r.exec n ⟨k, d, os⟩ d.body).run w' := by
    rw [Reading.stmt, run_bind_ok (run_required_some _ w), hd, run_bind_ok (run_required_some _ w),
      run_bind_ok htree]
  rw [hstmt]
  cases n with
  | zero => exact ⟨fun _ => hvisits.zero, fun h => absurd rfl h⟩
  | succ m =>
    have hdoes := hbody m (Nat.lt_succ_self m) ⟨k, d, os⟩ g b' l' rfl hd hg hgb hflows w' _ hat
    refine hdoes.visits hvisits fun w'' u ⟨hu, hkeeps⟩ => ⟨u, Proceeds.refl R u, fun m => ?_, ?_⟩
    · obtain ⟨rest', hcode', -⟩ := hu.rest hgb hwithin
      have hpay : u.activation.func.payload i' = .ok .ret := by
        rw [hu.func]
        rw [hmain d hd, if_neg Bool.false_ne_true] at hi'
        exact Flow.Func.payload_of_live hi'
      rw [Point.run, hcode', List.singleton_append, Flow.Reading.exec_ret hpay]
      rfl
    · have hkeeps' := keeps_of_call hcalls hpass hkeeps
      exact ⟨⟨hp.number, rfl, by simpa using hp.code, hkeeps'.bound (hfile.acyclic _) hp.bound,
        hu.mirrors⟩, hkeeps'⟩

/-- The code of statements does what the statements do. -/
theorem Flows.does (hR : Renders r R) (hfile : r.file.Calling)
    (hf : R.program.funcs[a.number]? = some f) (hb : Built r.file a.number a.proc f)
    (hproc : r.file.decls[a.number]? = some a.proc) {N : Nat}
    (hcallees : ∀ k, r.file.Calls a.number k →
      (∀ d, r.file.decls[k]? = some d → d.isMain = false) ∧ ∀ m < N, DoesBody r R m k)
    {ss : List Stmt} {b' : BlockId} {l' : List Id} (h : Flows a.scope f ss b l b' l')
    (hcalls : ∀ c ∈ callsIn ss, c ∈ callsIn a.proc.body) :
    ∀ n ≤ N, Does r R n a f (r.stmts (r.exec n) a ss) b l b' l' := by
  induction h with
  | nil =>
    intro n _ w p hp
    rw [Reading.stmts]
    exact Simulates.done ⟨hp, KeepsReferences.refl _ _ _⟩
  | assign hd hs hi hw _ ih =>
    intro n hn
    rw [Reading.stmts]
    exact (does_assign hR hb hd hs hi hw).seq (ih (fun c hc => hcalls c (by simp [callsIn, hc])) n hn)
  | readIdent hv hd hi hw _ ih =>
    intro n hn
    rw [Reading.stmts]
    exact (does_readIdent hb hv hd hi hw).seq (ih (fun c hc => hcalls c (by simp [callsIn, hc])) n hn)
  | readIndex hd he hi hw _ ih =>
    intro n hn
    rw [Reading.stmts]
    exact (does_readIndex hR hb hd he hi hw).seq
      (ih (fun c hc => hcalls c (by simp [callsIn, hc])) n hn)
  | write hs hi hw _ ih =>
    intro n hn
    rw [Reading.stmts]
    exact (does_write hR hb hs hi hw).seq (ih (fun c hc => hcalls c (by simp [callsIn, hc])) n hn)
  | @call pos k args rest b b' l l' ids i hargs hi hw _ ih =>
    intro n hn
    rw [Reading.stmts]
    have hcall : (k, args.length) ∈ callsIn a.proc.body :=
      hcalls _ (by simp [callsIn, Stmt.calls])
    obtain ⟨hmain, hbody⟩ := hcallees k ⟨a.proc, _, hproc, hcall⟩
    exact (does_call hR hfile hb hproc hargs hi hw hcall hmain fun m hm => hbody m (by omega)).seq
      (ih (fun c hc => hcalls c (by simp [callsIn, hc])) n hn)
  | choose ht hi hw _ h₁ hw₁ _ h₂ hw₂ _ ihyes ihno ih =>
    intro n hn
    rw [Reading.stmts]
    refine (does_choose hR hf hb ht hi hw ?_ ?_).seq
      (ih (fun c hc => hcalls c (by simp [callsIn, hc])) n hn)
    · exact Does.branch hf hb
        (ihyes (fun c hc => hcalls c (by simp [callsIn, Stmt.calls, hc])) n hn) h₁ hw₁
    · exact Does.branch hf hb
        (ihno (fun c hc => hcalls c (by simp [callsIn, Stmt.calls, hc])) n hn) h₂ hw₂
  | loop hi hw ht h₁ hw₁ _ h₂ hw₂ _ ihbody ih =>
    intro n hn
    rw [Reading.stmts]
    refine (Does.behindBranch hf hb hi hw ?_).seq
      (ih (fun c hc => hcalls c (by simp [callsIn, hc])) n hn)
    exact does_rounds hR hf hb ht h₁ hw₁ h₂ hw₂
      (ihbody fun c hc => hcalls c (by simp [callsIn, Stmt.calls, hc])) n hn
  | untilLoop hi hw _ ht h₁ hw₁ _ ihbody ih =>
    intro n hn
    rw [Reading.stmts]
    refine (Does.behindBranch hf hb hi hw ?_).seq
      (ih (fun c hc => hcalls c (by simp [callsIn, hc])) n hn)
    exact does_untilRounds hR hf hb ht h₁ hw₁
      (ihbody fun c hc => hcalls c (by simp [callsIn, Stmt.calls, hc])) n hn

/-- Bodies of procedures that do not call the main program are done as their trees say. -/
lemma doesBody (hR : Renders r R) (hfile : r.file.Calling) (n : Nat) {k : Nat}
    (hmain : ∀ m d, Relation.TransGen r.file.Calls k m → r.file.decls[m]? = some d →
      d.isMain = false) : DoesBody r R n k := by
  induction n using Nat.strong_induction_on generalizing k with
  | _ n ih =>
    rintro a f b l rfl hproc hf hb hflows
    refine hflows.does hR hfile hf hb hproc (fun m hm => ?_) (fun c hc => hc) n le_rfl
    refine ⟨fun d hd => hmain m d (.single hm) hd, fun n' hn' => ih n' hn' fun m' d hm' hd => ?_⟩
    exact hmain m' d (.head hm hm') hd

end Calling

end Accumulator.Tree
