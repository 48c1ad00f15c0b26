import Mathlib
import Accumulator.Proofs.BuildMeaning
import Accumulator.Proofs.CoalesceMeaning
import Accumulator.Proofs.Compiling
import Accumulator.Proofs.ComplementMeaning
import Accumulator.Proofs.DecidableTrees
import Accumulator.Proofs.LinkedRuns
import Accumulator.Proofs.LoweringMeaning

/-!
# The meaning of compiled programs

Each stage of compilation keeps what programs do. Put together, a tree that was linked and
the machine code it is compiled to do the same: the machine halts, or is left without input, if the
tree comes to its end, or to a read without input, and it goes on as long as the tree does.
-/

namespace Accumulator

open Accumulator.Flow (Id Payload)
open Accumulator.Flow.Func
open Accumulator.Flow.Reading (SameRuns withFunc_self withFunc_of_ne withFunc_withFunc)

section Calls

variable {f g : Flow.Func} {S ids : List Id} {j k : Nat} {C : Nat → Nat → Prop} {p : Flow.Program}

namespace Flow.Func

/-- A call of function number `j` that was not erased. -/
def HasCall (f : Func) (j : Nat) : Prop := ∃ u args, f.live? u = some (.call (j : Int) args)

lemma Complements.hasCall (h : Complements f S g) (hj : g.HasCall j) : f.HasCall j := by
  obtain ⟨u, args, hu⟩ := hj
  obtain ⟨x, hx, heq⟩ := h.live_cases hu
  rcases Payload.complemented_cases S u x with hsame | ⟨_, _, _, -, -, hc⟩ | ⟨_, _, _, _, -, -, hc⟩
  · exact ⟨u, args, by rw [hx, heq, hsame]⟩
  · rw [hc] at heq
    cases heq
  · rw [hc] at heq
    cases heq

lemma SpillChain.hasCall (h : SpillChain f ids g) (hj : g.HasCall j) : f.HasCall j := by
  induction h with
  | refl => exact hj
  | tail _ _ hs _ _ ih =>
    obtain ⟨u, args, hu⟩ := hj
    refine ih ?_
    rcases hs.live_cases hu with ⟨x, hx, heq⟩ | ⟨-, heq⟩ | ⟨_, -, -, heq⟩ | ⟨-, heq⟩
    · obtain ⟨args', rfl⟩ := Payload.call_of_rename heq.symm
      exact ⟨u, args', hx⟩
    all_goals cases heq

lemma Rewrites.hasCall {b : BlockId} (hf : Tidy f) (h : Rewrites f g b) (hj : g.HasCall j) :
    f.HasCall j := by
  obtain ⟨v, pre, mid, mid', post, σ, hwin, hshape⟩ := h
  obtain ⟨u, args, hu⟩ := hj
  rcases hwin.live_cases hu with hnew | ⟨-, -, x, hx, heq⟩
  · obtain ⟨s, r, t, hm⟩ := hshape.merging hf hwin
    rcases hm.new u hnew with ⟨d, w, -, -, -, -, -, hload | hload⟩ | ⟨rfl, hst, -⟩
    · cases hu.symm.trans hload
    · cases hu.symm.trans hload
    · cases hu.symm.trans hst
  · obtain ⟨args', rfl⟩ := Payload.call_of_rename heq.symm
    exact ⟨u, args', hx⟩

lemma Coalesced.hasCall (hf : Tidy f) (h : Coalesced f g) (hj : g.HasCall j) : f.HasCall j := by
  obtain ⟨f₁, hchain, hp⟩ := h.chain
  have hj₁ : f₁.HasCall j := by
    obtain ⟨u, args, hu⟩ := hj
    rcases hp.live u with hsame | ⟨-, -, hnone⟩
    · exact ⟨u, args, hsame.symm.trans hu⟩
    · cases hu.symm.trans hnone
  clear hp
  induction hchain with
  | refl => exact hj₁
  | tail hchain hstep ih =>
    obtain ⟨b, -, hrw⟩ := hstep
    exact ih (hrw.hasCall (Coalesces.keeps hf hchain).1 hj₁)

end Flow.Func

/-- Sound functions whose calls are among given ones. -/
def Flow.Program.Bounded (C : Nat → Nat → Prop) (p : Flow.Program) : Prop :=
  ∀ k f, p.funcs[k]? = some f → f.Sound ∧ ∀ j, f.HasCall j → C k j

namespace Flow.Program.Bounded

lemma calls (h : p.Bounded C) (hc : p.Calls k j) : C k j := by
  obtain ⟨f, b, code, u, args, hf, hcode, hu, hpay⟩ := hc
  obtain ⟨hsound, hcalls⟩ := h k f hf
  obtain ⟨x, hx, -⟩ := hsound.live_of_mem (code_eq_ok.mp hcode) (i := u) (by simpa using hu)
  obtain rfl : x = .call (j : Int) args := Except.ok.inj ((payload_of_live hx).symm.trans hpay)
  exact hcalls j ⟨u, args, hx⟩

lemma acyclic (h : p.Bounded C) (hC : ∀ k, ¬ Relation.TransGen C k k) (k : Nat) :
    ¬ Relation.TransGen p.Calls k k :=
  fun hcycle => hC k (hcycle.lift id fun _ _ hc => h.calls hc)

lemma withFunc {r : Flow.Reading} (h : r.program.Bounded C) (hk : r.program.funcs[k]? = some f)
    (hg : g.Sound) (hcalls : ∀ j, g.HasCall j → f.HasCall j) :
    (r.withFunc k g).program.Bounded C := by
  intro i g' hi
  by_cases hik : i = k
  · subst hik
    obtain rfl : g = g' := Option.some.inj ((withFunc_self hk).symm.trans hi)
    exact ⟨hg, fun j hj => (h i f hk).2 j (hcalls j hj)⟩
  · rw [withFunc_of_ne hik] at hi
    exact h i g' hi

end Flow.Program.Bounded

end Calls

namespace Compile

variable {f g : Flow.Func} {o : Options} {arity : Nat → Nat → Prop} {C : Nat → Nat → Prop}
  {k : Nat} {r : Flow.Reading}

lemma Optimized.hasCall {j : Nat} (h : Optimized o f g) (hf : Orderly arity ∅ f)
    (hnodup : (f.locals ++ f.params).Nodup) (hj : g.HasCall j) : f.HasCall j := by
  obtain ⟨n, S, f₁, ids, f₂, -, hc, -, hs, hg⟩ := h
  have h₂ := spilled_of_orderly hf hnodup hc hs
  have hj₂ : f₂.HasCall j := by
    rcases hg with ⟨-, rfl⟩ | ⟨-, hco⟩
    · exact hj
    · exact hco.hasCall h₂.tidy hj
  exact hc.toComplements.hasCall (hs.chain.hasCall hj₂)

/-- A program runs as before with one function taken through the stages, from worlds in which nothing
points to some objects of the function. -/
lemma Optimized.sameRuns (h : Optimized o f g) (hf : Orderly arity ∅ f)
    (hnodup : (f.locals ++ f.params).Nodup) (hC : ∀ k, ¬ Relation.TransGen C k k)
    (hr : r.program.Bounded C) (hk : r.program.funcs[k]? = some f) :
    ∃ H, ∀ j, SameRuns H r (r.withFunc k g) j := by
  obtain ⟨n, S, f₁, ids, f₂, hcanon, hc, -, hs, hg⟩ := h
  have h₁ := hf.complement hc.toComplements
  have h₂ := spilled_of_orderly hf hnodup hc hs
  obtain ⟨blocks, hv⟩ := verify_iff_verified.mp (hf.sound.verify_iff.mpr hf.wellFormed)
  obtain ⟨S', hcanonical, -⟩ := hv.canonicalized hcanon
  have hcanonicalized := fun j => hcanonical.sameRuns hv hk j
  have hr₁ := hr.withFunc hk h₁.sound fun j => hc.toComplements.hasCall
  obtain ⟨vs, hp⟩ := hs.chain.progress h₁.sound h₁.framed h₁.wellFormed
  have hspilled := fun j => hp.runs (r.withFunc k f₁) k (withFunc_self hk) (hr₁.acyclic hC k) j
  rw [withFunc_withFunc] at hspilled
  rcases hg with ⟨-, rfl⟩ | ⟨-, hco⟩
  · exact ⟨_, fun j => (hcanonicalized j).trans (hspilled j)⟩
  · obtain ⟨H, -, hcoalesced⟩ := hco.sameRuns h₂.tidy (r := r.withFunc k f₂) (withFunc_self hk)
    rw [withFunc_withFunc] at hcoalesced
    exact ⟨_, fun j => ((hcanonicalized j).trans (hspilled j)).trans (hcoalesced j)⟩

lemma sameRuns_of_optimized (division : Word.Division) {fs gs : List Flow.Func}
    (h : List.Forall₂ (Optimized o) fs gs)
    (hfs : ∀ f ∈ fs, ∃ arity, Orderly arity ∅ f ∧ (f.locals ++ f.params).Nodup)
    (hC : ∀ k, ¬ Relation.TransGen C k k) (pre : List Flow.Func)
    (hp : Flow.Program.Bounded C ⟨(pre ++ fs).toArray⟩) :
    Flow.Program.Bounded C ⟨(pre ++ gs).toArray⟩ ∧
      ∃ H, ∀ j, SameRuns H ⟨⟨(pre ++ fs).toArray⟩, division⟩ ⟨⟨(pre ++ gs).toArray⟩, division⟩ j := by
  induction h generalizing pre with
  | nil => exact ⟨hp, [], fun j => SameRuns.refl _ j⟩
  | @cons f g fs gs hopt _ ih =>
    obtain ⟨arity, hf, hnodup⟩ := hfs f (by simp)
    set r : Flow.Reading := ⟨⟨(pre ++ f :: fs).toArray⟩, division⟩ with hr
    have hk : r.program.funcs[pre.length]? = some f := by simp [hr]
    have hwith : r.withFunc pre.length g = ⟨⟨((pre ++ [g]) ++ fs).toArray⟩, division⟩ := by
      simp [hr, Flow.Reading.withFunc]
    have hb := Flow.Program.Bounded.withFunc (r := r) hp hk (hopt.spilled hf hnodup).tidy.sound
      fun j => hopt.hasCall hf hnodup
    obtain ⟨H, hfirst⟩ := hopt.sameRuns hf hnodup hC (r := r) hp hk
    rw [hwith] at hb hfirst
    obtain ⟨hb', H', hrest⟩ := ih (fun f hf => hfs f (by simp [hf])) (pre ++ [g]) hb
    simp only [List.append_assoc, List.singleton_append] at hfirst hb' hrest
    exact ⟨hb', H ++ H', fun j => (hfirst j).trans (hrest j)⟩

end Compile

section Runs

variable {r r' : Flow.Reading} {words : List UInt64}

lemma Flow.Reading.SameRuns.run {H : List Object} (h : ∀ j, SameRuns H r r' j)
    (hmain : r'.program.main? = r.program.main?) (n : Nat) (words : List UInt64) :
    (r'.run n words).1 = (r.run n words).1 ∧
      (r'.run n words).2.world.input = (r.run n words).2.world.input ∧
      (r'.run n words).2.world.output = (r.run n words).2.world.output := by
  unfold Flow.Reading.run
  rw [hmain]
  cases r.program.main? with
  | none => exact ⟨rfl, rfl, rfl⟩
  | some k =>
    obtain ⟨hend, hsame⟩ := h k n (World.start (.word 0) words) fun c d hd => by cases hd
    exact ⟨hend, hsame.input.symm, hsame.output.symm⟩

open Machine (Ends runFor) in
/-- All machines that follow some runs come to the same end, or none of them comes to an end. -/
lemma Layout.Follows.fate {α ν : Type} {X : Nat → Except Interrupt α × World ν}
    (hapt : ∀ n e, (X n).1 = .error e → e.Apt Layout.division)
    (hinside : ∀ n c, (X n).1 ≠ .error (.outside c)) :
    (∃ stop ∈ [none, some Machine.Stop.noInput], ∃ input output, ∀ code,
        (∀ n, Layout.Follows code n words (X n).1 (X n).2) → Ends code words stop input output) ∨
      ∀ code, (∀ n, Layout.Follows code n words (X n).1 (X n).2) →
        ∀ n, (runFor code n (.start words)).2 = some .stepLimit := by
  by_cases hfin : ∃ n, ¬ Unfinished (X n)
  · obtain ⟨n, hn⟩ := hfin
    have hn' := hapt n
    have hc := hinside n
    rcases hX : X n with ⟨e | v, w⟩ <;> rw [hX] at hn hn' hc
    · cases e with
      | noInput =>
        refine Or.inl ⟨some .noInput, by simp, w.input, w.output, fun code h => ?_⟩
        have := h n
        rwa [hX] at this
      | division v v' =>
        refine Or.inr fun code h => ?_
        have := h n
        rw [hX] at this
        exact this (hn' _ rfl)
      | outside c => exact absurd rfl (hc c)
      | unfinished => exact absurd rfl hn
      | senseless => exact (hn' _ rfl).elim
    · refine Or.inl ⟨none, by simp, w.input, w.output, fun code h => ?_⟩
      have := h n
      rwa [hX] at this
  · refine Or.inr fun code h n => ?_
    have hn : (X n).1 = .error .unfinished := by
      by_contra hne
      exact hfin ⟨n, hne⟩
    have := h n
    rwa [hn] at this

end Runs

namespace Compile

variable {file : Tree.File} {p : Flow.Program} {o : Options} {res : Result}
  {division : Word.Division}

lemma bounded_of_renders (hR : Tree.Renders ⟨file, division⟩ ⟨p, division⟩) :
    p.Bounded file.Calls := by
  intro k f hf
  obtain ⟨d, hd, hb⟩ := built_of_func hR.size hR.funcs hf
  refine ⟨hb.orderly.sound, fun j hj => ?_⟩
  obtain ⟨u, args, hu⟩ := hj
  obtain ⟨n, hn⟩ := hb.callees hu
  exact ⟨d, n, hd, hn⟩

lemma map_isMain_of_optimized {fs gs : List Flow.Func} (h : List.Forall₂ (Optimized o) fs gs)
    (hfs : ∀ f ∈ fs, ∃ arity, Orderly arity ∅ f ∧ (f.locals ++ f.params).Nodup) :
    gs.map (·.isMain) = fs.map (·.isMain) := by
  induction h with
  | nil => rfl
  | @cons f g fs gs hopt _ ih =>
    obtain ⟨arity, hf, hnodup⟩ := hfs f (by simp)
    rw [List.map_cons, List.map_cons, (hopt.spilled hf hnodup).isMain,
      ih fun f hf => hfs f (by simp [hf])]

/-- What comes out of the stages calls what the procedures call and runs as what was built. -/
lemma Compiled.sameRuns (hc : Compiled o p res) (hcalls : file.Calling)
    (hR : Tree.Renders ⟨file, division⟩ ⟨p, division⟩) :
    res.flow.Bounded file.Calls ∧ res.flow.main? = p.main? ∧
      ∃ H, ∀ j, SameRuns H ⟨p, division⟩ ⟨res.flow, division⟩ j := by
  have horderly : ∀ f ∈ p.funcs.toList, ∃ arity, Orderly arity ∅ f ∧ (f.locals ++ f.params).Nodup :=
    fun f => orderly_of_built hR.size hR.funcs
  obtain ⟨hbounded, hruns⟩ := sameRuns_of_optimized division hc.funcs horderly hcalls.acyclic []
    (bounded_of_renders hR)
  refine ⟨hbounded, ?_, hruns⟩
  rw [Tree.main?_eq, Tree.main?_eq, map_isMain_of_optimized hc.funcs horderly]

/-- The machine code of a compiled program does what the flow program does that was built. -/
lemma Compiled.follows_flow (hc : Compiled o p res) (hcalls : file.Calling)
    (hR : Tree.Renders ⟨file, division⟩ ⟨p, division⟩) (hcells : res.program.cellCount < 2 ^ 63)
    (hsize : res.program.code.size < 2 ^ 63)
    (hdivision : ∀ v w q, division v w = some q → Layout.division v w = some q) (n : Nat)
    (words : List UInt64) :
    Layout.Follows res.program.instrs n words (Flow.Reading.run ⟨p, division⟩ n words).1
      (Flow.Reading.run ⟨p, division⟩ n words).2.world := by
  obtain ⟨hbounded, hmain, H, hruns⟩ := hc.sameRuns hcalls hR
  obtain ⟨q, hq, hprogram⟩ := hc.program
  rw [hprogram] at hcells hsize ⊢
  obtain ⟨main, frames, codes, hlaid⟩ := Layout.lower_eq_ok.mp hq
  have hsound : ∀ {k : Nat} {f}, res.flow.funcs[k]? = some f → f.Sound ∧ f.WellFormed ∧ f.InPlace := by
    intro k f hf
    have htidy := hc.placeable.tidy hf
    exact ⟨htidy.sound, htidy.wellFormed, (hc.placeable.settled hf).inPlace⟩
  have R : Layout.Runnable ⟨res.flow, division⟩ frames (Layout.retOf codes) (Layout.image q codes) :=
    hlaid.runnable (r := ⟨res.flow, division⟩) hsound (hbounded.acyclic hcalls.acyclic) hdivision hcells
      (by simpa [Layout.Program.resolve] using hsize)
  obtain ⟨hend, hin, hout⟩ := Flow.Reading.SameRuns.run hruns hmain n words
  exact (R.follows n words).of_same (φ := id) (hend.trans (congrFun Except.map_id _).symm) hin hout
    fun _ => rfl

/-- The machine code of a compiled program does what its tree does. -/
theorem Compiled.follows (hc : Compiled o p res) (hfile : file.Linked)
    (hbuild : file.build = .ok (.ok p)) (hcells : res.program.cellCount < 2 ^ 63)
    (hsize : res.program.code.size < 2 ^ 63)
    (hdivision : ∀ v w q, division v w = some q → Layout.division v w = some q) (n : Nat)
    (words : List UInt64) :
    Layout.Follows res.program.instrs n words (Tree.Reading.run ⟨file, division⟩ n words).1
      (Tree.Reading.run ⟨file, division⟩ n words).2 := by
  have hcalls := hfile.calling
  have hR := Tree.renders_of_build hbuild hcalls division
  have hflow := fun m => hc.follows_flow hcalls hR hcells hsize hdivision m words
  have hparams : ∀ d ∈ file.decls, d.isMain = true → ∀ p ∈ d.params, p.isRef = false := by
    intro d hd hmain p hp
    rw [hfile.params hd hmain] at hp
    cases hp
  obtain ⟨hwaits, hends⟩ := hR.run hcalls hfile.sensible.main hparams n words
  by_cases hfin : Unfinished (Tree.Reading.run ⟨file, division⟩ n words)
  · have hn := hflow n
    rw [show (Flow.Reading.run ⟨p, division⟩ n words).1 = _ from hwaits hfin] at hn
    rw [show (Tree.Reading.run ⟨file, division⟩ n words).1 = _ from hfin]
    exact hn
  · obtain ⟨m, hsame, hin, hout⟩ := hends hfin
    exact (hflow m).of_same hsame hin hout fun h => absurd h hfin

end Compile

open Machine (Ends)

/-- A program that was linked does the same when it is run as it is written and when it is
compiled and run by the machine, whatever the options and the input: where the run of the tree comes
to its end, the machine halts with the same output and the same input left, and where it stops at a
read without input, so does the machine. Indices stay inside their arrays in such a run, and divisors
are zero or dividends below 2^63. The cells and the instructions must have addresses. -/
theorem compile_keeps_meaning {raw : Tree.RawFile} {file : Tree.File}
    (hlink : raw.link.run = .ok (.ok file)) (o : Compile.Options) :
    ∃ res, compile o file = .ok (.ok res) ∧
      (res.program.cellCount < 2 ^ 63 → res.program.code.size < 2 ^ 63 →
        ∀ n words w,
          (Tree.Reading.run ⟨file, Word.exact⟩ n words = (.ok (), w) →
            Ends res.program.instrs words none w.input w.output) ∧
          (Tree.Reading.run ⟨file, Word.exact⟩ n words = (.error .noInput, w) →
            Ends res.program.instrs words (some .noInput) w.input w.output)) := by
  have hfile := raw.link_linked hlink
  obtain ⟨p, res, hbuild, hcompile, hcompiled⟩ := hfile.sensible.compile_ok o
  refine ⟨res, hcompile, fun hcells hsize n words w => ?_⟩
  have hfollows := hcompiled.follows hfile hbuild hcells hsize (fun _ _ _ => Layout.division_of_exact)
    n words
  refine ⟨fun hrun => ?_, fun hrun => ?_⟩
  · rw [hrun] at hfollows
    exact hfollows
  · rw [hrun] at hfollows
    exact hfollows

open Tree.Node in
/-- Read a number and write what is left of seven without it. -/
def sevenMinus : Tree.RawFile where
  main := some {
    locals := [{ name := "n" }]
    body := [
      record [("read", word "n")],
      record [("write", record [("op", word "-"), ("l", word "7"), ("r", word "n")])]] }

/-- The tree of the program. -/
def difference : Tree.File where
  decls := [{
    name := "main"
    isMain := true
    locals := [{ name := "n" }]
    body := [.read {} (.ident {} (.localVar 0)),
      .write {} (.binary {} .sub (.number {} 7) (.ident {} (.localVar 0)))] }]

lemma sevenMinus_linked : sevenMinus.link.run = .ok (.ok difference) := by decide +kernel

lemma difference_small {b : Bool} {res : Compile.Result}
    (h : compile { noCoalesce := b, noVerify := false } difference = .ok (.ok res)) :
    res.program.cellCount < 2 ^ 63 ∧ res.program.code.size < 2 ^ 63 := by
  obtain ⟨res', hres', hsmall⟩ : ∃ res, compile { noCoalesce := b, noVerify := false } difference =
      .ok (.ok res) ∧ res.program.cellCount < 2 ^ 63 ∧ res.program.code.size < 2 ^ 63 :=
    exists_ok_of_test (by cases b <;> cbv)
  obtain rfl := Except.ok.inj (Except.ok.inj (h.symm.trans hres'))
  exact hsmall

/-- Nine is more than seven, so that the program writes zero. -/
theorem difference_keeps_meaning :
    ∃ file, sevenMinus.link.run = .ok (.ok file) ∧ ∃ res, compile {} file = .ok (.ok res) ∧
      Ends res.program.instrs [9] none [] #[0] := by
  obtain ⟨res, hcompile, hends⟩ := compile_keeps_meaning sevenMinus_linked {}
  obtain ⟨hcells, hsize⟩ := difference_small hcompile
  have hok : (Tree.Reading.run ⟨difference, Word.exact⟩ 1 [9]).1 = .ok () := by cbv
  have hin : (Tree.Reading.run ⟨difference, Word.exact⟩ 1 [9]).2.input = [] := by cbv
  have hout : (Tree.Reading.run ⟨difference, Word.exact⟩ 1 [9]).2.output = #[0] := by cbv
  have hrun : Tree.Reading.run ⟨difference, Word.exact⟩ 1 [9] =
      (.ok (), (Tree.Reading.run ⟨difference, Word.exact⟩ 1 [9]).2) := Prod.ext hok rfl
  have hend := (hends hcells hsize 1 [9] _).1 hrun
  rw [hin, hout] at hend
  exact ⟨difference, sevenMinus_linked, res, hcompile, hend⟩

open Machine (runFor) in
/-- Programs that were linked do the same whether or not they are coalesced, as long as no
index leaves its array. Divisions are those of the machine, whatever is divided. The one machine halts,
or stops at a read without input, exactly if the other does, with the same output and the same input
left. Neither stops for another reason. -/
theorem coalescing_keeps_runs {raw : Tree.RawFile} {file : Tree.File}
    (hlink : raw.link.run = .ok (.ok file)) {words : List UInt64}
    (hinside : ∀ n c, (Tree.Reading.run ⟨file, Layout.division⟩ n words).1 ≠ .error (.outside c))
    (v v' : Bool) :
    ∃ plain merged, compile { noCoalesce := true, noVerify := v } file = .ok (.ok plain) ∧
      compile { noCoalesce := false, noVerify := v' } file = .ok (.ok merged) ∧
      (plain.program.cellCount < 2 ^ 63 → plain.program.code.size < 2 ^ 63 →
        merged.program.cellCount < 2 ^ 63 → merged.program.code.size < 2 ^ 63 →
        (∀ stop input output, Ends plain.program.instrs words stop input output ↔
          Ends merged.program.instrs words stop input output) ∧
        ∀ code ∈ [plain.program.instrs, merged.program.instrs], ∀ n,
          (runFor code n (.start words)).2 ∈ [none, some .noInput, some .stepLimit]) := by
  have hfile := raw.link_linked hlink
  obtain ⟨p, plain, hbuild, hplain, hc⟩ := hfile.sensible.compile_ok ⟨true, v⟩
  obtain ⟨p', merged, hbuild', hmerged, hc'⟩ := hfile.sensible.compile_ok ⟨false, v'⟩
  obtain rfl : p = p' := Except.ok.inj (Except.ok.inj (hbuild.symm.trans hbuild'))
  refine ⟨plain, merged, hplain, hmerged, fun hcells hsize hcells' hsize' => ?_⟩
  have hfollows := fun n => hc.follows hfile hbuild hcells hsize (fun _ _ _ h => h) n words
  have hfollows' := fun n => hc'.follows hfile hbuild hcells' hsize' (fun _ _ _ h => h) n words
  have hapt : ∀ n e, (Tree.Reading.run ⟨file, Layout.division⟩ n words).1 = .error e →
      e.Apt Layout.division := fun n e he => hfile.sensible.apt_of_run he
  rcases Layout.Follows.fate hapt hinside with ⟨stop, hstop, input, output, hends⟩ | hlasts
  · have hend := hends _ hfollows
    have hend' := hends _ hfollows'
    refine ⟨fun s i o => ⟨fun h => ?_, fun h => ?_⟩, fun code hcode n => ?_⟩
    · obtain ⟨rfl, rfl, rfl⟩ := hend.unique h
      exact hend'
    · obtain ⟨rfl, rfl, rfl⟩ := hend'.unique h
      exact hend
    · have hcases : (runFor code n (.start words)).2 = some .stepLimit ∨
          (runFor code n (.start words)).2 = stop := by
        rcases List.mem_pair.mp hcode with rfl | rfl
        · exact hend.runFor_cases n
        · exact hend'.runFor_cases n
      rcases List.mem_pair.mp hstop with rfl | rfl <;> rcases hcases with h | h <;> simp [h]
  · have hlast := hlasts _ hfollows
    have hlast' := hlasts _ hfollows'
    refine ⟨fun s i o => iff_of_false (Machine.not_ends hlast) (Machine.not_ends hlast'),
      fun code hcode n => ?_⟩
    rcases List.mem_pair.mp hcode with rfl | rfl
    · simp [hlast n]
    · simp [hlast' n]

lemma difference_inside (n : Nat) (c : Cell) :
    (Tree.Reading.run ⟨difference, Layout.division⟩ n [9]).1 ≠ .error (.outside c) := by
  cases n with
  | zero =>
    intro h
    cases h
  | succ n =>
    have hok : (Tree.Reading.run ⟨difference, Layout.division⟩ (n + 1) [9]).1 = .ok () := by cbv
    intro h
    rw [hok] at h
    cases h

theorem difference_coalesced : ∃ plain merged,
    compile { noCoalesce := true } difference = .ok (.ok plain) ∧
      compile { noCoalesce := false } difference = .ok (.ok merged) ∧
      ∀ stop input output, Ends plain.program.instrs [9] stop input output ↔
        Ends merged.program.instrs [9] stop input output := by
  obtain ⟨plain, merged, hplain, hmerged, hsame⟩ :=
    coalescing_keeps_runs sevenMinus_linked difference_inside false false
  obtain ⟨hcells, hsize⟩ := difference_small hplain
  obtain ⟨hcells', hsize'⟩ := difference_small hmerged
  exact ⟨plain, merged, hplain, hmerged, (hsame hcells hsize hcells' hsize').1⟩

end Accumulator
