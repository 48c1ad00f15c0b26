import Mathlib
import Accumulator.Proofs.BuildSteps
import Accumulator.Proofs.StackCode

/-!
# The shape of built programs

Whatever tree a program is built from, with calls that recurse or pass any number of arguments, its
functions have the shape that the later stages take for granted: blocks that control comes to,
values that are used once and in the order of their computation, one end, and a list of all callers.
-/

namespace Accumulator

open Accumulator.Flow (Id BlockId Payload)

namespace Flow

namespace Func

/-- Some instructions stand before `u` in its block, in the given order. -/
def Precede (f : Func) (ids : List Id) (u : Id) : Prop :=
  ∃ b pre post, f.listing? b = some (pre ++ u :: post) ∧ ids.Sublist pre

lemma Orderly.precede {arity : Nat → Nat → Prop} {opened : Set BlockId} {f : Func}
    (hf : Orderly arity opened f) {u : Id} {x : Payload} (hx : f.live? u = some x)
    (hv : x.asVar = none) : f.Precede (f.needs x) u := by
  obtain ⟨b, l, hl, hu⟩ := hf.placed hx hv
  obtain ⟨pre, post, rfl⟩ := List.append_of_mem hu
  exact ⟨b, pre, post, hl, (hf.ready hl hx).trans (f.avail_sublist pre)⟩

end Func

/-- The shape of function number `k` of a program. -/
structure Shaped (p : Program) (k : Nat) (f : Func) : Prop where
  verified : f.verify = .ok (.ok ())
  reached : ∀ b : Nat, b < f.blocks.size → f.Reaches b
  usedOnce : ∀ {i x}, f.live? i = some x → x.producesValue = .ok true →
    ∃ u, ∀ v, f.uses v i = if v = u then 1 else 0
  rightFirst : ∀ {u op l r}, f.live? u = some (.alu op l r) → f.Precede [r, l] u
  targetFirst : ∀ {u d s}, f.live? u = some (.store d s) → f.varOf? d = none → f.Precede [d, s] u
  tested : ∀ {u x d op l r}, f.live? u = some x → d ∈ x.operands →
    f.live? d = some (.alu op l r) → op.isRelational = true → ∃ test t a b, x = .branchIf test t a b
  ends : ∃ i, f.live? i = some (if f.isMain then .stop else .ret) ∧
    ∀ j, f.live? j = some .stop ∨ f.live? j = some .ret → j = i
  nodup : f.callers.Nodup
  callers : ∀ s, s ∈ f.callers ↔
    ∃ g args, p.funcs[s.func]? = some g ∧ g.live? s.call = some (.call k args)

end Flow

namespace Tree

variable {file : File} {p : Flow.Program} {arity : Nat → Nat → Prop} {k : Nat} {d : Proc}
  {f : Flow.Func}

lemma BuiltWith.shaped (h : BuiltWith arity k d f) {N : Nat} (hp : Underway N N p)
    (hf : p.funcs[k]? = some f) : Flow.Shaped p k f := by
  have hk : k < N := hp.size ▸ (Array.getElem?_eq_some_iff.mp hf).1
  refine ⟨h.orderly.sound.verify_iff.mpr h.orderly.wellFormed, fun b hb => h.reached ?_,
    fun {i x} hx hvalue => h.uses hx ?_, fun hu => h.orderly.precede hu rfl,
    fun {u d s} hu hd => ?_, fun {u x d op l r} hu hd hcmp hrel => ?_, ?_, hp.nodup hf,
    hp.callers hf⟩
  · simpa [Flow.Func.listing?_eq] using hb
  · cases x <;> first | rfl | cases hvalue
  · have hprecede := h.orderly.precede hu rfl
    rwa [Flow.Func.needs, hd] at hprecede
  · have hbranch := h.orderly.onlyBranches hu hd hcmp hrel
    cases x <;> first | exact ⟨_, _, _, _, rfl⟩ | cases hbranch
  · obtain ⟨b, l, i, -, hi, -⟩ := h.body
    have hend : ∀ {j}, f.live? j = some .stop ∨ f.live? j = some .ret → f.EndsAt j :=
      fun hj => hj.elim (fun hj => ⟨_, hj, rfl⟩) fun hj => ⟨_, hj, rfl⟩
    refine ⟨i, h.isMain ▸ hi, fun j hj => (hp.finished hk hf).unique (hend hj) (hend ?_)⟩
    cases hmain : d.isMain with
    | true => exact Or.inl (by simpa [hmain] using hi)
    | false => exact Or.inr (by simpa [hmain] using hi)

/-- Every function of a program that was built has its shape. -/
theorem build_shaped (h : file.build = .ok (.ok p)) :
    p.funcs.size = file.decls.length ∧ ∀ k d, file.decls[k]? = some d →
      ∃ f, p.funcs[k]? = some f ∧ f.name = d.name ∧ f.isMain = d.isMain ∧ Flow.Shaped p k f := by
  obtain ⟨hp, hlinked⟩ := underway_of_build h
  obtain ⟨p', hp', hsize, hbuilt⟩ : ∃ p', file.build = .ok (.ok p') ∧
      p'.funcs.size = file.decls.length ∧ ∀ {k d}, file.decls[k]? = some d →
        ∃ f, p'.funcs[k]? = some f ∧ BuiltWith (fun j _ => j < file.decls.length) k d f :=
    build_of_linked (fun hd => hlinked _ (List.mem_of_getElem? hd)) (fun hj => hj)
      (foldlM_of_build h).1
  obtain rfl : p' = p := Except.ok.inj (Except.ok.inj (hp'.symm.trans h))
  refine ⟨hsize, fun k d hd => ?_⟩
  obtain ⟨f, hf, hb⟩ := hbuilt hd
  exact ⟨f, hf, hb.name, hb.isMain, hb.shaped hp hf⟩

/-- A procedure that calls itself without an argument and the main program with one, and a main
program that calls it with two. -/
def tangled : File :=
  { decls := [
      { name := "p"
        params := [{ name := "x" }]
        locals := [{ name := "a", size := 3 }]
        body := [
          .choose {} (.binary {} .gt (.ident {} (.param 0)) (.number {} 0))
            [.assign {} (.index {} (.localVar 0) (.number {} 1))
                (.binary {} .sub (.ident {} (.param 0)) (.number {} 1)),
              .call {} (some 0) []]
            [.untilLoop {} [.read {} (.ident {} (.param 0))] (.ident {} (.param 0))],
          .call {} (some 1) [.ident {} (.param 0)]] },
      { name := "main"
        isMain := true
        locals := [{ name := "n" }]
        body := [
          .loop {} (.ident {} (.localVar 0))
            [.call {} (some 0) [.ident {} (.localVar 0), .ident {} (.localVar 0)]],
          .write {} (.ident {} (.localVar 0))] }] }

/-- The example is built, and both functions have their shape and their callers. -/
theorem tangled_shaped :
    ∃ p, tangled.build = .ok (.ok p) ∧
      p.funcs.toList.map (·.callers) = [[⟨0, 12⟩, ⟨1, 4⟩], [⟨0, 20⟩]] ∧
      (∃ f, p.funcs[0]? = some f ∧ f.name = Text.bytes "p" ∧ f.isMain = false ∧ Flow.Shaped p 0 f) ∧
      ∃ f, p.funcs[1]? = some f ∧ f.name = Text.bytes "main" ∧ f.isMain = true ∧ Flow.Shaped p 1 f := by
  obtain ⟨p, hp, hcallers⟩ : ∃ p, tangled.build = .ok (.ok p) ∧
      p.funcs.toList.map (·.callers) = [[⟨0, 12⟩, ⟨1, 4⟩], [⟨0, 20⟩]] :=
    exists_ok_of_test (by cbv)
  have hshaped := (build_shaped hp).2
  exact ⟨p, hp, hcallers, hshaped 0 _ rfl, hshaped 1 _ rfl⟩

end Tree

end Accumulator
