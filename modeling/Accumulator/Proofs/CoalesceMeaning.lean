import Mathlib
import Accumulator.Proofs.Coalescing
import Accumulator.Proofs.Straight

/-!
# The meaning of coalesced functions

Coalescing a function that was made by edits and passes its checks gives a function that passes them
and does the same. Variables may lose their last user on the way; what they hold is no longer part of
the meaning, so that nothing may point to them when a run starts. A parameter by reference that holds
the address of such a variable is an example of what goes wrong otherwise.
-/

namespace Accumulator.Flow

open Func Reading Check

variable {f f' : Func} {r : Reading} {k : Nat}

namespace Func

/-- The variables of `f`, as function number `k`, that have users in `f` and none in `f'`. -/
def retired (k : Nat) (f f' : Func) : List Object :=
  ((List.range f.slots.size).filter fun i : Nat =>
    (f.varOf? i).isSome && f.referred i && !f'.referred i).map fun i => ⟨k, i⟩

lemma Retired.mem (hf : Sound f) (hf' : Sound f') (hvars : ∀ j, f'.varOf? j = f.varOf? j)
    {H : List Object} (h : Retired k f f' H) {o : Object} (ho : o ∈ H) : o ∈ retired k f f' := by
  obtain ⟨v, rfl, hv, hu, hnu⟩ := h o ho
  have hat := at?_of_varOf? hv
  have hat' : (f'.at? v).isSome := at?_of_varOf? (by rw [hvars]; exact hv)
  obtain ⟨n, rfl⟩ := Int.eq_ofNat_of_zero_le (nonneg_of_varOf? hv)
  have hlt : n < f.slots.size := by exact_mod_cast (at?_isSome.mp hat).2
  have hnot : f'.referred n = false := by
    rw [Bool.eq_false_iff]
    exact fun h => hnu ((hf'.referred_iff hat').mp h)
  rw [retired, List.mem_map]
  refine ⟨n, ?_, rfl⟩
  rw [List.mem_filter]
  exact ⟨by simpa using hlt, by simp [hv, (hf.referred_iff hat).mpr hu, hnot]⟩

end Func

namespace Reading

lemma SameBut.mono {H L : List Object} {s t : Progress} (h : SameBut H s t)
    (hsub : ∀ o ∈ H, o ∈ L) : SameBut L s t := by
  refine ⟨fun c hc => h.cells c fun hm => hc (hsub _ hm), h.input, h.output, ?_⟩
  have hfilter : ∀ l : List Event,
      (l.filter (·.avoids H)).filter (·.avoids L) = l.filter (·.avoids L) := by
    intro l
    rw [List.filter_filter]
    refine List.filter_congr fun e _ => ?_
    cases e with
    | store c v =>
      by_cases hc : c.object ∈ L
      · simp [Event.avoids, hc]
      · have : c.object ∉ H := fun hm => hc (hsub _ hm)
        simp [Event.avoids, hc, this]
    | _ => rfl
  rw [← hfilter s.trace, h.trace, hfilter]

lemma SameRuns.mono {H L : List Object} {r' : Reading} {j : Nat} (h : SameRuns H r r' j)
    (hsub : ∀ o ∈ H, o ∈ L) : SameRuns L r r' j := by
  intro n w hw
  obtain ⟨hend, hsame⟩ := h n w fun c d hd hm => hw c d hd (hsub _ hm)
  exact ⟨hend, hsame.mono hsub⟩

end Reading

lemma coalesce_single {g : Func} {m : Nat} (hentry : f.entry = 0) (hsize : 0 < f.blocks.size)
    (hentry' : g.entry = 0) (hsize' : 0 < g.blocks.size) (hcode : f.size ≠ 0)
    (hsweep : coalesceBlock (0, f) 0 = .ok (m, g)) (hagain : coalesceBlock (m, g) 0 = .ok (m, g))
    (hnext : g.successors 0 = .ok []) (hprune : g.pruneLocals = .ok f') :
    f.coalesce = .ok (m, f') := by
  have hwalk : f.walk (·.2) coalesceBlock (0, f) = .ok (m, g) := by
    rw [walk, hentry, walkFrom_single hsize hsweep hnext]
    rfl
  have hwalk' : g.walk (·.2) coalesceBlock (m, g) = .ok (m, g) := by
    rw [walk, hentry', walkFrom_single hsize' hagain hnext]
    rfl
  obtain ⟨n, hn⟩ := Nat.exists_eq_succ_of_ne_zero hcode
  have hrounds : coalesceRounds (f.size + 1) (0, f) = .ok (m, g) := by
    rw [hn, coalesceRounds, hwalk, ok_bind]
    by_cases hm : m = 0
    · simp [hm]
    · simp [hm, coalesceRounds, hwalk']
  rw [coalesce, hrounds, ok_bind]
  exact congrArg (fun x => x >>= fun h => .ok (m, h)) hprune

/-- Whether an instruction is a store. -/
def Payload.isStore : Payload → Bool
  | .store _ _ => true
  | _ => false

lemma storeless_of_slots
    (h : ∀ s ∈ f.slots.toList, ∀ d ∈ s.payload.operands, (f.live? d).all (!·.isStore)) :
    Storeless f := by
  intro u x hx d hd v src hstore
  obtain ⟨s, hs, -, rfl⟩ := live?_eq_some.mp hx
  have hmem : s ∈ f.slots.toList := by
    rw [at?_eq] at hs
    grind
  have := h s hmem d hd
  simp [hstore, Payload.isStore] at this

/-- The number that the main function writes comes from a variable, and then from wherever its
parameter points to. -/
def rereading : Func :=
  { name := "main"
    isMain := true
    params := [1]
    locals := [0]
    entry := 0
    blocks := #[#[2, 3, 4, 5, 6, 7, 8]]
    slots := #[
      { payload := .var { name := "v", kind := .localVar, size := 1 }, refs := [3, 4] },
      { payload := .var { name := "p", kind := .param, size := 1, byRef := true }, refs := [6] },
      { payload := .const 5, block := 0, refs := [3] },
      { payload := .store 0 2, block := 0 },
      { payload := .load 0, block := 0, refs := [5] },
      { payload := .write 4, block := 0 },
      { payload := .loadIndirect 1, block := 0, refs := [7] },
      { payload := .write 6, block := 0 },
      { payload := .stop, block := 0 }] }

lemma rereading_made : Made rereading :=
  Made.straight [{ name := "v", kind := .localVar, size := 1 },
      { name := "p", kind := .param, size := 1, byRef := true }]
    [.const 5, .store 0 2, .load 0, .write 4, .loadIndirect 1, .write 6, .stop]
    (by decide)

lemma rereading_verify : rereading.verify = .ok (.ok ()) := by
  have hreach := reachable_single (f := rereading) rfl (by decide) (by decide)
  change Passes rereading.check ()
  unfold check
  rw [passes_guard, passes_bind]
  exact ⟨by decide, [0], passes_lift.mpr hreach, rfl⟩

lemma rereading_storeless : Storeless rereading := storeless_of_slots (by decide)

/-- The function after the variable is out of use. -/
def rereadingCoalesced : Func :=
  { rereading with
    locals := []
    blocks := #[#[2, 5, 6, 7, 8]]
    slots := #[
      { payload := .var { name := "v", kind := .localVar, size := 1 }, dead := true },
      { payload := .var { name := "p", kind := .param, size := 1, byRef := true }, refs := [6] },
      { payload := .const 5, block := 0, refs := [5] },
      { payload := .store 0 2, dead := true },
      { payload := .load 0, dead := true },
      { payload := .write 2, block := 0 },
      { payload := .loadIndirect 1, block := 0, refs := [7] },
      { payload := .write 6, block := 0 },
      { payload := .stop, block := 0 }] }

lemma rereading_coalesce : rereading.coalesce = .ok (1, rereadingCoalesced) := by
  refine coalesce_single (g := { rereadingCoalesced with
      locals := [0]
      slots := rereadingCoalesced.slots.modify 0 fun s => { s with dead := false } })
    rfl ?_ rfl ?_ ?_ ?_ ?_ ?_ ?_ <;> decide +kernel

/-- The program of the function alone. -/
def rereadingProgram : Reading := { program := { funcs := #[rereading] }, division := Word.exact }

/-- Coalescing a function that was made by edits, passes its checks and uses no store as an operand
does not break, and its result passes the checks. In every program that has the function, and from
every world in which nothing points to a variable that lost its last user, runs then take the same
blocks, with the same reads, writes and calls, end the same way, and leave the same in every cell but
those of the variables that lost their last user. -/
theorem coalesce_keeps_meaning (hmade : Made f) (hverify : f.verify = .ok (.ok ()))
    (hstore : Storeless f) :
    ∃ n f', f.coalesce = .ok (n, f') ∧ f'.verify = .ok (.ok ()) ∧
      ∀ (r : Reading) (k : Nat), r.program.funcs[k]? = some f →
        ∀ j, SameRuns (retired k f f') r (r.withFunc k f') j := by
  obtain ⟨hsound, hframed⟩ := hmade.sound
  have htidy : Tidy f := ⟨hsound, hsound.verify_iff.mp hverify, hstore⟩
  obtain ⟨n, f', hcoalesce, h, -⟩ := htidy.coalesce_ok hframed
  refine ⟨n, f', hcoalesce, h.tidy.sound.verify_iff.mpr h.tidy.wellFormed, fun r k hk j => ?_⟩
  obtain ⟨H, hH, hruns⟩ := h.sameRuns htidy hk
  exact (hruns j).mono fun o ho => hH.mem hsound h.tidy.sound h.vars ho

theorem rereading_keeps_meaning :
    Made rereading ∧ rereadingCoalesced.verify = .ok (.ok ()) ∧
      SameRuns [⟨0, 0⟩] rereadingProgram (rereadingProgram.withFunc 0 rereadingCoalesced) 0 := by
  obtain ⟨n, f', hcoalesce, hverify, hruns⟩ :=
    coalesce_keeps_meaning rereading_made rereading_verify rereading_storeless
  obtain ⟨rfl, rfl⟩ : 1 = n ∧ rereadingCoalesced = f' := by
    simpa using rereading_coalesce.symm.trans hcoalesce
  have hretired : retired 0 rereading rereadingCoalesced = [⟨0, 0⟩] := by decide +kernel
  exact ⟨rereading_made, hverify, hretired ▸ hruns rereadingProgram 0 rfl 0⟩

/-- A world in which the parameter points to the variable of the function itself. -/
def aliasedWorld : World Value :=
  { cells := fun c => if c = ⟨⟨0, 1⟩, 0⟩ then .addr ⟨⟨0, 0⟩, 0⟩ else .word 0
    input := [] }

/-- Without the condition on what the cells point to a coalesced function may write something
else. -/
theorem coalesce_changes_aliased_run :
    Made rereading ∧ rereading.verify = .ok (.ok ()) ∧ Storeless rereading ∧
      rereading.coalesce = .ok (1, rereadingCoalesced) ∧
      (rereadingProgram.runFunc 1 0 aliasedWorld).2.world.output = #[5, 5] ∧
      ((rereadingProgram.withFunc 0 rereadingCoalesced).runFunc 1 0 aliasedWorld).2.world.output =
        #[5, 0] :=
  ⟨rereading_made, rereading_verify, rereading_storeless, rereading_coalesce, by decide +kernel,
    by decide +kernel⟩

end Accumulator.Flow
