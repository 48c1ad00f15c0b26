import Mathlib
import Accumulator.Proofs.Linked

/-!
# Texts whose reading is a fault

A text is a program, or it is refused with an error, or reading it is a fault. What the loader does
is left open. Linking what it loaded is a fault exactly if it comes to a procedure that was left
empty.
-/

namespace Accumulator.Tree

/-- Linking comes to an empty procedure, as all those before it are linked. -/
def ReachesEmpty (done : List Proc) (raw : List (Option RawProc)) : Prop :=
  ∃ before after procs, raw = before ++ none :: after ∧ (linkProcs done before).run = .ok (.ok procs)

lemma reachesEmpty_none (done : List Proc) (rest : List (Option RawProc)) :
    ReachesEmpty done (none :: rest) :=
  ⟨[], rest, done, rfl, rfl⟩

lemma not_reachesEmpty_nil (done : List Proc) : ¬ ReachesEmpty done [] := by
  rintro ⟨before, after, procs, h, -⟩
  simp at h

lemma reachesEmpty_some {done : List Proc} {rp : RawProc} {rest : List (Option RawProc)} :
    ReachesEmpty done (some rp :: rest) ↔
      ∃ before after procs, rest = before ++ none :: after ∧
        (linkProcs done (some rp :: before)).run = .ok (.ok procs) := by
  constructor
  · rintro ⟨before, after, procs, h, hlink⟩
    cases before with
    | nil => cases h
    | cons x before =>
      obtain ⟨rfl, hrest⟩ := List.cons.inj h
      exact ⟨before, after, procs, hrest, hlink⟩
  · rintro ⟨before, after, procs, rfl, hlink⟩
    exact ⟨some rp :: before, after, procs, rfl, hlink⟩

lemma linkProcs_fault_iff {raw : List (Option RawProc)} {done : List Proc} {e : Fault} :
    (linkProcs done raw).run = .error e ↔ e = .outOfRange ∧ ReachesEmpty done raw := by
  induction raw generalizing done with
  | nil => exact ⟨fun h => (by cases h), fun h => absurd h.2 (not_reachesEmpty_nil done)⟩
  | cons rp rest ih =>
    cases rp with
    | none =>
      refine ⟨fun h => ?_, fun h => ?_⟩
      · cases h
        exact ⟨rfl, reachesEmpty_none done rest⟩
      · rw [h.1]
        rfl
    | some rp =>
      rw [reachesEmpty_some]
      cases hlink : inPart (Text.bytes "procedure " ++ rp.name) (rp.linkProc (callees done)) with
      | error d => simp [linkProcs_of_error hlink]
      | ok p =>
        simp only [linkProcs_of_ok hlink]
        exact ih

/-- A program that was loaded and cannot be linked or refused: linking comes to an empty procedure. -/
def RawFile.Breaks (raw : RawFile) : Prop :=
  raw.main.isSome = true ∧ ReachesEmpty [] raw.procedures

lemma RawFile.link_fault_iff {raw : RawFile} {e : Fault} :
    raw.link.run = .error e ↔ e = .outOfRange ∧ raw.Breaks := by
  unfold RawFile.Breaks
  cases hmain : raw.main with
  | none =>
    rw [RawFile.link, hmain]
    refine ⟨fun h => (by cases h), fun h => ?_⟩
    cases h.2.1
  | some main =>
    rw [Option.isSome_some, eq_self_iff_true, true_and, ← linkProcs_fault_iff, link_of_main hmain,
      bind_eq_error, or_iff_left]
    rintro ⟨r, -, h⟩
    cases h

lemma decodeWith_eq_error {ε : Type} {load : Bytes → Except Fault (Except ε RawFile)} {text : Bytes}
    {e : Fault} : decodeWith load text = .error e ↔ load text = .error e ∨
      ∃ raw, load text = .ok (.ok raw) ∧ raw.link.run = .error e := by
  rw [decodeWith, bind_eq_error]
  refine or_congr_right ⟨?_, ?_⟩
  · rintro ⟨r, hload, h⟩
    cases r with
    | error d => cases h
    | ok raw =>
      refine ⟨raw, hload, ?_⟩
      rw [bind_eq_error] at h
      rcases h with h | ⟨r, -, h⟩
      · exact h
      · cases r <;> cases h
  · rintro ⟨raw, hload, hlink⟩
    exact ⟨.ok raw, hload, bind_eq_error.mpr (.inl hlink)⟩

/-- Whatever loads raw programs, reading a text is a fault exactly if loading it is, or if what was
loaded has a main program and linking it comes to an empty procedure. In all other cases the text is a
program or is refused with an error. -/
theorem decode_faults_iff {ε : Type} (load : Bytes → Except Fault (Except ε RawFile)) (text : Bytes)
    (e : Fault) : decodeWith load text = .error e ↔ load text = .error e ∨
      e = .outOfRange ∧ ∃ raw, load text = .ok (.ok raw) ∧ raw.Breaks := by
  rw [decodeWith_eq_error]
  refine or_congr_right ⟨?_, ?_⟩
  · rintro ⟨raw, hload, hlink⟩
    obtain ⟨he, hbreaks⟩ := RawFile.link_fault_iff.mp hlink
    exact ⟨he, raw, hload, hbreaks⟩
  · rintro ⟨he, raw, hload, hbreaks⟩
    exact ⟨raw, hload, RawFile.link_fault_iff.mpr ⟨he, hbreaks⟩⟩

/-- A program whose only procedure is left empty. -/
def emptyProc : RawFile := { procedures := [none], main := some {} }

theorem emptyProc_decode :
    decodeWith (ε := Unit) (fun _ => .ok (.ok emptyProc)) [] = .error .outOfRange := rfl

end Accumulator.Tree
