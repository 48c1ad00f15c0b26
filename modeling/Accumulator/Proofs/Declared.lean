import Mathlib
import Accumulator.Proofs.Linked

/-!
# Declarations of linked programs

Besides being linked, such a program has proper declarations: procedures have different
names, arrays are passed by reference and no local variable has a negative size. Together this is all
that later stages rely on.
-/

namespace Accumulator.Tree

/-- A procedure with a name, whose array parameters are passed by reference and whose locals have a
size. -/
structure Proc.Proper (d : Proc) : Prop where
  name : d.name ≠ []
  arrays : ∀ p ∈ d.params, p.array = true → p.mode = .byRef
  sizes : ∀ v ∈ d.locals, 0 ≤ v.size

/-- A program of proper procedures with different names. The name of the main program is its own
matter, because nothing calls it. -/
structure File.Proper (file : File) : Prop where
  procs : ∀ d ∈ file.decls, d.Proper
  names : ((file.decls.filter (!·.isMain)).map (·.name)).Nodup

lemma exists_of_foldlM {α σ ε : Type} {f : σ → α → Nat → Except ε σ} {l : List α} {s t : σ}
    (h : l.zipIdx.foldlM (fun s (a, i) => f s a i) s = .ok t) {a : α} (ha : a ∈ l) :
    ∃ s' i t', f s' a i = .ok t' := by
  have hstep : ∀ {m : List (α × Nat)} {s : σ}, m.foldlM (fun s (a, i) => f s a i) s = .ok t →
      ∀ p ∈ m, ∃ s' t', f s' p.1 p.2 = .ok t' := by
    intro m
    induction m with
    | nil => simp
    | cons q rest ih =>
      intro s h
      rw [List.foldlM_cons, bind_eq_ok] at h
      obtain ⟨mid, hmid, h⟩ := h
      rw [List.forall_mem_cons]
      exact ⟨⟨s, mid, hmid⟩, ih h⟩
  obtain ⟨i, hi⟩ := List.getElem?_of_mem ha
  obtain ⟨s', t', hf⟩ := hstep h (a, i) (List.mem_zipIdx_iff_getElem?.mpr hi)
  exact ⟨s', i, t', hf⟩

namespace RawProc

variable {rp : RawProc} {d : Proc} {name : Bytes} {isMain : Bool} {procs : List Callee}

lemma scope_params {vars : List (Bytes × Ref)} (h : rp.scope = .ok vars) :
    ∀ p ∈ rp.params, p.array = true → p.value = false := by
  rw [RawProc.scope, bind_eq_ok] at h
  obtain ⟨mid, hparams, -⟩ := h
  intro p hp harray
  obtain ⟨scope, i, scope', hdeclare⟩ := exists_of_foldlM hparams hp
  unfold RawParam.declare at hdeclare
  split at hdeclare
  · cases hdeclare
  · next hmode => simpa [harray] using hmode

lemma scope_locals {vars : List (Bytes × Ref)} (h : rp.scope = .ok vars) :
    ∀ v ∈ rp.locals, 0 ≤ v.size := by
  rw [RawProc.scope, bind_eq_ok] at h
  obtain ⟨mid, -, hlocals⟩ := h
  intro v hv
  obtain ⟨scope, i, scope', hdeclare⟩ := exists_of_foldlM hlocals hv
  unfold RawLocal.declare at hdeclare
  split at hdeclare
  · cases hdeclare
  · next hsize => omega

lemma link_proper (hname : name ≠ []) (h : rp.link name isMain procs = .ok d) :
    d.Proper ∧ d.name = name := by
  rw [RawProc.link, bind_eq_ok] at h
  obtain ⟨vars, hvars, h⟩ := h
  rw [bind_eq_ok] at h
  obtain ⟨body, -, h⟩ := h
  cases h
  refine ⟨⟨hname, ?_, ?_⟩, rfl⟩
  · intro p hp harray
    obtain ⟨q, hq, rfl⟩ := List.mem_map.mp hp
    have hvalue := scope_params hvars q hq harray
    simp [hvalue]
  · intro v hv
    obtain ⟨w, hw, rfl⟩ := List.mem_map.mp hv
    exact scope_locals hvars w hw

lemma linkProc_proper {done : List Proc} (h : rp.linkProc (callees done) = .ok d) :
    d.Proper ∧ d.name ∉ done.map (·.name) := by
  unfold RawProc.linkProc at h
  split at h
  · cases h
  · next hname =>
    split at h
    · cases h
    · next hfresh =>
      obtain ⟨hproper, hd⟩ := link_proper (by simpa using hname) h
      refine ⟨hproper, fun hmem => hfresh ?_⟩
      obtain ⟨e, he, hname⟩ := List.mem_map.mp hmem
      obtain ⟨i, hi⟩ := List.getElem?_of_mem he
      refine List.any_eq_true.mpr ⟨⟨e.name, i, e.params.length⟩, ?_, by simp [hname, hd]⟩
      exact List.mem_map.mpr ⟨(e, i), List.mem_zipIdx_iff_getElem?.mpr hi, rfl⟩

lemma linkMain_proper (h : rp.linkMain procs = .ok d) : d.Proper := by
  unfold RawProc.linkMain at h
  split at h
  · cases h
  · refine (link_proper ?_ h).1
    split
    · decide
    · next hname => simpa using hname

end RawProc

lemma linkProcs_proper {raw : List (Option RawProc)} {decls : List Proc}
    (h : (linkProcs [] raw).run = .ok (.ok decls)) :
    (∀ d ∈ decls, d.Proper) ∧ (decls.map (·.name)).Nodup := by
  refine linkProcs_invariant (P := fun done => (∀ d ∈ done, d.Proper) ∧ (done.map (·.name)).Nodup)
    (fun {done rp p} hdone hp => ?_) (by simp) h
  obtain ⟨hproper, hfresh⟩ := RawProc.linkProc_proper hp
  refine ⟨fun d hd => ?_, ?_⟩
  · rcases List.mem_append.mp hd with hd | hd
    · exact hdone.1 d hd
    · rw [List.mem_singleton.mp hd]
      exact hproper
  · rw [List.map_append, List.map_singleton, ← List.concat_eq_append, List.nodup_concat]
    exact ⟨hfresh, hdone.2⟩

lemma RawFile.link_proper {raw : RawFile} {file : File} (h : raw.link.run = .ok (.ok file)) :
    file.Proper := by
  obtain ⟨main, procs, p, rfl, hprocs, hp⟩ := link_eq_ok h
  obtain ⟨hproper, hnames⟩ := linkProcs_proper hprocs
  have hnot := (linkProcs_linked hprocs).isMain
  have hmain := (main.linkMain_linked hp).2.1
  refine ⟨fun d hd => ?_, ?_⟩
  · rcases List.mem_append.mp hd with hd | hd
    · exact hproper d hd
    · rw [List.mem_singleton.mp hd]
      exact RawProc.linkMain_proper hp
  · rw [List.filter_append, List.filter_eq_self.mpr fun d hd => by simp [hnot d hd]]
    simpa [hmain] using hnames

/-- A raw program that links is a program with proper declarations that are linked: the main program
comes last and is the only one, names refer to declarations at every depth, and procedures call
earlier ones only. So the calls have no cycle. -/
theorem RawFile.link_contract {raw : RawFile} {file : File} (h : raw.link.run = .ok (.ok file)) :
    file.Proper ∧ file.Linked ∧ ∀ k, ¬ Relation.TransGen file.Calls k k := by
  have hlinked := raw.link_linked h
  exact ⟨link_proper h, hlinked, hlinked.calling.acyclic⟩

/-- A procedure that reads an element of its array, and a main program that passes it one. -/
def fill : RawFile where
  procedures := [some {
    name := "p"
    params := [{ name := "a", array := true }]
    body := [.record [("read", .record [("index", .word "a"), ("at", .word "0")])]] }]
  main := some {
    locals := [{ name := "b", size := 2 }]
    body := [.record [("call", .word "p"), ("args", .list [.word "b"])]] }

theorem fill_contract :
    ∃ file, fill.link.run = .ok (.ok file) ∧ file.Proper ∧ file.Linked ∧
      ∀ k, ¬ Relation.TransGen file.Calls k k := by
  obtain ⟨file, hfile⟩ : ∃ file, fill.link.run = .ok (.ok file) :=
    RawFile.exists_linked (by decide +kernel)
  exact ⟨file, hfile, RawFile.link_contract hfile⟩

end Accumulator.Tree
