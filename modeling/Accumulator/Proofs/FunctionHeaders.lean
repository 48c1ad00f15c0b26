import Mathlib
import Accumulator.Proofs.DecidableTrees
import Accumulator.Proofs.ListingLines
import Accumulator.Proofs.PlacedJumps

/-!
# Names of functions in listings

The listing of a compiled program can show the name of each function in a comment. Names are printed as
they are written, so that a name of several lines leaves its comment: the listing is read back exactly if
the further lines of all names are blanks and comments.
-/

namespace Accumulator

open Listing (Gap shown nameAt?)

namespace Listing

lemma nameAt?_of_mem {marks : List Mark} (hstarts : (marks.map (·.start)).Nodup) {m : Mark}
    (hm : m ∈ marks) {k : Nat} (hk : m.start = k) : nameAt? marks k = some m.name := by
  obtain ⟨m', hfind⟩ : ∃ m', marks.reverse.find? (·.start == (k : Int)) = some m' := by
    rw [← Option.isSome_iff_exists, List.find?_isSome]
    exact ⟨m, List.mem_reverse.mpr hm, by simp [hk]⟩
  have hstart : m'.start = k := by simpa using List.find?_some hfind
  have hmem : m' ∈ marks := List.mem_reverse.mp (List.mem_of_find?_eq_some hfind)
  obtain rfl : m' = m := List.inj_on_of_nodup_map hstarts hmem hm (hstart.trans hk.symm)
  rw [nameAt?, hfind, Option.map_some]

lemma mem_of_nameAt? {marks : List Mark} {k : Nat} {name : Bytes} (h : nameAt? marks k = some name) :
    ∃ m ∈ marks, m.name = name := by
  obtain ⟨m, hfind, hname⟩ := Option.map_eq_some_iff.mp h
  exact ⟨m, List.mem_reverse.mp (List.mem_of_find?_eq_some hfind), hname⟩

end Listing

namespace Layout

variable {p : Flow.Program} {frames : Frames} {codes : List (Nat × FuncCode)} {q : Program} {main : Nat}

lemma Chosen.nodup_starts {start : Nat} {ids : List Nat} {next final : Int64}
    (h : Chosen p frames start next ids codes final) :
    (∀ e ∈ codes, start ≤ e.1) ∧ (codes.map Prod.fst).Nodup := by
  induction h with
  | nil => simp
  | @cons start k next after final ids c codes _ hpos _ ih =>
    obtain ⟨hle, hnodup⟩ := ih
    refine ⟨List.forall_mem_cons.mpr ⟨le_rfl, fun e he => ?_⟩, ?_⟩
    · have := hle e he
      omega
    · rw [List.map_cons, List.nodup_cons]
      refine ⟨fun hmem => ?_, hnodup⟩
      obtain ⟨e, he, heq⟩ := List.mem_map.mp hmem
      have := hle e he
      dsimp only at heq
      omega

lemma Laid.nameAt?_iff (h : Laid p main frames codes q)
    (hf : ∀ {k : Nat} {f}, p.funcs[k]? = some f → f.Sound ∧ f.WellFormed) (name : Bytes) :
    (∃ j < q.code.size, nameAt? (q.funcs.map fun f => { name := f.name, start := f.start }) j =
      some name) ↔ ∃ (k : Nat) (f : Flow.Func), p.funcs[k]? = some f ∧ f.name = name := by
  set marks : List Listing.Mark := q.funcs.map fun f => { name := f.name, start := f.start } with hmarks
  have hmark : marks = codes.map fun e => { name := e.2.name, start := (e.1 : Int) } := by
    rw [hmarks, h.funcs, List.map_map]
    rfl
  constructor
  · rintro ⟨j, -, hj⟩
    obtain ⟨m, hm, rfl⟩ := Listing.mem_of_nameAt? hj
    rw [hmark] at hm
    obtain ⟨e, he, rfl⟩ := List.mem_map.mp hm
    obtain ⟨f, next, hk, hsel⟩ := (h.selected hf).2 e he
    exact ⟨_, f, hk, hsel.name.symm⟩
  · rintro ⟨k, f, hk, rfl⟩
    obtain ⟨e, he, -, hsel, -⟩ := (h.code_of hf).2.2 hk
    have hend := h.end_le he
    obtain ⟨next, -, hchosen⟩ := h.parts
    have hstarts : (marks.map (·.start)).Nodup := by
      rw [hmark, List.map_map]
      have := hchosen.nodup_starts.2.map (Nat.cast_injective (R := Int))
      rwa [List.map_map] at this
    refine ⟨e.1, by omega, ?_⟩
    rw [Listing.nameAt?_of_mem hstarts (m := ⟨e.2.name, e.1⟩) ?_ rfl, hsel.name]
    rw [hmark]
    exact List.mem_map.mpr ⟨e, he, rfl⟩

end Layout

namespace Compile

variable {file : Tree.File} {p : Flow.Program} {o : Options} {r : Result}

/-- When the listing of a compiled program with the names of its functions is read back. -/
lemma Compiled.read_render_iff (hc : Compiled o p r) (hsize : p.funcs.size = file.decls.length)
    (hbuilt : ∀ {k d}, file.decls[k]? = some d → ∃ f, p.funcs[k]? = some f ∧ Tree.Built file k d f)
    {lo : Listing.Options} (hlo : lo.functions = true) :
    Listing.read (r.program.render lo) = .ok r.program.instrs.toList ↔
      (∀ i ∈ r.program.instrs.toList, i.op.isJump = true → i.addr ≤ Listing.maxNumber) ∧
        ∀ d ∈ file.decls, Gap (shown d.name) [] := by
  obtain ⟨q, hq, hprogram⟩ := hc.program
  obtain ⟨main, frames, codes, hlaid⟩ := Layout.lower_eq_ok.mp hq
  have hnames := hlaid.nameAt?_iff fun hf =>
    ⟨(hc.placeable.tidy hf).sound, (hc.placeable.tidy hf).wellFormed⟩
  set lines : List Listing.Line := r.program.code.toList.map fun x => { instr := x.instr, loc := x.loc }
    with hlines
  have hinstrs : lines.map (·.instr) = r.program.instrs.toList := by
    rw [hlines, List.map_map, Layout.Program.instrs, Array.toList_map]
    rfl
  have hlength : lines.length = q.code.size := by simp [hlines, hprogram, Layout.Program.resolve]
  have hlegible : ∀ l ∈ lines, Listing.Legible lines.length l.instr ∧ Listing.essential l.instr = l.instr := by
    intro l hl
    have hi : l.instr ∈ r.program.instrs.toList := by
      rw [← hinstrs]
      exact List.mem_map.mpr ⟨l, hl, rfl⟩
    have hsize : lines.length = r.program.code.size := by simp [hlines]
    rw [hsize]
    exact hc.legible hi
  have hfuncs : r.program.funcs = q.funcs := by rw [hprogram]; rfl
  rw [← hinstrs, Layout.Program.render, Listing.read_render_iff hlo hlegible,
    List.forall_mem_map (l := lines)]
  refine and_congr_right fun _ => ?_
  rw [hlength, hfuncs]
  constructor
  · intro hall d hd
    have hmem : d.name ∈ r.flow.funcs.toList.map (·.name) := by
      rw [hc.map_name hsize hbuilt]
      exact List.mem_map.mpr ⟨d, hd, rfl⟩
    obtain ⟨f, hf, hname⟩ := List.mem_map.mp hmem
    obtain ⟨k, hk⟩ := List.mem_iff_getElem?.mp hf
    rw [Array.getElem?_toList] at hk
    obtain ⟨j, hj, hat⟩ := (hnames d.name).mpr ⟨k, f, hk, hname⟩
    exact hall j hj d.name hat
  · intro hall j hj m hm
    obtain ⟨k, f, hk, rfl⟩ := (hnames m).mp ⟨j, hj, hm⟩
    have hmem : f.name ∈ file.decls.map (·.name) := by
      rw [← hc.map_name hsize hbuilt]
      refine List.mem_map.mpr ⟨f, List.mem_of_getElem? (i := k) ?_, rfl⟩
      rwa [Array.getElem?_toList]
    obtain ⟨d, hd, hname⟩ := List.mem_map.mp hmem
    rw [← hname]
    exact hall d hd

end Compile

/-- The listing of a compiled program with the names of its functions is read back exactly if its
addresses do not have too many digits and the names have no further lines, other than blanks and
comments. -/
theorem headers_are_comments_iff {raw : Tree.RawFile} {file : Tree.File}
    (h : raw.link.run = .ok (.ok file)) (o : Compile.Options) :
    ∃ r, compile o file = .ok (.ok r) ∧ ∀ lo : Listing.Options, lo.functions = true →
      (Listing.read (r.program.render lo) = .ok r.program.instrs.toList ↔
        (∀ i ∈ r.program.instrs.toList, i.op.isJump = true → i.addr ≤ Listing.maxNumber) ∧
          ∀ d ∈ file.decls, Gap (shown d.name) []) := by
  obtain ⟨p, r, hr, hc, hsize, hbuilt⟩ := (raw.link_linked h).sensible.compiled o
  exact ⟨r, hr, fun lo hlo => hc.read_render_iff hsize hbuilt hlo⟩

/-- A program with a procedure whose name has a second line. -/
def twoLines (second : String) : Tree.RawFile where
  procedures := [some { name := Text.bytes ("p\n" ++ second) }]
  main := some {}

def twoLinesFile (second : String) : Tree.File where
  decls := [{ name := Text.bytes ("p\n" ++ second) }, { name := "main", isMain := true }]

/-- A second line that is a comment of its own does no harm. -/
theorem comment_in_name_read_back :
    ∃ file r, (twoLines "# q").link.run = .ok (.ok file) ∧ compile {} file = .ok (.ok r) ∧
      Listing.read (r.program.render { functions := true }) = .ok r.program.instrs.toList := by
  have hfile : (twoLines "# q").link.run = .ok (.ok (twoLinesFile "# q")) := by decide +kernel
  obtain ⟨r, hr, hiff⟩ := headers_are_comments_iff hfile {}
  have hjumps : ∀ i ∈ r.program.instrs.toList, i.op.isJump = true → i.addr ≤ Listing.maxNumber := by
    obtain ⟨r', hr', hnone⟩ : ∃ r, compile {} (twoLinesFile "# q") = .ok (.ok r) ∧
        r.program.instrs.toList.filter (·.op.isJump) = [] := exists_ok_of_test (by cbv)
    obtain rfl := Except.ok.inj (Except.ok.inj (hr.symm.trans hr'))
    intro i hi hjump
    exact absurd hjump (List.filter_eq_nil_iff.mp hnone i hi)
  have hp : shown (Text.bytes ("p\n" ++ "# q")) = 10 :: 35 :: ([32, 113] ++ []) := by decide
  have hm : shown (Text.bytes "main") = [] := by decide
  have hgap : ∀ d ∈ (twoLinesFile "# q").decls, Gap (shown d.name) [] := by
    simp only [twoLinesFile, List.forall_mem_cons, List.not_mem_nil, false_implies, implies_true,
      and_true]
    rw [hp, hm]
    exact ⟨.blank (by simp) (.comment (by simp) (by simp) .nil), .nil⟩
  exact ⟨_, r, hfile, hr, (hiff _ rfl).mpr ⟨hjumps, hgap⟩⟩

/-- A second line that is an instruction is read as one. -/
theorem instruction_in_name_not_read_back :
    ∃ file r, (twoLines "HALT").link.run = .ok (.ok file) ∧ compile {} file = .ok (.ok r) ∧
      Listing.read (r.program.render { functions := true }) ≠ .ok r.program.instrs.toList := by
  have hfile : (twoLines "HALT").link.run = .ok (.ok (twoLinesFile "HALT")) := by decide +kernel
  obtain ⟨p, r, hr, hc, hsize, hbuilt⟩ := (Tree.RawFile.link_linked _ hfile).sensible.compiled {}
  refine ⟨_, r, hfile, hr, fun hread => ?_⟩
  have hgap := ((hc.read_render_iff hsize hbuilt rfl).mp hread).2 _ (List.mem_cons_self ..)
  have hshown : shown (Text.bytes ("p\n" ++ "HALT")) = [10, 72, 65, 76, 84] := by decide
  rw [hshown] at hgap
  cases hgap with
  | blank _ hrest => exact absurd (hrest.eq_nil (by simp [Listing.isUpper])) (by simp)

end Accumulator
