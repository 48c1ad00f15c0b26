import Mathlib
import Accumulator.Layout.Program
import Accumulator.Proofs.Made
import Accumulator.Proofs.Operands

/-!
# Laying out programs

What the parts of a layout are when it succeeds, and when it does. Frames have a range of cells for
each variable of their function, the code of a function has a part for each block that control comes
to, the entry first, and jumps only lead to blocks and functions that have a place.
-/

namespace Accumulator.Layout

open Accumulator.Flow (Id BlockId Payload lookup_eq_ok lookup_natCast)
open Accumulator.Flow.Check (Passes passes_bind passes_seq passes_pure passes_lift passes_forM
  passes_throw passes_ite passes_guard)

variable {p : Flow.Program} {frames : Frames} {f g : Flow.Func} {k : Nat} {b : BlockId}
  {x : Payload} {c : Context} {next next' : Int64} {ids : List Nat}

lemma buildFrame_keys {vs : List Id} {frame : Frame} (h : buildFrame f next vs = .ok (frame, next')) :
    frame.map Prod.fst = vs := by
  induction vs generalizing next frame with
  | nil =>
    cases h
    rfl
  | cons v vs ih =>
    rw [buildFrame, bind_eq_ok] at h
    obtain ⟨o, -, h⟩ := h
    cases o with
    | none => cases h
    | some w =>
      simp only [bind_eq_ok] at h
      obtain ⟨⟨rest, after⟩, hrest, h⟩ := h
      cases h
      rw [List.map_cons, ih hrest]

lemma buildFrame_ok {vs : List Id} (h : ∀ v ∈ vs, (f.varOf? v).isSome) (next : Int64) :
    ∃ frame next', buildFrame f next vs = .ok (frame, next') := by
  induction vs generalizing next with
  | nil => exact ⟨[], next, rfl⟩
  | cons v vs ih =>
    obtain ⟨w, hw⟩ := Option.isSome_iff_exists.mp (h v (by simp))
    have hvar : f.var? v = .ok (some w) := by
      rw [Flow.Func.var?_eq (Flow.Func.at?_of_varOf? (by rw [hw]; rfl)), hw]
    obtain ⟨frame, next', hrest⟩ := ih (fun u hu => h u (by simp [hu]))
      (allocate next w.name w.size w.byRef).2
    refine ⟨(v, (allocate next w.name w.size w.byRef).1) :: frame, next', ?_⟩
    rw [buildFrame, hvar, ok_bind]
    simp only [hrest]
    rfl

lemma buildFrames_keys (h : buildFrames p next ids = .ok (frames, next')) :
    frames.map Prod.fst = ids ∧
      ∀ k frame, (k, frame) ∈ frames → ∃ f, p.funcs[k]? = some f ∧
        frame.map Prod.fst = f.locals ++ f.params := by
  induction ids generalizing next frames with
  | nil =>
    cases h
    simp
  | cons k ids ih =>
    rw [buildFrames] at h
    simp only [bind_eq_ok] at h
    obtain ⟨f, hf, ⟨frame, after⟩, hframe, ⟨rest, final⟩, hrest, h⟩ := h
    cases h
    obtain ⟨hkeys, hall⟩ := ih hrest
    refine ⟨by rw [List.map_cons, hkeys], fun j fr hj => ?_⟩
    rcases List.mem_cons.mp hj with heq | hj
    · cases heq
      exact ⟨f, lookup_natCast.mp hf, buildFrame_keys hframe⟩
    · exact hall j fr hj

lemma buildFrames_ok (h : ∀ k ∈ ids, ∃ f, p.funcs[k]? = some f ∧ f.Framed) (next : Int64) :
    ∃ frames next', buildFrames p next ids = .ok (frames, next') := by
  induction ids generalizing next with
  | nil => exact ⟨[], next, rfl⟩
  | cons k ids ih =>
    obtain ⟨f, hf, hframed⟩ := h k (by simp)
    obtain ⟨frame, after, hframe⟩ := buildFrame_ok hframed next
    obtain ⟨rest, final, hrest⟩ := ih (fun j hj => h j (by simp [hj])) after
    refine ⟨(k, frame) :: rest, final, ?_⟩
    rw [buildFrames, lookup_natCast.mpr hf, ok_bind, hframe, ok_bind]
    simp only [hrest]
    rfl

lemma lookup_isSome_of_mem {α β : Type} [BEq α] [LawfulBEq α] {l : List (α × β)} {a : α}
    (h : a ∈ l.map Prod.fst) : (l.lookup a).isSome := by
  obtain ⟨e, he, rfl⟩ := List.mem_map.mp h
  exact List.lookup_isSome_iff.mpr ⟨e, he, by simp⟩

lemma cells_ok (h : buildFrames p next ids = .ok (frames, next')) (hk : k ∈ ids)
    (hf : p.funcs[k]? = some f) {v : Id} (hv : v ∈ f.locals ++ f.params) :
    ∃ cells, frames.cells k v = .ok cells := by
  obtain ⟨hkeys, hall⟩ := buildFrames_keys h
  have hsome : (List.lookup k frames.reverse).isSome := by
    apply lookup_isSome_of_mem
    rwa [List.map_reverse, List.mem_reverse, hkeys]
  obtain ⟨frame, hframe⟩ := Option.isSome_iff_exists.mp hsome
  have hmem : (k, frame) ∈ frames := by
    obtain ⟨l₁, l₂, heq, -⟩ := List.lookup_eq_some_iff.mp hframe
    rw [← List.mem_reverse, heq]
    simp
  obtain ⟨f', hf', hvars⟩ := hall k frame hmem
  obtain rfl : f = f' := Option.some.inj (hf.symm.trans hf')
  have hcell : (List.lookup v frame.reverse).isSome := by
    apply lookup_isSome_of_mem
    rwa [List.map_reverse, List.mem_reverse, hvars]
  obtain ⟨cells, hcells⟩ := Option.isSome_iff_exists.mp hcell
  refine ⟨cells, ?_⟩
  unfold Frames.cells Frames.frame
  rw [hframe, Option.getD_some, hcells]

lemma mem_bitsOf {r : Machine.Reg} {n : Nat} {it : Item} (h : it ∈ bitsOf r n) :
    it = { op := .shl, reg := r } ∨ it = { op := .inc, reg := r } := by
  induction n using Nat.strongRecOn with
  | ind n ih =>
    rw [bitsOf] at h
    split at h
    · cases h
    · next hn =>
      rcases List.mem_append.mp h with h | h
      · split at h
        · cases h
        · rcases List.mem_append.mp h with h | h
          · exact ih (n / 2) (by omega) h
          · exact Or.inl (List.mem_singleton.mp h)
      · split at h
        · exact Or.inr (List.mem_singleton.mp h)
        · cases h

lemma mem_constant {w : UInt64} {r : Machine.Reg} {it : Item} (h : it ∈ constant w r) :
    ∃ op ∈ [Machine.Op.rst, .shl, .inc], it = { op := op, reg := r } := by
  rcases List.mem_cons.mp h with rfl | h
  · exact ⟨.rst, by simp, rfl⟩
  · rcases mem_bitsOf h with rfl | rfl
    · exact ⟨.shl, by simp, rfl⟩
    · exact ⟨.inc, by simp, rfl⟩

lemma target_of_mem_constant {w : UInt64} {r : Machine.Reg} {it : Item} (h : it ∈ constant w r) :
    it.target = .nowhere := by
  obtain ⟨op, -, rfl⟩ := mem_constant h
  rfl

/-- Whether an item only leads to itself or to items around it. -/
def Item.isLocal (it : Item) : Bool :=
  match it.target with
  | .nowhere | .within _ => true
  | _ => false

lemma isLocal_constant {w : UInt64} {r : Machine.Reg} : ∀ it ∈ constant w r, it.isLocal = true := by
  intro it h
  rw [Item.isLocal, target_of_mem_constant h]

lemma isLocal_append {l m : List Item} (hl : ∀ it ∈ l, it.isLocal = true)
    (hm : ∀ it ∈ m, it.isLocal = true) : ∀ it ∈ l ++ m, it.isLocal = true := by
  intro it h
  rcases List.mem_append.mp h with h | h
  · exact hl it h
  · exact hm it h

lemma target_argument (q a : Cells) : ∀ it ∈ Context.argument q a, it.target = .nowhere := by
  have happend : ∀ {l m : List Item}, (∀ it ∈ l, it.target = .nowhere) →
      (∀ it ∈ m, it.target = .nowhere) → ∀ it ∈ l ++ m, it.target = .nowhere :=
    fun hl hm => List.forall_mem_append.mpr ⟨hl, hm⟩
  have hconst : ∀ {w : UInt64} {r : Machine.Reg}, ∀ it ∈ constant w r, it.target = .nowhere :=
    fun it hit => target_of_mem_constant hit
  unfold Context.argument
  split
  · exact happend (happend (happend hconst (by decide)) hconst) (by decide)
  split
  · exact happend (happend hconst hconst) (by decide)
  · refine happend (happend (happend (happend hconst (by decide)) ?_) hconst) (by decide)
    split
    · decide
    · simp

lemma isLocal_arithmetic {op : Flow.Op} {items : List Item} (h : arithmetic op = .ok items) :
    items ≠ [] ∧ ∀ it ∈ items, it.isLocal = true := by
  cases op <;> cases h <;> decide

/-- What the selection of an instruction asks for. -/
structure Context.Ready (c : Context) (x : Payload) : Prop where
  plain : x.asVar = none
  operands : ∀ d ∈ x.operands, (c.func.at? d).isSome
  named : ∀ v ∈ c.func.named x, ∃ cells, c.frames.cells c.number v = .ok cells
  recipe : ∀ op l r, x = .alu op l r → ∃ items, arithmetic op = .ok items
  ret : x = .ret → c.ret.isSome
  call : ∀ k args, x = .call k args → ∃ g, Flow.lookup c.program.funcs k = .ok g ∧
    args.length = g.params.length ∧ ∀ v ∈ g.params, ∃ cells, c.frames.cells k.toNat v = .ok cells

lemma Context.address_ok {v : Id} (h : ∃ cells, c.frames.cells c.number v = .ok cells)
    (r : Machine.Reg) : ∃ items, c.address v r = .ok items := by
  obtain ⟨cells, hcells⟩ := h
  exact ⟨_, by rw [Context.address, hcells, ok_bind]; rfl⟩

lemma Context.mapM_argument_ok {k : Int} {params args : List Id}
    (hparams : ∀ v ∈ params, ∃ cells, c.frames.cells k.toNat v = .ok cells)
    (hargs : ∀ v ∈ args, ∃ cells, c.frames.cells c.number v = .ok cells) :
    ∃ parts, (params.zip args).mapM (fun (param, arg) => do
      let p ← c.frames.cells k.toNat param
      let a ← c.frames.cells c.number arg
      return Context.argument p a) = Except.ok parts := by
  induction params generalizing args with
  | nil => exact ⟨[], rfl⟩
  | cons v params ih =>
    cases args with
    | nil => exact ⟨[], rfl⟩
    | cons w args =>
      obtain ⟨q, hq⟩ := hparams v (by simp)
      obtain ⟨a, ha⟩ := hargs w (by simp)
      have hargs' : ∀ u ∈ args, ∃ cells, c.frames.cells c.number u = .ok cells :=
        fun u hu => hargs u (by simp [hu])
      obtain ⟨parts, hparts⟩ := ih (fun u hu => hparams u (by simp [hu])) hargs'
      refine ⟨Context.argument q a :: parts, ?_⟩
      rw [List.zip_cons_cons, List.mapM_cons, hparts]
      simp only [hq, ha, ok_bind]
      rfl

lemma Context.arguments_ok {k : Int} {params args : List Id}
    (hparams : ∀ v ∈ params, ∃ cells, c.frames.cells k.toNat v = .ok cells)
    (hargs : ∀ v ∈ args, ∃ cells, c.frames.cells c.number v = .ok cells) :
    ∃ items, c.arguments k params args = .ok items := by
  obtain ⟨parts, hparts⟩ := Context.mapM_argument_ok hparams hargs
  exact ⟨parts.flatten, by rw [Context.arguments, hparts]; rfl⟩

lemma Context.Ready.select (h : c.Ready x) : ∃ items, c.select x = .ok items := by
  have haddress : ∀ {v}, v ∈ c.func.named x → ∀ r, ∃ items, c.address v r = .ok items :=
    fun hv r => Context.address_ok (h.named _ hv) r
  have hvar : ∀ {d}, d ∈ x.operands → c.func.var? d = .ok (c.func.varOf? d) :=
    fun hd => Flow.Func.var?_eq (h.operands _ hd)
  cases x with
  | var v => exact absurd h.plain (by simp [Payload.asVar])
  | const w => exact ⟨_, rfl⟩
  | elemAddr v i =>
    obtain ⟨items, hitems⟩ := haddress (v := v) (by simp [Flow.Func.named]) .b
    exact ⟨_, by rw [Context.select, hitems]; rfl⟩
  | elemAddrIndirect v i =>
    obtain ⟨items, hitems⟩ := haddress (v := v) (by simp [Flow.Func.named]) .a
    exact ⟨_, by rw [Context.select, hitems]; rfl⟩
  | store d s =>
    rw [Context.select, hvar (by simp [Payload.operands]), ok_bind]
    by_cases hd : (c.func.varOf? d).isSome
    · obtain ⟨items, hitems⟩ := haddress (v := d) (by simp [Flow.Func.named, hd]) .b
      exact ⟨_, by rw [if_pos hd, hitems]; rfl⟩
    · exact ⟨_, by rw [if_neg hd]; rfl⟩
  | storeIndirect d s =>
    obtain ⟨items, hitems⟩ := haddress (v := d) (by simp [Flow.Func.named]) .a
    exact ⟨_, by rw [Context.select, hitems]; rfl⟩
  | load s =>
    rw [Context.select, hvar (by simp [Payload.operands]), ok_bind]
    by_cases hs : (c.func.varOf? s).isSome
    · obtain ⟨items, hitems⟩ := haddress (v := s) (by simp [Flow.Func.named, hs]) .a
      exact ⟨_, by rw [if_pos hs, hitems]; rfl⟩
    · exact ⟨_, by rw [if_neg hs]; rfl⟩
  | loadIndirect s =>
    obtain ⟨items, hitems⟩ := haddress (v := s) (by simp [Flow.Func.named]) .a
    exact ⟨_, by rw [Context.select, hitems]; rfl⟩
  | loadPair s =>
    obtain ⟨items, hitems⟩ := haddress (v := s) (by simp [Flow.Func.named]) .a
    exact ⟨_, by rw [Context.select, hitems]; rfl⟩
  | alu op l r => exact h.recipe op l r rfl
  | stop => exact ⟨_, rfl⟩
  | ret =>
    obtain ⟨cell, hcell⟩ := Option.isSome_iff_exists.mp (h.ret rfl)
    exact ⟨_, by rw [Context.select, hcell]⟩
  | call k args =>
    obtain ⟨g, hg, hlen, hparams⟩ := h.call k args rfl
    have hargs : ∀ v ∈ args, ∃ cells, c.frames.cells c.number v = .ok cells := h.named
    obtain ⟨items, hitems⟩ := Context.arguments_ok hparams hargs
    refine ⟨items ++ [{ op := .strk, reg := .a }, { op := .jump, target := .func k }], ?_⟩
    rw [Context.select, Context.call, hg, ok_bind, if_neg (not_not.mpr hlen), hitems]
    rfl
  | branch t => exact ⟨_, rfl⟩
  | branchIf t d a b => exact ⟨_, rfl⟩
  | read => exact ⟨_, rfl⟩
  | write s => exact ⟨_, rfl⟩

/-- The code of an instruction only leads where the instruction leads. -/
def Heads (x : Payload) (it : Item) : Prop :=
  (∀ t, it.target = .block t → t ∈ x.targets) ∧ ∀ k, it.target = .func k → ∃ args, x = .call k args

lemma heads_of_isLocal {it : Item} (h : it.isLocal = true) : Heads x it := by
  constructor
  · intro t ht
    simp [Item.isLocal, ht] at h
  · intro k hk
    simp [Item.isLocal, hk] at h

lemma Context.address_bind_eq_ok {v : Id} {r : Machine.Reg} {k : List Item → List Item}
    {items : List Item} (h : (do return k (← c.address v r)) = .ok items) :
    ∃ cells, c.frames.cells c.number v = .ok cells ∧ items = k (constant cells.addr.toUInt64 r) := by
  simp only [Context.address, bind_eq_ok] at h
  obtain ⟨l, ⟨cells, hcells, hl⟩, h⟩ := h
  cases hl
  exact ⟨cells, hcells, (Except.ok.inj h).symm⟩

lemma Context.arguments_target {k : Int} {params args : List Id} {items : List Item}
    (h : c.arguments k params args = .ok items) : ∀ it ∈ items, it.target = .nowhere := by
  rw [Context.arguments, bind_eq_ok] at h
  obtain ⟨parts, hparts, h⟩ := h
  cases h
  generalize params.zip args = l at hparts
  induction l generalizing parts with
  | nil =>
    cases hparts
    simp
  | cons e l ih =>
    rw [List.mapM_cons] at hparts
    simp only [bind_eq_ok] at hparts
    obtain ⟨part, ⟨q, -, a, -, hpart⟩, rest, hrest, hparts⟩ := hparts
    cases hpart
    cases hparts
    rw [List.flatten_cons, List.forall_mem_append]
    exact ⟨target_argument q a, ih rest hrest⟩

/-- What stands before and behind a constant in the code of an instruction, and its register. -/
def surroundings : List (List Item × Machine.Reg × List Item) :=
  [([], .a, []),
    ([], .b, [{ op := .add, reg := .b }]),
    ([], .b, [{ op := .store, reg := .b }]),
    ([], .a, [{ op := .load, reg := .a }, { op := .inc, reg := .a }, { op := .inc, reg := .a },
      { op := .jumpr, reg := .a }]),
    ([{ op := .put, reg := .b }], .a, [{ op := .load, reg := .a }]),
    ([{ op := .put, reg := .b }], .a, [{ op := .load, reg := .a }, { op := .load, reg := .a }]),
    ([{ op := .put, reg := .b }], .a, [{ op := .load, reg := .a }, { op := .add, reg := .b }]),
    ([{ op := .put, reg := .h }], .a, [{ op := .load, reg := .a }, { op := .put, reg := .b },
      { op := .get, reg := .h }]),
    ([{ op := .put, reg := .c }], .a, [{ op := .load, reg := .a }, { op := .put, reg := .b },
      { op := .get, reg := .c }, { op := .store, reg := .b }])]

/-- Code of an instruction that is always the same. -/
def fixedCode : List (List Item) :=
  [[{ op := .store, reg := .b }], [{ op := .load, reg := .a }], [{ op := .halt }],
    [{ op := .put, reg := .b }, { op := .read }], [{ op := .write }]]

/-- The forms of code that leads to no other block or function. -/
inductive SelfContained : List Item → Prop
  | fixed {l : List Item} : l ∈ fixedCode → SelfContained l
  | recipe {op : Flow.Op} {l : List Item} : arithmetic op = .ok l → SelfContained l
  | around (before : List Item) {after : List Item} {r : Machine.Reg} (w : UInt64) :
      (before, r, after) ∈ surroundings → SelfContained (before ++ constant w r ++ after)

lemma Context.select_selfContained {items : List Item} (h : c.select x = .ok items) (ht : x.targets = [])
    (hcall : ∀ k args, x ≠ .call k args) : SelfContained items := by
  cases x with
  | var v => cases h
  | branch t => cases ht
  | branchIf test d t e => cases ht
  | call k args => exact absurd rfl (hcall k args)
  | const w =>
    cases h
    have hmem : ([], Machine.Reg.a, []) ∈ surroundings := by decide
    have hplain := SelfContained.around [] w hmem
    rwa [List.append_nil] at hplain
  | alu op l r => exact .recipe h
  | stop =>
    cases h
    exact .fixed (by decide)
  | read =>
    cases h
    exact .fixed (by decide)
  | write s =>
    cases h
    exact .fixed (by decide)
  | ret =>
    rw [Context.select] at h
    split at h
    · cases h
    · cases h
      exact .around [] _ (by decide)
  | store d s =>
    rw [Context.select, bind_eq_ok] at h
    obtain ⟨o, -, h⟩ := h
    split at h
    · obtain ⟨cells, -, rfl⟩ := Context.address_bind_eq_ok h
      exact .around [] _ (by decide)
    · cases h
      exact .fixed (by decide)
  | load s =>
    rw [Context.select, bind_eq_ok] at h
    obtain ⟨o, -, h⟩ := h
    split at h
    · obtain ⟨cells, -, rfl⟩ := Context.address_bind_eq_ok h
      exact .around [_] _ (by decide)
    · cases h
      exact .fixed (by decide)
  | elemAddr v i =>
    obtain ⟨cells, -, rfl⟩ := Context.address_bind_eq_ok h
    exact .around [] _ (by decide)
  | elemAddrIndirect v i =>
    obtain ⟨cells, -, rfl⟩ := Context.address_bind_eq_ok h
    exact .around [_] _ (by decide)
  | storeIndirect d s =>
    obtain ⟨cells, -, rfl⟩ := Context.address_bind_eq_ok h
    exact .around [_] _ (by decide)
  | loadIndirect s =>
    obtain ⟨cells, -, rfl⟩ := Context.address_bind_eq_ok h
    exact .around [_] _ (by decide)
  | loadPair s =>
    obtain ⟨cells, -, rfl⟩ := Context.address_bind_eq_ok h
    exact .around [_] _ (by decide)

lemma SelfContained.isLocal {l : List Item} (h : SelfContained l) : l ≠ [] ∧ ∀ it ∈ l, it.isLocal = true := by
  cases h with
  | fixed hl => exact (by decide : ∀ l ∈ fixedCode, l ≠ [] ∧ ∀ it ∈ l, it.isLocal = true) l hl
  | recipe hl => exact isLocal_arithmetic hl
  | around before w hmem =>
    have hsides : ∀ s ∈ surroundings, (∀ it ∈ s.1, it.isLocal = true) ∧
        ∀ it ∈ s.2.2, it.isLocal = true := by decide
    obtain ⟨hbefore, hafter⟩ := hsides _ hmem
    exact ⟨by simp [constant], isLocal_append (isLocal_append hbefore isLocal_constant) hafter⟩

lemma Context.select_heads {items : List Item} (h : c.select x = .ok items) :
    items ≠ [] ∧ ∀ it ∈ items, Heads x it := by
  cases x with
  | call k args =>
    rw [Context.select, Context.call, bind_eq_ok] at h
    obtain ⟨g, -, h⟩ := h
    split at h
    · cases h
    · rw [bind_eq_ok] at h
      obtain ⟨l, hl, h⟩ := h
      cases h
      refine ⟨by simp, fun it hit => ?_⟩
      rcases List.mem_append.mp hit with hit | hit
      · exact heads_of_isLocal (by rw [Item.isLocal, Context.arguments_target hl it hit])
      · simp only [List.mem_cons, List.not_mem_nil, or_false] at hit
        rcases hit with rfl | rfl
        · exact heads_of_isLocal rfl
        · exact ⟨fun t ht => (by cases ht), fun j hj => ⟨args, by cases hj; rfl⟩⟩
  | branch t =>
    cases h
    refine ⟨by simp, fun it hit => ?_⟩
    rw [List.mem_singleton] at hit
    subst hit
    exact ⟨fun u hu => (by cases hu; simp [Payload.targets]), fun j hj => (by cases hj)⟩
  | branchIf test d t e =>
    cases h
    refine ⟨by simp, fun it hit => ?_⟩
    simp only [List.mem_cons, List.not_mem_nil, or_false] at hit
    rcases hit with rfl | rfl
    · exact ⟨fun u hu => (by cases hu; simp [Payload.targets]), fun j hj => (by cases hj)⟩
    · exact ⟨fun u hu => (by cases hu; simp [Payload.targets]), fun j hj => (by cases hj)⟩
  | _ =>
    obtain ⟨hne, hlocal⟩ := (Context.select_selfContained h rfl (by simp)).isLocal
    exact ⟨hne, fun it hit => heads_of_isLocal (hlocal it hit)⟩

lemma mapM_eq_ok {α β ε : Type} {h : α → Except ε β} {l : List α} {m : List β} :
    l.mapM h = .ok m ↔ List.Forall₂ (fun a b => h a = .ok b) l m := by
  induction l generalizing m with
  | nil =>
    rw [List.mapM_nil, List.forall₂_nil_left_iff]
    exact ⟨fun h => (Except.ok.inj h).symm, fun h => by rw [h]; rfl⟩
  | cons a l ih =>
    rw [List.mapM_cons, List.forall₂_cons_left_iff]
    simp only [bind_eq_ok, ih]
    constructor
    · rintro ⟨b, hb, bs, hbs, h⟩
      exact ⟨b, bs, hb, hbs, (Except.ok.inj h).symm⟩
    · rintro ⟨b, bs, hb, hbs, rfl⟩
      exact ⟨b, hb, bs, hbs, rfl⟩

lemma exists_of_forall₂ {α β : Type} {R : α → β → Prop} {l : List α} {m : List β}
    (h : List.Forall₂ R l m) {b : β} (hb : b ∈ m) : ∃ a ∈ l, R a b := by
  induction h with
  | nil => cases hb
  | cons hab _ ih =>
    rcases List.mem_cons.mp hb with rfl | hb
    · exact ⟨_, by simp, hab⟩
    · obtain ⟨a, ha, hab⟩ := ih hb
      exact ⟨a, by simp [ha], hab⟩

lemma map_eq_map_of_forall₂ {α β γ : Type} {R : α → β → Prop} {l : List α} {m : List β} {u : α → γ}
    {w : β → γ} (h : List.Forall₂ R l m) (huw : ∀ a b, R a b → u a = w b) : l.map u = m.map w := by
  induction h with
  | nil => rfl
  | cons hab _ ih => rw [List.map_cons, List.map_cons, ih, huw _ _ hab]

/-- The code of an instruction. -/
def Context.Codes (c : Context) (i : Id) (part : List Located) : Prop :=
  ∃ s items, c.func.at? i = some s ∧ c.select s.payload = .ok items ∧ part = locate s.loc items

lemma Context.block_eq_ok {l : List Id} {code : List Located} (hl : c.func.listing? b = some l) :
    c.block b = .ok code ↔ l ≠ [] ∧ ∃ parts, List.Forall₂ c.Codes l parts ∧ code = parts.flatten := by
  have hcode : c.func.code b = .ok l.toArray := Flow.Func.code_eq_ok.mpr hl
  have hpart : ∀ i part, (do
      let s ← c.func.slot i
      return locate s.loc (← c.select s.payload) : Except Fault (List Located)) = .ok part ↔
      c.Codes i part := by
    intro i part
    simp only [bind_eq_ok, Flow.Func.slot_eq_ok, Context.Codes]
    constructor
    · rintro ⟨s, hs, items, hitems, h⟩
      exact ⟨s, items, hs, hitems, (Except.ok.inj h).symm⟩
    · rintro ⟨s, items, hs, hitems, rfl⟩
      exact ⟨s, hs, items, hitems, rfl⟩
  rw [Context.block, hcode, ok_bind, bind_eq_ok]
  simp only [mapM_eq_ok, hpart]
  constructor
  · rintro ⟨parts, hparts, h⟩
    split at h
    · cases h
    · next hne =>
      refine ⟨?_, parts, hparts, (Except.ok.inj h).symm⟩
      rintro rfl
      rw [List.forall₂_nil_left_iff.mp hparts] at hne
      exact hne rfl
  · rintro ⟨hne, parts, hparts, rfl⟩
    refine ⟨parts, hparts, ?_⟩
    rw [if_neg]
    · rfl
    · intro hempty
      rw [List.isEmpty_iff.mp hempty] at hparts
      exact hne (List.forall₂_nil_right_iff.mp hparts)

/-- The cell for the return address of a function. -/
def retCell (f : Flow.Func) (next : Int64) : Option Cells :=
  if f.isMain then none else some (allocate next (Text.bytes "ret") 1 false).1

/-- Where the cells of the next function start. -/
def afterRet (f : Flow.Func) (next : Int64) : Int64 :=
  if f.isMain then next else (allocate next (Text.bytes "ret") 1 false).2

/-- What is known when the code of a function is selected. -/
def funcContext (p : Flow.Program) (frames : Frames) (next : Int64) (k : Nat) (f : Flow.Func) :
    Context :=
  { program := p, frames := frames, number := k, func := f, ret := retCell f next }

/-- The code before the first block of a function. -/
def openingOf (ret : Option Cells) : List Item :=
  match ret with
  | none => []
  | some cell => constant cell.addr.toUInt64 .b ++ [{ op := .store, reg := .b }]

/-- The code of a function: that of the blocks that control comes to, the entry first. -/
structure Selected (c : Context) (code : FuncCode) : Prop where
  number : code.number = c.number
  name : code.name = c.func.name
  ret : code.ret = c.ret
  opening : code.opening = locate c.func.loc (openingOf c.ret)
  entry : ∃ first rest, code.blocks = (c.func.entry, first) :: rest
  nodup : (code.blocks.map Prod.fst).Nodup
  mem : ∀ b, b ∈ code.blocks.map Prod.fst ↔ c.func.Reaches b
  code : ∀ b l, (b, l) ∈ code.blocks → c.block b = .ok l

lemma selectFunc_eq (hk : p.funcs[k]? = some f) :
    selectFunc p frames next k = (do
      let blocks ← f.walk (fun _ => f)
        (fun done b => return done ++ [(b, ← (funcContext p frames next k f).block b)]) []
      return ({ number := k, name := f.name, ret := retCell f next,
                opening := locate f.loc (openingOf (retCell f next)), blocks := blocks },
        afterRet f next)) := by
  rw [selectFunc, lookup_natCast.mpr hk, ok_bind]
  unfold funcContext retCell afterRet
  cases f.isMain <;> rfl

/-- The code of a function that passed selection: that of the blocks that can be reached. -/
structure Coded (c : Context) (code : FuncCode) : Prop where
  number : code.number = c.number
  name : code.name = c.func.name
  ret : code.ret = c.ret
  opening : code.opening = locate c.func.loc (openingOf c.ret)
  reachable : c.func.reachable = .ok (code.blocks.map Prod.fst)
  nodup : (code.blocks.map Prod.fst).Nodup
  code : ∀ b l, (b, l) ∈ code.blocks → c.block b = .ok l

lemma foldlM_blocks {init blocks : List (BlockId × List Located)} {l : List BlockId}
    (h : l.foldlM (fun done b => return done ++ [(b, ← c.block b)]) init = .ok blocks) :
    ∃ new, blocks = init ++ new ∧ new.map Prod.fst = l ∧ ∀ b code, (b, code) ∈ new → c.block b = .ok code := by
  induction l generalizing init with
  | nil =>
    cases h
    exact ⟨[], by simp⟩
  | cons b l ih =>
    rw [List.foldlM_cons] at h
    simp only [bind_eq_ok] at h
    obtain ⟨done, ⟨code, hcode, hdone⟩, h⟩ := h
    cases hdone
    obtain ⟨new, rfl, rfl, hnew⟩ := ih h
    refine ⟨(b, code) :: new, by simp, rfl, fun d m hd => ?_⟩
    rcases List.mem_cons.mp hd with heq | hd
    · cases heq
      exact hcode
    · exact hnew d m hd

lemma selectFunc_coded {code : FuncCode} (h : selectFunc p frames next k = .ok (code, next')) :
    ∃ f, p.funcs[k]? = some f ∧ Coded (funcContext p frames next k f) code ∧ next' = afterRet f next := by
  have hfunc := h
  rw [selectFunc, bind_eq_ok] at hfunc
  obtain ⟨f, hf, -⟩ := hfunc
  have hk := lookup_natCast.mp hf
  rw [selectFunc_eq hk, bind_eq_ok] at h
  obtain ⟨blocks, hblocks, h⟩ := h
  cases h
  obtain ⟨l, hreach, hnodup, hfold⟩ := Flow.Func.walk_eq_ok hblocks
  obtain ⟨new, rfl, rfl, hnew⟩ := foldlM_blocks hfold
  exact ⟨f, hk, ⟨rfl, rfl, rfl, rfl, hreach, hnodup, hnew⟩, rfl⟩

lemma walk_blocks_cases (hf : c.func.Sound) (hw : c.func.WellFormed) :
    ((∃ b, c.func.Reaches b ∧ ∃ e, c.block b = .error e) ∧
      ∃ e, c.func.walk (fun _ => c.func) (fun done b => return done ++ [(b, ← c.block b)]) [] =
        .error e) ∨
    ∃ blocks : List (BlockId × List Located),
      c.func.walk (fun _ => c.func) (fun done b => return done ++ [(b, ← c.block b)]) [] =
        .ok blocks ∧ (∃ first rest, blocks = (c.func.entry, first) :: rest) ∧
      (blocks.map Prod.fst).Nodup ∧ (∀ b, b ∈ blocks.map Prod.fst ↔ c.func.Reaches b) ∧
      ∀ b l, (b, l) ∈ blocks → c.block b = .ok l := by
  have hbounds : ∀ b, c.func.Reaches b → 0 ≤ b ∧ b < c.func.blocks.size := by
    intro b hb
    obtain ⟨l, hl, -⟩ := hw.closes hb
    exact Flow.Func.bounds_of_listing? hl
  have hsuccs : ∀ b, c.func.Reaches b →
      ∃ succs, c.func.successors b = .ok succs ∧ ∀ d, d ∈ succs ↔ c.func.Leads b d := by
    intro b hb
    obtain ⟨l, hl, -⟩ := hw.closes hb
    exact hf.successors hl
  have hroot : c.func.Reaches c.func.entry := Relation.ReflTransGen.refl
  obtain ⟨succs, hsucc, hmem⟩ := hsuccs _ hroot
  unfold Flow.Func.walk
  cases hfirst : c.block c.func.entry with
  | error err =>
    refine Or.inl ⟨⟨_, hroot, err, hfirst⟩, err, ?_⟩
    rw [Flow.walkFrom_cons_error _ _ (hbounds _ hroot) (by simp) (by simp only [hfirst]; rfl)]
    rfl
  | ok first =>
    have hstep : Flow.walkFrom c.func.blocks.size (fun _ b => c.func.successors b)
        (fun (done : List (BlockId × List Located)) b => return done ++ [(b, ← c.block b)]) [] []
          [c.func.entry] =
        Flow.walkFrom c.func.blocks.size (fun _ b => c.func.successors b)
          (fun (done : List (BlockId × List Located)) b => return done ++ [(b, ← c.block b)])
          [c.func.entry] [(c.func.entry, first)] (succs ++ []) :=
      Flow.walkFrom_cons _ _ (hbounds _ hroot) (by simp) (by simp only [hfirst]; rfl) hsucc
    rw [hstep, List.append_nil]
    have hwalk := Flow.walkFrom_cases (n := c.func.blocks.size)
      (A := ∃ b, c.func.Reaches b ∧ ∃ e, c.block b = .error e)
      (fun (_ : List (BlockId × List Located)) b => c.func.successors b)
      (fun done b => return done ++ [(b, ← c.block b)]) (E := c.func.Leads) (P := c.func.Reaches)
      (I := fun visited done => (∃ rest, done = (c.func.entry, first) :: rest) ∧
        done.map Prod.fst = visited.reverse ∧ visited.Nodup ∧
        ∀ b l, (b, l) ∈ done → c.block b = .ok l)
      hbounds (fun b d hb hd => hb.tail hd)
      (fun visited done b hb hnew hI => by
        obtain ⟨⟨rest, hrest⟩, hkeys, hnd, hall⟩ := hI
        cases hblock : c.block b with
        | error err => exact Or.inl ⟨⟨b, hb, err, hblock⟩, err, rfl⟩
        | ok l =>
          obtain ⟨succs, hsucc, hmem⟩ := hsuccs b hb
          refine Or.inr ⟨done ++ [(b, l)], succs, rfl, ⟨⟨rest ++ [(b, l)], by rw [hrest]; rfl⟩, ?_,
            List.nodup_cons.mpr ⟨hnew, hnd⟩, fun d m hd => ?_⟩, hsucc, hmem⟩
          · simp [hkeys]
          · rcases List.mem_append.mp hd with hd | hd
            · exact hall d m hd
            · obtain ⟨rfl, rfl⟩ := Prod.mk.inj (List.mem_singleton.mp hd)
              exact hblock)
      [c.func.entry] [(c.func.entry, first)] succs
      ⟨⟨[], rfl⟩, rfl, by simp, fun b l hb => by
        obtain ⟨rfl, rfl⟩ := Prod.mk.inj (List.mem_singleton.mp hb)
        exact hfirst⟩
      (fun b hb => hroot.tail ((hmem b).mp hb))
      (fun b hb => by
        obtain rfl := List.mem_singleton.mp hb
        exact ⟨hroot, fun d hd => Or.inr ((hmem d).mpr hd)⟩)
    rcases hwalk with ⟨hbad, err, herr⟩ | ⟨done, visited, hok, ⟨hentry, hkeys, hnd, hall⟩, hsub, -, hclosed⟩
    · exact Or.inl ⟨hbad, err, by rw [herr]; rfl⟩
    · refine Or.inr ⟨done, by rw [hok]; rfl, ?_, ?_, fun b => ?_, hall⟩
      · obtain ⟨rest, hrest⟩ := hentry
        exact ⟨first, rest, hrest⟩
      · rw [hkeys]
        exact List.nodup_reverse.mpr hnd
      · rw [hkeys, List.mem_reverse]
        exact ⟨fun hb => (hclosed b hb).1,
          fun hb => hb.mem (hsub _ (by simp)) fun d hd => (hclosed d hd).2⟩

lemma selectFunc_cases (frames : Frames) (next : Int64) (hk : p.funcs[k]? = some f) (hf : f.Sound)
    (hw : f.WellFormed) :
    ((∃ b, f.Reaches b ∧ ∃ e, (funcContext p frames next k f).block b = .error e) ∧
      ∃ e, selectFunc p frames next k = .error e) ∨
    ∃ code, selectFunc p frames next k = .ok (code, afterRet f next) ∧
      Selected (funcContext p frames next k f) code := by
  rw [selectFunc_eq hk]
  rcases walk_blocks_cases (c := funcContext p frames next k f) hf hw with
    ⟨hbad, e, he⟩ | ⟨blocks, hok, hentry, hnodup, hmem, hall⟩
  · refine Or.inl ⟨hbad, e, ?_⟩
    erw [he]
    rfl
  · refine Or.inr ⟨⟨k, f.name, retCell f next, locate f.loc (openingOf (retCell f next)), blocks⟩, ?_,
      rfl, rfl, rfl, rfl, hentry, hnodup, hmem, hall⟩
    erw [hok]
    rfl

lemma Context.heads_of_block {l : List Id} {code : List Located} (hl : c.func.listing? b = some l)
    (h : c.block b = .ok code) {y : Located} (hy : y ∈ code) :
    ∃ i s, i ∈ l ∧ c.func.at? i = some s ∧ Heads s.payload y.item := by
  obtain ⟨-, parts, hparts, rfl⟩ := (Context.block_eq_ok hl).mp h
  obtain ⟨part, hpart, hyp⟩ := List.mem_flatten.mp hy
  obtain ⟨i, hi, s, items, hs, hitems, rfl⟩ := exists_of_forall₂ hparts hpart
  refine ⟨i, s, hi, hs, ?_⟩
  obtain ⟨it, hit, rfl⟩ := List.mem_map.mp hyp
  exact (Context.select_heads hitems).2 it hit

lemma length_pos_of_block {l : List Id} {code : List Located} (hl : c.func.listing? b = some l)
    (h : c.block b = .ok code) : code ≠ [] := by
  obtain ⟨hne, parts, hparts, rfl⟩ := (Context.block_eq_ok hl).mp h
  cases hparts with
  | nil => exact absurd rfl hne
  | cons hc _ =>
    obtain ⟨s, items, -, hitems, rfl⟩ := hc
    have hitems := (Context.select_heads hitems).1
    intro hnil
    rw [List.flatten_cons, List.append_eq_nil_iff] at hnil
    exact hitems (List.map_eq_nil_iff.mp hnil.1)

/-- The code of functions in their order. -/
inductive Chosen (p : Flow.Program) (frames : Frames) :
    Nat → Int64 → List Nat → List (Nat × FuncCode) → Int64 → Prop where
  | nil {start : Nat} {next : Int64} : Chosen p frames start next [] [] next
  | cons {start k : Nat} {next after final : Int64} {ids : List Nat} {c : FuncCode}
    {codes : List (Nat × FuncCode)} :
    selectFunc p frames next k = .ok (c, after) → c.items.length ≠ 0 →
    Chosen p frames (start + c.items.length) after ids codes final →
    Chosen p frames start next (k :: ids) ((start, c) :: codes) final

lemma selectFrom_passes {start : Nat} {codes : List (Nat × FuncCode)} :
    Passes (selectFrom p frames start next ids) (codes, next') ↔
      Chosen p frames start next ids codes next' := by
  induction ids generalizing start next codes with
  | nil =>
    rw [selectFrom, passes_pure]
    constructor
    · rintro ⟨⟩
      exact .nil
    · rintro ⟨⟩
      rfl
  | cons k ids ih =>
    rw [selectFrom, passes_bind]
    constructor
    · rintro ⟨⟨c, after⟩, hc, h⟩
      obtain ⟨hsize, h⟩ := passes_guard.mp h
      obtain ⟨⟨rest, final⟩, hrest, h⟩ := passes_bind.mp h
      cases passes_pure.mp h
      exact .cons (passes_lift.mp hc) hsize (ih.mp hrest)
    · intro h
      cases h with
      | cons hc hsize hrest =>
        refine ⟨_, passes_lift.mpr hc, passes_guard.mpr ⟨hsize, ?_⟩⟩
        exact passes_bind.mpr ⟨_, ih.mpr hrest, passes_pure.mpr rfl⟩

lemma Chosen.coded {start : Nat} {codes : List (Nat × FuncCode)}
    (h : Chosen p frames start next ids codes next') :
    codes.map (fun e => e.2.number) = ids ∧ ∀ e ∈ codes, ∃ f next, p.funcs[e.2.number]? = some f ∧
      Coded (funcContext p frames next e.2.number f) e.2 := by
  induction h with
  | nil => simp
  | @cons start k next after final ids c codes hc _ _ ih =>
    obtain ⟨hnumbers, hall⟩ := ih
    obtain ⟨f, hk, hcoded, -⟩ := selectFunc_coded hc
    obtain rfl : c.number = k := hcoded.number
    exact ⟨by rw [List.map_cons, hnumbers], List.forall_mem_cons.mpr ⟨⟨f, next, hk, hcoded⟩, hall⟩⟩

/-- A program some of whose functions were laid out. -/
structure LaidOut (p : Flow.Program) (ids : List Nat) (main : Nat) (frames : Frames)
    (codes : List (Nat × FuncCode)) (q : Program) : Prop where
  found : ids.find? (fun k => (p.funcs[k]?).any (·.isMain)) = some main
  parts : ∃ next, buildFrames p 0 ids = .ok (frames, next) ∧
    Chosen p frames 0 next (main :: ids.filter (· ≠ main)) codes q.memory
  blocks : ∀ e ∈ codes, checkBlocks (blockStarts codes) e.2 = .ok ()
  calls : ∀ e ∈ codes, checkCalls p (funcStarts codes) e.2 = .ok ()
  code : q.code = (codes.flatMap fun e =>
    placeItems (blockStarts codes) (funcStarts codes) e.1 e.2).toArray
  funcs : q.funcs = codes.map fun e =>
    { name := e.2.name, start := e.1, size := e.2.items.length,
      frame := (frames.frame e.2.number).map (·.2), ret := e.2.ret }

lemma LaidOut.code_size {main : Nat} {codes : List (Nat × FuncCode)} {q : Program}
    (h : LaidOut p ids main frames codes q) :
    q.code.size = (codes.map fun e => e.2.items.length).sum := by
  rw [h.code, List.size_toArray, List.length_flatMap]
  simp [placeItems]

/-- A program that was laid out. -/
abbrev Laid (p : Flow.Program) : Nat → Frames → List (Nat × FuncCode) → Program → Prop :=
  LaidOut p (List.range p.funcs.size)

lemma lowerOnly_eq_ok {q : Program} :
    (lowerOnly p ids).run = .ok (.ok q) ↔ ∃ main frames codes, LaidOut p ids main frames codes q := by
  change Passes (lowerOnly p ids) q ↔ _
  unfold lowerOnly
  cases hmain : ids.find? fun k => (p.funcs[k]?).any (·.isMain) with
  | none =>
    simp only [passes_throw, false_iff, not_exists]
    intro main frames codes h
    exact absurd (hmain.symm.trans h.found) (by simp)
  | some main =>
    dsimp only
    rw [passes_bind]
    constructor
    · rintro ⟨⟨frames, next⟩, hframes, h⟩
      obtain ⟨⟨codes, final⟩, hcodes, h⟩ := passes_bind.mp h
      obtain ⟨hblocks, h⟩ := passes_seq.mp h
      obtain ⟨hcalls, h⟩ := passes_seq.mp h
      cases passes_pure.mp h
      refine ⟨main, frames, codes, hmain, ⟨next, passes_lift.mp hframes, selectFrom_passes.mp hcodes⟩,
        fun e he => ?_, fun e he => ?_, rfl, rfl⟩
      · exact passes_lift.mp (passes_forM.mp hblocks e he)
      · exact passes_lift.mp (passes_forM.mp hcalls e he)
    · rintro ⟨main', frames, codes, h⟩
      obtain rfl : main = main' := Option.some.inj (hmain.symm.trans h.found)
      obtain ⟨next, hframes, hcodes⟩ := h.parts
      refine ⟨_, passes_lift.mpr hframes, passes_bind.mpr ⟨_, selectFrom_passes.mpr hcodes, ?_⟩⟩
      refine passes_seq.mpr ⟨passes_forM.mpr fun e he => passes_lift.mpr (h.blocks e he), ?_⟩
      refine passes_seq.mpr ⟨passes_forM.mpr fun e he => passes_lift.mpr (h.calls e he), ?_⟩
      rw [passes_pure, ← h.code, ← h.funcs]

lemma lower_eq_ok {q : Program} :
    lower p = .ok (.ok q) ↔ ∃ main frames codes, Laid p main frames codes q :=
  lowerOnly_eq_ok

lemma Chosen.selected {start : Nat} {codes : List (Nat × FuncCode)}
    (h : Chosen p frames start next ids codes next')
    (hf : ∀ k ∈ ids, ∃ f, p.funcs[k]? = some f ∧ f.Sound ∧ f.WellFormed) :
    codes.map (fun e => e.2.number) = ids ∧
      ∀ e ∈ codes, ∃ f next, p.funcs[e.2.number]? = some f ∧
        Selected (funcContext p frames next e.2.number f) e.2 := by
  induction h with
  | nil => simp
  | @cons start k next after final ids c codes hc _ _ ih =>
    obtain ⟨f, hk, hsound, hw⟩ := hf k (by simp)
    obtain ⟨hnumbers, hall⟩ := ih fun j hj => hf j (by simp [hj])
    rcases selectFunc_cases frames next hk hsound hw with ⟨-, e, he⟩ | ⟨code, hok, hsel⟩
    · exact absurd (hc.symm.trans he) (by simp)
    · obtain ⟨rfl, -⟩ := Prod.mk.inj (Except.ok.inj (hok.symm.trans hc))
      have hnumber := hsel.number
      refine ⟨by rw [List.map_cons, hnumbers]; exact congrArg (· :: _) hnumber, fun e he => ?_⟩
      rcases List.mem_cons.mp he with rfl | he
      · refine ⟨f, next, ?_, ?_⟩
        · rw [hnumber]
          exact hk
        · rw [hnumber]
          exact hsel
      · exact hall e he

lemma startsFrom_keys (start : Nat) (l : List (BlockId × List Located)) :
    (FuncCode.startsFrom start l).map Prod.fst = l.map Prod.fst := by
  induction l generalizing start with
  | nil => rfl
  | cons d l ih =>
    obtain ⟨d, code⟩ := d
    rw [FuncCode.startsFrom, List.map_cons, ih]
    rfl

lemma mem_blockStarts {codes : List (Nat × FuncCode)} {e : Nat × FuncCode} (he : e ∈ codes)
    (hb : b ∈ e.2.blocks.map Prod.fst) : (e.2.number, b) ∈ (blockStarts codes).map Prod.fst := by
  rw [← startsFrom_keys (e.1 + e.2.opening.length)] at hb
  obtain ⟨d, hd, rfl⟩ := List.mem_map.mp hb
  rw [blockStarts, List.map_reverse, List.mem_reverse, List.mem_map]
  refine ⟨((e.2.number, d.1), d.2), List.mem_flatMap.mpr ⟨e, he, ?_⟩, rfl⟩
  exact List.mem_map.mpr ⟨d, hd, rfl⟩

lemma mem_funcStarts {codes : List (Nat × FuncCode)} (h : k ∈ codes.map fun e => e.2.number) :
    k ∈ (funcStarts codes).map Prod.fst := by
  rw [funcStarts, List.map_reverse, List.mem_reverse, List.map_map]
  exact h

lemma forM_ok {α : Type} {l : List α} {h : α → Except Fault Unit} (hl : ∀ a ∈ l, h a = .ok ()) :
    l.forM h = .ok () := by
  induction l with
  | nil => rfl
  | cons a l ih =>
    change (h a >>= fun _ => l.forM h) = .ok ()
    rw [hl a (by simp), ok_bind, ih fun b hb => hl b (by simp [hb])]

/-- The items of the code of a function lead nowhere but where its instructions do. -/
lemma Selected.heads {code : FuncCode} (h : Selected c code) (hw : c.func.WellFormed) {y : Located}
    (hy : y ∈ code.items) :
    y.item.isLocal = true ∨ ∃ b l i s, c.func.Reaches b ∧ c.func.listing? b = some l ∧ i ∈ l ∧
      c.func.at? i = some s ∧ Heads s.payload y.item := by
  rcases List.mem_append.mp hy with hy | hy
  · rw [h.opening] at hy
    obtain ⟨it, hit, rfl⟩ := List.mem_map.mp hy
    left
    unfold openingOf at hit
    split at hit
    · cases hit
    · exact isLocal_append isLocal_constant (by decide) it hit
  · right
    obtain ⟨⟨b, items⟩, hb, hyb⟩ := List.mem_flatMap.mp hy
    have hreach := (h.mem b).mp (List.mem_map.mpr ⟨_, hb, rfl⟩)
    obtain ⟨l, hl, -⟩ := hw.closes hreach
    obtain ⟨i, s, hi, hs, hleads⟩ := Context.heads_of_block hl (h.code b items hb) hyb
    exact ⟨b, l, i, s, hreach, hl, hi, hs, hleads⟩

end Accumulator.Layout
