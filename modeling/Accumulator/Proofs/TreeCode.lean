import Mathlib
import Accumulator.Tree.Build
import Accumulator.Proofs.Orderly

/-!
# The code of trees

How the code of a function follows the tree that it is built from. Nothing here depends on how the
code got there, and all of it stays true when the function grows.
-/

namespace Accumulator.Tree

open Accumulator.Flow (Id BlockId Payload)
open Accumulator.Flow.Func (Extends)

variable {c : Scope} {f f' : Flow.Func}

/-- The block begins with the given code. -/
def Within (f : Flow.Func) (b : BlockId) (code : List Id) : Prop :=
  ∃ rest, f.listing? b = some (code ++ rest)

namespace Scope

/-- The instruction that reads a variable. -/
def loading (c : Scope) (ref : Ref) (v : Id) : Payload :=
  if c.isRef ref then .loadIndirect v else .load v

/-- The instruction that takes the address of an element. -/
def locating (c : Scope) (ref : Ref) (v i : Id) : Payload :=
  if c.isRef ref then .elemAddrIndirect v i else .elemAddr v i

/-- The instruction that writes to a variable. -/
def storing (c : Scope) (ref : Ref) (v i : Id) : Payload :=
  if c.isRef ref then .storeIndirect v i else .store v i

end Scope

/-- Code that computes a value, and the instruction that has it. -/
inductive Computes (c : Scope) (f : Flow.Func) : Expr → List Id → Id → Prop where
  | number {pos : Position} {v : UInt64} {i : Id} :
    f.live? i = some (.const v) → Computes c f (.number pos v) [i] i
  | ident {pos : Position} {ref : Ref} {v i : Id} :
    c.slotOf ref = .ok v → f.live? i = some (c.loading ref v) →
    Computes c f (.ident pos ref) [i] i
  | index {pos : Position} {ref : Ref} {offset : Expr} {v j a i : Id} {ids : List Id} :
    Computes c f offset ids j → c.slotOf ref = .ok v → f.live? a = some (c.locating ref v j) →
    f.live? i = some (.load a) → Computes c f (.index pos ref offset) (ids ++ [a, i]) i
  | binary {pos : Position} {op : Op} {l r : Expr} {op' : Flow.Op} {x y i : Id}
    {ids ids' : List Id} :
    op.isRelational = false → op.toFlow? = some op' → Computes c f r ids y →
    Computes c f l ids' x → f.live? i = some (.alu op' x y) →
    Computes c f (.binary pos op l r) (ids ++ ids' ++ [i]) i

/-- Code that computes a condition. -/
inductive Tests (c : Scope) (f : Flow.Func) : Expr → List Id → Id → Prop where
  | compare {pos : Position} {op : Op} {l r : Expr} {op' : Flow.Op} {x y i : Id}
    {ids ids' : List Id} :
    op.isRelational = true → op.toFlow? = some op' → Computes c f r ids y →
    Computes c f l ids' x → f.live? i = some (.alu op' x y) →
    Tests c f (.binary pos op l r) (ids ++ ids' ++ [i]) i
  | value {e : Expr} {ids : List Id} {i : Id} : Computes c f e ids i → Tests c f e ids i

/-- Code that finds what is assigned to: a variable of the frame, or an address. -/
inductive Locates (c : Scope) (f : Flow.Func) : Expr → List Id → Id → Prop where
  | frame {pos : Position} {ref : Ref} {v : Id} :
    c.isRef ref = false → c.slotOf ref = .ok v → Locates c f (.ident pos ref) [] v
  | reference {pos : Position} {ref : Ref} {v i : Id} :
    c.isRef ref = true → c.slotOf ref = .ok v → f.live? i = some (.load v) →
    Locates c f (.ident pos ref) [i] i
  | index {pos : Position} {ref : Ref} {offset : Expr} {v j a : Id} {ids : List Id} :
    Computes c f offset ids j → c.slotOf ref = .ok v → f.live? a = some (c.locating ref v j) →
    Locates c f (.index pos ref offset) (ids ++ [a]) a

/-- Code of statements, from a point behind code `l` of block `b` to one behind `l'` of `b'`. -/
inductive Flows (c : Scope) (f : Flow.Func) :
    List Stmt → BlockId → List Id → BlockId → List Id → Prop where
  | nil {b : BlockId} {l : List Id} : Flows c f [] b l b l
  | assign {pos : Position} {dst src : Expr} {rest : List Stmt} {b b' : BlockId}
    {l l' ids ids' : List Id} {d s i : Id} :
    Locates c f dst ids d → Computes c f src ids' s → f.live? i = some (.store d s) →
    Within f b (l ++ (ids ++ ids' ++ [i])) → Flows c f rest b (l ++ (ids ++ ids' ++ [i])) b' l' →
    Flows c f (.assign pos dst src :: rest) b l b' l'
  | readIdent {pos pos' : Position} {ref : Ref} {rest : List Stmt} {b b' : BlockId}
    {l l' : List Id} {v r i : Id} :
    c.slotOf ref = .ok v → f.live? r = some .read → f.live? i = some (c.storing ref v r) →
    Within f b (l ++ [r, i]) → Flows c f rest b (l ++ [r, i]) b' l' →
    Flows c f (.read pos (.ident pos' ref) :: rest) b l b' l'
  | readIndex {pos pos' : Position} {ref : Ref} {offset : Expr} {rest : List Stmt}
    {b b' : BlockId} {l l' ids : List Id} {d r i : Id} :
    Locates c f (.index pos' ref offset) ids d → f.live? r = some .read →
    f.live? i = some (.store d r) → Within f b (l ++ (ids ++ [r, i])) →
    Flows c f rest b (l ++ (ids ++ [r, i])) b' l' →
    Flows c f (.read pos (.index pos' ref offset) :: rest) b l b' l'
  | write {pos : Position} {src : Expr} {rest : List Stmt} {b b' : BlockId} {l l' ids : List Id}
    {s i : Id} :
    Computes c f src ids s → f.live? i = some (.write s) → Within f b (l ++ (ids ++ [i])) →
    Flows c f rest b (l ++ (ids ++ [i])) b' l' → Flows c f (.write pos src :: rest) b l b' l'
  | call {pos : Position} {k : Nat} {args : List Expr} {rest : List Stmt} {b b' : BlockId}
    {l l' ids : List Id} {i : Id} :
    args.mapM c.argument = .ok ids → f.live? i = some (.call k ids) → Within f b (l ++ [i]) →
    Flows c f rest b (l ++ [i]) b' l' → Flows c f (.call pos (some k) args :: rest) b l b' l'
  | choose {pos : Position} {cond : Expr} {yes no rest : List Stmt}
    {b b' b₁ b₂ thenTo elseTo merge : BlockId} {l l' l₁ l₂ ids : List Id} {t i i₁ i₂ : Id} :
    Tests c f cond ids t → f.live? i = some (.branchIf .positive t thenTo elseTo) →
    Within f b (l ++ (ids ++ [i])) → Flows c f yes thenTo [] b₁ l₁ →
    f.live? i₁ = some (.branch merge) → Within f b₁ (l₁ ++ [i₁]) → Flows c f no elseTo [] b₂ l₂ →
    f.live? i₂ = some (.branch merge) → Within f b₂ (l₂ ++ [i₂]) → Flows c f rest merge [] b' l' →
    Flows c f (.choose pos cond yes no :: rest) b l b' l'
  | loop {pos : Position} {cond : Expr} {body rest : List Stmt}
    {b b' b₁ head inside merge : BlockId} {l l' l₁ ids : List Id} {t i i₁ i₂ : Id} :
    f.live? i = some (.branch head) → Within f b (l ++ [i]) → Tests c f cond ids t →
    f.live? i₁ = some (.branchIf .positive t inside merge) → Within f head (ids ++ [i₁]) →
    Flows c f body inside [] b₁ l₁ → f.live? i₂ = some (.branch head) → Within f b₁ (l₁ ++ [i₂]) →
    Flows c f rest merge [] b' l' → Flows c f (.loop pos cond body :: rest) b l b' l'
  | untilLoop {pos : Position} {cond : Expr} {body rest : List Stmt}
    {b b' b₁ inside merge : BlockId} {l l' l₁ ids : List Id} {t i i₁ : Id} :
    f.live? i = some (.branch inside) → Within f b (l ++ [i]) → Flows c f body inside [] b₁ l₁ →
    Tests c f cond ids t → f.live? i₁ = some (.branchIf .positive t merge inside) →
    Within f b₁ (l₁ ++ (ids ++ [i₁])) → Flows c f rest merge [] b' l' →
    Flows c f (.untilLoop pos body cond :: rest) b l b' l'

lemma Within.mono {b : BlockId} {code : List Id} (hf : Extends f f') (h : Within f b code) :
    Within f' b code := by
  obtain ⟨rest, hrest⟩ := h
  obtain ⟨more, hmore⟩ := hf.code hrest
  exact ⟨rest ++ more, by rw [hmore, List.append_assoc]⟩

lemma Computes.mono {e : Expr} {ids : List Id} {i : Id} (hf : Extends f f')
    (h : Computes c f e ids i) : Computes c f' e ids i := by
  induction h with
  | number h => exact .number (hf.live h)
  | ident hv h => exact .ident hv (hf.live h)
  | index _ hv ha hi ih => exact .index ih hv (hf.live ha) (hf.live hi)
  | binary hrel hop _ _ hi ihr ihl => exact .binary hrel hop ihr ihl (hf.live hi)

lemma Tests.mono {e : Expr} {ids : List Id} {i : Id} (hf : Extends f f')
    (h : Tests c f e ids i) : Tests c f' e ids i := by
  cases h with
  | compare hrel hop hr hl hi => exact .compare hrel hop (hr.mono hf) (hl.mono hf) (hf.live hi)
  | value h => exact .value (h.mono hf)

lemma Locates.mono {e : Expr} {ids : List Id} {i : Id} (hf : Extends f f')
    (h : Locates c f e ids i) : Locates c f' e ids i := by
  cases h with
  | frame href hv => exact .frame href hv
  | reference href hv h => exact .reference href hv (hf.live h)
  | index ho hv ha => exact .index (ho.mono hf) hv (hf.live ha)

lemma Flows.mono {ss : List Stmt} {b b' : BlockId} {l l' : List Id} (hf : Extends f f')
    (h : Flows c f ss b l b' l') : Flows c f' ss b l b' l' := by
  induction h with
  | nil => exact .nil
  | assign hd hs hi hw _ ih => exact .assign (hd.mono hf) (hs.mono hf) (hf.live hi) (hw.mono hf) ih
  | readIdent hv hr hi hw _ ih => exact .readIdent hv (hf.live hr) (hf.live hi) (hw.mono hf) ih
  | readIndex hd hr hi hw _ ih =>
    exact .readIndex (hd.mono hf) (hf.live hr) (hf.live hi) (hw.mono hf) ih
  | write hs hi hw _ ih => exact .write (hs.mono hf) (hf.live hi) (hw.mono hf) ih
  | call hargs hi hw _ ih => exact .call hargs (hf.live hi) (hw.mono hf) ih
  | choose ht hi hw _ h₁ hw₁ _ h₂ hw₂ _ ihyes ihno ih =>
    exact .choose (ht.mono hf) (hf.live hi) (hw.mono hf) ihyes (hf.live h₁) (hw₁.mono hf) ihno
      (hf.live h₂) (hw₂.mono hf) ih
  | loop hi hw ht h₁ hw₁ _ h₂ hw₂ _ ihbody ih =>
    exact .loop (hf.live hi) (hw.mono hf) (ht.mono hf) (hf.live h₁) (hw₁.mono hf) ihbody
      (hf.live h₂) (hw₂.mono hf) ih
  | untilLoop hi hw _ ht h₁ hw₁ _ ihbody ih =>
    exact .untilLoop (hf.live hi) (hw.mono hf) ihbody (ht.mono hf) (hf.live h₁) (hw₁.mono hf) ih

lemma Flows.append {s : Stmt} {ss : List Stmt} {b b' b'' : BlockId} {l l' l'' : List Id}
    (h : Flows c f [s] b l b' l') (h' : Flows c f ss b' l' b'' l'') :
    Flows c f (s :: ss) b l b'' l'' := by
  cases h with
  | assign hd hs hi hw hnil => cases hnil; exact .assign hd hs hi hw h'
  | readIdent hv hr hi hw hnil => cases hnil; exact .readIdent hv hr hi hw h'
  | readIndex hd hr hi hw hnil => cases hnil; exact .readIndex hd hr hi hw h'
  | write hs hi hw hnil => cases hnil; exact .write hs hi hw h'
  | call hargs hi hw hnil => cases hnil; exact .call hargs hi hw h'
  | choose ht hi hw hyes h₁ hw₁ hno h₂ hw₂ hnil =>
    cases hnil
    exact .choose ht hi hw hyes h₁ hw₁ hno h₂ hw₂ h'
  | loop hi hw ht h₁ hw₁ hbody h₂ hw₂ hnil =>
    cases hnil
    exact .loop hi hw ht h₁ hw₁ hbody h₂ hw₂ h'
  | untilLoop hi hw hbody ht h₁ hw₁ hnil => cases hnil; exact .untilLoop hi hw hbody ht h₁ hw₁ h'

/-- A value of the code of an expression: it is no comparison. -/
def Plain (f : Flow.Func) (i : Id) : Prop :=
  ∃ x, f.live? i = some x ∧ x.produces = true ∧ x.compares = false

lemma Op.isRelational_toFlow? {op : Op} {op' : Flow.Op} (h : op.toFlow? = some op') :
    op'.isRelational = op.isRelational ∧ op'.isTree = true := by
  cases op <;> simp [Op.toFlow?] at h <;> subst h <;> decide

lemma Scope.loading_plain (c : Scope) (ref : Ref) (v : Id) :
    (c.loading ref v).produces = true ∧ (c.loading ref v).compares = false := by
  unfold Scope.loading
  split <;> exact ⟨rfl, rfl⟩

lemma Scope.locating_plain (c : Scope) (ref : Ref) (v i : Id) :
    (c.locating ref v i).produces = true ∧ (c.locating ref v i).compares = false := by
  unfold Scope.locating
  split <;> exact ⟨rfl, rfl⟩

lemma Computes.plain {e : Expr} {ids : List Id} {i : Id} (h : Computes c f e ids i) :
    i ∈ ids ∧ ∀ j ∈ ids, Plain f j := by
  induction h with
  | number h => exact ⟨by simp, by simpa using ⟨_, h, rfl, rfl⟩⟩
  | ident _ h => exact ⟨by simp, by simpa using ⟨_, h, c.loading_plain _ _⟩⟩
  | index _ _ ha hi ih =>
    refine ⟨by simp, fun j hj => ?_⟩
    simp only [List.mem_append, List.mem_cons, List.not_mem_nil, or_false] at hj
    rcases hj with hj | rfl | rfl
    · exact ih.2 j hj
    · exact ⟨_, ha, c.locating_plain _ _ _⟩
    · exact ⟨_, hi, rfl, rfl⟩
  | binary hrel hop _ _ hi ihr ihl =>
    refine ⟨by simp, fun j hj => ?_⟩
    simp only [List.mem_append, List.mem_singleton] at hj
    rcases hj with (hj | hj) | rfl
    · exact ihr.2 j hj
    · exact ihl.2 j hj
    · exact ⟨_, hi, rfl, (Op.isRelational_toFlow? hop).1.trans hrel⟩

lemma Tests.produces {e : Expr} {ids : List Id} {t : Id} (h : Tests c f e ids t) :
    t ∈ ids ∧ ∀ j ∈ ids, ∃ x, f.live? j = some x ∧ x.produces = true := by
  cases h with
  | value h => exact ⟨h.plain.1, fun j hj => (h.plain.2 j hj).imp fun x hx => ⟨hx.1, hx.2.1⟩⟩
  | compare _ _ hr hl hi =>
    refine ⟨by simp, fun j hj => ?_⟩
    simp only [List.mem_append, List.mem_singleton] at hj
    rcases hj with (hj | hj) | rfl
    · exact (hr.plain.2 j hj).imp fun x hx => ⟨hx.1, hx.2.1⟩
    · exact (hl.plain.2 j hj).imp fun x hx => ⟨hx.1, hx.2.1⟩
    · exact ⟨_, hi, rfl⟩

lemma Locates.plain {e : Expr} {ids : List Id} {d : Id} (h : Locates c f e ids d) :
    ∀ j ∈ ids, Plain f j := by
  cases h with
  | frame => simp
  | reference _ _ h => simpa using ⟨_, h, rfl, rfl⟩
  | index ho _ ha =>
    intro j hj
    rcases List.mem_append.mp hj with hj | hj
    · exact ho.plain.2 j hj
    · obtain rfl := List.mem_singleton.mp hj
      exact ⟨_, ha, c.locating_plain _ _ _⟩

end Accumulator.Tree
