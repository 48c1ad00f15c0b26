import Mathlib
import Accumulator.Proofs.Made
import Accumulator.Proofs.Operands

/-!
# Orderly functions

What is known about a function that is built from a tree: blocks end in their only terminal
instruction, variables are those of the frame, values are used in the order of their computation
and before any call, and only branches use comparisons. Some blocks may still be open, to be filled
later.
-/

namespace Accumulator.Flow

/-- What is asked of an instruction apart from its operands: an operation that is one of `ops`, a
call of a function with a number of arguments that it may have by `arity`, and a return in no main
program. -/
def Payload.Suits (ops : Op → Prop) (arity : Nat → Nat → Prop) (isMain : Bool) : Payload → Prop
  | .alu op _ _ => ops op
  | .call k args => ∃ n : Nat, k = n ∧ arity n args.length
  | .ret => isMain = false
  | _ => True

lemma Payload.suits_rename {ops : Op → Prop} {arity : Nat → Nat → Prop} {isMain : Bool}
    {x : Payload} {σ : Id → Id} :
    (x.rename σ).Suits ops arity isMain ↔ x.Suits ops arity isMain := by
  cases x <;> simp [Payload.rename, Payload.withOperands, Payload.operands, Payload.Suits]

lemma Payload.Suits.mono {ops : Op → Prop} {arity arity' : Nat → Nat → Prop} {isMain : Bool}
    {x : Payload} (h : x.Suits ops arity isMain)
    (ha : ∀ n m, arity n m → arity' n m) : x.Suits ops arity' isMain := by
  cases x with
  | call k args =>
    obtain ⟨n, rfl, hn⟩ := h
    exact ⟨n, rfl, ha n _ hn⟩
  | alu op l r => exact h
  | ret => exact h
  | _ => trivial

/-- The operations that trees are made of. -/
def Op.isTree : Op → Bool
  | .shl | .shr | .unknown _ => false
  | _ => true

namespace Func

structure Orderly (arity : Nat → Nat → Prop) (opened : Set BlockId) (f : Func) : Prop where
  sound : Sound f
  framed : Framed f
  entry : (f.listing? f.entry).isSome
  opens : ∀ b ∈ opened, ∃ l, f.listing? b = some l ∧
    ∀ i ∈ l, ∀ x, f.live? i = some x → x.isTerminal = false
  closes : ∀ {b l}, f.listing? b = some l → b ∉ opened → f.Closes l
  targets : ∀ {u x}, f.live? u = some x → ∀ t ∈ x.targets, (f.listing? t).isSome
  suits : ∀ {u x}, f.live? u = some x → x.Suits (·.isTree) arity f.isMain
  unpaired : ∀ {u v}, f.live? u ≠ some (.loadPair v)
  named : ∀ {u x}, f.live? u = some x → ∀ v ∈ f.named x, v ∈ f.locals ++ f.params
  tests : ∀ {u x d y}, f.live? u = some x → d ∈ f.needs x → f.live? d = some y →
    y.compares = true → x.isBranchIf = true
  ready : ∀ {b pre u post x}, f.listing? b = some (pre ++ u :: post) → f.live? u = some x →
    (f.needs x).Sublist (f.avail pre)
  placed : ∀ {u x}, f.live? u = some x → x.asVar = none → ∃ b l, f.listing? b = some l ∧ u ∈ l
  alive : ∀ v ∈ f.locals ++ f.params, (f.live? v).isSome

lemma Orderly.mono {arity arity' : Nat → Nat → Prop} {opened : Set BlockId} {f : Func}
    (hf : Orderly arity opened f) (ha : ∀ n m, arity n m → arity' n m) :
    Orderly arity' opened f :=
  { hf with suits := fun hx => (hf.suits hx).mono ha }

/-- Two functions with the same name, entry and variables. -/
structure SameHead (f f' : Func) : Prop where
  name : f'.name = f.name
  isMain : f'.isMain = f.isMain
  entry : f'.entry = f.entry
  params : f'.params = f.params
  locals : f'.locals = f.locals

/-- A function with more instructions. -/
structure Extends (f f' : Func) : Prop where
  head : SameHead f f'
  live : ∀ {i x}, f.live? i = some x → f'.live? i = some x
  code : ∀ {b l}, f.listing? b = some l → ∃ m, f'.listing? b = some (l ++ m)
  vars : ∀ i, f'.varOf? i = f.varOf? i

variable {f f' f'' : Func}

lemma SameHead.trans (h : SameHead f f') (h' : SameHead f' f'') : SameHead f f'' :=
  ⟨h'.name.trans h.name, h'.isMain.trans h.isMain, h'.entry.trans h.entry,
    h'.params.trans h.params, h'.locals.trans h.locals⟩

lemma SameFrame.head (h : SameFrame f f') : SameHead f f' := by
  obtain ⟨slots, blocks, rfl⟩ := h
  exact ⟨rfl, rfl, rfl, rfl, rfl⟩

lemma Extends.refl (f : Func) : Extends f f :=
  ⟨⟨rfl, rfl, rfl, rfl, rfl⟩, fun h => h, fun {_ l} h => ⟨[], by rw [h, List.append_nil]⟩, fun _ => rfl⟩

lemma Extends.trans (h : Extends f f') (h' : Extends f' f'') : Extends f f'' := by
  refine ⟨h.head.trans h'.head, fun hx => h'.live (h.live hx), fun {b l} hl => ?_,
    fun i => (h'.vars i).trans (h.vars i)⟩
  obtain ⟨m, hm⟩ := h.code hl
  obtain ⟨n, hn⟩ := h'.code hm
  exact ⟨m ++ n, by rw [hn, List.append_assoc]⟩

lemma Extends.callers (f : Func) (sites : List CallSite) : Extends f { f with callers := sites } :=
  ⟨⟨rfl, rfl, rfl, rfl, rfl⟩, fun h => h, fun {_ l} h => ⟨[], by rw [List.append_nil]; exact h⟩,
    fun _ => rfl⟩

lemma Orderly.callers {arity : Nat → Nat → Prop} {opened : Set BlockId}
    (hf : Orderly arity opened f) (sites : List CallSite) :
    Orderly arity opened { f with callers := sites } :=
  ⟨hf.sound.congr (fun _ => rfl) fun _ => rfl, hf.framed, hf.entry, hf.opens,
    fun hl hb => (hf.closes hl hb).congr fun _ _ y hy => ⟨y, hy, rfl⟩, hf.targets, hf.suits,
    hf.unpaired, hf.named, hf.tests, hf.ready, hf.placed, hf.alive⟩

lemma size_ne_of_live {i : Id} {x : Payload} (h : f.live? i = some x) : i ≠ f.slots.size := by
  rintro rfl
  simp [live?, at?_size_eq_none] at h

lemma Sound.emit (hf : Sound f) (loc : Position) {b : BlockId} {l : List Id} {x : Payload}
    (hl : f.listing? b = some l) (hx : ∀ v, x ≠ .var v)
    (hops : ∀ d ∈ x.operands, (f.at? d).isSome) :
    ∃ f₁ f', f.new loc x = .ok ((f.slots.size : Int), f₁) ∧
      f₁.append b (f.slots.size : Int) = .ok f' ∧
      Becomes f f' (Function.update f.live? (f.slots.size : Int) (some x))
        (Function.update f.listing? b (some (l ++ [(f.slots.size : Int)]))) := by
  obtain ⟨f₁, hnew, -, hb₁⟩ := hf.new_becomes loc hx hops
  have hlive : f₁.live? (f.slots.size : Int) = some x := by
    rw [hb₁.live, Function.update_self]
  have hfree : ∀ c m, f₁.listing? c = some m → (f.slots.size : Int) ∉ m := by
    intro c m hm hmem
    rw [hb₁.code] at hm
    obtain ⟨y, hy, -⟩ := hf.live_of_mem hm hmem
    exact size_ne_of_live hy rfl
  obtain ⟨f', happend, -, hb₂⟩ := hb₁.sound.append_becomes hlive hx hfree ((hb₁.code b).trans hl)
  refine ⟨f₁, f', hnew, happend, (hb₁.trans hb₂).congr hb₁.live fun c => ?_⟩
  by_cases hc : c = b
  · subst hc
    simp
  · simp [Function.update_of_ne hc, hb₁.code]

lemma Becomes.extends {i : Id} {x : Payload} {b : BlockId} {l : List Id}
    (h : Becomes f f' (Function.update f.live? i (some x))
      (Function.update f.listing? b (some (l ++ [i]))))
    (hi : f.live? i = none) (hl : f.listing? b = some l) : Extends f f' := by
  refine ⟨h.frame.head, fun {j y} hj => ?_, fun {c m} hm => ?_, h.vars⟩
  · rw [h.live, Function.update_of_ne (by rintro rfl; simp [hi] at hj), hj]
  · rw [h.code]
    by_cases hc : c = b
    · subst hc
      rw [hl] at hm
      cases hm
      exact ⟨[i], by rw [Function.update_self]⟩
    · exact ⟨[], by rw [Function.update_of_ne hc, hm, List.append_nil]⟩

/-- Function `f'` is `f` with a new instruction `i` at the end of block `b`, whose code was `l`. -/
structure Appends (f : Func) (b : BlockId) (l : List Id) (i : Id) (x : Payload) (f' : Func) : Prop where
  ext : Extends f f'
  fresh : f.at? i = none
  here : f.listing? b = some l
  self : f'.live? i = some x
  code : f'.listing? b = some (l ++ [i])
  other : ∀ c, c ≠ b → f'.listing? c = f.listing? c
  cases : ∀ {u y}, f'.live? u = some y → (u = i ∧ y = x) ∨ f.live? u = some y

lemma Becomes.appends {i : Id} {x : Payload} {b : BlockId} {l : List Id}
    (h : Becomes f f' (Function.update f.live? i (some x))
      (Function.update f.listing? b (some (l ++ [i]))))
    (hi : f.at? i = none) (hl : f.listing? b = some l) : Appends f b l i x f' := by
  have hnone : f.live? i = none := by simp [live?, hi]
  refine ⟨h.extends hnone hl, hi, hl, by rw [h.live, Function.update_self],
    by rw [h.code, Function.update_self], fun c hc => by rw [h.code, Function.update_of_ne hc],
    fun {u y} hu => ?_⟩
  rw [h.live, Function.update_apply] at hu
  split at hu
  · next hui => exact Or.inl ⟨hui, (Option.some.inj hu).symm⟩
  · exact Or.inr hu

/-- What an instruction has to be like to be put behind some code. -/
structure Admits (arity : Nat → Nat → Prop) (f : Func) (code : List Id) (x : Payload) : Prop where
  plain : ∀ v, x ≠ .var v
  unpaired : ∀ v, x ≠ .loadPair v
  suits : x.Suits (·.isTree) arity f.isMain
  targets : ∀ t ∈ x.targets, (f.listing? t).isSome
  named : ∀ v ∈ f.named x, v ∈ f.locals ++ f.params
  needs : (f.needs x).Sublist (f.avail code)
  tests : ∀ d ∈ f.needs x, ∀ y, f.live? d = some y → y.compares = true → x.isBranchIf = true

section Emit

variable {arity : Nat → Nat → Prop} {opened : Set BlockId} {b : BlockId} {l : List Id} {x : Payload}

lemma Admits.operands (h : Admits arity f l x) (hf : Orderly arity opened f)
    (hl : f.listing? b = some l) : ∀ d ∈ x.operands, (f.at? d).isSome := by
  intro d hd
  rcases (f.mem_operands_iff).mp hd with hd | hd
  · have hmem := (f.avail_sublist l).subset (h.needs.subset hd)
    obtain ⟨y, hy, -⟩ := hf.sound.live_of_mem hl hmem
    exact at?_isSome_of_live hy
  · exact at?_of_varOf? (hf.framed d (h.named d hd))

namespace Appends

variable {i : Id} (h : Appends f b l i x f') (hf : Orderly arity opened f)

include h

lemma isSome {t : BlockId} (ht : (f.listing? t).isSome) : (f'.listing? t).isSome := by
  obtain ⟨m, hm⟩ := Option.isSome_iff_exists.mp ht
  obtain ⟨m', hm'⟩ := h.ext.code hm
  rw [hm']
  rfl

lemma needs_eq (y : Payload) : f'.needs y = f.needs y := needs_congr fun d _ => h.ext.vars d

lemma live_of_at {d : Id} {y : Payload} (hd : (f.at? d).isSome) (hy : f'.live? d = some y) :
    f.live? d = some y := by
  rcases h.cases hy with ⟨rfl, -⟩ | hy
  · simp [h.fresh] at hd
  · exact hy

include hf

lemma live_eq {c : BlockId} {m : List Id} (hm : f.listing? c = some m) :
    ∀ j ∈ m, f'.live? j = f.live? j := by
  intro j hj
  obtain ⟨y, hy, -⟩ := hf.sound.live_of_mem hm hj
  rw [h.ext.live hy, hy]

lemma before (hb : b ∈ opened) {j : Id} (hj : j ∈ l) :
    ∃ y, f.live? j = some y ∧ y.isTerminal = false := by
  obtain ⟨m, hm, hplain⟩ := hf.opens b hb
  obtain rfl : l = m := Option.some.inj (h.here.symm.trans hm)
  obtain ⟨y, hy, -⟩ := hf.sound.live_of_mem hm hj
  exact ⟨y, hy, hplain j hj y hy⟩

lemma opens (hb : b ∈ opened) {c : BlockId}
    (hc : c ∈ if x.isTerminal then opened \ {b} else opened) :
    ∃ m, f'.listing? c = some m ∧ ∀ j ∈ m, ∀ y, f'.live? j = some y → y.isTerminal = false := by
  by_cases hcb : c = b
  · subst hcb
    refine ⟨_, h.code, fun j hj y hy => ?_⟩
    rcases List.mem_append.mp hj with hj | hj
    · obtain ⟨z, hz, hplain⟩ := h.before hf hb hj
      obtain rfl := Option.some.inj ((h.ext.live hz).symm.trans hy)
      exact hplain
    · obtain rfl := List.mem_singleton.mp hj
      obtain rfl := Option.some.inj (h.self.symm.trans hy)
      cases hterm : x.isTerminal with
      | false => rfl
      | true => simp [hterm] at hc
  · have hc' : c ∈ opened := by
      split at hc
      · exact hc.1
      · exact hc
    obtain ⟨m, hm, hplain⟩ := hf.opens c hc'
    exact ⟨m, by rw [h.other c hcb, hm],
      fun j hj y hy => hplain j hj y (by rw [← h.live_eq hf hm j hj, hy])⟩

lemma closes (hb : b ∈ opened) {c : BlockId} {m : List Id} (hm : f'.listing? c = some m)
    (hc : c ∉ if x.isTerminal then opened \ {b} else opened) : f'.Closes m := by
  by_cases hcb : c = b
  · subst hcb
    have hterm : x.isTerminal = true := by
      cases hterm : x.isTerminal with
      | true => rfl
      | false => simp [hterm, hb] at hc
    obtain rfl := Option.some.inj (h.code.symm.trans hm)
    rw [closes_append (by simp)]
    refine ⟨fun j hj => ?_, x, h.self, hterm⟩
    obtain ⟨y, hy, hplain⟩ := h.before hf hb hj
    exact ⟨y, h.ext.live hy, hplain⟩
  · rw [h.other c hcb] at hm
    have hc' : c ∉ opened := by
      intro hmem
      split at hc
      · exact hc ⟨hmem, hcb⟩
      · exact hc hmem
    exact (hf.closes hm hc').congr fun j _ y hy => ⟨y, h.ext.live hy, rfl⟩

variable (hx : Admits arity f l x)

include hx

lemma tests {u d : Id} {y z : Payload} (hu : f'.live? u = some y) (hd : d ∈ f'.needs y)
    (hz : f'.live? d = some z) (hcmp : z.compares = true) : y.isBranchIf = true := by
  rw [h.needs_eq] at hd
  have hop : d ∈ y.operands := (f.mem_operands_iff).mpr (Or.inl hd)
  rcases h.cases hu with ⟨rfl, rfl⟩ | hu
  · exact hx.tests d hd z (h.live_of_at (hx.operands hf h.here d hop) hz) hcmp
  · exact hf.tests hu hd (h.live_of_at (hf.sound.operands hu d hop) hz) hcmp

lemma ready {c : BlockId} {pre post : List Id} {u : Id} {y : Payload}
    (hc : f'.listing? c = some (pre ++ u :: post)) (hu : f'.live? u = some y) :
    (f'.needs y).Sublist (f'.avail pre) := by
  rw [h.needs_eq]
  have hold : ∀ {c post}, f.listing? c = some (pre ++ u :: post) →
      (f.needs y).Sublist (f'.avail pre) := by
    intro c post hm
    rw [avail_congr fun j hj => h.live_eq hf hm j (by simp [hj])]
    exact hf.ready hm (by rw [← h.live_eq hf hm u (by simp), hu])
  by_cases hcb : c = b
  · subst hcb
    have heq : l ++ [i] = pre ++ u :: post := Option.some.inj (h.code.symm.trans hc)
    rcases List.eq_nil_or_concat post with rfl | ⟨post, w, rfl⟩
    · obtain ⟨rfl, hiu⟩ := List.append_inj' heq rfl
      obtain rfl : i = u := by simpa using hiu
      obtain rfl := Option.some.inj (h.self.symm.trans hu)
      rw [avail_congr fun j hj => h.live_eq hf h.here j hj]
      exact hx.needs
    · rw [List.concat_eq_append, ← List.cons_append, ← List.append_assoc] at heq
      obtain ⟨rfl, -⟩ := List.append_inj' heq rfl
      exact hold h.here
  · rw [h.other c hcb] at hc
    exact hold hc

/-- An orderly function stays so when a fitting instruction is put at the end of an open block. The
block is closed if the instruction is terminal. -/
lemma orderly (hb : b ∈ opened) (hsound : Sound f') (hframed : Framed f') :
    Orderly arity (if x.isTerminal then opened \ {b} else opened) f' where
  sound := hsound
  framed := hframed
  entry := by
    rw [h.ext.head.entry]
    exact h.isSome hf.entry
  opens c hc := h.opens hf hb hc
  closes hm hc := h.closes hf hb hm hc
  targets {u y} hu t ht := by
    rcases h.cases hu with ⟨rfl, rfl⟩ | hu
    · exact h.isSome (hx.targets t ht)
    · exact h.isSome (hf.targets hu t ht)
  suits {u y} hu := by
    rw [h.ext.head.isMain]
    rcases h.cases hu with ⟨rfl, rfl⟩ | hu
    · exact hx.suits
    · exact hf.suits hu
  unpaired {u v} hu := by
    rcases h.cases hu with ⟨rfl, hpair⟩ | hu
    · exact hx.unpaired v hpair.symm
    · exact hf.unpaired hu
  named {u y} hu v hv := by
    rw [h.ext.head.locals, h.ext.head.params]
    rw [named_congr fun d _ => h.ext.vars d] at hv
    rcases h.cases hu with ⟨rfl, rfl⟩ | hu
    · exact hx.named v hv
    · exact hf.named hu v hv
  tests hu hd hz hcmp := h.tests hf hx hu hd hz hcmp
  ready hc hu := h.ready hf hx hc hu
  placed {u y} hu hy := by
    rcases h.cases hu with ⟨rfl, -⟩ | hu
    · exact ⟨b, _, h.code, by simp⟩
    · obtain ⟨c, m, hm, hmem⟩ := hf.placed hu hy
      obtain ⟨m', hm'⟩ := h.ext.code hm
      exact ⟨c, _, hm', by simp [hmem]⟩
  alive v hv := by
    rw [h.ext.head.locals, h.ext.head.params] at hv
    obtain ⟨y, hy⟩ := Option.isSome_iff_exists.mp (hf.alive v hv)
    rw [h.ext.live hy]
    rfl

end Appends

lemma Orderly.emit (hf : Orderly arity opened f) (loc : Position) (hb : b ∈ opened)
    (hl : f.listing? b = some l) (hx : Admits arity f l x) :
    ∃ f₁ f', f.new loc x = .ok ((f.slots.size : Int), f₁) ∧
      f₁.append b (f.slots.size : Int) = .ok f' ∧ Extends f f' ∧
      f'.live? (f.slots.size : Int) = some x ∧
      f'.listing? b = some (l ++ [(f.slots.size : Int)]) ∧
      (∀ c, c ≠ b → f'.listing? c = f.listing? c) ∧
      Orderly arity (if x.isTerminal then opened \ {b} else opened) f' := by
  obtain ⟨f₁, f', hnew, happend, hbec⟩ := hf.sound.emit loc hl hx.plain (hx.operands hf hl)
  have h := hbec.appends (at?_size_eq_none f) hl
  exact ⟨f₁, f', hnew, happend, h.ext, h.self, h.code, h.other,
    h.orderly hf hx hb hbec.sound (hbec.framed hf.framed)⟩

end Emit

lemma listing?_size_eq_none (f : Func) : f.listing? (f.blocks.size : Int) = none := by
  rw [listing?_eq]
  simp

lemma Orderly.newBlock {arity : Nat → Nat → Prop} {opened : Set BlockId}
    (hf : Orderly arity opened f) :
    (f.blocks.size : Int) ∉ opened ∧ Extends f f.newBlock.2 ∧
      f.newBlock.2.listing? (f.blocks.size : Int) = some [] ∧
      Orderly arity (insert (f.blocks.size : Int) opened) f.newBlock.2 := by
  have hcode : ∀ {b l}, f.listing? b = some l → f.newBlock.2.listing? b = some l := by
    intro b l hl
    rw [listing?_newBlock, if_neg, hl]
    rintro rfl
    simp [listing?_size_eq_none] at hl
  have hcases : ∀ {b l}, f.newBlock.2.listing? b = some l →
      (b = f.blocks.size ∧ l = []) ∨ f.listing? b = some l := by
    intro b l hl
    rw [listing?_newBlock] at hl
    split at hl
    · exact Or.inl ⟨by assumption, (Option.some.inj hl).symm⟩
    · exact Or.inr hl
  have hsome : ∀ {b}, (f.listing? b).isSome → (f.newBlock.2.listing? b).isSome := by
    intro b h
    obtain ⟨l, hl⟩ := Option.isSome_iff_exists.mp h
    rw [hcode hl]
    rfl
  have hnew : f.newBlock.2.listing? (f.blocks.size : Int) = some [] := by
    rw [listing?_newBlock, if_pos rfl]
  have hfresh : (f.blocks.size : Int) ∉ opened := by
    intro h
    obtain ⟨l, hl, -⟩ := hf.opens _ h
    simp [listing?_size_eq_none] at hl
  refine ⟨hfresh, ⟨⟨rfl, rfl, rfl, rfl, rfl⟩, fun h => h, fun {b l} hl => ⟨[], ?_⟩, fun _ => rfl⟩, hnew,
    ⟨hf.sound.newBlock, hf.framed, hsome hf.entry, ?_, ?_, fun hu t ht => hsome (hf.targets hu t ht),
      hf.suits, hf.unpaired, hf.named, hf.tests, ?_, ?_, hf.alive⟩⟩
  · rw [hcode hl, List.append_nil]
  · intro b hb
    rcases hb with rfl | hb
    · exact ⟨[], hnew, by simp⟩
    · obtain ⟨l, hl, hplain⟩ := hf.opens b hb
      exact ⟨l, hcode hl, hplain⟩
  · intro b l hl hb
    rcases hcases hl with ⟨rfl, -⟩ | hl
    · exact absurd (Or.inl rfl) hb
    · exact (hf.closes hl fun h => hb (Or.inr h)).congr fun i _ y hy => ⟨y, hy, rfl⟩
  · intro b pre u post x hl hu
    rcases hcases hl with ⟨-, h⟩ | hl
    · simp at h
    · exact hf.ready hl hu
  · intro u x hu hx
    obtain ⟨c, l, hl, hmem⟩ := hf.placed hu hx
    exact ⟨c, l, hcode hl, hmem⟩

end Func

end Accumulator.Flow
