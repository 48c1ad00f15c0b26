import Mathlib
import Accumulator.Proofs.LayingOut

/-!
# The length of code

How many machine instructions a program has. The code of a flow instruction has a fixed number of
them, but for those that build addresses: putting a number into a register takes an instruction for
every bit, and one more for every bit that is set. So the length of a program is a sum over its flow
instructions that depends on the layout only through the prices of addresses.
-/

namespace Accumulator.Layout

open Accumulator.Flow (Id BlockId Payload)

variable {p : Flow.Program} {frames : Frames} {f f' : Flow.Func} {c : Context} {x : Payload}
  {b : BlockId} {v : Id} {items : List Item}

/-- The number of instructions that put a number into a register. -/
def constantLength (k : UInt64) : Nat := (constant k .a).length

lemma length_bitsOf (r r' : Machine.Reg) (n : Nat) :
    (bitsOf r n).length = (bitsOf r' n).length := by
  induction n using Nat.strongRecOn with
  | ind n ih =>
    rw [bitsOf.eq_def r, bitsOf.eq_def r']
    by_cases hn : n = 0
    · simp [hn]
    · have hhalf := ih (n / 2) (by omega)
      simp only [hn, dite_false, List.length_append]
      split <;> split <;> simp [hhalf]

@[simp] lemma length_constant (k : UInt64) (r : Machine.Reg) :
    (constant k r).length = constantLength k := by
  simp [constantLength, constant, length_bitsOf r .a]

/-- What the addresses in the code of a function cost: the instructions that put the address of a
variable or of the return cell into a register, and all those of a call. -/
structure Prices where
  var : Id → Nat
  ret : Nat
  call : Int → List Id → Nat

namespace Prices

/-- The length of the code of an instruction. -/
def piece (π : Prices) (f : Flow.Func) : Payload → Nat
  | .var _ => 0
  | .const k => constantLength k
  | .elemAddr v _ => π.var v + 1
  | .elemAddrIndirect v _ => π.var v + 3
  | .store dst _ => if (f.varOf? dst).isSome then π.var dst + 1 else 1
  | .storeIndirect dst _ => π.var dst + 5
  | .load src => if (f.varOf? src).isSome then π.var src + 2 else 1
  | .loadIndirect src => π.var src + 3
  | .loadPair src => π.var src + 4
  | .alu op _ _ => ((arithmetic op).toOption.map List.length).getD 0
  | .stop => 1
  | .ret => π.ret + 4
  | .call callee args => π.call callee args
  | .branch _ => 1
  | .branchIf _ _ _ _ => 2
  | .read => 2
  | .write _ => 1

/-- The length of the code of a slot, none if it was erased. -/
def slot (π : Prices) (f : Flow.Func) (i : Id) : Nat := ((f.live? i).map (π.piece f)).getD 0

/-- The length of the code of a list of instructions. -/
def code (π : Prices) (f : Flow.Func) (l : List Id) : Nat := (l.map (π.slot f)).sum

/-- The length of the code of a block. -/
def block (π : Prices) (f : Flow.Func) (b : BlockId) : Nat :=
  ((f.listing? b).map (π.code f)).getD 0

/-- Nothing costs more. -/
structure AtMost (π' π : Prices) : Prop where
  var : ∀ v, π'.var v ≤ π.var v
  ret : π'.ret ≤ π.ret
  call : ∀ k args, π'.call k args ≤ π.call k args

variable {π π' : Prices} {i : Id} {l l' : List Id}

lemma slot_eq (π : Prices) (h : f.live? i = some x) : π.slot f i = π.piece f x := by
  rw [slot, h, Option.map_some, Option.getD_some]

lemma block_eq (π : Prices) (h : f.listing? b = some l) : π.block f b = π.code f l := by
  rw [block, h, Option.map_some, Option.getD_some]

@[simp] lemma code_nil : π.code f [] = 0 := rfl

@[simp] lemma code_cons : π.code f (i :: l) = π.slot f i + π.code f l := by
  simp [code]

@[simp] lemma code_append : π.code f (l ++ l') = π.code f l + π.code f l' := by
  simp [code]

lemma piece_congr (h : ∀ d, f'.varOf? d = f.varOf? d) : π.piece f' x = π.piece f x := by
  cases x <;> simp only [piece, h]

lemma piece_rename {σ : Id → Id}
    (hvars : ∀ d ∈ x.operands, (f'.varOf? (σ d)).isSome = (f.varOf? d).isSome)
    (hnamed : ∀ d ∈ f.named x, σ d = d) : π.piece f' (x.rename σ) = π.piece f x := by
  cases x with
  | elemAddr v _ | elemAddrIndirect v _ | storeIndirect v _ | loadIndirect v | loadPair v =>
    have hv : σ v = v := hnamed v (by simp [Flow.Func.named])
    simp only [Payload.rename, Payload.operands, List.map, Payload.withOperands, piece, hv]
  | store v _ | load v =>
    have hkind := hvars v (by simp [Payload.operands])
    simp only [Payload.rename, Payload.operands, List.map, Payload.withOperands, piece, hkind]
    split
    · rw [hnamed v (by simp [Flow.Func.named, *])]
    · rfl
  | call k args =>
    have hargs : args.map σ = args := by
      conv_rhs => rw [← List.map_id args]
      exact List.map_congr_left hnamed
    simp only [Payload.rename, Payload.operands, Payload.withOperands, piece, hargs]
  | _ => rfl

lemma slot_congr (hvars : ∀ d, f'.varOf? d = f.varOf? d) (h : f'.live? i = f.live? i) :
    π.slot f' i = π.slot f i := by
  rw [slot, slot, h]
  cases f.live? i with
  | none => rfl
  | some x => exact piece_congr hvars

lemma code_congr (h : ∀ i ∈ l, π.slot f' i = π.slot f i) : π.code f' l = π.code f l := by
  rw [code, code, List.map_congr_left h]

lemma AtMost.piece (h : AtMost π' π) (x : Payload) : π'.piece f x ≤ π.piece f x := by
  cases x with
  | elemAddr v _ | elemAddrIndirect v _ | storeIndirect v _ | loadIndirect v | loadPair v =>
    exact Nat.add_le_add_right (h.var v) _
  | store v _ | load v =>
    simp only [Prices.piece]
    split
    · exact Nat.add_le_add_right (h.var v) _
    · exact le_rfl
  | ret => exact Nat.add_le_add_right h.ret _
  | call k args => exact h.call k args
  | _ => exact le_rfl

lemma AtMost.block (h : AtMost π' π) (b : BlockId) : π'.block f b ≤ π.block f b := by
  cases hl : f.listing? b with
  | none => simp [Prices.block, hl]
  | some l =>
    rw [π.block_eq hl, π'.block_eq hl]
    refine List.sum_le_sum fun i _ => ?_
    cases hx : f.live? i with
    | none => simp [slot, hx]
    | some x =>
      rw [π.slot_eq hx, π'.slot_eq hx]
      exact h.piece x

end Prices

namespace Context

/-- The prices of a function in its program. What has no code costs nothing. -/
def prices (c : Context) : Prices where
  var v := ((c.frames.cells c.number v).toOption.map fun a => constantLength a.addr.toUInt64).getD 0
  ret := (c.ret.map fun a => constantLength a.addr.toUInt64).getD 0
  call k args := ((c.call k args).toOption.map List.length).getD 0

lemma length_address {r : Machine.Reg} (h : c.address v r = .ok items) :
    items.length = c.prices.var v := by
  rw [address, bind_eq_ok] at h
  obtain ⟨cells, hcells, h⟩ := h
  cases h
  simp [prices, hcells, Except.toOption]

lemma length_select (h : c.select x = .ok items) (hop : ∀ d ∈ x.operands, (c.func.at? d).isSome) :
    items.length = c.prices.piece c.func x := by
  have hvar : ∀ {d}, d ∈ x.operands → c.func.var? d = .ok (c.func.varOf? d) :=
    fun hd => Flow.Func.var?_eq (hop _ hd)
  cases x with
  | var v => cases h
  | const k =>
    cases h
    exact length_constant k .a
  | elemAddr v _ | elemAddrIndirect v _ | storeIndirect v _ | loadIndirect v | loadPair v =>
    rw [select, bind_eq_ok] at h
    obtain ⟨l, hl, h⟩ := h
    cases h
    simp [Prices.piece, length_address hl]
  | store v _ | load v =>
    rw [select, hvar (by simp [Payload.operands]), ok_bind] at h
    rw [Prices.piece]
    split at h
    · rw [bind_eq_ok] at h
      obtain ⟨l, hl, h⟩ := h
      cases h
      rw [if_pos (by assumption)]
      simp [length_address hl]
    · cases h
      rw [if_neg (by assumption)]
      rfl
  | alu op l r =>
    have harith : arithmetic op = .ok items := h
    simp [Prices.piece, harith, Except.toOption]
  | ret =>
    rw [select] at h
    split at h
    · cases h
    · next cell hcell =>
      cases h
      simp [Prices.piece, prices, hcell]
  | call k args =>
    have hcall : c.call k args = .ok items := h
    simp [Prices.piece, prices, hcall, Except.toOption]
  | stop | branch _ | branchIf _ _ _ _ | read | write _ =>
    cases h
    rfl

lemma length_block {l : List Id} {code : List Located} (hf : c.func.Sound)
    (hl : c.func.listing? b = some l) (h : c.block b = .ok code) :
    code.length = c.prices.block c.func b := by
  obtain ⟨-, parts, hparts, rfl⟩ := (block_eq_ok hl).mp h
  rw [Prices.block_eq _ hl]
  have hmem : ∀ i ∈ l, ∃ x, c.func.live? i = some x := fun i hi => by
    obtain ⟨x, hx, -⟩ := hf.live_of_mem hl hi
    exact ⟨x, hx⟩
  clear hl h
  induction hparts with
  | nil => rfl
  | @cons i part l parts hcode _ ih =>
    obtain ⟨x, hx⟩ := hmem i (by simp)
    obtain ⟨s, items, hs, hitems, rfl⟩ := hcode
    obtain ⟨s', hs', -, rfl⟩ := Flow.Func.live?_eq_some.mp hx
    obtain rfl := Option.some.inj (hs.symm.trans hs')
    rw [List.flatten_cons, List.length_append, ih fun j hj => hmem j (by simp [hj]),
      Prices.code_cons, Prices.slot_eq _ hx, locate, List.length_map,
      length_select hitems (hf.operands hx)]

lemma length_openingOf (c : Context) :
    (openingOf c.ret).length = if c.ret.isSome then c.prices.ret + 1 else 0 := by
  cases h : c.ret with
  | none => rfl
  | some cell => simp [openingOf, prices, h]

end Context

lemma Selected.length_items {code : FuncCode} (h : Selected c code) (hf : c.func.Sound)
    (hw : c.func.WellFormed) :
    code.items.length = (if c.ret.isSome then c.prices.ret + 1 else 0) +
      ((code.blocks.map Prod.fst).map (c.prices.block c.func)).sum := by
  have hblocks : (code.blocks.flatMap (·.2)).length =
      ((code.blocks.map Prod.fst).map (c.prices.block c.func)).sum := by
    rw [List.length_flatMap, List.map_map]
    refine congrArg List.sum (List.map_congr_left fun e he => ?_)
    obtain ⟨l, hl, -⟩ := hw.closes ((h.mem e.1).mp (List.mem_map.mpr ⟨e, he, rfl⟩))
    exact Context.length_block hf hl (h.code e.1 e.2 he)
  rw [FuncCode.items, List.length_append, hblocks, h.opening, locate, List.length_map,
    Context.length_openingOf]

end Accumulator.Layout
