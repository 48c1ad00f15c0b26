import Mathlib
import Accumulator.Proofs.LayingOut
import Accumulator.Proofs.RecipeResults

/-!
# Code that builds constants

Some operations work on registers alone and take one cycle each. Code of such operations changes
nothing of a machine but its registers, its place and its counters. The code of a constant is of this
kind: it has an instruction for the start, a shift for every binary digit but the first, and an increment
for every digit that is one.
-/

namespace Accumulator.Machine

/-- Whether an operation works on registers alone. -/
def Op.isInternal : Op → Bool
  | .get | .put | .rst | .inc | .dec | .shl | .shr => true
  | _ => false

lemma Op.cost?_of_isInternal {op : Op} (h : op.isInternal = true) : op.cost? = some 1 := by
  cases op <;> first | rfl | cases h

lemma execute_internal {i : Instr} (h : i.op.isInternal = true) (s : State) :
    execute i s = ({ s with regs := (s.data.act i.op i.reg).regs }, none) := by
  obtain ⟨op, r, addr⟩ := i
  cases op <;> first | rfl | cases h

lemma act_internal {op : Op} (h : op.isInternal = true) (x : Data) (r : Reg) :
    x.act op r = { x with regs := (x.act op r).regs } := by
  cases op <;> first | rfl | cases h

lemma Registers.get_set_of_ne {r q : Reg} (h : q ≠ r) (g : Registers) (w : UInt64) :
    (g.set r w).get q = g.get q := by
  cases r <;> cases q <;> first | rfl | exact absurd rfl h

end Accumulator.Machine

namespace Accumulator.Layout

open Machine (Reg Data State Crosses)

variable {code : Array Machine.Instr} {start p : Nat} {items : List Item} {s : State} {r : Reg}

/-- The operations and registers of the items stand in the code, the first at place `start`. -/
def Spelled (code : Array Machine.Instr) (start : Nat) (items : List Item) : Prop :=
  Along (fun p it => ∃ i, code[p]? = some i ∧ i.op = it.op ∧ i.reg = it.reg) start items

lemma Spelled.take (h : Spelled code start items) (n : Nat) : Spelled code start (items.take n) := by
  rw [← List.take_append_drop n items] at h
  exact (along_append.mp h).1

/-- Whether an item works on registers alone, and on one that the machine has. -/
def Item.isInternal (it : Item) : Bool := it.op.isInternal && it.reg.isKnown

/-- A machine some cycles later, with other registers. -/
def later (s : State) (regs : Machine.Registers) (n : Nat) : State :=
  { s with regs := regs, pc := s.pc + n, steps := s.steps + .ofNat n, cost := s.cost + .ofNat n }

lemma later_later (s : State) (g g' : Machine.Registers) (n m : Nat) :
    later (later s g n) g' m = later s g' (n + m) := by
  simp only [later, Int64.ofNat_add, Int64.add_assoc, Nat.cast_add, Int.add_assoc]

lemma step_spelled {it : Item} (hcode : Spelled code start (it :: items)) (hit : it.isInternal = true)
    (hs : s.halted = false) (hpc : s.pc = start) :
    Machine.step code s = (later s (s.data.act it.op it.reg).regs 1, none) := by
  obtain ⟨i, hi, hop, hreg⟩ := hcode 0 it rfl
  rw [Item.isInternal, Bool.and_eq_true, ← hop, ← hreg] at hit
  rw [Machine.step_eq ⟨hs, hpc, rfl⟩ hi hit.2 (Machine.Op.cost?_of_isInternal hit.1),
    Machine.execute_internal hit.1, ← hop, ← hreg]
  rfl

lemma runFor_internal (hcode : Spelled code start items) (hin : items.all Item.isInternal = true)
    (hs : s.halted = false) (hpc : s.pc = start) :
    Machine.runFor code items.length s =
      (later s (acts s.data items).regs items.length, some .stepLimit) := by
  induction items generalizing start s with
  | nil =>
    rw [List.length_nil, Machine.runFor, hs, later]
    simp [acts, State.data]
  | cons it items ih =>
    rw [List.all_cons, Bool.and_eq_true] at hin
    have hrest : Spelled code (start + 1) items := by
      intro i jt hi
      rw [Nat.add_assoc, Nat.add_comm 1]
      exact hcode (i + 1) jt hi
    have hop : it.op.isInternal = true := by
      have := hin.1
      rw [Item.isInternal, Bool.and_eq_true] at this
      exact this.1
    have hdata : (later s (s.data.act it.op it.reg).regs 1).data = s.data.act it.op it.reg :=
      (Machine.act_internal hop s.data it.reg).symm
    have hplace : (later s (s.data.act it.op it.reg).regs 1).pc = (start + 1 : Nat) := by
      simp [later, hpc]
    have hrun := ih (s := later s (s.data.act it.op it.reg).regs 1) hrest hin.2 hs hplace
    rw [hdata, later_later, Nat.add_comm 1] at hrun
    rw [List.length_cons, Machine.runFor, hs, if_neg (by decide), step_spelled hcode hin.1 hs hpc]
    exact hrun

lemma crosses_internal (hcode : Spelled code start items) (hin : items.all Item.isInternal = true)
    (hs : s.halted = false) (hpc : s.pc = start) :
    Crosses code start (start + items.length) s
      (later s (acts s.data items).regs items.length) := by
  refine ⟨items.length, runFor_internal hcode hin hs hpc, by simp [later, hpc], fun i hi => ?_⟩
  have hlen : (items.take i).length = i := List.length_take_of_le hi.le
  have hinside : (items.take i).all Item.isInternal = true :=
    List.all_eq_true.mpr fun it hit => List.all_eq_true.mp hin it (List.mem_of_mem_take hit)
  have hrun := runFor_internal (hcode.take i) hinside hs hpc
  rw [hlen] at hrun
  refine ⟨_, hrun, ?_, ?_⟩
  · simp [later, hpc]
  · simpa [later, hpc] using hi

lemma internal_constant (hr : r.isKnown = true) (k : UInt64) :
    (constant k r).all Item.isInternal = true := by
  apply List.all_eq_true.mpr
  intro it hit
  obtain ⟨op, hop, rfl⟩ := mem_constant hit
  have hinternal : ∀ op ∈ [Machine.Op.rst, .shl, .inc], op.isInternal = true := by decide
  rw [Item.isInternal, hinternal op hop, hr]
  rfl

/-- A number has one instruction for each binary digit and one for each one among them, but there is
no shift for its first digit. -/
lemma length_bitsOf_add_one (r : Reg) {n : Nat} (hn : n ≠ 0) :
    (bitsOf r n).length + 1 = n.size + n.bits.count true := by
  induction n using Nat.binaryRec' with
  | zero => exact absurd rfl hn
  | bit b n h ih =>
    have hhalf : Nat.bit b n / 2 = n := Nat.bit_div_two b n
    have hdigit : Nat.bit b n % 2 = b.toNat := Nat.bit_mod_two b n
    rw [bitsOf, dif_neg hn, hhalf, hdigit, Nat.size_bit hn, Nat.bits_append_bit n b h]
    by_cases hz : n = 0
    · obtain rfl : b = true := h hz
      subst hz
      rfl
    · have := ih hz
      rw [if_neg hz]
      cases b <;> simp <;> omega

lemma length_constant_eq (k : UInt64) (r : Reg) :
    (constant k r).length = if k = 0 then 1 else k.toNat.size + k.toNat.bits.count true := by
  rw [constant, List.length_cons]
  split
  · next hk =>
    subst hk
    rw [bitsOf]
    rfl
  · next hk =>
    have hne : k.toNat ≠ 0 := fun h => hk (UInt64.toNat.inj h)
    exact length_bitsOf_add_one r hne

/-- The code of a constant has one instruction for zero, and otherwise as many as the number has
binary digits and ones. Wherever it stands, a machine that comes to it goes through it and is behind
it with the constant in the register; it has the same other registers, memory, input and output. -/
theorem constant_exact (k : UInt64) {r : Reg} (hr : r.isKnown = true) :
    (constant k r).length = (if k = 0 then 1 else k.toNat.size + k.toNat.bits.count true) ∧
      ∀ (code : Array Machine.Instr) (start : Nat) (s : State),
        Spelled code start (constant k r) → s.halted = false → s.pc = start →
        ∃ t, Crosses code start (start + (constant k r).length) s t ∧
          t.regs.get r = k ∧ (∀ q, q ≠ r → t.regs.get q = s.regs.get q) ∧
          t.memory = s.memory ∧ t.input = s.input ∧ t.output = s.output ∧ t.halted = false ∧
          t.steps = s.steps + .ofNat (constant k r).length ∧
          t.cost = s.cost + .ofNat (constant k r).length := by
  refine ⟨length_constant_eq k r, fun code start s hcode hs hpc => ?_⟩
  have hregs : (acts s.data (constant k r)).regs = s.regs.set r k := by
    rw [acts_constant hr]
    rfl
  have hpass := crosses_internal hcode (internal_constant hr k) hs hpc
  rw [hregs] at hpass
  exact ⟨_, hpass, get_set hr s.regs, fun q hq => Machine.Registers.get_set_of_ne hq s.regs k,
    rfl, rfl, rfl, hs, rfl, rfl⟩

/-- Ten is built in register `c` behind another instruction. -/
theorem constant_exact_ten :
    let code : Array Machine.Instr :=
      #[{ op := .halt }, { op := .rst, reg := .c }, { op := .inc, reg := .c }, { op := .shl, reg := .c },
        { op := .shl, reg := .c }, { op := .inc, reg := .c }, { op := .shl, reg := .c }]
    let s : State := { pc := 1, regs := { b := 5, c := 9 } }
    (constant 10 .c).length = 6 ∧
      ∃ t, Crosses code 1 7 s t ∧ t.regs.c = 10 ∧ t.regs.b = 5 ∧ t.memory = s.memory := by
  intro code s
  have hitems : constant 10 .c =
      [{ op := .rst, reg := .c }, { op := .inc, reg := .c }, { op := .shl, reg := .c },
        { op := .shl, reg := .c }, { op := .inc, reg := .c }, { op := .shl, reg := .c }] := by
    simp [constant, bitsOf]
  have hcode : Spelled code 1 (constant 10 .c) := by
    rw [hitems]
    intro i it hi
    have hlt := (List.getElem?_eq_some_iff.mp hi).1
    simp only [List.length_cons, List.length_nil] at hlt
    interval_cases i <;> cases hi <;> exact ⟨_, rfl, rfl, rfl⟩
  obtain ⟨hlen, hruns⟩ := constant_exact 10 (r := .c) rfl
  obtain ⟨t, hpass, hk, hother, hmemory, -⟩ := hruns code 1 s hcode rfl rfl
  rw [hitems] at hpass
  exact ⟨by rw [hitems]; rfl, t, hpass, hk, hother .b (by decide), hmemory⟩

end Accumulator.Layout
