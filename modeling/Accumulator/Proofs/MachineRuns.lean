import Mathlib
import Accumulator.Machine.Step

/-!
# Runs of the machine

A machine is looked at without its counters: it stands at a place of its code and has some `Data`.
`Goes` says that it gets from one place to another with so many steps, and runs of pieces of code are
put together from that. A machine comes to an end, or is left without input, or goes on for ever.
-/

namespace Accumulator.Machine

/-- What instructions work on: the registers, the contents of all cells, the input and the output. -/
@[ext]
structure Data where
  regs : Registers
  cells : UInt64 → UInt64
  input : List UInt64
  output : Array UInt64

/-- Whether an operation always leads to the next instruction. -/
def Op.isStraight : Op → Bool
  | .write | .load | .store | .add | .sub | .get | .put | .rst | .inc | .dec | .shl | .shr => true
  | _ => false

namespace Data

def setReg (x : Data) (r : Reg) (v : UInt64) : Data := { x with regs := x.regs.set r v }

def setCell (x : Data) (addr v : UInt64) : Data :=
  { x with cells := Function.update x.cells addr v }

/-- What a straight operation does. -/
def act (x : Data) (op : Op) (r : Reg) : Data :=
  match op with
  | .write => { x with output := x.output.push x.regs.a }
  | .load => x.setReg .a (x.cells (x.regs.get r))
  | .store => x.setCell (x.regs.get r) x.regs.a
  | .add => x.setReg .a (x.regs.a + x.regs.get r)
  | .sub => x.setReg .a (monus x.regs.a (x.regs.get r))
  | .get => x.setReg .a (x.regs.get r)
  | .put => x.setReg r x.regs.a
  | .rst => x.setReg r 0
  | .inc => x.setReg r (x.regs.get r + 1)
  | .dec => x.setReg r (monus (x.regs.get r) 1)
  | .shl => x.setReg r (x.regs.get r <<< 1)
  | .shr => x.setReg r (x.regs.get r >>> 1)
  | _ => x

end Data

def State.data (s : State) : Data := ⟨s.regs, s.readCell, s.input, s.output⟩

/-- A machine that has not halted stands at place `p` with data `x`. -/
structure State.At (s : State) (p : Nat) (x : Data) : Prop where
  running : s.halted = false
  pc : s.pc = p
  data : s.data = x

variable {code : Array Instr} {s t : State} {p q : Nat} {x y z : Data} {i : Instr} {n m : Nat}

lemma ofInt_natCast (p : Nat) : UInt64.ofInt p = UInt64.ofNat p := by
  have hmod : ((p : Int) % 2 ^ 64).toNat = p % 2 ^ 64 := by omega
  apply UInt64.toNat.inj
  rw [UInt64.ofInt, hmod, UInt64.toNat_ofNat', UInt64.toNat_ofNat', Nat.mod_mod]

lemma State.data_writeCell (s : State) (addr v : UInt64) :
    (s.writeCell addr v).data = s.data.setCell addr v := by
  ext1
  · rfl
  · funext c
    simp only [State.data, Data.setCell, State.readCell, State.writeCell, Function.update_apply,
      Std.TreeMap.getD_insert]
    exact if_congr (Std.LawfulEqCmp.compare_eq_iff_eq.trans eq_comm) rfl rfl
  · rfl
  · rfl

lemma step_eq (hs : s.At p x) (hi : code[p]? = some i) (hreg : i.reg.isKnown = true) {c : Nat}
    (hc : i.op.cost? = some c) : step code s = execute i (s.advance c) := by
  have hfetch : fetch? code s.pc = some i := by
    rw [hs.pc]
    exact hi
  rw [step, hs.running, hfetch]
  simp [hreg, hc]

lemma State.At.advance (hs : s.At p x) (c : Nat) : (s.advance c).At (p + 1) x where
  running := hs.running
  pc := by
    rw [State.advance, hs.pc]
    rfl
  data := hs.data

lemma State.At.setReg (hs : s.At p x) (r : Reg) (v : UInt64) : (s.setReg r v).At p (x.setReg r v) where
  running := hs.running
  pc := hs.pc
  data := by
    rw [← hs.data]
    rfl

lemma State.At.branch (hs : s.At p x) (test : UInt64 → Prop) [DecidablePred test] (q : Nat) :
    (if test s.regs.a then { s with pc := q } else s).At (if test x.regs.a then q else p) x := by
  have ha : s.regs.a = x.regs.a := by
    rw [← hs.data]
    rfl
  rw [ha]
  split
  · exact ⟨hs.running, rfl, hs.data⟩
  · exact hs

lemma execute_straight (hs : s.At p x) (hop : i.op.isStraight = true) :
    ∃ t, execute i s = (t, none) ∧ t.At p (x.act i.op i.reg) := by
  obtain ⟨hrun, hpc, rfl⟩ := hs
  have hset : ∀ r v, (s.setReg r v).At p (s.data.setReg r v) := fun r v => ⟨hrun, hpc, rfl⟩
  unfold execute Data.act
  cases h : i.op <;> rw [h] at hop <;> simp only [Op.isStraight, Bool.false_eq_true] at hop
  case write => exact ⟨_, rfl, hrun, hpc, rfl⟩
  case store => exact ⟨_, rfl, hrun, hpc, State.data_writeCell s _ _⟩
  all_goals exact ⟨_, rfl, hset _ _⟩

/-- From place `p` with data `x` a machine gets to place `q` with data `y` in `n` steps. -/
def Goes (code : Array Instr) (n p : Nat) (x : Data) (q : Nat) (y : Data) : Prop :=
  ∀ s : State, s.At p x → ∃ t : State, t.At q y ∧ ∀ m, runFor code (n + m) s = runFor code m t

lemma Goes.refl (code : Array Instr) (p : Nat) (x : Data) : Goes code 0 p x p x :=
  fun s hs => ⟨s, hs, fun m => by rw [Nat.zero_add]⟩

lemma Goes.trans {r : Nat} (h : Goes code n p x q y) (h' : Goes code m q y r z) :
    Goes code (n + m) p x r z := by
  intro s hs
  obtain ⟨t, ht, hn⟩ := h s hs
  obtain ⟨u, hu, hm⟩ := h' t ht
  exact ⟨u, hu, fun k => by rw [Nat.add_assoc, hn, hm]⟩

lemma Goes.of_step (h : ∀ s : State, s.At p x → ∃ t, step code s = (t, none) ∧ t.At q y) :
    Goes code 1 p x q y := by
  intro s hs
  obtain ⟨t, hstep, ht⟩ := h s hs
  refine ⟨t, ht, fun m => ?_⟩
  rw [Nat.add_comm, runFor, hs.running, hstep]
  rfl

lemma goes_straight (hi : code[p]? = some i) (hop : i.op.isStraight = true)
    (hreg : i.reg.isKnown = true) : Goes code 1 p x (p + 1) (x.act i.op i.reg) := by
  refine Goes.of_step fun s hs => ?_
  obtain ⟨c, hc⟩ : ∃ c, i.op.cost? = some c := by
    cases h : i.op <;> rw [h] at hop <;> first | exact ⟨_, rfl⟩ | cases hop
  rw [step_eq hs hi hreg hc]
  exact execute_straight (hs.advance c) hop

lemma goes_jump (hi : code[p]? = some i) (hop : i.op = .jump) (hreg : i.reg.isKnown = true)
    (haddr : i.addr = q) : Goes code 1 p x q x := by
  refine Goes.of_step fun s hs => ⟨{ s.advance 1 with pc := q }, ?_, hs.running, rfl, hs.data⟩
  rw [step_eq hs hi hreg (by rw [hop]; rfl), execute, hop, haddr]

lemma goes_jpos (hi : code[p]? = some i) (hop : i.op = .jpos) (hreg : i.reg.isKnown = true)
    (haddr : i.addr = q) : Goes code 1 p x (if 0 < x.regs.a then q else p + 1) x := by
  refine Goes.of_step fun s hs => ⟨_, ?_, (hs.advance 1).branch (0 < ·) q⟩
  rw [step_eq hs hi hreg (by rw [hop]; rfl), execute, hop, haddr]

lemma goes_jzero (hi : code[p]? = some i) (hop : i.op = .jzero) (hreg : i.reg.isKnown = true)
    (haddr : i.addr = q) : Goes code 1 p x (if x.regs.a = 0 then q else p + 1) x := by
  refine Goes.of_step fun s hs => ⟨_, ?_, (hs.advance 1).branch (· = 0) q⟩
  rw [step_eq hs hi hreg (by rw [hop]; rfl), execute, hop, haddr]

lemma goes_strk (hi : code[p]? = some i) (hop : i.op = .strk) (hreg : i.reg.isKnown = true) :
    Goes code 1 p x (p + 1) (x.setReg i.reg (UInt64.ofNat p)) := by
  refine Goes.of_step fun s hs => ?_
  rw [step_eq hs hi hreg (by rw [hop]; rfl), execute, hop]
  have hpc : UInt64.ofInt ((s.advance 1).pc - 1) = UInt64.ofNat p := by
    rw [(hs.advance 1).pc, Int.natCast_succ, Int.add_sub_cancel, ofInt_natCast]
  exact ⟨_, rfl, by rw [hpc]; exact (hs.advance 1).setReg _ _⟩

lemma goes_jumpr (hi : code[p]? = some i) (hop : i.op = .jumpr) (hreg : i.reg.isKnown = true)
    (hq : x.regs.get i.reg = UInt64.ofNat q) (hlt : q < 2 ^ 63) : Goes code 1 p x q x := by
  refine Goes.of_step fun s hs => ⟨{ s.advance 1 with pc := q }, ?_, hs.running, rfl, hs.data⟩
  rw [step_eq hs hi hreg (by rw [hop]; rfl), execute, hop]
  have hr : (s.advance 1).regs.get i.reg = UInt64.ofNat q := by
    rw [← hq, ← hs.data]
    rfl
  dsimp only
  rw [hr, UInt64.toInt64_ofNat', Int64.toInt_ofNat_of_lt hlt]

lemma goes_read {v : UInt64} {rest : List UInt64} (hi : code[p]? = some i) (hop : i.op = .read)
    (hreg : i.reg.isKnown = true) (hx : x.input = v :: rest) :
    Goes code 1 p x (p + 1) { x.setReg .a v with input := rest } := by
  refine Goes.of_step fun s hs => ?_
  rw [step_eq hs hi hreg (by rw [hop]; rfl), execute, hop]
  have hin : (s.advance 100).input = v :: rest := by
    rw [← hx, ← hs.data]
    rfl
  dsimp only
  rw [hin]
  refine ⟨_, rfl, hs.running, (hs.advance 100).pc, ?_⟩
  rw [← hs.data]
  rfl

/-- From place `p` with data `x` a machine comes to a halt with data `y`. -/
def Halts (code : Array Instr) (p : Nat) (x y : Data) : Prop :=
  ∃ n, ∀ s : State, s.At p x → ∃ t, runFor code n s = (t, none) ∧ t.halted = true ∧ t.data = y

/-- From place `p` with data `x` a machine comes to a read with data `y` and no input left. -/
def Starves (code : Array Instr) (p : Nat) (x y : Data) : Prop :=
  ∃ n, ∀ s : State, s.At p x → ∃ t, runFor code n s = (t, some .noInput) ∧ t.data = y

/-- From place `p` with data `x` a machine goes on for at least `n` steps. -/
def Lasts (code : Array Instr) (n p : Nat) (x : Data) : Prop :=
  ∃ m q y, n ≤ m ∧ Goes code m p x q y

lemma Goes.halts (h : Goes code n p x q y) (h' : Halts code q y z) : Halts code p x z := by
  obtain ⟨m, hm⟩ := h'
  refine ⟨n + m, fun s hs => ?_⟩
  obtain ⟨t, ht, hrun⟩ := h s hs
  rw [hrun]
  exact hm t ht

lemma Goes.starves (h : Goes code n p x q y) (h' : Starves code q y z) : Starves code p x z := by
  obtain ⟨m, hm⟩ := h'
  refine ⟨n + m, fun s hs => ?_⟩
  obtain ⟨t, ht, hrun⟩ := h s hs
  rw [hrun]
  exact hm t ht

lemma Goes.lasts (h : Goes code n p x q y) (h' : Lasts code m q y) : Lasts code (n + m) p x := by
  obtain ⟨k, r, z, hk, hgoes⟩ := h'
  exact ⟨n + k, r, z, by omega, h.trans hgoes⟩

lemma Lasts.mono (h : Lasts code n p x) (hm : m ≤ n) : Lasts code m p x := by
  obtain ⟨k, q, y, hk, hgoes⟩ := h
  exact ⟨k, q, y, by omega, hgoes⟩

lemma lasts_zero (code : Array Instr) (p : Nat) (x : Data) : Lasts code 0 p x :=
  ⟨0, p, x, le_rfl, Goes.refl code p x⟩

lemma halts_of_halt (hi : code[p]? = some i) (hop : i.op = .halt) (hreg : i.reg.isKnown = true) :
    Halts code p x x := by
  refine ⟨1, fun s hs => ⟨{ s.advance 0 with halted := true }, ?_, rfl, hs.data⟩⟩
  rw [runFor, hs.running, step_eq hs hi hreg (by rw [hop]; rfl), execute, hop]
  rfl

lemma starves_of_read (hi : code[p]? = some i) (hop : i.op = .read) (hreg : i.reg.isKnown = true)
    (hx : x.input = []) : Starves code p x x := by
  refine ⟨1, fun s hs => ⟨s.advance 100, ?_, hs.data⟩⟩
  have hin : (s.advance 100).input = [] := by
    rw [← hx, ← hs.data]
    rfl
  rw [runFor, hs.running, step_eq hs hi hreg (by rw [hop]; rfl), execute, hop]
  dsimp only
  rw [hin]
  rfl

lemma runFor_add (h : (runFor code n s).2 ≠ some .stepLimit) (m : Nat) :
    runFor code (n + m) s = runFor code n s := by
  induction n generalizing s with
  | zero =>
    rw [runFor] at h ⊢
    split at h
    · next hs => cases m <;> simp [runFor, hs]
    · exact absurd rfl h
  | succ n ih =>
    rw [Nat.succ_add, runFor, runFor]
    rw [runFor] at h
    by_cases hs : s.halted = true
    · rw [if_pos hs, if_pos hs]
    · rw [if_neg hs] at h
      rw [if_neg hs, if_neg hs]
      rcases hstep : step code s with ⟨t, _ | stop⟩ <;> simp only [hstep] at h ⊢
      exact ih h

lemma runFor_stepLimit (h : (runFor code (n + m) s).2 = some .stepLimit) :
    (runFor code n s).2 = some .stepLimit := by
  by_contra hn
  rw [runFor_add hn] at h
  exact hn h

lemma Lasts.stepLimit (h : Lasts code n p x) (hs : s.At p x) :
    (runFor code n s).2 = some .stepLimit := by
  obtain ⟨m, q, y, hm, hgoes⟩ := h
  obtain ⟨t, ht, hrun⟩ := hgoes s hs
  have hlimit : (runFor code m s).2 = some .stepLimit := by
    rw [← Nat.add_zero m, hrun, runFor, ht.running]
    rfl
  obtain ⟨k, rfl⟩ := Nat.exists_eq_add_of_le hm
  exact runFor_stepLimit hlimit

/-- The machine, started with the given input and no limit on its steps, comes to an end: it halts, or
stops for a reason. The last two are the input that is left and the output. -/
def Ends (code : Array Instr) (words : List UInt64) (stop : Option Stop) (input : List UInt64)
    (output : Array UInt64) : Prop :=
  stop ≠ some .stepLimit ∧
    ∃ n t, runFor code n (.start words) = (t, stop) ∧ t.input = input ∧ t.output = output

section Ends

variable {words input input' : List UInt64} {stop stop' : Option Stop} {output output' : Array UInt64}

lemma Ends.runFor_cases (h : Ends code words stop input output) (n : Nat) :
    (runFor code n (.start words)).2 = some .stepLimit ∨ (runFor code n (.start words)).2 = stop := by
  obtain ⟨hstop, m, t, hrun, -⟩ := h
  by_cases hn : (runFor code n (.start words)).2 = some .stepLimit
  · exact Or.inl hn
  · have hm : (runFor code m (.start words)).2 ≠ some .stepLimit := by rwa [hrun]
    refine Or.inr ?_
    rw [← runFor_add hn m, Nat.add_comm, runFor_add hm n, hrun]

lemma Ends.unique (h : Ends code words stop input output) (h' : Ends code words stop' input' output') :
    stop = stop' ∧ input = input' ∧ output = output' := by
  obtain ⟨hstop, n, t, hrun, rfl, rfl⟩ := h
  obtain ⟨hstop', n', t', hrun', rfl, rfl⟩ := h'
  have hn : (runFor code n (.start words)).2 ≠ some .stepLimit := by rwa [hrun]
  have hn' : (runFor code n' (.start words)).2 ≠ some .stepLimit := by rwa [hrun']
  have heq : (t, stop) = (t', stop') := by
    rw [← hrun, ← runFor_add hn n', Nat.add_comm, runFor_add hn' n, hrun']
  obtain ⟨rfl, rfl⟩ := Prod.mk.inj heq
  exact ⟨rfl, rfl, rfl⟩

lemma not_ends (h : ∀ n, (runFor code n (.start words)).2 = some .stepLimit) :
    ¬ Ends code words stop input output := by
  rintro ⟨hstop, n, t, hrun, -⟩
  have := h n
  rw [hrun] at this
  exact hstop this

end Ends

end Accumulator.Machine
