import Accumulator.Listing.Parser

/-!
# Reading in place

The same shapes, parsed at offsets of one text. A parser is given the offset where it starts and tells the
offset where it stopped; on failure it may have stopped behind its start, which decides between
alternatives. A part of the text that ends beyond it is a fault, and so is a value that its reader does
not expect.
-/

namespace Accumulator.Listing

open Machine

structure Stopped (α : Type) where
  pos : Nat
  answer : Except ParseError α

abbrev Parser (α : Type) := Array UInt8 → Nat → Except Fault (Stopped α)

def slice (text : Array UInt8) (i j : Nat) : Except Fault (List UInt8) :=
  if i ≤ j ∧ j ≤ text.size then .ok (text.extract i j).toList else .error .outOfRange

def scanWhile (p : UInt8 → Bool) (text : Array UInt8) (i : Nat) : Nat :=
  if h : i < text.size then
    if p text[i] then scanWhile p text (i + 1) else i
  else i
  termination_by text.size - i

theorem le_scanWhile (p : UInt8 → Bool) (text : Array UInt8) (i : Nat) : i ≤ scanWhile p text i := by
  fun_induction scanWhile p text i with
  | case1 i _ _ ih => omega
  | case2 => exact Nat.le_refl _
  | case3 => exact Nat.le_refl _

theorem lt_scanWhile {p : UInt8 → Bool} {text : Array UInt8} {i : Nat} (h : i < text.size)
    (hp : p text[i] = true) : i < scanWhile p text i := by
  rw [scanWhile, dif_pos h, if_pos hp]
  exact le_scanWhile p text (i + 1)

/-- The offset behind blanks and comments. A comment ends before its line feed. -/
def Blanks.skipAt (s : Blanks) (text : Array UInt8) (i : Nat) : Nat :=
  if h : i < text.size then
    if s.isBlank text[i] then skipAt s text (i + 1)
    else if _hsign : text[i] = 35 then skipAt s text (scanWhile (· != 10) text i)
    else i
  else i
  termination_by text.size - i
  decreasing_by
    · omega
    · have := lt_scanWhile (p := (· != 10)) h (by rw [_hsign]; rfl)
      omega

theorem Blanks.le_skipAt (s : Blanks) (text : Array UInt8) (i : Nat) : i ≤ s.skipAt text i := by
  fun_induction Blanks.skipAt s text i with
  | case1 i _ _ ih => omega
  | case2 i _ _ _ ih => exact Nat.le_trans (le_scanWhile _ text i) ih
  | case3 => exact Nat.le_refl _
  | case4 => exact Nat.le_refl _

def mnemonicAt : Parser Value := fun text st => do
  let i := scanWhile isUpper text st
  if i = st then return ⟨st, .error .mnemonicExpected⟩
  let word ← slice text st i
  let name := String.ofList (word.map fun c => Char.ofNat c.toNat)
  match Op.ofName? name with
  | some op => return ⟨i, .ok (.op op)⟩
  | none => return ⟨st, .error (.unknownMnemonic name)⟩

def registerAt : Parser Value := fun text st => do
  if st = text.size then return ⟨st, .error .registerExpected⟩
  if text[st + 1]?.any isWord then return ⟨st, .error .registerExpected⟩
  let word ← slice text st (st + 1)
  match Reg.ofName? (String.ofList (word.map fun c => Char.ofNat c.toNat)) with
  | some r => return ⟨st + 1, .ok (.reg r)⟩
  | none => return ⟨st, .error .registerExpected⟩

def digitsAt (text : Array UInt8) (i n : Nat) : Stopped Nat :=
  if h : i < text.size then
    if isDigit text[i] then
      let d := text[i].toNat - 48
      if (maxNumber - d) / 10 < n then ⟨i, .error .numberTooBig⟩ else digitsAt text (i + 1) (n * 10 + d)
    else ⟨i, .ok n⟩
  else ⟨i, .ok n⟩
  termination_by text.size - i

def numberAt : Parser Value := fun text st =>
  let r := digitsAt text st 0
  match r.answer with
  | .error e => .ok ⟨r.pos, .error e⟩
  | .ok n =>
    if r.pos = st then .ok ⟨st, .error .numberExpected⟩
    else if text[r.pos]?.any isWord then .ok ⟨r.pos, .error .numberExpected⟩
    else .ok ⟨r.pos, .ok (.number n)⟩

def optionalAt (p : Parser Value) : Parser Value := fun text st => do
  let r ← p text st
  match r.answer with
  | .ok _ => return r
  | .error _ => if r.pos = st then return ⟨st, .ok .nothing⟩ else return r

def allAt (i : Nat) : List (String × Parser Value) → Parser (List Value)
  | [], _, st => .ok ⟨st, .ok []⟩
  | (label, p) :: rest, text, st => do
    let r ← p text st
    match r.answer with
    | .error e => return ⟨r.pos, .error (.inside label (some i) e)⟩
    | .ok v =>
      let rs ← allAt (i + 1) rest text r.pos
      return ⟨rs.pos, rs.answer.map (v :: ·)⟩

/-- The first of several parsers that succeeds. If all fail, the first that did not stop at the start tells
why, and otherwise none of them fits. -/
def anyAt (labels : List String) (failed : Option (Stopped Value)) :
    List (String × Parser Value) → Parser Value
  | [], _, st => .ok (failed.getD ⟨st, .error (.noneOf labels)⟩)
  | (label, p) :: rest, text, st => do
    let r ← p text st
    match r.answer with
    | .ok _ => return r
    | .error e =>
      if r.pos = st then anyAt labels failed rest text st
      else anyAt labels (failed.or (some ⟨r.pos, .error (.inside label none e)⟩)) rest text st

/-- A parser behind blanks. If it fails where it starts, it has not started. -/
def spacedAt (blanks : Blanks) (label : String) (p : Parser Value) : Parser Value := fun text st => do
  let start := blanks.skipAt text st
  let r ← p text start
  match r.answer with
  | .ok _ => return r
  | .error e => return ⟨if r.pos = start then st else r.pos, .error (.inside label none e)⟩

def argumentAt : Parser Value :=
  optionalAt (spacedAt .inLine (Grammar.any []).label
    (anyAt [Grammar.register.label, Grammar.number.label] none
      [(Grammar.register.label, registerAt), (Grammar.number.label, numberAt)]))

/-- Put an instruction together that starts at `st` and ends at `pos`. A wrong argument is reported at its
start, a missing one behind it. -/
def instructionOf (st pos : Nat) : List Value → Except Fault (Stopped Instr)
  | [.op op, .reg r] =>
    .ok (if op.hasReg then ⟨pos, .ok { op := op, reg := r }⟩ else ⟨st, .error (.takesNoRegister op)⟩)
  | [.op op, .number n] =>
    .ok (if op.isJump then ⟨pos, .ok { op := op, addr := n }⟩ else ⟨st, .error (.takesNoAddress op)⟩)
  | [.op op, .nothing] =>
    .ok (if op.hasReg || op.isJump then ⟨pos, .error (.argumentExpected op)⟩ else ⟨pos, .ok { op := op }⟩)
  | _ => .error .shape

def instructionAt : Parser Value := fun text st => do
  let r ← allAt 0 [(Grammar.mnemonic.label, mnemonicAt), ((Grammar.optional .number).label, argumentAt)]
    text st
  match r.answer with
  | .error e => return ⟨r.pos, .error e⟩
  | .ok values =>
    let i ← instructionOf st r.pos values
    return ⟨i.pos, i.answer.map .instr⟩

mutual

def Grammar.parser : Grammar → Parser Value
  | .number => numberAt
  | .mnemonic => mnemonicAt
  | .register => registerAt
  | .instruction => instructionAt
  | .optional g => optionalAt g.parser
  | .all gs => fun text st => do
    let r ← allAt 0 (Grammar.parsers gs) text st
    return ⟨r.pos, r.answer.map .list⟩
  | .any gs => anyAt (gs.map Grammar.label) none (Grammar.parsers gs)
  | .spaced blanks g => spacedAt blanks g.label g.parser

def Grammar.parsers : List Grammar → List (String × Parser Value)
  | [] => []
  | g :: gs => (g.label, g.parser) :: Grammar.parsers gs

end

/-- A parser that never stops before its start. -/
def Advances {α : Type} (p : Parser α) : Prop := ∀ {text st r}, p text st = .ok r → st ≤ r.pos

theorem advances_mnemonicAt : Advances mnemonicAt := by
  intro text st r h
  unfold mnemonicAt at h
  dsimp only at h
  split at h
  · cases h
    exact Nat.le_refl _
  · obtain ⟨word, -, h⟩ := bind_eq_ok.mp h
    split at h
    · cases h
      exact le_scanWhile isUpper text st
    · cases h
      exact Nat.le_refl _

theorem advances_registerAt : Advances registerAt := by
  intro text st r h
  unfold registerAt at h
  split at h
  · cases h
    exact Nat.le_refl _
  · split at h
    · cases h
      exact Nat.le_refl _
    · obtain ⟨word, -, h⟩ := bind_eq_ok.mp h
      split at h
      · cases h
        exact Nat.le_succ _
      · cases h
        exact Nat.le_refl _

theorem le_digitsAt (text : Array UInt8) (i n : Nat) : i ≤ (digitsAt text i n).pos := by
  fun_induction digitsAt text i n with
  | case1 => exact Nat.le_refl _
  | case2 i n _ _ _ _ ih => exact Nat.le_trans (Nat.le_succ i) ih
  | case3 => exact Nat.le_refl _
  | case4 => exact Nat.le_refl _

theorem advances_numberAt : Advances numberAt := by
  intro text st r h
  have hle := le_digitsAt text st 0
  unfold numberAt at h
  dsimp only at h
  split at h
  · cases h
    exact hle
  · split at h
    · cases h
      exact Nat.le_refl _
    · split at h
      · cases h
        exact hle
      · cases h
        exact hle

theorem Advances.optionalAt {p : Parser Value} (hp : Advances p) : Advances (optionalAt p) := by
  intro text st r h
  obtain ⟨r', hr', h⟩ := bind_eq_ok.mp h
  split at h
  · cases h
    exact hp hr'
  · split at h
    · cases h
      exact Nat.le_refl _
    · cases h
      exact hp hr'

theorem advances_allAt {i : Nat} {ps : List (String × Parser Value)} (hps : ∀ q ∈ ps, Advances q.2) :
    Advances (allAt i ps) := by
  induction ps generalizing i with
  | nil =>
    intro text st r h
    cases h
    exact Nat.le_refl _
  | cons q rest ih =>
    intro text st r h
    obtain ⟨r', hr', h⟩ := bind_eq_ok.mp h
    have hle : st ≤ r'.pos := hps q (List.mem_cons_self ..) hr'
    split at h
    · cases h
      exact hle
    · obtain ⟨rs, hrs, h⟩ := bind_eq_ok.mp h
      have hrest := ih (fun q hq => hps q (List.mem_cons_of_mem _ hq)) hrs
      cases h
      exact Nat.le_trans hle hrest

theorem advances_anyAt {labels : List String} {failed : Option (Stopped Value)}
    {ps : List (String × Parser Value)} (hps : ∀ q ∈ ps, Advances q.2) {text : Array UInt8} {st : Nat}
    {r : Stopped Value} (hfailed : ∀ f ∈ failed, st ≤ f.pos) (h : anyAt labels failed ps text st = .ok r) :
    st ≤ r.pos := by
  induction ps generalizing failed with
  | nil =>
    cases h
    cases failed with
    | none => exact Nat.le_refl _
    | some f => exact hfailed f rfl
  | cons q rest ih =>
    obtain ⟨r', hr', h⟩ := bind_eq_ok.mp h
    have hle : st ≤ r'.pos := hps q (List.mem_cons_self ..) hr'
    have hrest : ∀ q ∈ rest, Advances q.2 := fun q hq => hps q (List.mem_cons_of_mem _ hq)
    split at h
    · cases h
      exact hle
    · split at h
      · exact ih hrest hfailed h
      · refine ih hrest (fun f hf => ?_) h
        cases failed with
        | none =>
          cases hf
          exact hle
        | some g => exact hfailed f hf

theorem Advances.spacedAt {p : Parser Value} (hp : Advances p) (blanks : Blanks) (label : String) :
    Advances (spacedAt blanks label p) := by
  intro text st r h
  have hgap := blanks.le_skipAt text st
  obtain ⟨r', hr', h⟩ := bind_eq_ok.mp h
  have hle := Nat.le_trans hgap (hp hr')
  split at h
  · cases h
    exact hle
  · cases h
    dsimp only
    split
    · exact Nat.le_refl _
    · exact hle

theorem advances_argumentAt : Advances argumentAt := by
  refine Advances.optionalAt (Advances.spacedAt (fun h => advances_anyAt ?_ ?_ h) _ _)
  · intro q hq
    rcases List.mem_cons.mp hq with rfl | hq
    · exact advances_registerAt
    · obtain rfl := List.mem_singleton.mp hq
      exact advances_numberAt
  · intro f hf
    cases hf

theorem lt_of_mnemonicAt {text : Array UInt8} {st j : Nat} {v : Value}
    (h : mnemonicAt text st = .ok ⟨j, .ok v⟩) : st < j := by
  unfold mnemonicAt at h
  dsimp only at h
  split at h
  · cases h
  · next hne =>
    obtain ⟨word, -, h⟩ := bind_eq_ok.mp h
    split at h
    · cases h
      exact Nat.lt_of_le_of_ne (le_scanWhile isUpper text st) (Ne.symm hne)
    · cases h

theorem eq_of_instructionOf {st pos j : Nat} {values : List Value} {i : Instr}
    (h : instructionOf st pos values = .ok ⟨j, .ok i⟩) : j = pos := by
  unfold instructionOf at h
  split at h
  · split at h
    · cases h
      rfl
    · cases h
  · split at h
    · cases h
      rfl
    · cases h
  · split at h
    · cases h
    · cases h
      rfl
  · cases h

theorem lt_of_instructionAt {text : Array UInt8} {st j : Nat} {v : Value}
    (h : instructionAt text st = .ok ⟨j, .ok v⟩) : st < j := by
  obtain ⟨⟨pos, answer⟩, hparts, h⟩ := bind_eq_ok.mp h
  cases answer with
  | error e => cases h
  | ok values =>
    obtain ⟨⟨pos', answer'⟩, hi, h⟩ := bind_eq_ok.mp h
    cases answer' with
    | error e => cases h
    | ok i =>
      cases h
      rw [eq_of_instructionOf hi]
      obtain ⟨⟨k, word⟩, hword, hparts⟩ := bind_eq_ok.mp hparts
      cases word with
      | error e => cases hparts
      | ok op =>
        obtain ⟨rest, hrest, hparts⟩ := bind_eq_ok.mp hparts
        have hpos : rest.pos = pos := congrArg Stopped.pos (Except.ok.inj hparts)
        have hargument : k ≤ rest.pos := advances_allAt (fun q hq => by
          obtain rfl := List.mem_singleton.mp hq
          exact advances_argumentAt) hrest
        exact Nat.lt_of_lt_of_le (lt_of_mnemonicAt hword) (hpos ▸ hargument)

theorem lt_of_spacedAt {text : Array UInt8} {st j : Nat} {v : Value} {blanks : Blanks} {label : String}
    (h : spacedAt blanks label instructionAt text st = .ok ⟨j, .ok v⟩) : st < j := by
  obtain ⟨⟨pos, answer⟩, hi, h⟩ := bind_eq_ok.mp h
  cases answer with
  | error e => cases h
  | ok w =>
    cases h
    exact Nat.lt_of_le_of_lt (blanks.le_skipAt text st) (lt_of_instructionAt hi)

/-- Read instructions from offset `i` on, which is behind blanks, up to the end. -/
def scanFrom (text : Array UInt8) (i : Nat) : Except Fault (Except ListingError (List Instr)) :=
  if i < text.size then
    match _hr : spacedAt .all Grammar.instruction.label instructionAt text i with
    | .error f => .error f
    | .ok ⟨j, .error e⟩ => do
      let (line, col) := lineCol (← slice text 0 j)
      return .error (.malformed line col e)
    | .ok ⟨j, .ok (.instr x)⟩ => do
      let code ← scanFrom text (Blanks.all.skipAt text j)
      return code.map (x :: ·)
    | .ok ⟨_, .ok _⟩ => .error .shape
  else .ok (.ok [])
  termination_by text.size - i
  decreasing_by
    have := lt_of_spacedAt _hr
    have := Blanks.all.le_skipAt text j
    omega

def scan (text : Array UInt8) : Except Fault (Except ListingError (List Instr)) := do
  match ← scanFrom text (Blanks.all.skipAt text 0) with
  | .error e => return .error e
  | .ok code =>
    match strayJump? code with
    | some (k, addr) => return .error (.jumpOutOfProgram k addr)
    | none => return .ok code

end Accumulator.Listing
