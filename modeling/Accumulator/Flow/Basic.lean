import Accumulator.Fault
import Accumulator.Position

/-!
# Flow programs

A function of a flow program is an arena of slots, each holding one instruction or variable, and a
list of blocks that place some of the slots in order. Instructions refer to each other by slot
number, and each slot keeps the list of its users, once per use. Nothing here is checked: slot and
block numbers are plain integers, and what makes a function well formed is said elsewhere.
-/

namespace Accumulator.Flow

/-- The number of a slot. -/
abbrev Id := Int

abbrev BlockId := Int

def noBlock : BlockId := -1

def noId : Id := -1

inductive Op where
  | add
  | sub
  | mul
  | div
  | mod
  | shl
  | shr
  | eq
  | ne
  | lt
  | gt
  | le
  | ge
  | unknown (code : Int)
  deriving DecidableEq, Repr, Inhabited

namespace Op

def all : List Op :=
  [.add, .sub, .mul, .div, .mod, .shl, .shr, .eq, .ne, .lt, .gt, .le, .ge]

def code : Op → Int
  | .add => 0
  | .sub => 1
  | .mul => 2
  | .div => 3
  | .mod => 4
  | .shl => 5
  | .shr => 6
  | .eq => 7
  | .ne => 8
  | .lt => 9
  | .gt => 10
  | .le => 11
  | .ge => 12
  | .unknown n => n

def ofCode (n : Int) : Op := (all.find? (·.code == n)).getD (.unknown n)

def name : Op → String
  | .add => "add"
  | .sub => "sub"
  | .mul => "mul"
  | .div => "div"
  | .mod => "mod"
  | .shl => "shl"
  | .shr => "shr"
  | .eq => "eq"
  | .ne => "ne"
  | .lt => "lt"
  | .gt => "gt"
  | .le => "le"
  | .ge => "ge"
  | .unknown n => s!"op({n})"

def isRelational : Op → Bool
  | .eq | .ne | .lt | .gt | .le | .ge => true
  | _ => false

/-- The comparison that holds exactly when the given one does not, for those that the machine
cannot test. -/
def complement? : Op → Option Op
  | .eq => some .ne
  | .ge => some .lt
  | .le => some .gt
  | _ => none

end Op

inductive VarKind where
  | localVar
  | param
  | unknown (code : Int)
  deriving DecidableEq, Repr, Inhabited

namespace VarKind

def code : VarKind → Int
  | .localVar => 0
  | .param => 1
  | .unknown n => n

def ofCode (n : Int) : VarKind :=
  if n = 0 then .localVar else if n = 1 then .param else .unknown n

def name : VarKind → String
  | .localVar => "local"
  | .param => "param"
  | .unknown n => s!"kind({n})"

end VarKind

/-- What a conditional branch tests. -/
inductive Test where
  /-- Greater than zero. -/
  | positive
  | zero
  | unknown (code : Int)
  deriving DecidableEq, Repr, Inhabited

namespace Test

def code : Test → Int
  | .positive => 0
  | .zero => 1
  | .unknown n => n

def ofCode (n : Int) : Test :=
  if n = 0 then .positive else if n = 1 then .zero else .unknown n

def name : Test → String
  | .positive => "jpos"
  | .zero => "jzero"
  | .unknown n => s!"cond({n})"

end Test

/-- A cell or a range of cells of a frame. A variable by reference holds an address. -/
structure Variable where
  name : Bytes
  kind : VarKind
  size : Int
  byRef : Bool := false
  spill : Bool := false
  deriving DecidableEq, Repr, Inhabited

/-- The contents of a slot. -/
inductive Payload where
  | var (v : Variable)
  | const (value : UInt64)
  /-- The address of an element of an array in the frame. -/
  | elemAddr (array index : Id)
  /-- The address of an element of an array whose address is in the variable. -/
  | elemAddrIndirect (array index : Id)
  /-- Write to a variable or to an address. -/
  | store (dst src : Id)
  /-- Write to the cell whose address is in the variable. -/
  | storeIndirect (dst src : Id)
  /-- Read a variable or an address. -/
  | load (src : Id)
  /-- Read the cell whose address is in the variable. -/
  | loadIndirect (src : Id)
  /-- Read a variable into the second register and keep the accumulator. -/
  | loadPair (src : Id)
  | alu (op : Op) (l r : Id)
  | stop
  | ret
  | call (callee : Int) (args : List Id)
  | branch (target : BlockId)
  | branchIf (test : Test) (cond : Id) (thenTo elseTo : BlockId)
  | read
  | write (src : Id)
  deriving DecidableEq, Repr, Inhabited

namespace Payload

def operands : Payload → List Id
  | .var _ | .const _ | .stop | .ret | .branch _ | .read => []
  | .elemAddr a i | .elemAddrIndirect a i => [a, i]
  | .store d s | .storeIndirect d s => [d, s]
  | .load s | .loadIndirect s | .loadPair s => [s]
  | .alu _ l r => [l, r]
  | .call _ args => args
  | .branchIf _ c _ _ => [c]
  | .write s => [s]

/-- The same instruction with other operands. The list has to have the same length. -/
def withOperands : Payload → List Id → Payload
  | .elemAddr _ _, [a, i] => .elemAddr a i
  | .elemAddrIndirect _ _, [a, i] => .elemAddrIndirect a i
  | .store _ _, [d, s] => .store d s
  | .storeIndirect _ _, [d, s] => .storeIndirect d s
  | .load _, [s] => .load s
  | .loadIndirect _, [s] => .loadIndirect s
  | .loadPair _, [s] => .loadPair s
  | .alu op _ _, [l, r] => .alu op l r
  | .call callee _, args => .call callee args
  | .branchIf t _ a b, [c] => .branchIf t c a b
  | .write _, [s] => .write s
  | p, _ => p

def isTerminal : Payload → Bool
  | .branch _ | .branchIf _ _ _ _ | .ret | .stop => true
  | _ => false

def targets : Payload → List BlockId
  | .branch t => [t]
  | .branchIf _ _ a b => [a, b]
  | _ => []

def typeName : Payload → String
  | .var _ => "*ir.Variable"
  | .const _ => "*ir.Const"
  | .elemAddr _ _ => "*ir.ElemAddr"
  | .elemAddrIndirect _ _ => "*ir.ElemAddrIndirect"
  | .store _ _ => "*ir.Store"
  | .storeIndirect _ _ => "*ir.StoreIndirect"
  | .load _ => "*ir.Load"
  | .loadIndirect _ => "*ir.LoadIndirect"
  | .loadPair _ => "*ir.LoadPair"
  | .alu _ _ _ => "*ir.ALU"
  | .stop => "*ir.End"
  | .ret => "*ir.Ret"
  | .call _ _ => "*ir.Call"
  | .branch _ => "*ir.Branch"
  | .branchIf _ _ _ _ => "*ir.BranchIf"
  | .read => "*ir.Read"
  | .write _ => "*ir.Write"

end Payload

/-- An entry of the arena. -/
structure Slot where
  payload : Payload
  loc : Position := {}
  block : BlockId := noBlock
  /-- The users of this slot, once per operand that names it. -/
  refs : List Id := []
  dead : Bool := false
  deriving DecidableEq, Repr, Inhabited

/-- A call instruction somewhere in the program. -/
structure CallSite where
  func : Nat
  call : Id
  deriving DecidableEq, Repr

/-- A function: its variables, its blocks and its arena. -/
structure Func where
  name : Bytes
  isMain : Bool := false
  loc : Position := {}
  params : List Id := []
  locals : List Id := []
  callers : List CallSite := []
  entry : BlockId := noBlock
  blocks : Array (Array Id) := #[]
  slots : Array Slot := #[]
  deriving DecidableEq, Repr, Inhabited

/-- A program: functions in the order of their declaration. Calls name them by number. -/
structure Program where
  funcs : Array Func := #[]
  deriving DecidableEq, Repr, Inhabited

def lookup {α : Type} (table : Array α) (i : Int) : Except Fault α :=
  match i with
  | .ofNat n =>
    match table[n]? with
    | some x => .ok x
    | none => .error .outOfRange
  | .negSucc _ => .error .outOfRange

namespace Func

def slot (f : Func) (id : Id) : Except Fault Slot := lookup f.slots id

def payload (f : Func) (id : Id) : Except Fault Payload := (·.payload) <$> f.slot id

def refs (f : Func) (id : Id) : Except Fault (List Id) := (·.refs) <$> f.slot id

def code (f : Func) (b : BlockId) : Except Fault (Array Id) := lookup f.blocks b

/-- The variable in a slot, if it holds one. No slot holds none; a slot that does not exist is a
fault. -/
def var? (f : Func) (id : Id) : Except Fault (Option Variable) :=
  if id < 0 then .ok none
  else do
    match ← f.payload id with
    | .var v => return some v
    | _ => return none

def updateSlot (f : Func) (id : Id) (g : Slot → Slot) : Except Fault Func := do
  let _ ← f.slot id
  return { f with slots := f.slots.modify id.toNat g }

def updateCode (f : Func) (b : BlockId) (g : Array Id → Array Id) : Except Fault Func := do
  let _ ← f.code b
  return { f with blocks := f.blocks.modify b.toNat g }

def terminator? (f : Func) (b : BlockId) : Except Fault (Option Id) := do
  return (← f.code b).back?

/-- The blocks that may follow a block, the one taken on success first. -/
def successors (f : Func) (b : BlockId) : Except Fault (List BlockId) := do
  match ← f.terminator? b with
  | none => return []
  | some t => if t = noId then return [] else return (← f.payload t).targets

def size (f : Func) : Nat := f.blocks.foldl (fun n code => n + code.size) 0

end Func

/-- The number of the entry function: the first that is marked as such. -/
def Program.main? (p : Program) : Option Nat := p.funcs.findIdx? (·.isMain)

end Accumulator.Flow
