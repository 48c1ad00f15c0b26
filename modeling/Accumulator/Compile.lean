import Accumulator.Flow.Canonical
import Accumulator.Flow.Coalesce
import Accumulator.Flow.Spill
import Accumulator.Layout.Program
import Accumulator.Tree.Build

/-!
# Compilation

A tree is built into a flow program, each function is made testable, spilled and coalesced, and the
whole is laid out as machine code. Between these stages the functions can be verified.
-/

namespace Accumulator

namespace Compile

structure Options where
  noCoalesce : Bool := false
  noVerify : Bool := false
  deriving DecidableEq, Repr

/-- The sizes of a function after each stage, and what the stages did. -/
structure Stats where
  name : Bytes
  built : Nat := 0
  spilled : Nat := 0
  coalesced : Nat := 0
  canonicalized : Nat := 0
  spills : Nat := 0
  merges : Nat := 0
  /-- The number of cells. -/
  frame : Int64 := 0
  /-- The number of machine instructions. -/
  code : Nat := 0
  deriving DecidableEq, Repr

inductive StageError where
  | verify (stage : String) (e : Flow.Defect)
  | spill (e : Flow.SpillDefect)
  deriving DecidableEq, Repr

def StageError.message : StageError → String
  | .verify stage e => s!"verify after {stage}: {e.message}"
  | .spill e => s!"regs to mem: {e.message}"

inductive Error where
  | build (e : Tree.MainCount)
  | func (name : Bytes) (e : StageError)
  | lower (e : Layout.LowerError)
  deriving DecidableEq, Repr

def Error.message : Error → Bytes
  | .build e => Text.bytes s!"build: {e.message}"
  | .func name e => Text.bytes "func " ++ name ++ Text.bytes s!": {e.message}"
  | .lower e => Text.bytes "lower: " ++ e.message

structure Result where
  flow : Flow.Program
  program : Layout.Program
  stats : List Stats
  deriving Repr

def verify (o : Options) (stage : String) (f : Flow.Func) :
    ExceptT StageError (Except Fault) Unit := do
  if o.noVerify then return
  match ← f.verify with
  | .ok () => return
  | .error e => throw (.verify stage e)

def checkSpilled (o : Options) (f : Flow.Func) : ExceptT StageError (Except Fault) Unit := do
  if o.noVerify then return
  match ← f.checkSpilled with
  | .ok () => return
  | .error e => throw (.spill e)

def coalesce (o : Options) (f : Flow.Func) :
    ExceptT StageError (Except Fault) (Nat × Flow.Func) := do
  if o.noCoalesce then return (0, f)
  let (n, f) ← f.coalesce
  verify o "coalesce" f
  return (n, f)

/-- Take a function through the stages between building and layout. -/
def optimize (o : Options) (f : Flow.Func) :
    ExceptT StageError (Except Fault) (Stats × Flow.Func) := do
  let built := f.size
  verify o "build" f
  let (canonicalized, f) ← f.canonicalize
  verify o "canonicalize" f
  let (spills, f) ← f.spillAll
  let spilled := f.size
  verify o "regs to mem" f
  checkSpilled o f
  let (merges, f) ← coalesce o f
  return ({ name := f.name, built := built, spilled := spilled, coalesced := f.size,
            canonicalized := canonicalized, spills := spills, merges := merges }, f)

def optimizeAll (o : Options) :
    List Flow.Func → ExceptT Error (Except Fault) (List (Stats × Flow.Func))
  | [] => return []
  | f :: rest => do
    match ← (optimize o f).run with
    | .error e => throw (.func f.name e)
    | .ok r => return r :: (← optimizeAll o rest)

def frameSize (f : Layout.Func) : Int64 :=
  f.frame.foldl (fun n c => n + Int64.ofInt c.size) 0 + (if f.ret.isSome then 1 else 0)

/-- Add what the layout says about a function to the statistics of all functions of its name. -/
def Stats.account (f : Layout.Func) (s : Stats) : Stats :=
  if s.name = f.name then { s with code := f.size, frame := s.frame + frameSize f } else s

def account (funcs : List Layout.Func) (stats : List Stats) : List Stats :=
  stats.map fun s => funcs.foldl (fun s f => s.account f) s

end Compile

/-- Compile a tree to machine code with resolved addresses. -/
def compile (o : Compile.Options) (file : Tree.File) :
    Except Fault (Except Compile.Error Compile.Result) := do
  match ← file.build with
  | .error e => return .error (.build e)
  | .ok flow =>
    match ← (Compile.optimizeAll o flow.funcs.toList).run with
    | .error e => return .error e
    | .ok parts =>
      let flow : Flow.Program := { funcs := (parts.map (·.2)).toArray }
      match ← Layout.lower flow with
      | .error e => return .error (.lower e)
      | .ok program =>
        let stats := Compile.account program.funcs (parts.map (·.1))
        return .ok { flow := flow, program := program.resolve, stats := stats }

end Accumulator
