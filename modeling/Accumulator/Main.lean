import Accumulator.Command

/-!
# The program

Reads the files that a command names, carries it out, and writes what it leaves behind.
-/

namespace Accumulator

/-- The contents of a file, if it can be read. -/
def contents? (name : String) : IO (Option Bytes) := do
  try
    return some (← IO.FS.readBinFile name).toList
  catch _ => return none

partial def runOn (code : Array Machine.Instr) (s : Machine.State) :
    Machine.State × Option Machine.Stop :=
  match Machine.runFor code 1000000 s with
  | (s, some .stepLimit) => runOn code s
  | r => r

def finish (o : Command.Outcome) : IO UInt32 := do
  (← IO.getStdout).write ⟨o.stdout.toArray⟩
  match o.error with
  | some e => (← IO.getStderr).write ⟨(Text.bytes "error: " ++ e ++ [10]).toArray⟩
  | none => pure ()
  return UInt32.ofNat o.exit

def conclude (o : Command.Outcome) : IO UInt32 := do
  match o.written with
  | none => finish o
  | some (name, text) =>
    try
      IO.FS.writeBinFile name ⟨text.toArray⟩
      finish o
    catch _ => finish (Command.Outcome.unwritable name)

def runCommand (c : Command) : IO UInt32 := do
  let read ← c.settings.files.mapM fun name => return (name, ← contents? name)
  let stdin ← if c.readsInput then (← IO.getStdin).readToEnd else pure ""
  match c.perform (fun name => (List.lookup name read).join) stdin with
  | .done o => conclude o
  | .run r =>
    let (s, why) := match r.limit with
      | some n => Machine.runTo r.code n r.start
      | none => runOn r.code r.start
    conclude (r.report s why)

end Accumulator

def main (args : List String) : IO UInt32 := do
  match Accumulator.Command.parse args with
  | .ok c => Accumulator.runCommand c
  | .error e => Accumulator.finish { exit := 1, error := some (Accumulator.Text.bytes e) }
