import Accumulator.Compile
import Accumulator.Listing.InPlace
import Accumulator.Machine.Step
import Accumulator.Table
import Accumulator.Tree.Load

/-!
# The command line

Three commands: `compile` writes listings, `run` runs a program or a listing, and `stats` shows what
the stages of compilation did. A command is read from its arguments, and carried out on the contents
of files; the run of a machine is left to the caller, since it may not end.
-/

namespace Accumulator

open Text (bytes)

namespace Command

structure Settings where
  noCoalesce : Bool := false
  noVerify : Bool := false
  locations : Bool := false
  trace : Bool := false
  output : String := ""
  input : String := ""
  /-- The most steps of a run; there is no limit if it is not positive. -/
  steps : Int := 10000000
  /-- The files, in order. -/
  files : List String := []
  deriving DecidableEq, Repr

inductive Verb where
  | compile
  | run
  | stats
  deriving DecidableEq, Repr

def Verb.name : Verb → String
  | .compile => "compile"
  | .run => "run"
  | .stats => "stats"

def Verb.ofName? (s : String) : Option Verb := [compile, run, stats].find? (·.name == s)

def switch? (v : Verb) (s : Settings) (name : String) : Option Settings :=
  if name = "no-coalesce" then some { s with noCoalesce := true }
  else if name = "no-verify" then some { s with noVerify := true }
  else if name = "locations" ∧ v = .compile then some { s with locations := true }
  else if name = "trace" ∧ v = .run then some { s with trace := true }
  else none

def takesValue (v : Verb) (name : String) : Bool :=
  ["verbosity", "v"].contains name ||
    (v = .compile && ["output", "o"].contains name) ||
    (v = .run && ["input", "i", "steps"].contains name)

/-- A flag with its value. Verbosity has no effect on results. -/
def assign? (s : Settings) (name value : String) : Except String Settings :=
  if ["output", "o"].contains name then .ok { s with output := value }
  else if ["input", "i"].contains name then .ok { s with input := value }
  else if name = "steps" then
    match value.toInt? with
    | some n => .ok { s with steps := n }
    | none => .error s!"steps: parse {Text.quote (bytes value)}: invalid syntax"
  else .ok s

def flag? (arg : String) : Option (String × Option String) :=
  let body := if arg.startsWith "--" then (arg.drop 2).toString
    else if arg.startsWith "-" && arg ≠ "-" then (arg.drop 1).toString
    else ""
  if body.isEmpty then none
  else
    match body.splitOn "=" with
    | [name] => some (name, none)
    | name :: rest => some (name, some ("=".intercalate rest))
    | [] => none

/-- Read the arguments behind the command. Flags and files may be mixed. -/
def readSettings (v : Verb) (s : Settings) : List String → Except String Settings
  | [] => .ok s
  | arg :: rest =>
    match flag? arg with
    | none => readSettings v { s with files := s.files ++ [arg] } rest
    | some (name, value) =>
      match switch? v s name with
      | some s => readSettings v s rest
      | none =>
        if !takesValue v name then .error s!"undefined flag: {arg}"
        else
          match value with
          | some x =>
            match assign? s name x with
            | .ok s => readSettings v s rest
            | .error e => .error e
          | none =>
            match rest with
            | [] => .error s!"flag {arg}: value expected"
            | x :: rest =>
              match assign? s name x with
              | .ok s => readSettings v s rest
              | .error e => .error e

structure Outcome where
  exit : Nat := 0
  stdout : Bytes := []
  /-- A file to write, with its contents. -/
  written : Option (String × Bytes) := none
  error : Option Bytes := none
  deriving DecidableEq, Repr

def failed (v : Verb) (stdout message : Bytes) : Outcome :=
  { exit := 1, stdout := stdout, error := some (bytes s!"{v.name}: " ++ message) }

def crashed (stdout : Bytes) : Outcome := { exit := 2, stdout := stdout }

def missing (name : String) : String := s!"open {name}: no such file or directory"

def Outcome.unwritable (name : String) : Outcome :=
  failed .compile [] (bytes s!"write output: {missing name}")

abbrev Files := String → Option Bytes

def readMessage : Tree.ReadError Yaml.LoadError → Bytes
  | .document .malformed => bytes "unmarshal: yaml: malformed document"
  | .document .mismatch => bytes "unmarshal: yaml: unmarshal errors"
  | .program e => e.message

def compileFile (s : Settings) (files : Files) (name : String) :
    Except Fault (Except Bytes Compile.Result) := do
  match files name with
  | none => return .error (bytes s!"compile {name}: decode: read file: {missing name}")
  | some text =>
    match ← Tree.decode text with
    | .error e => return .error (bytes s!"compile {name}: decode: " ++ readMessage e)
    | .ok file =>
      match ← Accumulator.compile { noCoalesce := s.noCoalesce, noVerify := s.noVerify } file with
      | .error e => return .error (bytes s!"compile {name}: " ++ e.message)
      | .ok r => return .ok r

def listings (s : Settings) (files : Files) :
    List String → Bytes → Except Fault (Except Bytes Bytes)
  | [], text => .ok (.ok text)
  | name :: rest, text => do
    match ← compileFile s files name with
    | .error e => return .error e
    | .ok r =>
      let o : Listing.Options := { locations := s.locations, functions := s.locations }
      listings s files rest (text ++ r.program.render o)

def compileAll (s : Settings) (files : Files) : Outcome :=
  match listings s files s.files [] with
  | .error _ => crashed []
  | .ok (.error e) => failed .compile [] e
  | .ok (.ok text) =>
    if s.output.isEmpty then { stdout := text } else { written := some (s.output, text) }

def statsRow (s : Compile.Stats) : List Entry :=
  [.text (Text.lossy s.name), .number s.built, .number s.spilled, .number s.coalesced, .number s.spills,
    .number s.merges, .number s.canonicalized, .number s.frame.toInt, .number s.code]

def total (l : List Compile.Stats) : Compile.Stats :=
  l.foldl (fun t s =>
    { t with
      built := t.built + s.built
      spilled := t.spilled + s.spilled
      coalesced := t.coalesced + s.coalesced
      canonicalized := t.canonicalized + s.canonicalized
      spills := t.spills + s.spills
      merges := t.merges + s.merges
      frame := t.frame + s.frame
      code := t.code + s.code }) { name := bytes "total" }

def statsTable (name : String) (l : List Compile.Stats) : Table :=
  { title := name
    header :=
      ["Func", "Built", "Spilled", "Coalesced", "Spills", "Rewrites", "Canon", "Frame", "Code"]
    rows := l.map statsRow
    footer := some (statsRow (total l)) }

/-- The tables of files, up to the first that fails. -/
def statsAll (s : Settings) (files : Files) : List String → Bytes → Outcome
  | [], text => { stdout := text }
  | name :: rest, text =>
    match compileFile s files name with
    | .error _ => crashed text
    | .ok (.error e) => failed .stats text e
    | .ok (.ok r) => statsAll s files rest (text ++ bytes (statsTable name r.stats).render)

def isSpace (c : Char) : Bool :=
  (9 ≤ c.toNat && c.toNat ≤ 13) || c = ' ' || [0x85, 0xA0, 0x1680].contains c.toNat ||
    (0x2000 ≤ c.toNat && c.toNat ≤ 0x200A) ||
    [0x2028, 0x2029, 0x202F, 0x205F, 0x3000].contains c.toNat

def fields (s : String) : List String :=
  ((s.split isSpace).toList.map fun part => part.toString).filter (!·.isEmpty)

def numeralMessage (s : String) (e : Text.NumeralError) : String :=
  let reason := match e with
    | .notNumeral => "invalid syntax"
    | .tooLarge => "value out of range"
  s!"parse {Text.quote (bytes s)}: strconv.ParseUint: parsing {Text.quote (bytes s)}: {reason}"

def readInput (s : String) : Except Bytes (List UInt64) :=
  (fields s).mapM fun part =>
    match Text.readWord (bytes part) with
    | .ok v => .ok v
    | .error e => .error (bytes s!"input: {numeralMessage part e}")

/-- The part of a name from its last dot on, inside its last component. -/
def extension (name : String) : String :=
  let last := (name.splitOn "/").getLastD ""
  match (last.splitOn ".").reverse with
  | ext :: _ :: _ => "." ++ ext
  | _ => ""

def loadCode (s : Settings) (files : Files) (name : String) :
    Except Fault (Except Bytes (Array Machine.Instr)) := do
  if [".yaml", ".yml"].contains (extension name) then
    return (← compileFile s files name).map (·.program.instrs)
  else
    match files name with
    | none => return .error (bytes s!"parse {name}: read file: {missing name}")
    | some text =>
      match ← Listing.scan text.toArray with
      | .ok code => return .ok code.toArray
      | .error e => return .error (bytes s!"parse {name}: {e.message}")

/-- A machine that is ready to run, with the most steps it may take. -/
structure Run where
  code : Array Machine.Instr
  start : Machine.State
  limit : Option Nat
  trace : Bool

def traceTable (s : Machine.State) : Table :=
  { title := s!"pc {s.pc}  steps {s.steps}  cost {s.cost}"
    header := Machine.Reg.all.map (·.name)
    rows := [Machine.Reg.all.map fun r => .number (s.regs.get r).toNat] }

def Run.report (r : Run) (s : Machine.State) (why : Option Machine.Stop) : Outcome :=
  let output := String.join (s.output.toList.map fun v => s!"> {v}\n")
  let text := bytes (output ++ (if r.trace then (traceTable s).render else ""))
  match why with
  | none => { stdout := text }
  | some why => failed .run text (bytes s!"run: pc {s.pc}: {why.message}")

inductive Step where
  | done (o : Outcome)
  | run (r : Run)

def prepare (s : Settings) (files : Files) (stdin : String) : Step :=
  match s.files with
  | [name] =>
    match loadCode s files name with
    | .error _ => .done (crashed [])
    | .ok (.error e) => .done (failed .run [] e)
    | .ok (.ok code) =>
      match readInput (if s.input.isEmpty then stdin else s.input) with
      | .error e => .done (failed .run [] e)
      | .ok input => .run {
          code := code
          start := .start input
          limit := if s.steps ≤ 0 then none else some s.steps.toNat
          trace := s.trace }
  | _ => .done (failed .run [] (bytes "one program expected"))

end Command

structure Command where
  verb : Command.Verb
  settings : Command.Settings
  deriving DecidableEq, Repr

namespace Command

def parse : List String → Except String Command
  | [] => .error "command expected"
  | name :: args =>
    match Verb.ofName? name with
    | none => .error s!"unknown command: {name}"
    | some v =>
      match readSettings v {} args with
      | .ok s => .ok ⟨v, s⟩
      | .error e => .error s!"{name}: {e}"

def readsInput (c : Command) : Bool := c.verb = .run && c.settings.input.isEmpty

/-- Carry out a command, up to the run of a machine. -/
def perform (c : Command) (files : Files) (stdin : String) : Step :=
  match c.verb with
  | .compile => .done (compileAll c.settings files)
  | .stats => .done (statsAll c.settings files c.settings.files [])
  | .run => prepare c.settings files stdin

end Command

end Accumulator
