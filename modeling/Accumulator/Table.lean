/-!
# Text tables

A table has a title over all columns, a header, rows and perhaps a footer, in a frame of plus signs,
dashes and bars. Header and footer are in capitals. Columns of numbers are set to the right with
their header and footer, all others to the left. A title that is too long goes over several lines.
-/

namespace Accumulator

inductive Entry where
  | text (s : String)
  | number (n : Int)
  deriving DecidableEq, Repr

/-- A tab is as wide as four blanks. -/
def expandTabs (s : String) : String :=
  String.join (s.toList.map fun c => if c = '\t' then "    " else c.toString)

def Entry.render : Entry → String
  | .text s => expandTabs s
  | .number n => s!"{n}"

def Entry.isNumber : Entry → Bool
  | .text _ => false
  | .number _ => true

structure Table where
  title : String
  header : List String
  rows : List (List Entry)
  footer : Option (List Entry) := none
  deriving DecidableEq, Repr

namespace Table

def wideRanges : List (Nat × Nat) :=
  [(0x1100, 0x115F), (0x2E80, 0x303E), (0x3041, 0x33FF), (0x3400, 0x4DBF), (0x4E00, 0x9FFF),
    (0xA000, 0xA4CF), (0xAC00, 0xD7A3), (0xF900, 0xFAFF), (0xFE30, 0xFE6F), (0xFF01, 0xFF60),
    (0xFFE0, 0xFFE6), (0x1F300, 0x1F64F), (0x1F680, 0x1F6FF), (0x1F900, 0x1F9FF),
    (0x20000, 0x3FFFD)]

/-- The columns that a character takes: none for control and combining characters. -/
def charWidth (c : Char) : Nat :=
  if c.toNat < 0x20 || (0x7F ≤ c.toNat && c.toNat < 0xA0) || (0x300 ≤ c.toNat && c.toNat ≤ 0x36F)
  then 0
  else if wideRanges.any fun (a, b) => a ≤ c.toNat && c.toNat ≤ b then 2
  else 1

def width (s : String) : Nat := s.toList.foldl (fun n c => n + charWidth c) 0

def blanks (n : Nat) : String := String.ofList (List.replicate n ' ')

def padRight (n : Nat) (s : String) : String := s ++ blanks (n - width s)

def padLeft (n : Nat) (s : String) : String := blanks (n - width s) ++ s

abbrev Texts := List (List String)

def texts (cells : List Entry) : Texts := cells.map fun c => c.render.splitOn "\n"

def capitals (cells : List Entry) : Texts :=
  cells.map fun c => (c.render.map Char.toUpper).splitOn "\n"

def shown (t : Table) : Texts × List Texts × Option Texts :=
  (capitals (t.header.map .text), t.rows.map texts, t.footer.map capitals)

def widths (rows : List Texts) : List Nat :=
  rows.foldl (fun ws row =>
    let n := max ws.length row.length
    (List.range n).map fun i =>
      ((row[i]?).getD []).foldl (fun w line => max w (width line)) ((ws[i]?).getD 0)) []

def numeric (t : Table) : List Bool :=
  (List.range t.header.length).map fun i =>
    t.rows.all fun row => (row[i]?).any (·.isNumber)

def rule (ws : List Nat) : String :=
  "+" ++ String.join (ws.map fun w => String.ofList (List.replicate (w + 2) '-') ++ "+") ++ "\n"

def line (ws : List Nat) (numeric : List Bool) (row : Texts) (i : Nat) : String :=
  "|" ++ String.join ((ws.zip numeric).zipIdx.map fun ((w, right), k) =>
    let s := (((row[k]?).getD [])[i]?).getD ""
    " " ++ (if right then padLeft w s else padRight w s) ++ " |") ++ "\n"

def lines (ws : List Nat) (numeric : List Bool) (row : Texts) : String :=
  String.join ((List.range (row.foldl (fun n cell => max n cell.length) 1)).map
    (line ws numeric row))

def cut (n : Nat) (cs : List Char) : List (List Char) :=
  if _h : n = 0 ∨ cs.length ≤ n then [cs]
  else cs.take n :: cut n (cs.drop n)
  termination_by cs.length
  decreasing_by simp; omega

def titleLines (inner : Nat) (title : String) : String :=
  String.join ((cut inner title.toList).map fun cs =>
    let s := (String.ofList cs).trimAscii.toString
    "| " ++ padRight inner s ++ " |\n")

def render (t : Table) : String :=
  let (header, rows, footer) := t.shown
  let ws := widths (header :: rows ++ footer.toList)
  let inner := ws.foldl (fun n w => n + (w + 3)) 0 - 3
  let numeric := t.numeric
  let bar := rule ws
  "+" ++ String.ofList (List.replicate (inner + 2) '-') ++ "+\n" ++
    titleLines inner t.title ++ bar ++ lines ws numeric header ++ bar ++
    String.join (rows.map (lines ws numeric)) ++ bar ++
    match footer with
    | some row => lines ws numeric row ++ bar
    | none => ""

end Table

end Accumulator
