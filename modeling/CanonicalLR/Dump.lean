import CanonicalLR.Parser
import CanonicalLR.Text.Column
/-
A parser in print: its table as a grid, its states as a list, and its automaton as a diagram in
the language of Graphviz. Each is refused when an id cannot be written, and the grid also when its
cells would be too wide.
-/
namespace CanonicalLR

def cellText : Option Action → String
  | none => ""
  | some (.shift state) => "s" ++ toString state
  | some (.goto state) => "g" ++ toString state
  | some (.reduce production) => "r" ++ toString production
  | some .accept => "acc"

/-- Cells are wide enough for five bytes and for every header, and one wider. -/
def cellWidth (headers : List String) : Nat :=
  (headers.map String.utf8ByteSize).foldl max 5 + 1

/-- Widths are words of 16 bits. -/
def maxCellWidth : Nat := 65535

inductive GridError where
  | danglingId
  | tooWide (width : Nat)
  deriving DecidableEq, Repr

def gridLine (width : Nat) (margin : String) (cells : List String) : String :=
  padRight 6 margin ++ String.join (cells.map (centre width)) ++ "\n"

/-- A label with quotes and backslashes escaped, each line ending on the left. -/
def labelText (text : String) : String :=
  String.ofList (text.toList.flatMap fun c =>
    if c = '"' then ['\\', '"']
    else if c = '\\' then ['\\', '\\']
    else if c = '\n' then ['\\', 'l']
    else [c])

def stateHeading (state : Nat) : String := "state " ++ toString state

namespace Parser

variable {τ υ : Type}

def columns (parser : Parser τ υ) : List (Symbol Nat) :=
  (List.range parser.table.terminalCount).map .terminal ++
    (List.range parser.rules.nonterminalCount).map .nonterminal

def cells (parser : Parser τ υ) (state : Nat) : List String :=
  parser.columns.map fun symbol => cellText (parser.table.action state symbol)

def grid (parser : Parser τ υ) (headers : List String) : String :=
  let width := cellWidth headers
  let lines := (List.range parser.table.stateCount).map fun state =>
    gridLine width (toString state) (parser.cells state)
  gridLine width "" headers ++ String.join lines

variable [Spelling τ]

def headers? (parser : Parser τ υ) : Option (List String) :=
  parser.columns.mapM parser.printer.symbol?

def tableText (parser : Parser τ υ) : Except GridError String :=
  match parser.headers? with
  | none => .error .danglingId
  | some headers =>
    if cellWidth headers ≤ maxCellWidth then .ok (parser.grid headers)
    else .error (.tooWide (cellWidth headers))

def stateItems? (parser : Parser τ υ) : Option (List (List String)) :=
  parser.automaton.states.toList.mapM parser.printer.items?

def statesText? (parser : Parser τ υ) : Option String := do
  let states ← parser.stateItems?
  return String.join (states.zipIdx.map fun entry =>
    stateHeading entry.2 ++ "\n" ++
      String.join (entry.1.map fun item => "    " ++ item ++ "\n"))

def nodeText (state : Nat) (items : List String) : String :=
  let label := String.intercalate "\n" (stateHeading state :: items)
  "    " ++ toString state ++ " [ label = \"" ++ labelText label ++ "\" ]\n"

def edgeText (edge : Edge) (symbol : String) : String :=
  "    " ++ toString edge.source ++ " -> " ++ toString edge.target ++
    " [ label = \"" ++ labelText symbol ++ "\" ]\n"

def dotText? (parser : Parser τ υ) : Option String := do
  let states ← parser.stateItems?
  let edges ← parser.automaton.edges.mapM fun edge =>
    (parser.printer.symbol? edge.symbol).map (edgeText edge)
  let nodes := states.zipIdx.map fun entry => nodeText entry.2 entry.1
  return "digraph \x7b\n" ++ String.join nodes ++ String.join edges ++ "\x7d\n"

end Parser

end CanonicalLR
