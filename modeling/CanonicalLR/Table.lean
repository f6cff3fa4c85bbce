import CanonicalLR.Automaton
/-
Parse tables. The automaton demands actions of each state; a table is what is left when no two
demands meet at one symbol, and a conflict is the first place where two do.
-/
namespace CanonicalLR

inductive Action where
  | shift (state : Nat)
  | goto (state : Nat)
  | reduce (production : Nat)
  | accept
  deriving DecidableEq, Repr

structure ParseTable where
  terminalCount : Nat
  rows : Array (List (Symbol Nat × Action))

namespace ParseTable

def stateCount (table : ParseTable) : Nat := table.rows.size

def row (table : ParseTable) (state : Nat) : List (Symbol Nat × Action) := table.rows.getD state []

def action (table : ParseTable) (state : Nat) (symbol : Symbol Nat) : Option Action :=
  (table.row state).lookup symbol

def expected (table : ParseTable) (state : Nat) : List Nat :=
  (List.range table.terminalCount).filter fun t => (table.action state (.terminal t)).isSome

def size (table : ParseTable) : Nat := table.rows.toList.flatten.length

def isEmpty (table : ParseTable) : Bool := table.size == 0

end ParseTable

def stepAction (target : Nat) : Symbol Nat → Action
  | .terminal _ => .shift target
  | .nonterminal _ => .goto target

namespace Rules

/-- What an item demands: at the end of its production a reduction on each lookahead, and in front
of the end of the input acceptance. -/
def itemDemands (rules : Rules) (item : Item) (lookahead : TerminalSet) :
    List (Symbol Nat × Action) :=
  if rules.isComplete item then
    lookahead.ids.map fun t => (.terminal t, .reduce item.production)
  else if rules.next item = some (.terminal rules.eof) then [(.terminal rules.eof, .accept)]
  else []

def demands (rules : Rules) (map : ItemMap) (steps : List (Symbol Nat × Nat)) :
    List (Symbol Nat × Action) :=
  (steps.map fun step => (step.1, stepAction step.2 step.1)) ++
    map.entries.flatMap fun entry => rules.itemDemands entry.1 entry.2

end Rules

structure Conflict where
  state : Nat
  symbol : Symbol Nat
  existing : Action
  incoming : Action
  deriving DecidableEq, Repr

/-- Enters demands into a row in order, up to the first that finds its symbol taken. -/
def fillRow (state : Nat) (row : List (Symbol Nat × Action)) :
    List (Symbol Nat × Action) → Except Conflict (List (Symbol Nat × Action))
  | [] => .ok row
  | (symbol, incoming) :: rest =>
    match row.lookup symbol with
    | none => fillRow state (row ++ [(symbol, incoming)]) rest
    | some existing => .error ⟨state, symbol, existing, incoming⟩

def fillRows (rules : Rules) (state : Nat) :
    List (ItemMap × List (Symbol Nat × Nat)) →
      Except Conflict (List (List (Symbol Nat × Action)))
  | [] => .ok []
  | (map, steps) :: rest =>
    match fillRow state [] (rules.demands map steps) with
    | .error conflict => .error conflict
    | .ok row => (fillRows rules (state + 1) rest).map (row :: ·)

/-- The table of an automaton, or its first conflict in the order of the states. -/
def Rules.table (rules : Rules) (automaton : Automaton) : Except Conflict ParseTable :=
  (fillRows rules 0 (automaton.states.toList.zip automaton.steps.toList)).map fun rows =>
    ⟨rules.terminalCount, rows.toArray⟩

inductive ConflictKind where
  | shiftReduce
  | reduceReduce
  | other
  deriving DecidableEq, Repr

def ConflictKind.text : ConflictKind → String
  | shiftReduce => "shift/reduce"
  | reduceReduce => "reduce/reduce"
  | other => "action"

def Conflict.kind (conflict : Conflict) : ConflictKind :=
  match conflict.existing, conflict.incoming with
  | .shift _, .reduce _ => .shiftReduce
  | .reduce _, .shift _ => .shiftReduce
  | .reduce _, .reduce _ => .reduceReduce
  | _, _ => .other

structure ConflictReport where
  state : Nat
  symbol : String
  kind : ConflictKind
  existing : String
  incoming : String
  items : List String
  deriving DecidableEq, Repr

def ConflictReport.message (report : ConflictReport) : String :=
  report.kind.text ++ " conflict in state " ++ toString report.state ++ " on " ++ report.symbol ++
    ": `" ++ report.existing ++ "` vs `" ++ report.incoming ++ "`"

namespace Printer

variable {τ : Type} [Spelling τ]

def action? (printer : Printer τ) : Action → Option String
  | .shift state => some ("shift " ++ toString state)
  | .goto state => some ("goto " ++ toString state)
  | .reduce production => (printer.rule? production).map ("reduce " ++ ·)
  | .accept => some "accept"

def items? (printer : Printer τ) (map : ItemMap) : Option (List String) :=
  map.entries.mapM fun entry => printer.lookaheadItem? entry.1 entry.2

def conflict? (printer : Printer τ) (automaton : Automaton) (conflict : Conflict) :
    Option ConflictReport := do
  let symbol ← printer.symbol? conflict.symbol
  let existing ← printer.action? conflict.existing
  let incoming ← printer.action? conflict.incoming
  let items ← printer.items? (← automaton.items? conflict.state)
  return { state := conflict.state, symbol, kind := conflict.kind, existing, incoming, items }

end Printer

end CanonicalLR
