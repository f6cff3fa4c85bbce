import CanonicalLR.FirstFollow
import CanonicalLR.ItemMap
/-
The closure of an item map, the step along a symbol, and the symbols that allow one.
-/
namespace CanonicalLR

namespace Rules

variable (rules : Rules) (sets : FirstFollow)

/-- The lookaheads that an item hands to the productions of the non-terminal after its dot: what
may begin the rest of its right side and, if the rest may vanish, its own lookaheads. -/
def handedOn (item : Item) (lookahead : TerminalSet) : TerminalSet :=
  let (begins, vanishes) := sets.firstOfSequence (rules.after item)
  if vanishes then begins ∪ lookahead else begins

def predictions (item : Item) (lookahead : TerminalSet) : List (Item × TerminalSet) :=
  match rules.next item with
  | some (.nonterminal n) =>
    let handed := rules.handedOn sets item lookahead
    (rules.productionsOf n).map fun production => (⟨production, 0⟩, handed)
  | _ => []

def predictRound (map : ItemMap) : ItemMap :=
  (map.entries.flatMap fun entry => rules.predictions sets entry.1 entry.2).foldl
    (fun grown entry => grown.join entry.1 entry.2) map

/-- More rounds than there are ways to grow: each production can be added once, and gain each of
the terminals and each of the lookaheads present at the beginning once. -/
def closureBound (map : ItemMap) : Nat :=
  let present := map.entries.flatMap fun entry => entry.2.ids
  rules.productions.size * (rules.terminalCount + present.length + 1) + 1

def closure (map : ItemMap) : ItemMap :=
  stabilize (rules.predictRound sets) (rules.closureBound map) map

def kernel (map : ItemMap) (symbol : Symbol Nat) : ItemMap :=
  ItemMap.ofList (map.entries.filterMap fun entry =>
    if rules.next entry.1 = some symbol then some (entry.1.advance, entry.2) else none)

def goto (map : ItemMap) (symbol : Symbol Nat) : ItemMap :=
  rules.closure sets (rules.kernel map symbol)

/-- The symbols after some dot in ascending order. The end of the input is left out: it is
accepted, not stepped over. -/
def relevantSymbols (items : List Item) : List (Symbol Nat) :=
  (items.filterMap rules.next).foldl
    (fun symbols symbol =>
      if symbol = .terminal rules.eof then symbols else insertAscending symbol symbols) []

def knows (items : List Item) : Bool := items.all fun item => rules.has item.production

def closure? (map : ItemMap) : Option ItemMap :=
  if rules.knows map.items then some (rules.closure sets map) else none

def goto? (map : ItemMap) (symbol : Symbol Nat) : Option ItemMap :=
  if rules.knows map.items then some (rules.goto sets map symbol) else none

def relevantSymbols? (items : List Item) : Option (List (Symbol Nat)) :=
  if rules.knows items then some (rules.relevantSymbols items) else none

end Rules

end CanonicalLR
