import CanonicalLR.Closure
import CanonicalLR.Construction
import CanonicalLR.Interner
/-
The canonical collection of LR(1) item maps. States are numbered in the order in which a
breadth-first search from the goal meets them, and two states are the same state exactly when
they hold the same items with the same lookaheads.
-/
namespace CanonicalLR

structure Edge where
  source : Nat
  symbol : Symbol Nat
  target : Nat
  deriving DecidableEq, Repr

structure Automaton where
  states : Array ItemMap
  start : Nat
  steps : Array (List (Symbol Nat × Nat))

namespace Automaton

def stateCount (automaton : Automaton) : Nat := automaton.states.size

def items? (automaton : Automaton) (state : Nat) : Option ItemMap := automaton.states[state]?

def stepsFrom (automaton : Automaton) (state : Nat) : List (Symbol Nat × Nat) :=
  automaton.steps.getD state []

def transition (automaton : Automaton) (state : Nat) (symbol : Symbol Nat) : Option Nat :=
  (automaton.stepsFrom state).lookup symbol

def edges (automaton : Automaton) : List Edge :=
  automaton.steps.toList.zipIdx.flatMap fun row =>
    row.1.map fun step => ⟨row.2, step.1, step.2⟩

end Automaton

/-- A collection in the making. The states from `steps.size` on have not been expanded. -/
structure Exploration where
  states : Interner ItemMap Nat
  steps : Array (List (Symbol Nat × Nat))

namespace Exploration

def frontier (exploration : Exploration) : List ItemMap :=
  exploration.states.values.toList.drop exploration.steps.size

def record (exploration : Exploration) (successors : List (Symbol Nat × ItemMap)) : Exploration :=
  let (targets, states) := exploration.states.internAll (successors.map Prod.snd)
  ⟨states, exploration.steps.push ((successors.map Prod.fst).zip targets)⟩

end Exploration

namespace Rules

variable (rules : Rules) (sets : FirstFollow)

def successors (map : ItemMap) : List (Symbol Nat × ItemMap) :=
  (rules.relevantSymbols map.items).map fun symbol => (symbol, rules.goto sets map symbol)

/-- Expands every state that waits; states found on the way wait for the next round. -/
def exploreRound (construction : Construction) (exploration : Exploration) : Exploration :=
  (construction.map (rules.successors sets) exploration.frontier).foldl
    Exploration.record exploration

def explore (construction : Construction) : Nat → Exploration → Exploration
  | 0, exploration => exploration
  | bound + 1, exploration =>
    if exploration.frontier.isEmpty then exploration
    else explore construction bound (rules.exploreRound sets construction exploration)

def allItems : List Item :=
  rules.productions.toList.zipIdx.flatMap fun entry =>
    (List.range (entry.1.rhs.length + 1)).map fun dot => ⟨entry.2, dot⟩

/-- The number of item maps over the items and terminals of the rules: each item is absent or has
one of the sets of terminals. -/
def stateBound : Nat :=
  Nat.pow (Nat.pow 2 rules.terminalCount + 1) rules.allItems.length

def seed : ItemMap := ItemMap.empty.put ⟨rules.goal, 0⟩ (IdSet.singleton rules.eof)

def automaton (construction : Construction) : Automaton :=
  let first := (Interner.empty : Interner ItemMap Nat).intern (rules.closure sets rules.seed)
  let found := rules.explore sets construction rules.stateBound ⟨first.table, #[]⟩
  ⟨found.states.values, first.id, found.steps⟩

theorem exploreRound_eq_sequential (construction : Construction) (exploration : Exploration) :
    rules.exploreRound sets construction exploration =
      rules.exploreRound sets .sequential exploration := by
  simp only [exploreRound, Construction.map_eq]

theorem explore_eq_sequential (construction : Construction) (bound : Nat)
    (exploration : Exploration) :
    rules.explore sets construction bound exploration =
      rules.explore sets .sequential bound exploration := by
  induction bound generalizing exploration with
  | zero => rfl
  | succ bound ih => simp only [explore, exploreRound_eq_sequential, ih]

theorem automaton_eq_sequential (construction : Construction) :
    rules.automaton sets construction = rules.automaton sets .sequential := by
  simp only [automaton, explore_eq_sequential]

end Rules

end CanonicalLR
