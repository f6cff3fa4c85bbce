import CanonicalLR.Fixpoint
import CanonicalLR.Rules
/-
Which non-terminals derive the empty string, which terminals begin what a symbol derives, and
which follow it. Each answer is a least fixed point, reached in rounds over all productions from
the empty answer; a round that adds nothing is the last.
-/
namespace CanonicalLR

def inNullable (nullable : IdSet) : Symbol Nat → Bool
  | .terminal _ => false
  | .nonterminal n => nullable.contains n

/-- The terminals that may begin a string of symbols, and whether the string may vanish: first
sets are joined from left to right up to the first symbol that cannot vanish. -/
def firstOfString (nullable : IdSet) (first : Array TerminalSet) :
    List (Symbol Nat) → TerminalSet × Bool
  | [] => (∅, true)
  | .terminal t :: _ => (IdSet.singleton t, false)
  | .nonterminal n :: rest =>
    let own := first.getD n ∅
    if nullable.contains n then
      let (others, vanishes) := firstOfString nullable first rest
      (own ∪ others, vanishes)
    else (own, false)

namespace Rules

def nullableRound (rules : Rules) (nullable : IdSet) : IdSet :=
  (rules.productions.toList.filter fun production =>
    production.rhs.all (inNullable nullable)).foldl
      (fun set production => set.insert production.lhs) nullable

def nullableSet (rules : Rules) : IdSet :=
  stabilize rules.nullableRound (rules.nonterminalCount + 1) ∅

def firstRound (rules : Rules) (nullable : IdSet) (first : Array TerminalSet) :
    Array TerminalSet :=
  (Array.range rules.nonterminalCount).map fun n =>
    rules.productions.toList.foldl
      (fun set production =>
        if production.lhs = n then set ∪ (firstOfString nullable first production.rhs).1 else set)
      (first.getD n ∅)

def noTerminals (rules : Rules) : Array TerminalSet := Array.replicate rules.nonterminalCount ∅

def firstSets (rules : Rules) (nullable : IdSet) : Array TerminalSet :=
  stabilize (rules.firstRound nullable)
    (rules.nonterminalCount * rules.terminalCount + 1) rules.noTerminals

end Rules

/-- What follows the occurrences of a non-terminal in a right side: whatever may begin the string
behind it and, if that string may vanish, whatever follows the left side. -/
def followIn (nullable : IdSet) (first : Array TerminalSet) (nonterminal : Nat)
    (inherited : TerminalSet) : List (Symbol Nat) → TerminalSet
  | [] => ∅
  | symbol :: rest =>
    let later := followIn nullable first nonterminal inherited rest
    if symbol = .nonterminal nonterminal then
      let (begins, vanishes) := firstOfString nullable first rest
      (if vanishes then begins ∪ inherited else begins) ∪ later
    else later

namespace Rules

def followRound (rules : Rules) (nullable : IdSet) (first follow : Array TerminalSet) :
    Array TerminalSet :=
  (Array.range rules.nonterminalCount).map fun n =>
    rules.productions.toList.foldl
      (fun set production =>
        set ∪ followIn nullable first n (follow.getD production.lhs ∅) production.rhs)
      (follow.getD n ∅)

def followSets (rules : Rules) (nullable : IdSet) (first : Array TerminalSet) :
    Array TerminalSet :=
  stabilize (rules.followRound nullable first)
    (rules.nonterminalCount * rules.terminalCount + 1) rules.noTerminals

end Rules

structure FirstFollow where
  nullable : IdSet
  first : Array TerminalSet
  follow : Array TerminalSet

namespace FirstFollow

def ofRules (rules : Rules) : FirstFollow :=
  let nullable := rules.nullableSet
  let first := rules.firstSets nullable
  { nullable, first, follow := rules.followSets nullable first }

def isNullable (sets : FirstFollow) (nonterminal : Nat) : Bool :=
  sets.nullable.contains nonterminal

def firstOf (sets : FirstFollow) (nonterminal : Nat) : TerminalSet :=
  sets.first.getD nonterminal ∅

def followOf (sets : FirstFollow) (nonterminal : Nat) : TerminalSet :=
  sets.follow.getD nonterminal ∅

def firstOfSequence (sets : FirstFollow) (symbols : List (Symbol Nat)) : TerminalSet × Bool :=
  firstOfString sets.nullable sets.first symbols

/-- Whether the walk of `firstOfSequence` meets only non-terminals that have a first set. -/
def covers (sets : FirstFollow) : List (Symbol Nat) → Bool
  | [] => true
  | .terminal _ :: _ => true
  | .nonterminal n :: rest =>
    n < sets.first.size && (!sets.nullable.contains n || sets.covers rest)

def firstOfSequence? (sets : FirstFollow) (symbols : List (Symbol Nat)) :
    Option (TerminalSet × Bool) :=
  if sets.covers symbols then some (sets.firstOfSequence symbols) else none

end FirstFollow

end CanonicalLR
