import CanonicalLR.IdSet
import CanonicalLR.Interner
import CanonicalLR.Item
import CanonicalLR.RuleText
import CanonicalLR.Spelling
/-
From ids back to names. Every function gives `none` exactly when it meets an id that the names,
the productions or the lexicon do not have.
-/
namespace CanonicalLR

structure Printer (τ : Type) where
  names : Array String
  productions : Array Production
  lexicon : Interner τ Nat

namespace Printer

variable {τ : Type} [Spelling τ]

def terminal? (printer : Printer τ) (id : Nat) : Option String :=
  (printer.lexicon.get? id).map spelling

def nonterminal? (printer : Printer τ) (id : Nat) : Option String :=
  printer.names[id]?

def symbol? (printer : Printer τ) : Symbol Nat → Option String
  | .terminal t => printer.terminal? t
  | .nonterminal n => printer.nonterminal? n

def terminals? (printer : Printer τ) (set : TerminalSet) : Option String := do
  let members ← set.ids.mapM printer.terminal?
  return "\x7b" ++ String.intercalate ", " members ++ "\x7d"

def production? (printer : Printer τ) (production : Production) : Option String := do
  let name ← printer.nonterminal? production.lhs
  let symbols ← production.rhs.mapM printer.symbol?
  return ruleText name symbols

def rule? (printer : Printer τ) (id : Nat) : Option String := do
  printer.production? (← printer.productions[id]?)

def item? (printer : Printer τ) (item : Item) : Option String := do
  let production ← printer.productions[item.production]?
  let name ← printer.nonterminal? production.lhs
  let symbols ← production.rhs.mapM printer.symbol?
  return itemText name symbols item.dot

/-- An item followed by its lookaheads: `E ::= E . + T, {"+", "$"}`. -/
def lookaheadItem? (printer : Printer τ) (item : Item) (lookahead : TerminalSet) :
    Option String := do
  let dotted ← printer.item? item
  let members ← printer.terminals? lookahead
  return dotted ++ ", " ++ members

end Printer

end CanonicalLR
