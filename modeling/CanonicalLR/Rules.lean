import CanonicalLR.Grammar
/-
The rules of a finished grammar: its productions and names without handlers and terminal values.
The rules end with the goal `<goal> ::= start eof`, which has no handler.
-/
namespace CanonicalLR

structure Rules where
  names : Array String
  productions : Array Production
  byNonterminal : Array (List Nat)
  terminalCount : Nat
  eof : Nat
  start : Nat
  goal : Nat

namespace Rules

def nonterminalCount (rules : Rules) : Nat := rules.names.size

def has (rules : Rules) (production : Nat) : Bool := production < rules.productions.size

/-- The right side of a production; an id that belongs to none has the empty right side. -/
def rhs (rules : Rules) (production : Nat) : List (Symbol Nat) :=
  (rules.productions[production]?.map Production.rhs).getD []

def productionsOf (rules : Rules) (nonterminal : Nat) : List Nat :=
  rules.byNonterminal.getD nonterminal []

def next (rules : Rules) (item : Item) : Option (Symbol Nat) :=
  (rules.rhs item.production)[item.dot]?

def after (rules : Rules) (item : Item) : List (Symbol Nat) :=
  (rules.rhs item.production).drop (item.dot + 1)

def isComplete (rules : Rules) (item : Item) : Bool :=
  item.dot == (rules.rhs item.production).length

end Rules

def goalName : String := "<goal>"

/-- A finished grammar. Handlers belong to the productions with the same ids. -/
structure FrozenGrammar (τ υ : Type) where
  lexicon : Lexicon τ
  rules : Rules
  handlers : Array (Handler υ)

namespace Grammar

variable {τ υ : Type}

def rulesFrom (grammar : Grammar τ υ) (start : Nat) : Rules :=
  { names := grammar.names.push goalName
    productions := grammar.productions.push
      ⟨grammar.names.size, [.nonterminal start, .terminal grammar.eof]⟩
    byNonterminal := grammar.byNonterminal.push [grammar.productions.size]
    terminalCount := grammar.lexicon.size
    eof := grammar.eof
    start := start
    goal := grammar.productions.size }

def freeze (grammar : Grammar τ υ) : Except (GrammarError τ) (FrozenGrammar τ υ) :=
  match grammar.start with
  | none => .error .missingStart
  | some start => .ok ⟨grammar.lexicon, grammar.rulesFrom start, grammar.handlers⟩

end Grammar

def FrozenGrammar.printer {τ υ : Type} (frozen : FrozenGrammar τ υ) : Printer τ :=
  ⟨frozen.rules.names, frozen.rules.productions, frozen.lexicon⟩

end CanonicalLR
