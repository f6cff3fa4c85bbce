import CanonicalLR.Printer
/-
Grammars under construction. Non-terminals and terminals are registered in any order, and each
production comes with the handler that computes the value of its left side.
-/
namespace CanonicalLR

abbrev Handler (υ : Type) := List υ → υ

abbrev Lexicon (τ : Type) := Interner τ Nat

structure Grammar (τ υ : Type) where
  lexicon : Lexicon τ
  names : Array String
  productions : Array Production
  byNonterminal : Array (List Nat)
  handlers : Array (Handler υ)
  start : Option Nat
  eof : Nat

inductive GrammarError (τ : Type) where
  | unknownNonterminal (id : Nat)
  | reservedEndOfFile (terminal : τ) (lhs : String)
  | duplicateProduction (lhs : String) (rhs : List String)
  | missingStart

def GrammarError.message {τ : Type} [Spelling τ] : GrammarError τ → String
  | unknownNonterminal id => "non-terminal #" ++ toString id ++ " was not declared by this grammar"
  | reservedEndOfFile terminal lhs =>
    "end-of-file terminal " ++ spelling terminal ++ " cannot appear in a production of `" ++
      lhs ++ "`"
  | duplicateProduction lhs rhs => "production `" ++ ruleText lhs rhs ++ "` is already registered"
  | missingStart => "grammar has no start symbol"

namespace Grammar

variable {τ υ : Type} [DecidableEq τ] [Fingerprint τ]

/-- A grammar without productions. The terminal that ends every input is registered first and
may not stand in a production. -/
def new (eof : τ) : Grammar τ υ :=
  let first := (Interner.empty : Lexicon τ).intern eof
  { lexicon := first.table
    names := #[]
    productions := #[]
    byNonterminal := #[]
    handlers := #[]
    start := none
    eof := first.id }

/-- Declares a non-terminal. The first one declared is the start symbol until `setStart`. -/
def nonterminal (grammar : Grammar τ υ) (name : String) : Nat × Grammar τ υ :=
  let id := grammar.names.size
  (id, { grammar with
    names := grammar.names.push name
    byNonterminal := grammar.byNonterminal.push []
    start := some (grammar.start.getD id) })

def terminal (grammar : Grammar τ υ) (terminal : τ) : Nat × Grammar τ υ :=
  let interned := grammar.lexicon.intern terminal
  (interned.id, { grammar with lexicon := interned.table })

def name? (grammar : Grammar τ υ) (id : Nat) : Option String := grammar.names[id]?

def setStart (grammar : Grammar τ υ) (id : Nat) :
    Except (GrammarError τ) Unit × Grammar τ υ :=
  if id < grammar.names.size then (.ok (), { grammar with start := some id })
  else (.error (.unknownNonterminal id), grammar)

def productionsOf (grammar : Grammar τ υ) (id : Nat) : List Nat :=
  grammar.byNonterminal.getD id []

def internSymbols (lexicon : Lexicon τ) : List (Symbol τ) → List (Symbol Nat) × Lexicon τ
  | [] => ([], lexicon)
  | .nonterminal n :: rest =>
    let (symbols, final) := internSymbols lexicon rest
    (.nonterminal n :: symbols, final)
  | .terminal t :: rest =>
    let first := lexicon.intern t
    let (symbols, final) := internSymbols first.table rest
    (.terminal first.id :: symbols, final)

variable [Spelling τ]

def symbolText (grammar : Grammar τ υ) (lhs : String) : Symbol τ → Except (GrammarError τ) String
  | .nonterminal n =>
    match grammar.names[n]? with
    | some name => .ok name
    | none => .error (.unknownNonterminal n)
  | .terminal t =>
    if grammar.lexicon.find? t = some grammar.eof then .error (.reservedEndOfFile t lhs)
    else .ok (spelling t)

def symbolTexts (grammar : Grammar τ υ) (lhs : String) :
    List (Symbol τ) → Except (GrammarError τ) (List String)
  | [] => .ok []
  | symbol :: rest =>
    match grammar.symbolText lhs symbol with
    | .error refusal => .error refusal
    | .ok text => (symbolTexts grammar lhs rest).map (text :: ·)

def sideTexts (grammar : Grammar τ υ) (lhs : Nat) (rhs : List (Symbol τ)) :
    Except (GrammarError τ) (String × List String) :=
  match grammar.names[lhs]? with
  | none => .error (.unknownNonterminal lhs)
  | some name => (grammar.symbolTexts name rhs).map fun symbols => (name, symbols)

def pushProduction (grammar : Grammar τ υ) (production : Production) (handler : Handler υ) :
    Grammar τ υ :=
  { grammar with
    productions := grammar.productions.push production
    byNonterminal := grammar.byNonterminal.modify production.lhs (· ++ [grammar.productions.size])
    handlers := grammar.handlers.push handler }

/-- Registers `lhs ::= rhs` with its handler. Both sides together may be registered only once,
since a second registration could bring another handler. The grammar afterwards is given in
every case. -/
def addProduction (grammar : Grammar τ υ) (lhs : Nat) (rhs : List (Symbol τ))
    (handler : Handler υ) : Except (GrammarError τ) Nat × Grammar τ υ :=
  match grammar.sideTexts lhs rhs with
  | .error refusal => (.error refusal, grammar)
  | .ok (name, symbols) =>
    let (interned, lexicon) := internSymbols grammar.lexicon rhs
    let production : Production := ⟨lhs, interned⟩
    let extended := { grammar with lexicon }
    if (grammar.productionsOf lhs).any fun id => grammar.productions[id]? = some production then
      (.error (.duplicateProduction name symbols), extended)
    else (.ok grammar.productions.size, extended.pushProduction production handler)

end Grammar

end CanonicalLR
