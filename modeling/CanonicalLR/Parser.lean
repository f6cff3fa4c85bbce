import CanonicalLR.Table
/-
Parsers: a finished grammar with its sets, its automaton and its table, and the questions that
can be asked about it.
-/
namespace CanonicalLR

structure Parser (τ υ : Type) where
  lexicon : Lexicon τ
  rules : Rules
  sets : FirstFollow
  automaton : Automaton
  table : ParseTable
  handlers : Array (Handler υ)

/-- Why a grammar has no parser. The last case stands for an id that cannot be written because
nothing has it. -/
inductive BuildError (τ : Type) where
  | grammar (error : GrammarError τ)
  | workerPool (reasons : List String)
  | conflict (report : ConflictReport)
  | danglingId

namespace FrozenGrammar

variable {τ υ : Type}

def tableOf [Spelling τ] (frozen : FrozenGrammar τ υ) (automaton : Automaton) :
    Except (BuildError τ) ParseTable :=
  match frozen.rules.table automaton with
  | .ok table => .ok table
  | .error conflict =>
    match frozen.printer.conflict? automaton conflict with
    | some report => .error (.conflict report)
    | none => .error .danglingId

/-- The automaton and the table of a grammar. A pool that cannot be started is noticed before
anything of the grammar is looked at. -/
def tabulate [Spelling τ] (frozen : FrozenGrammar τ υ) (sets : FirstFollow) (host : Host)
    (strategy : Strategy) : Except (BuildError τ) (Automaton × ParseTable) :=
  match strategy.launch host with
  | .error reasons => .error (.workerPool reasons)
  | .ok construction =>
    let automaton := frozen.rules.automaton sets construction
    (frozen.tableOf automaton).map fun table => (automaton, table)

/-- Puts an automaton and a table, not necessarily its own, beside a grammar. -/
def parserWith (frozen : FrozenGrammar τ υ) (sets : FirstFollow) (automaton : Automaton)
    (table : ParseTable) : Parser τ υ :=
  ⟨frozen.lexicon, frozen.rules, sets, automaton, table, frozen.handlers⟩

end FrozenGrammar

def Grammar.build {τ υ : Type} [Spelling τ] (grammar : Grammar τ υ) (host : Host)
    (strategy : Strategy) : Except (BuildError τ) (Parser τ υ) :=
  match grammar.freeze with
  | .error error => .error (.grammar error)
  | .ok frozen =>
    let sets := FirstFollow.ofRules frozen.rules
    match frozen.tabulate sets host strategy with
    | .error error => .error error
    | .ok (automaton, table) => .ok (frozen.parserWith sets automaton table)

namespace Parser

variable {τ υ : Type}

def printer (parser : Parser τ υ) : Printer τ :=
  ⟨parser.rules.names, parser.rules.productions, parser.lexicon⟩

def start (parser : Parser τ υ) : Nat := parser.rules.start

def eof? (parser : Parser τ υ) : Option τ := parser.lexicon.get? parser.rules.eof

def name? (parser : Parser τ υ) (nonterminal : Nat) : Option String :=
  parser.rules.names[nonterminal]?

def terminal? (parser : Parser τ υ) (id : Nat) : Option τ := parser.lexicon.get? id

def owns (parser : Parser τ υ) (nonterminal : Nat) : Bool :=
  nonterminal < parser.rules.nonterminalCount

def isNullable (parser : Parser τ υ) (nonterminal : Nat) : Bool :=
  parser.owns nonterminal && parser.sets.isNullable nonterminal

def terminalsOf (parser : Parser τ υ) (set : TerminalSet) : List τ :=
  set.ids.filterMap parser.lexicon.get?

def first? (parser : Parser τ υ) : Symbol τ → Option (List τ)
  | .terminal t => some [t]
  | .nonterminal n =>
    if parser.owns n then some (parser.terminalsOf (parser.sets.firstOf n)) else none

def follow? (parser : Parser τ υ) (nonterminal : Nat) : Option (List τ) :=
  if parser.owns nonterminal then some (parser.terminalsOf (parser.sets.followOf nonterminal))
  else none

variable [DecidableEq τ] [Fingerprint τ]

def terminalId? (parser : Parser τ υ) (terminal : τ) : Option Nat := parser.lexicon.find? terminal

/-- The terminals that may begin a string of symbols, each once, and whether the string may
vanish. Terminals that the grammar does not know begin what they stand in front of. The answer is
`none` if the walk up to the first symbol that cannot vanish meets a non-terminal that is not
this parser's. -/
def firstOfSequence? (parser : Parser τ υ) : List (Symbol τ) → Option (List τ × Bool)
  | [] => some ([], true)
  | .terminal t :: _ => some ([t], false)
  | .nonterminal n :: rest =>
    match parser.first? (.nonterminal n) with
    | none => none
    | some own =>
      if parser.isNullable n then
        (parser.firstOfSequence? rest).map fun (others, vanishes) =>
          (own ++ others.filter (· ∉ own), vanishes)
      else some (own, false)

end Parser

end CanonicalLR
