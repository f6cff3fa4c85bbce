import CanonicalLR.Parser
/-
The parsing machine. It keeps three stacks, top first: the states, of which there is always one
more, and the symbols and values gathered so far. Each step shifts the lookahead, reduces by a
production, accepts, or fails.
-/
namespace CanonicalLR

structure Token (τ υ : Type) where
  kind : τ
  value : υ

inductive Lookahead (τ υ : Type) where
  | token (token : Token τ υ)
  | endOfInput

inductive Fault where
  | shiftAtEnd
  | gotoOnTerminal
  | underflow
  | goalReduction
  | missingGoto (nonterminal : String)
  | acceptArity
  deriving DecidableEq, Repr

def Fault.detail : Fault → String
  | shiftAtEnd => "shift on synthesized end-of-file"
  | gotoOnTerminal => "goto selected on a terminal lookahead"
  | underflow => "stack underflow during reduce"
  | goalReduction => "reduce by the goal production"
  | missingGoto nonterminal => "no goto on `" ++ nonterminal ++ "`"
  | acceptArity => "accept with other than one value on the stack"

/-- Why a run ends without a value. `danglingId` means that one part of the parser uses an id that
another part does not have; `unfinished` means that the run exceeded its bound. -/
inductive ParseError (τ : Type) where
  | unexpectedToken (state : Nat) (found : τ) (position : Nat) (expected : List τ)
      (viable : List String)
  | internal (state : Nat) (fault : Fault)
  | danglingId
  | unfinished
  deriving DecidableEq, Repr

def ParseError.message {τ : Type} [Spelling τ] : ParseError τ → String
  | unexpectedToken state found position expected _ =>
    "unexpected " ++ spelling found ++ " at token " ++ toString position ++ " in state " ++
      toString state ++ ", expected one of " ++ spellList expected
  | internal state fault =>
    "internal parser fault in state " ++ toString state ++ ": " ++ fault.detail
  | danglingId => "an id is unknown to a part of the parser"
  | unfinished => "the run exceeded its bound"

/-- All that a run depends on. `position` counts the tokens shifted, `pulled` those taken from the
input, and `calls` lists the productions whose handlers were called, latest first. -/
structure Configuration (τ υ : Type) where
  states : List Nat
  symbols : List (Symbol Nat)
  values : List υ
  lookahead : Lookahead τ υ
  rest : List (Token τ υ)
  position : Nat
  pulled : Nat
  calls : List Nat

def Configuration.pull {τ υ : Type} (c : Configuration τ υ) : Configuration τ υ :=
  match c.rest with
  | [] => { c with lookahead := .endOfInput }
  | token :: rest => { c with lookahead := .token token, rest, pulled := c.pulled + 1 }

inductive Step (τ υ : Type) where
  | next (c : Configuration τ υ)
  | accepted (value : υ) (c : Configuration τ υ)
  | failed (error : ParseError τ) (c : Configuration τ υ)

namespace Parser

variable {τ υ : Type}

def initial (parser : Parser τ υ) (tokens : List (Token τ υ)) : Configuration τ υ :=
  Configuration.pull
    { states := [parser.automaton.start]
      symbols := []
      values := []
      lookahead := .endOfInput
      rest := tokens
      position := 0
      pulled := 0
      calls := [] }

def fault (c : Configuration τ υ) (fault : Fault) : Step τ υ :=
  match c.states with
  | state :: _ => .failed (.internal state fault) c
  | [] => .failed .danglingId c

def shift (c : Configuration τ υ) (terminal target : Nat) : Step τ υ :=
  match c.lookahead with
  | .endOfInput => fault c .shiftAtEnd
  | .token token => .next (Configuration.pull
      { c with
        states := target :: c.states
        symbols := .terminal terminal :: c.symbols
        values := token.value :: c.values
        position := c.position + 1 })

def follow (parser : Parser τ υ) (c : Configuration τ υ) (lhs : Nat) (value : υ) : Step τ υ :=
  match c.states with
  | [] => .failed .danglingId c
  | exposed :: _ =>
    match parser.table.action exposed (.nonterminal lhs) with
    | some (.goto target) => .next
        { c with
          states := target :: c.states
          symbols := .nonterminal lhs :: c.symbols
          values := value :: c.values }
    | _ =>
      match parser.name? lhs with
      | some name => fault c (.missingGoto name)
      | none => .failed .danglingId c

def reduce (parser : Parser τ υ) (c : Configuration τ υ) (id : Nat) : Step τ υ :=
  match parser.rules.productions[id]? with
  | none => .failed .danglingId c
  | some production =>
    let count := production.rhs.length
    if c.values.length < count ∨ c.states.length ≤ count then fault c .underflow
    else
      match parser.handlers[id]? with
      | none => fault c .goalReduction
      | some handler =>
        let value := handler (c.values.take count).reverse
        parser.follow
          { c with
            states := c.states.drop count
            symbols := c.symbols.drop count
            values := c.values.drop count
            calls := id :: c.calls }
          production.lhs value

/-- Gives out the only value; more or fewer values than one are a fault. -/
def accept (c : Configuration τ υ) : Step τ υ :=
  match c.values with
  | [value] => .accepted value { c with values := [] }
  | values => fault { c with values := values.drop 1 } .acceptArity

def found? (parser : Parser τ υ) : Lookahead τ υ → Option τ
  | .token token => some token.kind
  | .endOfInput => parser.eof?

def unexpected? [Spelling τ] (parser : Parser τ υ) (c : Configuration τ υ) (state : Nat) :
    Option (ParseError τ) := do
  let found ← parser.found? c.lookahead
  let expected ← (parser.table.expected state).mapM parser.terminal?
  let viable ← c.symbols.reverse.mapM parser.printer.symbol?
  return .unexpectedToken state found c.position expected viable

variable [DecidableEq τ] [Fingerprint τ]

def lookaheadId? (parser : Parser τ υ) : Lookahead τ υ → Option Nat
  | .token token => parser.terminalId? token.kind
  | .endOfInput => some parser.rules.eof

variable [Spelling τ]

def reject (parser : Parser τ υ) (c : Configuration τ υ) (state : Nat) : Step τ υ :=
  match parser.unexpected? c state with
  | some error => .failed error c
  | none => .failed .danglingId c

def step (parser : Parser τ υ) (c : Configuration τ υ) : Step τ υ :=
  match c.states with
  | [] => .failed .danglingId c
  | state :: _ =>
    match parser.lookaheadId? c.lookahead with
    | none => parser.reject c state
    | some terminal =>
      match parser.table.action state (.terminal terminal) with
      | some (.shift target) => shift c terminal target
      | some (.reduce production) => parser.reduce c production
      | some .accept => accept c
      | some (.goto _) => fault c .gotoOnTerminal
      | none => parser.reject c state

end Parser

structure Run (τ υ : Type) where
  outcome : Except (ParseError τ) υ
  last : Configuration τ υ

def Run.pulled {τ υ : Type} (run : Run τ υ) : Nat := run.last.pulled

def Run.trace {τ υ : Type} (run : Run τ υ) : List Nat := run.last.calls.reverse

namespace Parser

variable {τ υ : Type} [DecidableEq τ] [Fingerprint τ] [Spelling τ]

def runFrom (parser : Parser τ υ) : Nat → Configuration τ υ → Run τ υ
  | 0, c => ⟨.error .unfinished, c⟩
  | bound + 1, c =>
    match parser.step c with
    | .next c => runFrom parser bound c
    | .accepted value c => ⟨.ok value, c⟩
    | .failed error c => ⟨.error error, c⟩

/-- A bound on the steps of a run. On one lookahead a run that ends passes through no stack twice,
and no stack is higher by more than the number of states than the lowest one before it; so the
states above the lowest point, and the lowest point itself, bound the reductions between two
shifts. -/
def stepBound (parser : Parser τ υ) (tokens : List (Token τ υ)) : Nat :=
  (tokens.length + 2) * (tokens.length + 2) *
    Nat.pow (parser.table.stateCount + 2) (parser.table.stateCount + 4)

def run (parser : Parser τ υ) (tokens : List (Token τ υ)) : Run τ υ :=
  parser.runFrom (parser.stepBound tokens) (parser.initial tokens)

def parse (parser : Parser τ υ) (tokens : List (Token τ υ)) : Except (ParseError τ) υ :=
  (parser.run tokens).outcome

end Parser

end CanonicalLR
