import CanonicalLR.Machine
import CanonicalLR.Scalar
import CanonicalLR.Text.Blank
/-
Four small grammars over words. Their handlers write down the derivation tree, so the value of an
input is its tree.
-/
namespace CanonicalLR

/-- The samples and their rules:
- `arith`: `E ::= E + T | T`, `T ::= T * F | F`, `F ::= ( E ) | id | num`
- `lr1`: `S ::= a E a | a F c | c F a | c E c`, `E ::= e`, `F ::= e`
- `whitespaceLeft`: `S ::= < W >`, `W ::= W ws | ε`
- `whitespaceRight`: `S ::= < W >`, `W ::= ws W | ε` -/
inductive Sample where
  | arith
  | lr1
  | whitespaceLeft
  | whitespaceRight
  deriving DecidableEq, Repr

namespace Sample

def nonterminals : Sample → List String
  | arith => ["E", "T", "F"]
  | lr1 => ["S", "E", "F"]
  | whitespaceLeft | whitespaceRight => ["S", "W"]

def word (text : String) : Symbol String := .terminal text

def rules : Sample → List (Nat × List (Symbol String))
  | arith =>
    [(0, [.nonterminal 0, word "+", .nonterminal 1]),
      (0, [.nonterminal 1]),
      (1, [.nonterminal 1, word "*", .nonterminal 2]),
      (1, [.nonterminal 2]),
      (2, [word "(", .nonterminal 0, word ")"]),
      (2, [word "id"]),
      (2, [word "num"])]
  | lr1 =>
    [(0, [word "a", .nonterminal 1, word "a"]),
      (0, [word "a", .nonterminal 2, word "c"]),
      (0, [word "c", .nonterminal 2, word "a"]),
      (0, [word "c", .nonterminal 1, word "c"]),
      (1, [word "e"]),
      (2, [word "e"])]
  | whitespaceLeft =>
    [(0, [word "<", .nonterminal 1, word ">"]),
      (1, [.nonterminal 1, word "ws"]),
      (1, [])]
  | whitespaceRight =>
    [(0, [word "<", .nonterminal 1, word ">"]),
      (1, [word "ws", .nonterminal 1]),
      (1, [])]

def declare (names : List String) (grammar : Grammar String String) : Grammar String String :=
  names.foldl (fun grammar name => (grammar.nonterminal name).2) grammar

/-- Registers rules in order; each handler writes one step of the derivation. -/
def register (grammar : Grammar String String) :
    List (Nat × List (Symbol String)) → Except (GrammarError String) (Grammar String String)
  | [] => .ok grammar
  | (lhs, rhs) :: rest =>
    match grammar.addProduction lhs rhs (treeText ((grammar.name? lhs).getD "")) with
    | (.error error, _) => .error error
    | (.ok _, extended) => register extended rest

def grammar (sample : Sample) : Except (GrammarError String) (Grammar String String) :=
  register (declare sample.nonterminals (Grammar.new "$")) sample.rules

def parser (sample : Sample) (host : Host) (strategy : Strategy) :
    Except (BuildError String) (Parser String String) :=
  match sample.grammar with
  | .error error => .error (.grammar error)
  | .ok grammar => grammar.build host strategy

end Sample

def selfTokens (words : List String) : List (Token String String) :=
  words.map fun word => ⟨word, word⟩

def wordTokens (text : String) : List (Token String String) := selfTokens (words text)

end CanonicalLR
