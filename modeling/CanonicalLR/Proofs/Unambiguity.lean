import CanonicalLR.Proofs.Outcomes
/-
A grammar that has a parser is unambiguous. The control of the machine makes the reductions of any
derivation of a word, in post-order; as it has no choice, two derivations of one word have the same
post-order, and then they are the same tree.
-/
namespace CanonicalLR

/-- Two derivations of one word by the start symbol. The leaves carry no values, so that trees
differ in their productions or not at all. -/
def Grammar.Ambiguous {τ υ : Type} (grammar : Grammar τ υ) : Prop :=
  ∃ (start : Nat) (tree other : Tree τ Unit), grammar.start = some start ∧
    Derivation grammar.lexicon grammar.productions [.nonterminal start] [tree] ∧
    Derivation grammar.lexicon grammar.productions [.nonterminal start] [other] ∧
    tree.leaves.map Token.kind = other.leaves.map Token.kind ∧ tree ≠ other

namespace Machinery

variable {rules : Rules} {automaton : Automaton} {table : ParseTable}

theorem calls_unique (machinery : Machinery rules automaton table) {word cs ds : List Nat}
    (first : Generates rules.productions [.nonterminal rules.start] word cs)
    (second : Generates rules.productions [.nonterminal rules.start] word ds) : cs = ds := by
  obtain ⟨final, run, takes⟩ := machinery.word_runs first
  obtain ⟨other, twin, ends⟩ := machinery.word_runs second
  obtain ⟨es, rfl, onward⟩ := run.toward twin ends
  obtain ⟨rfl, _⟩ := onward.stays takes
  rw [List.append_nil]

theorem tree_unique (machinery : Machinery rules automaton table) {τ υ : Type} [Fingerprint τ]
    {lexicon : Lexicon τ} (faithful : lexicon.Faithful) {tree other : Tree τ υ}
    (first : Derivation lexicon rules.productions [.nonterminal rules.start] [tree])
    (second : Derivation lexicon rules.productions [.nonterminal rules.start] [other])
    (leaves : tree.leaves = other.leaves) : tree = other := by
  have leaves : Forest.leaves [tree] = Forest.leaves [other] := by
    simpa [Forest.leaves] using leaves
  obtain ⟨word, made, spelled⟩ := first.generates
  obtain ⟨twin, again, same⟩ := second.generates
  rw [leaves] at spelled
  obtain rfl := faithful.ids_unique spelled same
  have calls := machinery.calls_unique made again
  have order : [] ++ Forest.calls [tree] = [] ++ Forest.calls [other] := by rw [calls]
  have yields : [] ++ Forest.leaves [tree] = [] ++ Forest.leaves [other] := by rw [leaves]
  exact List.singleton_inj.1 (first.unique second order yields).1

end Machinery

variable {τ υ : Type} [Fingerprint τ] {eof : τ} {parser : Parser τ υ}

theorem Parser.From.not_ambiguous {grammar : Grammar τ υ} {start : Nat}
    (origin : parser.From grammar start) (wf : grammar.WellFormed eof) : ¬ grammar.Ambiguous := by
  rintro ⟨opening, tree, other, declared, first, second, kinds, distinct⟩
  obtain rfl := Option.some.inj (declared.symm.trans origin.declared)
  have machinery := (origin.built wf).machinery
  rw [origin.rules] at machinery
  have carries := grammar.rulesFrom_carries opening
  refine distinct (machinery.tree_unique wf.lexicon
    (first.carry carries fun _ _ => trivial) (second.carry carries fun _ _ => trivial) ?_)
  -- leaves without values are given by their kinds
  refine List.map_injective_iff.2 ?_ kinds
  rintro ⟨kind, _⟩ ⟨same, _⟩ rfl
  rfl

variable [DecidableEq τ] [Spelling τ] {calls : List (Registration τ υ)}

/-- `E ::= E + E | n`, where sums of three can be grouped in two ways. -/
def sums : List (Registration String Nat) :=
  [.nonterminal "E",
    .production 0 [.nonterminal 0, .terminal "+", .nonterminal 0] (List.foldl Nat.add 0),
    .production 0 [.terminal "n"] (List.foldl Nat.add 0)]

def addend : Tree String Unit := .node 1 [.leaf ⟨"n", ()⟩]

def sum (left right : Tree String Unit) : Tree String Unit :=
  .node 0 [left, .leaf ⟨"+", ()⟩, right]

theorem addend_derivation : Derivation (Grammar.assemble "$" sums).lexicon
    (Grammar.assemble "$" sums).productions [.nonterminal 0] [addend] := by
  have one : (Grammar.assemble "$" sums).productions[1]? = some ⟨0, [.terminal 2]⟩ := by
    decide +kernel
  have number : (Grammar.assemble "$" sums).lexicon.get? 2 = some "n" := by decide +kernel
  exact .node one (.leaf number .nil) .nil

theorem sum_derivation {left right : Tree String Unit}
    (first : Derivation (Grammar.assemble "$" sums).lexicon
      (Grammar.assemble "$" sums).productions [.nonterminal 0] [left])
    (second : Derivation (Grammar.assemble "$" sums).lexicon
      (Grammar.assemble "$" sums).productions [.nonterminal 0] [right]) :
    Derivation (Grammar.assemble "$" sums).lexicon (Grammar.assemble "$" sums).productions
      [.nonterminal 0] [sum left right] := by
  have rule : (Grammar.assemble "$" sums).productions[0]? =
      some ⟨0, [.nonterminal 0, .terminal 1, .nonterminal 0]⟩ := by decide +kernel
  have plus : (Grammar.assemble "$" sums).lexicon.get? 1 = some "+" := by decide +kernel
  exact .node rule (first.append (.leaf plus second)) .nil

theorem sums_ambiguous : (Grammar.assemble "$" sums).Ambiguous := by
  have left := sum_derivation (sum_derivation addend_derivation addend_derivation)
    addend_derivation
  have right := sum_derivation addend_derivation
    (sum_derivation addend_derivation addend_derivation)
  refine ⟨0, _, _, by decide +kernel, left, right, rfl, ?_⟩
  simp [sum, addend]

/-- A parser rules out that a word has two derivations, and wherever a word has two, a build that
gets as far as looking at the grammar ends with a conflict. -/
theorem conflict_of_ambiguous (host : Host) (strategy : Strategy) :
    ((∃ parser, (Grammar.assemble eof calls).build host strategy = .ok parser) →
      ¬ (Grammar.assemble eof calls).Ambiguous) ∧
    (strategy.Starts host → (Grammar.assemble eof calls).Ambiguous →
      ∃ report, (Grammar.assemble eof calls).build host strategy = .error (.conflict report)) := by
  have wf := Grammar.assemble_wellFormed eof calls
  have unambiguous : (∃ parser, (Grammar.assemble eof calls).build host strategy = .ok parser) →
      ¬ (Grammar.assemble eof calls).Ambiguous := by
    rintro ⟨parser, built⟩
    obtain ⟨start, origin⟩ := Parser.from_build built
    exact origin.not_ambiguous wf
  refine ⟨unambiguous, fun starts ambiguous => ?_⟩
  obtain ⟨start, _, _, declared, _⟩ := id ambiguous
  rcases Grammar.build_cases wf declared starts with ⟨built, _⟩ | ⟨refused, _⟩
  · exact absurd ambiguous (unambiguous built)
  · exact refused

theorem conflict_of_ambiguous_sums :
    ((∃ parser, (Grammar.assemble "$" nested).build tasks .sequential = .ok parser) ∧
      ¬ (Grammar.assemble "$" nested).Ambiguous) ∧
    (Strategy.parallel (some 2)).Starts tasks ∧ (Grammar.assemble "$" sums).Ambiguous ∧
    ∃ report, (Grammar.assemble "$" sums).build tasks (.parallel (some 2)) =
      .error (.conflict report) := by
  obtain ⟨parser, built, _⟩ : ∃ parser,
      (Grammar.assemble "$" nested).build tasks .sequential = .ok parser ∧ True :=
    exists_ok (by decide +kernel)
  have starts : (Strategy.parallel (some 2)).Starts tasks := ⟨_, rfl⟩
  have unambiguous := (conflict_of_ambiguous tasks .sequential).1 ⟨parser, built⟩
  have refused := (conflict_of_ambiguous tasks (.parallel (some 2))).2 starts sums_ambiguous
  exact ⟨⟨⟨parser, built⟩, unambiguous⟩, starts, sums_ambiguous, refused⟩

end CanonicalLR
