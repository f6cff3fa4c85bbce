import CanonicalLR.Proofs.Lockstep
/-
What a grammar does depends on nothing but the productions that its start leads to. Ids, the order
of registration, terminals that are not used and productions of other non-terminals, however
ambiguous, leave no trace: two grammars that rename one another are refused together, and their
parsers give the same outcome for every input.
-/
namespace CanonicalLR

variable {τ υ : Type} [Fingerprint τ] {eof : τ} {start start' : Nat} {rename reorder : Nat → Nat}

namespace Grammar

variable {grammar grammar' : Grammar τ υ}

theorem Renames.texts (renames : grammar.Renames grammar' start start' rename reorder)
    (wf : grammar.WellFormed eof) (wf' : grammar'.WellFormed eof)
    (declared : grammar.start = some start) (declared' : grammar'.start = some start')
    {n n' : Nat} (name : NamesPaired grammar grammar' start rename n n') :
    (grammar'.rulesFrom start').names[n']? = (grammar.rulesFrom start).names[n]? := by
  simp only [rulesFrom, Array.getElem?_push]
  rcases name with ⟨reached, rfl⟩ | ⟨rfl, rfl⟩
  · have low := wf.reaches_lt declared reached
    have low' := wf'.reaches_lt declared' (renames.nonterminals.mapsTo reached)
    rw [if_neg (Nat.ne_of_lt low), if_neg (Nat.ne_of_lt low')]
    exact renames.names reached
  · simp

theorem Renames.handled (renames : grammar.Renames grammar' start start' rename reorder)
    (wf : grammar.WellFormed eof) (wf' : grammar'.WellFormed eof) {p p' : Nat}
    (pair : ProductionsPaired grammar grammar' start reorder p p') :
    grammar'.handlers[p']? = grammar.handlers[p]? := by
  rcases pair with ⟨used, rfl⟩ | ⟨rfl, rfl⟩
  · exact renames.handlers used
  · simp [← wf.handlers, ← wf'.handlers]

theorem Renames.parsers (renames : grammar.Renames grammar' start start' rename reorder)
    (wf : grammar.WellFormed eof) (wf' : grammar'.WellFormed eof) {parser parser' : Parser τ υ}
    (origin : parser.From grammar start) (origin' : parser'.From grammar' start') :
    parser.Agrees parser' (NamesPaired grammar grammar' start rename)
      (ProductionsPaired grammar grammar' start reorder) := by
  constructor
  · rw [origin.rules, origin'.rules, origin.lexicon, origin'.lexicon]
    exact renames.agrees wf wf' origin.declared origin'.declared
  · rw [origin.rules, origin'.rules]
    exact renames.texts wf wf' origin.declared origin'.declared
  · rw [origin.handlers, origin'.handlers]
    exact renames.handled wf wf'

end Grammar

variable [DecidableEq τ] [Spelling τ] {calls calls' : List (Registration τ υ)}

/-- The grammar of `nested` with its parts in another order, among a terminal and an ambiguous
non-terminal that are of no use to it. -/
def shuffled : List (Registration String Nat) :=
  [.terminal "z", .nonterminal "U", .nonterminal "S", .terminal "b", .start 1,
    .production 0 [.nonterminal 0, .nonterminal 0] fun _ => 7,
    .production 1 [] fun _ => 0,
    .production 0 [.nonterminal 1, .terminal "z"] fun _ => 8,
    .production 1 [.terminal "a", .nonterminal 1, .terminal "b"] (List.foldl Nat.add 0)]

/-- Grammars that rename one another are built together or refused together, and where they are
built, every input has the same outcome. -/
theorem same_outcome_of_renames
    (declared : (Grammar.assemble eof calls).start = some start)
    (declared' : (Grammar.assemble eof calls').start = some start')
    (renames : (Grammar.assemble eof calls).Renames (Grammar.assemble eof calls') start start'
      rename reorder)
    {host host' : Host} {strategy strategy' : Strategy} (starts : strategy.Starts host)
    (starts' : strategy'.Starts host') :
    (∃ parser parser', (Grammar.assemble eof calls).build host strategy = .ok parser ∧
      (Grammar.assemble eof calls').build host' strategy' = .ok parser' ∧
      ∀ tokens, SameOutcome (parser.parse tokens) (parser'.parse tokens)) ∨
    ∃ report report',
      (Grammar.assemble eof calls).build host strategy = .error (.conflict report) ∧
      (Grammar.assemble eof calls').build host' strategy' = .error (.conflict report') := by
  have wf := Grammar.assemble_wellFormed eof calls
  have wf' := Grammar.assemble_wellFormed eof calls'
  have agrees := renames.agrees wf wf' declared declared'
  rcases Grammar.build_cases wf declared starts with
    ⟨⟨parser, built⟩, free⟩ | ⟨⟨report, refused⟩, stack, met⟩ <;>
  rcases Grammar.build_cases wf' declared' starts' with
    ⟨⟨parser', built'⟩, free'⟩ | ⟨⟨report', refused'⟩, stack', met'⟩
  · obtain ⟨start₁, origin, sound⟩ := Parser.Built.of_assemble built
    obtain ⟨start₂, origin', sound'⟩ := Parser.Built.of_assemble built'
    obtain rfl := Option.some.inj (declared.symm.trans origin.declared)
    obtain rfl := Option.some.inj (declared'.symm.trans origin'.declared)
    exact Or.inl ⟨parser, parser', built, built',
      (renames.parsers wf wf' origin origin').parse sound sound'⟩
  · obtain ⟨other, collision⟩ := agrees.swap.collision met'
    exact absurd collision (free other)
  · obtain ⟨other, collision⟩ := agrees.collision met
    exact absurd collision (free' other)
  · exact Or.inr ⟨report, report', refused, refused'⟩

theorem nested_rule {p : Nat} {production : Production} :
    (Grammar.assemble "$" nested).productions[p]? = some production ↔
      p = 0 ∧ production = ⟨0, [.terminal 1, .nonterminal 0, .terminal 2]⟩ ∨
      p = 1 ∧ production = ⟨0, []⟩ := by
  have stored : (Grammar.assemble "$" nested).productions =
      #[⟨0, [.terminal 1, .nonterminal 0, .terminal 2]⟩, ⟨0, []⟩] := by decide +kernel
  rw [stored]
  match p with
  | 0 => simp [eq_comm]
  | 1 => simp [eq_comm]
  | p + 2 => simp

theorem shuffled_rule {p : Nat} {rhs : List (Symbol Nat)} :
    (Grammar.assemble "$" shuffled).productions[p]? = some ⟨1, rhs⟩ ↔
      p = 1 ∧ rhs = [] ∨ p = 3 ∧ rhs = [.terminal 3, .nonterminal 1, .terminal 2] := by
  have stored : (Grammar.assemble "$" shuffled).productions =
      #[⟨0, [.nonterminal 0, .nonterminal 0]⟩, ⟨1, []⟩, ⟨0, [.nonterminal 1, .terminal 1]⟩,
        ⟨1, [.terminal 3, .nonterminal 1, .terminal 2]⟩] := by decide +kernel
  rw [stored]
  match p with
  | 0 => simp
  | 1 => simp [eq_comm]
  | 2 => simp
  | 3 => simp [eq_comm]
  | p + 4 => simp

theorem nested_reaches {n : Nat} : (Grammar.assemble "$" nested).Reaches 0 n ↔ n = 0 := by
  constructor
  · intro reached
    induction reached with
    | start => rfl
    | through _ rule member _ =>
      rcases nested_rule.1 rule with ⟨_, same⟩ | ⟨_, same⟩ <;>
        simp_all
  · intro same
    exact same ▸ .start

theorem shuffled_reaches {n : Nat} : (Grammar.assemble "$" shuffled).Reaches 1 n ↔ n = 1 := by
  constructor
  · intro reached
    induction reached with
    | start => rfl
    | through _ rule member left =>
      rw [left] at rule
      rcases shuffled_rule.1 rule with ⟨_, same⟩ | ⟨_, same⟩ <;>
        simp_all
  · intro same
    exact same ▸ .start

theorem nested_renames_shuffled :
    (Grammar.assemble "$" nested).Renames (Grammar.assemble "$" shuffled) 0 1 (· + 1)
      (fun p => if p = 0 then 3 else 1) := by
  have uses : ∀ p, (Grammar.assemble "$" nested).Uses 0 p ↔ p = 0 ∨ p = 1 := by
    intro p
    simp only [Grammar.Uses, nested_rule, nested_reaches]
    grind
  have uses' : ∀ p, (Grammar.assemble "$" shuffled).Uses 1 p ↔ p = 3 ∨ p = 1 := by
    intro p
    simp only [Grammar.Uses, shuffled_reaches, exists_and_right, exists_eq_right, shuffled_rule]
    grind
  constructor
  · simp [nested_reaches, shuffled_reaches]
  · rfl
  · intro n reached
    obtain rfl := nested_reaches.1 reached
    rfl
  · simp only [uses, uses']
    refine ⟨?_, ?_, ?_⟩
    · intro p used
      grind
    · intro p used q used' same
      grind
    · intro p used
      rcases used with rfl | rfl
      · exact ⟨0, by simp⟩
      · exact ⟨1, by simp⟩
  · intro p lhs rhs reached rule
    rcases nested_rule.1 rule with ⟨rfl, same⟩ | ⟨rfl, same⟩
    · obtain ⟨rfl, rfl⟩ := Production.mk.inj same
      refine ⟨_, shuffled_rule.2 (Or.inr ⟨rfl, rfl⟩), ?_⟩
      have first : SameKind (Grammar.assemble "$" nested).lexicon
          (Grammar.assemble "$" shuffled).lexicon 1 3 :=
        ⟨"a", by decide +kernel, by decide +kernel⟩
      have last : SameKind (Grammar.assemble "$" nested).lexicon
          (Grammar.assemble "$" shuffled).lexicon 2 2 :=
        ⟨"b", by decide +kernel, by decide +kernel⟩
      exact .cons (.terminal first) (.cons (.nonterminal rfl) (.cons (.terminal last) .nil))
    · obtain ⟨rfl, rfl⟩ := Production.mk.inj same
      exact ⟨[], shuffled_rule.2 (Or.inl ⟨rfl, rfl⟩), .nil⟩
  · intro p used
    rcases (uses p).1 used with rfl | rfl
    · rfl
    · rfl

theorem same_outcome_of_renames_shuffled : ∃ parser parser',
    (Grammar.assemble "$" nested).build tasks .sequential = .ok parser ∧
    (Grammar.assemble "$" shuffled).build tasks (.parallel (some 2)) = .ok parser' ∧
    (∀ tokens, SameOutcome (parser.parse tokens) (parser'.parse tokens)) ∧
    parser.parse [⟨"a", 1⟩, ⟨"b", 2⟩] = .ok 3 ∧ parser'.parse [⟨"a", 1⟩, ⟨"b", 2⟩] = .ok 3 ∧
    parser.parse [⟨"a", 1⟩, ⟨"z", 2⟩] =
      .error (.unexpectedToken 1 "z" 1 ["a", "b"] ["\"a\""]) ∧
    parser'.parse [⟨"a", 1⟩, ⟨"z", 2⟩] =
      .error (.unexpectedToken 1 "z" 1 ["b", "a"] ["\"a\""]) := by
  obtain ⟨parser, built, accepted, refused⟩ : ∃ parser,
      (Grammar.assemble "$" nested).build tasks .sequential = .ok parser ∧
      parser.parse [⟨"a", 1⟩, ⟨"b", 2⟩] = .ok 3 ∧
      parser.parse [⟨"a", 1⟩, ⟨"z", 2⟩] =
        .error (.unexpectedToken 1 "z" 1 ["a", "b"] ["\"a\""]) :=
    exists_ok (by decide +kernel)
  obtain ⟨twin, built', accepted', refused'⟩ : ∃ parser,
      (Grammar.assemble "$" shuffled).build tasks (.parallel (some 2)) = .ok parser ∧
      parser.parse [⟨"a", 1⟩, ⟨"b", 2⟩] = .ok 3 ∧
      parser.parse [⟨"a", 1⟩, ⟨"z", 2⟩] =
        .error (.unexpectedToken 1 "z" 1 ["b", "a"] ["\"a\""]) :=
    exists_ok (by decide +kernel)
  have starts : (Strategy.parallel (some 2)).Starts tasks := ⟨_, rfl⟩
  rcases same_outcome_of_renames (by decide +kernel) (by decide +kernel) nested_renames_shuffled
      (Strategy.sequential_starts tasks) starts with
    ⟨_, _, first, second, same⟩ | ⟨_, _, failed, _⟩
  · obtain rfl := Except.ok.inj (built.symm.trans first)
    obtain rfl := Except.ok.inj (built'.symm.trans second)
    exact ⟨parser, twin, built, built', same, accepted, accepted', refused, refused'⟩
  · exact absurd (built.symm.trans failed) (by simp)

end CanonicalLR
