import CanonicalLR.Proofs.Execution
import CanonicalLR.Proofs.Forms
/-
Parsers of assembled grammars: what a run returns. A value is the value of a derivation of the
tokens in front of the first one that ends the input, with one handler call for each inner node in
post-order, and a run without a value ends with an unexpected token.
-/
namespace CanonicalLR

theorem takeWhile_upto {α : Type} {p : α → Bool} {list : List α} {k : Nat}
    (all : ∀ x ∈ list.take k, p x = true) :
    (list.takeWhile p).take k = list.take k ∧ (list.takeWhile p)[k]? = list[k]?.filter p := by
  induction k generalizing list with
  | zero =>
    cases list with
    | nil => simp
    | cons x list => by_cases kept : p x = true <;> simp [kept, Option.filter]
  | succ k ih =>
    cases list with
    | nil => simp
    | cons x list =>
      have kept : p x = true := all x (by simp)
      have inner : ∀ y ∈ list.take k, p y = true := fun y member => all y (by simp [member])
      obtain ⟨same, last⟩ := ih inner
      simp [kept, same, last]

theorem forall₂_mem_right {α β : Type} {R : α → β → Prop} {xs : List α} {ys : List β}
    (h : List.Forall₂ R xs ys) {y : β} (member : y ∈ ys) : ∃ x ∈ xs, R x y := by
  induction h with
  | nil => contradiction
  | cons related _ ih =>
    rcases List.mem_cons.1 member with rfl | member
    · exact ⟨_, List.mem_cons_self, related⟩
    · obtain ⟨x, inside, other⟩ := ih member
      exact ⟨x, List.mem_cons_of_mem _ inside, other⟩

theorem Interner.Faithful.ids_unique {α β : Type} [Fingerprint α] {table : Interner α Nat}
    (faithful : table.Faithful) {value : β → α} {ids others : List Nat} {xs : List β}
    (first : List.Forall₂ (fun id x => table.get? id = some (value x)) ids xs)
    (second : List.Forall₂ (fun id x => table.get? id = some (value x)) others xs) :
    ids = others := by
  have unique : Relator.LeftUnique fun (id : Nat) (x : β) => table.get? id = some (value x) :=
    fun _ _ _ h k => faithful.distinct h k
  exact List.left_unique_forall₂' unique first second

/-- The tokens in front of the first one that ends the input. -/
def beforeEnd {τ υ : Type} [DecidableEq τ] (eof : τ) (tokens : List (Token τ υ)) :
    List (Token τ υ) :=
  tokens.takeWhile fun token => token.kind ≠ eof

section Parts

variable {τ υ : Type} [Spelling τ] {host : Host} {strategy : Strategy}

theorem FrozenGrammar.tableOf_eq_ok {frozen : FrozenGrammar τ υ} {automaton : Automaton}
    {table : ParseTable} :
    frozen.tableOf automaton = .ok table ↔ frozen.rules.table automaton = .ok table := by
  unfold tableOf
  split
  · rename_i filled
    simp [filled]
  · rename_i conflict refused
    rw [refused]
    split <;> simp

theorem FrozenGrammar.tabulate_eq_ok {frozen : FrozenGrammar τ υ} {sets : FirstFollow}
    {automaton : Automaton} {table : ParseTable}
    (h : frozen.tabulate sets host strategy = .ok (automaton, table)) :
    ∃ construction, strategy.launch host = .ok construction ∧
      automaton = frozen.rules.automaton sets construction ∧
      frozen.rules.table automaton = .ok table := by
  unfold tabulate at h
  split at h
  · contradiction
  · rename_i construction launched
    dsimp only at h
    cases filled : frozen.tableOf (frozen.rules.automaton sets construction) with
    | error error =>
      rw [filled] at h
      contradiction
    | ok found =>
      rw [filled] at h
      obtain ⟨rfl, rfl⟩ := Prod.mk.inj (Except.ok.inj h)
      exact ⟨construction, launched, rfl, tableOf_eq_ok.1 filled⟩

theorem Grammar.build_eq_ok {grammar : Grammar τ υ} {parser : Parser τ υ}
    (h : grammar.build host strategy = .ok parser) :
    ∃ start construction automaton table, grammar.start = some start ∧
      strategy.launch host = .ok construction ∧
      automaton = (grammar.rulesFrom start).automaton
        (FirstFollow.ofRules (grammar.rulesFrom start)) construction ∧
      (grammar.rulesFrom start).table automaton = .ok table ∧
      parser = ⟨grammar.lexicon, grammar.rulesFrom start,
        FirstFollow.ofRules (grammar.rulesFrom start), automaton, table, grammar.handlers⟩ := by
  unfold build at h
  split at h
  · contradiction
  · rename_i froze
    obtain ⟨start, declared, rfl⟩ := Grammar.freeze_eq froze
    dsimp only at h
    split at h
    · contradiction
    · rename_i automaton table tabulated
      obtain ⟨construction, launched, built, filled⟩ := FrozenGrammar.tabulate_eq_ok tabulated
      exact ⟨start, construction, automaton, table, declared, launched, built, filled,
        (Except.ok.inj h).symm⟩

theorem Grammar.starts_of_build {grammar : Grammar τ υ} {parser : Parser τ υ}
    (h : grammar.build host strategy = .ok parser) : strategy.Starts host := by
  obtain ⟨_, construction, _, _, _, launched, _⟩ := build_eq_ok h
  exact ⟨construction, launched⟩

end Parts

namespace Parser

variable {τ υ : Type}

structure From (parser : Parser τ υ) (grammar : Grammar τ υ) (start : Nat) : Prop where
  declared : grammar.start = some start
  lexicon : parser.lexicon = grammar.lexicon
  rules : parser.rules = grammar.rulesFrom start
  handlers : parser.handlers = grammar.handlers
  automaton : ∃ construction,
    parser.automaton = parser.rules.automaton (FirstFollow.ofRules parser.rules) construction
  table : parser.rules.table parser.automaton = .ok parser.table

theorem from_build [Spelling τ] {grammar : Grammar τ υ} {host : Host} {strategy : Strategy}
    {parser : Parser τ υ} (h : grammar.build host strategy = .ok parser) :
    ∃ start, parser.From grammar start := by
  obtain ⟨start, construction, _, _, declared, _, built, filled, rfl⟩ := Grammar.build_eq_ok h
  exact ⟨start, declared, rfl, rfl, rfl, ⟨construction, built⟩, filled⟩

variable [Fingerprint τ]

theorem From.built {parser : Parser τ υ} {grammar : Grammar τ υ} {start : Nat} {eof : τ}
    (h : parser.From grammar start) (wf : grammar.WellFormed eof) : parser.Built eof := by
  have proper : parser.rules.Proper := h.rules ▸ Grammar.rulesFrom_proper wf h.declared
  obtain ⟨construction, automaton⟩ := h.automaton
  have collects : parser.rules.Collects parser.automaton :=
    automaton ▸ proper.collects construction
  constructor
  · exact ⟨proper, collects, collects.tabulates h.table⟩
  · exact h.lexicon ▸ wf.lexicon
  · rw [h.lexicon, h.rules]
    exact wf.eof
  · rw [h.lexicon, h.rules]
    rfl
  · rw [h.handlers, h.rules]
    exact wf.handlers

variable [DecidableEq τ] {parser : Parser τ υ} {eof : τ} {tokens : List (Token τ υ)}
  {c : Configuration τ υ}

theorem Built.of_assemble [Spelling τ] {calls : List (Registration τ υ)}
    {host : Host} {strategy : Strategy}
    (h : (Grammar.assemble eof calls).build host strategy = .ok parser) :
    ∃ start, parser.From (Grammar.assemble eof calls) start ∧ parser.Built eof := by
  obtain ⟨start, origin⟩ := from_build h
  exact ⟨start, origin, origin.built (Grammar.assemble_wellFormed eof calls)⟩

theorem Traced.kinds_ne {word : List Nat} (traced : parser.Traced tokens word c)
    (built : parser.Built eof) : ∀ token ∈ tokens.take c.position, token.kind ≠ eof := by
  intro token member ends
  obtain ⟨id, stored, spelled⟩ := forall₂_mem_right traced.spelled member
  rw [ends] at spelled
  exact traced.inside (built.lexicon.distinct spelled built.eof ▸ stored)

theorem Traced.before_end {word : List Nat} (traced : parser.Traced tokens word c)
    (built : parser.Built eof) :
    (beforeEnd eof tokens).take c.position = tokens.take c.position ∧
      (beforeEnd eof tokens)[c.position]? =
        tokens[c.position]?.filter fun token => token.kind ≠ eof := by
  apply takeWhile_upto
  intro token member
  simpa using traced.kinds_ne built token member

/-- A lookahead that counts as the end of the input stands behind all tokens that do not. -/
theorem Traced.at_end {word : List Nat} (traced : parser.Traced tokens word c)
    (built : parser.Built eof) (tracks : parser.Tracks tokens c)
    (known : parser.lookaheadId? c.lookahead = some parser.rules.eof) :
    beforeEnd eof tokens = tokens.take c.position := by
  obtain ⟨same, last⟩ := traced.before_end built
  have ended : tokens[c.position]?.filter (fun token => token.kind ≠ eof) = none := by
    rw [tracks.lookahead, lookaheadAt] at known
    cases found : tokens[c.position]? with
    | none => rfl
    | some token =>
      rw [found] at known
      have spelled := (Interner.find?_eq_some_iff built.lexicon).1 known
      have ends : token.kind = eof := Option.some.inj (spelled.symm.trans built.eof)
      simp [Option.filter, ends]
  rw [ended] at last
  rw [← same, List.take_of_length_le (List.getElem?_eq_none_iff.1 last)]

theorem Built.accepted [Spelling τ] (built : parser.Built eof) {n : Nat}
    (follows : parser.Follows (parser.initial tokens) n c) {value : υ} {e : Configuration τ υ}
    (does : parser.Does c (.accepted value e)) :
    ∃ tree, Derivation parser.lexicon parser.rules.productions
        [.nonterminal parser.rules.start] [tree] ∧
      tree.leaves = beforeEnd eof tokens ∧ tree.value? parser.handlers = some value ∧
      e.calls.reverse = tree.calls := by
  obtain ⟨word, traced⟩ := built.traced follows
  have tracks := built.tracks follows
  obtain ⟨forest, derivation, leaves, values, calls⟩ := tracks.forest
  cases does with
  | accept known action symbols single =>
    rw [symbols] at derivation
    rw [single] at values
    obtain ⟨tree, rfl⟩ := List.length_eq_one_iff.1 derivation.length_eq
    refine ⟨tree, derivation, ?_, ?_, ?_⟩
    · rw [traced.at_end built tracks known, ← leaves]
      simp [Forest.leaves]
    · cases result : tree.value? parser.handlers <;> simp_all [Forest.values?]
    · simpa [Forest.calls] using calls.symm

end Parser

namespace Grammar

variable {τ υ : Type} [Fingerprint τ] {grammar : Grammar τ υ} {eof : τ} {start : Nat}

theorem WellFormed.derivation_iff (wf : grammar.WellFormed eof)
    (declared : grammar.start = some start) {forest : Forest τ υ} :
    Derivation grammar.lexicon (grammar.rulesFrom start).productions [.nonterminal start] forest ↔
      Derivation grammar.lexicon grammar.productions [.nonterminal start] forest := by
  constructor
  · intro h
    exact h.carry (wf.carries start) (by simpa [Declares] using wf.start start declared)
  · intro h
    exact h.carry (grammar.rulesFrom_carries start) fun _ _ => trivial

end Grammar

variable {τ υ : Type} [DecidableEq τ] [Fingerprint τ] [Spelling τ] {eof : τ}
  {calls : List (Registration τ υ)} {host : Host} {strategy : Strategy} {parser : Parser τ υ}

theorem exists_ok {ε α : Type} {result : Except ε α} {P : α → Prop} [DecidablePred P]
    (h : result.toOption.any (fun value => decide (P value)) = true) :
    ∃ value, result = .ok value ∧ P value := by
  cases result with
  | error => simp [Except.toOption] at h
  | ok value => exact ⟨value, rfl, by simpa [Except.toOption] using h⟩

/-- `S ::= a S b`, or nothing, with the sum of the tokens' values. -/
def nested : List (Registration String Nat) :=
  [.nonterminal "S",
    .production 0 [.terminal "a", .nonterminal 0, .terminal "b"] (List.foldl Nat.add 0),
    .production 0 [] fun _ => 0]

/-- A value comes from a derivation of the tokens in front of the end, and the handlers were called
once for each of its inner nodes, in post-order. -/
theorem parse_sound (built : (Grammar.assemble eof calls).build host strategy = .ok parser)
    (tokens : List (Token τ υ)) {value : υ} (parsed : parser.parse tokens = .ok value) :
    ∃ start tree, (Grammar.assemble eof calls).start = some start ∧
      Derivation (Grammar.assemble eof calls).lexicon (Grammar.assemble eof calls).productions
        [.nonterminal start] [tree] ∧
      tree.leaves = beforeEnd eof tokens ∧
      tree.value? (Grammar.assemble eof calls).handlers = some value ∧
      (parser.run tokens).trace = tree.calls := by
  obtain ⟨start, origin, sound⟩ := Parser.Built.of_assemble built
  unfold Parser.parse at parsed
  obtain ⟨n, c, follows, ⟨other, e, does, result⟩ | ⟨error, e, _, result⟩⟩ := sound.run_ends tokens
  · rw [result] at parsed
    obtain rfl : other = value := Except.ok.inj parsed
    obtain ⟨tree, derivation, leaves, evaluates, post⟩ := sound.accepted follows does
    rw [origin.lexicon, origin.rules] at derivation
    rw [origin.handlers] at evaluates
    have wf := Grammar.assemble_wellFormed eof calls
    refine ⟨start, tree, origin.declared, ?_, leaves, evaluates, ?_⟩
    · exact (wf.derivation_iff origin.declared).1 derivation
    · rw [Run.trace, result]
      exact post
  · rw [result] at parsed
    contradiction

theorem parse_sound_nested : ∃ parser,
    (Grammar.assemble "$" nested).build tasks .sequential = .ok parser ∧
    parser.parse [⟨"a", 1⟩, ⟨"b", 2⟩, ⟨"$", 0⟩, ⟨"a", 4⟩] = .ok 3 ∧
    ∃ start tree, (Grammar.assemble "$" nested).start = some start ∧
      Derivation (Grammar.assemble "$" nested).lexicon (Grammar.assemble "$" nested).productions
        [.nonterminal start] [tree] ∧
      tree.leaves = [⟨"a", 1⟩, ⟨"b", 2⟩] ∧
      tree.value? (Grammar.assemble "$" nested).handlers = some 3 := by
  obtain ⟨parser, built, parsed⟩ : ∃ parser,
      (Grammar.assemble "$" nested).build tasks .sequential = .ok parser ∧
      parser.parse [⟨"a", 1⟩, ⟨"b", 2⟩, ⟨"$", 0⟩, ⟨"a", 4⟩] = .ok 3 :=
    exists_ok (by decide +kernel)
  obtain ⟨start, tree, declared, derivation, leaves, evaluates, _⟩ := parse_sound built _ parsed
  exact ⟨parser, built, parsed, start, tree, declared, derivation, leaves, evaluates⟩

/-- Faults, unknown ids and runs without end are out of reach. -/
theorem parse_ends (built : (Grammar.assemble eof calls).build host strategy = .ok parser)
    (tokens : List (Token τ υ)) :
    (∃ value, parser.parse tokens = .ok value) ∨
      ∃ state found position expected viable, parser.parse tokens =
        .error (.unexpectedToken state found position expected viable) := by
  obtain ⟨start, _, sound⟩ := Parser.Built.of_assemble built
  unfold Parser.parse
  obtain ⟨n, c, _, ⟨value, e, _, result⟩ | ⟨error, e, does, result⟩⟩ := sound.run_ends tokens
  · exact Or.inl ⟨value, by rw [result]⟩
  · cases does with
    | reject => exact Or.inr ⟨_, _, _, _, _, by rw [result]⟩

theorem parse_ends_nested : ∃ parser,
    (Grammar.assemble "$" nested).build tasks .sequential = .ok parser ∧
    parser.parse [⟨"a", 1⟩, ⟨"b", 2⟩] = .ok 3 ∧
    parser.parse [⟨"a", 1⟩, ⟨"c", 2⟩] =
      .error (.unexpectedToken 1 "c" 1 ["a", "b"] ["\"a\""]) ∧
    ∀ tokens, (∃ value, parser.parse tokens = .ok value) ∨
      ∃ state found position expected viable, parser.parse tokens =
        .error (.unexpectedToken state found position expected viable) := by
  obtain ⟨parser, built, accepts, refuses⟩ : ∃ parser,
      (Grammar.assemble "$" nested).build tasks .sequential = .ok parser ∧
      parser.parse [⟨"a", 1⟩, ⟨"b", 2⟩] = .ok 3 ∧
      parser.parse [⟨"a", 1⟩, ⟨"c", 2⟩] =
        .error (.unexpectedToken 1 "c" 1 ["a", "b"] ["\"a\""]) :=
    exists_ok (by decide +kernel)
  exact ⟨parser, built, accepts, refuses, fun tokens => parse_ends built tokens⟩

end CanonicalLR
