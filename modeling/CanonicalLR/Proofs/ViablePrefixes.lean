import CanonicalLR.Proofs.Validity
/-
What the stack of symbols says about the input. Read from the bottom it labels a path of the
automaton, its symbols derive consecutive stretches of the tokens that were shifted, and all of
these are the first tokens of the input; so the symbols that an error reports derive what stands in
front of the unexpected token, and lead to the state in which it was met.
-/
namespace CanonicalLR

variable {τ υ : Type}

theorem Forest.leaves_eq_flatten (forest : Forest τ υ) :
    Forest.leaves forest = (forest.map Tree.leaves).flatten := by
  induction forest with
  | nil => rfl
  | cons tree rest ih => simp [Forest.leaves, ih]

theorem Derivation.apart {lexicon : Lexicon τ} {productions : Array Production}
    {symbols : List (Symbol Nat)} {forest : Forest τ υ}
    (h : Derivation lexicon productions symbols forest) :
    List.Forall₂ (fun symbol tree => Derivation lexicon productions [symbol] [tree])
      symbols forest := by
  induction h with
  | nil => exact .nil
  | leaf spelled _ ih => exact .cons (.leaf spelled .nil) ih
  | node rule below _ _ ih => exact .cons (.node rule below .nil) ih

namespace Grammar

def Spans (grammar : Grammar τ υ) (symbols : List (Symbol Nat)) (tokens : List (Token τ υ)) :
    Prop :=
  ∃ word, Derives grammar.productions symbols (word.map .terminal) ∧
    List.Forall₂ (fun id token => grammar.lexicon.get? id = some token.kind) word tokens

variable {grammar : Grammar τ υ} {symbols : List (Symbol Nat)} {forest : Forest τ υ}

theorem spans_leaves (h : Derivation grammar.lexicon grammar.productions symbols forest) :
    grammar.Spans symbols (Forest.leaves forest) := by
  obtain ⟨word, made, spelled⟩ := h.generates
  exact ⟨word, made.derives, spelled⟩

theorem spans_each (h : Derivation grammar.lexicon grammar.productions symbols forest) :
    List.Forall₂ (fun symbol stretch => grammar.Spans [symbol] stretch) symbols
      (forest.map Tree.leaves) := by
  rw [List.forall₂_map_right_iff]
  refine h.apart.imp fun symbol tree single => ?_
  simpa [Forest.leaves] using spans_leaves single

end Grammar

namespace Parser

/-- The stacks account for the tokens read: states and symbols form a path from the start, and the
symbols, bottom first, derive these tokens, each of them a stretch of its own. -/
structure Explains (parser : Parser τ υ) (grammar : Grammar τ υ) (read : List (Token τ υ))
    (c : Configuration τ υ) : Prop where
  path : parser.automaton.Trail c.states c.symbols
  each : ∃ stretches, stretches.flatten = read ∧
    List.Forall₂ (fun symbol stretch => grammar.Spans [symbol] stretch) c.symbols.reverse stretches
  whole : grammar.Spans c.symbols.reverse read
  count : read.length = c.position

variable [Fingerprint τ] {parser : Parser τ υ} {eof : τ} {tokens read : List (Token τ υ)}
  {c c' : Configuration τ υ}

/-- The goal's left side is on no path, so all trees are trees over the registered productions. -/
theorem From.derivation {grammar : Grammar τ υ} {start : Nat} (origin : parser.From grammar start)
    (wf : grammar.WellFormed eof) {states : List Nat} {stack : List (Symbol Nat)}
    (path : parser.automaton.Trail states stack) {forest : Forest τ υ}
    (h : Derivation parser.lexicon parser.rules.productions stack.reverse forest) :
    Derivation grammar.lexicon grammar.productions stack.reverse forest := by
  rw [origin.lexicon, origin.rules] at h
  refine h.carry (wf.carries start) fun symbol member => ?_
  have usable := (origin.built wf).machinery.usable path symbol (List.mem_reverse.1 member)
  rw [origin.rules] at usable
  cases symbol with
  | terminal t => trivial
  | nonterminal n =>
    have declared : n < grammar.names.size := by
      simpa [Rules.Usable, Rules.nonterminalCount, Grammar.rulesFrom] using usable
    exact declared

theorem From.explains {grammar : Grammar τ υ} {start : Nat} (origin : parser.From grammar start)
    (wf : grammar.WellFormed eof) (tracks : parser.Tracks tokens c) :
    parser.Explains grammar (tokens.take c.position) c := by
  obtain ⟨forest, derivation, leaves, _⟩ := tracks.forest
  have user := origin.derivation wf tracks.path derivation
  refine ⟨tracks.path, ⟨forest.map Tree.leaves, ?_, Grammar.spans_each user⟩, ?_, ?_⟩
  · rw [← Forest.leaves_eq_flatten, leaves]
  · rw [← leaves]
    exact Grammar.spans_leaves user
  · exact List.length_take_of_le tracks.position

variable [DecidableEq τ]

def shifts? (parser : Parser τ υ) (c : Configuration τ υ) : Option (Token τ υ) :=
  match c.lookahead with
  | .endOfInput => none
  | .token token => do
    let terminal ← parser.terminalId? token.kind
    match ← parser.table.answer c.states (.terminal terminal) with
    | .shift _ => some token
    | _ => none

variable [Spelling τ]

inductive Reads (parser : Parser τ υ) (c : Configuration τ υ) :
    Nat → List (Token τ υ) → Configuration τ υ → Prop where
  | refl : Reads parser c 0 [] c
  | step {n : Nat} {read : List (Token τ υ)} {d e : Configuration τ υ}
      (before : Reads parser c n read d) (next : parser.step d = .next e) :
      Reads parser c (n + 1) (read ++ (parser.shifts? d).toList) e

theorem Tracks.take_next (tracks : parser.Tracks tokens c) (does : parser.Does c (.next c')) :
    tokens.take c'.position = tokens.take c.position ++ (parser.shifts? c).toList := by
  generalize outcome : Step.next c' = step at does
  cases does with
  | @shift token t target ahead known inside action path =>
    obtain rfl := Step.next.inj outcome
    have shifted : parser.shifts? c = some token := by simp [shifts?, ahead, known, action]
    rw [Configuration.pull_position, List.take_add_one, tracks.token_at ahead, shifted]
  | @reduce t p _ _ _ after _ _ _ known move =>
    obtain rfl := Step.next.inj outcome
    have kept : parser.shifts? c = none := by
      cases ahead : c.lookahead with
      | endOfInput => simp [shifts?, ahead]
      | token token =>
        have found : parser.terminalId? token.kind = some t := by rwa [ahead] at known
        simp [shifts?, ahead, found, move.answer]
    simp [kept]
  | accept => contradiction
  | reject => contradiction

theorem Built.reads (built : parser.Built eof) {n : Nat}
    (h : parser.Follows (parser.initial tokens) n c) :
    parser.Reads (parser.initial tokens) n (tokens.take c.position) c := by
  induction h with
  | refl => simpa [initial] using Reads.refl
  | step before next ih =>
    have does := built.does before
    rw [next] at does
    rw [(built.tracks before).take_next does]
    exact ih.step next

theorem Built.failed_at (built : parser.Built eof) {error : ParseError τ}
    (failed : parser.parse tokens = .error error) :
    ∃ n, parser.Follows (parser.initial tokens) n (parser.run tokens).last ∧
      parser.Does (parser.run tokens).last (.failed error (parser.run tokens).last) := by
  unfold parse at failed
  obtain ⟨n, c, follows, ⟨value, e, _, result⟩ | ⟨other, e, does, result⟩⟩ :=
    built.run_ends tokens
  · rw [result] at failed
    contradiction
  · rw [result] at failed ⊢
    obtain rfl := Except.error.inj failed
    have same : e = c := by
      cases does with
      | reject => rfl
    subst same
    exact ⟨n, follows, does⟩

end Parser

variable [DecidableEq τ] [Fingerprint τ] [Spelling τ] {eof : τ}
  {calls : List (Registration τ υ)} {host : Host} {strategy : Strategy} {parser : Parser τ υ}

/-- Between any two steps the symbols on the stack derive the tokens shifted so far, and what an
error reports of them derives the tokens in front of it. -/
theorem viable_prefix_explains
    (built : (Grammar.assemble eof calls).build host strategy = .ok parser)
    (tokens : List (Token τ υ)) :
    (∀ n c, parser.Follows (parser.initial tokens) n c →
      ∃ read, parser.Reads (parser.initial tokens) n read c ∧ read <+: tokens ∧
        parser.Explains (Grammar.assemble eof calls) read c) ∧
    ∀ state found position expected viable, parser.parse tokens =
        .error (.unexpectedToken state found position expected viable) →
      ∃ symbols, (parser.run tokens).last.symbols = symbols.reverse ∧
        symbols.mapM parser.printer.symbol? = some viable ∧
        position ≤ tokens.length ∧
        (Grammar.assemble eof calls).Spans symbols (tokens.take position) ∧
        parser.automaton.walk symbols = some state := by
  obtain ⟨start, origin, sound⟩ := Parser.Built.of_assemble built
  have wf := Grammar.assemble_wellFormed eof calls
  constructor
  · intro n c follows
    exact ⟨tokens.take c.position, sound.reads follows, List.take_prefix _ _,
      origin.explains wf (sound.tracks follows)⟩
  · intro state found position expected viable failed
    obtain ⟨n, follows, does⟩ := sound.failed_at failed
    have tracks := sound.tracks follows
    have explains := origin.explains wf tracks
    generalize (parser.run tokens).last = c at *
    cases does with
    | @reject _ below _ _ _ states unanswered ahead listed printed =>
      refine ⟨c.symbols.reverse, by simp, printed, tracks.position, explains.whole, ?_⟩
      refine Automaton.walk_eq_some_iff.2 ⟨below, ?_⟩
      rw [List.reverse_reverse, ← states]
      exact explains.path

theorem viable_prefix_explains_nested : ∃ parser symbols,
    (Grammar.assemble "$" nested).build tasks .sequential = .ok parser ∧
    parser.parse [⟨"a", 1⟩, ⟨"a", 2⟩, ⟨"b", 3⟩] =
      .error (.unexpectedToken 7 "$" 3 ["b"] ["\"a\"", "\"a\"", "S", "\"b\""]) ∧
    symbols.mapM parser.printer.symbol? = some ["\"a\"", "\"a\"", "S", "\"b\""] ∧
    (Grammar.assemble "$" nested).Spans symbols [⟨"a", 1⟩, ⟨"a", 2⟩, ⟨"b", 3⟩] ∧
    parser.automaton.walk symbols = some 7 := by
  obtain ⟨parser, built, failed⟩ : ∃ parser,
      (Grammar.assemble "$" nested).build tasks .sequential = .ok parser ∧
      parser.parse [⟨"a", 1⟩, ⟨"a", 2⟩, ⟨"b", 3⟩] =
        .error (.unexpectedToken 7 "$" 3 ["b"] ["\"a\"", "\"a\"", "S", "\"b\""]) :=
    exists_ok (by decide +kernel)
  obtain ⟨symbols, _, printed, _, spans, leads⟩ :=
    (viable_prefix_explains built _).2 _ _ _ _ _ failed
  exact ⟨parser, symbols, built, failed, printed, spans, leads⟩

end CanonicalLR
