import CanonicalLR.Proofs.Soundness
/-
Where a parse fails. The tokens read so far begin some form of the grammar and the offending token
continues none; the terminals reported as expected are exactly those that do, and no reduction was
made before the token was rejected.
-/
namespace CanonicalLR

def inputWord {τ υ : Type} [DecidableEq τ] (eof : τ) (tokens : List (Token τ υ)) : List τ :=
  (beforeEnd eof tokens).map Token.kind ++ [eof]

namespace Grammar

variable {τ υ : Type}

/-- What can be derived from the start symbol in front of the end, with terminals as they were
registered. -/
def Form (grammar : Grammar τ υ) (form : List (Symbol τ)) : Prop :=
  ∃ start symbols, grammar.start = some start ∧
    Derives grammar.productions [.nonterminal start, .terminal grammar.eof] symbols ∧
    List.Forall₂ (Resolves grammar.lexicon) symbols form

def Begins (grammar : Grammar τ υ) (kinds : List τ) : Prop :=
  ∃ form, grammar.Form form ∧ kinds.map .terminal <+: form

theorem Begins.shorten {grammar : Grammar τ υ} {kinds : List τ} (h : grammar.Begins kinds)
    {front : List τ} (shorter : front <+: kinds) : grammar.Begins front := by
  obtain ⟨form, derived, begins⟩ := h
  exact ⟨form, derived, (shorter.map _).trans begins⟩

theorem Begins.registered {grammar : Grammar τ υ} {kinds : List τ} (h : grammar.Begins kinds)
    {kind : τ} (member : kind ∈ kinds) : ∃ id, grammar.lexicon.get? id = some kind := by
  obtain ⟨form, ⟨start, symbols, _, _, resolves⟩, begins⟩ := h
  have inside : Symbol.terminal kind ∈ form := begins.subset (List.mem_map_of_mem member)
  obtain ⟨symbol, _, resolved⟩ := forall₂_mem_right resolves inside
  cases resolved with
  | terminal spelled => exact ⟨_, spelled⟩

theorem resolves_terminals {lexicon : Lexicon τ} {symbols : List (Symbol Nat)} {kinds : List τ}
    (h : List.Forall₂ (Resolves lexicon) symbols (kinds.map .terminal)) :
    ∃ ids, symbols = ids.map .terminal ∧
      List.Forall₂ (fun id kind => lexicon.get? id = some kind) ids kinds := by
  induction kinds generalizing symbols with
  | nil =>
    obtain rfl := List.forall₂_nil_right_iff.1 h
    exact ⟨[], rfl, .nil⟩
  | cons kind kinds ih =>
    obtain ⟨symbol, rest, resolved, tail, rfl⟩ := List.forall₂_cons_right_iff.1 h
    obtain ⟨ids, rfl, spelled⟩ := ih tail
    cases resolved with
    | terminal here => exact ⟨_ :: ids, rfl, .cons here spelled⟩

variable [Fingerprint τ] {grammar : Grammar τ υ} {eof : τ} {start : Nat}

theorem WellFormed.resolves (wf : grammar.WellFormed eof) {symbols : List (Symbol Nat)}
    (h : Derives grammar.productions [.nonterminal start, .terminal grammar.eof] symbols) :
    ∃ form, List.Forall₂ (Resolves grammar.lexicon) symbols form := by
  have carries : Carries (fun symbol => ∃ other, Resolves grammar.lexicon symbol other)
      grammar.productions grammar.productions := by
    intro p lhs rhs _ rule
    refine ⟨rule, fun symbol member => ?_⟩
    have fits := (wf.admits rule).2 symbol member
    cases symbol with
    | terminal t =>
      obtain ⟨kind, spelled⟩ := Interner.get?_of_lt fits.1
      exact ⟨_, .terminal spelled⟩
    | nonterminal n => exact ⟨_, .nonterminal n⟩
  have known : ∀ symbol ∈ symbols, ∃ other, Resolves grammar.lexicon symbol other := by
    refine (h.carry carries ?_).2
    intro symbol member
    simp only [List.mem_cons, List.not_mem_nil, or_false] at member
    rcases member with rfl | rfl
    · exact ⟨_, .nonterminal start⟩
    · exact ⟨_, .terminal wf.eof⟩
  clear h
  induction symbols with
  | nil => exact ⟨[], .nil⟩
  | cons symbol symbols ih =>
    obtain ⟨other, here⟩ := known symbol List.mem_cons_self
    obtain ⟨form, rest⟩ := ih fun x member => known x (List.mem_cons_of_mem symbol member)
    exact ⟨other :: form, .cons here rest⟩

theorem WellFormed.begins_iff (wf : grammar.WellFormed eof) (declared : grammar.start = some start)
    {ids : List Nat} {kinds : List τ}
    (spelled : List.Forall₂ (fun id kind => grammar.lexicon.get? id = some kind) ids kinds) :
    grammar.Begins kinds ↔ ∃ behind, Derives (grammar.rulesFrom start).productions
      (grammar.rulesFrom start).opening (ids.map .terminal ++ behind) := by
  constructor
  · rintro ⟨form, ⟨other, symbols, found, derives, resolves⟩, rest, rfl⟩
    obtain rfl := Option.some.inj (declared.symm.trans found)
    obtain ⟨front, split, same⟩ := resolves_terminals (List.forall₂_take_append _ _ _ resolves)
    obtain rfl := wf.lexicon.ids_unique spelled same
    refine ⟨symbols.drop (kinds.map Symbol.terminal).length, ?_⟩
    rw [← split, List.take_append_drop]
    exact (derives.carry (grammar.rulesFrom_carries start) fun _ _ => trivial).1
  · rintro ⟨behind, derives⟩
    have declares : ∀ symbol ∈ (grammar.rulesFrom start).opening, grammar.Declares symbol := by
      intro symbol member
      simp only [Rules.opening, List.mem_cons, List.not_mem_nil, or_false] at member
      rcases member with rfl | rfl
      · exact wf.start start declared
      · trivial
    have derives : Derives grammar.productions [.nonterminal start, .terminal grammar.eof]
        (ids.map .terminal ++ behind) := (derives.carry (wf.carries start) declares).1
    obtain ⟨form, resolves⟩ := wf.resolves derives
    have front : List.Forall₂ (Resolves grammar.lexicon) (ids.map .terminal)
        (kinds.map .terminal) := by
      rw [List.forall₂_map_left_iff, List.forall₂_map_right_iff]
      exact spelled.imp fun _ _ here => .terminal here
    have back := List.forall₂_drop (ids.map Symbol.terminal).length resolves
    rw [List.drop_left] at back
    exact ⟨_, ⟨start, _, declared, derives, List.rel_append front back⟩, List.prefix_append _ _⟩

end Grammar

namespace Parser

variable {τ υ : Type} [DecidableEq τ] [Fingerprint τ] {parser : Parser τ υ} {eof : τ}
  {tokens : List (Token τ υ)} {c : Configuration τ υ} {word : List Nat}

theorem Traced.input_at (traced : parser.Traced tokens word c) (built : parser.Built eof)
    (tracks : parser.Tracks tokens c) {found : τ}
    (ahead : parser.found? c.lookahead = some found) :
    (inputWord eof tokens)[c.position]? = some found ∧
      (inputWord eof tokens).take c.position = (tokens.take c.position).map Token.kind := by
  obtain ⟨same, last⟩ := traced.before_end built
  have tall : c.position ≤ (beforeEnd eof tokens).length := by
    have size := congrArg List.length same
    have bound := tracks.position
    simp only [List.length_take] at size
    omega
  unfold inputWord
  constructor
  · have here : (beforeEnd eof tokens)[c.position]? = none ∧ found = eof ∨
        ∃ token, (beforeEnd eof tokens)[c.position]? = some token ∧ found = token.kind := by
      rw [tracks.lookahead, lookaheadAt] at ahead
      rw [last]
      cases at_position : tokens[c.position]? with
      | none =>
        rw [at_position] at ahead
        exact Or.inl ⟨rfl, Option.some.inj (ahead.symm.trans built.eof)⟩
      | some token =>
        rw [at_position] at ahead
        have kind : token.kind = found := Option.some.inj ahead
        by_cases ends : token.kind = eof
        · exact Or.inl ⟨by simp [Option.filter, ends], kind ▸ ends⟩
        · exact Or.inr ⟨token, by simp [Option.filter, ends], kind.symm⟩
    rcases here with ⟨absent, rfl⟩ | ⟨token, present, rfl⟩
    · have size : (beforeEnd found tokens).length = c.position :=
        Nat.le_antisymm (List.getElem?_eq_none_iff.1 absent) tall
      simp [← size]
    · have bound := (List.getElem?_eq_some_iff.1 present).1
      rw [List.getElem?_append_left (by simpa using bound)]
      simp [present]
  · rw [List.take_append_of_le_length (by simpa using tall), ← List.map_take, same]

theorem Traced.generates (traced : parser.Traced tokens word c) (built : parser.Built eof)
    (tracks : parser.Tracks tokens c) :
    ∃ calls, Generates parser.rules.productions c.symbols.reverse word calls := by
  obtain ⟨forest, derivation, leaves, _, _⟩ := tracks.forest
  obtain ⟨other, made, spelled⟩ := derivation.generates
  rw [leaves] at spelled
  obtain rfl := built.lexicon.ids_unique traced.spelled spelled
  exact ⟨_, made⟩

theorem From.spelled {grammar : Grammar τ υ} {start : Nat} (origin : parser.From grammar start)
    (traced : parser.Traced tokens word c) :
    List.Forall₂ (fun id kind => grammar.lexicon.get? id = some kind) word
      ((tokens.take c.position).map Token.kind) := by
  rw [List.forall₂_map_right_iff, ← origin.lexicon]
  exact traced.spelled

theorem From.begins_iff_starts {grammar : Grammar τ υ} {start : Nat}
    (origin : parser.From grammar start) (wf : grammar.WellFormed eof)
    (traced : parser.Traced tokens word c) {id : Nat} {kind : τ}
    (registered : parser.lexicon.get? id = some kind) :
    grammar.Begins ((tokens.take c.position).map Token.kind ++ [kind]) ↔
      Starts parser.rules.productions parser.rules.opening word id := by
  rw [origin.lexicon] at registered
  have longer := List.rel_append (origin.spelled traced) (.cons registered .nil)
  rw [wf.begins_iff origin.declared longer, origin.rules]
  constructor
  · rintro ⟨behind, derives⟩
    rw [List.map_append, List.append_assoc] at derives
    exact .of_derives derives
  · intro starts
    obtain ⟨behind, derives⟩ := starts.derives
    exact ⟨behind, by simpa using derives⟩

theorem From.not_begins {grammar : Grammar τ υ} {start : Nat} (origin : parser.From grammar start)
    (wf : grammar.WellFormed eof) (traced : parser.Traced tokens word c) {s : Nat}
    {below : List Nat} {found : τ} (states : c.states = s :: below)
    (unanswered : ∀ t, parser.lookaheadId? c.lookahead = some t →
      parser.table.action s (.terminal t) = none)
    (ahead : parser.found? c.lookahead = some found) :
    ¬ grammar.Begins ((tokens.take c.position).map Token.kind ++ [found]) := by
  intro begins
  have built := origin.built wf
  obtain ⟨id, registered⟩ : ∃ id, grammar.lexicon.get? id = some found :=
    begins.registered (by simp)
  rw [← origin.lexicon] at registered
  have known : parser.lookaheadId? c.lookahead = some id := by
    cases looking : c.lookahead with
    | token token =>
      rw [looking] at ahead
      obtain rfl : token.kind = found := Option.some.inj ahead
      exact (Interner.find?_eq_some_iff built.lexicon).2 registered
    | endOfInput =>
      rw [looking] at ahead
      exact congrArg some (built.lexicon.distinct ahead registered)
  have starts := (origin.begins_iff_starts wf traced registered).1 begins
  obtain ⟨action, answer⟩ := built.machinery.starts_answer starts (traced.runs id known)
  rw [states] at answer
  cases answer.symm.trans (unanswered id known)

/-- In a configuration that no reduction on its lookahead has touched, exactly the terminals that
continue some form have an action. -/
theorem From.mem_expected {grammar : Grammar τ υ} {start : Nat} (origin : parser.From grammar start)
    (wf : grammar.WellFormed eof) (traced : parser.Traced tokens word c)
    (tracks : parser.Tracks tokens c)
    (runs : ∀ t, Runs parser.rules parser.table t [parser.automaton.start] word c.calls.reverse
      c.states) {s : Nat} {below : List Nat} (states : c.states = s :: below) {id : Nat} :
    id ∈ parser.table.expected s ↔ ∃ kind, grammar.lexicon.get? id = some kind ∧
      grammar.Begins ((tokens.take c.position).map Token.kind ++ [kind]) := by
  have built := origin.built wf
  have count : parser.table.terminalCount = parser.lexicon.size := by
    rw [built.machinery.tabulates.terminalCount, built.terminals]
  simp only [ParseTable.expected, List.mem_filter, List.mem_range, count, Option.isSome_iff_exists]
  constructor
  · rintro ⟨bound, action, answer⟩
    obtain ⟨kind, registered⟩ := Interner.get?_of_lt bound
    obtain ⟨calls, made⟩ := traced.generates built tracks
    have answer : parser.table.answer c.states (.terminal id) = some action := by
      rw [states]
      exact answer
    have starts := built.machinery.answer_starts tracks.path made answer
    refine ⟨kind, origin.lexicon ▸ registered, ?_⟩
    exact (origin.begins_iff_starts wf traced registered).2 starts
  · rintro ⟨kind, registered, begins⟩
    rw [← origin.lexicon] at registered
    have starts := (origin.begins_iff_starts wf traced registered).1 begins
    obtain ⟨action, answer⟩ := built.machinery.starts_answer starts (runs id)
    rw [states] at answer
    exact ⟨Interner.get?_lt registered, action, answer⟩

theorem From.begins {grammar : Grammar τ υ} {start : Nat} (origin : parser.From grammar start)
    (wf : grammar.WellFormed eof) (traced : parser.Traced tokens word c)
    (tracks : parser.Tracks tokens c) :
    grammar.Begins ((tokens.take c.position).map Token.kind) := by
  have built := origin.built wf
  obtain ⟨calls, made⟩ := traced.generates built tracks
  have begins := built.machinery.stack_begins tracks.path made
  rw [origin.rules] at begins
  exact (wf.begins_iff origin.declared (origin.spelled traced)).2 begins

variable [Spelling τ]

/-- The configuration before the first step, or one that a shift has just led to. -/
inductive Entered (parser : Parser τ υ) (tokens : List (Token τ υ)) :
    Configuration τ υ → Prop where
  | initial : Entered parser tokens (parser.initial tokens)
  | shift {n state : Nat} {c c' : Configuration τ υ}
      (before : parser.Follows (parser.initial tokens) n c) (step : parser.step c = .next c')
      (position : c'.position = c.position + 1) (states : c'.states = state :: c.states)
      (calls : c'.calls = c.calls) : Entered parser tokens c'

/-- A reduction on a lookahead is never in vain, so a rejected lookahead has not caused any. -/
theorem Built.entered (built : parser.Built eof) {n : Nat}
    (follows : parser.Follows (parser.initial tokens) n c) {error : ParseError τ}
    {e : Configuration τ υ} (does : parser.Does c (.failed error e)) :
    parser.Entered tokens c := by
  cases follows with
  | refl => exact .initial
  | @step n d _ before next =>
    have moved := built.does before
    rw [next] at moved
    generalize outcome : Step.next c = step at moved
    cases moved with
    | shift =>
      obtain rfl := Step.next.inj outcome
      exact .shift before next (by simp) (by simp; rfl) (by simp)
    | @reduce t p _ _ _ after _ _ _ known move =>
      obtain rfl := Step.next.inj outcome
      obtain ⟨calls, final, whole, takes⟩ :=
        built.machinery.reduction_runs (built.tracks before).path move
      have first : Runs parser.rules parser.table t d.states [] [p] after := .reduce move .done
      obtain ⟨_, _, onward⟩ := first.toward whole takes
      obtain ⟨action, answer⟩ := onward.answers takes
      cases does with
      | reject states unanswered =>
        have top : after = _ := states
        rw [top] at answer
        cases answer.symm.trans (unanswered t known)
    | accept => contradiction
    | reject => contradiction

theorem Entered.at_start (entered : parser.Entered tokens c) (first : c.position = 0) :
    c.states = [parser.automaton.start] := by
  cases entered with
  | initial => simp [Parser.initial]
  | shift _ _ position =>
    rw [position] at first
    contradiction

theorem Entered.runs (entered : parser.Entered tokens c) (built : parser.Built eof) :
    ∃ word, parser.Traced tokens word c ∧ ∀ t, Runs parser.rules parser.table t
      [parser.automaton.start] word c.calls.reverse c.states := by
  cases entered with
  | initial => exact ⟨[], traced_initial parser tokens, parser.runs_initial tokens⟩
  | shift before step position states calls =>
    obtain ⟨word, traced⟩ := built.traced before
    have does := built.does before
    rw [step] at does
    obtain ⟨longer, after, runs⟩ := traced.next (built.tracks before) built.lexicon does
    exact ⟨longer, after, runs (by omega)⟩

end Parser

theorem expected_ascending (table : ParseTable) (state : Nat) :
    Ascending (table.expected state) :=
  List.Pairwise.filter _ List.pairwise_lt_range

variable {τ υ : Type} [DecidableEq τ] [Fingerprint τ] [Spelling τ] {eof : τ}
  {calls : List (Registration τ υ)} {host : Host} {strategy : Strategy} {parser : Parser τ υ}

/-- An unexpected token is reported where it stands and before anything is done about it, together
with all terminals that could have stood there. -/
theorem unexpected_exact (built : (Grammar.assemble eof calls).build host strategy = .ok parser)
    (tokens : List (Token τ υ)) {state position : Nat} {found : τ} {expected : List τ}
    {viable : List String} (failed : parser.parse tokens =
      .error (.unexpectedToken state found position expected viable)) :
    (inputWord eof tokens)[position]? = some found ∧
    (Grammar.assemble eof calls).Begins ((inputWord eof tokens).take position) ∧
    ¬ (Grammar.assemble eof calls).Begins ((inputWord eof tokens).take position ++ [found]) ∧
    (∃ ids, Ascending ids ∧
      List.Forall₂ (fun id t => (Grammar.assemble eof calls).lexicon.get? id = some t)
        ids expected ∧
      ∀ id, id ∈ ids ↔ ∃ t, (Grammar.assemble eof calls).lexicon.get? id = some t ∧
        (Grammar.assemble eof calls).Begins ((inputWord eof tokens).take position ++ [t])) ∧
    parser.Entered tokens (parser.run tokens).last ∧
    (parser.run tokens).last.position = position ∧
    (parser.run tokens).last.states.head? = some state ∧
    (position = 0 → state = parser.automaton.start) := by
  obtain ⟨start, origin, sound⟩ := Parser.Built.of_assemble built
  have wf := Grammar.assemble_wellFormed eof calls
  unfold Parser.parse at failed
  obtain ⟨n, c, follows, ⟨value, e, _, result⟩ | ⟨error, e, does, result⟩⟩ := sound.run_ends tokens
  · rw [result] at failed
    contradiction
  · rw [result] at failed ⊢
    obtain rfl := Except.error.inj failed
    have entered := sound.entered follows does
    have tracks := sound.tracks follows
    obtain ⟨word, traced, runs⟩ := entered.runs sound
    cases does with
    | @reject _ below _ _ _ states unanswered ahead listed printed =>
      obtain ⟨here, before⟩ := traced.input_at sound tracks ahead
      have spelled := mapM_eq_some_iff.1 listed
      rw [before]
      refine ⟨here, origin.begins wf traced tracks,
        origin.not_begins wf traced states unanswered ahead,
        ⟨parser.table.expected state, expected_ascending _ _, ?_, ?_⟩, entered, rfl, ?_, ?_⟩
      · exact origin.lexicon ▸ spelled
      · intro id
        exact origin.mem_expected wf traced tracks runs states
      · simp [states]
      · intro first
        exact (List.cons.inj (states.symm.trans (entered.at_start first))).1

theorem unexpected_exact_nested : ∃ parser,
    (Grammar.assemble "$" nested).build tasks .sequential = .ok parser ∧
    parser.parse [⟨"a", 1⟩, ⟨"b", 2⟩, ⟨"b", 3⟩] =
      .error (.unexpectedToken 6 "b" 2 ["$"] ["\"a\"", "S", "\"b\""]) ∧
    (Grammar.assemble "$" nested).Begins ["a", "b"] ∧
    ¬ (Grammar.assemble "$" nested).Begins ["a", "b", "b"] := by
  obtain ⟨parser, built, failed⟩ : ∃ parser,
      (Grammar.assemble "$" nested).build tasks .sequential = .ok parser ∧
      parser.parse [⟨"a", 1⟩, ⟨"b", 2⟩, ⟨"b", 3⟩] =
        .error (.unexpectedToken 6 "b" 2 ["$"] ["\"a\"", "S", "\"b\""]) :=
    exists_ok (by decide +kernel)
  obtain ⟨_, begins, refused, _⟩ := unexpected_exact built _ failed
  have word : (inputWord "$" ([⟨"a", 1⟩, ⟨"b", 2⟩, ⟨"b", 3⟩] : List (Token String Nat))).take 2 =
      ["a", "b"] := by decide +kernel
  rw [word] at begins refused
  exact ⟨parser, built, failed, begins, refused⟩

end CanonicalLR
