import CanonicalLR.Proofs.Frozen
import CanonicalLR.Proofs.ReductionBound
/-
What a step of the machine can do when the parser was built from a grammar. The three stacks follow
a path of the automaton and hold the values of a forest that derives the symbols from the tokens
read; under this invariant every step shifts, reduces, accepts or reports an unexpected token.
-/
namespace CanonicalLR

variable {τ υ : Type}

theorem mapM_eq_some_iff {α β : Type} {f : α → Option β} {xs : List α} {ys : List β} :
    xs.mapM f = some ys ↔ List.Forall₂ (fun x y => f x = some y) xs ys := by
  induction xs generalizing ys with
  | nil => simp [eq_comm]
  | cons x xs ih =>
    simp only [List.mapM_cons, Option.bind_eq_bind, Option.bind_eq_some_iff, ih,
      Option.pure_def, Option.some.injEq, List.forall₂_cons_left_iff]
    constructor
    · rintro ⟨y, found, tail, rest, rfl⟩
      exact ⟨y, tail, found, rest, rfl⟩
    · rintro ⟨y, tail, found, rest, rfl⟩
      exact ⟨y, found, tail, rest, rfl⟩

theorem mapM_exists {α β : Type} {f : α → Option β} {xs : List α}
    (h : ∀ x ∈ xs, ∃ y, f x = some y) : ∃ ys, xs.mapM f = some ys := by
  induction xs with
  | nil => exact ⟨[], rfl⟩
  | cons x xs ih =>
    obtain ⟨y, found⟩ := h x List.mem_cons_self
    obtain ⟨ys, rest⟩ := ih fun z member => h z (List.mem_cons_of_mem x member)
    exact ⟨y :: ys, by simp [found, rest]⟩

def lookaheadAt (tokens : List (Token τ υ)) (position : Nat) : Lookahead τ υ :=
  (tokens[position]?).elim .endOfInput .token

namespace Configuration

@[simp] theorem pull_states (c : Configuration τ υ) : c.pull.states = c.states := by
  unfold pull
  split <;> rfl

@[simp] theorem pull_symbols (c : Configuration τ υ) : c.pull.symbols = c.symbols := by
  unfold pull
  split <;> rfl

@[simp] theorem pull_values (c : Configuration τ υ) : c.pull.values = c.values := by
  unfold pull
  split <;> rfl

@[simp] theorem pull_position (c : Configuration τ υ) : c.pull.position = c.position := by
  unfold pull
  split <;> rfl

@[simp] theorem pull_calls (c : Configuration τ υ) : c.pull.calls = c.calls := by
  unfold pull
  split <;> rfl

theorem pull_of_rest {c : Configuration τ υ} {tokens : List (Token τ υ)} {position : Nat}
    (rest : c.rest = tokens.drop position) :
    c.pull.lookahead = lookaheadAt tokens position ∧ c.pull.rest = tokens.drop (position + 1) := by
  unfold pull
  split
  · rename_i empty
    have outside : tokens.length ≤ position := List.drop_eq_nil_iff.1 (rest.symm.trans empty)
    constructor
    · simp [lookaheadAt, outside]
    · rw [empty, List.drop_eq_nil_of_le (Nat.le_succ_of_le outside)]
  · rename_i token behind found
    have split : tokens.drop position = token :: behind := rest.symm.trans found
    constructor
    · have head := congrArg List.head? split
      rw [List.head?_drop] at head
      simp [lookaheadAt, head]
    · rw [← List.drop_drop, split]
      rfl

end Configuration

namespace Parser

structure Built [Fingerprint τ] (parser : Parser τ υ) (eof : τ) : Prop where
  machinery : Machinery parser.rules parser.automaton parser.table
  lexicon : parser.lexicon.Faithful
  eof : parser.lexicon.get? parser.rules.eof = some eof
  terminals : parser.rules.terminalCount = parser.lexicon.size
  handlers : parser.handlers.size = parser.rules.goal

def Bears (parser : Parser τ υ) (symbols : List (Symbol Nat)) (values : List υ)
    (read : List (Token τ υ)) (calls : List Nat) : Prop :=
  ∃ forest, Derivation parser.lexicon parser.rules.productions symbols.reverse forest ∧
    Forest.leaves forest = read ∧ Forest.values? parser.handlers forest = some values.reverse ∧
    Forest.calls forest = calls.reverse

namespace Bears

variable {parser : Parser τ υ} {symbols below rhs : List (Symbol Nat)}
  {values deep arguments : List υ} {read : List (Token τ υ)} {calls : List Nat}

theorem length_eq (bears : parser.Bears symbols values read calls) :
    values.length = symbols.length := by
  obtain ⟨forest, derivation, _, evaluates, _⟩ := bears
  have same := (Forest.values?_length _ evaluates).trans derivation.length_eq
  simpa using same

theorem shift (bears : parser.Bears symbols values read calls) {t : Nat} {token : Token τ υ}
    (spelled : parser.lexicon.get? t = some token.kind) :
    parser.Bears (.terminal t :: symbols) (token.value :: values) (read ++ [token]) calls := by
  obtain ⟨forest, derivation, leaves, evaluates, order⟩ := bears
  have last : Forest.values? parser.handlers [.leaf token] = some [token.value] := rfl
  refine ⟨forest ++ [.leaf token], ?_, ?_, ?_, ?_⟩
  · simpa using derivation.append (.leaf spelled .nil)
  · rw [Forest.leaves_append, leaves]
    rfl
  · simpa using Forest.values?_append _ evaluates last
  · simpa [Forest.calls_append, Forest.calls, Tree.calls] using order

theorem reduce (bears : parser.Bears (rhs.reverse ++ below) (arguments.reverse ++ deep) read calls)
    {p lhs : Nat} {handler : Handler υ} (rule : parser.rules.productions[p]? = some ⟨lhs, rhs⟩)
    (handles : parser.handlers[p]? = some handler) (arity : arguments.length = rhs.length) :
    parser.Bears (.nonterminal lhs :: below) (handler arguments :: deep) read (p :: calls) := by
  obtain ⟨forest, derivation, leaves, evaluates, order⟩ := bears
  rw [List.reverse_append, List.reverse_reverse] at derivation evaluates
  obtain ⟨f, g, rfl, left, right⟩ := derivation.split
  have width : deep.reverse.length = f.length := by
    have all := Forest.values?_length _ evaluates
    have children := right.length_eq
    rw [List.length_append, List.length_append] at all
    omega
  obtain ⟨kept, taken⟩ := Forest.values?_split _ evaluates
  rw [List.take_left' width] at kept
  rw [List.drop_left' width] at taken
  have last : Forest.values? parser.handlers [.node p g] = some [handler arguments] := by
    simp [Forest.values?, Tree.value?, handles, taken]
  refine ⟨f ++ [.node p g], ?_, ?_, ?_, ?_⟩
  · simpa using left.append (.node rule right .nil)
  · rw [← leaves]
    simp [Forest.leaves_append, Forest.leaves, Tree.leaves]
  · simpa using Forest.values?_append _ kept last
  · rw [List.reverse_cons, ← order]
    simp [Forest.calls_append, Forest.calls, Tree.calls]

end Bears

/-- The stacks between two steps: states and symbols form a path, and a forest over the tokens that
were shifted stands behind symbols and values. -/
structure Tracks (parser : Parser τ υ) (tokens : List (Token τ υ)) (c : Configuration τ υ) :
    Prop where
  path : parser.automaton.Trail c.states c.symbols
  forest : parser.Bears c.symbols c.values (tokens.take c.position) c.calls
  position : c.position ≤ tokens.length
  lookahead : c.lookahead = lookaheadAt tokens c.position
  rest : c.rest = tokens.drop (c.position + 1)

theorem Tracks.token_at {parser : Parser τ υ} {tokens : List (Token τ υ)}
    {c : Configuration τ υ} (tracks : parser.Tracks tokens c) {token : Token τ υ}
    (ahead : c.lookahead = .token token) : tokens[c.position]? = some token := by
  have seen := ahead.symm.trans tracks.lookahead
  unfold lookaheadAt at seen
  cases found : tokens[c.position]? with
  | none => simp [found] at seen
  | some other => simpa [found, eq_comm] using seen

theorem tracks_initial (parser : Parser τ υ) (tokens : List (Token τ υ)) :
    parser.Tracks tokens (parser.initial tokens) := by
  unfold initial
  constructor
  · simpa using .start
  · exact ⟨[], by simpa using .nil, by simp [Forest.leaves], by simp [Forest.values?],
      by simp [Forest.calls]⟩
  · simp
  · rw [Configuration.pull_position]
    exact (Configuration.pull_of_rest rfl).1
  · rw [Configuration.pull_position]
    exact (Configuration.pull_of_rest rfl).2

variable [Fingerprint τ] {parser : Parser τ υ} {eof : τ} {tokens : List (Token τ υ)}
  {c : Configuration τ υ}

theorem Built.found_exists (built : parser.Built eof) (lookahead : Lookahead τ υ) :
    ∃ found, parser.found? lookahead = some found := by
  cases lookahead with
  | token token => exact ⟨token.kind, rfl⟩
  | endOfInput => exact ⟨eof, built.eof⟩

theorem Built.prints [Spelling τ] (built : parser.Built eof) {symbol : Symbol Nat}
    (usable : parser.rules.Usable symbol) : ∃ text, parser.printer.symbol? symbol = some text := by
  cases symbol with
  | terminal t =>
    obtain ⟨kind, found⟩ := Interner.get?_of_lt (built.terminals ▸ usable.1)
    exact ⟨spelling kind, by simp [Printer.symbol?, Printer.terminal?, printer, found]⟩
  | nonterminal n =>
    have bound : n < parser.rules.names.size := Nat.lt_of_succ_lt usable
    exact ⟨_, Array.getElem?_eq_getElem bound⟩

variable [DecidableEq τ] [Spelling τ]

inductive Does (parser : Parser τ υ) (c : Configuration τ υ) : Step τ υ → Prop where
  | shift {token : Token τ υ} {t target : Nat} (ahead : c.lookahead = .token token)
      (known : parser.terminalId? token.kind = some t) (inside : t ≠ parser.rules.eof)
      (action : parser.table.answer c.states (.terminal t) = some (.shift target))
      (path : parser.automaton.Trail (target :: c.states) (.terminal t :: c.symbols)) :
      Does parser c (.next (Configuration.pull
        { c with
          states := target :: c.states
          symbols := .terminal t :: c.symbols
          values := token.value :: c.values
          position := c.position + 1 }))
  | reduce {t p lhs : Nat} {rhs below : List (Symbol Nat)} {after : List Nat}
      {arguments deep : List υ} {handler : Handler υ}
      (known : parser.lookaheadId? c.lookahead = some t)
      (move : Reduction parser.rules parser.table t p c.states after)
      (rule : parser.rules.productions[p]? = some ⟨lhs, rhs⟩)
      (handles : parser.handlers[p]? = some handler)
      (symbols : c.symbols = rhs.reverse ++ below)
      (values : c.values = arguments.reverse ++ deep) (arity : arguments.length = rhs.length)
      (path : parser.automaton.Trail after (.nonterminal lhs :: below)) :
      Does parser c (.next
        { c with
          states := after
          symbols := .nonterminal lhs :: below
          values := handler arguments :: deep
          calls := p :: c.calls })
  | accept {value : υ} (known : parser.lookaheadId? c.lookahead = some parser.rules.eof)
      (action : parser.table.answer c.states (.terminal parser.rules.eof) = some .accept)
      (symbols : c.symbols = [.nonterminal parser.rules.start]) (values : c.values = [value]) :
      Does parser c (.accepted value { c with values := [] })
  | reject {s : Nat} {below : List Nat} {found : τ} {expected : List τ} {viable : List String}
      (states : c.states = s :: below)
      (unanswered : ∀ t, parser.lookaheadId? c.lookahead = some t →
        parser.table.action s (.terminal t) = none)
      (ahead : parser.found? c.lookahead = some found)
      (listed : (parser.table.expected s).mapM parser.terminal? = some expected)
      (printed : c.symbols.reverse.mapM parser.printer.symbol? = some viable) :
      Does parser c (.failed (.unexpectedToken s found c.position expected viable) c)

theorem Built.reject_does (built : parser.Built eof) (tracks : parser.Tracks tokens c) {s : Nat}
    {below : List Nat} (states : c.states = s :: below)
    (unanswered : ∀ t, parser.lookaheadId? c.lookahead = some t →
      parser.table.action s (.terminal t) = none) :
    parser.Does c (parser.reject c s) := by
  obtain ⟨found, ahead⟩ := built.found_exists c.lookahead
  obtain ⟨expected, listed⟩ : ∃ expected,
      (parser.table.expected s).mapM parser.terminal? = some expected := by
    apply mapM_exists
    intro t member
    have bound := List.mem_range.1 (List.mem_filter.1 member).1
    rw [built.machinery.tabulates.terminalCount, built.terminals] at bound
    exact Interner.get?_of_lt bound
  obtain ⟨viable, printed⟩ : ∃ viable,
      c.symbols.reverse.mapM parser.printer.symbol? = some viable := by
    apply mapM_exists
    intro symbol member
    exact built.prints (built.machinery.usable tracks.path symbol (List.mem_reverse.1 member))
  have error : parser.unexpected? c s =
      some (.unexpectedToken s found c.position expected viable) := by
    simp [unexpected?, ahead, listed, printed]
  rw [reject, error]
  exact .reject states unanswered ahead listed printed

theorem Built.reduce_does (built : parser.Built eof) (tracks : parser.Tracks tokens c)
    {t p : Nat} {item : Item} (known : parser.lookaheadId? c.lookahead = some t)
    (action : parser.table.answer c.states (.terminal t) = some (.reduce p))
    (production : item.production = p) (viable : parser.rules.Viable c.symbols item (some t))
    (complete : parser.rules.isComplete item = true) :
    parser.Does c (parser.reduce c p) := by
  obtain ⟨lhs, rhs, below, rule, user, symbols, source, old, waiting, next⟩ :=
    viable.handle built.machinery.proper complete
  rw [production] at rule user
  obtain ⟨handler, handles⟩ : ∃ handler, parser.handlers[p]? = some handler := by
    have stored := (Array.getElem?_eq_some_iff.1 rule).1
    have last := built.machinery.proper.last
    have bound : p < parser.handlers.size := by
      rw [built.handlers]
      omega
    exact ⟨_, Array.getElem?_eq_getElem bound⟩
  have tall := tracks.path.length_eq
  have wide := tracks.forest.length_eq
  have height : c.symbols.length = rhs.length + below.length := by simp [symbols]
  have base : parser.automaton.Trail (c.states.drop rhs.length) below := by
    have path := tracks.path
    rw [symbols] at path
    simpa using path.drop
  obtain ⟨exposed, rest, dropped⟩ := base.uncons
  rw [dropped] at base
  obtain ⟨target, goto, path⟩ := built.machinery.step base waiting next (by simp)
  have result : parser.reduce c p = .next
      { c with
        states := target :: exposed :: rest
        symbols := .nonterminal lhs :: below
        values := handler (c.values.take rhs.length).reverse :: c.values.drop rhs.length
        calls := p :: c.calls } := by
    have enough : ¬ (c.values.length < rhs.length ∨ c.states.length ≤ rhs.length) := by omega
    have goto : parser.table.action exposed (.nonterminal lhs) = some (.goto target) := goto
    have kept : c.symbols.drop rhs.length = below := by simp [symbols]
    simp only [reduce, rule, if_neg enough, handles, follow, dropped, goto, kept]
  rw [result]
  have split : c.states = c.states.take rhs.length ++ exposed :: rest := by
    rw [← dropped, List.take_append_drop]
  have size : (c.states.take rhs.length).length = rhs.length := by
    rw [List.length_take]
    omega
  have move : Reduction parser.rules parser.table t p c.states (target :: exposed :: rest) := by
    rw [split] at action ⊢
    exact .mk action rule size goto
  refine .reduce known move rule handles symbols ?_ ?_ path
  · rw [List.reverse_reverse, List.take_append_drop]
  · rw [List.length_reverse, List.length_take]
    omega

/-- No step goes wrong: faults and unknown ids are out of reach. -/
theorem Built.step_does (built : parser.Built eof) (tracks : parser.Tracks tokens c) :
    parser.Does c (parser.step c) := by
  obtain ⟨s, below, states⟩ := tracks.path.uncons
  unfold step
  rw [states]
  simp only
  cases known : parser.lookaheadId? c.lookahead with
  | none =>
    refine built.reject_does tracks states ?_
    intro t found
    rw [known] at found
    contradiction
  | some t =>
    simp only
    cases action : parser.table.action s (.terminal t) with
    | none =>
      refine built.reject_does tracks states ?_
      intro other found
      obtain rfl := Option.some.inj (known.symm.trans found)
      exact action
    | some chosen =>
      have answer : parser.table.answer c.states (.terminal t) = some chosen := by
        rw [states]
        exact action
      have path := tracks.path
      rw [states] at path
      rcases built.machinery.terminal_cases path action with
        ⟨target, _, rfl, inside, trail, _⟩ | ⟨item, rfl, viable, complete⟩ |
        ⟨_, rfl, rfl, viable, next⟩
      · rw [← states] at trail
        cases ahead : c.lookahead with
        | endOfInput =>
          rw [ahead] at known
          exact absurd (Option.some.inj known).symm inside
        | token token =>
          rw [ahead] at known
          simp only [shift, ahead]
          exact .shift ahead known inside answer trail
      · exact built.reduce_does tracks known answer rfl viable complete
      · obtain ⟨symbols, _⟩ := viable.next_eof built.machinery.proper next
        have single : c.values.length = 1 := by rw [tracks.forest.length_eq, symbols]; rfl
        obtain ⟨value, values⟩ := List.length_eq_one_iff.1 single
        simp only [accept, values]
        exact .accept known answer symbols values

theorem Tracks.next {c' : Configuration τ υ} (tracks : parser.Tracks tokens c)
    (does : parser.Does c (.next c')) (lexicon : parser.lexicon.Faithful) :
    parser.Tracks tokens c' := by
  generalize outcome : Step.next c' = step at does
  cases does with
  | @shift token t target ahead known inside action path =>
    obtain rfl := Step.next.inj outcome
    have here := tracks.token_at ahead
    have spelled : parser.lexicon.get? t = some token.kind :=
      (Interner.find?_eq_some_iff lexicon).1 known
    constructor
    · simpa using path
    · have longer : tokens.take (c.position + 1) = tokens.take c.position ++ [token] := by
        rw [List.take_add_one, here]
        rfl
      simpa [longer] using tracks.forest.shift spelled
    · rw [Configuration.pull_position]
      exact (List.getElem?_eq_some_iff.1 here).1
    · rw [Configuration.pull_position]
      refine (Configuration.pull_of_rest ?_).1
      exact tracks.rest
    · rw [Configuration.pull_position]
      refine (Configuration.pull_of_rest ?_).2
      exact tracks.rest
  | reduce known move rule handles symbols values arity path =>
    obtain rfl := Step.next.inj outcome
    have forest := tracks.forest
    rw [symbols, values] at forest
    constructor
    · exact path
    · exact forest.reduce rule handles arity
    · exact tracks.position
    · exact tracks.lookahead
    · exact tracks.rest
  | accept => contradiction
  | reject => contradiction

end Parser

end CanonicalLR
