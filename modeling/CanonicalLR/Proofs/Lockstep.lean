import CanonicalLR.Proofs.Outcomes
import CanonicalLR.Proofs.Renaming
import CanonicalLR.Proofs.Termination
/-
Parsers for grammars that agree up to ids run in step. Their stacks hold paired symbols and the same
values, so each step of one is a step of the other of the same kind, and both runs end together:
with one value, or at one token and with the same terminals expected.
-/
namespace CanonicalLR

variable {τ υ : Type}

theorem sameKind_flip (lexicon lexicon' : Lexicon τ) :
    flip (SameKind lexicon lexicon') = SameKind lexicon' lexicon := by
  funext t t'
  simp only [flip, SameKind, and_comm]

inductive Action.Matches (pairs : Nat → Nat → Prop) : Action → Action → Prop where
  | shift {target target' : Nat} : Matches pairs (.shift target) (.shift target')
  | reduce {p p' : Nat} (pair : pairs p p') : Matches pairs (.reduce p) (.reduce p')
  | accept : Matches pairs .accept .accept

/-- Outcomes that differ at most in the number of the state and in the order of the terminals
expected. -/
inductive SameOutcome : Except (ParseError τ) υ → Except (ParseError τ) υ → Prop where
  | ok (value : υ) : SameOutcome (.ok value) (.ok value)
  | unexpected {state state' position : Nat} {found : τ} {expected expected' : List τ}
      {viable : List String} (same : ∀ kind, kind ∈ expected ↔ kind ∈ expected') :
      SameOutcome (.error (.unexpectedToken state found position expected viable))
        (.error (.unexpectedToken state' found position expected' viable))

theorem mapM_congr {α β γ : Type} {f : α → Option γ} {g : β → Option γ} {xs : List α} {ys : List β}
    (h : List.Forall₂ (fun x y => f x = g y) xs ys) : xs.mapM f = ys.mapM g := by
  induction h with
  | nil => rfl
  | cons first _ ih => simp only [List.mapM_cons, first, ih]

namespace Parser

structure Agrees (parser parser' : Parser τ υ) (names pairs : Nat → Nat → Prop) : Prop where
  rules : parser.rules.Agrees parser'.rules (SameKind parser.lexicon parser'.lexicon) names pairs
  texts {n n' : Nat} : names n n' → parser'.rules.names[n']? = parser.rules.names[n]?
  handlers {p p' : Nat} : pairs p p' → parser'.handlers[p']? = parser.handlers[p]?

/-- Configurations at the same place of the same input. The states may have other numbers. -/
structure Abreast (parser parser' : Parser τ υ) (names : Nat → Nat → Prop)
    (c c' : Configuration τ υ) : Prop where
  symbols : List.Forall₂ (Paired (SameKind parser.lexicon parser'.lexicon) names) c.symbols
    c'.symbols
  values : c.values = c'.values
  position : c.position = c'.position

variable {parser parser' : Parser τ υ} {names pairs : Nat → Nat → Prop} {c c' : Configuration τ υ}

theorem Agrees.swap (agrees : parser.Agrees parser' names pairs) :
    parser'.Agrees parser (flip names) (flip pairs) where
  rules := by
    rw [← sameKind_flip]
    exact agrees.rules.swap
  texts name := (agrees.texts name).symm
  handlers pair := (agrees.handlers pair).symm

theorem Abreast.swap (abreast : parser.Abreast parser' names c c') :
    parser'.Abreast parser (flip names) c' c where
  symbols := by
    rw [← sameKind_flip]
    exact Paired.swap_all abreast.symbols
  values := abreast.values.symm
  position := abreast.position.symm

theorem Abreast.initial (names : Nat → Nat → Prop) (parser parser' : Parser τ υ)
    (tokens : List (Token τ υ)) :
    parser.Abreast parser' names (parser.initial tokens) (parser'.initial tokens) := by
  constructor <;> simp [Parser.initial]

theorem Abreast.shifted (abreast : parser.Abreast parser' names c c') {t t' target target' : Nat}
    (kind : SameKind parser.lexicon parser'.lexicon t t') (value : υ) :
    parser.Abreast parser' names
      (Configuration.pull
        { c with
          states := target :: c.states
          symbols := .terminal t :: c.symbols
          values := value :: c.values
          position := c.position + 1 })
      (Configuration.pull
        { c' with
          states := target' :: c'.states
          symbols := .terminal t' :: c'.symbols
          values := value :: c'.values
          position := c'.position + 1 }) := by
  constructor
  · simpa using ⟨.terminal kind, abreast.symbols⟩
  · simpa using abreast.values
  · simpa using abreast.position

theorem Abreast.reduced (abreast : parser.Abreast parser' names c c')
    (agrees : parser.Agrees parser' names pairs) {p p' lhs lhs' : Nat} (pair : pairs p p')
    {rhs rhs' below below' : List (Symbol Nat)} {after after' calls calls' : List Nat}
    {arguments arguments' deep deep' : List υ} {handler handler' : Handler υ}
    (rule : parser.rules.productions[p]? = some ⟨lhs, rhs⟩)
    (rule' : parser'.rules.productions[p']? = some ⟨lhs', rhs'⟩)
    (handles : parser.handlers[p]? = some handler)
    (handles' : parser'.handlers[p']? = some handler')
    (symbols : c.symbols = rhs.reverse ++ below) (symbols' : c'.symbols = rhs'.reverse ++ below')
    (values : c.values = arguments.reverse ++ deep)
    (values' : c'.values = arguments'.reverse ++ deep')
    (arity : arguments.length = rhs.length) (arity' : arguments'.length = rhs'.length) :
    parser.Abreast parser' names
      { c with
        states := after
        symbols := .nonterminal lhs :: below
        values := handler arguments :: deep
        calls := calls }
      { c' with
        states := after'
        symbols := .nonterminal lhs' :: below'
        values := handler' arguments' :: deep'
        calls := calls' } := by
  obtain ⟨left, right, left', right', found, found', name, sides⟩ := agrees.rules.rule pair
  obtain ⟨rfl, rfl⟩ := Production.mk.inj (Option.some.inj (rule.symm.trans found))
  obtain ⟨rfl, rfl⟩ := Production.mk.inj (Option.some.inj (rule'.symm.trans found'))
  have length := sides.length_eq
  have kept : List.Forall₂ (Paired (SameKind parser.lexicon parser'.lexicon) names) below
      below' := by
    have dropped := List.forall₂_drop rhs.length abreast.symbols
    rw [symbols, symbols'] at dropped
    simpa [length] using dropped
  have popped : arguments.reverse ++ deep = arguments'.reverse ++ deep' := by
    rw [← values, ← values', abreast.values]
  obtain ⟨taken, left⟩ := List.append_inj popped (by simp [arity, arity', length])
  have same : handler' = handler := by
    have paired := agrees.handlers pair
    rw [handles, handles'] at paired
    exact Option.some.inj paired
  constructor
  · exact .cons (.nonterminal name) kept
  · simp only [List.reverse_inj.1 taken, left, same]
  · exact abreast.position

theorem Agrees.printed [Spelling τ] (agrees : parser.Agrees parser' names pairs)
    {symbols symbols' : List (Symbol Nat)}
    (same : List.Forall₂ (Paired (SameKind parser.lexicon parser'.lexicon) names) symbols
      symbols') :
    symbols.reverse.mapM parser.printer.symbol? =
      symbols'.reverse.mapM parser'.printer.symbol? := by
  apply mapM_congr
  rw [List.forall₂_reverse_iff]
  refine same.imp fun x y related => ?_
  cases related with
  | terminal kind =>
    obtain ⟨kind, here, there⟩ := kind
    simp [Printer.symbol?, Printer.terminal?, printer, here, there]
  | nonterminal name => exact (agrees.texts name).symm

variable {tokens : List (Token τ υ)}

theorem Abreast.lookahead_eq (abreast : parser.Abreast parser' names c c')
    (tracks : parser.Tracks tokens c) (tracks' : parser'.Tracks tokens c') :
    c'.lookahead = c.lookahead := by
  rw [tracks.lookahead, tracks'.lookahead, abreast.position]

variable [Fingerprint τ] {eof : τ} {t : Nat}

theorem Agrees.action (agrees : parser.Agrees parser' names pairs) (built : parser.Built eof)
    (built' : parser'.Built eof) {stack stack' : List (Symbol Nat)} {s s' : Nat}
    {below below' : List Nat}
    (same : List.Forall₂ (Paired (SameKind parser.lexicon parser'.lexicon) names) stack stack')
    (path : parser.automaton.Trail (s :: below) stack)
    (path' : parser'.automaton.Trail (s' :: below') stack') {action : Action}
    (h : parser.table.action s (.terminal t) = some action) :
    ∃ t' action', SameKind parser.lexicon parser'.lexicon t t' ∧
      parser'.table.action s' (.terminal t') = some action' ∧ action.Matches pairs action' := by
  rcases built.machinery.terminal_cases path h with
    ⟨target, item, rfl, inside, _, viable, next⟩ | ⟨item, rfl, viable, complete⟩ |
    ⟨item, rfl, rfl, viable, next⟩
  · obtain ⟨item', t', viable', next', kind⟩ := agrees.rules.waits viable next same
    have inside' : Symbol.terminal t' ≠ .terminal parser'.rules.eof := by
      intro ends
      rw [Symbol.terminal.inj ends] at kind
      exact inside (agrees.rules.oneKind.1 kind agrees.rules.eof)
    obtain ⟨target', action', _⟩ := built'.machinery.step path' viable' next' inside'
    exact ⟨t', .shift target', kind, action', .shift⟩
  · obtain ⟨item', t', viable', complete', pair, kind⟩ :=
      agrees.rules.completes viable complete same
    exact ⟨t', _, kind, built'.machinery.reduces path' viable' complete', .reduce pair⟩
  · obtain ⟨item', t', viable', next', kind⟩ := agrees.rules.waits viable next same
    obtain rfl := agrees.rules.oneKind.2 agrees.rules.eof kind
    exact ⟨_, .accept, kind, built'.machinery.accepts path' viable' next', .accept⟩

theorem Built.found_eq (built : parser.Built eof) (built' : parser'.Built eof)
    (ahead : Lookahead τ υ) : parser.found? ahead = parser'.found? ahead := by
  cases ahead with
  | token token => rfl
  | endOfInput => exact built.eof.trans built'.eof.symm

theorem Agrees.expected (agrees : parser.Agrees parser' names pairs) (built : parser.Built eof)
    (built' : parser'.Built eof) {stack stack' : List (Symbol Nat)} {s s' : Nat}
    {below below' : List Nat}
    (same : List.Forall₂ (Paired (SameKind parser.lexicon parser'.lexicon) names) stack stack')
    (path : parser.automaton.Trail (s :: below) stack)
    (path' : parser'.automaton.Trail (s' :: below') stack') {expected expected' : List τ}
    (listed : (parser.table.expected s).mapM parser.terminal? = some expected)
    (listed' : (parser'.table.expected s').mapM parser'.terminal? = some expected') {kind : τ}
    (member : kind ∈ expected) : kind ∈ expected' := by
  obtain ⟨t, shown, spelled⟩ := forall₂_mem_right (mapM_eq_some_iff.1 listed) member
  obtain ⟨_, answered⟩ := List.mem_filter.1 shown
  obtain ⟨action, chosen⟩ := Option.isSome_iff_exists.1 answered
  obtain ⟨t', action', ⟨other, here, there⟩, chosen', _⟩ :=
    agrees.action built built' same path path' chosen
  obtain rfl : kind = other := Option.some.inj (spelled.symm.trans here)
  have shown' : t' ∈ parser'.table.expected s' := by
    refine List.mem_filter.2 ⟨List.mem_range.2 ?_, by simp [chosen']⟩
    rw [built'.machinery.tabulates.terminalCount, built'.terminals]
    exact Interner.get?_lt there
  obtain ⟨found, inside, spelled'⟩ :=
    forall₂_mem_right (List.Forall₂.flip (mapM_eq_some_iff.1 listed')) shown'
  obtain rfl : found = kind := Option.some.inj (Eq.symm spelled' |>.trans there)
  exact inside

variable [DecidableEq τ]

theorem Agrees.lookahead (agrees : parser.Agrees parser' names pairs) (built : parser.Built eof)
    (built' : parser'.Built eof) {t' : Nat} {ahead : Lookahead τ υ}
    (known : parser.lookaheadId? ahead = some t)
    (kind : SameKind parser.lexicon parser'.lexicon t t') :
    parser'.lookaheadId? ahead = some t' := by
  cases ahead with
  | token token =>
    have spelled : parser.lexicon.get? t = some token.kind :=
      (Interner.find?_eq_some_iff built.lexicon).1 known
    obtain ⟨other, here, there⟩ := kind
    obtain rfl := Option.some.inj (here.symm.trans spelled)
    exact (Interner.find?_eq_some_iff built'.lexicon).2 there
  | endOfInput =>
    obtain rfl := Option.some.inj known
    exact congrArg some (agrees.rules.oneKind.2 agrees.rules.eof kind)

theorem Abreast.answer (abreast : parser.Abreast parser' names c c')
    (agrees : parser.Agrees parser' names pairs) (built : parser.Built eof)
    (built' : parser'.Built eof) (tracks : parser.Tracks tokens c)
    (tracks' : parser'.Tracks tokens c') (known : parser.lookaheadId? c.lookahead = some t)
    {action : Action} (h : parser.table.answer c.states (.terminal t) = some action) :
    ∃ t' action', SameKind parser.lexicon parser'.lexicon t t' ∧
      parser'.lookaheadId? c'.lookahead = some t' ∧
      parser'.table.answer c'.states (.terminal t') = some action' ∧
      action.Matches pairs action' := by
  obtain ⟨s, below, states⟩ := tracks.path.uncons
  obtain ⟨s', below', states'⟩ := tracks'.path.uncons
  have path := tracks.path
  have path' := tracks'.path
  rw [states] at path h
  rw [states'] at path'
  obtain ⟨t', action', kind, answered, matched⟩ :=
    agrees.action built built' abreast.symbols path path' h
  have known' := agrees.lookahead built built' known kind
  rw [← abreast.lookahead_eq tracks tracks'] at known'
  refine ⟨t', action', kind, known', ?_, matched⟩
  rw [states']
  exact answered

variable [Spelling τ] {outcome : Step τ υ}

theorem Does.of_reduce (does : parser.Does c outcome)
    (known : parser.lookaheadId? c.lookahead = some t) {p : Nat}
    (action : parser.table.answer c.states (.terminal t) = some (.reduce p)) :
    ∃ lhs rhs below after arguments deep handler,
      parser.rules.productions[p]? = some ⟨lhs, rhs⟩ ∧ parser.handlers[p]? = some handler ∧
      c.symbols = rhs.reverse ++ below ∧ c.values = arguments.reverse ++ deep ∧
      arguments.length = rhs.length ∧
      outcome = .next
        { c with
          states := after
          symbols := .nonterminal lhs :: below
          values := handler arguments :: deep
          calls := p :: c.calls } := by
  cases does with
  | @shift token u target ahead spelled _ taken _ =>
    have same : u = t := by
      rw [ahead] at known
      exact Option.some.inj (spelled.symm.trans known)
    rw [same, action] at taken
    cases taken
  | @reduce u q lhs rhs below after arguments deep handler found move rule handles symbols values
      arity path =>
    obtain rfl := Option.some.inj (known.symm.trans found)
    obtain rfl : p = q := by simpa using action.symm.trans move.answer
    exact ⟨lhs, rhs, below, after, arguments, deep, handler, rule, handles, symbols, values, arity,
      rfl⟩
  | accept found taken =>
    obtain rfl := Option.some.inj (known.symm.trans found)
    rw [action] at taken
    cases taken
  | @reject s below _ _ _ states unanswered =>
    rw [states] at action
    have none := unanswered t known
    simp_all [ParseTable.answer]

def perform (parser : Parser τ υ) (c : Configuration τ υ) (t : Nat) : Action → Step τ υ
  | .shift target => shift c t target
  | .reduce p => parser.reduce c p
  | .accept => accept c
  | .goto _ => fault c .gotoOnTerminal

theorem step_of_answer (known : parser.lookaheadId? c.lookahead = some t) {action : Action}
    (answered : parser.table.answer c.states (.terminal t) = some action) :
    parser.step c = parser.perform c t action := by
  cases states : c.states with
  | nil => simp [states, ParseTable.answer] at answered
  | cons s below =>
    have here : parser.table.action s (.terminal t) = some action := by
      simpa [states, ParseTable.answer] using answered
    simp only [step, states, known, here]
    cases action <;> rfl

namespace Abreast

variable (abreast : parser.Abreast parser' names c c')
  (agrees : parser.Agrees parser' names pairs) (built : parser.Built eof)
  (built' : parser'.Built eof) (tracks : parser.Tracks tokens c)
  (tracks' : parser'.Tracks tokens c')

include abreast agrees built built' tracks tracks'

theorem next {d : Configuration τ υ} (next : parser.step c = .next d) :
    ∃ d', parser'.step c' = .next d' ∧ parser.Abreast parser' names d d' := by
  have does := built.step_does tracks
  rw [next] at does
  generalize onward : Step.next d = outcome at does
  cases does with
  | @shift token t target ahead known inside action _ =>
    obtain rfl := Step.next.inj onward
    have here : parser.lookaheadId? c.lookahead = some t := by rwa [ahead]
    have ahead' := (abreast.lookahead_eq tracks tracks').trans ahead
    obtain ⟨t', action', kind, known', answered, matched⟩ :=
      abreast.answer agrees built built' tracks tracks' here action
    cases matched with
    | shift =>
      have taken := step_of_answer known' answered
      simp only [perform, shift, ahead'] at taken
      exact ⟨_, taken, abreast.shifted kind token.value⟩
  | @reduce t p lhs rhs below after arguments deep handler known move rule handles symbols values
      arity _ =>
    obtain rfl := Step.next.inj onward
    obtain ⟨t', action', _, known', answered, matched⟩ :=
      abreast.answer agrees built built' tracks tracks' known move.answer
    cases matched with
    | reduce pair =>
      obtain ⟨lhs', rhs', below', after', arguments', deep', handler', rule', handles', symbols',
        values', arity', next'⟩ := (built'.step_does tracks').of_reduce known' answered
      exact ⟨_, next', abreast.reduced agrees pair rule rule' handles handles' symbols symbols'
        values values' arity arity'⟩
  | accept => contradiction
  | reject => contradiction

theorem accepted {value : υ} {e : Configuration τ υ}
    (accepts : parser.step c = .accepted value e) :
    ∃ e', parser'.step c' = .accepted value e' := by
  have does := built.step_does tracks
  rw [accepts] at does
  cases does with
  | accept known action _ values =>
    obtain ⟨t', action', _, known', answered, matched⟩ :=
      abreast.answer agrees built built' tracks tracks' known action
    cases matched with
    | accept =>
      have taken := step_of_answer known' answered
      rw [abreast.values] at values
      simp only [perform, accept, values] at taken
      exact ⟨_, taken⟩

/-- A step that fails is matched by one that fails: any other step would be matched in turn. -/
theorem failed {error : ParseError τ} {e : Configuration τ υ}
    (fails : parser.step c = .failed error e) :
    ∃ error' e', parser'.step c' = .failed error' e' := by
  cases taken : parser'.step c' with
  | next d' =>
    obtain ⟨d, onward, _⟩ := abreast.swap.next agrees.swap built' built tracks' tracks taken
    cases fails.symm.trans onward
  | accepted value e' =>
    obtain ⟨e, accepts⟩ := abreast.swap.accepted agrees.swap built' built tracks' tracks taken
    cases fails.symm.trans accepts
  | failed error' e' => exact ⟨error', e', rfl⟩

theorem rejected {error error' : ParseError τ} {e e' : Configuration τ υ}
    (fails : parser.step c = .failed error e) (fails' : parser'.step c' = .failed error' e') :
    SameOutcome (.error error : Except (ParseError τ) υ) (.error error') := by
  have does := built.step_does tracks
  have does' := built'.step_does tracks'
  rw [fails] at does
  rw [fails'] at does'
  cases does with
  | @reject s below found expected viable states _ ahead listed printed =>
    cases does' with
    | @reject s' below' found' expected' viable' states' _ ahead' listed' printed' =>
      have path := tracks.path
      have path' := tracks'.path
      rw [states] at path
      rw [states'] at path'
      obtain rfl : found = found' := by
        rw [abreast.lookahead_eq tracks tracks'] at ahead'
        exact Option.some.inj (ahead.symm.trans ((built.found_eq built' _).trans ahead'))
      obtain rfl : viable = viable' :=
        Option.some.inj (printed.symm.trans ((agrees.printed abreast.symbols).trans printed'))
      rw [abreast.position]
      refine .unexpected fun kind => ⟨?_, ?_⟩
      · exact agrees.expected built built' abreast.symbols path path' listed listed'
      · exact agrees.swap.expected built' built abreast.swap.symbols path' path listed' listed

end Abreast

variable {n : Nat}

theorem Agrees.follows (agrees : parser.Agrees parser' names pairs) (built : parser.Built eof)
    (built' : parser'.Built eof) (h : parser.Follows (parser.initial tokens) n c) :
    ∃ c', parser'.Follows (parser'.initial tokens) n c' ∧
      parser.Abreast parser' names c c' := by
  induction h with
  | refl => exact ⟨_, .refl, .initial names parser parser' tokens⟩
  | step before next ih =>
    obtain ⟨c', before', abreast⟩ := ih
    obtain ⟨d', next', after⟩ := abreast.next agrees built built' (built.tracks before)
      (built'.tracks before') next
    exact ⟨d', .step before' next', after⟩

theorem Built.run_from (built : parser.Built eof)
    (follows : parser.Follows (parser.initial tokens) n c) :
    ∃ extra, parser.run tokens = parser.runFrom (extra + 1) c := by
  have few := built.steps_lt follows
  obtain ⟨extra, enough⟩ : ∃ extra, parser.stepBound tokens = n + (extra + 1) :=
    ⟨parser.stepBound tokens - n - 1, by omega⟩
  exact ⟨extra, by rw [run, enough, follows.runFrom]⟩

theorem Built.parse_accepted (built : parser.Built eof)
    (follows : parser.Follows (parser.initial tokens) n c) {value : υ} {e : Configuration τ υ}
    (accepts : parser.step c = .accepted value e) : parser.parse tokens = .ok value := by
  obtain ⟨extra, run⟩ := built.run_from follows
  rw [parse, run, runFrom, accepts]

theorem Built.parse_failed (built : parser.Built eof)
    (follows : parser.Follows (parser.initial tokens) n c) {error : ParseError τ}
    {e : Configuration τ υ} (fails : parser.step c = .failed error e) :
    parser.parse tokens = .error error := by
  obtain ⟨extra, run⟩ := built.run_from follows
  rw [parse, run, runFrom, fails]

theorem Agrees.parse (agrees : parser.Agrees parser' names pairs) (built : parser.Built eof)
    (built' : parser'.Built eof) (tokens : List (Token τ υ)) :
    SameOutcome (parser.parse tokens) (parser'.parse tokens) := by
  obtain ⟨n, c, follows, ended⟩ := built.steps_end tokens
  obtain ⟨c', follows', abreast⟩ := agrees.follows built built' follows
  have tracks := built.tracks follows
  have tracks' := built'.tracks follows'
  cases taken : parser.step c with
  | next d => exact absurd taken (ended d)
  | accepted value e =>
    obtain ⟨e', taken'⟩ := abreast.accepted agrees built built' tracks tracks' taken
    rw [built.parse_accepted follows taken, built'.parse_accepted follows' taken']
    exact .ok value
  | failed error e =>
    obtain ⟨error', e', taken'⟩ := abreast.failed agrees built built' tracks tracks' taken
    rw [built.parse_failed follows taken, built'.parse_failed follows' taken']
    exact abreast.rejected agrees built built' tracks tracks' taken taken'

end Parser

end CanonicalLR
