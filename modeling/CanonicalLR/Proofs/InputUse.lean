import CanonicalLR.Proofs.Lockstep
import CanonicalLR.Proofs.ViablePrefixes
import Mathlib.Data.List.TakeWhile
/-
What a run takes from its input. Two inputs that cannot be told apart up to the place where a run
stops give the same outcome by the same handler calls; so nothing counts from the first token on
that ends the input, nothing counts behind a token that was refused, and the machine is never more
than one token ahead of what it has shifted.
-/
namespace CanonicalLR

variable {τ υ : Type}

namespace Configuration

def onto (c d : Configuration τ υ) : Configuration τ υ :=
  { c with lookahead := d.lookahead, rest := d.rest, pulled := d.pulled }

@[simp] theorem onto_lookahead (c d : Configuration τ υ) :
    (c.onto d).lookahead = d.lookahead := rfl

def Alike (c d : Configuration τ υ) : Prop := c.onto d = d

theorem alike_onto (c d : Configuration τ υ) : c.Alike (c.onto d) := rfl

theorem onto_pull (c d : Configuration τ υ) : c.pull.onto d.pull = (c.onto d).pull := by
  unfold pull onto
  cases c.rest <;> cases d.rest <;> rfl

theorem Alike.position {c d : Configuration τ υ} (h : c.Alike d) : c.position = d.position := by
  have same : (c.onto d).position = d.position := congrArg Configuration.position h
  exact same

theorem Alike.pull {c d : Configuration τ υ} (h : c.Alike d) : c.pull.Alike d.pull := by
  unfold Alike at h ⊢
  rw [onto_pull, h]

theorem pull_pulled (c : Configuration τ υ) : c.pull.pulled = c.pulled + min 1 c.rest.length := by
  unfold pull
  cases c.rest with
  | nil => rfl
  | cons token rest =>
    simp only [List.length_cons]
    omega

end Configuration

namespace Step

def onto (d : Configuration τ υ) : Step τ υ → Step τ υ
  | next c => next (c.onto d)
  | accepted value c => accepted value (c.onto d)
  | failed error c => failed error (c.onto d)

inductive Alike : Step τ υ → Step τ υ → Prop where
  | next {c d : Configuration τ υ} (same : c.Alike d) : Alike (next c) (next d)
  | accepted {value : υ} {c d : Configuration τ υ} (same : c.Alike d) :
      Alike (accepted value c) (accepted value d)
  | failed {error : ParseError τ} {c d : Configuration τ υ} (same : c.Alike d) :
      Alike (failed error c) (failed error d)

theorem alike_onto (step : Step τ υ) (d : Configuration τ υ) : step.Alike (step.onto d) := by
  cases step with
  | next c => exact .next (c.alike_onto d)
  | accepted value c => exact .accepted (c.alike_onto d)
  | failed error c => exact .failed (c.alike_onto d)

end Step

namespace Parser

theorem fault_onto (c d : Configuration τ υ) (kind : Fault) :
    fault (c.onto d) kind = (fault c kind).onto d := by
  simp only [fault, Configuration.onto]
  split <;> rfl

theorem accept_onto (c d : Configuration τ υ) : accept (c.onto d) = (accept c).onto d := by
  simp only [accept, Configuration.onto]
  split
  · rfl
  · exact fault_onto { c with values := c.values.drop 1 } d .acceptArity

theorem follow_onto (parser : Parser τ υ) (c d : Configuration τ υ) (lhs : Nat) (value : υ) :
    parser.follow (c.onto d) lhs value = (parser.follow c lhs value).onto d := by
  simp only [follow, Configuration.onto]
  split
  · rfl
  · split
    · rfl
    · split
      · exact fault_onto c d _
      · rfl

theorem reduce_onto (parser : Parser τ υ) (c d : Configuration τ υ) (p : Nat) :
    parser.reduce (c.onto d) p = (parser.reduce c p).onto d := by
  unfold reduce
  cases parser.rules.productions[p]? with
  | none => rfl
  | some production =>
    dsimp only
    by_cases short : c.values.length < production.rhs.length ∨
        c.states.length ≤ production.rhs.length
    · rw [if_pos short]
      exact (if_pos short).trans (fault_onto c d .underflow)
    · rw [if_neg short]
      refine (if_neg short).trans ?_
      cases parser.handlers[p]? with
      | none => exact fault_onto c d .goalReduction
      | some handler =>
        let count := production.rhs.length
        exact follow_onto parser
          { c with
            states := c.states.drop count
            symbols := c.symbols.drop count
            values := c.values.drop count
            calls := p :: c.calls } d production.lhs (handler (c.values.take count).reverse)

theorem reject_onto [Spelling τ] {parser : Parser τ υ} {c d : Configuration τ υ}
    (found : parser.found? d.lookahead = parser.found? c.lookahead) (s : Nat) :
    parser.reject (c.onto d) s = (parser.reject c s).onto d := by
  have same : parser.unexpected? (c.onto d) s = parser.unexpected? c s := by
    simp only [unexpected?, Configuration.onto, found]
  unfold reject
  rw [same]
  split <;> rfl

variable [DecidableEq τ] [Fingerprint τ]

/-- Lookaheads that the machine treats alike: the same token, or two forms of the end. -/
def Indistinct (parser : Parser τ υ) (a b : Lookahead τ υ) : Prop :=
  a = b ∨ parser.lookaheadId? a = some parser.rules.eof ∧
    parser.lookaheadId? b = some parser.rules.eof

variable {parser : Parser τ υ} {eof : τ} {a b : Lookahead τ υ}

theorem Indistinct.id_eq (h : parser.Indistinct a b) :
    parser.lookaheadId? b = parser.lookaheadId? a := by
  rcases h with same | ⟨left, right⟩
  · rw [same]
  · rw [left, right]

theorem Built.found_of_end (built : parser.Built eof)
    (ends : parser.lookaheadId? a = some parser.rules.eof) : parser.found? a = some eof := by
  cases a with
  | token token =>
    have spelled := (Interner.find?_eq_some_iff built.lexicon).1 ends
    exact spelled.symm.trans built.eof
  | endOfInput => exact built.eof

theorem Indistinct.found_eq (h : parser.Indistinct a b) (built : parser.Built eof) :
    parser.found? b = parser.found? a := by
  rcases h with same | ⟨left, right⟩
  · rw [same]
  · rw [built.found_of_end left, built.found_of_end right]

variable {c d : Configuration τ υ} {tokens others : List (Token τ υ)}

theorem Built.indistinct_beforeEnd (built : parser.Built eof) {i : Nat}
    (inside : i ≤ (beforeEnd eof tokens).length) :
    parser.Indistinct (lookaheadAt tokens i) (lookaheadAt (beforeEnd eof tokens) i) := by
  have start : tokens.take i <+: beforeEnd eof tokens := by
    have whole : beforeEnd eof tokens <+: tokens := List.takeWhile_prefix _
    refine List.prefix_of_prefix_length_le (List.take_prefix i tokens) whole ?_
    exact Nat.le_trans (List.length_take_le _ _) inside
  have last : (beforeEnd eof tokens)[i]? = tokens[i]?.filter fun token => token.kind ≠ eof := by
    refine (takeWhile_upto fun token member => ?_).2
    have kept : token ∈ beforeEnd eof tokens := start.subset member
    exact List.mem_takeWhile_imp (p := fun token : Token τ υ => token.kind ≠ eof) kept
  unfold lookaheadAt
  rw [last]
  cases found : tokens[i]? with
  | none => exact Or.inl rfl
  | some token =>
    by_cases ends : token.kind = eof
    · have known : parser.terminalId? token.kind = some parser.rules.eof := by
        rw [ends]
        exact (Interner.find?_eq_some_iff built.lexicon).2 built.eof
      exact Or.inr ⟨known, by simp [Option.filter, ends, lookaheadId?]⟩
    · exact Or.inl (by simp [Option.filter, ends])

/-- The handler call that the next step makes, if it makes one: the production, and the values that
its handler is given. -/
def call? (parser : Parser τ υ) (c : Configuration τ υ) : Option (Nat × List υ) := do
  let terminal ← parser.lookaheadId? c.lookahead
  match ← parser.table.answer c.states (.terminal terminal) with
  | .reduce p =>
    let production ← parser.rules.productions[p]?
    let _ ← parser.handlers[p]?
    let count := production.rhs.length
    if count ≤ c.values.length ∧ count < c.states.length then
      some (p, (c.values.take count).reverse)
    else none
  | _ => none

theorem call?_onto (same : parser.lookaheadId? d.lookahead = parser.lookaheadId? c.lookahead) :
    parser.call? (c.onto d) = parser.call? c := by
  unfold call?
  rw [Configuration.onto_lookahead, same]
  rfl

variable [Spelling τ]

theorem step_of_unanswered {s : Nat} {below : List Nat} (states : c.states = s :: below)
    (unanswered : ∀ t, parser.lookaheadId? c.lookahead = some t →
      parser.table.action s (.terminal t) = none) : parser.step c = parser.reject c s := by
  simp only [step, states]
  cases known : parser.lookaheadId? c.lookahead with
  | none => rfl
  | some t => simp only [unanswered t known]

theorem Built.step_alike (built : parser.Built eof) (does : parser.Does c (parser.step c))
    (same : parser.Indistinct c.lookahead d.lookahead) :
    (parser.step c).Alike (parser.step (c.onto d)) := by
  have id := same.id_eq
  generalize taken : parser.step c = outcome at does ⊢
  cases does with
  | @shift token t target ahead known inside action path =>
    have here : parser.lookaheadId? c.lookahead = some t := by rwa [ahead]
    have equal : c.lookahead = d.lookahead := by
      rcases same with equal | ⟨ends, _⟩
      · exact equal
      · exact absurd (Option.some.inj (here.symm.trans ends)) inside
    have there : parser.lookaheadId? (c.onto d).lookahead = some t := id.trans here
    rw [step_of_answer there action]
    simp only [perform, shift, Configuration.onto_lookahead, ← equal, ahead]
    exact .next (Configuration.Alike.pull rfl)
  | @reduce t p lhs rhs below after arguments deep handler known move rule handles symbols values
      arity path =>
    have there : parser.lookaheadId? (c.onto d).lookahead = some t := id.trans known
    rw [step_of_answer known move.answer] at taken
    rw [step_of_answer there move.answer, ← taken]
    simp only [perform, reduce_onto]
    exact Step.alike_onto _ d
  | accept known action symbols values =>
    have there : parser.lookaheadId? (c.onto d).lookahead = some parser.rules.eof :=
      id.trans known
    rw [step_of_answer known action] at taken
    rw [step_of_answer there action, ← taken]
    simp only [perform, accept_onto]
    exact Step.alike_onto _ d
  | @reject s below found expected viable states unanswered ahead listed printed =>
    have silent : ∀ t, parser.lookaheadId? (c.onto d).lookahead = some t →
        parser.table.action s (.terminal t) = none := by
      intro t known
      exact unanswered t (id.symm.trans known)
    rw [step_of_unanswered states unanswered] at taken
    rw [step_of_unanswered (c := c.onto d) states silent, reject_onto (same.found_eq built), taken]
    exact Step.alike_onto _ d

def callsFrom (parser : Parser τ υ) : Nat → Configuration τ υ → List (Nat × List υ)
  | 0, _ => []
  | bound + 1, c =>
    (parser.call? c).toList ++
      match parser.step c with
      | .next d => callsFrom parser bound d
      | _ => []

def handlerCalls (parser : Parser τ υ) (tokens : List (Token τ υ)) : List (Nat × List υ) :=
  parser.callsFrom (parser.stepBound tokens) (parser.initial tokens)

theorem callsFrom_next {e : Configuration τ υ} (next : parser.step c = .next e) (bound : Nat) :
    parser.callsFrom (bound + 1) c = (parser.call? c).toList ++ parser.callsFrom bound e := by
  simp only [callsFrom, next]

theorem callsFrom_last (ended : ∀ e, parser.step c ≠ .next e) (bound : Nat) :
    parser.callsFrom (bound + 1) c = (parser.call? c).toList := by
  unfold callsFrom
  cases taken : parser.step c with
  | next e => exact absurd taken (ended e)
  | accepted value e => simp
  | failed error e => simp

theorem Follows.callsFrom {n : Nat} (h : parser.Follows c n d) (bound : Nat) :
    parser.callsFrom (n + bound) c = parser.callsFrom n c ++ parser.callsFrom bound d := by
  induction h generalizing bound with
  | refl => simp [Parser.callsFrom]
  | @step n d e _ next ih =>
    rw [Nat.add_assoc, Nat.add_comm 1 bound, ih, ih 1, callsFrom_next next, callsFrom_next next]
    simp [Parser.callsFrom]

theorem Follows.callsFrom_succ {n : Nat} {e : Configuration τ υ} (h : parser.Follows c n d)
    (next : parser.step d = .next e) :
    parser.callsFrom (n + 1) c = parser.callsFrom n c ++ (parser.call? d).toList := by
  rw [h.callsFrom, callsFrom_next next]
  simp [Parser.callsFrom]

variable {n : Nat}

theorem Does.calls_next (does : parser.Does c (.next d))
    (tall : c.symbols.length < c.states.length) :
    d.calls = (parser.call? c).toList.map Prod.fst ++ c.calls := by
  generalize outcome : Step.next d = step at does
  cases does with
  | @shift token t target ahead known inside action path =>
    obtain rfl := Step.next.inj outcome
    have silent : parser.call? c = none := by simp [call?, ahead, lookaheadId?, known, action]
    simp [silent]
  | @reduce t p lhs rhs below after arguments deep handler known move rule handles symbols values
      arity path =>
    obtain rfl := Step.next.inj outcome
    have enough : rhs.length ≤ c.values.length ∧ rhs.length < c.states.length := by
      simp only [symbols, values, List.length_append, List.length_reverse] at tall ⊢
      omega
    have made : parser.call? c = some (p, (c.values.take rhs.length).reverse) := by
      simp [call?, known, move.answer, rule, handles, enough]
    simp [made]
  | accept => contradiction
  | reject => contradiction

theorem Does.call_last (does : parser.Does c (parser.step c))
    (ended : ∀ e, parser.step c ≠ .next e) : parser.call? c = none := by
  generalize taken : parser.step c = outcome at does ended
  cases does with
  | shift => exact absurd rfl (ended _)
  | reduce => exact absurd rfl (ended _)
  | accept known action symbols values => simp [call?, known, action]
  | @reject s below found expected viable states unanswered ahead listed printed =>
    cases known : parser.lookaheadId? c.lookahead with
    | none => simp [call?, known]
    | some t => simp [call?, known, ParseTable.answer, states, unanswered t known]

theorem Does.position_le (does : parser.Does c (.next d)) : c.position ≤ d.position := by
  generalize outcome : Step.next d = step at does
  cases does with
  | shift =>
    obtain rfl := Step.next.inj outcome
    rw [Configuration.pull_position]
    exact Nat.le_succ _
  | reduce =>
    obtain rfl := Step.next.inj outcome
    exact Nat.le_refl _
  | accept => contradiction
  | reject => contradiction

theorem Built.calls_eq (built : parser.Built eof)
    (h : parser.Follows (parser.initial tokens) n c) :
    (parser.callsFrom n (parser.initial tokens)).map Prod.fst = c.calls.reverse := by
  induction h with
  | refl => simp [callsFrom, initial]
  | @step n d e before next ih =>
    have does := built.does before
    rw [next] at does
    have tall := (built.tracks before).path.length_eq
    rw [before.callsFrom_succ next, does.calls_next (by omega), List.map_append, ih]
    cases parser.call? d <;> simp

theorem Built.indistinct_of_alike (built : parser.Built eof)
    (h : parser.Follows (parser.initial tokens) n c)
    (h' : parser.Follows (parser.initial others) n d) (alike : c.Alike d)
    (agree : parser.Indistinct (lookaheadAt tokens c.position) (lookaheadAt others c.position)) :
    parser.Indistinct c.lookahead d.lookahead := by
  rwa [(built.tracks h).lookahead, (built.tracks h').lookahead, ← alike.position]

/-- As long as the inputs cannot be told apart the runs are in step, and call the same handlers on
the same values. -/
theorem Built.follows_alike (built : parser.Built eof)
    (h : parser.Follows (parser.initial tokens) n c)
    (agree : ∀ i ≤ c.position, parser.Indistinct (lookaheadAt tokens i) (lookaheadAt others i)) :
    ∃ d, parser.Follows (parser.initial others) n d ∧ c.Alike d ∧
      parser.callsFrom n (parser.initial others) = parser.callsFrom n (parser.initial tokens) := by
  induction h with
  | refl => exact ⟨_, .refl, Configuration.Alike.pull rfl, rfl⟩
  | @step n c e before next ih =>
    have does := built.does before
    have onward := next ▸ does
    have early : ∀ i ≤ c.position,
        parser.Indistinct (lookaheadAt tokens i) (lookaheadAt others i) :=
      fun i bound => agree i (Nat.le_trans bound onward.position_le)
    obtain ⟨d, before', alike, calls⟩ := ih early
    have same := built.indistinct_of_alike before before' alike (early _ (Nat.le_refl _))
    have steps := built.step_alike does same
    rw [alike, next] at steps
    generalize taken : parser.step d = outcome at steps
    cases steps with
    | next alike' =>
      refine ⟨_, .step before' taken, alike', ?_⟩
      rw [before'.callsFrom_succ taken, before.callsFrom_succ next, calls, ← alike,
        call?_onto same.id_eq]

theorem Built.last_eq (built : parser.Built eof)
    (follows : parser.Follows (parser.initial tokens) n c)
    (ended : ∀ e, parser.step c ≠ .next e) :
    ∃ values, (parser.run tokens).last = { c with values } := by
  have does := built.does follows
  obtain ⟨extra, run⟩ := built.run_from follows
  rw [run, runFrom]
  generalize parser.step c = outcome at does ended
  cases does with
  | shift => exact absurd rfl (ended _)
  | reduce => exact absurd rfl (ended _)
  | accept => exact ⟨[], rfl⟩
  | reject => exact ⟨c.values, rfl⟩

theorem Built.handlerCalls_eq (built : parser.Built eof)
    (follows : parser.Follows (parser.initial tokens) n c)
    (ended : ∀ e, parser.step c ≠ .next e) :
    parser.handlerCalls tokens = parser.callsFrom n (parser.initial tokens) := by
  have few := built.steps_lt follows
  obtain ⟨extra, enough⟩ : ∃ extra, parser.stepBound tokens = n + (extra + 1) :=
    ⟨parser.stepBound tokens - n - 1, by omega⟩
  rw [handlerCalls, enough, follows.callsFrom, callsFrom_last ended,
    (built.does follows).call_last ended]
  simp

theorem Built.run_alike (built : parser.Built eof)
    (agree : ∀ i ≤ (parser.run tokens).last.position,
      parser.Indistinct (lookaheadAt tokens i) (lookaheadAt others i)) :
    parser.parse others = parser.parse tokens ∧
      parser.handlerCalls others = parser.handlerCalls tokens := by
  obtain ⟨n, c, follows, ended⟩ := built.steps_end tokens
  obtain ⟨values, last⟩ := built.last_eq follows ended
  rw [last] at agree
  obtain ⟨d, follows', alike, calls⟩ := built.follows_alike follows agree
  have same := built.indistinct_of_alike follows follows' alike (agree _ (Nat.le_refl _))
  have steps := built.step_alike (built.does follows) same
  rw [alike] at steps
  have ended' : ∀ e, parser.step d ≠ .next e := by
    intro e next
    rw [next] at steps
    generalize taken : parser.step c = outcome at steps
    cases steps with
    | next => exact ended _ taken
  constructor
  · unfold parse
    obtain ⟨extra, run⟩ := built.run_from follows
    obtain ⟨extra', run'⟩ := built.run_from follows'
    rw [run, run', runFrom, runFrom]
    generalize parser.step c = first, parser.step d = second at steps ended
    cases steps with
    | next => exact absurd rfl (ended _)
    | accepted => rfl
    | failed => rfl
  · rw [built.handlerCalls_eq follows ended, built.handlerCalls_eq follows' ended', calls]

theorem Built.pulled_eq (built : parser.Built eof)
    (h : parser.Follows (parser.initial tokens) n c) :
    c.pulled = min (c.position + 1) tokens.length := by
  induction h with
  | refl =>
    simp only [initial, Configuration.pull_pulled, Configuration.pull_position]
    omega
  | @step n c e before next ih =>
    have tracks := built.tracks before
    have does := built.does before
    rw [next] at does
    generalize outcome : Step.next e = step at does
    cases does with
    | @shift token t target ahead known inside action path =>
      obtain rfl := Step.next.inj outcome
      have here := (List.getElem?_eq_some_iff.1 (tracks.token_at ahead)).1
      simp only [Configuration.pull_pulled, Configuration.pull_position, tracks.rest,
        List.length_drop, ih]
      omega
    | reduce =>
      obtain rfl := Step.next.inj outcome
      exact ih
    | accept => contradiction
    | reject => contradiction

theorem Built.position_le_beforeEnd (built : parser.Built eof)
    (h : parser.Follows (parser.initial tokens) n c) :
    c.position ≤ (beforeEnd eof tokens).length := by
  obtain ⟨word, traced⟩ := built.traced h
  have same := congrArg List.length (traced.before_end built).1
  have bound := (built.tracks h).position
  simp only [List.length_take] at same
  omega

end Parser

theorem lookaheadAt_of_take {tokens others : List (Token τ υ)} {p i : Nat} (inside : i ≤ p)
    (agree : others.take (p + 1) = tokens.take (p + 1)) :
    lookaheadAt tokens i = lookaheadAt others i := by
  have same := congrArg (fun list : List (Token τ υ) => list[i]?) agree
  simp only [List.getElem?_take, Nat.lt_succ_of_le inside, ↓reduceIte] at same
  unfold lookaheadAt
  rw [same]

variable [DecidableEq τ] [Fingerprint τ] [Spelling τ] {eof : τ}
  {calls : List (Registration τ υ)} {host : Host} {strategy : Strategy} {parser : Parser τ υ}

/-- The tokens in front of the first one that ends the input decide the outcome and all handler
calls. Of these, and of what is behind, only one token more is taken than was shifted; and what
stands behind a refused token could have been anything. -/
theorem input_decides (built : (Grammar.assemble eof calls).build host strategy = .ok parser)
    (tokens : List (Token τ υ)) :
    (parser.handlerCalls tokens).map Prod.fst = (parser.run tokens).trace ∧
    parser.parse tokens = parser.parse (beforeEnd eof tokens) ∧
    parser.handlerCalls tokens = parser.handlerCalls (beforeEnd eof tokens) ∧
    (∃ n shifted last, parser.Reads (parser.initial tokens) n shifted last ∧
      (∀ c, parser.step last ≠ .next c) ∧
      (parser.run tokens).pulled = min (shifted.length + 1) tokens.length ∧
      shifted.length ≤ (beforeEnd eof tokens).length) ∧
    ∀ state found position expected viable, parser.parse tokens =
        .error (.unexpectedToken state found position expected viable) →
      ∀ others, others.take (position + 1) = tokens.take (position + 1) →
        parser.parse others = parser.parse tokens ∧
        parser.handlerCalls others = parser.handlerCalls tokens := by
  obtain ⟨start, origin, sound⟩ := Parser.Built.of_assemble built
  obtain ⟨n, c, follows, ended⟩ := sound.steps_end tokens
  obtain ⟨values, last⟩ := sound.last_eq follows ended
  have bound := sound.position_le_beforeEnd follows
  have agree : ∀ i ≤ (parser.run tokens).last.position,
      parser.Indistinct (lookaheadAt tokens i) (lookaheadAt (beforeEnd eof tokens) i) := by
    intro i inside
    rw [last] at inside
    exact sound.indistinct_beforeEnd (Nat.le_trans inside bound)
  obtain ⟨same, called⟩ := sound.run_alike agree
  refine ⟨?_, same.symm, called.symm, ?_, ?_⟩
  · rw [sound.handlerCalls_eq follows ended, sound.calls_eq follows, Run.trace, last]
  · refine ⟨n, tokens.take c.position, c, sound.reads follows, ended, ?_, ?_⟩
    · have size := List.length_take_of_le (sound.tracks follows).position
      have pulled := sound.pulled_eq follows
      rw [Run.pulled, last, size]
      exact pulled
    · exact Nat.le_trans (List.length_take_le _ _) bound
  · intro state found p expected viable failed others agree
    apply sound.run_alike
    obtain ⟨_, _, does⟩ := sound.failed_at failed
    have here : (parser.run tokens).last.position = p := by
      generalize (parser.run tokens).last = last at does
      cases does with
      | reject => rfl
    rw [here]
    intro i inside
    exact Or.inl (lookaheadAt_of_take inside agree)

theorem input_decides_nested : ∃ parser,
    (Grammar.assemble "$" nested).build tasks .sequential = .ok parser ∧
    parser.parse [⟨"a", 1⟩, ⟨"b", 2⟩, ⟨"b", 3⟩, ⟨"a", 4⟩] =
      .error (.unexpectedToken 6 "b" 2 ["$"] ["\"a\"", "S", "\"b\""]) ∧
    parser.handlerCalls [⟨"a", 1⟩, ⟨"b", 2⟩, ⟨"b", 3⟩, ⟨"a", 4⟩] = [(1, [])] ∧
    parser.parse [⟨"a", 1⟩, ⟨"b", 2⟩, ⟨"b", 3⟩, ⟨"$", 0⟩] =
      .error (.unexpectedToken 6 "b" 2 ["$"] ["\"a\"", "S", "\"b\""]) ∧
    parser.handlerCalls [⟨"a", 1⟩, ⟨"b", 2⟩, ⟨"b", 3⟩, ⟨"$", 0⟩] = [(1, [])] := by
  obtain ⟨parser, built, failed, called⟩ : ∃ parser,
      (Grammar.assemble "$" nested).build tasks .sequential = .ok parser ∧
      parser.parse [⟨"a", 1⟩, ⟨"b", 2⟩, ⟨"b", 3⟩, ⟨"a", 4⟩] =
        .error (.unexpectedToken 6 "b" 2 ["$"] ["\"a\"", "S", "\"b\""]) ∧
      parser.handlerCalls [⟨"a", 1⟩, ⟨"b", 2⟩, ⟨"b", 3⟩, ⟨"a", 4⟩] = [(1, [])] :=
    exists_ok (by decide +kernel)
  obtain ⟨_, _, _, _, unread⟩ := input_decides built [⟨"a", 1⟩, ⟨"b", 2⟩, ⟨"b", 3⟩, ⟨"a", 4⟩]
  obtain ⟨same, calls⟩ :=
    unread _ _ _ _ _ failed [⟨"a", 1⟩, ⟨"b", 2⟩, ⟨"b", 3⟩, ⟨"$", 0⟩] rfl
  exact ⟨parser, built, failed, called, same.trans failed, calls.trans called⟩

end CanonicalLR
