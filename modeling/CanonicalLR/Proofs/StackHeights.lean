import CanonicalLR.Proofs.Termination
/-
The heights of the three stacks, for a machine whose parts need not belong together. Whatever the
table answers, there is one state more than there are values, as many symbols as values, and the
start state at the bottom; so a state is always on top, and no reduction pops too much.
-/
namespace CanonicalLR

def Fault.early : Fault → Bool
  | .shiftAtEnd | .gotoOnTerminal | .underflow | .goalReduction => true
  | .missingGoto _ | .acceptArity => false

namespace Parser

variable {τ υ : Type}

structure Level (parser : Parser τ υ) (states : List Nat) (symbols : List (Symbol Nat))
    (values : List υ) : Prop where
  height : states.length = values.length + 1
  paired : symbols.length = values.length
  bottom : states.getLast? = some parser.automaton.start

/-- Where a step may lead: the start state stays at the bottom, stacks from which the run goes on
are level again, and a fault names the state on top, with nothing moved if it is found early. -/
inductive Keeps (parser : Parser τ υ) (c : Configuration τ υ) : Step τ υ → Prop where
  | next {d : Configuration τ υ} (level : parser.Level d.states d.symbols d.values) :
    Keeps parser c (.next d)
  | accepted {value : υ} {d : Configuration τ υ}
    (bottom : d.states.getLast? = some parser.automaton.start) : Keeps parser c (.accepted value d)
  | failed {error : ParseError τ} {d : Configuration τ υ}
    (bottom : d.states.getLast? = some parser.automaton.start)
    (faults : ∀ state kind, error = .internal state kind →
      d.states.head? = some state ∧ (kind.early = true → d = c)) : Keeps parser c (.failed error d)

variable {parser : Parser τ υ} {c d : Configuration τ υ}

namespace Level

variable {states : List Nat} {symbols : List (Symbol Nat)} {values : List υ}

theorem top (level : parser.Level states symbols values) :
    ∃ state below, states = state :: below := by
  cases states with
  | nil => exact absurd level.height (Nat.zero_ne_add_one _)
  | cons state below => exact ⟨state, below, rfl⟩

theorem push (level : parser.Level states symbols values) (state : Nat) (symbol : Symbol Nat)
    (value : υ) : parser.Level (state :: states) (symbol :: symbols) (value :: values) := by
  refine ⟨congrArg (· + 1) level.height, congrArg (· + 1) level.paired, ?_⟩
  rw [List.getLast?_cons, level.bottom]
  rfl

theorem drop (level : parser.Level states symbols values) {count : Nat}
    (enough : count ≤ values.length) :
    parser.Level (states.drop count) (symbols.drop count) (values.drop count) := by
  have height := level.height
  constructor
  · rw [List.length_drop, List.length_drop]
    omega
  · rw [List.length_drop, List.length_drop, level.paired]
  · rw [List.getLast?_drop, if_neg (by omega), level.bottom]

theorem underflow_iff (level : parser.Level states symbols values) (count : Nat) :
    values.length < count ↔ states.length ≤ count := by
  rw [level.height]
  exact Nat.lt_iff_add_one_le

end Level

theorem level_initial (parser : Parser τ υ) (tokens : List (Token τ υ)) :
    parser.Level (parser.initial tokens).states (parser.initial tokens).symbols
      (parser.initial tokens).values := by
  constructor <;> simp [initial]

theorem fault_keeps {kind : Fault} (bottom : d.states.getLast? = some parser.automaton.start)
    (moved : kind.early = true → d = c) : parser.Keeps c (fault d kind) := by
  unfold fault
  split
  · rename_i top below states
    refine .failed bottom fun state other reported => ?_
    obtain ⟨rfl, rfl⟩ := ParseError.internal.inj reported
    exact ⟨by rw [states, List.head?_cons], moved⟩
  · exact .failed bottom fun _ _ reported => by contradiction

theorem shift_keeps (level : parser.Level c.states c.symbols c.values) (terminal target : Nat) :
    parser.Keeps c (shift c terminal target) := by
  unfold shift
  split
  · exact fault_keeps level.bottom fun _ => rfl
  · rename_i token _
    apply Keeps.next
    simpa using level.push target (.terminal terminal) token.value

theorem follow_keeps (level : parser.Level d.states d.symbols d.values) (lhs : Nat) (value : υ) :
    parser.Keeps c (parser.follow d lhs value) := by
  unfold follow
  split
  · exact .failed level.bottom fun _ _ reported => by contradiction
  · split
    · rename_i target _
      exact .next (level.push target (.nonterminal lhs) value)
    · split
      · exact fault_keeps level.bottom (by simp [Fault.early])
      · exact .failed level.bottom fun _ _ reported => by contradiction

theorem reduce_keeps (level : parser.Level c.states c.symbols c.values) (p : Nat) :
    parser.Keeps c (parser.reduce c p) := by
  unfold reduce
  split
  · exact .failed level.bottom fun _ _ reported => by contradiction
  · dsimp only
    split
    · exact fault_keeps level.bottom fun _ => rfl
    · rename_i enough
      split
      · exact fault_keeps level.bottom fun _ => rfl
      · -- of the two bounds the one on the values is enough
        apply follow_keeps
        exact level.drop (by omega)

theorem accept_keeps (level : parser.Level c.states c.symbols c.values) :
    parser.Keeps c (accept c) := by
  unfold accept
  split
  · exact .accepted level.bottom
  · exact fault_keeps level.bottom (by simp [Fault.early])

theorem reject_keeps [Spelling τ] (level : parser.Level c.states c.symbols c.values)
    (state : Nat) : parser.Keeps c (parser.reject c state) := by
  unfold reject
  split
  · rename_i error refused
    refine .failed level.bottom fun _ _ reported => ?_
    -- what a lookahead without an action reports is no fault
    rw [reported] at refused
    simp [unexpected?, Option.bind_eq_some_iff] at refused
  · exact .failed level.bottom fun _ _ reported => by contradiction

variable [DecidableEq τ] [Fingerprint τ] [Spelling τ]

theorem step_keeps (level : parser.Level c.states c.symbols c.values) :
    parser.Keeps c (parser.step c) := by
  unfold step
  split
  · exact .failed level.bottom fun _ _ reported => by contradiction
  · rename_i state _ _
    split
    · exact reject_keeps level state
    · split
      · exact shift_keeps level _ _
      · exact reduce_keeps level _
      · exact accept_keeps level
      · exact fault_keeps level.bottom fun _ => rfl
      · exact reject_keeps level state

theorem Follows.level {tokens : List (Token τ υ)} {n : Nat}
    (follows : parser.Follows (parser.initial tokens) n c) :
    parser.Level c.states c.symbols c.values := by
  induction follows with
  | refl => exact level_initial parser tokens
  | step _ next ih =>
    have keeps := step_keeps ih
    rw [next] at keeps
    cases keeps with
    | next level => exact level

theorem run_failed {tokens : List (Token τ υ)} {error : ParseError τ}
    (failed : parser.parse tokens = .error error) (within : error ≠ .unfinished) :
    ∃ n c, parser.Follows (parser.initial tokens) n c ∧
      parser.step c = .failed error (parser.run tokens).last := by
  unfold parse run at *
  rcases parser.runFrom_cases (parser.stepBound tokens) (parser.initial tokens) with
    ⟨n, c, follows, ⟨value, e, _, result⟩ | ⟨other, e, fails, result⟩⟩ | ⟨c, follows⟩
  · rw [result] at failed
    contradiction
  · rw [result] at failed ⊢
    obtain rfl : other = error := Except.error.inj failed
    exact ⟨n, c, follows, fails⟩
  · have stopped : parser.runFrom (parser.stepBound tokens) (parser.initial tokens) =
        ⟨.error .unfinished, c⟩ := follows.runFrom 0
    rw [stopped] at failed
    exact absurd (Except.error.inj failed).symm within

end Parser

/-- `S ::=`, or `a S b`: the productions of `nested` the other way round. -/
def swapped : List (Registration String Nat) :=
  [.nonterminal "S",
    .production 0 [] fun _ => 0,
    .production 0 [.terminal "a", .nonterminal 0, .terminal "b"] (List.foldl Nat.add 0)]

def Parser.driven {τ υ : Type} (parser other : Parser τ υ) : Parser τ υ :=
  { parser with automaton := other.automaton, table := other.table }

/-- The stacks of any machine are level throughout. So a state is always on top, the two bounds on a
reduction are one, a reduction within them pops no stack beyond its end and leaves the start state,
and a fault that is found early leaves all as it was. -/
theorem stacks_stay_level {τ υ : Type} [DecidableEq τ] [Fingerprint τ] [Spelling τ]
    {parser : Parser τ υ} {tokens : List (Token τ υ)} {n : Nat} {c : Configuration τ υ}
    (follows : parser.Follows (parser.initial tokens) n c) :
    parser.Level c.states c.symbols c.values ∧
    (∃ state below, c.states = state :: below) ∧
    (∀ count, c.values.length < count ↔ c.states.length ≤ count) ∧
    (∀ count ≤ c.values.length, count ≤ c.symbols.length ∧
      parser.Level (c.states.drop count) (c.symbols.drop count) (c.values.drop count)) ∧
    parser.Keeps c (parser.step c) := by
  have level := follows.level
  refine ⟨level, level.top, level.underflow_iff, fun count enough => ?_, Parser.step_keeps level⟩
  exact ⟨by rw [level.paired]; exact enough, level.drop enough⟩

/-- With the table of the other order, `nested` reduces by the long production for the short one. -/
theorem stacks_stay_level_swapped : ∃ parser other n c,
    (Grammar.assemble "$" nested).build tasks .sequential = .ok parser ∧
    (Grammar.assemble "$" swapped).build tasks .sequential = .ok other ∧
    (parser.driven other).Follows
      ((parser.driven other).initial [⟨"a", 1⟩, ⟨"a", 2⟩, ⟨"b", 3⟩]) n c ∧
    (parser.driven other).step c = .failed (.internal 3 .underflow) c ∧
    c.states = [3, 1, 0] ∧ c.values.length = 2 ∧ c.symbols.length = 2 ∧
    (parser.driven other).Level [1, 0] (c.symbols.drop 1) (c.values.drop 1) := by
  obtain ⟨parser, built, mixed⟩ : ∃ parser,
      (Grammar.assemble "$" nested).build tasks .sequential = .ok parser ∧
      ((Grammar.assemble "$" swapped).build tasks .sequential).toOption.any (fun other => decide
        ((parser.driven other).parse [⟨"a", 1⟩, ⟨"a", 2⟩, ⟨"b", 3⟩] =
            .error (.internal 3 .underflow) ∧
          ((parser.driven other).run [⟨"a", 1⟩, ⟨"a", 2⟩, ⟨"b", 3⟩]).last.states =
            [3, 1, 0])) = true :=
    exists_ok (by decide +kernel)
  obtain ⟨other, swap, outcome, states⟩ := exists_ok mixed
  obtain ⟨n, c, follows, failed⟩ := (parser.driven other).run_failed outcome (by simp)
  obtain ⟨level, _, _, pops, keeps⟩ := stacks_stay_level follows
  generalize ((parser.driven other).run _).last = last at *
  rw [failed] at keeps
  cases keeps with
  | failed _ faults =>
    obtain ⟨_, untouched⟩ := faults 3 .underflow rfl
    obtain rfl := untouched rfl
    have height : last.values.length = 2 := by simpa [states] using level.height.symm
    obtain ⟨_, popped⟩ := pops 1 (by omega)
    rw [states] at popped
    exact ⟨parser, other, n, last, built, swap, follows, failed, states, height,
      level.paired.trans height, popped⟩

end CanonicalLR
