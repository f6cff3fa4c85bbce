import CanonicalLR.Proofs.Reachability
import CanonicalLR.Proofs.Soundness
/-
Every parse ends. The machine takes finitely many steps from its first configuration, and a table
without conflicts admits no endless reductions on one lookahead, whatever lies on the stack: beyond
some point they would leave a part of the stack alone, and what they do above it could be done on a
path as well.
-/
namespace CanonicalLR

variable {rules : Rules} {automaton : Automaton} {table : ParseTable} {t : Nat}

/-- A stack as a reduction leaves it, with so many states below the one that was exposed. -/
inductive Landed (table : ParseTable) : List Nat → Nat → Prop where
  | mk {target exposed lhs : Nat} {rest : List Nat}
      (goto : table.action exposed (.nonterminal lhs) = some (.goto target)) :
      Landed table (target :: exposed :: rest) rest.length

theorem Reduction.landed {p : Nat} {before after : List Nat}
    (h : Reduction rules table t p before after) : ∃ height, Landed table after height := by
  cases h with
  | mk _ _ _ goto => exact ⟨_, .mk goto⟩

theorem Reduction.stays_or_descends {p exposed : Nat} {above rest after : List Nat}
    (h : Reduction rules table t p (above ++ exposed :: rest) after) :
    (∃ above', after = above' ++ exposed :: rest ∧
      Reduction rules table t p (above ++ [exposed]) (above' ++ [exposed])) ∨
    ∃ height, height < rest.length ∧ Landed table after height := by
  generalize source : above ++ exposed :: rest = states at h
  cases h with
  | @mk popped deep lower target lhs rhs action rule size goto =>
    rcases List.append_eq_append_iff.1 source with ⟨gone, rfl, split⟩ | ⟨kept, rfl, split⟩
    · cases gone with
      | nil =>
        obtain ⟨rfl, rfl⟩ := List.cons.inj split
        rw [List.append_nil] at action size
        refine Or.inl ⟨[target], rfl, ?_⟩
        exact .atop action rule size goto
      | cons x gone =>
        rw [List.cons_append] at split
        obtain ⟨rfl, rfl⟩ := List.cons.inj split
        refine Or.inr ⟨deep.length, ?_, .mk goto⟩
        rw [List.length_append, List.length_cons]
        omega
    · refine Or.inl ⟨target :: kept, by rw [split]; rfl, ?_⟩
      rw [List.append_assoc]
      cases kept with
      | nil =>
        obtain ⟨rfl, rfl⟩ := List.cons.inj split
        exact .atop action rule size goto
      | cons x kept =>
        obtain ⟨rfl, rfl⟩ := List.cons.inj split
        exact .atop action rule size goto

/-- Reductions from a stack on which one has just landed either all stay above the exposed state or
land deeper at some time. -/
theorem stays_or_lands_deeper {visited : Nat → List Nat} {target exposed : Nat} {rest : List Nat}
    (moves : ∀ i, ∃ p, Reduction rules table t p (visited i) (visited (i + 1)))
    (first : visited 0 = target :: exposed :: rest) (i : Nat) :
    (∃ above calls, visited i = above ++ exposed :: rest ∧ calls.length = i ∧
      Runs rules table t [target, exposed] [] calls (above ++ [exposed])) ∨
    ∃ j height, height < rest.length ∧ Landed table (visited j) height := by
  induction i with
  | zero => exact Or.inl ⟨[target], [], first, rfl, .done⟩
  | succ i ih =>
    rcases ih with ⟨above, calls, here, size, runs⟩ | deeper
    · obtain ⟨p, move⟩ := moves i
      rw [here] at move
      rcases move.stays_or_descends with ⟨above', there, moved⟩ | ⟨height, lower, landed⟩
      · refine Or.inl ⟨above', calls ++ [p], there, by simp [size], ?_⟩
        exact Runs.trans runs (.reduce moved .done)
      · exact Or.inr ⟨i + 1, height, lower, landed⟩
    · exact Or.inr deeper

namespace Machinery

theorem no_endless_landing (machinery : Machinery rules automaton table)
    (reached : ∀ ⦃s map⦄, automaton.items? s = some map →
      ∃ below stack, automaton.Trail (s :: below) stack)
    {height : Nat} (visited : Nat → List Nat) (landed : Landed table (visited 0) height) :
    ¬ ∀ i, ∃ p, Reduction rules table t p (visited i) (visited (i + 1)) := by
  induction height using Nat.strongRecOn generalizing visited with
  | ind height ih =>
    intro moves
    generalize first : visited 0 = states at landed
    cases landed with
    | @mk target exposed lhs rest goto =>
      obtain ⟨_, same, edge⟩ := machinery.nonterminal_cases goto
      obtain rfl := Action.goto.inj same
      obtain ⟨map, found⟩ := machinery.collects.transition_source edge
      obtain ⟨below, stack, path⟩ := reached found
      -- one more than the reductions that a path to the exposed state allows
      generalize bound : (table.stateCount + 1) ^ table.stateCount *
        ((target :: exposed :: below).length + 1) = limit
      rcases stays_or_lands_deeper moves first limit with
        ⟨above, calls, _, size, runs⟩ | ⟨j, height, lower, landed⟩
      · have few := (machinery.reductions_le (path.step edge) (runs.extend below)).1
        omega
      · have later : Landed table (visited (j + 0)) height := landed
        exact ih height lower (fun i => visited (j + i)) later fun i => moves (j + i)

theorem no_endless_reductions (machinery : Machinery rules automaton table)
    (reached : ∀ ⦃s map⦄, automaton.items? s = some map →
      ∃ below stack, automaton.Trail (s :: below) stack)
    (visited : Nat → List Nat) :
    ¬ ∀ i, ∃ p, Reduction rules table t p (visited i) (visited (i + 1)) := by
  intro moves
  obtain ⟨p, move⟩ := moves 0
  obtain ⟨height, landed⟩ := move.landed
  exact machinery.no_endless_landing reached (fun i => visited (i + 1)) landed
    fun i => moves (i + 1)

end Machinery

namespace Parser

variable {τ υ : Type}

theorem fault_ne_next (c d : Configuration τ υ) (kind : Fault) : fault c kind ≠ .next d := by
  unfold fault
  split <;> simp

theorem reduce_next {parser : Parser τ υ} {c d : Configuration τ υ} {t p : Nat}
    (action : parser.table.answer c.states (.terminal t) = some (.reduce p))
    (next : parser.reduce c p = .next d) :
    Reduction parser.rules parser.table t p c.states d.states ∧ d.lookahead = c.lookahead := by
  unfold reduce at next
  split at next
  · contradiction
  · rename_i production rule
    obtain ⟨lhs, rhs⟩ := production
    dsimp only at next
    split at next
    · exact absurd next (fault_ne_next _ _ _)
    · rename_i enough
      split at next
      · exact absurd next (fault_ne_next _ _ _)
      · unfold follow at next
        split at next
        · contradiction
        · rename_i exposed rest dropped
          have dropped : c.states.drop rhs.length = exposed :: rest := dropped
          split at next
          · rename_i target goto
            obtain rfl := Step.next.inj next
            have split : c.states = c.states.take rhs.length ++ exposed :: rest := by
              rw [← dropped, List.take_append_drop]
            have size : (c.states.take rhs.length).length = rhs.length := by
              rw [List.length_take]
              omega
            refine ⟨?_, rfl⟩
            simp only [dropped]
            rw [split] at action ⊢
            exact .mk action rule size goto
          · split at next
            · exact absurd next (fault_ne_next _ _ _)
            · contradiction

theorem From.reached [Fingerprint τ] {parser : Parser τ υ} {grammar : Grammar τ υ} {start : Nat}
    {eof : τ} (origin : parser.From grammar start) (wf : grammar.WellFormed eof) ⦃s : Nat⦄
    ⦃map : ItemMap⦄ (found : parser.automaton.items? s = some map) :
    ∃ below stack, parser.automaton.Trail (s :: below) stack := by
  have proper := (origin.built wf).machinery.proper
  obtain ⟨construction, automaton⟩ := origin.automaton
  rw [automaton] at found ⊢
  exact proper.state_reached construction found

variable [DecidableEq τ] [Fingerprint τ] [Spelling τ] {parser : Parser τ υ}
  {c d e : Configuration τ υ}

theorem step_next (next : parser.step c = .next d) :
    d.position = c.position + 1 ∨ ∃ t p, parser.lookaheadId? c.lookahead = some t ∧
      d.lookahead = c.lookahead ∧
      Reduction parser.rules parser.table t p c.states d.states := by
  unfold step at next
  split at next
  · contradiction
  · rename_i s below states
    split at next
    · unfold reject at next
      split at next <;> contradiction
    · rename_i t known
      split at next
      · unfold shift at next
        split at next
        · exact absurd next (fault_ne_next _ _ _)
        · obtain rfl := Step.next.inj next
          exact Or.inl (by simp)
      · rename_i p action
        have answer : parser.table.answer c.states (.terminal t) = some (.reduce p) := by
          rw [states]
          exact action
        obtain ⟨move, same⟩ := reduce_next answer next
        exact Or.inr ⟨t, p, known, same, move⟩
      · unfold accept at next
        split at next
        · contradiction
        · exact absurd next (fault_ne_next _ _ _)
      · exact absurd next (fault_ne_next _ _ _)
      · unfold reject at next
        split at next <;> contradiction

theorem reductions_of_steps {course : Nat → Configuration τ υ}
    (moves : ∀ i, parser.step (course i) = .next (course (i + 1)) ∧
      (course (i + 1)).position = (course i).position) :
    ∃ t, ∀ i, ∃ p,
      Reduction parser.rules parser.table t p (course i).states (course (i + 1)).states := by
  have reduces : ∀ i, ∃ t p, parser.lookaheadId? (course i).lookahead = some t ∧
      (course (i + 1)).lookahead = (course i).lookahead ∧
      Reduction parser.rules parser.table t p (course i).states (course (i + 1)).states := by
    intro i
    obtain ⟨next, position⟩ := moves i
    rcases step_next next with shifted | reduced
    · omega
    · exact reduced
  have kept : ∀ i, (course i).lookahead = (course 0).lookahead := by
    intro i
    induction i with
    | zero => rfl
    | succ i ih =>
      obtain ⟨_, _, _, same, _⟩ := reduces i
      exact same.trans ih
  obtain ⟨t, _, known, _⟩ := reduces 0
  refine ⟨t, fun i => ?_⟩
  obtain ⟨other, p, found, _, move⟩ := reduces i
  rw [kept i, known] at found
  obtain rfl := Option.some.inj found
  exact ⟨p, move⟩

theorem Follows.unique {n : Nat} (first : parser.Follows c n d) (second : parser.Follows c n e) :
    d = e := by
  induction first generalizing e with
  | refl =>
    cases second
    rfl
  | step _ next ih =>
    cases second with
    | step before next' =>
      obtain rfl := ih before
      exact Step.next.inj (next.symm.trans next')

theorem Follows.earlier {n m : Nat} (h : parser.Follows c m e) (before : n < m) :
    ∃ d next, parser.Follows c n d ∧ parser.step d = .next next := by
  induction h with
  | refl => omega
  | @step m d e upTo next ih =>
    by_cases last : n = m
    · subst last
      exact ⟨d, e, upTo, next⟩
    · exact ih (by omega)

theorem Follows.runFrom {n : Nat} (h : parser.Follows c n d) (bound : Nat) :
    parser.runFrom (n + bound) c = parser.runFrom bound d := by
  induction h generalizing bound with
  | refl => rw [Nat.zero_add]
  | @step n d e _ next ih =>
    rw [Nat.add_assoc, Nat.add_comm 1 bound, ih, Parser.runFrom, next]

theorem Follows.runFrom_eq {n : Nat} (h : parser.Follows c n d)
    (ended : ∀ next, parser.step d ≠ .next next) {bound other : Nat} (enough : n < bound)
    (enough' : n < other) : parser.runFrom bound c = parser.runFrom other c := by
  have once : ∀ limit, n < limit → parser.runFrom limit c = parser.runFrom 1 d := by
    intro limit beyond
    obtain ⟨extra, rfl⟩ : ∃ extra, limit = n + (extra + 1) := ⟨limit - n - 1, by omega⟩
    rw [h.runFrom]
    unfold Parser.runFrom
    cases outcome : parser.step d with
    | next later => exact absurd outcome (ended later)
    | accepted value last => rfl
    | failed error last => rfl
  rw [once bound enough, once other enough']

theorem Built.steps_end {eof : τ} (built : parser.Built eof) (tokens : List (Token τ υ)) :
    ∃ n last, parser.Follows (parser.initial tokens) n last ∧
      ∀ c, parser.step last ≠ .next c := by
  by_contra endless
  have onward : ∀ n, ∃ c, parser.Follows (parser.initial tokens) n c := by
    intro n
    induction n with
    | zero => exact ⟨_, .refl⟩
    | succ n ih =>
      obtain ⟨c, follows⟩ := ih
      by_contra stuck
      refine endless ⟨n, c, follows, fun d next => ?_⟩
      exact stuck ⟨d, .step follows next⟩
  obtain ⟨c, follows⟩ := onward (parser.stepBound tokens)
  exact Nat.lt_irrefl _ (built.steps_lt follows)

end Parser

variable {τ υ : Type} [DecidableEq τ] [Fingerprint τ] [Spelling τ] {eof : τ}
  {calls : List (Registration τ υ)} {host : Host} {strategy : Strategy} {parser : Parser τ υ}

/-- Nesting as above, next to a non-terminal that recurses on the left behind one that vanishes, a
cycle of its own, and one that nothing leads to; the second and the third derive no word. -/
def tangled : List (Registration String Nat) :=
  [.nonterminal "S", .nonterminal "H", .nonterminal "E", .nonterminal "C", .nonterminal "U",
    .production 0 [.terminal "a", .nonterminal 0, .terminal "b"] (List.foldl Nat.add 0),
    .production 0 [] fun _ => 0,
    .production 0 [.nonterminal 1] fun _ => 0,
    .production 1 [.nonterminal 2, .nonterminal 1, .terminal "x"] fun _ => 0,
    .production 1 [.nonterminal 3, .nonterminal 1] fun _ => 0,
    .production 2 [] fun _ => 0,
    .production 3 [.nonterminal 3] fun _ => 0,
    .production 4 [.terminal "u"] fun _ => 0]

/-- The steps of a run are finite in number, so that any bound beyond them is as good as none; and
in no configuration whatever can the machine go on for ever without a shift. -/
theorem steps_finite (built : (Grammar.assemble eof calls).build host strategy = .ok parser)
    (tokens : List (Token τ υ)) :
    (∃ n last, parser.Follows (parser.initial tokens) n last ∧
      (∀ c, parser.step last ≠ .next c) ∧
      (∀ m c, parser.Follows (parser.initial tokens) m c → m ≤ n) ∧
      ∀ bound, n < bound → parser.runFrom bound (parser.initial tokens) = parser.run tokens) ∧
    ∀ course : Nat → Configuration τ υ,
      ¬ ∀ i, parser.step (course i) = .next (course (i + 1)) ∧
        (course (i + 1)).position = (course i).position := by
  obtain ⟨start, origin, sound⟩ := Parser.Built.of_assemble built
  constructor
  · obtain ⟨n, last, follows, ended⟩ := sound.steps_end tokens
    refine ⟨n, last, follows, ended, ?_, ?_⟩
    · intro m c longer
      by_contra beyond
      obtain ⟨d, next, upTo, onward⟩ := longer.earlier (Nat.lt_of_not_le beyond)
      obtain rfl := follows.unique upTo
      exact ended next onward
    · intro bound enough
      exact follows.runFrom_eq ended enough (sound.steps_lt follows)
  · intro course moves
    obtain ⟨t, reductions⟩ := Parser.reductions_of_steps moves
    exact sound.machinery.no_endless_reductions
      (origin.reached (Grammar.assemble_wellFormed eof calls)) _ reductions

def twofold : List (Token String Nat) := [⟨"a", 1⟩, ⟨"a", 1⟩, ⟨"b", 2⟩, ⟨"b", 2⟩]

/-- Four shifts, the empty production and twice the one around it: seven steps, and then the value
is given out. -/
theorem steps_finite_tangled : ∃ parser,
    (Grammar.assemble "$" tangled).build tasks .sequential = .ok parser ∧
    (parser.run twofold).outcome = .ok 6 ∧ (parser.run twofold).trace = [1, 0, 0] ∧
    (∃ last, parser.Follows (parser.initial twofold) 7 last ∧
      (∀ c, parser.step last ≠ .next c) ∧
      (∀ m c, parser.Follows (parser.initial twofold) m c → m ≤ 7) ∧
      ∀ bound, 7 < bound →
        parser.runFrom bound (parser.initial twofold) = parser.run twofold) ∧
    ∀ course : Nat → Configuration String Nat,
      ¬ ∀ i, parser.step (course i) = .next (course (i + 1)) ∧
        (course (i + 1)).position = (course i).position := by
  obtain ⟨parser, built, value, trace, short, long⟩ : ∃ parser,
      (Grammar.assemble "$" tangled).build tasks .sequential = .ok parser ∧
      (parser.run twofold).outcome = .ok 6 ∧ (parser.run twofold).trace = [1, 0, 0] ∧
      (parser.runFrom 7 (parser.initial twofold)).outcome = .error .unfinished ∧
      (parser.runFrom 8 (parser.initial twofold)).outcome = .ok 6 :=
    exists_ok (by decide +kernel)
  obtain ⟨⟨n, last, follows, ended, longest, enough⟩, shifts⟩ := steps_finite built twofold
  have upper : n ≤ 7 := by
    by_contra beyond
    obtain ⟨d, later⟩ : ∃ d, parser.Follows (parser.initial twofold) 8 d := by
      rcases Nat.eq_or_lt_of_le (Nat.lt_of_not_le beyond) with rfl | more
      · exact ⟨last, follows⟩
      · obtain ⟨d, _, upTo, _⟩ := follows.earlier more
        exact ⟨d, upTo⟩
    rw [later.runFrom 0] at long
    contradiction
  have lower : 7 ≤ n := by
    by_contra before
    rw [enough 7 (Nat.lt_of_not_le before), value] at short
    contradiction
  obtain rfl : n = 7 := by omega
  exact ⟨parser, built, value, trace, ⟨last, follows, ended, longest, enough⟩, shifts⟩

end CanonicalLR
