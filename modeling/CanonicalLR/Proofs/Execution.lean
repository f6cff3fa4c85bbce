import CanonicalLR.Proofs.Steps
/-
Whole runs. Along a run the control of the machine is a run of the table over the tokens shifted,
and between two shifts it makes a bounded number of reductions; the bound of the machine exceeds
what all of them amount to, so every run ends by itself.
-/
namespace CanonicalLR

namespace Parser

variable {τ υ : Type}

def phaseBound (parser : Parser τ υ) (tokens : List (Token τ υ)) : Nat :=
  (parser.table.stateCount + 1) ^ parser.table.stateCount *
    (tokens.length * (parser.table.stateCount + 1) + 2)

theorem stepBound_ge (parser : Parser τ υ) (tokens : List (Token τ υ)) :
    (tokens.length + 1) * parser.phaseBound tokens ≤ parser.stepBound tokens := by
  unfold stepBound phaseBound
  generalize tokens.length = n
  generalize parser.table.stateCount = s
  have power : (s + 1) ^ s ≤ (s + 2) ^ s := Nat.pow_le_pow_left (Nat.le_succ _) s
  have more : (s + 2) ^ (s + 1) ≤ (s + 2) ^ (s + 4) :=
    Nat.pow_le_pow_right (Nat.succ_pos _) (by omega)
  have height : n * (s + 1) + 2 ≤ (n + 2) * (s + 2) := by
    rw [Nat.add_mul]
    have longer : n * (s + 1) ≤ n * (s + 2) := Nat.mul_le_mul_left n (Nat.le_succ _)
    omega
  calc (n + 1) * ((s + 1) ^ s * (n * (s + 1) + 2))
      ≤ (n + 2) * ((s + 2) ^ s * ((n + 2) * (s + 2))) :=
        Nat.mul_le_mul (Nat.le_succ _) (Nat.mul_le_mul power height)
    _ = (n + 2) * (n + 2) * (s + 2) ^ (s + 1) := by
        rw [Nat.pow_succ, Nat.mul_left_comm ((s + 2) ^ s), Nat.mul_assoc]
    _ ≤ (n + 2) * (n + 2) * (s + 2) ^ (s + 4) := Nat.mul_le_mul_left _ more

theorem runs_initial (parser : Parser τ υ) (tokens : List (Token τ υ)) (t : Nat) :
    Runs parser.rules parser.table t [parser.automaton.start] []
      (parser.initial tokens).calls.reverse (parser.initial tokens).states := by
  simpa [initial] using .done

variable [DecidableEq τ] [Fingerprint τ]

/-- After `n` steps: the stack as the last shift left it, and the reductions since then. -/
structure Counted (parser : Parser τ υ) (tokens : List (Token τ υ)) (n : Nat)
    (base calls : List Nat) (c : Configuration τ υ) : Prop where
  path : ∃ stack, parser.automaton.Trail base stack
  height : base.length ≤ c.position * (parser.table.stateCount + 1) + 1
  runs : ∃ t, Runs parser.rules parser.table t base [] calls c.states ∧
    (parser.lookaheadId? c.lookahead = some t ∨ calls = [])
  steps : n ≤ c.position * parser.phaseBound tokens + calls.length

theorem Counted.calls_lt {parser : Parser τ υ} {eof : τ} {tokens : List (Token τ υ)}
    {c : Configuration τ υ} {n : Nat} {base calls : List Nat}
    (counted : parser.Counted tokens n base calls c) (built : parser.Built eof)
    (tracks : parser.Tracks tokens c) :
    calls.length < parser.phaseBound tokens ∧
      c.states.length ≤ parser.table.stateCount + base.length := by
  obtain ⟨stack, path⟩ := counted.path
  obtain ⟨t, runs, _⟩ := counted.runs
  obtain ⟨few, high⟩ := built.machinery.reductions_le path runs
  refine ⟨Nat.lt_of_lt_of_le few (Nat.mul_le_mul_left _ ?_), high⟩
  have position := Nat.mul_le_mul_right (parser.table.stateCount + 1) tracks.position
  have height := counted.height
  omega

structure Traced (parser : Parser τ υ) (tokens : List (Token τ υ)) (word : List Nat)
    (c : Configuration τ υ) : Prop where
  spelled : List.Forall₂ (fun id token => parser.lexicon.get? id = some token.kind) word
    (tokens.take c.position)
  inside : parser.rules.eof ∉ word
  runs (t : Nat) : parser.lookaheadId? c.lookahead = some t →
    Runs parser.rules parser.table t [parser.automaton.start] word c.calls.reverse c.states

theorem traced_initial (parser : Parser τ υ) (tokens : List (Token τ υ)) :
    parser.Traced tokens [] (parser.initial tokens) := by
  constructor
  · simp [initial]
  · simp
  · exact fun t _ => parser.runs_initial tokens t

variable [Spelling τ]

inductive Follows (parser : Parser τ υ) (c : Configuration τ υ) :
    Nat → Configuration τ υ → Prop where
  | refl : Follows parser c 0 c
  | step {n : Nat} {d e : Configuration τ υ} (before : Follows parser c n d)
      (next : parser.step d = .next e) : Follows parser c (n + 1) e

theorem Follows.head {parser : Parser τ υ} {c d e : Configuration τ υ} {n : Nat}
    (next : parser.step c = .next d) (h : parser.Follows d n e) :
    parser.Follows c (n + 1) e := by
  induction h with
  | refl => exact .step .refl next
  | step _ later ih => exact .step ih later

theorem runFrom_cases (parser : Parser τ υ) (bound : Nat) (c : Configuration τ υ) :
    (∃ n d, parser.Follows c n d ∧
      ((∃ value e, parser.step d = .accepted value e ∧ parser.runFrom bound c = ⟨.ok value, e⟩) ∨
        ∃ error e, parser.step d = .failed error e ∧
          parser.runFrom bound c = ⟨.error error, e⟩)) ∨
      ∃ d, parser.Follows c bound d := by
  induction bound generalizing c with
  | zero => exact Or.inr ⟨c, .refl⟩
  | succ bound ih =>
    unfold runFrom
    cases outcome : parser.step c with
    | accepted value e => exact Or.inl ⟨0, c, .refl, Or.inl ⟨value, e, outcome, rfl⟩⟩
    | failed error e => exact Or.inl ⟨0, c, .refl, Or.inr ⟨error, e, outcome, rfl⟩⟩
    | next d =>
      rcases ih d with ⟨n, e, later, result⟩ | ⟨e, later⟩
      · exact Or.inl ⟨n + 1, e, .head outcome later, result⟩
      · exact Or.inr ⟨e, .head outcome later⟩

variable {parser : Parser τ υ} {eof : τ} {tokens : List (Token τ υ)} {c c' : Configuration τ υ}

theorem Built.tracks (built : parser.Built eof) {n : Nat}
    (h : parser.Follows (parser.initial tokens) n c) : parser.Tracks tokens c := by
  induction h with
  | refl => exact tracks_initial parser tokens
  | step _ next ih =>
    have does := built.step_does ih
    rw [next] at does
    exact ih.next does built.lexicon

theorem Built.does (built : parser.Built eof) {n : Nat}
    (h : parser.Follows (parser.initial tokens) n c) : parser.Does c (parser.step c) :=
  built.step_does (built.tracks h)

/-- A shift leaves the machine where the word alone has brought it, whatever comes next. -/
theorem Traced.next {word : List Nat} (traced : parser.Traced tokens word c)
    (tracks : parser.Tracks tokens c) (lexicon : parser.lexicon.Faithful)
    (does : parser.Does c (.next c')) :
    ∃ longer, parser.Traced tokens longer c' ∧ (c.position < c'.position → ∀ t,
      Runs parser.rules parser.table t [parser.automaton.start] longer c'.calls.reverse
        c'.states) := by
  generalize outcome : Step.next c' = step at does
  cases does with
  | @shift token a target ahead known inside action path =>
    obtain rfl := Step.next.inj outcome
    have here := tracks.token_at ahead
    have spelled : parser.lexicon.get? a = some token.kind :=
      (Interner.find?_eq_some_iff lexicon).1 known
    have runs : ∀ t, Runs parser.rules parser.table t [parser.automaton.start] (word ++ [a])
        c.calls.reverse (target :: c.states) := by
      intro t
      have before : parser.lookaheadId? c.lookahead = some a := by rwa [ahead]
      have first : Runs parser.rules parser.table ([a].headD t) _ word _ c.states :=
        traced.runs a before
      simpa using first.trans (.shift action .done)
    refine ⟨word ++ [a], ⟨?_, ?_, ?_⟩, ?_⟩
    · rw [Configuration.pull_position, List.take_add_one, here]
      exact List.rel_append traced.spelled (.cons spelled .nil)
    · simpa using ⟨traced.inside, Ne.symm inside⟩
    · simpa using fun t _ => runs t
    · simpa using runs
  | @reduce t p _ _ _ after _ _ _ known move =>
    obtain rfl := Step.next.inj outcome
    refine ⟨word, ⟨traced.spelled, traced.inside, ?_⟩, by simp⟩
    intro other found
    obtain rfl := Option.some.inj (known.symm.trans found)
    have first : Runs parser.rules parser.table (([] : List Nat).headD t) _ word _ c.states :=
      traced.runs t known
    simpa using first.trans (.reduce move .done)
  | accept => contradiction
  | reject => contradiction

theorem Built.traced (built : parser.Built eof) {n : Nat}
    (h : parser.Follows (parser.initial tokens) n c) : ∃ word, parser.Traced tokens word c := by
  induction h with
  | refl => exact ⟨[], traced_initial parser tokens⟩
  | step before next ih =>
    obtain ⟨word, traced⟩ := ih
    have does := built.does before
    rw [next] at does
    obtain ⟨longer, after, _⟩ := traced.next (built.tracks before) built.lexicon does
    exact ⟨longer, after⟩

theorem Counted.next {n : Nat} {base calls : List Nat}
    (counted : parser.Counted tokens n base calls c) (built : parser.Built eof)
    (tracks : parser.Tracks tokens c) (does : parser.Does c (.next c')) :
    ∃ base' calls', parser.Counted tokens (n + 1) base' calls' c' := by
  generalize outcome : Step.next c' = step at does
  cases does with
  | @shift token a target ahead known inside action path =>
    obtain rfl := Step.next.inj outcome
    obtain ⟨few, high⟩ := counted.calls_lt built tracks
    have height := counted.height
    have steps := counted.steps
    refine ⟨target :: c.states, [], ⟨_, path⟩, ?_, ?_, ?_⟩
    · rw [Configuration.pull_position, Nat.succ_mul, List.length_cons]
      omega
    · exact ⟨a, by simpa using .done, Or.inr rfl⟩
    · rw [Configuration.pull_position, Nat.succ_mul, List.length_nil]
      omega
  | @reduce t p _ _ _ after _ _ _ known move =>
    obtain rfl := Step.next.inj outcome
    refine ⟨base, calls ++ [p], counted.path, counted.height, ?_, ?_⟩
    · have runs : Runs parser.rules parser.table t base [] calls c.states := by
        obtain ⟨other, runs, found | idle⟩ := counted.runs
        · obtain rfl := Option.some.inj (known.symm.trans found)
          exact runs
        · rw [runs.still rfl idle, idle]
          exact .done
      exact ⟨t, Runs.trans runs (.reduce move .done), Or.inl known⟩
    · have steps := counted.steps
      rw [List.length_append, List.length_singleton]
      simp only
      omega
  | accept => contradiction
  | reject => contradiction

theorem Built.counted (built : parser.Built eof) {n : Nat}
    (h : parser.Follows (parser.initial tokens) n c) :
    ∃ base calls, parser.Counted tokens n base calls c := by
  induction h with
  | refl =>
    refine ⟨[parser.automaton.start], [], ⟨[], .start⟩, ?_, ?_, Nat.zero_le _⟩
    · simp
    · exact ⟨parser.rules.eof, by simpa [initial] using .done, Or.inr rfl⟩
  | step before next ih =>
    obtain ⟨base, calls, counted⟩ := ih
    have does := built.does before
    rw [next] at does
    exact counted.next built (built.tracks before) does

theorem Built.steps_lt (built : parser.Built eof) {n : Nat}
    (h : parser.Follows (parser.initial tokens) n c) : n < parser.stepBound tokens := by
  obtain ⟨base, calls, counted⟩ := built.counted h
  have tracks := built.tracks h
  obtain ⟨few, _⟩ := counted.calls_lt built tracks
  have phases := Nat.mul_le_mul_right (parser.phaseBound tokens)
    (Nat.succ_le_succ tracks.position)
  calc n ≤ c.position * parser.phaseBound tokens + calls.length := counted.steps
    _ < (c.position + 1) * parser.phaseBound tokens := by
        rw [Nat.succ_mul]
        omega
    _ ≤ (tokens.length + 1) * parser.phaseBound tokens := phases
    _ ≤ parser.stepBound tokens := stepBound_ge parser tokens

theorem Built.run_ends (built : parser.Built eof) (tokens : List (Token τ υ)) :
    ∃ n c, parser.Follows (parser.initial tokens) n c ∧
      ((∃ value e, parser.Does c (.accepted value e) ∧ parser.run tokens = ⟨.ok value, e⟩) ∨
        ∃ error e, parser.Does c (.failed error e) ∧ parser.run tokens = ⟨.error error, e⟩) := by
  rcases parser.runFrom_cases (parser.stepBound tokens) (parser.initial tokens) with
    ⟨n, c, follows, ⟨value, e, step, result⟩ | ⟨error, e, step, result⟩⟩ | ⟨c, follows⟩
  · exact ⟨n, c, follows, Or.inl ⟨value, e, step ▸ built.does follows, result⟩⟩
  · exact ⟨n, c, follows, Or.inr ⟨error, e, step ▸ built.does follows, result⟩⟩
  · exact absurd (built.steps_lt follows) (Nat.lt_irrefl _)

end Parser

end CanonicalLR
