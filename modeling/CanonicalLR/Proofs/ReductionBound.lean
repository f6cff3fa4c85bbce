import CanonicalLR.Proofs.Simulation
/-
How many reductions one lookahead can cause. What grows above the lowest point of the stack never
repeats a state, since a repeated state would let the same reductions go on for ever; so the stacks
that can be met are few, and none of them is met twice.
-/
namespace CanonicalLR

variable {rules : Rules} {automaton : Automaton} {table : ParseTable} {t : Nat}

def Settles (rules : Rules) (table : ParseTable) (t : Nat) (states : List Nat) : Prop :=
  ∃ calls final, Runs rules table t states [] calls final ∧ table.Takes final t

theorem Settles.later {states final calls : List Nat} (settles : Settles rules table t states)
    (h : Runs rules table t states [] calls final) : Settles rules table t final := by
  obtain ⟨all, last, whole, takes⟩ := settles
  obtain ⟨rest, _, later⟩ := h.toward whole takes
  exact ⟨rest, last, later, takes⟩

/-- Reductions that bring back what they started on, perhaps with more on top of it, never end. -/
theorem Runs.no_loop {base deep under es calls final : List Nat}
    (loop : Runs rules table t base [] es (base ++ deep)) (proceeds : es ≠ [])
    (run : Runs rules table t (base ++ under) [] calls final) (takes : table.Takes final t) :
    False := by
  induction size : calls.length using Nat.strongRecOn generalizing calls under with
  | ind n ih =>
    have again := loop.extend under
    obtain ⟨rest, rfl, later⟩ := again.toward run takes
    have positive : 0 < es.length := List.length_pos_iff.2 proceeds
    rw [List.append_assoc] at later
    refine ih rest.length ?_ later rfl
    rw [← size, List.length_append]
    omega

theorem Runs.still {states word final calls : List Nat}
    (h : Runs rules table t states word calls final) (empty : word = []) (idle : calls = []) :
    final = states := by
  cases h with
  | done => rfl
  | reduce => contradiction
  | shift => contradiction

theorem Runs.visits {states word final calls : List Nat}
    (h : Runs rules table t states word calls final) (empty : word = [])
    (takes : table.Takes final t) :
    ∃ visited : List (List Nat), visited.length = calls.length + 1 ∧ visited.Nodup ∧
      ∀ u ∈ visited, ∃ ds, Runs rules table t states [] ds u := by
  induction h with
  | @done states => exact ⟨[states], rfl, by simp, by simpa using ⟨[], .done⟩⟩
  | @reduce states between final _ calls p move later ih =>
    subst empty
    obtain ⟨visited, size, nodup, reached⟩ := ih rfl takes
    refine ⟨states :: visited, by simp [size], List.nodup_cons.2 ⟨?_, nodup⟩, ?_⟩
    · intro member
      obtain ⟨ds, back⟩ := reached states member
      have loop : Runs rules table t states [] (p :: ds) (states ++ []) := by
        simpa using Runs.reduce move back
      have whole : Runs rules table t (states ++ []) [] (p :: calls) final := by
        simpa using Runs.reduce move later
      exact loop.no_loop (by simp) whole takes
    · intro u member
      rcases List.mem_cons.1 member with rfl | member
      · exact ⟨[], .done⟩
      · obtain ⟨ds, run⟩ := reached u member
        exact ⟨p :: ds, .reduce move run⟩
  | shift => contradiction

def Grown (rules : Rules) (table : ParseTable) (t : Nat) (above : List Nat) : Prop :=
  ∀ a g b, (a ++ g :: b) <:+ above → ∃ ds, Runs rules table t [g] [] ds (a ++ [g])

theorem Grown.push {popped kept : List Nat} {target p : Nat}
    (grown : Grown rules table t (popped ++ kept))
    (move : ∀ a g b, kept = a ++ g :: b →
      Reduction rules table t p (popped ++ (a ++ [g])) (target :: (a ++ [g]))) :
    Grown rules table t (target :: kept) := by
  intro a g b suffix
  rcases List.suffix_cons_iff.1 suffix with whole | inside
  · cases a with
    | nil => exact ⟨[], .done⟩
    | cons x a =>
      obtain ⟨rfl, rfl⟩ := List.cons.inj whole
      obtain ⟨ds, run⟩ := grown (popped ++ a) g b (by simp)
      rw [List.append_assoc] at run
      exact ⟨ds ++ [p], Runs.trans run (.reduce (move a g b rfl) .done)⟩
  · exact grown a g b (inside.trans (List.suffix_append _ _))

/-- A stack as reductions from `base` leave it: new states, all different, on a lower part of the
old stack. -/
structure Sprout (rules : Rules) (table : ParseTable) (t : Nat) (base above low : List Nat) :
    Prop where
  low : low <:+ base
  nodup : above.Nodup
  bounded : ∀ q ∈ above, q < table.stateCount
  grown : Grown rules table t above

theorem Sprout.bare (base : List Nat) : Sprout rules table t base [] base := by
  constructor
  · exact List.suffix_refl base
  · exact List.nodup_nil
  · simp
  · intro a g b suffix
    simp at suffix

theorem Sprout.step (machinery : Machinery rules automaton table)
    {base above low after : List Nat} {p : Nat} (sprout : Sprout rules table t base above low)
    (move : Reduction rules table t p (above ++ low) after)
    (settles : Settles rules table t after) :
    ∃ above' low', after = above' ++ low' ∧ Sprout rules table t base above' low' := by
  generalize source : above ++ low = states at move
  cases move with
  | @mk popped rest exposed target lhs rhs action rule size goto =>
    have bounded := machinery.goto_lt goto
    rcases List.append_eq_append_iff.1 source with ⟨deep, rfl, rfl⟩ | ⟨kept, rfl, split⟩
    · refine ⟨[target], exposed :: rest, rfl, ?_, by simp, by simpa using bounded, ?_⟩
      · exact (List.suffix_append _ _).trans sprout.low
      · have bare : Grown rules table t ([] ++ []) := (Sprout.bare base).grown
        exact bare.push (p := p) (by simp)
    · have grown : Grown rules table t (target :: kept) := by
        refine sprout.grown.push (p := p) ?_
        rintro a g b rfl
        cases a with
        | nil =>
          obtain ⟨rfl, _⟩ := List.cons.inj split
          exact .atop action rule size goto
        | cons x a =>
          obtain ⟨rfl, _⟩ := List.cons.inj split
          exact .atop action rule size goto
      refine ⟨target :: kept, low, by rw [split]; rfl, sprout.low, ?_, ?_, grown⟩
      · refine List.nodup_cons.2 ⟨?_, (List.nodup_append.1 sprout.nodup).2.1⟩
        intro member
        obtain ⟨a, b, rfl⟩ := List.append_of_mem member
        obtain ⟨ds, run⟩ := grown (target :: a) target b (List.suffix_refl _)
        obtain ⟨calls, final, whole, takes⟩ := settles
        have loop : Runs rules table t [target] [] ds ([target] ++ (a ++ [target])) := run
        have whole : Runs rules table t ([target] ++ exposed :: rest) [] calls final := whole
        refine loop.no_loop ?_ whole takes
        intro idle
        have same := loop.still rfl idle
        simp at same
      · intro q member
        rcases List.mem_cons.1 member with rfl | member
        · exact bounded
        · exact sprout.bounded q (List.mem_append_right _ member)

theorem Sprout.run (machinery : Machinery rules automaton table)
    {base above low states word calls final : List Nat}
    (sprout : Sprout rules table t base above low)
    (h : Runs rules table t states word calls final) (empty : word = [])
    (split : states = above ++ low) (settles : Settles rules table t states) :
    ∃ above' low', final = above' ++ low' ∧ Sprout rules table t base above' low' := by
  induction h generalizing above low with
  | done => exact ⟨above, low, split, sprout⟩
  | reduce move later ih =>
    subst empty
    have onward := settles.later (.reduce move .done)
    obtain ⟨above', low', next, grown⟩ := sprout.step machinery (split ▸ move) onward
    exact ih grown rfl next onward
  | shift => contradiction

theorem Sprout.length_le {base above low : List Nat} (h : Sprout rules table t base above low) :
    above.length ≤ table.stateCount := by
  have subset : above ⊆ List.range table.stateCount := fun q member =>
    List.mem_range.2 (h.bounded q member)
  simpa using h.nodup.length_le_of_subset subset

def shortLists (bound : Nat) : Nat → List (List Nat)
  | 0 => [[]]
  | length + 1 =>
    [] :: (List.range bound).flatMap fun q => (shortLists bound length).map (q :: ·)

theorem mem_shortLists {bound length : Nat} {list : List Nat} (short : list.length ≤ length)
    (small : ∀ q ∈ list, q < bound) : list ∈ shortLists bound length := by
  induction length generalizing list with
  | zero => simpa [shortLists] using short
  | succ length ih =>
    cases list with
    | nil => simp [shortLists]
    | cons q list =>
      have inner := ih (Nat.le_of_succ_le_succ short) fun r member =>
        small r (List.mem_cons_of_mem q member)
      have first : q < bound := small q List.mem_cons_self
      simp [shortLists, first, inner]

theorem length_shortLists (bound length : Nat) :
    (shortLists bound length).length ≤ (bound + 1) ^ length := by
  induction length with
  | zero => simp [shortLists]
  | succ length ih =>
    have count : (shortLists bound (length + 1)).length =
        bound * (shortLists bound length).length + 1 := by
      simp [shortLists, List.length_flatMap]
    have positive : 1 ≤ (bound + 1) ^ length := Nat.one_le_pow _ _ (Nat.succ_pos bound)
    calc (shortLists bound (length + 1)).length
        = bound * (shortLists bound length).length + 1 := count
      _ ≤ bound * (bound + 1) ^ length + (bound + 1) ^ length :=
          Nat.add_le_add (Nat.mul_le_mul_left bound ih) positive
      _ = (bound + 1) ^ (length + 1) := by rw [Nat.pow_succ, Nat.mul_succ, Nat.mul_comm]

namespace Machinery

theorem settles (machinery : Machinery rules automaton table) {stack : List (Symbol Nat)}
    {states final calls : List Nat} (path : automaton.Trail states stack)
    (h : Runs rules table t states [] calls final) (proceeds : calls ≠ []) :
    Settles rules table t states := by
  cases h with
  | done => contradiction
  | reduce move _ => exact machinery.reduction_runs path move

theorem reductions_le (machinery : Machinery rules automaton table) {stack : List (Symbol Nat)}
    {states final calls : List Nat} (path : automaton.Trail states stack)
    (h : Runs rules table t states [] calls final) :
    calls.length < (table.stateCount + 1) ^ table.stateCount * (states.length + 1) ∧
      final.length ≤ table.stateCount + states.length := by
  by_cases idle : calls = []
  · obtain rfl := h.still rfl idle
    subst idle
    exact ⟨Nat.mul_pos (Nat.pow_pos (Nat.succ_pos _)) (Nat.succ_pos _), Nat.le_add_left _ _⟩
  have settles := machinery.settles path h idle
  have sprouts : ∀ {ds u}, Runs rules table t states [] ds u →
      ∃ above low, u = above ++ low ∧ Sprout rules table t states above low := fun run =>
    (Sprout.bare states).run machinery run rfl rfl settles
  constructor
  · obtain ⟨all, last, whole, takes⟩ := settles
    obtain ⟨rest, rfl, _⟩ := h.toward whole takes
    obtain ⟨visited, size, nodup, reached⟩ := whole.visits rfl takes
    have candidates : visited ⊆ (shortLists table.stateCount table.stateCount).flatMap
        fun above => states.tails.map (above ++ ·) := by
      intro u member
      obtain ⟨ds, run⟩ := reached u member
      obtain ⟨above, low, rfl, sprout⟩ := sprouts run
      have short := mem_shortLists sprout.length_le sprout.bounded
      refine List.mem_flatMap.2 ⟨above, short, List.mem_map.2 ⟨low, ?_, rfl⟩⟩
      exact (List.mem_tails _ _).2 sprout.low
    have count := nodup.length_le_of_subset candidates
    simp only [List.length_flatMap, List.length_map, List.length_tails, List.map_const',
      List.sum_replicate_nat] at count
    have bound := Nat.mul_le_mul_right (states.length + 1)
      (length_shortLists table.stateCount table.stateCount)
    simp only [List.length_append] at size
    omega
  · obtain ⟨above, low, rfl, sprout⟩ := sprouts h
    have short := sprout.length_le
    have lower := sprout.low.length_le
    rw [List.length_append]
    omega

end Machinery

end CanonicalLR
