import CanonicalLR.Proofs.Bounds
import CanonicalLR.Proofs.Rightmost
import CanonicalLR.Proofs.Rounds
/-
Nullable non-terminals, first and follow sets against rewriting alone. Nullable is what derives the
empty string; a first set lists what can come first in a string that its non-terminal derives, a
follow set lists what can come right behind its non-terminal in a string that some non-terminal
derives. Nothing has to be rewritten to the end, so non-terminals without a word, or out of reach of
the start symbol, have their exact sets too.
-/
namespace CanonicalLR

section Strings

variable {productions : Array Production}

theorem starts_iff_derives {symbols : List (Symbol Nat)} {t : Nat} :
    Starts productions symbols [] t ↔
      ∃ rest, Derives productions symbols (.terminal t :: rest) := by
  constructor
  · intro starts
    exact starts.derives
  · intro ⟨rest, derives⟩
    exact Starts.of_derives derives

theorem vanishes_iff_derives {symbols : List (Symbol Nat)} :
    Vanishes productions symbols ↔ Derives productions symbols [] := by
  constructor
  · intro ⟨calls, made⟩
    exact made.derives
  · intro derives
    have word : Derives productions symbols (([] : List Nat).map .terminal) := derives
    exact Generates.of_derives word

def Neighbours (productions : Array Production) (n t : Nat) : Prop :=
  ∃ b before after, Relation.TransGen (Rewrites productions) [.nonterminal b]
    (before ++ .nonterminal n :: .terminal t :: after)

variable {p lhs n t : Nat} {before after : List (Symbol Nat)}

theorem Neighbours.of_starts
    (rule : productions[p]? = some ⟨lhs, before ++ .nonterminal n :: after⟩)
    (starts : Starts productions after [] t) : Neighbours productions n t := by
  obtain ⟨rest, derives⟩ := starts_iff_derives.1 starts
  have first : Relation.TransGen (Rewrites productions) [.nonterminal lhs]
      (before ++ .nonterminal n :: after) := by
    simpa using Relation.TransGen.single (Rewrites.apply [] [] rule)
  have onward := derives.context (before ++ [.nonterminal n]) []
  refine ⟨lhs, before, rest, first.trans_left ?_⟩
  simpa using onward

theorem Neighbours.of_vanishes
    (rule : productions[p]? = some ⟨lhs, before ++ .nonterminal n :: after⟩)
    (vanishes : Vanishes productions after) (outer : Neighbours productions lhs t) :
    Neighbours productions n t := by
  obtain ⟨b, left, right, derives⟩ := outer
  have inner := derives.tail (.apply left (.terminal t :: right) rule)
  have gone := (vanishes_iff_derives.1 vanishes).context (left ++ before ++ [.nonterminal n])
    (.terminal t :: right)
  refine ⟨b, left ++ before, right, inner.trans_left ?_⟩
  simpa using gone

end Strings

namespace Rules

variable {rules : Rules}

def VanishClosed (rules : Rules) (members : Set Nat) : Prop :=
  ∀ ⦃p lhs : Nat⦄ ⦃rhs : List (Symbol Nat)⦄, rules.productions[p]? = some ⟨lhs, rhs⟩ →
    (∀ symbol ∈ rhs, ∃ n ∈ members, symbol = .nonterminal n) → lhs ∈ members

theorem all_inNullable_iff_members {set : IdSet} {symbols : List (Symbol Nat)} :
    symbols.all (inNullable set) = true ↔
      ∀ symbol ∈ symbols, ∃ n ∈ set, symbol = .nonterminal n := by
  rw [List.all_eq_true]
  refine forall₂_congr fun symbol _ => ?_
  cases symbol with
  | terminal t => simp [inNullable]
  | nonterminal n => simp [inNullable]

theorem nullableSet_isLeast (proper : rules.Proper) :
    IsLeast {members : Set Nat | rules.VanishClosed members} {n | n ∈ rules.nullableSet} := by
  constructor
  · intro p lhs rhs rule inside
    have vanishes := all_inNullable_iff_members.2 inside
    have added := mem_nullableRound.2 (Or.inr ⟨p, rhs, rule, vanishes⟩)
    rwa [nullableSet_fixed proper] at added
  · intro members closed
    -- no round from the empty set leaves a closed set
    apply stabilize_induction (P := fun set : IdSet => ∀ n ∈ set, n ∈ members)
    · intro set below n found
      rcases mem_nullableRound.1 found with old | ⟨p, rhs, rule, vanishes⟩
      · exact below n old
      · apply closed rule
        intro symbol member
        obtain ⟨m, inside, same⟩ := all_inNullable_iff_members.1 vanishes symbol member
        exact ⟨m, below m inside, same⟩
    · simp

theorem mem_firstSets (proper : rules.Proper) {n t : Nat} :
    t ∈ (rules.firstSets rules.nullableSet).getD n ∅ ↔
      Starts rules.productions [.nonterminal n] [] t := by
  constructor
  · exact firstSets_sound
  · intro starts
    have begins := (mem_firstOfString proper).2 starts
    simp only [firstOfString] at begins
    split at begins
    · rcases IdSet.mem_union.1 begins with own | others
      · exact own
      · exact absurd others (IdSet.not_mem_empty t)
    · exact begins

theorem Proper.walk_exact (proper : rules.Proper) {symbols : List (Symbol Nat)}
    (known : ∀ n, .nonterminal n ∈ symbols → n < rules.nonterminalCount) :
    ∃ begins vanishes,
      (FirstFollow.ofRules rules).firstOfSequence? symbols = some (begins, vanishes) ∧
      (∀ t, t ∈ begins ↔ ∃ rest, Derives rules.productions symbols (.terminal t :: rest)) ∧
      (vanishes = true ↔ Derives rules.productions symbols []) := by
  refine ⟨((FirstFollow.ofRules rules).firstOfSequence symbols).1,
    ((FirstFollow.ofRules rules).firstOfSequence symbols).2, ?_, ?_, ?_⟩
  · rw [FirstFollow.firstOfSequence?, if_pos (covers_of_known known)]
  · intro t
    rw [← starts_iff_derives]
    exact mem_firstOfSequence proper
  · rw [← vanishes_iff_derives]
    exact firstOfSequence_vanishes proper

theorem followSets_sound (proper : rules.Proper) {n t : Nat}
    (h : t ∈ (rules.followSets rules.nullableSet (rules.firstSets rules.nullableSet)).getD n ∅) :
    Neighbours rules.productions n t := by
  revert n t
  apply stabilize_induction (P := fun (follow : Array TerminalSet) =>
    ∀ {n t}, t ∈ follow.getD n ∅ → Neighbours rules.productions n t)
  · intro follow sound n t member
    rcases (mem_followRound.1 member).2 with old | ⟨p, lhs, rhs, rule, added⟩
    · exact sound old
    · obtain ⟨before, after, split, follows⟩ := mem_followIn.1 added
      rw [split] at rule
      rcases follows with begins | ⟨vanishes, inherits⟩
      · exact .of_starts rule ((mem_firstOfString proper).1 begins)
      · exact .of_vanishes rule ((firstOfSequence_vanishes proper).1 vanishes) (sound inherits)
  · intro n t member
    exact absurd member (not_mem_noTerminals n t)

theorem Proper.rhs_nonterminal (proper : rules.Proper) {p lhs n : Nat}
    {before after : List (Symbol Nat)}
    (rule : rules.productions[p]? = some ⟨lhs, before ++ .nonterminal n :: after⟩) :
    n < rules.nonterminalCount :=
  proper.rhs_known rule (.nonterminal n) (by simp)

theorem followSets_closed (proper : rules.Proper) {p lhs n t : Nat}
    {before after : List (Symbol Nat)}
    (rule : rules.productions[p]? = some ⟨lhs, before ++ .nonterminal n :: after⟩)
    (follows : Starts rules.productions after [] t ∨ Vanishes rules.productions after ∧
      t ∈ (rules.followSets rules.nullableSet (rules.firstSets rules.nullableSet)).getD lhs ∅) :
    t ∈ (rules.followSets rules.nullableSet (rules.firstSets rules.nullableSet)).getD n ∅ := by
  have behind : t ∈ followIn rules.nullableSet (rules.firstSets rules.nullableSet) n
      ((rules.followSets rules.nullableSet (rules.firstSets rules.nullableSet)).getD lhs ∅)
      (before ++ .nonterminal n :: after) := by
    refine mem_followIn.2 ⟨before, after, rfl, ?_⟩
    rcases follows with starts | ⟨vanishes, inherits⟩
    · exact Or.inl ((mem_firstOfString proper).2 starts)
    · exact Or.inr ⟨(firstOfSequence_vanishes proper).2 vanishes, inherits⟩
  have added := mem_followRound.2
    ⟨proper.rhs_nonterminal rule, Or.inr ⟨p, lhs, _, rule, behind⟩⟩
  rwa [followSets_fixed proper] at added

def Foreseen (rules : Rules) (string : List (Symbol Nat)) : Prop :=
  ∀ ⦃before after : List (Symbol Nat)⦄ ⦃n t : Nat⦄, string = before ++ .nonterminal n :: after →
    Starts rules.productions after [] t →
      t ∈ (rules.followSets rules.nullableSet (rules.firstSets rules.nullableSet)).getD n ∅

theorem foreseen_single (b : Nat) : rules.Foreseen [.nonterminal b] := by
  intro before after n t split starts
  have none : after = [] := by
    have lengths := congrArg List.length split
    simp only [List.length_cons, List.length_nil, List.length_append] at lengths
    exact List.eq_nil_of_length_eq_zero (by omega)
  rw [none] at starts
  cases starts

/-- A step of rewriting keeps it, wherever the non-terminal in question stands: in front of the
place that is rewritten, inside the new right side, or behind it. -/
theorem Foreseen.rewrite (proper : rules.Proper) {string result : List (Symbol Nat)}
    (old : rules.Foreseen string) (step : Rewrites rules.productions string result) :
    rules.Foreseen result := by
  cases step with
  | @apply p lhs rhs left right rule =>
    intro before after n t split starts
    rw [List.append_assoc] at split
    rcases append_eq_append_cons split with ⟨middle, front, rest⟩ | ⟨middle, _, inside⟩
    · -- in front: the place is still to be rewritten in what comes behind
      have same : left ++ .nonterminal lhs :: right =
          before ++ .nonterminal n :: (middle ++ .nonterminal lhs :: right) := by
        simp [front]
      apply old same
      apply Starts.unrewrite (.apply middle right rule)
      rwa [rest, ← List.append_assoc] at starts
    · rcases append_eq_append_cons inside with ⟨inner, here, rest⟩ | ⟨back, _, behind⟩
      · -- inside: what comes next begins the rest of the right side, or follows the left side
        rw [here] at rule
        rw [rest] at starts
        apply followSets_closed proper rule
        rcases starts.split with begins | ⟨u, v, calls, empty, made, later⟩
        · exact Or.inl begins
        · obtain ⟨rfl, rfl⟩ := List.append_eq_nil_iff.1 empty.symm
          exact Or.inr ⟨⟨calls, made⟩, old rfl later⟩
      · -- behind: nothing has changed there
        have same : left ++ .nonterminal lhs :: right =
            (left ++ .nonterminal lhs :: back) ++ .nonterminal n :: after := by
          simp [behind]
        exact old same starts

theorem Proper.foreseen (proper : rules.Proper) {b : Nat} {string : List (Symbol Nat)}
    (h : Derives rules.productions [.nonterminal b] string) : rules.Foreseen string := by
  induction h with
  | refl => exact foreseen_single b
  | tail _ step ih => exact ih.rewrite proper step

theorem mem_followSets (proper : rules.Proper) {n t : Nat} :
    t ∈ (rules.followSets rules.nullableSet (rules.firstSets rules.nullableSet)).getD n ∅ ↔
      Neighbours rules.productions n t := by
  constructor
  · exact followSets_sound proper
  · intro ⟨b, before, after, derives⟩
    exact proper.foreseen derives.to_reflTransGen rfl .here

theorem Proper.rewritten_lt (proper : rules.Proper) {b : Nat} {string : List (Symbol Nat)}
    (h : Relation.TransGen (Rewrites rules.productions) [.nonterminal b] string) :
    b < rules.nonterminalCount := by
  obtain ⟨next, step, _⟩ := Relation.TransGen.head'_iff.1 h
  generalize start : [Symbol.nonterminal b] = source at step
  cases step with
  | @apply p lhs rhs left right rule =>
    have listed : .nonterminal lhs ∈ ([.nonterminal b] : List (Symbol Nat)) := by
      rw [start]
      exact List.mem_append_right _ List.mem_cons_self
    rw [List.mem_singleton, Symbol.nonterminal.injEq] at listed
    exact listed ▸ proper.lhs_lt rule

end Rules

variable {τ υ : Type} [DecidableEq τ] [Fingerprint τ] [Spelling τ] {eof : τ}
  {calls : List (Registration τ υ)} {frozen : FrozenGrammar τ υ}

/-- The sweeps over the productions end with all non-terminals that derive the empty string, which
are the least set that has every left side whose right side lies in it. -/
theorem nullableSet_exact (froze : (Grammar.assemble eof calls).freeze = .ok frozen) :
    RestsWithin frozen.rules.skippingSweep (frozen.rules.nonterminalCount + 1) ∅
      (FirstFollow.ofRules frozen.rules).nullable ∧
    (∀ n, (FirstFollow.ofRules frozen.rules).isNullable n = true ↔
      Derives frozen.rules.productions [.nonterminal n] []) ∧
    IsLeast {members : Set Nat | frozen.rules.VanishClosed members}
      {n | (FirstFollow.ofRules frozen.rules).isNullable n = true} := by
  have proper := Grammar.freeze_proper froze
  have listed : ∀ n, (FirstFollow.ofRules frozen.rules).isNullable n = true ↔
      n ∈ frozen.rules.nullableSet := fun n => IdSet.contains_iff
  refine ⟨?_, ?_, ?_⟩
  · rw [Rules.skippingSweep_eq]
    exact Rules.nullableSweep_rests proper
  · intro n
    rw [listed, ← vanishes_iff_derives]
    exact Rules.mem_nullableSet proper
  · simp only [listed]
    exact Rules.nullableSet_isLeast proper

theorem nullableSet_exact_looping : ∃ frozen,
    (Grammar.assemble "$" looping).freeze = .ok frozen ∧
    (FirstFollow.ofRules frozen.rules).nullable = IdSet.ofList [0, 1] ∧
    Derives frozen.rules.productions [.nonterminal 0] [] ∧
    ¬ Derives frozen.rules.productions [.nonterminal 2] [] := by
  obtain ⟨frozen, froze, found⟩ : ∃ frozen,
      (Grammar.assemble "$" looping).freeze = .ok frozen ∧
      (FirstFollow.ofRules frozen.rules).nullable = IdSet.ofList [0, 1] :=
    exists_ok (by decide +kernel)
  obtain ⟨_, exact, _⟩ := nullableSet_exact froze
  refine ⟨frozen, froze, found, ?_, ?_⟩
  · rw [← exact, FirstFollow.isNullable, found]
    decide
  · rw [← exact, FirstFollow.isNullable, found]
    decide

/-- The sweeps over the productions end with the sets of all terminals that can come first, and the
walk along a string finds what can come first in it and whether it can vanish. -/
theorem firstSets_exact (froze : (Grammar.assemble eof calls).freeze = .ok frozen) :
    RestsWithin (frozen.rules.firstSweep frozen.rules.nullableSet)
      (frozen.rules.nonterminalCount * frozen.rules.terminalCount + 1) frozen.rules.noTerminals
      (FirstFollow.ofRules frozen.rules).first ∧
    (∀ n t, t ∈ (FirstFollow.ofRules frozen.rules).firstOf n ↔
      ∃ rest, Derives frozen.rules.productions [.nonterminal n] (.terminal t :: rest)) ∧
    ∀ symbols : List (Symbol Nat),
      (∀ n, .nonterminal n ∈ symbols → n < frozen.rules.nonterminalCount) →
      ∃ begins vanishes,
        (FirstFollow.ofRules frozen.rules).firstOfSequence? symbols = some (begins, vanishes) ∧
        (∀ t, t ∈ begins ↔
          ∃ rest, Derives frozen.rules.productions symbols (.terminal t :: rest)) ∧
        (vanishes = true ↔ Derives frozen.rules.productions symbols []) := by
  have proper := Grammar.freeze_proper froze
  refine ⟨Rules.firstSweep_rests proper, ?_, ?_⟩
  · intro n t
    rw [← starts_iff_derives]
    exact Rules.mem_firstSets proper
  · intro symbols known
    exact proper.walk_exact known

theorem firstSets_exact_looping : ∃ frozen,
    (Grammar.assemble "$" looping).freeze = .ok frozen ∧
    (FirstFollow.ofRules frozen.rules).firstOf 0 = IdSet.singleton 1 ∧
    (∃ rest, Derives frozen.rules.productions [.nonterminal 0] (.terminal 1 :: rest)) ∧
    (FirstFollow.ofRules frozen.rules).firstOfSequence? [.nonterminal 1, .nonterminal 2] =
      some (∅, false) ∧
    ¬ Derives frozen.rules.productions [.nonterminal 1, .nonterminal 2] [] := by
  obtain ⟨frozen, froze, first, known, walk⟩ : ∃ frozen,
      (Grammar.assemble "$" looping).freeze = .ok frozen ∧
      (FirstFollow.ofRules frozen.rules).firstOf 0 = IdSet.singleton 1 ∧
      2 < frozen.rules.nonterminalCount ∧
      (FirstFollow.ofRules frozen.rules).firstOfSequence? [.nonterminal 1, .nonterminal 2] =
        some (∅, false) :=
    exists_ok (by decide +kernel)
  obtain ⟨_, exact, strings⟩ := firstSets_exact froze
  obtain ⟨begins, vanishes, found, _, gone⟩ := strings [.nonterminal 1, .nonterminal 2] (by
    intro n member
    simp only [List.mem_cons, Symbol.nonterminal.injEq, List.not_mem_nil, or_false] at member
    omega)
  refine ⟨frozen, froze, first, ?_, walk, ?_⟩
  · exact (exact 0 1).1 (by simp [first])
  · rw [walk, Option.some.injEq, Prod.mk.injEq] at found
    rw [← gone, ← found.2]
    decide

/-- The sweeps over the productions end with the sets of all terminals that can come right behind
their non-terminals. -/
theorem followSets_exact (froze : (Grammar.assemble eof calls).freeze = .ok frozen) :
    RestsWithin
      (frozen.rules.followSweep frozen.rules.nullableSet
        (frozen.rules.firstSets frozen.rules.nullableSet))
      (frozen.rules.nonterminalCount * frozen.rules.terminalCount + 1) frozen.rules.noTerminals
      (FirstFollow.ofRules frozen.rules).follow ∧
    ∀ n t, t ∈ (FirstFollow.ofRules frozen.rules).followOf n ↔
      ∃ b < frozen.rules.nonterminalCount, ∃ before after,
        Relation.TransGen (Rewrites frozen.rules.productions) [.nonterminal b]
          (before ++ .nonterminal n :: .terminal t :: after) := by
  have proper := Grammar.freeze_proper froze
  refine ⟨Rules.followSweep_rests proper, ?_⟩
  intro n t
  constructor
  · intro member
    obtain ⟨b, before, after, derives⟩ := (Rules.mem_followSets proper).1 member
    exact ⟨b, proper.rewritten_lt derives, before, after, derives⟩
  · intro ⟨b, _, before, after, derives⟩
    exact (Rules.mem_followSets proper).2 ⟨b, before, after, derives⟩

theorem followSets_exact_looping : ∃ frozen,
    (Grammar.assemble "$" looping).freeze = .ok frozen ∧
    (FirstFollow.ofRules frozen.rules).followOf 2 = IdSet.ofList [0, 1] ∧
    (FirstFollow.ofRules frozen.rules).firstOf 2 = ∅ ∧
    ∃ b < frozen.rules.nonterminalCount, ∃ before after,
      Relation.TransGen (Rewrites frozen.rules.productions) [.nonterminal b]
        (before ++ .nonterminal 2 :: .terminal 0 :: after) := by
  obtain ⟨frozen, froze, follow, first⟩ : ∃ frozen,
      (Grammar.assemble "$" looping).freeze = .ok frozen ∧
      (FirstFollow.ofRules frozen.rules).followOf 2 = IdSet.ofList [0, 1] ∧
      (FirstFollow.ofRules frozen.rules).firstOf 2 = ∅ :=
    exists_ok (by decide +kernel)
  obtain ⟨_, exact⟩ := followSets_exact froze
  exact ⟨frozen, froze, follow, first, (exact 2 0).1 (by simp [follow])⟩

end CanonicalLR
