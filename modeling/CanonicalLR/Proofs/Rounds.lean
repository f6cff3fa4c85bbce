import CanonicalLR.Proofs.Outcomes
import CanonicalLR.Proofs.Sweeps
/-
The loops of the construction, without the bounds that the definitions put on them. Each comes to an
end by itself, and what it has reached by then is what the definitions compute; so no bound ever
cuts a loop short, and a grammar with a start symbol always gets its parser or its conflict.
-/
namespace CanonicalLR

namespace Rules

variable {rules : Rules}

def beginning (rules : Rules) (sets : FirstFollow) : Exploration :=
  ⟨((Interner.empty : Interner ItemMap Nat).intern (rules.closure sets rules.seed)).table, #[]⟩

theorem Proper.search_ends (proper : rules.Proper) (construction : Construction) :
    ∃ n found, n ≤ rules.stateBound ∧
      Ends (fun exploration => exploration.frontier = [])
        (rules.exploreRound (FirstFollow.ofRules rules) construction)
        (rules.beginning (FirstFollow.ofRules rules)) n found ∧
      (rules.automaton (FirstFollow.ofRules rules) construction).states = found.states.values ∧
      (rules.automaton (FirstFollow.ofRules rules) construction).steps = found.steps := by
  have first := expanded_seed (proper.closure_within proper.seed_within)
  have complete := explore_complete construction proper.within_inherited
    (fun _ => states_le_stateBound) rules.stateBound first (Nat.le_add_right _ _)
  have none : (rules.explore (FirstFollow.ofRules rules) construction rules.stateBound
      (rules.beginning (FirstFollow.ofRules rules))).frontier = [] := by
    apply List.eq_nil_of_length_eq_zero
    rw [Exploration.length_frontier, beginning, complete, Nat.sub_self]
  obtain ⟨n, few, ends⟩ := ends_of_halted (fun exploration => exploration.frontier = [])
    (rules.exploreRound (FirstFollow.ofRules rules) construction)
    (rules.explore (FirstFollow.ofRules rules) construction) (fun _ => rfl)
    (fun bound exploration empty => by simp [explore, empty])
    (fun bound exploration waiting => by simp [explore, waiting]) none
  exact ⟨n, _, few, ends, rfl, rfl⟩

/-- All loops of the construction end by themselves, with the values that the definitions give. The
sets are reached in rounds and by sweeps in place. -/
structure Finishes (rules : Rules) (construction : Construction) : Prop where
  nullable : RestsWithin rules.nullableRound (rules.nonterminalCount + 1) ∅ rules.nullableSet ∧
    RestsWithin rules.nullableSweep (rules.nonterminalCount + 1) ∅ rules.nullableSet
  first : RestsWithin (rules.firstRound rules.nullableSet)
      (rules.nonterminalCount * rules.terminalCount + 1) rules.noTerminals
      (rules.firstSets rules.nullableSet) ∧
    RestsWithin (rules.firstSweep rules.nullableSet)
      (rules.nonterminalCount * rules.terminalCount + 1) rules.noTerminals
      (rules.firstSets rules.nullableSet)
  follow : RestsWithin (rules.followRound rules.nullableSet (rules.firstSets rules.nullableSet))
      (rules.nonterminalCount * rules.terminalCount + 1) rules.noTerminals
      (rules.followSets rules.nullableSet (rules.firstSets rules.nullableSet)) ∧
    RestsWithin (rules.followSweep rules.nullableSet (rules.firstSets rules.nullableSet))
      (rules.nonterminalCount * rules.terminalCount + 1) rules.noTerminals
      (rules.followSets rules.nullableSet (rules.firstSets rules.nullableSet))
  closure (map : ItemMap) : RestsWithin (rules.predictRound (FirstFollow.ofRules rules))
    (rules.closureBound map) map (rules.closure (FirstFollow.ofRules rules) map)
  search : ∃ n found, n ≤ rules.stateBound ∧
    Ends (fun exploration => exploration.frontier = [])
      (rules.exploreRound (FirstFollow.ofRules rules) construction)
      (rules.beginning (FirstFollow.ofRules rules)) n found ∧
    (rules.automaton (FirstFollow.ofRules rules) construction).states = found.states.values ∧
    (rules.automaton (FirstFollow.ofRules rules) construction).steps = found.steps

theorem Proper.finishes (proper : rules.Proper) (construction : Construction) :
    rules.Finishes construction := by
  constructor
  · exact ⟨restsWithin_of_fixed (nullableSet_fixed proper), nullableSweep_rests proper⟩
  · exact ⟨restsWithin_of_fixed (firstSets_fixed proper), firstSweep_rests proper⟩
  · exact ⟨restsWithin_of_fixed (followSets_fixed proper), followSweep_rests proper⟩
  · intro map
    exact restsWithin_of_fixed (closure_fixed proper map)
  · exact proper.search_ends construction

end Rules

variable {τ υ : Type} [DecidableEq τ] [Fingerprint τ] [Spelling τ]

/-- Recursion on both sides and behind a non-terminal that vanishes, a cycle that consumes nothing,
and a non-terminal without productions. -/
def looping : List (Registration String Nat) :=
  [.nonterminal "S", .nonterminal "E", .nonterminal "N",
    .production 0 [.nonterminal 0] fun _ => 0,
    .production 0 [.nonterminal 0, .terminal "x", .nonterminal 0] fun _ => 0,
    .production 0 [.nonterminal 1, .nonterminal 0, .nonterminal 2] fun _ => 0,
    .production 0 [] fun _ => 0,
    .production 1 [] fun _ => 0]

/-- For every grammar with a start symbol all loops of the construction end, and a build gives a
parser or a report of a conflict, unless it has no pool to begin with. -/
theorem construction_ends (eof : τ) (calls : List (Registration τ υ)) (start : Nat)
    (host : Host) (strategy : Strategy)
    (declared : (Grammar.assemble eof calls).start = some start) :
    (∀ construction, ((Grammar.assemble eof calls).rulesFrom start).Finishes construction) ∧
      ((∃ parser, (Grammar.assemble eof calls).build host strategy = .ok parser) ∨
        (∃ report,
          (Grammar.assemble eof calls).build host strategy = .error (.conflict report)) ∨
        ∃ reasons, strategy.launch host = .error reasons ∧
          (Grammar.assemble eof calls).build host strategy = .error (.workerPool reasons)) := by
  have wf := Grammar.assemble_wellFormed eof calls
  constructor
  · exact (Grammar.rulesFrom_proper wf declared).finishes
  · exact Grammar.build_ends wf declared host strategy

theorem construction_ends_looping :
    (Grammar.assemble "$" looping).start = some 0 ∧
      ((Grammar.assemble "$" looping).rulesFrom 0).Finishes .sequential ∧
      ∃ report, (Grammar.assemble "$" looping).build tasks (.parallel (some 2)) =
        .error (.conflict report) := by
  have declared : (Grammar.assemble "$" looping).start = some 0 := by decide +kernel
  have failed : ((Grammar.assemble "$" looping).build tasks
      (.parallel (some 2))).toOption.isNone = true := by
    decide +kernel
  obtain ⟨finishes, ⟨parser, built⟩ | refused | ⟨reasons, missing, _⟩⟩ :=
    construction_ends "$" looping 0 tasks (.parallel (some 2)) declared
  · simp [built, Except.toOption] at failed
  · exact ⟨declared, finishes .sequential, refused⟩
  · have starts : (Strategy.parallel (some 2)).Starts tasks := ⟨_, rfl⟩
    exact absurd missing (starts.launch_ne reasons)

end CanonicalLR
