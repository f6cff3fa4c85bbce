import CanonicalLR.Proofs.Canonicity
import CanonicalLR.Proofs.HashConsing
import CanonicalLR.Proofs.Layout
import CanonicalLR.Proofs.Rounds
/-
How states and edges are numbered. The edges come sorted by source and symbol, their targets occur
for the first time in ascending order, and every state but the start is first reached from a state
with a smaller number: the numbering is that of a breadth-first search.
-/
namespace CanonicalLR

def edgesOf (rows : List (List (Symbol Nat × Nat))) : List Edge :=
  (numbered 0 rows).map fun entry => ⟨entry.1, entry.2.1, entry.2.2⟩

theorem Automaton.edges_eq (automaton : Automaton) :
    automaton.edges = edgesOf automaton.steps.toList := by
  simp [edges, edgesOf, numbered, List.map_flatMap, Function.comp_def]

theorem edgesOf_concat (rows : List (List (Symbol Nat × Nat))) (row : List (Symbol Nat × Nat)) :
    edgesOf (rows ++ [row]) =
      edgesOf rows ++ row.map fun step => ⟨rows.length, step.1, step.2⟩ := by
  simp [edgesOf, numbered, List.zipIdx_append, Function.comp_def]

theorem edgesOf_source_lt {rows : List (List (Symbol Nat × Nat))} {edge : Edge}
    (member : edge ∈ edgesOf rows) : edge.source < rows.length := by
  obtain ⟨entry, listed, rfl⟩ := List.mem_map.1 member
  obtain ⟨row, stored, inside⟩ := List.mem_flatMap.1 listed
  obtain ⟨_, _, rfl⟩ := List.mem_map.1 inside
  simpa using List.snd_lt_of_mem_zipIdx stored

namespace Exploration

def targets (exploration : Exploration) : List Nat :=
  0 :: (edgesOf exploration.steps.toList).map Edge.target

/-- States are numbered as the steps reach them, and each was reached before it was expanded. -/
structure Charted (exploration : Exploration) : Prop where
  counts : Counts exploration.targets exploration.states.size
  reached {s : Nat} : s < exploration.steps.size → s ≠ 0 →
    ∃ edge ∈ edgesOf exploration.steps.toList, edge.target = s ∧ edge.source < s

variable {exploration : Exploration}

theorem record_edges (exploration : Exploration) (successors : List (Symbol Nat × ItemMap)) :
    edgesOf (exploration.record successors).steps.toList =
      edgesOf exploration.steps.toList ++
        ((successors.map Prod.fst).zip
          (exploration.states.internAll (successors.map Prod.snd)).1).map fun step =>
            ⟨exploration.steps.size, step.1, step.2⟩ := by
  simp [record, edgesOf_concat]

theorem record_targets_eq (exploration : Exploration)
    (successors : List (Symbol Nat × ItemMap)) :
    (exploration.record successors).targets = exploration.targets ++
      (exploration.states.internAll (successors.map Prod.snd)).1 := by
  have lengths := exploration.states.internAll_length (successors.map Prod.snd)
  unfold targets
  rw [record_edges, List.map_append, List.map_map, List.cons_append]
  congr 2
  exact List.map_snd_zip (by simp [lengths])

theorem Charted.record (charted : exploration.Charted)
    (waiting : exploration.steps.size < exploration.states.size)
    (successors : List (Symbol Nat × ItemMap)) : (exploration.record successors).Charted := by
  constructor
  · rw [record_targets_eq]
    exact Interner.internAll_counts charted.counts _
  · intro s expanded later
    rw [record_steps] at expanded
    rw [record_edges]
    by_cases last : s = exploration.steps.size
    · subst last
      have listed := charted.counts.mem_iff.2 waiting
      rcases List.mem_cons.1 listed with first | member
      · exact absurd first later
      · obtain ⟨edge, inside, target⟩ := List.mem_map.1 member
        refine ⟨edge, List.mem_append_left _ inside, target, ?_⟩
        simpa using edgesOf_source_lt inside
    · obtain ⟨edge, inside, known⟩ := charted.reached (by omega) later
      exact ⟨edge, List.mem_append_left _ inside, known⟩

end Exploration

namespace Rules

open Exploration

variable {rules : Rules} {sets : FirstFollow} {P : ItemMap → Prop} {exploration : Exploration}

theorem foldl_record_charted (inherited : rules.Inherited sets P)
    (maps : List ItemMap) (inv : exploration.Expanded rules sets P)
    (charted : exploration.Charted)
    (waiting : ∀ k map, maps[k]? = some map →
      exploration.states.get? (exploration.steps.size + k) = some map) :
    ((maps.map (rules.successors sets)).foldl record exploration).Charted := by
  induction maps generalizing exploration with
  | nil => exact charted
  | cons map rest ih =>
    have first : exploration.states.get? exploration.steps.size = some map := waiting 0 map rfl
    apply ih (record_expanded inv inherited first) (charted.record (Interner.get?_lt first) _)
    intro k other found
    rw [record_steps, Nat.add_assoc, Nat.add_comm 1 k]
    exact record_extends exploration _ (waiting (k + 1) other found)

theorem exploreRound_charted (construction : Construction) (inherited : rules.Inherited sets P)
    (inv : exploration.Expanded rules sets P) (charted : exploration.Charted) :
    (rules.exploreRound sets construction exploration).Charted := by
  unfold exploreRound
  rw [Construction.map_eq]
  apply foldl_record_charted inherited _ inv charted
  intro k map found
  rwa [frontier_getElem?] at found

theorem explore_charted (construction : Construction) (inherited : rules.Inherited sets P)
    (bound : Nat) (inv : exploration.Expanded rules sets P) (charted : exploration.Charted) :
    (rules.explore sets construction bound exploration).Charted := by
  induction bound generalizing exploration with
  | zero => exact charted
  | succ bound ih =>
    simp only [explore]
    split
    · exact charted
    · exact ih (exploreRound_expanded construction inherited inv).1
        (exploreRound_charted construction inherited inv charted)

theorem beginning_charted (rules : Rules) (sets : FirstFollow) :
    (rules.beginning sets).Charted := by
  have empty : Counts [] (Interner.empty : Interner ItemMap Nat).size := rfl
  constructor
  · exact Interner.intern_counts empty (rules.closure sets rules.seed)
  · intro s expanded
    exact absurd expanded (Nat.not_lt_zero s)

end Rules

def Edge.Before (a b : Edge) : Prop :=
  a.source < b.source ∨ a.source = b.source ∧ a.symbol < b.symbol

structure Automaton.BreadthFirst (automaton : Automaton) : Prop where
  start : automaton.start = 0
  sorted : automaton.edges.Pairwise Edge.Before
  firsts : (automaton.start :: automaton.edges.map Edge.target).eraseDups =
    List.range automaton.stateCount
  nearer {s : Nat} : s < automaton.stateCount → s ≠ automaton.start →
    ∃ before edge after, automaton.edges = before ++ edge :: after ∧ edge.target = s ∧
      edge.source < s ∧ s ∉ before.map Edge.target

theorem edgesOf_sorted {rows : List (List (Symbol Nat × Nat))}
    (ascending : ∀ row ∈ rows, Ascending (row.map Prod.fst)) :
    (edgesOf rows).Pairwise Edge.Before := by
  induction rows using List.reverseRecOn with
  | nil => exact List.Pairwise.nil
  | append_singleton rows row ih =>
    rw [edgesOf_concat, List.pairwise_append]
    refine ⟨ih fun other member => ascending other (List.mem_append_left _ member), ?_, ?_⟩
    · have own := List.pairwise_map.1 (ascending row (by simp))
      exact List.pairwise_map.2 (own.imp fun before => Or.inr ⟨rfl, before⟩)
    · intro edge old other new
      obtain ⟨step, _, rfl⟩ := List.mem_map.1 new
      exact Or.inl (edgesOf_source_lt old)

/-- Of sorted edges into one state the first comes from the nearest source. -/
theorem first_edge {edges : List Edge} (sorted : edges.Pairwise Edge.Before) {edge : Edge}
    (member : edge ∈ edges) :
    ∃ before first after, edges = before ++ first :: after ∧ first.target = edge.target ∧
      first.source ≤ edge.source ∧ edge.target ∉ before.map Edge.target := by
  induction edges with
  | nil => contradiction
  | cons head rest ih =>
    obtain ⟨ahead, tail⟩ := List.pairwise_cons.1 sorted
    by_cases same : head.target = edge.target
    · refine ⟨[], head, rest, rfl, same, ?_, by simp⟩
      rcases List.mem_cons.1 member with rfl | later
      · exact Nat.le_refl _
      · rcases ahead edge later with less | ⟨equal, _⟩ <;> omega
    · rcases List.mem_cons.1 member with rfl | later
      · exact absurd rfl same
      · obtain ⟨before, first, after, split, target, source, absent⟩ := ih tail later
        refine ⟨head :: before, first, after, by rw [split]; rfl, target, source, ?_⟩
        simp [absent, Ne.symm same]

theorem Rules.Collects.edges_sorted {rules : Rules} {automaton : Automaton}
    (collects : rules.Collects automaton) : automaton.edges.Pairwise Edge.Before := by
  rw [Automaton.edges_eq]
  apply edgesOf_sorted
  intro row member
  obtain ⟨s, found⟩ := List.mem_iff_getElem?.1 member
  rw [Array.getElem?_toList] at found
  have inside : s < automaton.states.size :=
    collects.rows ▸ (Array.getElem?_eq_some_iff.1 found).1
  obtain ⟨stored, same, symbols, _⟩ := collects.row (Array.getElem?_eq_getElem inside)
  obtain rfl : row = stored := Option.some.inj (found.symm.trans same)
  rw [symbols]
  exact relevantSymbols_ascending _

theorem Rules.Proper.breadthFirst {rules : Rules} (proper : rules.Proper)
    (construction : Construction) :
    (rules.automaton (FirstFollow.ofRules rules) construction).BreadthFirst := by
  have collects := proper.collects construction
  have charted : (rules.explore (FirstFollow.ofRules rules) construction rules.stateBound
      (rules.beginning (FirstFollow.ofRules rules))).Charted :=
    Rules.explore_charted construction proper.within_inherited _
      (Rules.expanded_seed (proper.closure_within proper.seed_within))
      (rules.beginning_charted (FirstFollow.ofRules rules))
  have start : (rules.automaton (FirstFollow.ofRules rules) construction).start = 0 := by
    rw [Rules.automaton, Interner.intern_empty]
  have edges := (rules.automaton (FirstFollow.ofRules rules) construction).edges_eq
  constructor
  · exact start
  · exact collects.edges_sorted
  · rw [start, edges]
    exact charted.counts
  · intro s inside later
    rw [start] at later
    obtain ⟨edge, listed, rfl, less⟩ := charted.reached (collects.rows.symm ▸ inside) later
    obtain ⟨before, first, after, split, target, nearest, absent⟩ :=
      first_edge collects.edges_sorted (edges ▸ listed)
    exact ⟨before, first, after, split, target, by omega, absent⟩

end CanonicalLR
