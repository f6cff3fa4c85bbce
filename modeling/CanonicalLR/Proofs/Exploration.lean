import CanonicalLR.Automaton
import CanonicalLR.Proofs.Interning
import CanonicalLR.Proofs.Prediction
/-
The search for states. Each row that is entered lists the relevant symbols of its state with the
states they lead to, no round forgets a state, and a search with as many rounds as there can be
states leaves none waiting.
-/
namespace CanonicalLR

def Rules.Inherited (rules : Rules) (sets : FirstFollow) (P : ItemMap → Prop) : Prop :=
  ∀ map symbol, P map → symbol ∈ rules.relevantSymbols map.items → P (rules.goto sets map symbol)

theorem Rules.successors_symbols (rules : Rules) (sets : FirstFollow) (map : ItemMap) :
    (rules.successors sets map).map Prod.fst = rules.relevantSymbols map.items := by
  simp [successors, Function.comp_def]

theorem Rules.successors_maps (rules : Rules) (sets : FirstFollow) (map : ItemMap) :
    (rules.successors sets map).map Prod.snd =
      (rules.relevantSymbols map.items).map (rules.goto sets map) := by
  simp [successors]

namespace Exploration

/-- All rows entered so far are right, and all maps met so far have the property `P`. -/
structure Expanded (rules : Rules) (sets : FirstFollow) (P : ItemMap → Prop)
    (exploration : Exploration) : Prop where
  faithful : exploration.states.Faithful
  ahead : exploration.steps.size ≤ exploration.states.size
  good {s : Nat} {map : ItemMap} : exploration.states.get? s = some map → P map
  row {s : Nat} {row : List (Symbol Nat × Nat)} : exploration.steps[s]? = some row →
    ∃ map, exploration.states.get? s = some map ∧
      row.map Prod.fst = rules.relevantSymbols map.items ∧
      ∀ step ∈ row, exploration.states.get? step.2 = some (rules.goto sets map step.1)

variable {rules : Rules} {sets : FirstFollow} {P : ItemMap → Prop} {exploration : Exploration}

theorem record_extends (exploration : Exploration) (successors : List (Symbol Nat × ItemMap)) :
    exploration.states.Extends (exploration.record successors).states :=
  Interner.internAll_extends _ _

theorem record_steps (exploration : Exploration) (successors : List (Symbol Nat × ItemMap)) :
    (exploration.record successors).steps.size = exploration.steps.size + 1 := by
  simp [record]

theorem record_targets (faithful : exploration.states.Faithful) (map : ItemMap)
    {step : Symbol Nat × Nat}
    (member : step ∈ ((rules.successors sets map).map Prod.fst).zip
      (exploration.states.internAll ((rules.successors sets map).map Prod.snd)).1) :
    (exploration.record (rules.successors sets map)).states.get? step.2 =
      some (rules.goto sets map step.1) := by
  have ids := Interner.internAll_ids faithful ((rules.successors sets map).map Prod.snd)
  rw [rules.successors_symbols] at member
  rw [rules.successors_maps, List.forall₂_map_right_iff, ← rules.successors_maps] at ids
  exact List.forall₂_zip ids.flip member

theorem record_expanded (inv : exploration.Expanded rules sets P)
    (inherited : rules.Inherited sets P)
    {map : ItemMap} (waiting : exploration.states.get? exploration.steps.size = some map) :
    (exploration.record (rules.successors sets map)).Expanded rules sets P := by
  have grown := record_extends exploration (rules.successors sets map)
  constructor
  · exact Interner.internAll_faithful inv.faithful _
  · have before := Interner.get?_lt (grown waiting)
    rw [record_steps]
    omega
  · intro s other found
    rcases Interner.get?_internAll_cases found with new | old
    · rw [rules.successors_maps, List.mem_map] at new
      obtain ⟨symbol, member, rfl⟩ := new
      exact inherited map symbol (inv.good waiting) member
    · exact inv.good old
  · intro s row found
    have pushed : (exploration.record (rules.successors sets map)).steps[s]? =
        if s = exploration.steps.size then some (((rules.successors sets map).map Prod.fst).zip
          (exploration.states.internAll ((rules.successors sets map).map Prod.snd)).1)
        else exploration.steps[s]? := Array.getElem?_push
    rw [pushed] at found
    split at found
    · rename_i last
      obtain rfl := Option.some.inj found
      refine ⟨map, grown (last ▸ waiting), ?_, ?_⟩
      · have ids := Interner.internAll_ids inv.faithful ((rules.successors sets map).map Prod.snd)
        have lengths := ids.length_eq
        rw [List.map_fst_zip (by simp_all), rules.successors_symbols]
      · intro step member
        exact record_targets inv.faithful map member
    · obtain ⟨old, stored, symbols, targets⟩ := inv.row found
      exact ⟨old, grown stored, symbols, fun step member => grown (targets step member)⟩

theorem foldl_record_expanded
    (inherited : rules.Inherited sets P)
    (maps : List ItemMap) (inv : exploration.Expanded rules sets P)
    (waiting : ∀ k map, maps[k]? = some map →
      exploration.states.get? (exploration.steps.size + k) = some map) :
    ((maps.map (rules.successors sets)).foldl record exploration).Expanded rules sets P ∧
      ((maps.map (rules.successors sets)).foldl record exploration).steps.size =
        exploration.steps.size + maps.length ∧
      exploration.states.Extends
        ((maps.map (rules.successors sets)).foldl record exploration).states := by
  induction maps generalizing exploration with
  | nil => exact ⟨inv, rfl, Interner.Extends.refl _⟩
  | cons map rest ih =>
    have first : exploration.states.get? exploration.steps.size = some map := waiting 0 map rfl
    have grown := record_extends exploration (rules.successors sets map)
    have count := record_steps exploration (rules.successors sets map)
    obtain ⟨expanded, steps, extended⟩ := ih (record_expanded inv inherited first) (by
      intro k other found
      rw [count, Nat.add_assoc, Nat.add_comm 1 k]
      exact grown (waiting (k + 1) other found))
    refine ⟨expanded, ?_, grown.trans extended⟩
    simp only [List.map_cons, List.foldl_cons, List.length_cons, steps, count]
    omega

theorem frontier_getElem? (k : Nat) :
    exploration.frontier[k]? = exploration.states.get? (exploration.steps.size + k) := by
  simp [frontier, Interner.get?]

theorem length_frontier :
    exploration.frontier.length = exploration.states.size - exploration.steps.size := by
  simp [frontier, Interner.size]

end Exploration

namespace Rules

open Exploration

variable {rules : Rules} {sets : FirstFollow} {P : ItemMap → Prop}

theorem exploreRound_expanded (construction : Construction)
    (inherited : rules.Inherited sets P)
    {exploration : Exploration} (inv : exploration.Expanded rules sets P) :
    (rules.exploreRound sets construction exploration).Expanded rules sets P ∧
      (rules.exploreRound sets construction exploration).steps.size = exploration.states.size ∧
      exploration.states.Extends (rules.exploreRound sets construction exploration).states := by
  unfold exploreRound
  rw [Construction.map_eq]
  obtain ⟨expanded, steps, extended⟩ := foldl_record_expanded inherited exploration.frontier inv (by
    intro k map found
    rwa [frontier_getElem?] at found)
  refine ⟨expanded, ?_, extended⟩
  have ahead := inv.ahead
  rw [steps, length_frontier]
  omega

theorem explore_expanded (construction : Construction)
    (inherited : rules.Inherited sets P)
    (bound : Nat) {exploration : Exploration} (inv : exploration.Expanded rules sets P) :
    (rules.explore sets construction bound exploration).Expanded rules sets P ∧
      exploration.states.Extends (rules.explore sets construction bound exploration).states := by
  induction bound generalizing exploration with
  | zero => exact ⟨inv, Interner.Extends.refl _⟩
  | succ bound ih =>
    simp only [explore]
    split
    · exact ⟨inv, Interner.Extends.refl _⟩
    · obtain ⟨round, _, grown⟩ := exploreRound_expanded construction inherited inv
      obtain ⟨expanded, extended⟩ := ih round
      exact ⟨expanded, grown.trans extended⟩

/-- Each round that finds a state waiting expands one more, so no more rounds are needed than there
can be states. -/
theorem explore_complete (construction : Construction)
    (inherited : rules.Inherited sets P)
    {limit : Nat}
    (limited : ∀ exploration : Exploration, exploration.Expanded rules sets P →
      exploration.states.size ≤ limit)
    (bound : Nat) {exploration : Exploration} (inv : exploration.Expanded rules sets P)
    (enough : limit ≤ bound + exploration.steps.size) :
    (rules.explore sets construction bound exploration).steps.size =
      (rules.explore sets construction bound exploration).states.size := by
  induction bound generalizing exploration with
  | zero =>
    have few := limited exploration inv
    have ahead := inv.ahead
    simp only [explore]
    omega
  | succ bound ih =>
    simp only [explore]
    have ahead := inv.ahead
    have waiting : exploration.frontier.length = _ := length_frontier
    split
    · rename_i none
      have empty := List.isEmpty_iff_length_eq_zero.1 none
      omega
    · rename_i some
      have nonempty : exploration.frontier.length ≠ 0 := by
        intro zero
        exact some (List.isEmpty_iff_length_eq_zero.2 zero)
      obtain ⟨round, steps, _⟩ := exploreRound_expanded construction inherited inv
      apply ih round
      omega

end Rules

end CanonicalLR
