import CanonicalLR.Proofs.Arena
/-
The search with everything it keeps, and with a frontier of ids instead of item maps. Under any
fingerprints, and in any order in which the states of a frontier are expanded, it ends with the
numbering, the edges and the table of the collection.
-/
namespace CanonicalLR

abbrev Transitions := List ((Nat × Symbol Nat) × Nat)

/-- What has been entered, and the targets met on the way, one for each step of the round. -/
structure Ledger where
  arena : Arena
  transitions : Transitions
  discovered : List Nat

structure Survey where
  start : Nat
  arena : Arena
  transitions : Transitions
  visited : IdSet
  frontier : List Nat

abbrev Executor :=
  (Nat → List (Symbol Nat × ItemMap)) → List Nat → List (List (Symbol Nat × ItemMap))

def Executor.Ordered (executor : Executor) : Prop :=
  ∀ expand frontier, executor expand frontier = frontier.map expand

/-- Expands the states of a frontier in an order of its own, and puts each result into the place of
its state. -/
def Executor.scheduled (order : Nat → List Nat) : Executor := fun expand frontier =>
  ((order frontier.length).foldl
    (fun places i => places.set i (frontier[i]?.map expand))
    (List.replicate frontier.length none)).reduceOption

def nextFrontier (visited : IdSet) (queued : List Nat) : List Nat → List Nat
  | [] => []
  | state :: rest =>
    if state ∈ visited ∨ state ∈ queued then nextFrontier visited queued rest
    else state :: nextFrontier visited (state :: queued) rest

section Search

variable [Fingerprint (Item × TerminalSet)] [Fingerprint (List Nat)] [Fingerprint Edge]

namespace Ledger

def enter (source : Nat) (ledger : Ledger) (successor : Symbol Nat × ItemMap) : Ledger :=
  let (target, arena) := ledger.arena.internState successor.2
  ⟨arena.internEdge ⟨source, successor.1, target⟩,
    ((source, successor.1), target) :: ledger.transitions, ledger.discovered ++ [target]⟩

def enterRow (ledger : Ledger) (row : Nat × List (Symbol Nat × ItemMap)) : Ledger :=
  row.2.foldl (enter row.1) ledger

end Ledger

namespace Rules

variable (rules : Rules) (sets : FirstFollow)

def surveyRound (executor : Executor) (survey : Survey) : Survey :=
  let expanded := executor (fun state => rules.successors sets (survey.arena.map state))
    survey.frontier
  let ledger := (survey.frontier.zip expanded).foldl Ledger.enterRow
    ⟨survey.arena, survey.transitions, []⟩
  let visited := survey.frontier.foldl IdSet.insert survey.visited
  ⟨survey.start, ledger.arena, ledger.transitions, visited,
    nextFrontier visited [] ledger.discovered⟩

def surveyStart : Survey :=
  let (start, arena) := Arena.empty.internState (rules.closure sets rules.seed)
  ⟨start, arena, [], ∅, [start]⟩

end Rules

end Search

namespace Survey

def edges (survey : Survey) : List Edge := survey.arena.edges.values.toList

def transition (survey : Survey) (state : Nat) (symbol : Symbol Nat) : Option Nat :=
  survey.transitions.lookup (state, symbol)

def automaton (survey : Survey) : Automaton :=
  let count := survey.arena.states.size
  ⟨((List.range count).map survey.arena.map).toArray, survey.start,
    ((List.range count).map fun state =>
      rowOf state (survey.edges.map fun edge => (edge.source, edge.symbol, edge.target))).toArray⟩

end Survey

theorem foldl_set_getElem? {α : Type} (results : List α) (order : List Nat)
    {places : List (Option α)} (sizes : places.length = results.length) (k : Nat) :
    (order.foldl (fun places i => places.set i results[i]?) places)[k]? =
      if k ∈ order then (results.map some)[k]? else places[k]? := by
  induction order generalizing places with
  | nil => simp
  | cons i rest ih =>
    rw [List.foldl_cons, ih (by rw [List.length_set, sizes]), List.getElem?_set, sizes]
    by_cases later : k ∈ rest
    · rw [if_pos later, if_pos (List.mem_cons_of_mem i later)]
    · by_cases now : i = k
      · subst now
        rw [if_neg later, if_pos List.mem_cons_self, if_pos rfl, List.getElem?_map]
        by_cases inside : i < results.length <;> simp [inside]
      · have never : k ∉ i :: rest := by simp [later, Ne.symm now]
        rw [if_neg later, if_neg never, if_neg now]

theorem Executor.scheduled_ordered {order : Nat → List Nat}
    (complete : ∀ count i, i < count → i ∈ order count) : (scheduled order).Ordered := by
  intro expand frontier
  unfold scheduled
  have filled : (order frontier.length).foldl
      (fun places i => places.set i (frontier[i]?.map expand))
      (List.replicate frontier.length none) = (frontier.map expand).map some := by
    simp only [← List.getElem?_map]
    apply List.ext_getElem?
    intro k
    rw [foldl_set_getElem? _ _ (by simp)]
    by_cases inside : k < frontier.length
    · rw [if_pos (complete _ k inside)]
    · have outside : frontier.length ≤ k := Nat.le_of_not_lt inside
      simp [outside]
  rw [filled]
  change ((frontier.map expand).map some).filterMap id = frontier.map expand
  rw [List.filterMap_map]
  exact List.filterMap_some

theorem nextFrontier_eq (visited : IdSet) (queued states : List Nat) :
    nextFrontier visited queued states =
      (states.filter fun state => decide (state ∉ visited ∧ state ∉ queued)).eraseDups := by
  induction states generalizing queued with
  | nil => rfl
  | cons state rest ih =>
    unfold nextFrontier
    by_cases known : state ∈ visited ∨ state ∈ queued
    · have dropped : ¬ (state ∉ visited ∧ state ∉ queued) := by tauto
      rw [if_pos known, ih, List.filter_cons_of_neg (by simpa using dropped)]
    · have kept : state ∉ visited ∧ state ∉ queued := not_or.1 known
      rw [if_neg known, ih, List.filter_cons_of_pos (by simpa using kept), List.eraseDups_cons,
        List.filter_filter]
      congr 3
      funext other
      by_cases same : other = state <;> simp [same]

section Refinement

variable [Fingerprint (Item × TerminalSet)] [Fingerprint (List Nat)] [Fingerprint Edge]

def Edge.transition (edge : Edge) : (Nat × Symbol Nat) × Nat :=
  ((edge.source, edge.symbol), edge.target)

structure Ledger.Agrees (ledger : Ledger) (known : List Nat) (states : Interner ItemMap Nat)
    (edges : List Edge) : Prop where
  spells : ledger.arena.Spells states
  filed : ledger.arena.edges.Faithful
  listed : ledger.arena.edges.values.toList = edges
  transitions : ledger.transitions = edges.reverse.map Edge.transition
  discovered : 0 :: edges.map Edge.target = known ++ ledger.discovered

namespace Ledger

variable {ledger : Ledger} {known : List Nat} {states : Interner ItemMap Nat} {edges : List Edge}

theorem Agrees.enter (agrees : ledger.Agrees known states edges) (faithful : states.Faithful)
    (source : Nat) {symbol : Symbol Nat} (map : ItemMap)
    (fresh : ∀ edge ∈ edges, edge.source = source → edge.symbol ≠ symbol) :
    (ledger.enter source (symbol, map)).Agrees known (states.intern map).table
      (edges ++ [⟨source, symbol, (states.intern map).id⟩]) := by
  obtain ⟨target, spells⟩ := agrees.spells.internState faithful map
  have absent : ∀ id, ledger.arena.edges.get? id ≠
      some ⟨source, symbol, (states.intern map).id⟩ := by
    intro id stored
    have member : (⟨source, symbol, (states.intern map).id⟩ : Edge) ∈ edges := by
      rw [← agrees.listed]
      exact List.mem_of_getElem? (by simpa [Interner.get?] using stored)
    exact fresh _ member rfl rfl
  have unfiled : (ledger.arena.internState map).2.edges = ledger.arena.edges := rfl
  unfold Ledger.enter Arena.internEdge
  dsimp only
  rw [target, unfiled, Interner.intern_absent absent]
  constructor
  · exact ⟨spells.entries, spells.states, spells.sizes, spells.spelled⟩
  · exact Interner.push_faithful agrees.filed absent
  · rw [Interner.push_values, agrees.listed]
  · simp [agrees.transitions, Edge.transition]
  · rw [List.map_append, ← List.cons_append, agrees.discovered, List.append_assoc]
    rfl

def rowEdges (source : Nat) (symbols : List (Symbol Nat)) (targets : List Nat) : List Edge :=
  (symbols.zip targets).map fun step => ⟨source, step.1, step.2⟩

theorem Agrees.enterRow (agrees : ledger.Agrees known states edges) (faithful : states.Faithful)
    (source : Nat) (successors : List (Symbol Nat × ItemMap))
    (nodup : (successors.map Prod.fst).Nodup)
    (fresh : ∀ edge ∈ edges, edge.source = source → edge.symbol ∉ successors.map Prod.fst) :
    (ledger.enterRow (source, successors)).Agrees known
      (states.internAll (successors.map Prod.snd)).2
      (edges ++ rowEdges source (successors.map Prod.fst)
        (states.internAll (successors.map Prod.snd)).1) := by
  induction successors generalizing ledger states edges with
  | nil => simpa [Ledger.enterRow, Interner.internAll, rowEdges] using agrees
  | cons successor rest ih =>
    obtain ⟨symbol, map⟩ := successor
    obtain ⟨single, others⟩ := List.nodup_cons.1 nodup
    have first := agrees.enter faithful source map (by
      intro edge member same (equal : edge.symbol = symbol)
      exact fresh edge member same (equal ▸ List.mem_cons_self))
    have later := ih first (Interner.intern_faithful faithful map) others (by
      intro edge member same
      rcases List.mem_append.1 member with old | new
      · exact fun inside => fresh edge old same (List.mem_cons_of_mem symbol inside)
      · obtain rfl := List.mem_singleton.1 new
        exact single)
    simpa [Ledger.enterRow, Interner.internAll, rowEdges] using later

end Ledger

theorem Ledger.Agrees.enterAll {rules : Rules} {sets : FirstFollow} {P : ItemMap → Prop}
    {exploration : Exploration} {ledger : Ledger} {known : List Nat}
    (inherited : rules.Inherited sets P) (maps : List ItemMap)
    (inv : exploration.Expanded rules sets P)
    (agrees : ledger.Agrees known exploration.states (edgesOf exploration.steps.toList))
    (waiting : ∀ k map, maps[k]? = some map →
      exploration.states.get? (exploration.steps.size + k) = some map) :
    (((List.range' exploration.steps.size maps.length).zip
        (maps.map (rules.successors sets))).foldl Ledger.enterRow ledger).Agrees known
      ((maps.map (rules.successors sets)).foldl Exploration.record exploration).states
      (edgesOf ((maps.map (rules.successors sets)).foldl Exploration.record
        exploration).steps.toList) := by
  induction maps generalizing exploration ledger with
  | nil => exact agrees
  | cons map rest ih =>
    have first : exploration.states.get? exploration.steps.size = some map := waiting 0 map rfl
    have row := agrees.enterRow inv.faithful exploration.steps.size (rules.successors sets map)
      (by rw [rules.successors_symbols]; exact Rules.relevantSymbols_nodup map.items) (by
        intro edge member same
        have less := edgesOf_source_lt member
        rw [Array.length_toList] at less
        omega)
    have count := Exploration.record_steps exploration (rules.successors sets map)
    have later := ih (Exploration.record_expanded inv inherited first)
      (by rw [Exploration.record_edges]; exact row) (by
        intro k other found
        rw [count, Nat.add_assoc, Nat.add_comm 1 k]
        exact Exploration.record_extends exploration _ (waiting (k + 1) other found))
    rw [count] at later
    simpa [List.range'_succ] using later

theorem Ledger.Agrees.close {ledger : Ledger} {known : List Nat} {states : Interner ItemMap Nat}
    {edges : List Edge} (agrees : ledger.Agrees known states edges) :
    (⟨ledger.arena, ledger.transitions, []⟩ : Ledger).Agrees (0 :: edges.map Edge.target) states
      edges :=
  ⟨agrees.spells, agrees.filed, agrees.listed, agrees.transitions, (List.append_nil _).symm⟩

/-- The survey stands where the exploration stands. -/
structure Survey.Follows (survey : Survey) (exploration : Exploration) : Prop where
  ledger : (⟨survey.arena, survey.transitions, []⟩ : Ledger).Agrees exploration.targets
    exploration.states (edgesOf exploration.steps.toList)
  start : survey.start = 0
  visited {state : Nat} : state ∈ survey.visited ↔ state < exploration.steps.size
  frontier : survey.frontier = List.range' exploration.steps.size
    (exploration.states.size - exploration.steps.size)

theorem Survey.Follows.frontier_maps {survey : Survey} {exploration : Exploration}
    (follows : survey.Follows exploration) :
    survey.frontier.map survey.arena.map = exploration.frontier := by
  have spells : survey.arena.Spells exploration.states := follows.ledger.spells
  have waiting : survey.frontier =
      (List.range survey.arena.states.size).drop exploration.steps.size := by
    rw [follows.frontier, spells.sizes, List.range_eq_range', List.drop_range', Nat.zero_add,
      Nat.mul_one]
  rw [waiting, List.map_drop, spells.maps_eq]
  rfl

namespace Rules

variable {rules : Rules} {sets : FirstFollow} {executor : Executor} {survey : Survey}
  {exploration : Exploration} {P : ItemMap → Prop}

theorem surveyStart_follows (rules : Rules) (sets : FirstFollow) :
    (rules.surveyStart sets).Follows (rules.beginning sets) := by
  obtain ⟨first, spells⟩ := Arena.empty_spells.internState Interner.empty_faithful
    (rules.closure sets rules.seed)
  have start : (rules.surveyStart sets).start = 0 := by
    rw [Interner.intern_empty] at first
    exact first
  constructor
  · constructor
    · exact spells
    · exact Interner.empty_faithful
    · rfl
    · rfl
    · rfl
  · exact start
  · intro state
    exact ⟨fun member => absurd member (IdSet.not_mem_empty state), fun less =>
      absurd less (Nat.not_lt_zero state)⟩
  · have one : (rules.beginning sets).states.size = 1 := by
      rw [beginning, Interner.intern_empty, Interner.size_push]
      rfl
    have waits : (rules.surveyStart sets).frontier = [(rules.surveyStart sets).start] := rfl
    rw [waits, start, one]
    rfl

theorem surveyRound_follows (ordered : executor.Ordered) (inherited : rules.Inherited sets P)
    (construction : Construction) (inv : exploration.Expanded rules sets P)
    (charted : exploration.Charted) (follows : survey.Follows exploration) :
    (rules.surveyRound sets executor survey).Follows
      (rules.exploreRound sets construction exploration) := by
  have steps := (exploreRound_expanded construction inherited inv).2.1
  have expanded : executor (fun state => rules.successors sets (survey.arena.map state))
      survey.frontier = exploration.frontier.map (rules.successors sets) := by
    rw [ordered, ← follows.frontier_maps, List.map_map]
    rfl
  have waiting : ∀ k map, exploration.frontier[k]? = some map →
      exploration.states.get? (exploration.steps.size + k) = some map := by
    intro k map found
    rwa [Exploration.frontier_getElem?] at found
  have entered := follows.ledger.enterAll inherited exploration.frontier inv waiting
  rw [Exploration.length_frontier, ← follows.frontier, ← expanded] at entered
  have round : (executor (fun state => rules.successors sets (survey.arena.map state))
      survey.frontier).foldl Exploration.record exploration =
        rules.exploreRound sets construction exploration := by
    rw [expanded, exploreRound, Construction.map_eq]
  rw [round] at entered
  have visited : ∀ state, state ∈ survey.frontier.foldl IdSet.insert survey.visited ↔
      state < exploration.states.size := by
    intro state
    have ahead := inv.ahead
    rw [IdSet.mem_foldl_insert, follows.visited, follows.frontier, List.mem_range'_1]
    omega
  constructor
  · exact entered.close
  · exact follows.start
  · intro state
    rw [steps]
    exact visited state
  · rw [steps]
    have counts := (exploreRound_charted construction inherited inv charted).counts
    rw [Exploration.targets, entered.discovered] at counts
    rw [← charted.counts.later counts]
    unfold surveyRound
    dsimp only
    rw [nextFrontier_eq]
    congr 2
    funext state
    simp [visited]

theorem Proper.survey_ends (proper : rules.Proper) (ordered : executor.Ordered)
    (construction : Construction) :
    ∃ n survey found, Ends (fun survey : Survey => survey.frontier = [])
      (rules.surveyRound (FirstFollow.ofRules rules) executor)
      (rules.surveyStart (FirstFollow.ofRules rules)) n survey ∧ survey.Follows found ∧
      (rules.automaton (FirstFollow.ofRules rules) construction).states = found.states.values ∧
      (rules.automaton (FirstFollow.ofRules rules) construction).steps = found.steps := by
  obtain ⟨n, found, _, ends, states, steps⟩ := proper.search_ends construction
  have first := expanded_seed (proper.closure_within proper.seed_within)
  have halts : ∀ (exploration : Exploration) (survey : Survey),
      (survey.Follows exploration ∧
        exploration.Expanded rules (FirstFollow.ofRules rules) rules.Within ∧
        exploration.Charted) → (exploration.frontier = [] ↔ survey.frontier = []) := by
    intro exploration survey ⟨follows, _⟩
    rw [← follows.frontier_maps, List.map_eq_nil_iff]
  obtain ⟨survey, finished, follows, _⟩ := ends.alongside halts (by
      intro exploration survey ⟨follows, inv, charted⟩
      exact ⟨surveyRound_follows ordered proper.within_inherited construction inv charted follows,
        (exploreRound_expanded construction proper.within_inherited inv).1,
        exploreRound_charted construction proper.within_inherited inv charted⟩)
    ⟨rules.surveyStart_follows _, first, rules.beginning_charted _⟩
  exact ⟨n, survey, found, finished, follows, states, steps⟩

end Rules

end Refinement

section Outcome

variable [Fingerprint (Item × TerminalSet)] [Fingerprint (List Nat)] [Fingerprint Edge]
  {rules : Rules} {automaton : Automaton} {survey : Survey} {found : Exploration}

theorem Survey.Follows.edges_eq (follows : survey.Follows found)
    (steps : automaton.steps = found.steps) : survey.edges = automaton.edges := by
  rw [Automaton.edges_eq, steps]
  exact follows.ledger.listed

theorem Survey.Follows.automaton_eq (follows : survey.Follows found)
    (collects : rules.Collects automaton) (start : automaton.start = 0)
    (states : automaton.states = found.states.values) (steps : automaton.steps = found.steps) :
    survey.automaton = automaton := by
  have spells : survey.arena.Spells found.states := follows.ledger.spells
  have count : survey.arena.states.size = automaton.steps.size := by
    rw [collects.rows, states, spells.sizes]
    rfl
  have numbers : survey.edges.map (fun edge => (edge.source, edge.symbol, edge.target)) =
      numbered 0 automaton.steps.toList := by
    rw [follows.edges_eq steps, Automaton.edges_eq]
    simp [edgesOf, Function.comp_def]
  have rows : (List.range survey.arena.states.size).map (fun state =>
      rowOf state (numbered 0 automaton.steps.toList)) = automaton.steps.toList := by
    apply List.ext_getElem
    · simpa using count
    · intro s inside _
      rw [List.length_map, List.length_range, count] at inside
      have row := rowOf_numbered automaton.steps.toList 0 s
      rw [Nat.zero_add] at row
      simp [row, inside]
  unfold Survey.automaton
  dsimp only
  rw [spells.maps_eq, numbers, rows, follows.start, ← start, ← states]

theorem Survey.Follows.transition_eq (follows : survey.Follows found)
    (collects : rules.Collects automaton) (steps : automaton.steps = found.steps) (s : Nat)
    (symbol : Symbol Nat) : survey.transition s symbol = automaton.transition s symbol := by
  have listed : survey.transitions = automaton.edges.reverse.map Edge.transition := by
    rw [Automaton.edges_eq, steps]
    exact follows.ledger.transitions
  have nodup : (survey.transitions.map Prod.fst).Nodup := by
    rw [listed, List.map_map, List.map_reverse, List.nodup_reverse]
    apply List.pairwise_map.2
    refine collects.edges_sorted.imp ?_
    intro a b before same
    obtain ⟨sources, symbols⟩ := Prod.mk.inj same
    rcases before with less | ⟨_, less⟩
    · omega
    · exact Symbol.lt_irrefl (symbols ▸ less)
  apply Option.ext
  intro target
  have edge : (⟨s, symbol, target⟩ : Edge) ∈ automaton.edges ↔
      automaton.transition s symbol = some target := Automaton.mem_edges collects.deterministic
  rw [Survey.transition, lookup_eq_some_iff_mem nodup, listed, ← edge, List.mem_map]
  constructor
  · intro ⟨edge, member, same⟩
    obtain ⟨place, rfl⟩ := Prod.mk.inj same
    obtain ⟨rfl, rfl⟩ := Prod.mk.inj place
    exact List.mem_reverse.1 member
  · intro member
    exact ⟨_, List.mem_reverse.2 member, rfl⟩

def Rules.SurveyedAs (rules : Rules) (executor : Executor) (automaton : Automaton) : Prop :=
  ∃ n survey, Ends (fun survey : Survey => survey.frontier = [])
    (rules.surveyRound (FirstFollow.ofRules rules) executor)
    (rules.surveyStart (FirstFollow.ofRules rules)) n survey ∧
    survey.edges = automaton.edges ∧ survey.automaton = automaton ∧
    (∀ s symbol, survey.transition s symbol = automaton.transition s symbol) ∧
    rules.table survey.automaton = rules.table automaton

theorem Rules.Proper.surveyedAs (proper : rules.Proper) {executor : Executor}
    (ordered : executor.Ordered) (construction : Construction) :
    rules.SurveyedAs executor
      (rules.automaton (FirstFollow.ofRules rules) construction) := by
  obtain ⟨n, survey, found, ends, follows, states, steps⟩ :=
    proper.survey_ends ordered construction
  have collects := proper.collects construction
  have same := follows.automaton_eq collects (proper.breadthFirst construction).start states steps
  exact ⟨n, survey, ends, follows.edges_eq steps, same, follows.transition_eq collects steps,
    by rw [same]⟩

end Outcome

variable {τ υ : Type} [DecidableEq τ] [Fingerprint τ] [Spelling τ] {eof : τ}
  {calls : List (Registration τ υ)} {frozen : FrozenGrammar τ υ}

/-- The rules of a finished grammar have one automaton, numbered breadth first. Every construction
builds it, and so does the search with all its books, whatever the fingerprints and the order in
which the states of a frontier are expanded. -/
theorem numbering_canonical (froze : (Grammar.assemble eof calls).freeze = .ok frozen) :
    ∃ automaton : Automaton, automaton.BreadthFirst ∧
      (∀ construction,
        frozen.rules.automaton (FirstFollow.ofRules frozen.rules) construction = automaton) ∧
      ∀ [Fingerprint (Item × TerminalSet)] [Fingerprint (List Nat)] [Fingerprint Edge]
        (executor : Executor), executor.Ordered → frozen.rules.SurveyedAs executor automaton := by
  have proper := Grammar.freeze_proper froze
  refine ⟨_, proper.breadthFirst .sequential, ?_, ?_⟩
  · intro construction
    exact frozen.rules.automaton_eq_sequential _ construction
  · intro _ _ _ executor ordered
    exact proper.surveyedAs ordered .sequential

/-- All values look alike to the tables here, and each frontier is expanded from its end. -/
theorem numbering_canonical_nested : ∃ frozen,
    (Grammar.assemble "$" nested).freeze = .ok frozen ∧
    (Executor.scheduled fun count => (List.range count).reverse).Ordered ∧
    ∃ automaton : Automaton, automaton.BreadthFirst ∧ automaton.edges.length = 8 ∧
      @Rules.SurveyedAs ⟨fun _ => 0⟩ ⟨fun _ => 0⟩ ⟨fun _ => 0⟩ frozen.rules
        (Executor.scheduled fun count => (List.range count).reverse) automaton := by
  obtain ⟨frozen, froze, edges⟩ : ∃ frozen,
      (Grammar.assemble "$" nested).freeze = .ok frozen ∧
      (frozen.rules.automaton (FirstFollow.ofRules frozen.rules) .sequential).edges.length = 8 :=
    exists_ok (by decide +kernel)
  have ordered : (Executor.scheduled fun count => (List.range count).reverse).Ordered :=
    Executor.scheduled_ordered fun count i inside => by simpa using inside
  obtain ⟨automaton, canonical, same, surveyed⟩ := numbering_canonical froze
  rw [same] at edges
  exact ⟨frozen, froze, ordered, automaton, canonical, edges,
    @surveyed ⟨fun _ => 0⟩ ⟨fun _ => 0⟩ ⟨fun _ => 0⟩ _ ordered⟩

end CanonicalLR
