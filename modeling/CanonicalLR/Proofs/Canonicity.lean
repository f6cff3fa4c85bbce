import CanonicalLR.Proofs.Reachability
import CanonicalLR.Proofs.Soundness
/-
The canonical collection, described without the search that finds it. The first state holds the
closure of the seed, every state is closed and holds a map of its own, steps lead exactly where
`goto` leads, and no state is there that steps do not lead to.
-/
namespace CanonicalLR

theorem stabilize_of_fixed {α : Type} [DecidableEq α] {f : α → α} {a : α} (fixed : f a = a)
    (bound : Nat) : stabilize f bound a = a := by
  cases bound with
  | zero => rfl
  | succ bound => simp only [stabilize, fixed, ↓reduceIte]

namespace Automaton

variable {automaton : Automaton}

def Leads (automaton : Automaton) (s target : Nat) : Prop :=
  ∃ symbol, ⟨s, symbol, target⟩ ∈ automaton.edges

def Deterministic (automaton : Automaton) : Prop :=
  ∀ ⦃s : Nat⦄ ⦃row : List (Symbol Nat × Nat)⦄, automaton.steps[s]? = some row →
    (row.map Prod.fst).Nodup

theorem mem_edges_iff_row {edge : Edge} :
    edge ∈ automaton.edges ↔ ∃ row, automaton.steps[edge.source]? = some row ∧
      (edge.symbol, edge.target) ∈ row := by
  simp only [edges, List.mem_flatMap, List.mem_map, Prod.exists, List.mem_zipIdx_iff_getElem?,
    Array.getElem?_toList]
  constructor
  · intro ⟨row, s, stored, symbol, target, member, same⟩
    subst same
    exact ⟨row, stored, member⟩
  · intro ⟨row, stored, member⟩
    exact ⟨row, edge.source, stored, edge.symbol, edge.target, member, rfl⟩

theorem mem_edges (deterministic : automaton.Deterministic) {edge : Edge} :
    edge ∈ automaton.edges ↔
      automaton.transition edge.source edge.symbol = some edge.target := by
  rw [mem_edges_iff_row]
  constructor
  · intro ⟨row, stored, member⟩
    rw [transition, stepsFrom_eq stored]
    exact (lookup_eq_some_iff_mem (deterministic stored)).2 member
  · intro step
    cases stored : automaton.steps[edge.source]? with
    | none => simp [transition, stepsFrom, Array.getD_eq_getD_getElem?, stored] at step
    | some row =>
      rw [transition, stepsFrom_eq stored] at step
      exact ⟨row, rfl, (lookup_eq_some_iff_mem (deterministic stored)).1 step⟩

theorem edges_nodup (deterministic : automaton.Deterministic) : automaton.edges.Nodup := by
  unfold edges
  rw [List.nodup_flatMap]
  constructor
  · intro ⟨row, s⟩ member
    have stored : automaton.steps[s]? = some row := by
      simpa using List.mem_zipIdx_iff_getElem?.1 member
    apply (deterministic stored).of_map.map
    intro a b same
    simpa [Prod.ext_iff] using same
  · -- rows stand under different sources, so they share no edge
    have sources : automaton.steps.toList.zipIdx.Pairwise fun a b => a.2 ≠ b.2 := by
      apply List.pairwise_map.1
      rw [List.zipIdx_map_snd]
      exact List.nodup_range'
    apply sources.imp
    intro a b apart edge first second
    obtain ⟨_, _, rfl⟩ := List.mem_map.1 first
    obtain ⟨_, _, same⟩ := List.mem_map.1 second
    exact apart (congrArg Edge.source same).symm

theorem Trail.reachable (deterministic : automaton.Deterministic) {states : List Nat}
    {stack : List (Symbol Nat)} (path : automaton.Trail states stack) {s : Nat} {below : List Nat}
    (top : states = s :: below) : Relation.ReflTransGen automaton.Leads automaton.start s := by
  induction path generalizing s below with
  | start =>
    obtain ⟨rfl, _⟩ := List.cons.inj top
    exact .refl
  | step _ edge ih =>
    obtain ⟨rfl, _⟩ := List.cons.inj top
    exact (ih rfl).tail ⟨_, (mem_edges deterministic).2 edge⟩

end Automaton

namespace Rules

structure Canonical (rules : Rules) (sets : FirstFollow) (automaton : Automaton) : Prop where
  start : automaton.items? automaton.start = some (rules.closure sets rules.seed)
  closed {s : Nat} {map : ItemMap} : automaton.items? s = some map → rules.closure sets map = map
  distinct {s s' : Nat} {map : ItemMap} : automaton.items? s = some map →
    automaton.items? s' = some map → s = s'
  reachable {s : Nat} : s < automaton.stateCount →
    Relation.ReflTransGen automaton.Leads automaton.start s
  steps {s : Nat} {symbol : Symbol Nat} : (∃ target, automaton.transition s symbol = some target) ↔
    ∃ map, automaton.items? s = some map ∧ symbol ≠ .terminal rules.eof ∧
      ∃ item ∈ map.items, rules.next item = some symbol
  targets {s target : Nat} {symbol : Symbol Nat} {map : ItemMap} : automaton.items? s = some map →
    automaton.transition s symbol = some target →
      automaton.items? target = some (rules.goto sets map symbol)
  edges {edge : Edge} : edge ∈ automaton.edges ↔
    automaton.transition edge.source edge.symbol = some edge.target
  once : automaton.edges.Nodup

variable {rules : Rules} {automaton : Automaton}

theorem closure_closure (proper : rules.Proper) (map : ItemMap) :
    rules.closure (FirstFollow.ofRules rules) (rules.closure (FirstFollow.ofRules rules) map) =
      rules.closure (FirstFollow.ofRules rules) map :=
  stabilize_of_fixed (closure_fixed proper map) _

theorem Proper.state_closed (proper : rules.Proper) (construction : Construction) {s : Nat}
    {map : ItemMap}
    (found : (rules.automaton (FirstFollow.ofRules rules) construction).items? s = some map) :
    rules.closure (FirstFollow.ofRules rules) map = map := by
  refine automaton_induction (P := fun map => rules.closure (FirstFollow.ofRules rules) map = map)
    construction ?_ (closure_closure proper rules.seed) found
  intro map symbol _ _
  exact closure_closure proper (rules.kernel map symbol)

theorem Collects.deterministic (collects : rules.Collects automaton) :
    automaton.Deterministic := by
  intro s row stored
  have bound : s < automaton.states.size := by
    rw [← collects.rows]
    exact (Array.getElem?_eq_some_iff.1 stored).1
  obtain ⟨other, found, symbols, _⟩ := collects.row (Array.getElem?_eq_getElem bound)
  obtain rfl := Option.some.inj (stored.symm.trans found)
  rw [symbols]
  exact relevantSymbols_nodup _

theorem Collects.steps (collects : rules.Collects automaton) {s : Nat} {symbol : Symbol Nat} :
    (∃ target, automaton.transition s symbol = some target) ↔
      ∃ map, automaton.items? s = some map ∧ symbol ≠ .terminal rules.eof ∧
        ∃ item ∈ map.items, rules.next item = some symbol := by
  constructor
  · intro ⟨target, step⟩
    obtain ⟨map, found⟩ := collects.transition_source step
    have relevant := ((collects.transition_iff found).1 step).1
    exact ⟨map, found, mem_relevantSymbols.1 relevant⟩
  · intro ⟨map, found, waits⟩
    exact collects.transition_exists found (mem_relevantSymbols.2 waits)

theorem Proper.canonical (proper : rules.Proper) (construction : Construction) :
    rules.Canonical (FirstFollow.ofRules rules)
      (rules.automaton (FirstFollow.ofRules rules) construction) := by
  have collects := proper.collects construction
  have deterministic := collects.deterministic
  constructor
  · exact collects.start
  · exact proper.state_closed construction
  · exact collects.distinct
  · intro s bound
    obtain ⟨below, stack, path⟩ :=
      proper.state_reached construction (Array.getElem?_eq_getElem bound)
    exact path.reachable deterministic rfl
  · exact collects.steps
  · intro s target symbol map found step
    exact ((collects.transition_iff found).1 step).2
  · exact Automaton.mem_edges deterministic
  · exact Automaton.edges_nodup deterministic

end Rules

variable {τ υ : Type} [DecidableEq τ] [Fingerprint τ] [Spelling τ] {eof : τ}
  {calls : List (Registration τ υ)} {frozen : FrozenGrammar τ υ}

/-- The automaton of a finished grammar is its canonical collection, however the work is done. -/
theorem collection_canonical (froze : (Grammar.assemble eof calls).freeze = .ok frozen)
    (construction : Construction) :
    frozen.rules.Canonical (FirstFollow.ofRules frozen.rules)
      (frozen.rules.automaton (FirstFollow.ofRules frozen.rules) construction) := by
  obtain ⟨start, declared, rfl⟩ := Grammar.freeze_eq froze
  have wf := Grammar.assemble_wellFormed eof calls
  exact (Grammar.rulesFrom_proper wf declared).canonical construction

theorem collection_canonical_nested : ∃ frozen,
    (Grammar.assemble "$" nested).freeze = .ok frozen ∧
    (frozen.rules.automaton (FirstFollow.ofRules frozen.rules) .sequential).edges.length = 8 ∧
    frozen.rules.Canonical (FirstFollow.ofRules frozen.rules)
      (frozen.rules.automaton (FirstFollow.ofRules frozen.rules) .sequential) := by
  obtain ⟨frozen, froze, edges⟩ : ∃ frozen,
      (Grammar.assemble "$" nested).freeze = .ok frozen ∧
      (frozen.rules.automaton (FirstFollow.ofRules frozen.rules) .sequential).edges.length = 8 :=
    exists_ok (by decide +kernel)
  exact ⟨frozen, froze, edges, collection_canonical froze .sequential⟩

end CanonicalLR
