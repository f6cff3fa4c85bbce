import CanonicalLR.Proofs.Canonicity
import CanonicalLR.Proofs.SingleLookahead
/-
Accessing symbols. A closure adds only items with the dot in front, so the other items of a map are
those of the kernel that it was closed from, and the symbol before their dots is the one that was
stepped over. A state is known by its map; hence all edges into it carry that symbol.
-/
namespace CanonicalLR

namespace Rules

def previous (rules : Rules) (item : Item) : Option (Symbol Nat) :=
  match item.dot with
  | 0 => none
  | dot + 1 => (rules.rhs item.production)[dot]?

structure Accesses (rules : Rules) (automaton : Automaton) : Prop where
  start {edge : Edge} : edge ∈ automaton.edges → edge.target ≠ automaton.start
  entered {s : Nat} : s < automaton.stateCount → s ≠ automaton.start →
    ∃ edge ∈ automaton.edges, edge.target = s
  unique {a b : Edge} : a ∈ automaton.edges → b ∈ automaton.edges → a.target = b.target →
    a.symbol = b.symbol
  passed {edge : Edge} {map : ItemMap} {item : Item} : edge ∈ automaton.edges →
    automaton.items? edge.target = some map → item ∈ map.items → 0 < item.dot →
    rules.previous item = some edge.symbol
  predicted {s : Nat} {map : ItemMap} {item : Item} : automaton.items? s = some map →
    item ∈ map.items → item.dot = 0 → item ≠ ⟨rules.goal, 0⟩ →
    ∃ source ∈ map.items, rules.Predicts source item
  -- an item may predict itself, so it is said as well where predictions begin
  rooted {s : Nat} {map : ItemMap} {item : Item} : automaton.items? s = some map →
    item ∈ map.items → ∃ source ∈ map.items, (0 < source.dot ∨ source = ⟨rules.goal, 0⟩) ∧
      Relation.ReflTransGen rules.Predicts source item

variable {rules : Rules} {map : ItemMap} {symbol : Symbol Nat} {item : Item}

theorem previous_advance (item : Item) : rules.previous item.advance = rules.next item := rfl

theorem Predicts.dot {source : Item} (predicts : rules.Predicts source item) : item.dot = 0 := by
  obtain ⟨_, _, _, _, rfl⟩ := predicts
  rfl

theorem closure_cases (proper : rules.Proper)
    (member : item ∈ (rules.closure (FirstFollow.ofRules rules) map).items) :
    item ∈ map.items ∨
      ∃ source ∈ (rules.closure (FirstFollow.ofRules rules) map).items,
        rules.Predicts source item := by
  obtain ⟨first, present, path⟩ := (mem_closure_items proper).1 member
  rcases path.cases_tail with rfl | ⟨last, before, predicts⟩
  · exact Or.inl present
  · exact Or.inr ⟨last, (mem_closure_items proper).2 ⟨first, present, before⟩, predicts⟩

theorem mem_closure_of_dot (proper : rules.Proper) (advanced : 0 < item.dot)
    (member : item ∈ (rules.closure (FirstFollow.ofRules rules) map).items) :
    item ∈ map.items := by
  rcases closure_cases proper member with old | ⟨source, _, predicts⟩
  · exact old
  · have fresh := predicts.dot
    omega

theorem mem_kernel_items : item ∈ (rules.kernel map symbol).items ↔
    ∃ source ∈ map.items, rules.next source = some symbol ∧ item = source.advance := by
  simp only [ItemMap.mem_items]
  exact kernel_holds

theorem mem_seed_items : item ∈ rules.seed.items ↔ item = ⟨rules.goal, 0⟩ := by
  rw [ItemMap.mem_items, seed_holds]
  simp

/-- The goal alone, or only items that have been advanced: what a state is closed from. -/
def Core (rules : Rules) (map : ItemMap) : Prop :=
  ∀ item ∈ map.items, 0 < item.dot ∨ item = ⟨rules.goal, 0⟩

theorem seed_core (rules : Rules) : rules.Core rules.seed := by
  intro item member
  exact Or.inr (mem_seed_items.1 member)

theorem kernel_core (map : ItemMap) (symbol : Symbol Nat) :
    rules.Core (rules.kernel map symbol) := by
  intro item member
  obtain ⟨source, _, _, rfl⟩ := mem_kernel_items.1 member
  exact Or.inl (Nat.succ_pos _)

theorem state_core {sets : FirstFollow} {construction : Construction} {s : Nat}
    (found : (rules.automaton sets construction).items? s = some map) :
    ∃ core, rules.Core core ∧ rules.closure sets core = map := by
  refine automaton_induction (P := fun map => ∃ core, rules.Core core ∧
    rules.closure sets core = map) construction ?_ ?_ found
  · intro map symbol _ _
    exact ⟨_, kernel_core map symbol, rfl⟩
  · exact ⟨_, seed_core rules, rfl⟩

theorem goto_previous (proper : rules.Proper) (advanced : 0 < item.dot)
    (member : item ∈ (rules.goto (FirstFollow.ofRules rules) map symbol).items) :
    rules.previous item = some symbol := by
  obtain ⟨source, _, next, rfl⟩ := mem_kernel_items.1 (mem_closure_of_dot proper advanced member)
  exact (previous_advance source).trans next

theorem goto_advanced (proper : rules.Proper)
    (relevant : symbol ∈ rules.relevantSymbols map.items) :
    ∃ item ∈ (rules.goto (FirstFollow.ofRules rules) map symbol).items, 0 < item.dot := by
  obtain ⟨_, source, waiting, next⟩ := mem_relevantSymbols.1 relevant
  refine ⟨source.advance, (mem_closure_items proper).2 ⟨_, ?_, .refl⟩, Nat.succ_pos _⟩
  exact mem_kernel_items.2 ⟨source, waiting, next, rfl⟩

theorem Collects.edge {automaton : Automaton} (collects : rules.Collects automaton) {edge : Edge}
    (listed : edge ∈ automaton.edges) :
    ∃ map, edge.symbol ∈ rules.relevantSymbols map.items ∧ automaton.items? edge.target =
      some (rules.goto (FirstFollow.ofRules rules) map edge.symbol) := by
  have step := (Automaton.mem_edges collects.deterministic).1 listed
  obtain ⟨map, found⟩ := collects.transition_source step
  exact ⟨map, (collects.transition_iff found).1 step⟩

/-- An edge is known by its target: some item there has the dot behind the symbol of the edge, and
all with the dot behind a symbol have it behind that one. -/
theorem Collects.enters {automaton : Automaton} (collects : rules.Collects automaton)
    (proper : rules.Proper) {edge : Edge} (listed : edge ∈ automaton.edges)
    (found : automaton.items? edge.target = some map) :
    (∃ item ∈ map.items, 0 < item.dot) ∧
      ∀ item ∈ map.items, 0 < item.dot → rules.previous item = some edge.symbol := by
  obtain ⟨source, relevant, leads⟩ := collects.edge listed
  obtain rfl := Option.some.inj (found.symm.trans leads)
  exact ⟨goto_advanced proper relevant, fun item member advanced =>
    goto_previous proper advanced member⟩

theorem Proper.accesses (proper : rules.Proper) (construction : Construction) :
    rules.Accesses (rules.automaton (FirstFollow.ofRules rules) construction) := by
  have collects := proper.collects construction
  constructor
  · intro edge listed back
    obtain ⟨⟨item, member, advanced⟩, _⟩ :=
      collects.enters proper listed (back ▸ collects.start)
    obtain rfl := mem_seed_items.1 (mem_closure_of_dot proper advanced member)
    exact Nat.lt_irrefl 0 advanced
  · intro s bound other
    obtain ⟨below, stack, path⟩ :=
      proper.state_reached construction (Array.getElem?_eq_getElem bound)
    cases path with
    | start => contradiction
    | step _ edge =>
      exact ⟨⟨_, _, s⟩, (Automaton.mem_edges collects.deterministic).2 edge, rfl⟩
  · intro a b first second same
    obtain ⟨map, _, found⟩ := collects.edge first
    obtain ⟨⟨item, member, advanced⟩, behind⟩ := collects.enters proper first found
    obtain ⟨_, behind'⟩ := collects.enters proper second (same ▸ found)
    have symbols := (behind item member advanced).symm.trans (behind' item member advanced)
    exact Option.some.inj symbols
  · intro edge map item listed found member advanced
    exact (collects.enters proper listed found).2 item member advanced
  · intro s map item found member fresh other
    obtain ⟨core, only, rfl⟩ := state_core found
    rcases closure_cases proper member with old | predicted
    · rcases only item old with advanced | goal
      · omega
      · contradiction
    · exact predicted
  · intro s map item found member
    obtain ⟨core, only, rfl⟩ := state_core found
    obtain ⟨source, present, path⟩ := (mem_closure_items proper).1 member
    have kept := (mem_closure_items proper).2 ⟨source, present, .refl⟩
    exact ⟨source, kept, only source present, path⟩

end Rules

variable {τ υ : Type} [DecidableEq τ] [Fingerprint τ] [Spelling τ] {eof : τ}
  {calls : List (Registration τ υ)} {frozen : FrozenGrammar τ υ}

/-- All edges into a state of the automaton of a grammar carry one symbol, the one before the dots
of its advanced items; no edge leads to the start; and what is not advanced is predicted. -/
theorem accessing_symbols (froze : (Grammar.assemble eof calls).freeze = .ok frozen)
    (construction : Construction) :
    frozen.rules.Accesses
      (frozen.rules.automaton (FirstFollow.ofRules frozen.rules) construction) :=
  (Grammar.freeze_proper froze).accesses construction

/-- State 3 is entered over `a` from two states, itself among them. -/
theorem accessing_symbols_nested : ∃ frozen map,
    (Grammar.assemble "$" nested).freeze = .ok frozen ∧
    ⟨1, .terminal 1, 3⟩ ∈
      (frozen.rules.automaton (FirstFollow.ofRules frozen.rules) .sequential).edges ∧
    ⟨3, .terminal 1, 3⟩ ∈
      (frozen.rules.automaton (FirstFollow.ofRules frozen.rules) .sequential).edges ∧
    (frozen.rules.automaton (FirstFollow.ofRules frozen.rules) .sequential).items? 3 = some map ∧
    map.items = [⟨0, 0⟩, ⟨0, 1⟩, ⟨1, 0⟩] ∧
    frozen.rules.previous ⟨0, 1⟩ = some (.terminal 1) ∧
    (∃ source ∈ map.items, frozen.rules.Predicts source ⟨1, 0⟩) ∧
    3 ≠ (frozen.rules.automaton (FirstFollow.ofRules frozen.rules) .sequential).start := by
  obtain ⟨frozen, froze, goal, fromOne, fromItself, known⟩ : ∃ frozen,
      (Grammar.assemble "$" nested).freeze = .ok frozen ∧ frozen.rules.goal = 2 ∧
      ⟨1, .terminal 1, 3⟩ ∈
        (frozen.rules.automaton (FirstFollow.ofRules frozen.rules) .sequential).edges ∧
      ⟨3, .terminal 1, 3⟩ ∈
        (frozen.rules.automaton (FirstFollow.ofRules frozen.rules) .sequential).edges ∧
      ((frozen.rules.automaton (FirstFollow.ofRules frozen.rules) .sequential).items? 3).map
        ItemMap.items = some [⟨0, 0⟩, ⟨0, 1⟩, ⟨1, 0⟩] :=
    exists_ok (by decide +kernel)
  obtain ⟨map, found, items⟩ := Option.map_eq_some_iff.1 known
  have accesses := accessing_symbols froze .sequential
  refine ⟨frozen, map, froze, fromOne, fromItself, found, items, ?_, ?_, accesses.start fromOne⟩
  · exact accesses.passed fromOne found (by simp [items]) Nat.one_pos
  · exact accesses.predicted found (by simp [items]) rfl (by simp [goal])

end CanonicalLR
