import CanonicalLR.Proofs.Exploration
import Mathlib.Data.Fintype.BigOperators
import Mathlib.Data.Fintype.Option
import Mathlib.Data.Fintype.Powerset
/-
The canonical collection is complete. There are finitely many maps over the items and terminals of
the rules, the bound of the search counts them, and so every state of the collection has its row.
-/
namespace CanonicalLR

theorem Automaton.stepsFrom_eq {automaton : Automaton} {s : Nat} {row : List (Symbol Nat × Nat)}
    (stored : automaton.steps[s]? = some row) : automaton.stepsFrom s = row := by
  simp [stepsFrom, Array.getD_eq_getD_getElem?, stored]

namespace Rules

def Within (rules : Rules) (map : ItemMap) : Prop :=
  ∀ item look, map.Holds item look → item.production < rules.productions.size ∧
    item.dot ≤ (rules.rhs item.production).length ∧ ∀ t, look = some t → t < rules.terminalCount

variable {rules : Rules}

theorem mem_allItems {item : Item} (stored : item.production < rules.productions.size)
    (dotted : item.dot ≤ (rules.rhs item.production).length) : item ∈ rules.allItems := by
  unfold allItems
  have rule : rules.productions[item.production]? = some rules.productions[item.production] :=
    Array.getElem?_eq_getElem stored
  rw [Rules.rhs, rule] at dotted
  refine List.mem_flatMap.2 ⟨(rules.productions[item.production], item.production), ?_, ?_⟩
  · exact List.mem_zipIdx_iff_getElem?.2 (by simp)
  · exact List.mem_map.2 ⟨item.dot, List.mem_range.2 (Nat.lt_succ_of_le dotted), rfl⟩

/-- A map within the rules as a choice, for each item, of absence or a set of terminals. -/
def code (rules : Rules) (map : ItemMap) :
    Fin rules.allItems.length → Option (Finset (Fin rules.terminalCount)) :=
  fun i => (map.get? (rules.allItems.get i)).map fun set =>
    Finset.univ.filter fun t => t.val ∈ set

theorem holds_of_code {a b : ItemMap} (within : rules.Within a)
    (same : rules.code a = rules.code b) {item : Item} {look : Option Nat}
    (held : a.Holds item look) : b.Holds item look := by
  obtain ⟨stored, dotted, lookahead⟩ := within item look held
  obtain ⟨set, found, shown⟩ := held
  obtain ⟨i, at_i⟩ := List.get_of_mem (mem_allItems stored dotted)
  have agree := congrFun same i
  simp only [code, at_i, found, Option.map_some] at agree
  obtain ⟨other, twin, filtered⟩ := Option.map_eq_some_iff.1 agree.symm
  refine ⟨other, twin, ?_⟩
  cases look with
  | none => trivial
  | some t =>
    have bound := lookahead t rfl
    have fact := Finset.ext_iff.1 filtered ⟨t, bound⟩
    simp only [Finset.mem_filter, Finset.mem_univ, true_and] at fact
    exact fact.2 shown

theorem code_injective {a b : ItemMap} (ha : rules.Within a) (hb : rules.Within b)
    (same : rules.code a = rules.code b) : a = b := by
  apply ItemMap.ext_holds
  intro item look
  exact ⟨holds_of_code ha same, holds_of_code hb same.symm⟩

theorem card_codes : Fintype.card (Fin rules.allItems.length →
    Option (Finset (Fin rules.terminalCount))) = rules.stateBound := by
  simp [stateBound]

theorem states_le_stateBound {sets : FirstFollow} {exploration : Exploration}
    (inv : exploration.Expanded rules sets rules.Within) :
    exploration.states.size ≤ rules.stateBound := by
  have injective : Function.Injective fun s : Fin exploration.states.size =>
      rules.code (exploration.states.values[s]) := by
    intro s s' same
    have found : exploration.states.get? s = some exploration.states.values[s] :=
      Array.getElem?_eq_getElem s.isLt
    have found' : exploration.states.get? s' = some exploration.states.values[s'] :=
      Array.getElem?_eq_getElem s'.isLt
    have maps := code_injective (inv.good found) (inv.good found') same
    rw [maps] at found
    exact Fin.ext (inv.faithful.distinct found found')
  have card := Fintype.card_le_of_injective _ injective
  rwa [Fintype.card_fin, card_codes] at card

theorem Proper.predicted_within (proper : rules.Proper) {map : ItemMap}
    (within : rules.Within map) {item : Item} {look : Option Nat}
    (h : rules.Predicted map item look) : item.production < rules.productions.size ∧
      item.dot ≤ (rules.rhs item.production).length ∧
      ∀ t, look = some t → t < rules.terminalCount := by
  induction h with
  | held held => exact within _ _ held
  | predict _ _ member hands ih =>
    refine ⟨proper.mem_productionsOf_lt member, Nat.zero_le _, ?_⟩
    rintro t rfl
    rcases proper.hands_lt hands with bound | own
    · exact bound
    · exact ih.2.2 t own

theorem Proper.closure_within (proper : rules.Proper) {map : ItemMap}
    (within : rules.Within map) :
    rules.Within (rules.closure (FirstFollow.ofRules rules) map) := by
  intro item look held
  exact proper.predicted_within within ((closure_holds proper).1 held)

theorem kernel_within {map : ItemMap} (within : rules.Within map) (symbol : Symbol Nat) :
    rules.Within (rules.kernel map symbol) := by
  intro item look held
  obtain ⟨source, old, next, rfl⟩ := kernel_holds.1 held
  obtain ⟨stored, _, lookahead⟩ := within source look old
  have inside := (List.getElem?_eq_some_iff.1 next).1
  exact ⟨stored, inside, lookahead⟩

theorem Proper.within_inherited (proper : rules.Proper) :
    rules.Inherited (FirstFollow.ofRules rules) rules.Within :=
  fun _ symbol within _ => proper.closure_within (kernel_within within symbol)

theorem seed_holds {item : Item} {look : Option Nat} :
    rules.seed.Holds item look ↔
      item = ⟨rules.goal, 0⟩ ∧ (look = none ∨ look = some rules.eof) := by
  have absent : ∀ key, ItemMap.empty.get? key = none := fun _ => rfl
  simp only [seed, ItemMap.Holds, ItemMap.get?_put, absent]
  by_cases same : item = ⟨rules.goal, 0⟩
  · cases look <;> simp [same, IdSet.Shows]
  · simp [same]

theorem Proper.seed_within (proper : rules.Proper) : rules.Within rules.seed := by
  intro item look held
  obtain ⟨rfl, shown⟩ := seed_holds.1 held
  refine ⟨?_, Nat.zero_le _, ?_⟩
  · have last := proper.last
    simp only
    omega
  · rintro t rfl
    have eof := proper.eof
    simp_all

structure Collects (rules : Rules) (automaton : Automaton) : Prop where
  start : automaton.items? automaton.start =
    some (rules.closure (FirstFollow.ofRules rules) rules.seed)
  row {s : Nat} {map : ItemMap} : automaton.items? s = some map →
    ∃ row, automaton.steps[s]? = some row ∧ row.map Prod.fst = rules.relevantSymbols map.items ∧
      ∀ step ∈ row, automaton.items? step.2 =
        some (rules.goto (FirstFollow.ofRules rules) map step.1)
  within {s : Nat} {map : ItemMap} : automaton.items? s = some map → rules.Within map
  distinct {s s' : Nat} {map : ItemMap} : automaton.items? s = some map →
    automaton.items? s' = some map → s = s'
  rows : automaton.steps.size = automaton.states.size

theorem expanded_seed {sets : FirstFollow} {P : ItemMap → Prop}
    (seed : P (rules.closure sets rules.seed)) :
    (⟨((Interner.empty : Interner ItemMap Nat).intern (rules.closure sets rules.seed)).table, #[]⟩ :
      Exploration).Expanded rules sets P := by
  constructor
  · exact Interner.intern_faithful Interner.empty_faithful _
  · exact Nat.zero_le _
  · intro s map found
    rcases Interner.get?_intern_cases found with rfl | old
    · exact seed
    · simp [Interner.empty, Interner.get?] at old
  · intro s row found
    simp at found

theorem automaton_induction {sets : FirstFollow} {P : ItemMap → Prop}
    (construction : Construction) (inherited : rules.Inherited sets P)
    (seed : P (rules.closure sets rules.seed)) {s : Nat} {map : ItemMap}
    (found : (rules.automaton sets construction).items? s = some map) : P map :=
  (explore_expanded construction inherited rules.stateBound (expanded_seed seed)).1.good found

theorem Proper.collects (proper : rules.Proper) (construction : Construction) :
    rules.Collects (rules.automaton (FirstFollow.ofRules rules) construction) := by
  have first := expanded_seed (proper.closure_within proper.seed_within)
  obtain ⟨expanded, grown⟩ := explore_expanded construction proper.within_inherited
    rules.stateBound first
  have complete := explore_complete construction proper.within_inherited
    (fun _ => states_le_stateBound) rules.stateBound first (Nat.le_add_right _ _)
  constructor
  · exact grown (Interner.get?_intern Interner.empty_faithful _)
  · intro s map found
    have bound : s < (rules.explore (FirstFollow.ofRules rules) construction rules.stateBound
        ⟨((Interner.empty : Interner ItemMap Nat).intern
          (rules.closure (FirstFollow.ofRules rules) rules.seed)).table, #[]⟩).steps.size :=
      complete ▸ Interner.get?_lt found
    refine ⟨_, Array.getElem?_eq_getElem bound, ?_⟩
    obtain ⟨other, stored, symbols, targets⟩ := expanded.row (Array.getElem?_eq_getElem bound)
    obtain rfl := Option.some.inj (found.symm.trans stored)
    exact ⟨symbols, targets⟩
  · intro s map found
    exact expanded.good found
  · intro s s' map found found'
    exact expanded.faithful.distinct found found'
  · exact complete

namespace Collects

variable {automaton : Automaton}

theorem transition_iff (collects : rules.Collects automaton) {s target : Nat} {map : ItemMap}
    (found : automaton.items? s = some map) {symbol : Symbol Nat} :
    automaton.transition s symbol = some target ↔
      symbol ∈ rules.relevantSymbols map.items ∧
        automaton.items? target = some (rules.goto (FirstFollow.ofRules rules) map symbol) := by
  obtain ⟨row, stored, symbols, targets⟩ := collects.row found
  have nodup : (row.map Prod.fst).Nodup := symbols ▸ relevantSymbols_nodup map.items
  rw [Automaton.transition, Automaton.stepsFrom_eq stored, lookup_eq_some_iff_mem nodup, ← symbols]
  constructor
  · intro member
    exact ⟨List.mem_map.2 ⟨_, member, rfl⟩, targets _ member⟩
  · rintro ⟨listed, there⟩
    obtain ⟨⟨_, other⟩, member, rfl⟩ := List.mem_map.1 listed
    rwa [collects.distinct there (targets _ member)]

theorem transition_exists (collects : rules.Collects automaton) {s : Nat} {map : ItemMap}
    (found : automaton.items? s = some map) {symbol : Symbol Nat}
    (relevant : symbol ∈ rules.relevantSymbols map.items) :
    ∃ target, automaton.transition s symbol = some target := by
  obtain ⟨row, _, symbols, targets⟩ := collects.row found
  rw [← symbols] at relevant
  obtain ⟨⟨_, target⟩, member, rfl⟩ := List.mem_map.1 relevant
  refine ⟨target, (collects.transition_iff found).2 ⟨?_, targets _ member⟩⟩
  rw [← symbols]
  exact List.mem_map.2 ⟨_, member, rfl⟩

theorem transition_source (collects : rules.Collects automaton) {s target : Nat}
    {symbol : Symbol Nat} (step : automaton.transition s symbol = some target) :
    ∃ map, automaton.items? s = some map := by
  have bound : s < automaton.steps.size := by
    by_contra outside
    simp [Automaton.transition, Automaton.stepsFrom, Array.getD_eq_getD_getElem?,
      Nat.le_of_not_lt outside] at step
  rw [collects.rows] at bound
  exact ⟨_, Array.getElem?_eq_getElem bound⟩

end Collects

end Rules

end CanonicalLR
