import CanonicalLR.Proofs.Canonicity
import CanonicalLR.Proofs.Conflicts
/-
Which demands can clash. The automaton makes no demand twice, so the two demands of a conflict
differ. All steps of a state are entered before its items and lead over different symbols, so the
demand that comes second is that of an item; it is on a terminal, and the first one is a shift
along an edge, or the demand of another item.
-/
namespace CanonicalLR

theorem split_behind {β κ : Type} (key : β → κ) {first second before after : List β} {x y : β}
    (split : first ++ second = before ++ x :: after) (nodup : (first.map key).Nodup)
    (taken : y ∈ before) (same : key y = key x) :
    ∃ between, before = first ++ between ∧ second = between ++ x :: after := by
  rcases List.append_eq_append_iff.1 split with ⟨between, front, back⟩ | ⟨rest, front, back⟩
  · exact ⟨between, front, back⟩
  · cases rest with
    | nil => exact ⟨[], by simpa using front.symm, by simpa using back.symm⟩
    | cons z rest =>
      obtain ⟨rfl, _⟩ := List.cons.inj back
      rw [front, List.map_append, List.nodup_append] at nodup
      have apart := nodup.2.2 (key y) (List.mem_map_of_mem taken) (key x) (by simp)
      exact absurd same apart

namespace Rules

variable {rules : Rules} {automaton : Automaton} {s : Nat}

def stepDemands (steps : List (Symbol Nat × Nat)) : List (Symbol Nat × Action) :=
  steps.map fun step => (step.1, stepAction step.2 step.1)

def mapDemands (rules : Rules) (map : ItemMap) : List (Symbol Nat × Action) :=
  map.entries.flatMap fun entry => rules.itemDemands entry.1 entry.2

theorem demands_eq (rules : Rules) (map : ItemMap) (steps : List (Symbol Nat × Nat)) :
    rules.demands map steps = stepDemands steps ++ rules.mapDemands map := rfl

theorem mem_mapDemands {map : ItemMap} {symbol : Symbol Nat} {action : Action}
    (h : (symbol, action) ∈ rules.mapDemands map) :
    (∃ item t, map.Holds item (some t) ∧ rules.isComplete item = true ∧ symbol = .terminal t ∧
      action = .reduce item.production) ∨
    (symbol = .terminal rules.eof ∧ action = .accept) := by
  obtain ⟨⟨item, set⟩, entry, demanded⟩ := List.mem_flatMap.1 h
  rcases mem_itemDemands.1 demanded with ⟨t, shown, complete, at_t, reduces⟩ | ⟨_, at_end, accepts⟩
  · have held : map.Holds item (some t) := ItemMap.holds_iff_mem.2 ⟨set, entry, shown⟩
    exact Or.inl ⟨item, t, held, complete, at_t, reduces⟩
  · exact Or.inr ⟨at_end, accepts⟩

theorem Collects.stepDemands_keys_nodup (collects : rules.Collects automaton) (s : Nat) :
    ((stepDemands (automaton.stepsFrom s)).map Prod.fst).Nodup := by
  have keys : (stepDemands (automaton.stepsFrom s)).map Prod.fst =
      (automaton.stepsFrom s).map Prod.fst := by
    simp [stepDemands, Function.comp_def]
  rw [keys]
  cases stored : automaton.steps[s]? with
  | none => simp [Automaton.stepsFrom, Array.getD_eq_getD_getElem?, stored]
  | some row =>
    rw [Automaton.stepsFrom_eq stored]
    exact collects.deterministic stored

theorem Proper.mapDemands_nodup (proper : rules.Proper) (map : ItemMap) :
    (rules.mapDemands map).Nodup := by
  rw [mapDemands, List.nodup_flatMap]
  constructor
  · intro entry _
    exact (itemDemands_nodup entry.1 entry.2).of_map
  · apply (List.pairwise_map.1 map.keys_nodup).imp
    intro a b distinct ⟨symbol, action⟩ one two
    -- a production is complete with one dot only, and one item alone awaits the end of the input
    rcases mem_itemDemands.1 one with ⟨_, _, complete, _, reduces⟩ | ⟨next, _, accepts⟩
    · rcases mem_itemDemands.1 two with ⟨_, _, also, _, same⟩ | ⟨_, _, accepts⟩
      · have production := Action.reduce.inj (reduces.symm.trans same)
        exact distinct (complete_unique complete also production)
      · exact absurd (reduces.symm.trans accepts) (by simp)
    · rcases mem_itemDemands.1 two with ⟨_, _, _, _, reduces⟩ | ⟨next', _, _⟩
      · exact absurd (reduces.symm.trans accepts) (by simp)
      · exact distinct ((proper.item_of_next_eof next).trans (proper.item_of_next_eof next').symm)

theorem Collects.demands_once (collects : rules.Collects automaton) (proper : rules.Proper)
    (s : Nat) (map : ItemMap) :
    (rules.demands map (automaton.stepsFrom s)).Nodup := by
  rw [demands_eq, List.nodup_append]
  refine ⟨(collects.stepDemands_keys_nodup s).of_map, proper.mapDemands_nodup map, ?_⟩
  intro step first demand second same
  obtain ⟨⟨symbol, target⟩, _, rfl⟩ := List.mem_map.1 first
  rw [← same] at second
  rcases mem_mapDemands second with ⟨_, _, _, _, _, reduces⟩ | ⟨_, accepts⟩
  · cases symbol <;> contradiction
  · cases symbol <;> contradiction

/-- The pairs of demands that can clash at a terminal, the earlier one first. -/
inductive Clash (rules : Rules) (automaton : Automaton) (s t : Nat) : Action → Action → Prop where
  | shiftReduce {target p : Nat} (edge : automaton.transition s (.terminal t) = some target) :
      Clash rules automaton s t (.shift target) (.reduce p)
  | reduceReduce {p q : Nat} (apart : p ≠ q) : Clash rules automaton s t (.reduce p) (.reduce q)
  | reduceAccept {p : Nat} (ended : t = rules.eof) : Clash rules automaton s t (.reduce p) .accept
  | acceptReduce {p : Nat} (ended : t = rules.eof) : Clash rules automaton s t .accept (.reduce p)

theorem Collects.no_edge_at_end (collects : rules.Collects automaton) (target : Nat) :
    automaton.transition s (.terminal rules.eof) ≠ some target := by
  intro edge
  obtain ⟨map, found⟩ := collects.transition_source edge
  have relevant := ((collects.transition_iff found).1 edge).1
  exact (mem_relevantSymbols.1 relevant).1 rfl

theorem Collects.clash_of_demanded (collects : rules.Collects automaton) {map : ItemMap}
    {symbol : Symbol Nat} {existing incoming : Action}
    (first : rules.Demanded automaton s symbol existing)
    (second : (symbol, incoming) ∈ rules.mapDemands map) (distinct : existing ≠ incoming) :
    ∃ t, symbol = .terminal t ∧ rules.Clash automaton s t existing incoming := by
  rcases mem_mapDemands second with ⟨item, t, _, _, at_t, reduces⟩ | ⟨at_end, accepts⟩
  · subst at_t reduces
    refine ⟨t, rfl, ?_⟩
    generalize spelled : Symbol.terminal t = symbol at first
    cases first with
    | step edge =>
      subst spelled
      exact .shiftReduce edge
    | reduce => exact .reduceReduce fun same => distinct (congrArg Action.reduce same)
    | accept => exact .acceptReduce (Symbol.terminal.inj spelled)
  · subst at_end accepts
    refine ⟨rules.eof, rfl, ?_⟩
    generalize spelled : Symbol.terminal rules.eof = symbol at first
    cases first with
    | step edge =>
      subst spelled
      exact absurd edge (collects.no_edge_at_end _)
    | reduce => exact .reduceAccept rfl
    | accept => exact absurd rfl distinct

/-- The second demand of a conflict is that of an item, and differs from the first. -/
theorem Collects.conflict_clash (collects : rules.Collects automaton) (proper : rules.Proper)
    {conflict : Conflict} (h : rules.table automaton = .error conflict) :
    conflict.existing ≠ conflict.incoming ∧ ∃ t, conflict.symbol = .terminal t ∧
      rules.Clash automaton conflict.state t conflict.existing conflict.incoming := by
  obtain ⟨map, before, after, _, split, taken⟩ := table_error h
  have distinct : conflict.existing ≠ conflict.incoming := by
    intro same
    have once := collects.demands_once proper conflict.state map
    rw [split, List.nodup_append] at once
    exact once.2.2 _ taken _ List.mem_cons_self (by rw [same])
  refine ⟨distinct, ?_⟩
  rw [demands_eq] at split
  obtain ⟨between, _, items⟩ :=
    split_behind Prod.fst split (collects.stepDemands_keys_nodup _) taken rfl
  have second : (conflict.symbol, conflict.incoming) ∈ rules.mapDemands map := by
    rw [items]
    exact List.mem_append_right _ List.mem_cons_self
  obtain ⟨_, _, first, _⟩ := collects.conflict_demanded h
  exact collects.clash_of_demanded first second distinct

end Rules

end CanonicalLR
