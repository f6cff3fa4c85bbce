import CanonicalLR.Proofs.Demands
import CanonicalLR.Proofs.Reachability
/-
Conflicts. A table is refused exactly if on some stack a complete item meets another item that wants
the same terminal, so the question is one about viable items alone. What is found is two demands
on one state, and the report of it is always complete.
-/
namespace CanonicalLR

theorem fillRow_append (state : Nat) {row demands : List (Symbol Nat × Action)}
    (nodup : ((row ++ demands).map Prod.fst).Nodup) (later : List (Symbol Nat × Action)) :
    fillRow state row (demands ++ later) = fillRow state (row ++ demands) later := by
  induction demands generalizing row with
  | nil => simp
  | cons demand rest ih =>
    obtain ⟨symbol, incoming⟩ := demand
    have absent : row.lookup symbol = none := by
      refine List.lookup_eq_none_iff.2 fun entry member => ?_
      rw [List.map_append, List.nodup_append] at nodup
      have apart := nodup.2.2 entry.1 (List.mem_map_of_mem member) symbol (by simp)
      simpa using apart.symm
    have longer : ((row ++ [(symbol, incoming)] ++ rest).map Prod.fst).Nodup := by
      simpa using nodup
    simpa [fillRow, absent] using ih longer

theorem fillRow_succeeds (state : Nat) {row demands : List (Symbol Nat × Action)}
    (nodup : ((row ++ demands).map Prod.fst).Nodup) :
    fillRow state row demands = .ok (row ++ demands) := by
  have filled := fillRow_append state nodup []
  rwa [List.append_nil] at filled

theorem fillRows_succeeds {rules : Rules} (state : Nat)
    {states : List (ItemMap × List (Symbol Nat × Nat))}
    (nodup : ∀ entry ∈ states, ((rules.demands entry.1 entry.2).map Prod.fst).Nodup) :
    ∃ rows, fillRows rules state states = .ok rows := by
  induction states generalizing state with
  | nil => exact ⟨[], rfl⟩
  | cons entry rest ih =>
    rw [List.forall_mem_cons] at nodup
    obtain ⟨rows, filled⟩ := ih (state + 1) nodup.2
    have first : fillRow state [] (rules.demands entry.1 entry.2) =
        .ok (rules.demands entry.1 entry.2) := fillRow_succeeds state nodup.1
    unfold fillRows
    rw [first, filled]
    exact ⟨_, rfl⟩

theorem fillRow_error {state : Nat} {row demands : List (Symbol Nat × Action)}
    {conflict : Conflict} (h : fillRow state row demands = .error conflict) :
    conflict.state = state ∧ ∃ before after,
      demands = before ++ (conflict.symbol, conflict.incoming) :: after ∧
        (conflict.symbol, conflict.existing) ∈ row ++ before := by
  induction demands generalizing row with
  | nil => contradiction
  | cons demand rest ih =>
    obtain ⟨symbol, incoming⟩ := demand
    unfold fillRow at h
    split at h
    · obtain ⟨there, before, after, split, taken⟩ := ih h
      refine ⟨there, (symbol, incoming) :: before, after, by rw [split]; rfl, ?_⟩
      rwa [List.append_assoc] at taken
    · rename_i existing taken
      obtain rfl := Except.error.inj h
      obtain ⟨before, after, rfl, _⟩ := List.lookup_eq_some_iff.1 taken
      exact ⟨rfl, [], rest, rfl, by simp⟩

theorem fillRows_error {rules : Rules} {state : Nat}
    {states : List (ItemMap × List (Symbol Nat × Nat))} {conflict : Conflict}
    (h : fillRows rules state states = .error conflict) :
    ∃ k map steps before after, states[k]? = some (map, steps) ∧ conflict.state = state + k ∧
      rules.demands map steps = before ++ (conflict.symbol, conflict.incoming) :: after ∧
      (conflict.symbol, conflict.existing) ∈ before := by
  induction states generalizing state with
  | nil => contradiction
  | cons entry rest ih =>
    obtain ⟨map, steps⟩ := entry
    unfold fillRows at h
    split at h
    · rename_i found
      obtain rfl := Except.error.inj h
      obtain ⟨there, before, after, split, taken⟩ := fillRow_error found
      exact ⟨0, map, steps, before, after, rfl, there, split, taken⟩
    · cases later : fillRows rules (state + 1) rest with
      | ok others =>
        rw [later] at h
        contradiction
      | error other =>
        rw [later] at h
        obtain rfl := Except.error.inj h
        obtain ⟨k, map, steps, before, after, found, there, demanded⟩ := ih later
        exact ⟨k + 1, map, steps, before, after, found, by omega, demanded⟩

theorem Automaton.items_of_zip {automaton : Automaton} {s : Nat} {map : ItemMap}
    {steps : List (Symbol Nat × Nat)}
    (zipped : (automaton.states.toList.zip automaton.steps.toList)[s]? = some (map, steps)) :
    automaton.items? s = some map ∧ automaton.stepsFrom s = steps := by
  obtain ⟨state, row⟩ := List.getElem?_zip_eq_some.1 zipped
  exact ⟨by simpa [items?] using state, stepsFrom_eq (by simpa using row)⟩

namespace Rules

/-- Two items that want the same terminal on one stack, the first of them to reduce. -/
inductive Collision (rules : Rules) (stack : List (Symbol Nat)) : Prop where
  | reduces {item other : Item} {t : Nat} (first : rules.Viable stack item (some t))
      (complete : rules.isComplete item = true) (second : rules.Viable stack other (some t))
      (also : rules.isComplete other = true) (distinct : item.production ≠ other.production)
  | shifts {item other : Item} {t : Nat} (first : rules.Viable stack item (some t))
      (complete : rules.isComplete item = true) (second : rules.Viable stack other none)
      (next : rules.next other = some (.terminal t))

variable {rules : Rules} {automaton : Automaton}

/-- A conflict is a demand whose symbol an earlier demand on the same state has taken. -/
theorem table_error {conflict : Conflict} (h : rules.table automaton = .error conflict) :
    ∃ map before after, automaton.items? conflict.state = some map ∧
      rules.demands map (automaton.stepsFrom conflict.state) =
        before ++ (conflict.symbol, conflict.incoming) :: after ∧
      (conflict.symbol, conflict.existing) ∈ before := by
  unfold Rules.table at h
  cases filled : fillRows rules 0 (automaton.states.toList.zip automaton.steps.toList) with
  | ok rows =>
    rw [filled] at h
    contradiction
  | error other =>
    rw [filled] at h
    obtain rfl := Except.error.inj h
    obtain ⟨k, map, steps, before, after, zipped, there, split, taken⟩ := fillRows_error filled
    rw [Nat.zero_add] at there
    subst there
    obtain ⟨found, rfl⟩ := Automaton.items_of_zip zipped
    exact ⟨map, before, after, found, split, taken⟩

theorem Collects.conflict_demanded (collects : rules.Collects automaton) {conflict : Conflict}
    (h : rules.table automaton = .error conflict) :
    ∃ map, automaton.items? conflict.state = some map ∧
      rules.Demanded automaton conflict.state conflict.symbol conflict.existing ∧
      rules.Demanded automaton conflict.state conflict.symbol conflict.incoming := by
  obtain ⟨map, before, after, found, split, taken⟩ := table_error h
  refine ⟨map, found, ?_, ?_⟩
  · rw [← collects.mem_demands found, split]
    exact List.mem_append_left _ taken
  · rw [← collects.mem_demands found, split]
    exact List.mem_append_right _ List.mem_cons_self

theorem complete_unique {item other : Item} (complete : rules.isComplete item = true)
    (also : rules.isComplete other = true) (same : item.production = other.production) :
    item = other := by
  cases item
  cases other
  simp_all [isComplete]

theorem mem_itemDemands_keys {item : Item} {lookahead : TerminalSet} {symbol : Symbol Nat} :
    symbol ∈ (rules.itemDemands item lookahead).map Prod.fst ↔
      (∃ t ∈ lookahead, rules.isComplete item = true ∧ symbol = .terminal t) ∨
        rules.next item = some (.terminal rules.eof) ∧ symbol = .terminal rules.eof := by
  simp only [List.mem_map, Prod.exists, exists_and_right, exists_eq_right, mem_itemDemands]
  constructor
  · rintro ⟨action, ⟨t, member, complete, rfl, _⟩ | ⟨next, rfl, _⟩⟩
    · exact Or.inl ⟨t, member, complete, rfl⟩
    · exact Or.inr ⟨next, rfl⟩
  · rintro (⟨t, member, complete, rfl⟩ | ⟨next, rfl⟩)
    · exact ⟨_, Or.inl ⟨t, member, complete, rfl, rfl⟩⟩
    · exact ⟨_, Or.inr ⟨next, rfl, rfl⟩⟩

theorem itemDemands_nodup (item : Item) (lookahead : TerminalSet) :
    ((rules.itemDemands item lookahead).map Prod.fst).Nodup := by
  unfold itemDemands
  split
  · have ids : lookahead.ids.Nodup := lookahead.ascending.imp fun before => Nat.ne_of_lt before
    simpa [Function.comp_def] using ids.map fun _ _ same => Symbol.terminal.inj same
  · split <;> simp

theorem Viable.demands_disjoint (proper : rules.Proper) {stack : List (Symbol Nat)}
    (free : ¬ rules.Collision stack) {item other : Item} {set set' : TerminalSet}
    (first : ∀ look, set.Shows look → rules.Viable stack item look)
    (second : ∀ look, set'.Shows look → rules.Viable stack other look) (distinct : item ≠ other)
    {symbol : Symbol Nat} (one : symbol ∈ (rules.itemDemands item set).map Prod.fst)
    (two : symbol ∈ (rules.itemDemands other set').map Prod.fst) : False := by
  rcases mem_itemDemands_keys.1 one with ⟨t, member, complete, rfl⟩ | ⟨next, rfl⟩
  · rcases mem_itemDemands_keys.1 two with ⟨u, also, done, same⟩ | ⟨next, same⟩
    · obtain rfl := Symbol.terminal.inj same
      refine free (.reduces (first _ member) complete (second _ also) done ?_)
      exact fun production => distinct (complete_unique complete done production)
    · obtain rfl := Symbol.terminal.inj same
      exact free (.shifts (first _ member) complete (second none trivial) next)
  · rcases mem_itemDemands_keys.1 two with ⟨u, also, done, same⟩ | ⟨next', _⟩
    · obtain rfl := Symbol.terminal.inj same
      exact free (.shifts (second _ also) done (first none trivial) next)
    · exact distinct ((proper.item_of_next_eof next).trans (proper.item_of_next_eof next').symm)

theorem Collects.demands_nodup (collects : rules.Collects automaton) (proper : rules.Proper)
    {s : Nat} {map : ItemMap} {stack : List (Symbol Nat)} (found : automaton.items? s = some map)
    (holds : ∀ item look, map.Holds item look ↔ rules.Viable stack item look)
    (free : ¬ rules.Collision stack) :
    ((rules.demands map (automaton.stepsFrom s)).map Prod.fst).Nodup := by
  obtain ⟨row, stored, symbols, _⟩ := collects.row found
  have viable : ∀ entry ∈ map.entries, ∀ look, entry.2.Shows look →
      rules.Viable stack entry.1 look := by
    intro entry member look shown
    exact (holds _ _).1 (ItemMap.holds_iff_mem.2 ⟨entry.2, member, shown⟩)
  have edges : ((row.map fun step => (step.1, stepAction step.2 step.1)).map Prod.fst) =
      rules.relevantSymbols map.items := by
    rw [← symbols, List.map_map]
    rfl
  rw [Automaton.stepsFrom_eq stored, demands, List.map_append, edges, List.map_flatMap,
    List.nodup_append, List.nodup_flatMap]
  refine ⟨relevantSymbols_nodup _, ⟨fun entry _ => itemDemands_nodup _ _, ?_⟩, ?_⟩
  · refine (List.pairwise_map.1 map.keys_nodup).imp_of_mem ?_
    intro a b here there distinct symbol one two
    exact Viable.demands_disjoint proper free (viable a here) (viable b there) distinct one two
  · rintro symbol relevant _ demanded rfl
    obtain ⟨inside, item, listed, next⟩ := mem_relevantSymbols.1 relevant
    obtain ⟨entry, member, one⟩ := List.mem_flatMap.1 demanded
    rcases mem_itemDemands_keys.1 one with ⟨t, shown, complete, rfl⟩ | ⟨_, rfl⟩
    · have waiting := (holds _ _).1 (ItemMap.mem_items.1 listed)
      exact free (.shifts (viable entry member (some t) shown) complete waiting next)
    · exact inside rfl

theorem Proper.table_exists (proper : rules.Proper) (construction : Construction)
    (free : ∀ stack, ¬ rules.Collision stack) :
    ∃ table, rules.table (rules.automaton (FirstFollow.ofRules rules) construction) =
      .ok table := by
  have collects := proper.collects construction
  generalize named : rules.automaton (FirstFollow.ofRules rules) construction = automaton
    at collects
  have nodup : ∀ entry ∈ automaton.states.toList.zip automaton.steps.toList,
      ((rules.demands entry.1 entry.2).map Prod.fst).Nodup := by
    rintro ⟨map, steps⟩ member
    obtain ⟨s, zipped⟩ := List.mem_iff_getElem?.1 member
    obtain ⟨found, rfl⟩ := Automaton.items_of_zip zipped
    obtain ⟨stack, _, holds⟩ := proper.state_spells construction (named ▸ found)
    exact collects.demands_nodup proper found holds (free stack)
  obtain ⟨rows, filled⟩ := fillRows_succeeds 0 nodup
  exact ⟨_, by rw [Rules.table, filled]; rfl⟩

end Rules

theorem Machinery.no_collision {rules : Rules} {automaton : Automaton} {table : ParseTable}
    (machinery : Machinery rules automaton table) (stack : List (Symbol Nat)) :
    ¬ rules.Collision stack := by
  intro collision
  cases collision with
  | reduces first complete second also distinct =>
    obtain ⟨s, below, path⟩ := machinery.collects.trail_exists machinery.proper first
    have one := machinery.reduces path first complete
    have two := machinery.reduces path second also
    exact distinct (Action.reduce.inj (Option.some.inj (one.symm.trans two)))
  | @shifts item other t first complete second next =>
    obtain ⟨s, below, path⟩ := machinery.collects.trail_exists machinery.proper first
    have one := machinery.reduces path first complete
    by_cases last : t = rules.eof
    · subst last
      cases one.symm.trans (machinery.accepts path second next)
    · have inside : Symbol.terminal t ≠ .terminal rules.eof := fun same =>
        last (Symbol.terminal.inj same)
      obtain ⟨target, two, _⟩ := machinery.step path second next inside
      cases one.symm.trans two

end CanonicalLR
