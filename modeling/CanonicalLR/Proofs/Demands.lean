import CanonicalLR.Proofs.ViableItems
/-
A table without conflicts says exactly what its automaton demands. Along a path the demands of the
last state are those of the items that are viable on the stack.
-/
namespace CanonicalLR

theorem fillRow_ok {state : Nat} {row demands filled : List (Symbol Nat × Action)}
    (h : fillRow state row demands = .ok filled) (nodup : (row.map Prod.fst).Nodup) :
    filled = row ++ demands ∧ (filled.map Prod.fst).Nodup := by
  induction demands generalizing row with
  | nil =>
    obtain rfl : row = filled := Except.ok.inj h
    exact ⟨(List.append_nil _).symm, nodup⟩
  | cons demand rest ih =>
    obtain ⟨symbol, incoming⟩ := demand
    unfold fillRow at h
    split at h
    · rename_i absent
      have fresh : symbol ∉ row.map Prod.fst := by
        intro member
        obtain ⟨⟨key, existing⟩, entry, rfl⟩ := List.mem_map.1 member
        rw [(lookup_eq_some_iff_mem nodup).2 entry] at absent
        contradiction
      have longer : ((row ++ [(symbol, incoming)]).map Prod.fst).Nodup := by
        rw [List.map_append, List.nodup_append]
        refine ⟨nodup, by simp, ?_⟩
        intro a old b new same
        obtain rfl : b = symbol := by simpa using new
        exact fresh (same ▸ old)
      obtain ⟨rfl, distinct⟩ := ih h longer
      exact ⟨by simp, distinct⟩
    · contradiction

theorem fillRows_ok {rules : Rules} {state : Nat}
    {states : List (ItemMap × List (Symbol Nat × Nat))}
    {rows : List (List (Symbol Nat × Action))} (h : fillRows rules state states = .ok rows) :
    rows = states.map (fun entry => rules.demands entry.1 entry.2) ∧
      ∀ row ∈ rows, (row.map Prod.fst).Nodup := by
  induction states generalizing state rows with
  | nil =>
    obtain rfl : [] = rows := Except.ok.inj h
    exact ⟨rfl, by simp⟩
  | cons entry rest ih =>
    obtain ⟨map, steps⟩ := entry
    unfold fillRows at h
    split at h
    · contradiction
    · rename_i row filled
      cases later : fillRows rules (state + 1) rest with
      | error conflict =>
        rw [later] at h
        contradiction
      | ok others =>
        rw [later] at h
        obtain rfl : row :: others = rows := Except.ok.inj h
        obtain ⟨same, distinct⟩ := ih later
        obtain ⟨whole, nodup⟩ := fillRow_ok filled List.nodup_nil
        refine ⟨by simp [same, whole], ?_⟩
        intro other member
        rcases List.mem_cons.1 member with rfl | member
        · exact nodup
        · exact distinct other member

namespace Rules

inductive Demanded (rules : Rules) (automaton : Automaton) (s : Nat) :
    Symbol Nat → Action → Prop where
  | step {symbol : Symbol Nat} {target : Nat} (edge : automaton.transition s symbol = some target) :
      Demanded rules automaton s symbol (stepAction target symbol)
  | reduce {map : ItemMap} {item : Item} {t : Nat} (found : automaton.items? s = some map)
      (held : map.Holds item (some t)) (complete : rules.isComplete item = true) :
      Demanded rules automaton s (.terminal t) (.reduce item.production)
  | accept {map : ItemMap} {item : Item} (found : automaton.items? s = some map)
      (held : map.Holds item none) (next : rules.next item = some (.terminal rules.eof)) :
      Demanded rules automaton s (.terminal rules.eof) .accept

variable {rules : Rules}

theorem mem_itemDemands {item : Item} {lookahead : TerminalSet} {symbol : Symbol Nat}
    {action : Action} :
    (symbol, action) ∈ rules.itemDemands item lookahead ↔
      (∃ t ∈ lookahead, rules.isComplete item = true ∧ symbol = .terminal t ∧
        action = .reduce item.production) ∨
      (rules.next item = some (.terminal rules.eof) ∧ symbol = .terminal rules.eof ∧
        action = .accept) := by
  unfold itemDemands
  by_cases complete : rules.isComplete item = true
  · have ended : rules.next item = none := by
      simp only [isComplete, beq_iff_eq] at complete
      simp [Rules.next, complete]
    simp only [complete, ↓reduceIte, List.mem_map, Prod.mk.injEq, ended, reduceCtorEq, false_and,
      or_false, true_and]
    constructor
    · rintro ⟨t, member, rfl, rfl⟩
      exact ⟨t, member, rfl, rfl⟩
    · rintro ⟨t, member, rfl, rfl⟩
      exact ⟨t, member, rfl, rfl⟩
  · by_cases next : rules.next item = some (.terminal rules.eof) <;> simp [complete, next]

theorem Collects.mem_demands {automaton : Automaton} (collects : rules.Collects automaton) {s : Nat}
    {map : ItemMap} (found : automaton.items? s = some map) {symbol : Symbol Nat}
    {action : Action} :
    (symbol, action) ∈ rules.demands map (automaton.stepsFrom s) ↔
      rules.Demanded automaton s symbol action := by
  obtain ⟨row, stored, symbols, _⟩ := collects.row found
  have steps := Automaton.stepsFrom_eq stored
  have nodup : ((automaton.stepsFrom s).map Prod.fst).Nodup := by
    rw [steps, symbols]
    exact relevantSymbols_nodup map.items
  simp only [demands, List.mem_append, List.mem_map, List.mem_flatMap, mem_itemDemands,
    Prod.mk.injEq, Prod.exists]
  constructor
  · rintro (⟨x, target, member, rfl, rfl⟩ | ⟨item, set, entry, demand⟩)
    · exact .step ((lookup_eq_some_iff_mem nodup).2 member)
    · rcases demand with ⟨t, member, complete, rfl, rfl⟩ | ⟨next, rfl, rfl⟩
      · exact .reduce found (ItemMap.holds_iff_mem.2 ⟨set, entry, member⟩) complete
      · exact .accept found (ItemMap.holds_iff_mem.2 ⟨set, entry, trivial⟩) next
  · intro demanded
    cases demanded with
    | step edge => exact Or.inl ⟨_, _, (lookup_eq_some_iff_mem nodup).1 edge, rfl, rfl⟩
    | reduce found' held complete =>
      obtain rfl := Option.some.inj (found.symm.trans found')
      obtain ⟨set, entry, shown⟩ := ItemMap.holds_iff_mem.1 held
      exact Or.inr ⟨_, set, entry, Or.inl ⟨_, shown, complete, rfl, rfl⟩⟩
    | accept found' held next =>
      obtain rfl := Option.some.inj (found.symm.trans found')
      obtain ⟨set, entry, _⟩ := ItemMap.holds_iff_mem.1 held
      exact Or.inr ⟨_, set, entry, Or.inr ⟨next, rfl, rfl⟩⟩

theorem Collects.demanded_source {automaton : Automaton} (collects : rules.Collects automaton)
    {s : Nat} {symbol : Symbol Nat} {action : Action}
    (h : rules.Demanded automaton s symbol action) : ∃ map, automaton.items? s = some map := by
  cases h with
  | step edge => exact collects.transition_source edge
  | reduce found => exact ⟨_, found⟩
  | accept found => exact ⟨_, found⟩

structure Tabulates (rules : Rules) (automaton : Automaton) (table : ParseTable) : Prop where
  terminalCount : table.terminalCount = rules.terminalCount
  stateCount : table.stateCount = automaton.stateCount
  action {s : Nat} {symbol : Symbol Nat} {action : Action} :
    table.action s symbol = some action ↔ rules.Demanded automaton s symbol action

theorem Collects.row_eq {automaton : Automaton} (collects : rules.Collects automaton)
    {table : ParseTable} (h : rules.table automaton = .ok table) :
    table.terminalCount = rules.terminalCount ∧ table.stateCount = automaton.stateCount ∧
      ∀ {s map}, automaton.items? s = some map →
        table.row s = rules.demands map (automaton.stepsFrom s) ∧
          ((table.row s).map Prod.fst).Nodup := by
  unfold Rules.table at h
  cases filled : fillRows rules 0 (automaton.states.toList.zip automaton.steps.toList) with
  | error conflict =>
    rw [filled] at h
    contradiction
  | ok rows =>
    rw [filled] at h
    obtain rfl : (⟨rules.terminalCount, rows.toArray⟩ : ParseTable) = table := Except.ok.inj h
    obtain ⟨whole, nodup⟩ := fillRows_ok filled
    refine ⟨rfl, ?_, ?_⟩
    · simp [ParseTable.stateCount, Automaton.stateCount, whole, collects.rows]
    intro s map found
    obtain ⟨row, stored, _⟩ := collects.row found
    have state : automaton.states.toList[s]? = some map := by
      simpa [Automaton.items?] using found
    have steps : automaton.steps.toList[s]? = some row := by simpa using stored
    have zipped : (automaton.states.toList.zip automaton.steps.toList)[s]? = some (map, row) :=
      List.getElem?_zip_eq_some.2 ⟨state, steps⟩
    have at_s : rows[s]? = some (rules.demands map row) := by
      simp [whole, List.getElem?_map, zipped]
    have listed : (⟨rules.terminalCount, rows.toArray⟩ : ParseTable).row s =
        rules.demands map row := by
      simp [ParseTable.row, Array.getD_eq_getD_getElem?, at_s]
    rw [listed, Automaton.stepsFrom_eq stored]
    exact ⟨rfl, nodup _ (List.mem_of_getElem? at_s)⟩

theorem row_outside {automaton : Automaton} {table : ParseTable}
    (states : table.stateCount = automaton.stateCount) {s : Nat}
    (absent : automaton.items? s = none) : table.row s = [] := by
  have outside : table.rows.size ≤ s := by
    rw [← ParseTable.stateCount, states]
    exact Array.getElem?_eq_none_iff.1 absent
  simp [ParseTable.row, Array.getD_eq_getD_getElem?, outside]

theorem Collects.tabulates {automaton : Automaton} (collects : rules.Collects automaton)
    {table : ParseTable} (h : rules.table automaton = .ok table) :
    rules.Tabulates automaton table := by
  obtain ⟨terminals, states, rows⟩ := collects.row_eq h
  refine ⟨terminals, states, ?_⟩
  intro s symbol action
  cases found : automaton.items? s with
  | none =>
    constructor
    · intro listed
      rw [ParseTable.action, row_outside states found] at listed
      contradiction
    · intro demanded
      obtain ⟨map, there⟩ := collects.demanded_source demanded
      rw [found] at there
      contradiction
  | some map =>
    obtain ⟨listed, nodup⟩ := rows found
    rw [ParseTable.action, lookup_eq_some_iff_mem nodup, listed, collects.mem_demands found]

end Rules

structure Machinery (rules : Rules) (automaton : Automaton) (table : ParseTable) : Prop where
  proper : rules.Proper
  collects : rules.Collects automaton
  tabulates : rules.Tabulates automaton table

namespace Machinery

variable {rules : Rules} {automaton : Automaton} {table : ParseTable} {s : Nat} {below : List Nat}
  {stack : List (Symbol Nat)} {item : Item} {look : Option Nat}

theorem items (machinery : Machinery rules automaton table)
    (path : automaton.Trail (s :: below) stack) :
    ∃ map, automaton.items? s = some map ∧
      ∀ item look, map.Holds item look ↔ rules.Viable stack item look :=
  path.items machinery.collects machinery.proper rfl

theorem step (machinery : Machinery rules automaton table)
    (path : automaton.Trail (s :: below) stack) (viable : rules.Viable stack item look)
    {symbol : Symbol Nat} (next : rules.next item = some symbol)
    (inside : symbol ≠ .terminal rules.eof) :
    ∃ target, table.action s symbol = some (stepAction target symbol) ∧
      automaton.Trail (target :: s :: below) (symbol :: stack) := by
  obtain ⟨target, edge⟩ := path.extend machinery.collects machinery.proper viable next inside
  exact ⟨target, machinery.tabulates.action.2 (.step edge), .step path edge⟩

theorem reduces (machinery : Machinery rules automaton table)
    (path : automaton.Trail (s :: below) stack) {t : Nat}
    (viable : rules.Viable stack item (some t)) (complete : rules.isComplete item = true) :
    table.action s (.terminal t) = some (.reduce item.production) := by
  obtain ⟨map, found, holds⟩ := machinery.items path
  exact machinery.tabulates.action.2 (.reduce found ((holds _ _).2 viable) complete)

theorem accepts (machinery : Machinery rules automaton table)
    (path : automaton.Trail (s :: below) stack) (viable : rules.Viable stack item look)
    (next : rules.next item = some (.terminal rules.eof)) :
    table.action s (.terminal rules.eof) = some .accept := by
  obtain ⟨map, found, holds⟩ := machinery.items path
  exact machinery.tabulates.action.2 (.accept found ((holds _ _).2 viable.present) next)

theorem terminal_cases (machinery : Machinery rules automaton table)
    (path : automaton.Trail (s :: below) stack) {t : Nat} {action : Action}
    (h : table.action s (.terminal t) = some action) :
    (∃ target item, action = .shift target ∧ t ≠ rules.eof ∧
      automaton.Trail (target :: s :: below) (.terminal t :: stack) ∧
      rules.Viable stack item none ∧ rules.next item = some (.terminal t)) ∨
    (∃ item, action = .reduce item.production ∧ rules.Viable stack item (some t) ∧
      rules.isComplete item = true) ∨
    (∃ item, action = .accept ∧ t = rules.eof ∧ rules.Viable stack item none ∧
      rules.next item = some (.terminal rules.eof)) := by
  obtain ⟨map, found, holds⟩ := machinery.items path
  generalize spelled : Symbol.terminal t = symbol at h
  cases machinery.tabulates.action.1 h with
  | step edge =>
    subst spelled
    obtain ⟨relevant, _⟩ := (machinery.collects.transition_iff found).1 edge
    obtain ⟨inside, item, listed, next⟩ := Rules.mem_relevantSymbols.1 relevant
    have viable := (holds _ _).1 (ItemMap.mem_items.1 listed)
    have other : t ≠ rules.eof := fun same => inside (congrArg _ same)
    exact Or.inl ⟨_, item, rfl, other, .step path edge, viable, next⟩
  | reduce found' held complete =>
    obtain rfl := Option.some.inj (found.symm.trans found')
    obtain rfl := Symbol.terminal.inj spelled
    exact Or.inr (Or.inl ⟨_, rfl, (holds _ _).1 held, complete⟩)
  | accept found' held next =>
    obtain rfl := Option.some.inj (found.symm.trans found')
    obtain rfl := Symbol.terminal.inj spelled
    exact Or.inr (Or.inr ⟨_, rfl, rfl, (holds _ _).1 held, next⟩)

theorem nonterminal_cases (machinery : Machinery rules automaton table) {n : Nat} {action : Action}
    (h : table.action s (.nonterminal n) = some action) :
    ∃ target, action = .goto target ∧ automaton.transition s (.nonterminal n) = some target := by
  generalize spelled : Symbol.nonterminal n = symbol at h
  cases machinery.tabulates.action.1 h with
  | step edge =>
    subst spelled
    exact ⟨_, rfl, edge⟩
  | reduce => contradiction
  | accept => contradiction

/-- Only symbols of the rules are ever pushed, and never the end of the input. -/
theorem usable (machinery : Machinery rules automaton table) {states : List Nat}
    (path : automaton.Trail states stack) : ∀ symbol ∈ stack, rules.Usable symbol := by
  induction path with
  | start => simp
  | @step s target below symbol stack path edge ih =>
    obtain ⟨map, found, _⟩ := machinery.items path
    obtain ⟨relevant, _⟩ := (machinery.collects.transition_iff found).1 edge
    obtain ⟨inside, item, _, next⟩ := Rules.mem_relevantSymbols.1 relevant
    have top : rules.Usable symbol := by
      cases symbol with
      | terminal t => exact ⟨machinery.proper.next_terminal next, fun same => inside (same ▸ rfl)⟩
      | nonterminal n => exact machinery.proper.next_nonterminal next
    intro other member
    rcases List.mem_cons.1 member with rfl | member
    · exact top
    · exact ih other member

theorem goto_lt (machinery : Machinery rules automaton table) {n target : Nat}
    (h : table.action s (.nonterminal n) = some (.goto target)) : target < table.stateCount := by
  obtain ⟨_, same, edge⟩ := machinery.nonterminal_cases h
  obtain rfl := Action.goto.inj same
  obtain ⟨map, found⟩ := machinery.collects.transition_source edge
  obtain ⟨_, there⟩ := (machinery.collects.transition_iff found).1 edge
  rw [machinery.tabulates.stateCount]
  exact (Array.getElem?_eq_some_iff.1 there).1

end Machinery

end CanonicalLR
