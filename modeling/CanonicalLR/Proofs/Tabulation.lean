import CanonicalLR.Proofs.Layout
import Mathlib.Data.Set.Card
/-
What a table says. It exists exactly if no symbol of a state has two different demands, and then it
answers every state and every symbol with what the automaton demands there, lists the terminals with
a demand and counts the places with one. In rows and in one array it says the same.
-/
namespace CanonicalLR

namespace ParseTable

def entries (table : ParseTable) : List Order := numbered 0 table.rows.toList

theorem entries_length (table : ParseTable) : table.entries.length = table.size := by
  rw [entries, numbered_length, size]

theorem rowOf_entries (table : ParseTable) (s : Nat) : rowOf s table.entries = table.row s := by
  have listed := rowOf_numbered table.rows.toList 0 s
  rw [Nat.zero_add] at listed
  rw [entries, listed, row]
  simp [List.getD_eq_getElem?_getD, Array.getD_eq_getD_getElem?]

end ParseTable

namespace Rules

variable {rules : Rules} {automaton : Automaton}

def Undisputed (rules : Rules) (automaton : Automaton) : Prop :=
  ∀ s symbol one two, rules.Demanded automaton s symbol one →
    rules.Demanded automaton s symbol two → one = two

def demandedPlaces (rules : Rules) (automaton : Automaton) : Set (Nat × Symbol Nat) :=
  {cell | ∃ action, rules.Demanded automaton cell.1 cell.2 action}

/-- What a table says, whichever way it is stored: the demanded actions and no others, in each state
the terminals with an action, and how many actions there are. -/
structure Records (rules : Rules) (automaton : Automaton)
    (lookUp : Nat → Symbol Nat → Option Action) (listed : Nat → List Nat) (count : Nat) :
    Prop where
  action (s : Nat) (symbol : Symbol Nat) (action : Action) :
    lookUp s symbol = some action ↔ rules.Demanded automaton s symbol action
  ascending (s : Nat) : Ascending (listed s)
  mem_listed (s t : Nat) : t ∈ listed s ↔ ∃ action, rules.Demanded automaton s (.terminal t) action
  count : (rules.demandedPlaces automaton).encard = count

theorem Collects.table_ok_iff (collects : rules.Collects automaton) (proper : rules.Proper) :
    (∃ table, rules.table automaton = .ok table) ↔ rules.Undisputed automaton := by
  constructor
  · intro ⟨table, built⟩ s symbol one two first second
    have tabulates := collects.tabulates built
    exact Option.some.inj ((tabulates.action.2 first).symm.trans (tabulates.action.2 second))
  · intro undisputed
    cases built : rules.table automaton with
    | ok table => exact ⟨table, rfl⟩
    | error conflict =>
      obtain ⟨_, _, first, second⟩ := collects.conflict_demanded built
      have distinct := (collects.conflict_clash proper built).1
      exact absurd (undisputed _ _ _ _ first second) distinct

theorem demandedPlaces_encard {entries : List Order} (apart : (entries.map place).Nodup)
    (demanded : ∀ s symbol action,
      (s, symbol, action) ∈ entries ↔ rules.Demanded automaton s symbol action) :
    (rules.demandedPlaces automaton).encard = entries.length := by
  have places : rules.demandedPlaces automaton = ↑(entries.map place).toFinset := by
    ext ⟨s, symbol⟩
    simp [demandedPlaces, place, ← demanded]
  rw [places, Set.encard_coe_eq_coe_finsetCard, List.toFinset_card_of_nodup apart,
    List.length_map]

theorem Collects.records (collects : rules.Collects automaton) (proper : rules.Proper)
    {lookUp : Nat → Symbol Nat → Option Action} {entries : List Order}
    (action : ∀ s symbol action,
      lookUp s symbol = some action ↔ rules.Demanded automaton s symbol action)
    (apart : (entries.map place).Nodup)
    (stored : ∀ s symbol action,
      (s, symbol, action) ∈ entries ↔ rules.Demanded automaton s symbol action) :
    rules.Records automaton lookUp
      (fun s => (List.range rules.terminalCount).filter fun t => (lookUp s (.terminal t)).isSome)
      entries.length := by
  constructor
  · exact action
  · intro s
    exact List.Pairwise.filter _ List.pairwise_lt_range
  · intro s t
    rw [List.mem_filter, List.mem_range, Option.isSome_iff_exists]
    simp only [action]
    constructor
    · intro ⟨_, demanded⟩
      exact demanded
    · intro ⟨a, demanded⟩
      exact ⟨(collects.demanded_inBounds proper demanded).1, a, demanded⟩
  · exact demandedPlaces_encard apart stored

theorem Collects.row_keys_nodup (collects : rules.Collects automaton) {table : ParseTable}
    (built : rules.table automaton = .ok table) (s : Nat) :
    ((table.row s).map Prod.fst).Nodup := by
  obtain ⟨_, states, rows⟩ := collects.row_eq built
  cases found : automaton.items? s with
  | some map => exact (rows found).2
  | none => simp [row_outside states found]

theorem Collects.table_records (collects : rules.Collects automaton) (proper : rules.Proper)
    {table : ParseTable} (built : rules.table automaton = .ok table) :
    rules.Records automaton table.action table.expected table.size := by
  have tabulates := collects.tabulates built
  have nodup := collects.row_keys_nodup built
  have apart : (table.entries.map place).Nodup := by
    rw [places_nodup_iff]
    intro s
    rw [table.rowOf_entries]
    exact nodup s
  have stored : ∀ s symbol action, (s, symbol, action) ∈ table.entries ↔
      rules.Demanded automaton s symbol action := by
    intro s symbol action
    rw [← mem_rowOf, table.rowOf_entries, ← lookup_eq_some_iff_mem (nodup s)]
    exact tabulates.action
  have records := collects.records proper (fun _ _ _ => tabulates.action) apart stored
  rw [← tabulates.terminalCount, table.entries_length] at records
  exact records

theorem Collects.laid_action (collects : rules.Collects automaton) (proper : rules.Proper)
    {laid : CellTable} (count : laid.stateCount = automaton.stateCount)
    (fills : rules.Fills automaton.stateCount laid.cells (rules.orders automaton)) (s : Nat)
    (symbol : Symbol Nat) (action : Action) :
    laid.action rules s symbol = some action ↔ rules.Demanded automaton s symbol action := by
  rw [← collects.mem_orders, CellTable.action, count]
  by_cases inside : s < automaton.stateCount ∧ rules.Known symbol
  · rw [if_pos inside, fills.cell inside.1 inside.2]
  · rw [if_neg inside]
    have absent : (s, symbol, action) ∉ rules.orders automaton := by
      intro member
      exact inside (collects.orders_inside proper _ member)
    simp [absent]

theorem Collects.layOut_records (collects : rules.Collects automaton) (proper : rules.Proper)
    {laid : CellTable} (done : rules.layOut automaton = .ok laid) :
    rules.Records automaton (laid.action rules) (laid.expected rules) laid.size := by
  rcases collects.layOut_cases proper with ⟨_, other, _, also, count, fills⟩ | ⟨_, _, refused⟩
  · obtain rfl := Except.ok.inj (done.symm.trans also)
    have records := collects.records proper (collects.laid_action proper count fills) fills.apart
      fun _ _ _ => collects.mem_orders
    rw [← fills.filled] at records
    exact records
  · rw [done] at refused
    contradiction

theorem Collects.layOut_error_iff (collects : rules.Collects automaton) (proper : rules.Proper)
    (conflict : Conflict) :
    rules.layOut automaton = .error conflict ↔ rules.table automaton = .error conflict := by
  rcases collects.layOut_cases proper with ⟨_, _, built, done, _⟩ | ⟨_, refused, also⟩
  · simp [built, done]
  · rw [refused, also, Except.error.injEq, Except.error.injEq]

end Rules

variable {τ υ : Type} [DecidableEq τ] [Fingerprint τ] [Spelling τ] {eof : τ}
  {calls : List (Registration τ υ)} {frozen : FrozenGrammar τ υ}

/-- A finished grammar has a table exactly if its automaton makes no two demands at one place, and
the table says what the automaton demands. In one array it says the same, and is refused for the
same conflict. -/
theorem table_faithful (froze : (Grammar.assemble eof calls).freeze = .ok frozen)
    (construction : Construction) {automaton : Automaton}
    (collected : frozen.rules.automaton (FirstFollow.ofRules frozen.rules) construction =
      automaton) :
    ((∃ table, frozen.rules.table automaton = .ok table) ↔ frozen.rules.Undisputed automaton) ∧
    (∀ table, frozen.rules.table automaton = .ok table →
      frozen.rules.Records automaton table.action table.expected table.size) ∧
    (∀ laid, frozen.rules.layOut automaton = .ok laid →
      frozen.rules.Records automaton (laid.action frozen.rules) (laid.expected frozen.rules)
        laid.size) ∧
    ∀ conflict, frozen.rules.layOut automaton = .error conflict ↔
      frozen.rules.table automaton = .error conflict := by
  obtain ⟨start, declared, rfl⟩ := Grammar.freeze_eq froze
  have proper := Grammar.rulesFrom_proper (Grammar.assemble_wellFormed eof calls) declared
  have collects := proper.collects construction
  rw [collected] at collects
  refine ⟨collects.table_ok_iff proper, ?_, ?_, collects.layOut_error_iff proper⟩
  · intro table built
    exact collects.table_records proper built
  · intro laid done
    exact collects.layOut_records proper done

theorem table_faithful_nested : ∃ frozen table laid,
    (Grammar.assemble "$" nested).freeze = .ok frozen ∧
    frozen.rules.table
      (frozen.rules.automaton (FirstFollow.ofRules frozen.rules) .sequential) = .ok table ∧
    frozen.rules.layOut
      (frozen.rules.automaton (FirstFollow.ofRules frozen.rules) .sequential) = .ok laid ∧
    table.size = 14 ∧ table.expected 0 = [0, 1] ∧ laid.size = 14 ∧
    frozen.rules.Undisputed
      (frozen.rules.automaton (FirstFollow.ofRules frozen.rules) .sequential) ∧
    (frozen.rules.demandedPlaces
      (frozen.rules.automaton (FirstFollow.ofRules frozen.rules) .sequential)).encard = 14 := by
  obtain ⟨frozen, froze, rows, cells⟩ : ∃ frozen,
      (Grammar.assemble "$" nested).freeze = .ok frozen ∧
      (frozen.rules.table
        (frozen.rules.automaton (FirstFollow.ofRules frozen.rules) .sequential)).toOption.any
          (fun table => decide (table.size = 14 ∧ table.expected 0 = [0, 1])) = true ∧
      (frozen.rules.layOut
        (frozen.rules.automaton (FirstFollow.ofRules frozen.rules) .sequential)).toOption.any
          (fun laid => decide (laid.size = 14)) = true :=
    exists_ok (by decide +kernel)
  obtain ⟨table, built, size, expected⟩ := exists_ok rows
  obtain ⟨laid, done, cellCount⟩ := exists_ok cells
  obtain ⟨undisputed, records, _⟩ := table_faithful froze .sequential rfl
  have counted := (records table built).count
  rw [size] at counted
  exact ⟨frozen, table, laid, froze, built, done, size, expected, cellCount,
    undisputed.1 ⟨table, built⟩, counted⟩

end CanonicalLR
