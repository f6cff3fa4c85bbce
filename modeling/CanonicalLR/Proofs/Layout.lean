import CanonicalLR.Proofs.Bounds
import CanonicalLR.Proofs.Clashes
/-
Tables in one array. All rows stand one behind the other, and the demands come in another order: the
steps of all states first, then the items state by state. Every symbol of every state has a place of
its own in the array, so it ends with the actions of the rows; and the first demand to find its
place taken is the one that the rows report.
-/
namespace CanonicalLR

def numbered {α : Type} (start : Nat) (rows : List (List α)) : List (Nat × α) :=
  (rows.zipIdx start).flatMap fun row => row.1.map fun entry => (row.2, entry)

def rowOf {α : Type} (r : Nat) (entries : List (Nat × α)) : List α :=
  (entries.filter fun entry => entry.1 = r).map Prod.snd

section Numbered

variable {α : Type} {r : Nat}

theorem numbered_cons (start : Nat) (row : List α) (rows : List (List α)) :
    numbered start (row :: rows) =
      (row.map fun entry => (start, entry)) ++ numbered (start + 1) rows := by
  simp [numbered]

theorem numbered_length (start : Nat) (rows : List (List α)) :
    (numbered start rows).length = rows.flatten.length := by
  induction rows generalizing start with
  | nil => rfl
  | cons row rows ih => simp [numbered_cons, ih]

theorem le_of_mem_numbered {start : Nat} {rows : List (List α)} {entry : Nat × α}
    (h : entry ∈ numbered start rows) : start ≤ entry.1 := by
  obtain ⟨row, listed, member⟩ := List.mem_flatMap.1 h
  obtain ⟨_, _, rfl⟩ := List.mem_map.1 member
  exact List.le_snd_of_mem_zipIdx listed

theorem numbered_ascending (start : Nat) (rows : List (List α)) :
    (numbered start rows).Pairwise fun a b => a.1 ≤ b.1 := by
  induction rows generalizing start with
  | nil => simp [numbered]
  | cons row rows ih =>
    rw [numbered_cons, List.pairwise_append]
    refine ⟨?_, ih (start + 1), ?_⟩
    · exact List.pairwise_map.2 (List.pairwise_of_forall fun _ _ => Nat.le_refl start)
    intro a here b later
    obtain ⟨_, _, rfl⟩ := List.mem_map.1 here
    have bound := le_of_mem_numbered later
    simp only
    omega

theorem rowOf_append (first second : List (Nat × α)) :
    rowOf r (first ++ second) = rowOf r first ++ rowOf r second := by
  simp [rowOf]

theorem mem_rowOf {entries : List (Nat × α)} {entry : α} :
    entry ∈ rowOf r entries ↔ (r, entry) ∈ entries := by
  simp [rowOf]

theorem rowOf_eq_nil {entries : List (Nat × α)} (apart : ∀ entry ∈ entries, entry.1 ≠ r) :
    rowOf r entries = [] := by
  have none : entries.filter (fun entry => decide (entry.1 = r)) = [] :=
    List.filter_eq_nil_iff.2 fun entry member => by simpa using apart entry member
  rw [rowOf, none]
  rfl

theorem rowOf_numbered (rows : List (List α)) (start k : Nat) :
    rowOf (start + k) (numbered start rows) = rows.getD k [] := by
  induction rows generalizing start k with
  | nil => simp [numbered, rowOf]
  | cons row rows ih =>
    rw [numbered_cons, rowOf_append]
    cases k with
    | zero =>
      have later : rowOf start (numbered (start + 1) rows) = [] := by
        apply rowOf_eq_nil
        intro entry member same
        have bound := le_of_mem_numbered member
        omega
      have own : rowOf start (row.map fun entry => (start, entry)) = row := by
        simp [rowOf, List.filter_map, Function.comp_def]
      rw [Nat.add_zero, own, later, List.append_nil]
      rfl
    | succ k =>
      have here : rowOf (start + (k + 1)) (row.map fun entry => (start, entry)) = [] := by
        apply rowOf_eq_nil
        intro entry member
        obtain ⟨_, _, rfl⟩ := List.mem_map.1 member
        simp
      rw [here, List.nil_append, show start + (k + 1) = start + 1 + k by omega, ih]
      simp

end Numbered

abbrev Order := Nat × Symbol Nat × Action

def place (order : Order) : Nat × Symbol Nat := (order.1, order.2.1)

theorem rowOf_cons_self (s : Nat) (entry : Symbol Nat × Action) (rest : List Order) :
    rowOf s ((s, entry) :: rest) = entry :: rowOf s rest := by
  simp [rowOf]

theorem rowOf_cons_of_ne {r s : Nat} (apart : r ≠ s) (entry : Symbol Nat × Action)
    (rest : List Order) : rowOf r ((s, entry) :: rest) = rowOf r rest := by
  simp [rowOf, Ne.symm apart]

theorem mem_places {orders : List Order} {s : Nat} {symbol : Symbol Nat} :
    (s, symbol) ∈ orders.map place ↔ symbol ∈ (rowOf s orders).map Prod.fst := by
  simp only [List.mem_map, mem_rowOf, Prod.exists]
  constructor
  · intro ⟨_, _, existing, member, same⟩
    obtain ⟨rfl, rfl⟩ := Prod.mk.inj same
    exact ⟨_, existing, member, rfl⟩
  · intro ⟨_, existing, member, same⟩
    subst same
    exact ⟨s, _, existing, member, rfl⟩

theorem places_nodup_iff {orders : List Order} :
    (orders.map place).Nodup ↔ ∀ r, ((rowOf r orders).map Prod.fst).Nodup := by
  induction orders with
  | nil => simp [rowOf]
  | cons order rest ih =>
    obtain ⟨s, symbol, action⟩ := order
    rw [List.map_cons, List.nodup_cons, ih, show place (s, symbol, action) = (s, symbol) from rfl,
      mem_places]
    constructor
    · intro ⟨free, rows⟩ r
      by_cases here : r = s
      · rw [here, rowOf_cons_self, List.map_cons, List.nodup_cons]
        exact ⟨free, rows s⟩
      · rw [rowOf_cons_of_ne here]
        exact rows r
    · intro rows
      have first := rows s
      rw [rowOf_cons_self, List.map_cons, List.nodup_cons] at first
      refine ⟨first.1, ?_⟩
      intro r
      by_cases here : r = s
      · rw [here]
        exact first.2
      · rw [← rowOf_cons_of_ne here]
        exact rows r

theorem places_nodup_append {orders : List Order} (apart : (orders.map place).Nodup) {s : Nat}
    {symbol : Symbol Nat} (vacant : ∀ existing, (s, symbol, existing) ∉ orders)
    (action : Action) : ((orders ++ [(s, symbol, action)]).map place).Nodup := by
  rw [List.map_append, List.nodup_append]
  refine ⟨apart, by simp, ?_⟩
  intro old here new added same
  obtain ⟨⟨s', symbol', existing⟩, member, rfl⟩ := List.mem_map.1 here
  obtain rfl : new = (s, symbol) := by simpa [place] using added
  obtain ⟨rfl, rfl⟩ := Prod.mk.inj same
  exact vacant existing member

/-- A table whose cells stand row after row in one array. -/
structure CellTable where
  stateCount : Nat
  cells : Array (Option Action)

namespace Rules

variable (rules : Rules)

instance : DecidablePred rules.Known
  | .terminal t => inferInstanceAs (Decidable (t < rules.terminalCount))
  | .nonterminal n => inferInstanceAs (Decidable (n < rules.nonterminalCount))

def install (cells : Array (Option Action)) (order : Order) :
    Except Conflict (Array (Option Action)) :=
  match cells.getD (rules.slot order.1 order.2.1) none with
  | none => .ok (cells.setIfInBounds (rules.slot order.1 order.2.1) (some order.2.2))
  | some existing => .error ⟨order.1, order.2.1, existing, order.2.2⟩

def installAll : Array (Option Action) → List Order → Except Conflict (Array (Option Action))
  | cells, [] => .ok cells
  | cells, order :: rest =>
    match rules.install cells order with
    | .ok grown => installAll grown rest
    | .error conflict => .error conflict

def stepOrders (automaton : Automaton) : List Order :=
  automaton.edges.map fun edge => (edge.source, edge.symbol, stepAction edge.target edge.symbol)

def itemOrders (automaton : Automaton) : List Order :=
  numbered 0 (automaton.states.toList.map rules.mapDemands)

def orders (automaton : Automaton) : List Order :=
  stepOrders automaton ++ rules.itemOrders automaton

/-- The table of an automaton in one array, or the first order whose place is taken. -/
def layOut (automaton : Automaton) : Except Conflict CellTable :=
  (rules.installAll (Array.replicate (automaton.stateCount * rules.width) none)
    (rules.orders automaton)).map fun cells => ⟨automaton.stateCount, cells⟩

end Rules

namespace CellTable

def action (table : CellTable) (rules : Rules) (state : Nat) (symbol : Symbol Nat) :
    Option Action :=
  if state < table.stateCount ∧ rules.Known symbol then
    table.cells.getD (rules.slot state symbol) none
  else none

def expected (table : CellTable) (rules : Rules) (state : Nat) : List Nat :=
  (List.range rules.terminalCount).filter fun t =>
    (table.action rules state (.terminal t)).isSome

def size (table : CellTable) : Nat := table.cells.countP Option.isSome

end CellTable

namespace Rules

variable {rules : Rules} {automaton : Automaton} {count : Nat} {cells : Array (Option Action)}
  {entered : List Order}

theorem getD_setCell {i : Nat} (inside : i < cells.size) (action : Action) (j : Nat) :
    (cells.setIfInBounds i (some action)).getD j none =
      if i = j then some action else cells.getD j none := by
  rw [Array.getD_eq_getD_getElem?, Array.getElem?_setIfInBounds, Array.getD_eq_getD_getElem?]
  by_cases same : i = j
  · rw [if_pos same, if_pos same, if_pos inside, Option.getD_some]
  · rw [if_neg same, if_neg same]

theorem filled_setCell {i : Nat} (inside : i < cells.size) (free : cells.getD i none = none)
    (action : Action) :
    (cells.setIfInBounds i (some action)).countP Option.isSome =
      cells.countP Option.isSome + 1 := by
  have empty : cells[i] = none := by simpa [Array.getD, inside] using free
  rw [Array.setIfInBounds_def, dif_pos inside, Array.countP_set]
  simp [empty]

structure Fills (rules : Rules) (count : Nat) (cells : Array (Option Action))
    (entered : List Order) : Prop where
  size : cells.size = count * rules.width
  apart : (entered.map place).Nodup
  cell {s : Nat} {symbol : Symbol Nat} {action : Action} : s < count → rules.Known symbol →
    (cells.getD (rules.slot s symbol) none = some action ↔ (s, symbol, action) ∈ entered)
  filled : cells.countP Option.isSome = entered.length

theorem fills_none (rules : Rules) (count : Nat) :
    rules.Fills count (Array.replicate (count * rules.width) none) [] := by
  constructor
  · simp
  · simp
  · intro s symbol action row known
    simp [Array.getD]
  · simp [Array.countP_replicate]

theorem Fills.enter (inv : rules.Fills count cells entered) {s : Nat} {symbol : Symbol Nat}
    (row : s < count) (known : rules.Known symbol)
    (free : cells.getD (rules.slot s symbol) none = none) (action : Action) :
    rules.Fills count (cells.setIfInBounds (rules.slot s symbol) (some action))
      (entered ++ [(s, symbol, action)]) := by
  have inside : rules.slot s symbol < cells.size := inv.size ▸ slot_lt row known
  have vacant : ∀ existing, (s, symbol, existing) ∉ entered := by
    intro existing member
    rw [(inv.cell row known).2 member] at free
    contradiction
  constructor
  · rw [Array.size_setIfInBounds, inv.size]
  · exact places_nodup_append inv.apart vacant action
  · intro s' symbol' other row' known'
    rw [getD_setCell inside, List.mem_append, List.mem_singleton, ← inv.cell row' known']
    by_cases same : rules.slot s symbol = rules.slot s' symbol'
    · obtain ⟨rfl, rfl⟩ := slot_injective known known' same
      rw [if_pos rfl, free]
      simp [eq_comm]
    · have apart : (s', symbol', other) ≠ (s, symbol, action) := by
        intro equal
        cases equal
        exact same rfl
      rw [if_neg same]
      simp [apart]
  · rw [filled_setCell inside free, inv.filled, List.length_append, List.length_singleton]

theorem Fills.install (inv : rules.Fills count cells entered) {s : Nat} {symbol : Symbol Nat}
    (row : s < count) (known : rules.Known symbol) (action : Action) :
    (∃ grown, rules.install cells (s, symbol, action) = .ok grown ∧
      rules.Fills count grown (entered ++ [(s, symbol, action)])) ∨
    ∃ existing, rules.install cells (s, symbol, action) =
      .error ⟨s, symbol, existing, action⟩ ∧ (s, symbol, existing) ∈ entered := by
  unfold Rules.install
  dsimp only
  split
  · rename_i free
    exact Or.inl ⟨_, rfl, inv.enter row known free action⟩
  · rename_i existing taken
    exact Or.inr ⟨existing, rfl, (inv.cell row known).1 taken⟩

theorem Fills.installAll (inv : rules.Fills count cells entered) {orders : List Order}
    (inside : ∀ order ∈ orders, order.1 < count ∧ rules.Known order.2.1) :
    (∃ grown, rules.installAll cells orders = .ok grown ∧
      rules.Fills count grown (entered ++ orders)) ∨
    ∃ before s symbol existing incoming after,
      orders = before ++ (s, symbol, incoming) :: after ∧
      rules.installAll cells orders = .error ⟨s, symbol, existing, incoming⟩ ∧
      ((entered ++ before).map place).Nodup ∧ (s, symbol, existing) ∈ entered ++ before := by
  induction orders generalizing cells entered with
  | nil => exact Or.inl ⟨cells, rfl, by rwa [List.append_nil]⟩
  | cons order rest ih =>
    obtain ⟨s, symbol, action⟩ := order
    rw [List.forall_mem_cons] at inside
    unfold Rules.installAll
    rcases inv.install inside.1.1 inside.1.2 action with
      ⟨grown, done, next⟩ | ⟨existing, refused, member⟩
    · rw [done]
      rcases ih next inside.2 with ⟨last, ended, fills⟩ |
        ⟨before, s', symbol', existing, incoming, after, split, ended, apart, member⟩
      · exact Or.inl ⟨last, ended, by simpa using fills⟩
      · refine Or.inr ⟨(s, symbol, action) :: before, s', symbol', existing, incoming, after, ?_⟩
        rw [List.append_assoc] at apart member
        exact ⟨by rw [split]; rfl, ended, apart, member⟩
    · rw [refused]
      exact Or.inr ⟨[], s, symbol, existing, action, rest, rfl, rfl, by simpa using inv.apart,
        by simpa using member⟩

theorem rowOf_stepOrders (automaton : Automaton) (s : Nat) :
    rowOf s (stepOrders automaton) = stepDemands (automaton.stepsFrom s) := by
  have listed : stepOrders automaton = numbered 0 (automaton.steps.toList.map stepDemands) := by
    simp [stepOrders, Automaton.edges, numbered, stepDemands, List.zipIdx_map, List.flatMap_map,
      List.map_flatMap, Function.comp_def]
  have row := rowOf_numbered (automaton.steps.toList.map stepDemands) 0 s
  rw [Nat.zero_add, ← listed, List.getD_eq_getElem?_getD] at row
  rw [row, Automaton.stepsFrom, Array.getD_eq_getD_getElem?]
  cases stored : automaton.steps[s]? with
  | none => simp [stored, stepDemands]
  | some steps => simp [stored]

theorem rowOf_itemOrders (rules : Rules) (automaton : Automaton) (s : Nat) :
    rowOf s (rules.itemOrders automaton) =
      ((automaton.items? s).map rules.mapDemands).getD [] := by
  have row := rowOf_numbered (automaton.states.toList.map rules.mapDemands) 0 s
  rw [Nat.zero_add, List.getD_eq_getElem?_getD] at row
  rw [itemOrders, row]
  simp [Automaton.items?]

theorem rowOf_orders {s : Nat} {map : ItemMap} (found : automaton.items? s = some map) :
    rowOf s (rules.orders automaton) = rules.demands map (automaton.stepsFrom s) := by
  rw [orders, rowOf_append, rowOf_stepOrders, rowOf_itemOrders, found]
  rfl

theorem Collects.source_of_order (collects : rules.Collects automaton) {order : Order}
    (member : order ∈ rules.orders automaton) : ∃ map, automaton.items? order.1 = some map := by
  rcases List.mem_append.1 member with step | item
  · obtain ⟨edge, listed, rfl⟩ := List.mem_map.1 step
    have transition := (Automaton.mem_edges collects.deterministic).1 listed
    exact collects.transition_source transition
  · have row : order.2 ∈ rowOf order.1 (rules.itemOrders automaton) := mem_rowOf.2 item
    rw [rowOf_itemOrders] at row
    cases found : automaton.items? order.1 with
    | none => simp [found] at row
    | some map => exact ⟨map, rfl⟩

theorem Collects.mem_orders (collects : rules.Collects automaton) {s : Nat} {symbol : Symbol Nat}
    {action : Action} :
    (s, symbol, action) ∈ rules.orders automaton ↔ rules.Demanded automaton s symbol action := by
  constructor
  · intro member
    obtain ⟨map, found⟩ := collects.source_of_order member
    rwa [← mem_rowOf, rowOf_orders found, collects.mem_demands found] at member
  · intro demanded
    obtain ⟨map, found⟩ := collects.demanded_source demanded
    rwa [← mem_rowOf, rowOf_orders found, collects.mem_demands found]

theorem Collects.orders_inside (collects : rules.Collects automaton) (proper : rules.Proper) :
    ∀ order ∈ rules.orders automaton,
      order.1 < automaton.stateCount ∧ rules.Known order.2.1 := by
  intro ⟨s, symbol, action⟩ member
  obtain ⟨map, found⟩ := collects.source_of_order member
  exact ⟨(Array.getElem?_eq_some_iff.1 found).1,
    (collects.demanded_inBounds proper (collects.mem_orders.1 member)).1⟩

end Rules

theorem fillRow_refuses (state : Nat) {before after : List (Symbol Nat × Action)}
    {symbol : Symbol Nat} {existing incoming : Action} (nodup : (before.map Prod.fst).Nodup)
    (taken : (symbol, existing) ∈ before) :
    fillRow state [] (before ++ (symbol, incoming) :: after) =
      .error ⟨state, symbol, existing, incoming⟩ := by
  have listed : before.lookup symbol = some existing := (lookup_eq_some_iff_mem nodup).2 taken
  have entered : ((([] : List (Symbol Nat × Action)) ++ before).map Prod.fst).Nodup := nodup
  rw [fillRow_append state entered]
  simp [fillRow, listed]

theorem fillRows_refuses {rules : Rules} (state k : Nat)
    {states : List (ItemMap × List (Symbol Nat × Nat))} {map : ItemMap}
    {steps : List (Symbol Nat × Nat)} {conflict : Conflict}
    (earlier : ∀ i < k, ∀ entry, states[i]? = some entry →
      ((rules.demands entry.1 entry.2).map Prod.fst).Nodup)
    (found : states[k]? = some (map, steps))
    (refused : fillRow (state + k) [] (rules.demands map steps) = .error conflict) :
    fillRows rules state states = .error conflict := by
  induction states generalizing state k with
  | nil => simp at found
  | cons entry rest ih =>
    obtain ⟨first, row⟩ := entry
    unfold fillRows
    cases k with
    | zero =>
      obtain ⟨rfl, rfl⟩ := Prod.mk.inj (Option.some.inj found)
      rw [Nat.add_zero] at refused
      rw [refused]
    | succ k =>
      have filled : fillRow state [] (rules.demands first row) =
          .ok (rules.demands first row) :=
        fillRow_succeeds state (earlier 0 (Nat.succ_pos k) (first, row) rfl)
      have later := ih (state + 1) k (fun i less => earlier (i + 1) (Nat.succ_lt_succ less)) found
        (by rwa [Nat.add_assoc, Nat.add_comm 1 k])
      rw [filled, later]
      rfl

namespace Rules

variable {rules : Rules} {automaton : Automaton}

theorem Collects.zipped (collects : rules.Collects automaton) {s : Nat} {map : ItemMap}
    (found : automaton.items? s = some map) :
    (automaton.states.toList.zip automaton.steps.toList)[s]? =
      some (map, automaton.stepsFrom s) := by
  obtain ⟨row, stored, _⟩ := collects.row found
  rw [Automaton.stepsFrom_eq stored]
  have state : automaton.states[s]? = some map := found
  exact List.getElem?_zip_eq_some.2 ⟨by simpa using state, by simpa using stored⟩

theorem table_of_apart (apart : ((rules.orders automaton).map place).Nodup) :
    ∃ table, rules.table automaton = .ok table := by
  have nodup : ∀ entry ∈ automaton.states.toList.zip automaton.steps.toList,
      ((rules.demands entry.1 entry.2).map Prod.fst).Nodup := by
    intro ⟨map, steps⟩ member
    obtain ⟨s, zipped⟩ := List.mem_iff_getElem?.1 member
    obtain ⟨found, rfl⟩ := Automaton.items_of_zip zipped
    rw [← rowOf_orders found]
    exact places_nodup_iff.1 apart s
  obtain ⟨rows, filled⟩ := fillRows_succeeds 0 nodup
  exact ⟨_, by rw [Rules.table, filled]; rfl⟩

theorem Collects.stepOrders_apart (collects : rules.Collects automaton) :
    ((stepOrders automaton).map place).Nodup := by
  rw [places_nodup_iff]
  intro s
  rw [rowOf_stepOrders]
  exact collects.stepDemands_keys_nodup s

theorem Collects.table_of_split (collects : rules.Collects automaton) {before after : List Order}
    {s : Nat} {symbol : Symbol Nat} {existing incoming : Action}
    (split : rules.orders automaton = before ++ (s, symbol, incoming) :: after)
    (apart : (before.map place).Nodup) (taken : (s, symbol, existing) ∈ before) :
    rules.table automaton = .error ⟨s, symbol, existing, incoming⟩ := by
  have rows := places_nodup_iff.1 apart
  -- the order that finds its place taken is that of an item, and items come state by state
  obtain ⟨between, _, items⟩ := split_behind place split collects.stepOrders_apart taken rfl
  have later : ∀ order ∈ after, s ≤ order.1 := by
    have ascending := numbered_ascending 0 (automaton.states.toList.map rules.mapDemands)
    rw [← itemOrders, items, List.pairwise_append] at ascending
    exact (List.pairwise_cons.1 ascending.2.1).1
  have earlier : ∀ i < s, ∀ entry,
      (automaton.states.toList.zip automaton.steps.toList)[i]? = some entry →
        ((rules.demands entry.1 entry.2).map Prod.fst).Nodup := by
    intro i less ⟨map, steps⟩ zipped
    obtain ⟨found, rfl⟩ := Automaton.items_of_zip zipped
    have none : rowOf i after = [] := by
      apply rowOf_eq_nil
      intro order member
      have bound := later order member
      omega
    rw [← rowOf_orders found, split, rowOf_append, rowOf_cons_of_ne (Nat.ne_of_lt less), none,
      List.append_nil]
    exact rows i
  have member : ((s, symbol, incoming) : Order) ∈ rules.orders automaton := by simp [split]
  obtain ⟨map, found⟩ := collects.source_of_order member
  have refused : fillRow (0 + s) [] (rules.demands map (automaton.stepsFrom s)) =
      .error ⟨s, symbol, existing, incoming⟩ := by
    rw [Nat.zero_add, ← rowOf_orders found, split, rowOf_append, rowOf_cons_self]
    exact fillRow_refuses s (rows s) (mem_rowOf.2 taken)
  rw [Rules.table, fillRows_refuses 0 s earlier (collects.zipped found) refused]
  rfl

/-- In one array the table comes out as in rows, or else with the same conflict. -/
theorem Collects.layOut_cases (collects : rules.Collects automaton) (proper : rules.Proper) :
    (∃ table laid, rules.table automaton = .ok table ∧ rules.layOut automaton = .ok laid ∧
      laid.stateCount = automaton.stateCount ∧
      rules.Fills automaton.stateCount laid.cells (rules.orders automaton)) ∨
    ∃ conflict, rules.table automaton = .error conflict ∧
      rules.layOut automaton = .error conflict := by
  have inside := collects.orders_inside proper
  rcases (rules.fills_none automaton.stateCount).installAll inside with
    ⟨cells, done, fills⟩ |
    ⟨before, s, symbol, existing, incoming, after, split, refused, apart, taken⟩
  · obtain ⟨table, built⟩ := table_of_apart fills.apart
    refine Or.inl ⟨table, ⟨automaton.stateCount, cells⟩, built, ?_, rfl, fills⟩
    rw [layOut, done]
    rfl
  · refine Or.inr ⟨_, collects.table_of_split split apart taken, ?_⟩
    rw [layOut, refused]
    rfl

end Rules

end CanonicalLR
