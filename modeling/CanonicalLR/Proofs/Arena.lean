import CanonicalLR.Proofs.Numbering
import CanonicalLR.Proofs.Refusals
/-
What a search keeps: entries, states and edges under the ids of their first sight, a state as the
ids of its entries. Under any fingerprints it gives item maps the ids that a table of whole maps
gives them.
-/
namespace CanonicalLR

theorem ItemMap.ofList_entries (map : ItemMap) : ofList map.entries = map := by
  apply ext_holds
  intro item look
  rw [holds_ofList map.keys_nodup, holds_iff_mem]

/-- Entries, states and edges, each under the id of its first sight. A state is spelled by the ids
of its entries. -/
structure Arena where
  entries : Interner (Item × TerminalSet) Nat
  states : Interner (List Nat) Nat
  edges : Interner Edge Nat

namespace Arena

def empty : Arena := ⟨.empty, .empty, .empty⟩

def items (arena : Arena) (state : Nat) : List (Item × TerminalSet) :=
  ((arena.states.get? state).getD []).filterMap arena.entries.get?

def map (arena : Arena) (state : Nat) : ItemMap := ItemMap.ofList (arena.items state)

end Arena

section Interning

variable [Fingerprint (Item × TerminalSet)] [Fingerprint (List Nat)] [Fingerprint Edge]

def Arena.internState (arena : Arena) (map : ItemMap) : Nat × Arena :=
  let (ids, entries) := arena.entries.internAll map.entries
  let state := arena.states.intern ids
  (state.id, ⟨entries, state.table, arena.edges⟩)

def Arena.internEdge (arena : Arena) (edge : Edge) : Arena :=
  ⟨arena.entries, arena.states, (arena.edges.intern edge).table⟩

end Interning

namespace Interner

variable {α : Type} {table large : Interner α Nat} {ids : List Nat} {values : List α}

def Reads (table : Interner α Nat) : List Nat → List α → Prop :=
  List.Forall₂ fun id value => table.get? id = some value

theorem Reads.grow (reads : table.Reads ids values) (grown : table.Extends large) :
    large.Reads ids values :=
  reads.imp fun _ _ found => grown found

theorem Reads.values_eq (reads : table.Reads ids values) : ids.filterMap table.get? = values := by
  induction reads with
  | nil => rfl
  | cons found _ ih => rw [List.filterMap_cons_some found, ih]

end Interner

namespace Arena

structure Spells [Fingerprint (Item × TerminalSet)] [Fingerprint (List Nat)] (arena : Arena)
    (table : Interner ItemMap Nat) : Prop where
  entries : arena.entries.Faithful
  states : arena.states.Faithful
  sizes : arena.states.size = table.size
  spelled {state : Nat} {map : ItemMap} : table.get? state = some map →
    ∃ ids, arena.states.get? state = some ids ∧ arena.entries.Reads ids map.entries

variable [Fingerprint (Item × TerminalSet)] [Fingerprint (List Nat)] {arena : Arena}
  {table : Interner ItemMap Nat}

theorem empty_spells : Arena.empty.Spells Interner.empty := by
  constructor
  · exact Interner.empty_faithful
  · exact Interner.empty_faithful
  · rfl
  · intro state map found
    exact absurd (Interner.get?_lt found) (Nat.not_lt_zero _)

theorem Spells.map_eq (spells : arena.Spells table) {state : Nat} {map : ItemMap}
    (found : table.get? state = some map) : arena.map state = map := by
  obtain ⟨ids, stored, reads⟩ := spells.spelled found
  have items : arena.items state = map.entries := by
    rw [items, stored, Option.getD_some, reads.values_eq]
  rw [Arena.map, items, ItemMap.ofList_entries]

theorem Spells.maps_eq (spells : arena.Spells table) :
    (List.range arena.states.size).map arena.map = table.values.toList := by
  have sizes : arena.states.size = table.values.size := spells.sizes
  apply List.ext_getElem
  · simpa using sizes
  · intro s inside _
    rw [List.length_map, List.length_range, sizes] at inside
    have found : table.get? s = some table.values[s] := Array.getElem?_eq_getElem inside
    simp [spells.map_eq found]

/-- A map that the table has is spelled already, and one that it lacks has a new spelling. -/
theorem Spells.internState (spells : arena.Spells table) (faithful : table.Faithful)
    (map : ItemMap) :
    (arena.internState map).1 = (table.intern map).id ∧
      (arena.internState map).2.Spells (table.intern map).table := by
  have reads : (arena.entries.internAll map.entries).2.Reads
      (arena.entries.internAll map.entries).1 map.entries :=
    Interner.internAll_ids spells.entries map.entries
  have grown := Interner.internAll_extends arena.entries map.entries
  have entries := Interner.internAll_faithful spells.entries map.entries
  unfold Arena.internState
  dsimp only
  by_cases known : ∃ state, table.get? state = some map
  · obtain ⟨state, found⟩ := known
    obtain ⟨ids, stored, old⟩ := spells.spelled found
    obtain rfl := entries.ids_unique (old.grow grown) reads
    rw [Interner.intern_known faithful found, Interner.intern_known spells.states stored]
    refine ⟨rfl, entries, spells.states, spells.sizes, ?_⟩
    intro s other there
    obtain ⟨ids', stored', old'⟩ := spells.spelled there
    exact ⟨ids', stored', old'.grow grown⟩
  · have fresh : ∀ state, table.get? state ≠ some map := not_exists.1 known
    have unspelled : ∀ state,
        arena.states.get? state ≠ some (arena.entries.internAll map.entries).1 := by
      intro state stored
      have inside := Interner.get?_lt stored
      rw [spells.sizes] at inside
      obtain ⟨other, found⟩ := Interner.get?_of_lt inside
      obtain ⟨ids, stored', old⟩ := spells.spelled found
      obtain rfl := Option.some.inj (stored.symm.trans stored')
      have same : other.entries = map.entries :=
        (old.grow grown).values_eq.symm.trans reads.values_eq
      rw [← other.ofList_entries, same, map.ofList_entries] at found
      exact fresh state found
    rw [Interner.intern_absent fresh, Interner.intern_absent unspelled]
    refine ⟨spells.sizes, entries, Interner.push_faithful spells.states unspelled, ?_, ?_⟩
    · rw [Interner.size_push, Interner.size_push, spells.sizes]
    · intro s other there
      rw [Interner.get?_push] at there ⊢
      rw [spells.sizes]
      split at there
      · rename_i last
        obtain rfl := Option.some.inj there
        exact ⟨_, if_pos last, reads⟩
      · rename_i old
        obtain ⟨ids, stored, known⟩ := spells.spelled there
        exact ⟨ids, by rw [if_neg old, stored], known.grow grown⟩

end Arena

end CanonicalLR
