import CanonicalLR.IdSet
import CanonicalLR.Item
/-
Items with their lookaheads, at most one entry for each item, in the order of the items. Two maps
are equal as soon as they hold the same items with the same lookaheads.
-/
namespace CanonicalLR

structure ItemMap where
  entries : List (Item × TerminalSet)
  ascending : (entries.map Prod.fst).Pairwise (· < ·)
  deriving DecidableEq

/-- Puts an entry in its place; `combine` settles what becomes of an older and a newer set. -/
def insertEntry (combine : TerminalSet → TerminalSet → TerminalSet) (item : Item)
    (set : TerminalSet) : List (Item × TerminalSet) → List (Item × TerminalSet)
  | [] => [(item, set)]
  | (other, old) :: rest =>
    if item < other then (item, set) :: (other, old) :: rest
    else if item = other then (other, combine old set) :: rest
    else (other, old) :: insertEntry combine item set rest

theorem keys_insertEntry (combine : TerminalSet → TerminalSet → TerminalSet) (item : Item)
    (set : TerminalSet) (entries : List (Item × TerminalSet)) :
    (insertEntry combine item set entries).map Prod.fst =
      insertAscending item (entries.map Prod.fst) := by
  induction entries with
  | nil => rfl
  | cons entry rest ih =>
    simp only [insertEntry, List.map_cons, insertAscending]
    split
    · rfl
    · split
      · simp
      · simp [ih]

theorem lookup_cons_of_ne {key other : Item} (ne : key ≠ other) (set : TerminalSet)
    (rest : List (Item × TerminalSet)) :
    ((other, set) :: rest).lookup key = rest.lookup key := by
  rw [List.lookup_cons, beq_false_of_ne ne]

theorem lookup_eq_none_of_lt {item : Item} {entries : List (Item × TerminalSet)}
    (h : ∀ key ∈ entries.map Prod.fst, item < key) : entries.lookup item = none := by
  refine List.lookup_eq_none_iff.2 fun entry member => ?_
  have lt := h entry.1 (List.mem_map_of_mem member)
  have ne : item ≠ entry.1 := fun same => by
    rw [same] at lt
    exact Item.lt_irrefl lt
  simpa using ne

theorem lookup_insertEntry (combine : TerminalSet → TerminalSet → TerminalSet) (item : Item)
    (set : TerminalSet) {entries : List (Item × TerminalSet)}
    (h : (entries.map Prod.fst).Pairwise (· < ·)) (key : Item) :
    (insertEntry combine item set entries).lookup key =
      if key = item then some ((entries.lookup item).elim set (combine · set))
      else entries.lookup key := by
  induction entries with
  | nil =>
    simp only [insertEntry]
    by_cases same : key = item
    · simp [same]
    · simp [same, lookup_cons_of_ne]
  | cons entry rest ih =>
    obtain ⟨other, old⟩ := entry
    have tail := List.pairwise_cons.1 h
    simp only [insertEntry]
    by_cases before : item < other
    · have absent : ((other, old) :: rest).lookup item = none := by
        refine lookup_eq_none_of_lt fun k member => ?_
        rcases List.mem_cons.1 member with same | member
        · exact same ▸ before
        · exact Item.lt_trans before (tail.1 k member)
      rw [if_pos before, absent]
      by_cases same : key = item
      · simp [same]
      · rw [lookup_cons_of_ne same, if_neg same]
    · rw [if_neg before]
      by_cases at_other : item = other
      · subst at_other
        rw [if_pos rfl]
        by_cases same : key = item
        · simp [same]
        · rw [lookup_cons_of_ne same, lookup_cons_of_ne same, if_neg same]
      · rw [if_neg at_other]
        by_cases first : key = other
        · subst first
          simp [Ne.symm at_other]
        · rw [lookup_cons_of_ne first, lookup_cons_of_ne first, lookup_cons_of_ne at_other,
            ih tail.2]

namespace ItemMap

def empty : ItemMap := ⟨[], List.Pairwise.nil⟩

def items (map : ItemMap) : List Item := map.entries.map Prod.fst

def get? (map : ItemMap) (item : Item) : Option TerminalSet := map.entries.lookup item

def insertWith (combine : TerminalSet → TerminalSet → TerminalSet) (map : ItemMap) (item : Item)
    (set : TerminalSet) : ItemMap :=
  ⟨insertEntry combine item set map.entries, by
    rw [keys_insertEntry]
    exact insertAscending_ascending Item.lt_trans Item.lt_connected map.ascending⟩

def put (map : ItemMap) (item : Item) (set : TerminalSet) : ItemMap :=
  map.insertWith (fun _ new => new) item set

def join (map : ItemMap) (item : Item) (set : TerminalSet) : ItemMap :=
  map.insertWith (fun old new => old ∪ new) item set

/-- Of several entries for one item the last one counts. -/
def ofList (entries : List (Item × TerminalSet)) : ItemMap :=
  entries.foldl (fun map entry => map.put entry.1 entry.2) empty

theorem get?_put (map : ItemMap) (item : Item) (set : TerminalSet) (key : Item) :
    (map.put item set).get? key = if key = item then some set else map.get? key := by
  have h := lookup_insertEntry (fun _ new => new) item set map.ascending key
  cases found : map.entries.lookup item <;> simp_all [get?, put, insertWith]

theorem get?_join (map : ItemMap) (item : Item) (set : TerminalSet) (key : Item) :
    (map.join item set).get? key =
      if key = item then some ((map.get? item).elim set (· ∪ set)) else map.get? key :=
  lookup_insertEntry (fun old new => old ∪ new) item set map.ascending key

instance : Fingerprint ItemMap := ⟨fun map => fingerprint map.entries⟩

end ItemMap

end CanonicalLR
