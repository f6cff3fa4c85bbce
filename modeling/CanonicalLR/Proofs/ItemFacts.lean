import CanonicalLR.ItemMap
import Mathlib.Data.List.Nodup
import Mathlib.Data.List.Perm.Lattice
/-
Item maps as collections of facts. A fact is an item alone, or an item with one of its lookaheads;
an item may be present without any lookahead, so the two kinds are kept apart by an option. A map
is determined by its facts.
-/
namespace CanonicalLR

theorem lookup_eq_some_iff_mem {α β : Type} [BEq α] [LawfulBEq α] {entries : List (α × β)}
    (nodup : (entries.map Prod.fst).Nodup) {key : α} {value : β} :
    entries.lookup key = some value ↔ (key, value) ∈ entries := by
  induction entries with
  | nil => simp
  | cons entry rest ih =>
    obtain ⟨other, old⟩ := entry
    obtain ⟨absent, distinct⟩ := List.nodup_cons.1 nodup
    by_cases same : key = other
    · subst same
      have gone : (key, value) ∉ rest := fun member => absent (List.mem_map.2 ⟨_, member, rfl⟩)
      simp [gone, eq_comm]
    · rw [List.lookup_cons, beq_false_of_ne same]
      simp [ih distinct, same]

/-- Whether a set makes good a fact about its item: presence always, a lookahead if it has it. -/
def IdSet.Shows (set : IdSet) : Option Nat → Prop
  | none => True
  | some t => t ∈ set

instance (set : IdSet) (look : Option Nat) : Decidable (set.Shows look) :=
  match look with
  | none => isTrue trivial
  | some t => inferInstanceAs (Decidable (t ∈ set))

theorem IdSet.ext_shows {a b : IdSet} (h : ∀ look, a.Shows look ↔ b.Shows look) : a = b :=
  IdSet.ext fun t => h (some t)

theorem IdSet.shows_union {a b : IdSet} {look : Option Nat} :
    (a ∪ b).Shows look ↔ a.Shows look ∨ b.Shows look := by
  cases look with
  | none => simp [Shows]
  | some t => exact IdSet.mem_union

namespace ItemMap

def Holds (map : ItemMap) (item : Item) (look : Option Nat) : Prop :=
  ∃ set, map.get? item = some set ∧ set.Shows look

instance (map : ItemMap) (item : Item) (look : Option Nat) : Decidable (map.Holds item look) :=
  match found : map.get? item with
  | none => isFalse fun ⟨_, held, _⟩ => by simp [found] at held
  | some set =>
    decidable_of_iff (set.Shows look) ⟨fun shown => ⟨set, found, shown⟩, fun ⟨_, held, shown⟩ => by
      rw [found] at held
      exact Option.some.inj held ▸ shown⟩

theorem keys_nodup (map : ItemMap) : (map.entries.map Prod.fst).Nodup := by
  refine map.ascending.imp ?_
  intro a b before same
  exact Item.lt_irrefl (same ▸ before)

theorem get?_eq_some_iff {map : ItemMap} {item : Item} {set : TerminalSet} :
    map.get? item = some set ↔ (item, set) ∈ map.entries :=
  lookup_eq_some_iff_mem map.keys_nodup

theorem holds_iff_mem {map : ItemMap} {item : Item} {look : Option Nat} :
    map.Holds item look ↔ ∃ set, (item, set) ∈ map.entries ∧ set.Shows look := by
  simp only [Holds, get?_eq_some_iff]

theorem mem_items {map : ItemMap} {item : Item} : item ∈ map.items ↔ map.Holds item none := by
  simp only [items, List.mem_map, holds_iff_mem]
  constructor
  · rintro ⟨⟨other, set⟩, member, rfl⟩
    exact ⟨set, member, trivial⟩
  · rintro ⟨set, member, _⟩
    exact ⟨(item, set), member, rfl⟩

theorem Holds.mem_items {map : ItemMap} {item : Item} {look : Option Nat}
    (held : map.Holds item look) : item ∈ map.items := by
  obtain ⟨set, found, _⟩ := held
  exact ItemMap.mem_items.2 ⟨set, found, trivial⟩

theorem ext_get? {a b : ItemMap} (h : ∀ item, a.get? item = b.get? item) : a = b := by
  have members : ∀ entry, entry ∈ a.entries ↔ entry ∈ b.entries := by
    rintro ⟨item, set⟩
    rw [← get?_eq_some_iff, ← get?_eq_some_iff, h]
  have perm : a.entries.Perm b.entries :=
    (List.perm_ext_iff_of_nodup a.keys_nodup.of_map b.keys_nodup.of_map).2 members
  have entries : a.entries = b.entries := by
    have left := List.pairwise_map.1 a.ascending
    have right := List.pairwise_map.1 b.ascending
    refine perm.eq_of_pairwise ?_ left right
    intro x y _ _ before after
    exact absurd (Item.lt_trans before after) Item.lt_irrefl
  cases a
  cases b
  simp_all

theorem get?_eq_of_holds {map : ItemMap} {item : Item} {found : Option TerminalSet}
    (h : ∀ look, map.Holds item look ↔ ∃ set, found = some set ∧ set.Shows look) :
    map.get? item = found := by
  cases stored : map.get? item with
  | none =>
    cases found with
    | none => rfl
    | some set =>
      obtain ⟨_, held, _⟩ := (h none).2 ⟨set, rfl, trivial⟩
      simp [stored] at held
  | some set =>
    obtain ⟨twin, rfl, _⟩ := (h none).1 ⟨set, stored, trivial⟩
    rw [Option.some.injEq]
    apply IdSet.ext_shows
    intro look
    have fact := h look
    simp only [Holds, stored, Option.some.injEq, exists_eq_left'] at fact
    exact fact

theorem ext_holds {a b : ItemMap} (h : ∀ item look, a.Holds item look ↔ b.Holds item look) :
    a = b := by
  apply ext_get?
  intro item
  exact get?_eq_of_holds (h item)

theorem holds_join {map : ItemMap} {item key : Item} {set : TerminalSet} {look : Option Nat} :
    (map.join item set).Holds key look ↔ map.Holds key look ∨ key = item ∧ set.Shows look := by
  simp only [Holds, get?_join]
  by_cases same : key = item
  · subst same
    cases found : map.get? key with
    | none => simp
    | some old => simp [IdSet.shows_union]
  · simp [same]

theorem holds_foldl_join {entries : List (Item × TerminalSet)} {map : ItemMap} {key : Item}
    {look : Option Nat} :
    (entries.foldl (fun grown entry => grown.join entry.1 entry.2) map).Holds key look ↔
      map.Holds key look ∨ ∃ set, (key, set) ∈ entries ∧ set.Shows look := by
  induction entries generalizing map with
  | nil => simp
  | cons entry rest ih =>
    obtain ⟨item, set⟩ := entry
    simp only [List.foldl_cons, ih, holds_join, List.mem_cons, Prod.mk.injEq]
    constructor
    · rintro ((old | ⟨rfl, shown⟩) | ⟨other, member, shown⟩)
      · exact Or.inl old
      · exact Or.inr ⟨set, Or.inl ⟨rfl, rfl⟩, shown⟩
      · exact Or.inr ⟨other, Or.inr member, shown⟩
    · rintro (old | ⟨other, ⟨rfl, rfl⟩ | member, shown⟩)
      · exact Or.inl (Or.inl old)
      · exact Or.inl (Or.inr ⟨rfl, shown⟩)
      · exact Or.inr ⟨other, member, shown⟩

theorem get?_foldl_put {entries : List (Item × TerminalSet)}
    (nodup : (entries.map Prod.fst).Nodup) {map : ItemMap} {key : Item} {set : TerminalSet} :
    (entries.foldl (fun map entry => map.put entry.1 entry.2) map).get? key = some set ↔
      (key, set) ∈ entries ∨ key ∉ entries.map Prod.fst ∧ map.get? key = some set := by
  induction entries generalizing map with
  | nil => simp
  | cons entry rest ih =>
    obtain ⟨item, new⟩ := entry
    obtain ⟨absent, distinct⟩ := List.nodup_cons.1 nodup
    simp only [List.foldl_cons, ih distinct, get?_put, List.mem_cons, Prod.mk.injEq, List.map_cons]
    by_cases same : key = item
    · subst same
      have gone : (key, set) ∉ rest := fun member => absent (List.mem_map.2 ⟨_, member, rfl⟩)
      simp only at absent
      simp [gone, absent, eq_comm]
    · simp [same]

theorem holds_ofList {entries : List (Item × TerminalSet)}
    (nodup : (entries.map Prod.fst).Nodup) {key : Item} {look : Option Nat} :
    (ofList entries).Holds key look ↔ ∃ set, (key, set) ∈ entries ∧ set.Shows look := by
  have none : ∀ key, empty.get? key = none := fun _ => rfl
  simp [Holds, ofList, get?_foldl_put nodup, none]

end ItemMap

end CanonicalLR
