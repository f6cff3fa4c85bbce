import CanonicalLR.Proofs.SetForms
/-
Growable rows of bits. Bits that are off at the end of a row do not matter, so one set of ids has
many rows, where it has one ascending list; and the program, which keeps the lists, answers as rows
of bits would.
-/
namespace CanonicalLR

/-- Bit `id` tells whether `id` is a member; what lies beyond the row is not. -/
structure BitRow where
  bits : Array Bool

namespace BitRow

def empty : BitRow := ⟨#[]⟩

def contains (row : BitRow) (id : Nat) : Bool := row.bits.getD id false

def grow (row : BitRow) (length : Nat) : BitRow :=
  ⟨row.bits ++ Array.replicate (length - row.bits.size) false⟩

def add (row : BitRow) (id : Nat) : BitRow × Bool :=
  if row.contains id then (row, false)
  else (⟨(row.grow (id + 1)).bits.setIfInBounds id true⟩, true)

def union (a b : BitRow) : BitRow :=
  ⟨(a.grow b.bits.size).bits.mapIdx fun id bit => bit || b.contains id⟩

def members (row : BitRow) : List Nat := (List.range row.bits.size).filter row.contains

def size (row : BitRow) : Nat := row.bits.count true

def isEmpty (row : BitRow) : Bool := row.bits.all (!·)

theorem contains_eq (row : BitRow) (id : Nat) : row.contains id = row.bits[id]?.getD false := by
  rw [contains, Array.getD_eq_getD_getElem?]

theorem lt_of_contains {row : BitRow} {id : Nat} (member : row.contains id = true) :
    id < row.bits.size := by
  by_contra beyond
  rw [contains_eq, Array.getElem?_eq_none (Nat.le_of_not_lt beyond)] at member
  contradiction

theorem mem_members {row : BitRow} {id : Nat} :
    id ∈ row.members ↔ row.contains id = true := by
  rw [members, List.mem_filter, List.mem_range]
  constructor
  · exact And.right
  · intro member
    exact ⟨lt_of_contains member, member⟩

theorem members_ascending (row : BitRow) : Ascending row.members :=
  List.Pairwise.filter _ List.pairwise_lt_range

theorem toList_bits (row : BitRow) :
    row.bits.toList = (List.range row.bits.size).map row.contains := by
  apply List.ext_getElem?
  intro id
  by_cases inside : id < row.bits.size
  · simp [contains_eq, inside]
  · simp [Nat.le_of_not_lt inside]

theorem size_eq (row : BitRow) : row.size = row.members.length := by
  rw [size, ← Array.count_toList, toList_bits, List.count, List.countP_map, members,
    List.countP_eq_length_filter]
  congr 1
  apply List.filter_congr
  intro id _
  simp

theorem isEmpty_iff (row : BitRow) : row.isEmpty = true ↔ row.members = [] := by
  rw [isEmpty, ← Array.all_toList, toList_bits, List.all_map, members, List.filter_eq_nil_iff,
    List.all_eq_true]
  simp

theorem contains_grow (row : BitRow) (length id : Nat) :
    (row.grow length).contains id = row.contains id := by
  rw [contains_eq, contains_eq, grow, Array.getElem?_append]
  split
  · rfl
  · rename_i beyond
    rw [Array.getElem?_eq_none (Nat.le_of_not_lt beyond), Array.getElem?_replicate]
    split <;> rfl

theorem size_grow (row : BitRow) (length : Nat) :
    (row.grow length).bits.size = max row.bits.size length := by
  simp only [grow, Array.size_append, Array.size_replicate]
  omega

theorem contains_add (row : BitRow) (id x : Nat) :
    (row.add id).1.contains x = true ↔ x = id ∨ row.contains x = true := by
  rw [add]
  split
  · rename_i known
    constructor
    · exact Or.inr
    · intro either
      rcases either with rfl | member
      · exact known
      · exact member
  · have inside : id < (row.grow (id + 1)).bits.size := by
      rw [size_grow]
      omega
    rw [contains_eq, Array.getElem?_setIfInBounds, if_pos inside]
    by_cases same : id = x
    · simp [same]
    · have other : x ≠ id := fun eq => same eq.symm
      simp [same, other, ← contains_eq, contains_grow]

theorem contains_union (a b : BitRow) (x : Nat) :
    (a.union b).contains x = (a.contains x || b.contains x) := by
  rw [contains_eq, union, Array.getElem?_mapIdx]
  by_cases inside : x < (a.grow b.bits.size).bits.size
  · rw [← contains_grow a b.bits.size x, contains_eq (a.grow _),
      Array.getElem?_eq_getElem inside]
    rfl
  · rw [size_grow] at inside
    have none_left : a.contains x = false :=
      Bool.eq_false_iff.2 fun member => by have := lt_of_contains member; omega
    have none_right : b.contains x = false :=
      Bool.eq_false_iff.2 fun member => by have := lt_of_contains member; omega
    rw [Array.getElem?_eq_none (by rw [size_grow]; omega), none_left, none_right]
    rfl

def form : SetForm BitRow := ⟨empty, add, union, contains, members, size, isEmpty⟩

theorem form_sound : form.Sound where
  empty := rfl
  ascending := members_ascending
  mem_add row id x := by
    rw [form, mem_members, mem_members]
    exact contains_add row id x
  absent row id := by
    cases known : row.contains id <;> simp [form, add, known]
  mem_union a b x := by
    rw [form, mem_members, mem_members, mem_members, contains_union, Bool.or_eq_true]
  contains _ _ := mem_members.symm
  size := size_eq
  isEmpty := isEmpty_iff

end BitRow

namespace IdSet

def form : SetForm IdSet := ⟨empty, add, union, contains, ids, size, isEmpty⟩

theorem form_sound : form.Sound where
  empty := rfl
  ascending set := set.ascending
  mem_add _ _ _ := mem_insert
  absent _ _ := rfl
  mem_union _ _ _ := mem_union
  contains _ _ := contains_iff
  size _ := rfl
  isEmpty _ := List.isEmpty_iff

end IdSet

def stirring : Hasher UInt64 :=
  ⟨fun seed id => stir seed (fingerprint id), fun seed number => stir seed (fingerprint number)⟩

def detour : List SetCall :=
  [.add 0 5, .singleton 1 2, .absorb 0 1, .ofList 2 [2, 5, 2]]

/-- Whatever keeps sets of ids and lists their members rightly answers as finite sets do. Rows of
bits are such a form; so are the ascending lists that the program keeps, whose own equality, order
and fingerprint are those of the form. -/
theorem sets_forget_history :
    (∀ {σ : Type} (form : SetForm σ), form.Sound → form.Lawful) ∧
    (∀ {σ : Type} (form : SetForm σ), form.Sound → ∀ calls name,
      form.members (form.after calls name) = IdSet.form.members (IdSet.form.after calls name)) ∧
    IdSet.form.Sound ∧ BitRow.form.Sound ∧
    IdSet.form.Lawful ∧ BitRow.form.Lawful ∧
    (∀ calls name, BitRow.form.members (BitRow.form.after calls name) =
      IdSet.form.members (IdSet.form.after calls name)) ∧
    IdSet.singleton = IdSet.form.singleton ∧ IdSet.ofList = IdSet.form.ofList ∧
    IdSet.absorb = IdSet.form.absorb ∧ IdSet.compare = IdSet.form.compare ∧
    (∀ a b : IdSet, a = b ↔ IdSet.form.equal a b = true) ∧
    ∀ set : IdSet, fingerprint set = IdSet.form.feed stirring 14695981039346656037 set := by
  have lawful := IdSet.form_sound.lawful
  have rows := BitRow.form_sound.lawful
  refine ⟨fun _ sound => sound.lawful, fun _ sound => sound.lawful.members_eq lawful,
    IdSet.form_sound, BitRow.form_sound, lawful, rows, rows.members_eq lawful, rfl, rfl, rfl, rfl,
    ?_, fun _ => rfl⟩
  intro a b
  rw [lawful.equal]
  constructor
  · exact congrArg IdSet.form.ids
  · intro same
    apply IdSet.ext
    intro id
    rw [← IdSet.contains_iff, ← IdSet.contains_iff]
    exact (lawful.contains a id).trans (same ▸ (lawful.contains b id).symm)

theorem sets_forget_history_rows :
    BitRow.form.Sound ∧ BitRow.form.Lawful ∧
    BitRow.form.members (BitRow.form.after detour 2) = [2, 5] ∧
    IdSet.form.members (IdSet.form.after detour 2) = [2, 5] ∧
    BitRow.form.equal (BitRow.form.after detour 0) (BitRow.form.after detour 2) = true ∧
    BitRow.form.compare (BitRow.form.after detour 0) (BitRow.form.after detour 1) = .gt := by
  obtain ⟨general, alike, _⟩ := sets_forget_history
  have listed : IdSet.form.members (IdSet.form.after detour 2) = [2, 5] := by decide +kernel
  refine ⟨BitRow.form_sound, general _ BitRow.form_sound, ?_, listed, ?_, ?_⟩
  · exact (alike _ BitRow.form_sound detour 2).trans listed
  · decide +kernel
  · decide +kernel

/-- A bit that is off at the end of a row does not show. -/
example : BitRow.form.equal ⟨#[false, true, false]⟩ ⟨#[false, true]⟩ = true := by decide

end CanonicalLR
