import CanonicalLR.Interner
import Mathlib.Data.List.Forall2
/-
Interning with any fingerprint whatsoever. A faithful table holds each value once and finds it, and
every table made by interning from the empty one is faithful.
-/
namespace CanonicalLR.Interner

variable {α : Type}

theorem get?_lt {table : Interner α Nat} {id : Nat} {value : α} (h : table.get? id = some value) :
    id < table.size :=
  (Array.getElem?_eq_some_iff.1 h).1

theorem get?_of_lt {table : Interner α Nat} {id : Nat} (h : id < table.size) :
    ∃ value, table.get? id = some value :=
  ⟨table.values[id], Array.getElem?_eq_getElem h⟩

def Extends (small large : Interner α Nat) : Prop :=
  ∀ ⦃id value⦄, small.get? id = some value → large.get? id = some value

theorem Extends.refl (table : Interner α Nat) : table.Extends table := fun _ _ h => h

theorem Extends.trans {a b c : Interner α Nat} (ab : a.Extends b) (bc : b.Extends c) :
    a.Extends c :=
  fun _ _ h => bc (ab h)

theorem Extends.size_le {small large : Interner α Nat} (h : small.Extends large) :
    small.size ≤ large.size := by
  by_contra less
  obtain ⟨value, found⟩ := get?_of_lt (Nat.lt_of_not_le less)
  have bound := get?_lt (h found)
  omega

variable [Fingerprint α]

structure Faithful (table : Interner α Nat) : Prop where
  mem_bucket {id : Nat} {mark : UInt64} :
    id ∈ table.bucket mark ↔ ∃ value, table.get? id = some value ∧ fingerprint value = mark
  distinct {i j : Nat} {value : α} :
    table.get? i = some value → table.get? j = some value → i = j

theorem empty_faithful : (empty : Interner α Nat).Faithful := by
  constructor
  · intro id mark
    simp [bucket, empty, get?, Std.TreeMap.getD_emptyc]
  · intro i j value h
    simp [empty, get?] at h

theorem push_extends (table : Interner α Nat) (value : α) : table.Extends (table.push value) := by
  intro id old h
  have ne : id ≠ table.size := Nat.ne_of_lt (get?_lt h)
  rw [get?_push, if_neg ne, h]

theorem push_faithful {table : Interner α Nat} (faithful : table.Faithful) {value : α}
    (new : ∀ id, table.get? id ≠ some value) : (table.push value).Faithful := by
  constructor
  · intro id mark
    rw [bucket_push, get?_push]
    by_cases last : id = table.size
    · have absent : id ∉ table.bucket mark := by
        intro member
        obtain ⟨_, found, _⟩ := faithful.mem_bucket.1 member
        exact absurd (get?_lt found) (by omega)
      by_cases same : fingerprint value = mark <;> simp [last, same]
      exact last ▸ absent
    · by_cases same : fingerprint value = mark <;> simp [last, same, faithful.mem_bucket]
  · intro i j other hi hj
    rw [get?_push] at hi hj
    split at hi <;> split at hj
    · omega
    · exact absurd (Option.some.inj hi ▸ hj) (new j)
    · exact absurd (Option.some.inj hj ▸ hi) (new i)
    · exact faithful.distinct hi hj

theorem push_values (table : Interner α Nat) (value : α) :
    (table.push value).values.toList = table.values.toList ++ [value] := by
  simp [push]

variable [DecidableEq α]

theorem find?_eq_some_iff {table : Interner α Nat} (faithful : table.Faithful) {value : α}
    {id : Nat} : table.find? value = some id ↔ table.get? id = some value := by
  constructor
  · intro found
    simpa using List.find?_some found
  · intro stored
    have filed := faithful.mem_bucket.2 ⟨value, stored, rfl⟩
    cases found : table.find? value with
    | none =>
      have missed := List.find?_eq_none.1 found id filed
      exact absurd stored (by simpa using missed)
    | some other =>
      have stored' : table.get? other = some value := by simpa using List.find?_some found
      rw [faithful.distinct stored stored']

theorem find?_eq_none {table : Interner α Nat} (faithful : table.Faithful) {value : α}
    (missed : table.find? value = none) (id : Nat) : table.get? id ≠ some value := by
  intro stored
  rw [(find?_eq_some_iff faithful).2 stored] at missed
  contradiction

theorem intern_extends (table : Interner α Nat) (value : α) :
    table.Extends (table.intern value).table := by
  unfold intern
  split
  · exact Extends.refl table
  · exact push_extends table value

theorem intern_faithful {table : Interner α Nat} (faithful : table.Faithful) (value : α) :
    (table.intern value).table.Faithful := by
  unfold intern
  split
  · exact faithful
  · rename_i missed
    exact push_faithful faithful (find?_eq_none faithful missed)

theorem get?_intern {table : Interner α Nat} (faithful : table.Faithful) (value : α) :
    (table.intern value).table.get? (table.intern value).id = some value := by
  unfold intern
  split
  · rename_i found
    exact (find?_eq_some_iff faithful).1 found
  · simp [get?_push]

theorem get?_intern_cases {table : Interner α Nat} {value other : α} {id : Nat}
    (h : (table.intern value).table.get? id = some other) :
    other = value ∨ table.get? id = some other := by
  unfold intern at h
  split at h
  · exact Or.inr h
  · rw [get?_push] at h
    split at h
    · exact Or.inl (Option.some.inj h).symm
    · exact Or.inr h

theorem intern_known {table : Interner α Nat} (faithful : table.Faithful) {value : α} {id : Nat}
    (stored : table.get? id = some value) :
    table.intern value = ⟨id, false, table⟩ := by
  have found := (find?_eq_some_iff faithful).2 stored
  simp only [intern, found]

theorem intern_absent {table : Interner α Nat} {value : α}
    (absent : ∀ id, table.get? id ≠ some value) :
    table.intern value = ⟨table.size, true, table.push value⟩ := by
  unfold intern
  split
  · rename_i id found
    have stored : table.get? id = some value := by simpa using List.find?_some found
    exact absurd stored (absent id)
  · rfl

theorem intern_empty (value : α) :
    (empty : Interner α Nat).intern value = ⟨0, true, empty.push value⟩ :=
  intern_absent fun id stored => absurd (get?_lt stored) (Nat.not_lt_zero id)

theorem intern_cases (table : Interner α Nat) (value : α) :
    (table.intern value).id < table.size ∧ (table.intern value).table = table ∨
      (table.intern value).id = table.size ∧
        (table.intern value).table = table.push value := by
  unfold intern
  split
  · rename_i id found
    have stored : table.get? id = some value := by simpa using List.find?_some found
    exact Or.inl ⟨get?_lt stored, rfl⟩
  · exact Or.inr ⟨rfl, rfl⟩

/-- A new value gets an id that no value had before. -/
theorem intern_table_of_lt {table : Interner α Nat} {value : α}
    (old : (table.intern value).id < table.size) :
    (table.intern value).table = table := by
  rcases table.intern_cases value with ⟨_, same⟩ | ⟨new, _⟩
  · exact same
  · omega

theorem internAll_extends (table : Interner α Nat) (values : List α) :
    table.Extends (table.internAll values).2 := by
  induction values generalizing table with
  | nil => exact Extends.refl table
  | cons value rest ih => exact (intern_extends table value).trans (ih _)

theorem internAll_faithful {table : Interner α Nat} (faithful : table.Faithful) (values : List α) :
    (table.internAll values).2.Faithful := by
  induction values generalizing table with
  | nil => exact faithful
  | cons value rest ih => exact ih (intern_faithful faithful value)

theorem internAll_ids {table : Interner α Nat} (faithful : table.Faithful) (values : List α) :
    List.Forall₂ (fun id value => (table.internAll values).2.get? id = some value)
      (table.internAll values).1 values := by
  induction values generalizing table with
  | nil => exact List.Forall₂.nil
  | cons value rest ih =>
    have first := get?_intern faithful value
    exact List.Forall₂.cons (internAll_extends _ rest first) (ih (intern_faithful faithful value))

theorem get?_internAll_cases {table : Interner α Nat} {values : List α} {other : α} {id : Nat}
    (h : (table.internAll values).2.get? id = some other) :
    other ∈ values ∨ table.get? id = some other := by
  induction values generalizing table with
  | nil => exact Or.inr h
  | cons value rest ih =>
    rcases ih h with later | early
    · exact Or.inl (List.mem_cons_of_mem value later)
    · rcases get?_intern_cases early with same | old
      · exact Or.inl (same ▸ List.mem_cons_self)
      · exact Or.inr old

end CanonicalLR.Interner
