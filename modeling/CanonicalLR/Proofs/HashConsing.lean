import CanonicalLR.Proofs.Interning
import Mathlib.Data.List.Induction
import Mathlib.Data.List.Nodup
/-
What a table answers, told by the calls alone. Values lie in the order in which they were first
seen, a value has the place of its first sight as its id, and the id is filed once, under the
fingerprint of its value.
-/
namespace CanonicalLR

theorem eraseDups_concat {α : Type} [DecidableEq α] {xs : List α} {x : α} :
    (xs ++ [x]).eraseDups = if x ∈ xs then xs.eraseDups else xs.eraseDups ++ [x] := by
  rw [List.eraseDups_append]
  by_cases known : x ∈ xs <;> simp [List.removeAll, known, List.eraseDups_cons]

theorem nodup_eraseDups {α : Type} [DecidableEq α] (xs : List α) : xs.eraseDups.Nodup := by
  induction xs using List.reverseRecOn with
  | nil => exact List.nodup_nil
  | append_singleton xs x ih =>
    rw [eraseDups_concat]
    split
    · exact ih
    · rename_i new
      rw [← List.concat_eq_append]
      exact ih.concat fun old => new (List.mem_eraseDups.1 old)

/-- Ids below the count, each of them listed, and for the first time in ascending order. -/
def Counts (ids : List Nat) (count : Nat) : Prop := ids.eraseDups = List.range count

theorem Counts.mem_iff {ids : List Nat} {count id : Nat} (h : Counts ids count) :
    id ∈ ids ↔ id < count := by
  rw [← List.mem_eraseDups, h, List.mem_range]

theorem Counts.old {ids : List Nat} {count id : Nat} (h : Counts ids count) (old : id < count) :
    Counts (ids ++ [id]) count := by
  rw [Counts, eraseDups_concat, if_pos (h.mem_iff.2 old), h]

theorem Counts.new {ids : List Nat} {count : Nat} (h : Counts ids count) :
    Counts (ids ++ [count]) (count + 1) := by
  have absent : count ∉ ids := fun member => Nat.lt_irrefl _ (h.mem_iff.1 member)
  rw [Counts, eraseDups_concat, if_neg absent, h, List.range_succ]

theorem Counts.later {ids more : List Nat} {old new : Nat} (h : Counts ids old)
    (h' : Counts (ids ++ more) new) :
    (more.filter fun id => decide (¬ id < old)).eraseDups = List.range' old (new - old) := by
  have unlisted : more.removeAll ids = more.filter fun id => decide (¬ id < old) := by
    unfold List.removeAll
    congr 1
    funext id
    by_cases small : id < old <;> simp [h.mem_iff, small]
  rw [Counts, List.eraseDups_append, h, unlisted] at h'
  have sizes := congrArg List.length h'
  rw [List.length_append, List.length_range, List.length_range] at sizes
  have split : List.range new = List.range old ++ List.range' old (new - old) := by
    have parts := List.range'_append_1 (s := 0) (m := old) (n := new - old)
    rw [Nat.zero_add, show old + (new - old) = new by omega] at parts
    rw [List.range_eq_range', List.range_eq_range', parts]
  rw [split] at h'
  exact List.append_cancel_left h'

namespace Interner

variable {α : Type} [Fingerprint α] [DecidableEq α]

theorem intern_counts {table : Interner α Nat} {ids : List Nat} (h : Counts ids table.size)
    (value : α) :
    Counts (ids ++ [(table.intern value).id]) (table.intern value).table.size := by
  rcases table.intern_cases value with ⟨old, same⟩ | ⟨new, pushed⟩
  · rw [same]
    exact h.old old
  · rw [new, pushed, size_push]
    exact h.new

theorem internAll_counts {table : Interner α Nat} {ids : List Nat} (h : Counts ids table.size)
    (values : List α) :
    Counts (ids ++ (table.internAll values).1) (table.internAll values).2.size := by
  induction values generalizing table ids with
  | nil => simpa [internAll] using h
  | cons value rest ih => simpa [internAll] using ih (intern_counts h value)

theorem internAll_length (table : Interner α Nat) (values : List α) :
    (table.internAll values).1.length = values.length := by
  induction values generalizing table with
  | nil => rfl
  | cons value rest ih => simp [internAll, ih]

theorem internAll_append {ι : Type} [Index ι] (table : Interner α ι) (values more : List α) :
    table.internAll (values ++ more) =
      ((table.internAll values).1 ++ ((table.internAll values).2.internAll more).1,
        ((table.internAll values).2.internAll more).2) := by
  induction values generalizing table with
  | nil => rfl
  | cons value rest ih => simp [internAll, ih]

/-- What calls with these values leave in a table that was empty before the first of them. -/
structure Records (table : Interner α Nat) (calls : List α) : Prop where
  faithful : table.Faithful
  values : table.values.toList = calls.eraseDups
  once (mark : UInt64) : (table.bucket mark).Nodup

theorem empty_records : (empty : Interner α Nat).Records [] := by
  constructor
  · exact empty_faithful
  · rfl
  · intro mark
    simp [bucket, empty, Std.TreeMap.getD_emptyc]

namespace Records

variable {table : Interner α Nat} {calls : List α}

theorem get?_eq (records : table.Records calls) (id : Nat) :
    table.get? id = calls.eraseDups[id]? := by
  rw [← records.values, Array.getElem?_toList]
  rfl

theorem size_eq (records : table.Records calls) : table.size = calls.eraseDups.length := by
  rw [← records.values, Array.length_toList]
  rfl

theorem known (records : table.Records calls) {value : α} (old : value ∈ calls) :
    table.get? (calls.eraseDups.idxOf value) = some value := by
  rw [records.get?_eq]
  exact List.getElem?_idxOf (List.mem_eraseDups.2 old)

theorem unknown (records : table.Records calls) {value : α} (new : value ∉ calls) (id : Nat) :
    table.get? id ≠ some value := by
  rw [records.get?_eq]
  intro stored
  exact new (List.mem_eraseDups.1 (List.mem_of_getElem? stored))

theorem push (records : table.Records calls) {value : α} (new : value ∉ calls) :
    (table.push value).Records (calls ++ [value]) := by
  constructor
  · exact push_faithful records.faithful (records.unknown new)
  · rw [push_values, records.values, eraseDups_concat, if_neg new]
  · intro mark
    have absent : table.size ∉ table.bucket mark := by
      intro member
      obtain ⟨_, stored, _⟩ := records.faithful.mem_bucket.1 member
      exact Nat.lt_irrefl _ (get?_lt stored)
    rw [bucket_push]
    split
    · rw [← List.concat_eq_append]
      exact (records.once mark).concat absent
    · exact records.once mark

theorem intern (records : table.Records calls) (value : α) :
    (table.intern value).id = (calls ++ [value]).eraseDups.idxOf value ∧
      (table.intern value).fresh = decide (value ∉ calls) ∧
      (table.intern value).table.Records (calls ++ [value]) := by
  by_cases old : value ∈ calls
  · have same : (calls ++ [value]).eraseDups = calls.eraseDups := by
      rw [eraseDups_concat, if_pos old]
    rw [intern_known records.faithful (records.known old), same]
    refine ⟨rfl, by simp [old], records.faithful, ?_, records.once⟩
    rw [records.values, same]
  · have longer : (calls ++ [value]).eraseDups = calls.eraseDups ++ [value] := by
      rw [eraseDups_concat, if_neg old]
    have fresh : value ∉ calls.eraseDups := fun member => old (List.mem_eraseDups.1 member)
    rw [intern_absent (records.unknown old), longer, List.idxOf_append_of_notMem fresh]
    exact ⟨by simp [records.size_eq], by simp [old], records.push old⟩

theorem internAll (records : table.Records calls) (more : List α) :
    (table.internAll more).2.Records (calls ++ more) := by
  induction more generalizing table calls with
  | nil => simpa [Interner.internAll] using records
  | cons value rest ih => simpa [Interner.internAll] using ih (records.intern value).2.2

theorem ids (records : table.Records calls) (more : List α) :
    (table.internAll more).1 = more.map fun value => (calls ++ more).eraseDups.idxOf value := by
  induction more generalizing table calls with
  | nil => rfl
  | cons value rest ih =>
    obtain ⟨id, _, after⟩ := records.intern value
    have seen : value ∈ (calls ++ [value]).eraseDups := List.mem_eraseDups.2 (by simp)
    have whole : calls ++ value :: rest = calls ++ [value] ++ rest := by simp
    have longer : (calls ++ [value] ++ rest).eraseDups = (calls ++ [value]).eraseDups ++
        (rest.removeAll (calls ++ [value])).eraseDups := List.eraseDups_append
    have place : (calls ++ [value] ++ rest).eraseDups.idxOf value =
        (calls ++ [value]).eraseDups.idxOf value := by
      rw [longer, List.idxOf_append_of_mem seen]
    simp only [Interner.internAll, id, ih after, whole, List.map_cons, place]

theorem filed (records : table.Records calls) {id : Nat} {value : α}
    (stored : table.get? id = some value) (mark : UInt64) :
    (table.bucket mark).count id = if fingerprint value = mark then 1 else 0 := by
  rw [(records.once mark).count]
  congr 1
  rw [records.faithful.mem_bucket, stored]
  simp

end Records

end Interner

end CanonicalLR
