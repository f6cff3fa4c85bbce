import CanonicalLR.Proofs.HashConsing
/-
Tables with ids of 32 bits. As long as no more than 2^32 different values are seen, such a table is
one with unbounded ids and every id cut down, and cutting down loses nothing: the calls alone tell
what it answers, and the fingerprints have no part in it. The next value after that shares the id of
the first one, and is not found again.
-/
namespace CanonicalLR

theorem find?_congr_mem {α : Type} {xs : List α} {p q : α → Bool} (h : ∀ x ∈ xs, p x = q x) :
    xs.find? p = xs.find? q := by
  induction xs with
  | nil => rfl
  | cons x rest ih =>
    rw [List.find?_cons, List.find?_cons, h x List.mem_cons_self,
      ih fun y member => h y (List.mem_cons_of_mem x member)]

theorem counts_range (n : Nat) : Counts (List.range n) n := by
  induction n with
  | zero => rfl
  | succ n ih =>
    rw [List.range_succ]
    exact ih.new

namespace Interner

variable {α : Type}

/-- The same values, and the same ids in every bucket, cut down to 32 bits. -/
structure Narrows (table : Interner α UInt32) (wide : Interner α Nat) : Prop where
  values : table.values = wide.values
  bucket (mark : UInt64) : table.bucket mark = (wide.bucket mark).map UInt32.ofNat

theorem empty_narrows : (empty : Interner α UInt32).Narrows empty := by
  constructor
  · rfl
  · intro mark
    simp [Interner.bucket, empty, Std.TreeMap.getD_emptyc]

namespace Narrows

variable {table : Interner α UInt32} {wide : Interner α Nat}

theorem size (narrows : table.Narrows wide) : table.size = wide.size := by
  rw [Interner.size, Interner.size, narrows.values]

theorem get?_ofNat (narrows : table.Narrows wide) {id : Nat} (small : id < UInt32.size) :
    table.get? (UInt32.ofNat id) = wide.get? id := by
  change table.values[(UInt32.ofNat id).toNat]? = wide.values[id]?
  rw [UInt32.toNat_ofNat_of_lt' small, narrows.values]

theorem get?_eq (narrows : table.Narrows wide) (id : UInt32) :
    table.get? id = wide.get? id.toNat := by
  rw [← narrows.get?_ofNat id.toNat_lt, UInt32.ofNat_toNat]

variable [Fingerprint α]

theorem push (narrows : table.Narrows wide) (value : α) :
    (table.push value).Narrows (wide.push value) := by
  constructor
  · simp [Interner.push, narrows.values]
  · intro mark
    rw [bucket_push, bucket_push, narrows.bucket, narrows.size]
    split
    · rw [List.map_append]
      rfl
    · rfl

theorem count_ofNat (narrows : table.Narrows wide) (faithful : wide.Faithful)
    (fits : wide.size ≤ UInt32.size) {place : Nat} (small : place < UInt32.size) (mark : UInt64) :
    (table.bucket mark).count (UInt32.ofNat place) = (wide.bucket mark).count place := by
  rw [narrows.bucket, List.count, List.count, List.countP_map]
  apply List.countP_congr
  intro id filed
  obtain ⟨_, stored, _⟩ := faithful.mem_bucket.1 filed
  have known : id < UInt32.size := Nat.lt_of_lt_of_le (get?_lt stored) fits
  have same : UInt32.ofNat id = UInt32.ofNat place ↔ id = place := by
    rw [← UInt32.toNat_inj, UInt32.toNat_ofNat_of_lt' known, UInt32.toNat_ofNat_of_lt' small]
  simp [same]

variable [DecidableEq α]

theorem find? (narrows : table.Narrows wide) (faithful : wide.Faithful)
    (fits : wide.size ≤ UInt32.size) (value : α) :
    table.find? value = (wide.find? value).map UInt32.ofNat := by
  rw [Interner.find?, Interner.find?, narrows.bucket, List.find?_map]
  congr 1
  apply find?_congr_mem
  intro id filed
  obtain ⟨_, stored, _⟩ := faithful.mem_bucket.1 filed
  have small : id < UInt32.size := Nat.lt_of_lt_of_le (get?_lt stored) fits
  rw [Function.comp_apply, narrows.get?_ofNat small]

theorem intern (narrows : table.Narrows wide) (faithful : wide.Faithful)
    (fits : wide.size ≤ UInt32.size) (value : α) :
    (table.intern value).id = UInt32.ofNat (wide.intern value).id ∧
      (table.intern value).fresh = (wide.intern value).fresh ∧
      (table.intern value).table.Narrows (wide.intern value).table := by
  have found := narrows.find? faithful fits value
  cases known : wide.find? value with
  | some id =>
    have old : wide.intern value = ⟨id, false, wide⟩ := by simp only [Interner.intern, known]
    have cut : table.intern value = ⟨UInt32.ofNat id, false, table⟩ := by
      simp only [Interner.intern, found, known, Option.map_some]
    rw [old, cut]
    exact ⟨rfl, rfl, narrows⟩
  | none =>
    have new : wide.intern value = ⟨wide.size, true, wide.push value⟩ := by
      simp only [Interner.intern, known, Index.ofNat_nat]
    have cut : table.intern value = ⟨UInt32.ofNat table.size, true, table.push value⟩ := by
      simp only [Interner.intern, found, known, Option.map_none]
      rfl
    rw [new, cut, narrows.size]
    exact ⟨rfl, rfl, narrows.push value⟩

theorem internAll (narrows : table.Narrows wide) (faithful : wide.Faithful) {values : List α}
    (fits : (wide.internAll values).2.size ≤ UInt32.size) :
    (table.internAll values).1 = (wide.internAll values).1.map UInt32.ofNat ∧
      (table.internAll values).2.Narrows (wide.internAll values).2 := by
  induction values generalizing table wide with
  | nil => exact ⟨rfl, narrows⟩
  | cons value rest ih =>
    have grown := (internAll_extends wide (value :: rest)).size_le
    obtain ⟨id, _, first⟩ := narrows.intern faithful (Nat.le_trans grown fits) value
    obtain ⟨ids, last⟩ := ih first (intern_faithful faithful value) fits
    exact ⟨by simp [Interner.internAll, id, ids], last⟩

end Narrows

def Fits [DecidableEq α] (calls : List α) : Prop := calls.eraseDups.length ≤ UInt32.size

variable [Fingerprint α] [DecidableEq α]

theorem intern_id {ι : Type} [Index ι] (table : Interner α ι) (value : α) :
    (table.intern value).id = (table.find? value).getD (Index.ofNat table.size) := by
  unfold intern
  split <;> simp_all

theorem intern_fresh {ι : Type} [Index ι] (table : Interner α ι) (value : α) :
    (table.intern value).fresh = (table.find? value).isNone := by
  unfold intern
  split <;> simp_all

/-- A table after its calls, and the ids that were the answers, in terms of the calls alone. -/
structure Consed (calls : List α) (ids : List UInt32) (table : Interner α UInt32) : Prop where
  values : table.values.toList = calls.eraseDups
  distinct : table.values.toList.Nodup
  filed {place : Nat} : place < table.size → (UInt32.ofNat place).toNat = place ∧
    ∃ value, table.get? (UInt32.ofNat place) = some value ∧ ∀ mark,
      (table.bucket mark).count (UInt32.ofNat place) = if fingerprint value = mark then 1 else 0
  inside {id : UInt32} {mark : UInt64} : id ∈ table.bucket mark → id.toNat < table.size
  counted : Counts (ids.map UInt32.toNat) table.size
  places : ids.map UInt32.toNat = calls.map fun value => calls.eraseDups.idxOf value
  answer (value : α) : Fits (calls ++ [value]) →
    (table.intern value).id.toNat = (calls ++ [value]).eraseDups.idxOf value ∧
    ((table.intern value).fresh = true ↔ value ∉ calls) ∧
    (table.intern value).table = (empty.internAll (calls ++ [value])).2
  kept (more : List α) : Fits (calls ++ more) → ids <+: (empty.internAll (calls ++ more)).1 ∧
    ∀ id value, table.get? id = some value →
      (empty.internAll (calls ++ more)).2.get? id = some value
  find {value : α} {id : UInt32} : table.find? value = some id ↔ table.get? id = some value

theorem internAll_narrows {calls : List α} (fits : Fits calls) :
    ((empty : Interner α UInt32).internAll calls).2.Narrows (empty.internAll calls).2 ∧
      ((empty : Interner α UInt32).internAll calls).1.map UInt32.toNat =
        (empty.internAll calls).1 := by
  have records : (empty.internAll calls).2.Records calls := empty_records.internAll calls
  have bound : ((empty : Interner α Nat).internAll calls).2.size ≤ UInt32.size :=
    records.size_eq ▸ fits
  have counted : Counts ([] ++ (empty.internAll calls).1) (empty.internAll calls).2.size :=
    internAll_counts (show Counts [] (empty : Interner α Nat).size from rfl) calls
  obtain ⟨ids, narrows⟩ := empty_narrows.internAll empty_faithful bound
  refine ⟨narrows, ?_⟩
  rw [ids, List.map_map]
  refine (List.map_congr_left ?_).trans (List.map_id _)
  intro id listed
  have small : id < (empty.internAll calls).2.size := counted.mem_iff.1 listed
  exact UInt32.toNat_ofNat_of_lt' (Nat.lt_of_lt_of_le small bound)

theorem internAll_consed {calls : List α} (fits : Fits calls) :
    Consed calls (empty.internAll calls).1 (empty.internAll calls).2 := by
  obtain ⟨narrows, ids⟩ := internAll_narrows fits
  have records : (empty.internAll calls).2.Records calls := empty_records.internAll calls
  have bound : ((empty : Interner α Nat).internAll calls).2.size ≤ UInt32.size :=
    records.size_eq ▸ fits
  have counted : Counts [] (empty : Interner α Nat).size := rfl
  constructor
  · rw [narrows.values, records.values]
  · rw [narrows.values, records.values]
    exact nodup_eraseDups calls
  · intro place inside
    rw [narrows.size] at inside
    have small := Nat.lt_of_lt_of_le inside bound
    obtain ⟨value, stored⟩ := get?_of_lt inside
    refine ⟨UInt32.toNat_ofNat_of_lt' small, value, ?_, ?_⟩
    · rw [narrows.get?_ofNat small, stored]
    · intro mark
      rw [narrows.count_ofNat records.faithful bound small, records.filed stored]
  · intro id mark filed
    rw [narrows.bucket] at filed
    obtain ⟨place, member, rfl⟩ := List.mem_map.1 filed
    obtain ⟨_, stored, _⟩ := records.faithful.mem_bucket.1 member
    have inside := get?_lt stored
    rw [narrows.size, UInt32.toNat_ofNat_of_lt' (Nat.lt_of_lt_of_le inside bound)]
    exact inside
  · rw [ids, narrows.size]
    exact internAll_counts counted calls
  · rw [ids]
    exact empty_records.ids calls
  · intro value fits'
    obtain ⟨id, fresh, _⟩ := narrows.intern records.faithful bound value
    obtain ⟨place, new, _⟩ := records.intern value
    have seen : value ∈ (calls ++ [value]).eraseDups := List.mem_eraseDups.2 (by simp)
    have small := Nat.lt_of_lt_of_le (List.idxOf_lt_length_of_mem seen) fits'
    refine ⟨?_, by simp [fresh, new], ?_⟩
    · rw [id, place, UInt32.toNat_ofNat_of_lt' small]
    · rw [internAll_append]
      rfl
  · intro more fits'
    refine ⟨?_, ?_⟩
    · rw [internAll_append]
      exact List.prefix_append _ _
    · intro id value stored
      obtain ⟨later, _⟩ := internAll_narrows fits'
      rw [narrows.get?_eq] at stored
      rw [later.get?_eq, internAll_append]
      exact internAll_extends _ more stored
  · intro value id
    rw [narrows.find? records.faithful bound, narrows.get?_eq, Option.map_eq_some_iff]
    constructor
    · rintro ⟨place, found, rfl⟩
      have stored := (find?_eq_some_iff records.faithful).1 found
      rwa [UInt32.toNat_ofNat_of_lt' (Nat.lt_of_lt_of_le (get?_lt stored) bound)]
    · intro stored
      exact ⟨id.toNat, (find?_eq_some_iff records.faithful).2 stored, UInt32.ofNat_toNat⟩

end Interner

namespace Interner

variable {α : Type} [DecidableEq α] {one other : Fingerprint α} {calls : List α}
  {ids ids' : List UInt32} {a b : Interner α UInt32}

structure AnswersAlike (one other : Fingerprint α) (a b : Interner α UInt32) : Prop where
  size : a.size = b.size
  entries : a.entries = b.entries
  get (id : UInt32) : a.get? id = b.get? id
  find (value : α) : @find? α _ _ one _ a value = @find? α _ _ other _ b value
  id (value : α) : (@intern α _ _ one _ a value).id = (@intern α _ _ other _ b value).id
  fresh (value : α) :
    (@intern α _ _ one _ a value).fresh = (@intern α _ _ other _ b value).fresh

theorem Consed.alike (first : @Consed α one _ calls ids a)
    (second : @Consed α other _ calls ids' b) : ids = ids' ∧ AnswersAlike one other a b := by
  -- taken apart, for a projection would look for the one instance among two
  obtain ⟨seen, _, _, _, _, places, _, _, find⟩ := first
  obtain ⟨seen', _, _, _, _, places', _, _, find'⟩ := second
  have values : a.values = b.values := Array.toList_inj.1 (seen.trans seen'.symm)
  have get : ∀ id, a.get? id = b.get? id := by
    intro id
    rw [get?, get?, values]
  have size : a.size = b.size := by
    rw [Interner.size, Interner.size, values]
  have same : ∀ value, @find? α _ _ one _ a value = @find? α _ _ other _ b value := by
    intro value
    apply Option.ext
    intro id
    rw [find, find', get]
  refine ⟨?_, ?_⟩
  · exact List.map_injective_iff.2 (fun _ _ => UInt32.toNat_inj.1) (places.trans places'.symm)
  · constructor
    · exact size
    · rw [entries, entries, values]
    · exact get
    · exact same
    · intro value
      rw [@intern_id α one, @intern_id α other, same, size]
    · intro value
      rw [@intern_fresh α one, @intern_fresh α other, same]

theorem Consed.fits [Fingerprint α] {table : Interner α UInt32} (consed : Consed calls ids table) :
    Fits calls := by
  have size : table.size = calls.eraseDups.length := by
    rw [← consed.values, Array.length_toList]
    rfl
  by_contra more
  have inside : UInt32.size < table.size := size ▸ Nat.lt_of_not_le more
  obtain ⟨id, _, last⟩ := List.mem_map.1 (consed.counted.mem_iff.2 inside)
  have bound := id.toNat_lt
  rw [last] at bound
  exact Nat.lt_irrefl _ bound

theorem find?_eq_none_of_far [Fingerprint α] {table : Interner α UInt32} {value : α}
    (far : ∀ place, table.values[place]? = some value → UInt32.size ≤ place) :
    table.find? value = none := by
  apply List.find?_eq_none.2
  intro id _ found
  have near := far id.toNat (of_decide_eq_true found)
  exact Nat.not_le_of_lt id.toNat_lt near

/-- When all ids are taken, a new value gets the first of them and stays unknown. -/
theorem intern_full [Fingerprint α] (full : calls.eraseDups.length = UInt32.size) {value : α}
    (new : value ∉ calls) {table : Interner α UInt32}
    (interned : (empty.internAll calls).2 = table) :
    (table.intern value).id = 0 ∧ (table.intern value).fresh = true ∧
      (table.intern value).table.find? value = none := by
  have consed := internAll_consed (Nat.le_of_eq full)
  rw [interned] at consed
  have size : table.size = UInt32.size := by
    rw [Interner.size, ← Array.length_toList, consed.values, full]
  have absent : ∀ place : Nat, table.values[place]? ≠ some value := by
    intro place stored
    rw [← Array.getElem?_toList, consed.values] at stored
    exact new (List.mem_eraseDups.1 (List.mem_of_getElem? stored))
  have missed : table.find? value = none :=
    find?_eq_none_of_far fun place stored => absurd stored (absent place)
  have pushed : table.intern value = ⟨Index.ofNat table.size, true, table.push value⟩ := by
    simp only [intern, missed]
  rw [pushed]
  refine ⟨?_, rfl, find?_eq_none_of_far ?_⟩
  · rw [size]
    rfl
  · intro place stored
    rw [push, Array.getElem?_push] at stored
    split at stored
    · rename_i last
      exact Nat.le_of_eq (size.symm.trans last.symm)
    · exact absurd stored (absent place)

end Interner

/-- Whatever the fingerprints, a table holds each value once under the id of its first sight, and
its calls alone tell what it answers, as long as the ids do not run out. -/
theorem hash_consing {α : Type} [DecidableEq α] (calls : List α) (fits : Interner.Fits calls) :
    (∀ [Fingerprint α], Interner.Consed calls (Interner.empty.internAll calls).1
      (Interner.empty.internAll calls).2) ∧
    ∀ one other : Fingerprint α,
      (@Interner.internAll α UInt32 _ one _ .empty calls).1 =
        (@Interner.internAll α UInt32 _ other _ .empty calls).1 ∧
      Interner.AnswersAlike one other (@Interner.internAll α UInt32 _ one _ .empty calls).2
        (@Interner.internAll α UInt32 _ other _ .empty calls).2 := by
  refine ⟨Interner.internAll_consed fits, ?_⟩
  intro one other
  exact Interner.Consed.alike (@Interner.internAll_consed α one _ calls fits)
    (@Interner.internAll_consed α other _ calls fits)

theorem hash_consing_colliding :
    Interner.Fits ["a", "b", "a"] ∧
    (@Interner.internAll String UInt32 _ ⟨fun _ => 0⟩ _ .empty ["a", "b", "a"]).1 = [0, 1, 0] ∧
    (@Interner.internAll String UInt32 _ ⟨fun _ => 0⟩ _ .empty ["a", "b", "a"]).2.bucket 0 =
      [0, 1] ∧
    Interner.AnswersAlike ⟨fun _ => 0⟩ inferInstance
      (@Interner.internAll String UInt32 _ ⟨fun _ => 0⟩ _ .empty ["a", "b", "a"]).2
      (Interner.empty.internAll ["a", "b", "a"]).2 := by
  have fits : Interner.Fits ["a", "b", "a"] := by
    unfold Interner.Fits
    decide
  refine ⟨fits, by decide +kernel, by decide +kernel, ?_⟩
  exact ((hash_consing ["a", "b", "a"] fits).2 ⟨fun _ => 0⟩ inferInstance).2

/-- Behind the numbers below 2^32 the next one gets the id of 0, and is new once more. -/
theorem ids_run_out : ∃ table : Interner Nat UInt32,
    (Interner.empty.internAll (List.range UInt32.size)).2 = table ∧
    table.get? 0 = some 0 ∧ (table.intern UInt32.size).id = 0 ∧
    (table.intern UInt32.size).table.find? UInt32.size = none ∧
    ((table.intern UInt32.size).table.intern UInt32.size).fresh = true ∧
    ¬ Interner.Consed (List.range UInt32.size ++ [UInt32.size])
      (Interner.empty.internAll (List.range UInt32.size ++ [UInt32.size])).1
      (Interner.empty.internAll (List.range UInt32.size ++ [UInt32.size])).2 := by
  have listed : (List.range UInt32.size).eraseDups = List.range UInt32.size := counts_range _
  have full : (List.range UInt32.size).eraseDups.length = UInt32.size := by
    rw [listed, List.length_range]
  have new : UInt32.size ∉ List.range UInt32.size := List.not_mem_range_self
  obtain ⟨id, _, missed⟩ := Interner.intern_full full new rfl
  refine ⟨_, rfl, ?_, id, missed, ?_, ?_⟩
  · have consed := Interner.internAll_consed (Nat.le_of_eq full)
    change (Interner.empty.internAll (List.range UInt32.size) :
      List UInt32 × Interner Nat UInt32).2.values[0]? = some 0
    rw [← Array.getElem?_toList, consed.values, listed]
    exact List.getElem?_range (by decide)
  · rw [Interner.intern_fresh, missed]
    rfl
  · intro consed
    have fits := consed.fits
    rw [Interner.Fits, ← List.range_succ, counts_range, List.length_range] at fits
    exact Nat.not_succ_le_self _ fits

end CanonicalLR
