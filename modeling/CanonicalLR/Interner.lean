import CanonicalLR.Fingerprint
import Std.Data.TreeMap
/-
Hash consing. Equal values share one id, ids count up from zero in the order of first sight, and
each value is stored once. Look-up goes through buckets of ids, one for each fingerprint; values
in one bucket are told apart by comparison, so colliding fingerprints do no harm. What serves as an
id is left open: natural numbers never run out, machine words do.
-/
namespace CanonicalLR

class Index (ι : Type) where
  ofNat : Nat → ι
  toNat : ι → Nat

instance : Index Nat := ⟨id, id⟩

/-- A place that does not fit into 32 bits is cut down to its last 32. -/
instance : Index UInt32 := ⟨UInt32.ofNat, UInt32.toNat⟩

@[simp] theorem Index.ofNat_nat (n : Nat) : (Index.ofNat n : Nat) = n := rfl

@[simp] theorem Index.toNat_nat (n : Nat) : Index.toNat n = n := rfl

structure Interner (α ι : Type) where
  values : Array α
  buckets : Std.TreeMap UInt64 (List ι)

/-- What interning a value gives: its id, whether the value was new, and the table afterwards. -/
structure Interned (α ι : Type) where
  id : ι
  fresh : Bool
  table : Interner α ι

namespace Interner

variable {α ι : Type}

def empty : Interner α ι := ⟨#[], ∅⟩

def size (table : Interner α ι) : Nat := table.values.size

def bucket (table : Interner α ι) (mark : UInt64) : List ι := table.buckets.getD mark []

variable [Index ι]

def get? (table : Interner α ι) (id : ι) : Option α := table.values[Index.toNat id]?

def entries (table : Interner α ι) : List (ι × α) :=
  table.values.toList.zipIdx.map fun entry => (Index.ofNat entry.2, entry.1)

variable [Fingerprint α]

def push (table : Interner α ι) (value : α) : Interner α ι :=
  let mark := fingerprint value
  ⟨table.values.push value,
    table.buckets.insert mark (table.bucket mark ++ [Index.ofNat table.size])⟩

theorem size_push (table : Interner α ι) (value : α) :
    (table.push value).size = table.size + 1 := by
  simp [push, size]

theorem get?_push (table : Interner α Nat) (value : α) (id : Nat) :
    (table.push value).get? id = if id = table.size then some value else table.get? id := by
  simp only [push, get?, size]
  exact Array.getElem?_push

theorem bucket_push (table : Interner α ι) (value : α) (mark : UInt64) :
    (table.push value).bucket mark =
      if fingerprint value = mark then table.bucket mark ++ [Index.ofNat table.size]
      else table.bucket mark := by
  simp only [push, bucket, Std.TreeMap.getD_insert, Std.LawfulEqCmp.compare_eq_iff_eq]
  by_cases same : fingerprint value = mark <;> simp [same]

variable [DecidableEq α]

def find? (table : Interner α ι) (value : α) : Option ι :=
  (table.bucket (fingerprint value)).find? fun id => decide (table.get? id = some value)

def intern (table : Interner α ι) (value : α) : Interned α ι :=
  match table.find? value with
  | some id => ⟨id, false, table⟩
  | none => ⟨Index.ofNat table.size, true, table.push value⟩

def internAll (table : Interner α ι) : List α → List ι × Interner α ι
  | [] => ([], table)
  | value :: rest =>
    let first := table.intern value
    let (ids, final) := first.table.internAll rest
    (first.id :: ids, final)

end Interner

end CanonicalLR
