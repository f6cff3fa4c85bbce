import CanonicalLR.Ascending
import CanonicalLR.Fingerprint
/-
Finite sets of ids, as strictly ascending lists. Equality, order and fingerprint depend on the
members alone, whatever the history of a set.
-/
namespace CanonicalLR

structure IdSet where
  ids : List Nat
  ascending : Ascending ids
  deriving DecidableEq

abbrev TerminalSet := IdSet

def mergeHead (x : Nat) (next : List Nat → List Nat) : List Nat → List Nat
  | [] => x :: next []
  | y :: ys =>
    if x < y then x :: next (y :: ys)
    else if x = y then x :: next ys
    else y :: mergeHead x next ys

def mergeIds : List Nat → List Nat → List Nat
  | [], ys => ys
  | x :: xs, ys => mergeHead x (mergeIds xs) ys

theorem mem_mergeHead {x z : Nat} {xs : List Nat} {next : List Nat → List Nat}
    (hnext : ∀ ys, z ∈ next ys ↔ z ∈ xs ∨ z ∈ ys) (ys : List Nat) :
    z ∈ mergeHead x next ys ↔ z ∈ x :: xs ∨ z ∈ ys := by
  induction ys with
  | nil => simp [mergeHead, hnext]
  | cons y ys ih =>
    simp only [mergeHead]
    split
    · simp [hnext, or_assoc]
    · split
      · rename_i eq
        subst eq
        simp only [List.mem_cons, hnext]
        grind
      · simp only [List.mem_cons, ih]
        grind

theorem mem_mergeIds {z : Nat} (xs ys : List Nat) : z ∈ mergeIds xs ys ↔ z ∈ xs ∨ z ∈ ys := by
  induction xs generalizing ys with
  | nil => simp [mergeIds]
  | cons x xs ih => exact mem_mergeHead ih ys

theorem mergeHead_ascending {x : Nat} {xs : List Nat} {next : List Nat → List Nat}
    (hmem : ∀ z ys, z ∈ next ys ↔ z ∈ xs ∨ z ∈ ys)
    (hnext : ∀ ys, Ascending ys → Ascending (next ys)) (hx : ∀ z ∈ xs, x < z)
    {ys : List Nat} (hys : Ascending ys) : Ascending (mergeHead x next ys) := by
  induction ys with
  | nil =>
    refine List.pairwise_cons.2 ⟨fun z hz => ?_, hnext [] hys⟩
    simpa using hx z (by simpa [hmem] using hz)
  | cons y ys ih =>
    have tail := List.pairwise_cons.1 hys
    simp only [mergeHead]
    split
    · rename_i lt
      refine List.pairwise_cons.2 ⟨fun z hz => ?_, hnext _ hys⟩
      rcases (hmem z _).1 hz with m | m
      · exact hx z m
      · rcases List.mem_cons.1 m with e | m
        · omega
        · have := tail.1 z m
          omega
    · split
      · rename_i eq
        refine List.pairwise_cons.2 ⟨fun z hz => ?_, hnext _ tail.2⟩
        rcases (hmem z _).1 hz with m | m
        · exact hx z m
        · have := tail.1 z m
          omega
      · refine List.pairwise_cons.2 ⟨fun z hz => ?_, ih tail.2⟩
        rcases (mem_mergeHead (hmem z) ys).1 hz with m | m
        · rcases List.mem_cons.1 m with e | m
          · omega
          · have := hx z m
            omega
        · exact tail.1 z m

theorem mergeIds_ascending {xs ys : List Nat} (hx : Ascending xs) (hy : Ascending ys) :
    Ascending (mergeIds xs ys) := by
  induction xs generalizing ys with
  | nil => exact hy
  | cons x xs ih =>
    have tail := List.pairwise_cons.1 hx
    exact mergeHead_ascending (fun z ys => mem_mergeIds xs ys) (fun _ h => ih tail.2 h)
      tail.1 hy

/-- Lexicographic order: a proper beginning comes first. -/
def compareIds : List Nat → List Nat → Ordering
  | [], [] => .eq
  | [], _ :: _ => .lt
  | _ :: _, [] => .gt
  | x :: xs, y :: ys => if x < y then .lt else if y < x then .gt else compareIds xs ys

namespace IdSet

def empty : IdSet := ⟨[], List.Pairwise.nil⟩

def singleton (id : Nat) : IdSet := ⟨[id], List.pairwise_singleton _ _⟩

def contains (set : IdSet) (id : Nat) : Bool := set.ids.elem id

def insert (set : IdSet) (id : Nat) : IdSet :=
  ⟨insertAscending id set.ids,
    insertAscending_ascending Nat.lt_trans (fun h ne => by omega) set.ascending⟩

def union (a b : IdSet) : IdSet :=
  ⟨mergeIds a.ids b.ids, mergeIds_ascending a.ascending b.ascending⟩

def ofList (ids : List Nat) : IdSet := ids.foldl insert empty

def size (set : IdSet) : Nat := set.ids.length

def isEmpty (set : IdSet) : Bool := set.ids.isEmpty

def add (set : IdSet) (id : Nat) : IdSet × Bool := (set.insert id, !set.contains id)

def absorb (a b : IdSet) : IdSet × Bool := (a.union b, (a.union b).size != a.size)

def compare (a b : IdSet) : Ordering := compareIds a.ids b.ids

instance : Membership Nat IdSet := ⟨fun set id => id ∈ set.ids⟩

instance : EmptyCollection IdSet := ⟨empty⟩

instance : Union IdSet := ⟨union⟩

instance : Fingerprint IdSet := ⟨fun set => stir (fingerprint set.ids) (fingerprint set.size)⟩

instance (id : Nat) (set : IdSet) : Decidable (id ∈ set) :=
  inferInstanceAs (Decidable (id ∈ set.ids))

theorem mem_def {id : Nat} {set : IdSet} : id ∈ set ↔ id ∈ set.ids := Iff.rfl

theorem ext {a b : IdSet} (h : ∀ id, id ∈ a ↔ id ∈ b) : a = b := by
  have ids : a.ids = b.ids :=
    ascending_ext Nat.lt_trans (Nat.lt_irrefl _) a.ascending b.ascending h
  cases a
  cases b
  simp_all

@[simp] theorem not_mem_empty (id : Nat) : id ∉ (∅ : IdSet) := by
  simp [mem_def, EmptyCollection.emptyCollection, empty]

@[simp] theorem mem_singleton {id x : Nat} : x ∈ singleton id ↔ x = id := by
  simp [mem_def, singleton]

@[simp] theorem contains_iff {set : IdSet} {id : Nat} : set.contains id = true ↔ id ∈ set := by
  simp [contains, mem_def]

@[simp] theorem mem_insert {set : IdSet} {id x : Nat} : x ∈ set.insert id ↔ x = id ∨ x ∈ set :=
  mem_insertAscending

@[simp] theorem mem_union {a b : IdSet} {x : Nat} : x ∈ a ∪ b ↔ x ∈ a ∨ x ∈ b :=
  mem_mergeIds a.ids b.ids

theorem mem_foldl_insert {x : Nat} (ids : List Nat) (set : IdSet) :
    x ∈ ids.foldl insert set ↔ x ∈ ids ∨ x ∈ set := by
  induction ids generalizing set with
  | nil => simp
  | cons id ids ih =>
    simp only [List.foldl_cons, ih, mem_insert, List.mem_cons]
    grind

@[simp] theorem mem_ofList {ids : List Nat} {x : Nat} : x ∈ ofList ids ↔ x ∈ ids := by
  have := mem_foldl_insert (x := x) ids empty
  simpa [ofList, mem_def, empty] using this

end IdSet

end CanonicalLR
