import CanonicalLR.IdSet
import Mathlib.Data.Finset.Card
import Mathlib.Data.List.Lex
/-
Sets of ids in any form. Equality, order and what is fed to a hasher are told from the ascending
members alone; so if a form lists its members rightly, its sets answer as the finite sets of the ids
that went into them, whatever they have been through.
-/
namespace CanonicalLR

structure SetForm (σ : Type) where
  empty : σ
  add : σ → Nat → σ × Bool
  union : σ → σ → σ
  contains : σ → Nat → Bool
  members : σ → List Nat
  size : σ → Nat
  isEmpty : σ → Bool

/-- What takes in ids and, to tell where they end, their number. -/
structure Hasher (η : Type) where
  id : η → Nat → η
  number : η → Nat → η

inductive SetCall where
  | new (target : Nat)
  | singleton (target id : Nat)
  | ofList (target : Nat) (ids : List Nat)
  | copy (target source : Nat)
  | add (target id : Nat)
  | absorb (target source : Nat)

namespace SetForm

variable {σ : Type} (form : SetForm σ)

def singleton (id : Nat) : σ := (form.add form.empty id).1

def ofList (ids : List Nat) : σ := ids.foldl (fun set id => (form.add set id).1) form.empty

def absorb (a b : σ) : σ × Bool :=
  (form.union a b, form.size (form.union a b) != form.size a)

def equal (a b : σ) : Bool := form.members a == form.members b

def compare (a b : σ) : Ordering := compareIds (form.members a) (form.members b)

def feed {η : Type} (hasher : Hasher η) (state : η) (set : σ) : η :=
  hasher.number ((form.members set).foldl hasher.id state) (form.size set)

def ids (set : σ) : Finset Nat := (form.members set).toFinset

def call (sets : Nat → σ) : SetCall → Nat → σ
  | .new target => Function.update sets target form.empty
  | .singleton target id => Function.update sets target (form.singleton id)
  | .ofList target ids => Function.update sets target (form.ofList ids)
  | .copy target source => Function.update sets target (sets source)
  | .add target id => Function.update sets target (form.add (sets target) id).1
  | .absorb target source =>
    Function.update sets target (form.absorb (sets target) (sets source)).1

def after (calls : List SetCall) : Nat → σ := calls.foldl form.call fun _ => form.empty

end SetForm

def SetCall.effect (sets : Nat → Finset Nat) : SetCall → Nat → Finset Nat
  | .new target => Function.update sets target ∅
  | .singleton target id => Function.update sets target {id}
  | .ofList target ids => Function.update sets target ids.toFinset
  | .copy target source => Function.update sets target (sets source)
  | .add target id => Function.update sets target (insert id (sets target))
  | .absorb target source => Function.update sets target (sets target ∪ sets source)

def idsAfter (calls : List SetCall) : Nat → Finset Nat := calls.foldl SetCall.effect fun _ => ∅

/-- The sets of a form answer as the finite sets of their ids, and nothing else shows. -/
structure SetForm.Lawful {σ : Type} (form : SetForm σ) : Prop where
  after (calls : List SetCall) (name : Nat) :
    form.ids (form.after calls name) = idsAfter calls name
  contains (set : σ) (id : Nat) : form.contains set id = true ↔ id ∈ form.ids set
  ascending (set : σ) : Ascending (form.members set)
  size (set : σ) : form.size set = (form.ids set).card
  isEmpty (set : σ) : form.isEmpty set = true ↔ form.ids set = ∅
  add (set : σ) (id : Nat) : form.ids (form.add set id).1 = insert id (form.ids set)
  absent (set : σ) (id : Nat) : (form.add set id).2 = true ↔ id ∉ form.ids set
  absorb (a b : σ) : form.ids (form.absorb a b).1 = form.ids a ∪ form.ids b
  grown (a b : σ) : (form.absorb a b).2 = true ↔ ¬ form.ids b ⊆ form.ids a
  equal (a b : σ) : form.equal a b = true ↔ form.ids a = form.ids b
  feed {a b : σ} : form.equal a b = true → ∀ {η : Type} (hasher : Hasher η) (state : η),
    form.feed hasher state a = form.feed hasher state b
  compare_lt (a b : σ) : form.compare a b = .lt ↔ form.members a < form.members b
  compare_eq (a b : σ) : form.compare a b = .eq ↔ form.equal a b = true
  compare_swap (a b : σ) : form.compare b a = (form.compare a b).swap
  compare_trans {a b c : σ} : form.compare a b ≠ .gt → form.compare b c ≠ .gt →
    form.compare a c ≠ .gt

theorem compareIds_eq_lt {xs ys : List Nat} : compareIds xs ys = .lt ↔ xs < ys := by
  induction xs generalizing ys with
  | nil => cases ys <;> simp [compareIds]
  | cons x xs ih =>
    cases ys with
    | nil => simp [compareIds]
    | cons y ys =>
      rw [compareIds, List.cons_lt_cons_iff, ← ih]
      rcases Nat.lt_trichotomy x y with less | rfl | more
      · simp [less]
      · simp
      · have unequal : x ≠ y := by omega
        simp [more, Nat.lt_asymm more, unequal]

theorem compareIds_swap (xs ys : List Nat) : compareIds ys xs = (compareIds xs ys).swap := by
  induction xs generalizing ys with
  | nil => cases ys <;> rfl
  | cons x xs ih =>
    cases ys with
    | nil => rfl
    | cons y ys =>
      rw [compareIds, compareIds, ih ys]
      rcases Nat.lt_trichotomy x y with less | rfl | more
      · simp [less, Nat.lt_asymm less]
      · simp
      · simp [more, Nat.lt_asymm more]

theorem compareIds_eq_gt {xs ys : List Nat} : compareIds xs ys = .gt ↔ ys < xs := by
  rw [← compareIds_eq_lt, compareIds_swap xs ys]
  cases compareIds xs ys <;> simp

theorem compareIds_eq_eq {xs ys : List Nat} : compareIds xs ys = .eq ↔ xs = ys := by
  constructor
  · intro equal
    rcases lt_trichotomy xs ys with less | same | more
    · rw [compareIds_eq_lt.2 less] at equal
      contradiction
    · exact same
    · rw [compareIds_eq_gt.2 more] at equal
      contradiction
  · intro same
    subst same
    cases outcome : compareIds xs xs with
    | eq => rfl
    | lt => exact absurd (compareIds_eq_lt.1 outcome) (lt_irrefl xs)
    | gt => exact absurd (compareIds_eq_gt.1 outcome) (lt_irrefl xs)

theorem compareIds_trans {xs ys zs : List Nat} (first : compareIds xs ys ≠ .gt)
    (second : compareIds ys zs ≠ .gt) : compareIds xs zs ≠ .gt := by
  rw [Ne, compareIds_eq_gt, not_lt] at *
  exact first.trans second

theorem ascending_toFinset_inj {xs ys : List Nat} (hx : Ascending xs) (hy : Ascending ys) :
    xs.toFinset = ys.toFinset ↔ xs = ys := by
  constructor
  · intro same
    apply ascending_ext Nat.lt_trans (Nat.lt_irrefl _) hx hy
    intro x
    rw [← List.mem_toFinset, same, List.mem_toFinset]
  · exact congrArg List.toFinset

theorem card_union_eq_iff {a b : Finset Nat} : (a ∪ b).card = a.card ↔ b ⊆ a := by
  constructor
  · intro same
    have whole : a = a ∪ b :=
      Finset.eq_of_subset_of_card_le Finset.subset_union_left (Nat.le_of_eq same)
    exact Finset.union_eq_left.1 whole.symm
  · intro inside
    rw [Finset.union_eq_left.2 inside]

namespace SetForm

variable {σ : Type}

/-- The form lists the members of its sets rightly: after each operation, and in ascending order. -/
structure Sound (form : SetForm σ) : Prop where
  empty : form.members form.empty = []
  ascending (set : σ) : Ascending (form.members set)
  mem_add (set : σ) (id x : Nat) :
    x ∈ form.members (form.add set id).1 ↔ x = id ∨ x ∈ form.members set
  absent (set : σ) (id : Nat) : (form.add set id).2 = !form.contains set id
  mem_union (a b : σ) (x : Nat) :
    x ∈ form.members (form.union a b) ↔ x ∈ form.members a ∨ x ∈ form.members b
  contains (set : σ) (id : Nat) : form.contains set id = true ↔ id ∈ form.members set
  size (set : σ) : form.size set = (form.members set).length
  isEmpty (set : σ) : form.isEmpty set = true ↔ form.members set = []

namespace Sound

variable {form : SetForm σ} (sound : form.Sound)

include sound

theorem ids_empty : form.ids form.empty = ∅ := by
  rw [ids, sound.empty, List.toFinset_nil]

theorem ids_add (set : σ) (id : Nat) :
    form.ids (form.add set id).1 = insert id (form.ids set) := by
  ext x
  simp only [ids, List.mem_toFinset, Finset.mem_insert]
  exact sound.mem_add set id x

theorem ids_union (a b : σ) : form.ids (form.union a b) = form.ids a ∪ form.ids b := by
  ext x
  simp only [ids, List.mem_toFinset, Finset.mem_union]
  exact sound.mem_union a b x

theorem ids_singleton (id : Nat) : form.ids (form.singleton id) = {id} := by
  rw [singleton, sound.ids_add, sound.ids_empty, insert_empty_eq]

theorem ids_ofList (list : List Nat) : form.ids (form.ofList list) = list.toFinset := by
  have grown : ∀ set : σ, form.ids (list.foldl (fun set id => (form.add set id).1) set) =
      list.toFinset ∪ form.ids set := by
    induction list with
    | nil => simp
    | cons id rest ih =>
      intro set
      rw [List.foldl_cons, ih, sound.ids_add, List.toFinset_cons, Finset.insert_union,
        Finset.union_insert]
  rw [ofList, grown, sound.ids_empty, Finset.union_empty]

theorem ids_call {sets : Nat → σ} {known : Nat → Finset Nat}
    (right : ∀ name, form.ids (sets name) = known name) (call : SetCall) (name : Nat) :
    form.ids (form.call sets call name) = call.effect known name := by
  have updated : ∀ (target : Nat) (set : σ) (finset : Finset Nat), form.ids set = finset →
      form.ids (Function.update sets target set name) =
        Function.update known target finset name := by
    intro target set finset same
    by_cases here : name = target
    · subst here
      simpa using same
    · simpa [here] using right name
  cases call with
  | new target => exact updated target _ _ sound.ids_empty
  | singleton target id => exact updated target _ _ (sound.ids_singleton id)
  | ofList target list => exact updated target _ _ (sound.ids_ofList list)
  | copy target source => exact updated target _ _ (right source)
  | add target id =>
    refine updated target _ _ ?_
    rw [sound.ids_add, right]
  | absorb target source =>
    refine updated target _ _ ?_
    rw [absorb, sound.ids_union, right, right]

theorem ids_after (calls : List SetCall) (name : Nat) :
    form.ids (form.after calls name) = idsAfter calls name := by
  have run : ∀ (sets : Nat → σ) (known : Nat → Finset Nat),
      (∀ name, form.ids (sets name) = known name) →
      ∀ name, form.ids (calls.foldl form.call sets name) =
        calls.foldl SetCall.effect known name := by
    induction calls with
    | nil => exact fun sets known right => right
    | cons call rest ih =>
      intro sets known right
      exact ih _ _ (sound.ids_call right call)
  exact run _ _ (fun _ => sound.ids_empty) name

theorem size_eq_card (set : σ) : form.size set = (form.ids set).card := by
  have nodup : (form.members set).Nodup := (sound.ascending set).imp Nat.ne_of_lt
  rw [sound.size, ids, List.toFinset_card_of_nodup nodup]

theorem contains_iff (set : σ) (id : Nat) :
    form.contains set id = true ↔ id ∈ form.ids set := by
  rw [sound.contains, ids, List.mem_toFinset]

theorem equal_iff (a b : σ) : form.equal a b = true ↔ form.ids a = form.ids b := by
  rw [equal, beq_iff_eq, ids, ids,
    ascending_toFinset_inj (sound.ascending a) (sound.ascending b)]

/-- The growth is told from the sizes alone. -/
theorem grown_iff (a b : σ) : (form.absorb a b).2 = true ↔ ¬ form.ids b ⊆ form.ids a := by
  rw [absorb, bne_iff_ne, Ne, sound.size_eq_card, sound.size_eq_card, sound.ids_union,
    card_union_eq_iff]

theorem lawful : form.Lawful where
  after := sound.ids_after
  contains := sound.contains_iff
  ascending := sound.ascending
  size := sound.size_eq_card
  isEmpty set := by rw [sound.isEmpty, ids, List.toFinset_eq_empty_iff]
  add := sound.ids_add
  absent set id := by
    rw [sound.absent, ← sound.contains_iff]
    simp
  absorb := sound.ids_union
  grown := sound.grown_iff
  equal := sound.equal_iff
  feed {a b} same _ hasher state := by
    have members : form.members a = form.members b := beq_iff_eq.1 same
    rw [feed, feed, sound.size, sound.size, members]
  compare_lt _ _ := compareIds_eq_lt
  compare_eq a b := by rw [compare, compareIds_eq_eq, equal, beq_iff_eq]
  compare_swap _ _ := compareIds_swap _ _
  compare_trans := compareIds_trans

end Sound

theorem Lawful.members_eq {ρ : Type} {form : SetForm σ} {other : SetForm ρ} (lawful : form.Lawful)
    (lawful' : other.Lawful) (calls : List SetCall) (name : Nat) :
    form.members (form.after calls name) = other.members (other.after calls name) := by
  rw [← ascending_toFinset_inj (lawful.ascending _) (lawful'.ascending _)]
  exact (lawful.after calls name).trans (lawful'.after calls name).symm

end SetForm

end CanonicalLR
