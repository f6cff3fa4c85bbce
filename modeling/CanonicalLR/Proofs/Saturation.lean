import CanonicalLR.Fixpoint
import CanonicalLR.IdSet
import Mathlib.Data.Finset.Card
/-
Growing iterations over finitely many facts. A round that adds no fact changes nothing, so a bound
above the number of facts leaves the iteration at its fixed point.
-/
namespace CanonicalLR

theorem stabilize_fixed {α β : Type} [DecidableEq α] [DecidableEq β] {f : α → α} {P : α → Prop}
    (facts : α → Finset β) (all : Finset β) (keeps : ∀ a, P a → P (f a))
    (within : ∀ a, P a → facts a ⊆ all) (grows : ∀ a, P a → facts a ⊆ facts (f a))
    (same : ∀ a, P a → facts (f a) = facts a → f a = a) {bound : Nat} {a : α} (base : P a)
    (enough : all.card < bound + (facts a).card) :
    f (stabilize f bound a) = stabilize f bound a := by
  induction bound generalizing a with
  | zero =>
    have full := Finset.card_le_card (within a base)
    omega
  | succ bound ih =>
    simp only [stabilize]
    split
    · assumption
    · rename_i changed
      have added : facts a ⊂ facts (f a) :=
        (grows a base).ssubset_of_ne fun e => changed (same a base e.symm)
      have more := Finset.card_lt_card added
      exact ih (keeps a base) (by omega)

namespace IdSet

def toFinset (set : IdSet) : Finset Nat := set.ids.toFinset

@[simp] theorem mem_toFinset {set : IdSet} {id : Nat} : id ∈ set.toFinset ↔ id ∈ set := by
  simp [toFinset, mem_def]

theorem toFinset_injective {a b : IdSet} (h : a.toFinset = b.toFinset) : a = b := by
  apply ext
  intro id
  rw [← mem_toFinset, h, mem_toFinset]

end IdSet

end CanonicalLR
