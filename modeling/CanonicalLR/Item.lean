import CanonicalLR.Fingerprint
import CanonicalLR.Symbol
/-
Productions and items. An item is a production with a dot; the dot counts the symbols of the
right side that have been matched and may lie anywhere, also past the end.
-/
namespace CanonicalLR

structure Production where
  lhs : Nat
  rhs : List (Symbol Nat)
  deriving DecidableEq, Repr

structure Item where
  production : Nat
  dot : Nat
  deriving DecidableEq, Repr

namespace Item

def advance (item : Item) : Item := { item with dot := item.dot + 1 }

/-- The dot in a word of 32 bits. No right side is long enough for the two to differ, but a dot that
lies past the end may be the last one before the word starts again at zero. -/
def dotWord (item : Item) : UInt32 := item.dot.toUInt32

def Before (a b : Item) : Prop :=
  a.production < b.production ∨ a.production = b.production ∧ a.dot < b.dot

instance : LT Item := ⟨Before⟩

instance : DecidableLT Item := fun a b =>
  inferInstanceAs (Decidable
    (a.production < b.production ∨ a.production = b.production ∧ a.dot < b.dot))

instance : Fingerprint Item :=
  ⟨fun item => stir (fingerprint item.production) (fingerprint item.dot)⟩

theorem lt_iff {a b : Item} :
    a < b ↔ a.production < b.production ∨ a.production = b.production ∧ a.dot < b.dot := Iff.rfl

theorem lt_trans {a b c : Item} (h : a < b) (k : b < c) : a < c := by
  rw [lt_iff] at *
  omega

theorem lt_irrefl {a : Item} : ¬ a < a := by
  rw [lt_iff]
  omega

theorem lt_connected {a b : Item} (h : ¬ a < b) (ne : a ≠ b) : b < a := by
  obtain ⟨p, i⟩ := a
  obtain ⟨q, j⟩ := b
  simp only [lt_iff, ne_eq, Item.mk.injEq] at *
  omega

end Item

end CanonicalLR
