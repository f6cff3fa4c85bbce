import CanonicalLR.Fingerprint
/-
Grammar symbols. A terminal is whatever the grammar's tokens are made of, or its id once it has
been interned; a non-terminal is known by its index.
-/
namespace CanonicalLR

inductive Symbol (τ : Type) where
  | terminal : τ → Symbol τ
  | nonterminal : Nat → Symbol τ
  deriving DecidableEq, Repr

namespace Symbol

variable {τ : Type}

def isTerminal : Symbol τ → Bool
  | terminal _ => true
  | nonterminal _ => false

def terminal? : Symbol τ → Option τ
  | terminal t => some t
  | nonterminal _ => none

def nonterminal? : Symbol τ → Option Nat
  | terminal _ => none
  | nonterminal n => some n

def Before [LT τ] : Symbol τ → Symbol τ → Prop
  | terminal s, terminal t => s < t
  | terminal _, nonterminal _ => True
  | nonterminal _, terminal _ => False
  | nonterminal m, nonterminal n => m < n

instance [LT τ] : LT (Symbol τ) := ⟨Before⟩

instance [LT τ] [DecidableLT τ] : DecidableLT (Symbol τ)
  | terminal s, terminal t => inferInstanceAs (Decidable (s < t))
  | terminal _, nonterminal _ => isTrue trivial
  | nonterminal _, terminal _ => isFalse id
  | nonterminal m, nonterminal n => inferInstanceAs (Decidable (m < n))

theorem lt_trans {x y z : Symbol Nat} (h : x < y) (k : y < z) : x < z := by
  cases x with
  | terminal s =>
    cases z with
    | terminal u =>
      cases y with
      | terminal t => exact Nat.lt_trans h k
      | nonterminal n => exact k.elim
    | nonterminal o => trivial
  | nonterminal m =>
    cases y with
    | terminal t => exact h.elim
    | nonterminal n =>
      cases z with
      | terminal u => exact k.elim
      | nonterminal o => exact Nat.lt_trans h k

theorem lt_irrefl {x : Symbol Nat} : ¬ x < x := by
  cases x <;> exact Nat.lt_irrefl _

theorem lt_connected {x y : Symbol Nat} (h : ¬ x < y) (ne : x ≠ y) : y < x := by
  cases x with
  | terminal s =>
    cases y with
    | terminal t => exact Nat.lt_of_le_of_ne (Nat.le_of_not_lt h) fun e => ne (e ▸ rfl)
    | nonterminal n => exact absurd trivial h
  | nonterminal m =>
    cases y with
    | terminal t => trivial
    | nonterminal n => exact Nat.lt_of_le_of_ne (Nat.le_of_not_lt h) fun e => ne (e ▸ rfl)

end Symbol

/-- The positions of a list of symbols in the order of the symbols, equal ones kept in place. -/
def sortedPositions {τ : Type} [LT τ] [DecidableLT τ] (symbols : List (Symbol τ)) : List Nat :=
  (symbols.zipIdx.mergeSort fun x y => !decide (y.1 < x.1)).map fun entry => entry.2

end CanonicalLR
