/-
Iteration up to a fixed point.
-/
namespace CanonicalLR

/-- Applies `f` until a value no longer changes, at most `bound` times. -/
def stabilize {α : Type} [DecidableEq α] (f : α → α) : Nat → α → α
  | 0, a => a
  | bound + 1, a =>
    let b := f a
    if b = a then a else stabilize f bound b

theorem stabilize_induction {α : Type} [DecidableEq α] {f : α → α} {P : α → Prop}
    (step : ∀ a, P a → P (f a)) (bound : Nat) {a : α} (base : P a) : P (stabilize f bound a) := by
  induction bound generalizing a with
  | zero => exact base
  | succ bound ih =>
    simp only [stabilize]
    split
    · exact base
    · exact ih (step a base)

end CanonicalLR
