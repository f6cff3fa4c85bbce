/-
How independent pieces of work are carried out: one after the other, or side by side by a pool of
workers. The host may be unable to start a pool; one that runs gives the results in the order of
the pieces.
-/
namespace CanonicalLR

/-- A pool that has been started. Whichever worker is done first, the results come in the order of
the pieces. -/
structure Pool where
  map {α β : Type} (f : α → β) (pieces : List α) : List β
  ordered {α β : Type} (f : α → β) (pieces : List α) : map f pieces = pieces.map f

/-- What happens when a pool is to be started, for a number of workers or for as many as the host
sees fit: there is a pool, or a chain of reasons why there is none, the nearest first. -/
abbrev Host := Option Nat → Except (List String) Pool

inductive Construction where
  | sequential
  | parallel (pool : Pool)

def Construction.map {α β : Type} (construction : Construction) (f : α → β) (pieces : List α) :
    List β :=
  match construction with
  | sequential => pieces.map f
  | parallel pool => pool.map f pieces

theorem Construction.map_eq {α β : Type} (construction : Construction) (f : α → β)
    (pieces : List α) : construction.map f pieces = pieces.map f := by
  cases construction with
  | sequential => rfl
  | parallel pool => exact pool.ordered f pieces

inductive Strategy where
  | sequential
  | parallel (workers : Option Nat)
  deriving DecidableEq, Repr

namespace Strategy

def launch (host : Host) : Strategy → Except (List String) Construction
  | sequential => .ok .sequential
  | parallel workers => (host workers).map .parallel

def Starts (host : Host) (strategy : Strategy) : Prop :=
  ∃ construction, strategy.launch host = .ok construction

theorem sequential_starts (host : Host) : sequential.Starts host := ⟨.sequential, rfl⟩

theorem Starts.launch_ne {host : Host} {strategy : Strategy} (starts : strategy.Starts host)
    (reasons : List String) : strategy.launch host ≠ .error reasons := by
  obtain ⟨construction, launched⟩ := starts
  simp [launched]

theorem starts_or_fails (host : Host) (strategy : Strategy) :
    strategy.Starts host ∨ ∃ reasons, strategy.launch host = .error reasons := by
  cases launched : strategy.launch host with
  | ok construction => exact Or.inl ⟨construction, launched⟩
  | error reasons => exact Or.inr ⟨reasons, rfl⟩

end Strategy

def shares {α : Type} (size : Nat) : Nat → List α → List (List α)
  | 0, pieces => [pieces]
  | count + 1, pieces => pieces.take size :: shares size count (pieces.drop size)

theorem shares_flatten {α : Type} (size count : Nat) (pieces : List α) :
    (shares size count pieces).flatten = pieces := by
  induction count generalizing pieces with
  | zero => simp [shares]
  | succ count ih => simp [shares, ih]

def mapShares {α β : Type} (f : α → β) (parts : List (List α)) : List β :=
  ((parts.map fun part => Task.spawn fun _ => part.map f).map Task.get).flatten

theorem mapShares_eq {α β : Type} (f : α → β) (parts : List (List α)) :
    mapShares f parts = parts.flatten.map f := by
  simp only [mapShares, List.map_map]
  rw [show (Task.get ∘ fun part : List α => Task.spawn fun _ => part.map f) = List.map f from rfl,
    ← List.map_flatten]

/-- The number of shares for a number of pieces: one for each worker, but no more than there are
pieces; without a number of workers, one for each piece. -/
def shareCount (pieces : Nat) : Option Nat → Nat
  | some (workers + 1) => min (workers + 1) pieces
  | _ => pieces

def Pool.tasks (workers : Option Nat) : Pool where
  map f pieces :=
    let count := shareCount pieces.length workers
    mapShares f (shares ((pieces.length + count - 1) / count) count pieces)
  ordered f pieces := by rw [mapShares_eq, shares_flatten]

def tasks : Host := fun workers => .ok (Pool.tasks workers)

end CanonicalLR
