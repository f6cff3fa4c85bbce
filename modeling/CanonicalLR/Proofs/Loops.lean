import CanonicalLR.Proofs.Saturation
/-
Loops without a bound. A loop that adds facts until a round adds none ends by itself, with the
least value that is closed under what the rounds add. The order in which a round adds its facts
does not matter: a sweep in place, where each update sees what the ones before it have added, ends
with the same value as rounds in which all of them see the value as it was.
-/
namespace CanonicalLR

/-- A loop that makes rounds until it is halted: what it ends with, and after how many rounds. -/
inductive Ends {α : Type} (halted : α → Prop) (round : α → α) : α → Nat → α → Prop where
  | halt {a : α} (now : halted a) : Ends halted round a 0 a
  | again {a last : α} {n : Nat} (onward : ¬ halted a)
      (later : Ends halted round (round a) n last) : Ends halted round a (n + 1) last

def Rests {α : Type} (round : α → α) : α → Nat → α → Prop :=
  Ends (fun a => round a = a) round

theorem ends_of_halted {α : Type} (halted : α → Prop) (round : α → α) (loop : Nat → α → α)
    (zero : ∀ a, loop 0 a = a) (stop : ∀ bound a, halted a → loop (bound + 1) a = a)
    (go : ∀ bound a, ¬ halted a → loop (bound + 1) a = loop bound (round a)) {bound : Nat} {a : α}
    (done : halted (loop bound a)) : ∃ n, n ≤ bound ∧ Ends halted round a n (loop bound a) := by
  induction bound generalizing a with
  | zero =>
    rw [zero] at done ⊢
    exact ⟨0, Nat.le_refl 0, .halt done⟩
  | succ bound ih =>
    by_cases now : halted a
    · rw [stop bound a now]
      exact ⟨0, Nat.zero_le _, .halt now⟩
    · rw [go bound a now] at done ⊢
      obtain ⟨n, few, ends⟩ := ih done
      exact ⟨n + 1, Nat.succ_le_succ few, .again now ends⟩

theorem Ends.alongside {α β : Type} {halted : α → Prop} {halted' : β → Prop} {round : α → α}
    {round' : β → β} {R : α → β → Prop} (halts : ∀ a b, R a b → (halted a ↔ halted' b))
    (keeps : ∀ a b, R a b → R (round a) (round' b)) {a last : α} {n : Nat}
    (ends : Ends halted round a n last) {b : β} (related : R a b) :
    ∃ last', Ends halted' round' b n last' ∧ R last last' := by
  induction ends generalizing b with
  | halt now => exact ⟨b, .halt ((halts _ _ related).1 now), related⟩
  | again onward _ ih =>
    obtain ⟨last', ends, still⟩ := ih (keeps _ _ related)
    exact ⟨last', .again (fun now => onward ((halts _ _ related).2 now)) ends, still⟩

def RestsWithin {α : Type} (round : α → α) (bound : Nat) (a last : α) : Prop :=
  ∃ n, n ≤ bound ∧ Rests round a n last

theorem restsWithin_of_fixed {α : Type} [DecidableEq α] {f : α → α} {bound : Nat} {a : α}
    (fixed : f (stabilize f bound a) = stabilize f bound a) :
    RestsWithin f bound a (stabilize f bound a) := by
  apply ends_of_halted (fun a => f a = a) f (stabilize f) (fun _ => rfl)
  · intro bound a still
    simp only [stabilize, still, ↓reduceIte]
  · intro bound a changed
    simp only [stabilize, changed, ↓reduceIte]
  · exact fixed

/-- A round that adds facts, and only facts that no closed value lacks; it adds some as long as
the value is not closed. -/
structure Saturates {α β : Type} (holds : α → β → Prop) (valid closed : α → Prop)
    (round : α → α) : Prop where
  keeps {a : α} : valid a → valid (round a)
  grows {a : α} {x : β} : valid a → holds a x → holds (round a) x
  within {a b : α} : valid a → closed b → (∀ x, holds a x → holds b x) →
    ∀ x, holds (round a) x → holds b x
  closed {a : α} : valid a → round a = a → closed a

namespace Saturates

variable {α β : Type} [DecidableEq α] {holds : α → β → Prop} {valid closed : α → Prop}
  {f g : α → α}

theorem stabilize_between (h : Saturates holds valid closed f) {a : α} (base : valid a)
    (bound : Nat) :
    valid (stabilize f bound a) ∧ (∀ x, holds a x → holds (stabilize f bound a) x) ∧
      ∀ b, closed b → (∀ x, holds a x → holds b x) →
        ∀ x, holds (stabilize f bound a) x → holds b x := by
  apply stabilize_induction (P := fun c => valid c ∧ (∀ x, holds a x → holds c x) ∧
    ∀ b, closed b → (∀ x, holds a x → holds b x) → ∀ x, holds c x → holds b x)
  · intro c ⟨ok, above, least⟩
    refine ⟨h.keeps ok, ?_, ?_⟩
    · intro x member
      exact h.grows ok (above x member)
    · intro b full below
      exact h.within ok full (least b full below)
  · exact ⟨base, fun _ member => member, fun _ _ below => below⟩

theorem stabilize_eq (hf : Saturates holds valid closed f) (hg : Saturates holds valid closed g)
    (ext : ∀ a b, valid a → valid b → (∀ x, holds a x ↔ holds b x) → a = b) {a : α}
    (base : valid a) {m n : Nat} (rest : f (stabilize f m a) = stabilize f m a)
    (rest' : g (stabilize g n a) = stabilize g n a) : stabilize f m a = stabilize g n a := by
  obtain ⟨ok, above, least⟩ := hf.stabilize_between base m
  obtain ⟨ok', above', least'⟩ := hg.stabilize_between base n
  apply ext _ _ ok ok'
  intro x
  constructor
  · exact least _ (hg.closed ok' rest') above' x
  · exact least' _ (hf.closed ok rest) above x

/-- Where some rounds come to rest, others that saturate come to rest as well, as soon as they
have had a round for each fact. -/
theorem restsWithin (hf : Saturates holds valid closed f) (hg : Saturates holds valid closed g)
    (ext : ∀ a b, valid a → valid b → (∀ x, holds a x ↔ holds b x) → a = b) {a : α}
    (base : valid a) {n : Nat} (rest : g (stabilize g n a) = stabilize g n a) [DecidableEq β]
    (facts : α → Finset β)
    (counted : ∀ c, (∀ x, holds c x → holds (stabilize g n a) x) → ∀ x, x ∈ facts c ↔ holds c x)
    {bound : Nat} (enough : (facts (stabilize g n a)).card < bound) :
    RestsWithin f bound a (stabilize g n a) := by
  obtain ⟨ok, above, least⟩ := hg.stabilize_between base n
  have full := hg.closed ok rest
  have still : f (stabilize f bound a) = stabilize f bound a := by
    apply stabilize_fixed
      (P := fun c => valid c ∧ ∀ x, holds c x → holds (stabilize g n a) x)
      facts (facts (stabilize g n a))
    · intro c ⟨fine, below⟩
      exact ⟨hf.keeps fine, hf.within fine full below⟩
    · intro c ⟨fine, below⟩ x member
      exact (counted _ (fun _ h => h) x).2 (below x ((counted c below x).1 member))
    · intro c ⟨fine, below⟩ x member
      have old := (counted c below x).1 member
      exact (counted _ (hf.within fine full below) x).2 (hf.grows fine old)
    · intro c ⟨fine, below⟩ same
      apply ext _ _ (hf.keeps fine) fine
      intro x
      rw [← counted _ (hf.within fine full below) x, same, counted c below x]
    · exact ⟨base, above⟩
    · omega
  have reached := hf.stabilize_eq hg ext base still rest
  rw [← reached]
  exact restsWithin_of_fixed still

end Saturates

structure Additive {α β γ : Type} (holds : α → β → Prop) (valid : α → Prop)
    (adds : γ → α → β → Prop) (updates : List γ) (update : α → γ → α) : Prop where
  mono {u : γ} {a b : α} {x : β} : (∀ x, holds a x → holds b x) → adds u a x → adds u b x
  updated {u : γ} {a : α} {x : β} : u ∈ updates → valid a →
    (holds (update a u) x ↔ holds a x ∨ adds u a x)
  keeps {u : γ} {a : α} : valid a → valid (update a u)
  ext {a b : α} : valid a → valid b → (∀ x, holds a x ↔ holds b x) → a = b

namespace Additive

variable {α β γ : Type} {holds : α → β → Prop} {valid : α → Prop} {adds : γ → α → β → Prop}
  {updates part : List γ} {update : α → γ → α} {a b : α}

theorem sweep_keeps (h : Additive holds valid adds updates update) (part : List γ)
    (base : valid a) : valid (part.foldl update a) := by
  induction part generalizing a with
  | nil => exact base
  | cons u rest ih => exact ih (h.keeps base)

theorem sweep_grows (h : Additive holds valid adds updates update) (known : part ⊆ updates)
    (base : valid a) {x : β} (old : holds a x) : holds (part.foldl update a) x := by
  induction part generalizing a with
  | nil => exact old
  | cons u rest ih =>
    obtain ⟨first, others⟩ := List.cons_subset.1 known
    exact ih others (h.keeps base) ((h.updated first base).2 (Or.inl old))

theorem sweep_within (h : Additive holds valid adds updates update) (known : part ⊆ updates)
    (base : valid a) (closed : ∀ u ∈ updates, ∀ x, adds u b x → holds b x)
    (below : ∀ x, holds a x → holds b x) : ∀ x, holds (part.foldl update a) x → holds b x := by
  induction part generalizing a with
  | nil => exact below
  | cons u rest ih =>
    obtain ⟨first, others⟩ := List.cons_subset.1 known
    apply ih others (h.keeps base)
    intro x member
    rcases (h.updated first base).1 member with old | added
    · exact below x old
    · exact closed u first x (h.mono below added)

theorem closed_of_sweep (h : Additive holds valid adds updates update) (known : part ⊆ updates)
    (base : valid a) (still : ∀ x, holds (part.foldl update a) x → holds a x) :
    ∀ u ∈ part, ∀ x, adds u a x → holds a x := by
  induction part with
  | nil => simp
  | cons u rest ih =>
    obtain ⟨first, others⟩ := List.cons_subset.1 known
    have added : ∀ x, holds (update a u) x → holds a x := by
      intro x member
      exact still x (h.sweep_grows others (h.keeps base) member)
    have same : update a u = a := by
      apply h.ext (h.keeps base) base
      intro x
      exact ⟨added x, fun old => (h.updated first base).2 (Or.inl old)⟩
    rw [List.foldl_cons, same] at still
    intro v member x new
    rcases List.mem_cons.1 member with here | later
    · rw [here] at new
      exact added x ((h.updated first base).2 (Or.inr new))
    · exact ih others still v later x new

theorem sweep_saturates (h : Additive holds valid adds updates update) :
    Saturates holds valid (fun a => ∀ u ∈ updates, ∀ x, adds u a x → holds a x)
      (updates.foldl update) := by
  constructor
  · exact h.sweep_keeps updates
  · exact fun base old => h.sweep_grows (List.Subset.refl _) base old
  · exact h.sweep_within (List.Subset.refl _)
  · intro a base still
    exact h.closed_of_sweep (List.Subset.refl _) base (fun x member => by rwa [still] at member)

theorem round_saturates (h : Additive holds valid adds updates update) (round : α → α)
    (keeps : ∀ a, valid a → valid (round a))
    (rounded : ∀ a x, valid a → (holds (round a) x ↔ holds a x ∨ ∃ u ∈ updates, adds u a x)) :
    Saturates holds valid (fun a => ∀ u ∈ updates, ∀ x, adds u a x → holds a x) round := by
  constructor
  · exact fun base => keeps _ base
  · intro a x base old
    exact (rounded a x base).2 (Or.inl old)
  · intro a b base closed below x member
    rcases (rounded a x base).1 member with old | ⟨u, known, added⟩
    · exact below x old
    · exact closed u known x (h.mono below added)
  · intro a base still u known x added
    have fact := (rounded a x base).2 (Or.inr ⟨u, known, added⟩)
    rwa [still] at fact

/-- Where rounds that see one value come to rest, the sweeps in place come to rest as well. -/
theorem sweep_restsWithin [DecidableEq α] [DecidableEq β]
    (h : Additive holds valid adds updates update) {round : α → α}
    (keeps : ∀ a, valid a → valid (round a))
    (rounded : ∀ a x, valid a → (holds (round a) x ↔ holds a x ∨ ∃ u ∈ updates, adds u a x))
    (base : valid a) {n : Nat} (rest : round (stabilize round n a) = stabilize round n a)
    (facts : α → Finset β)
    (counted : ∀ c, (∀ x, holds c x → holds (stabilize round n a) x) →
      ∀ x, x ∈ facts c ↔ holds c x)
    {bound : Nat} (enough : (facts (stabilize round n a)).card < bound) :
    RestsWithin (updates.foldl update) bound a (stabilize round n a) :=
  h.sweep_saturates.restsWithin (h.round_saturates round keeps rounded) (fun _ _ => h.ext) base
    rest facts counted enough

end Additive

end CanonicalLR
