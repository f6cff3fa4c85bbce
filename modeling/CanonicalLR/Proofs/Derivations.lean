import CanonicalLR.Machine
import Mathlib.Logic.Relation
/-
Derivations, in three forms: trees over tokens, the words and production sequences of such trees,
and rewriting of symbol strings. Productions are known by their ids throughout, so a derivation
also says which of several equal-looking productions was used.
-/
namespace CanonicalLR

inductive Tree (τ υ : Type) where
  | leaf (token : Token τ υ)
  | node (production : Nat) (children : List (Tree τ υ))

abbrev Forest (τ υ : Type) := List (Tree τ υ)

section Trees

variable {τ υ : Type}

mutual

def Tree.leaves : Tree τ υ → List (Token τ υ)
  | .leaf token => [token]
  | .node _ children => Forest.leaves children

def Forest.leaves : List (Tree τ υ) → List (Token τ υ)
  | [] => []
  | tree :: rest => tree.leaves ++ Forest.leaves rest

end

mutual

def Tree.calls : Tree τ υ → List Nat
  | .leaf _ => []
  | .node production children => Forest.calls children ++ [production]

def Forest.calls : List (Tree τ υ) → List Nat
  | [] => []
  | tree :: rest => tree.calls ++ Forest.calls rest

end

mutual

/-- The value of a tree from the bottom up: that of its token at a leaf, and at an inner node that
of the production's handler on the values of the children. -/
def Tree.value? (handlers : Array (Handler υ)) : Tree τ υ → Option υ
  | .leaf token => some token.value
  | .node production children =>
    handlers[production]?.bind fun handler => (Forest.values? handlers children).map handler

def Forest.values? (handlers : Array (Handler υ)) : List (Tree τ υ) → Option (List υ)
  | [] => some []
  | tree :: rest =>
    (tree.value? handlers).bind fun value => (Forest.values? handlers rest).map (value :: ·)

end

theorem Forest.leaves_append (f g : Forest τ υ) :
    Forest.leaves (f ++ g) = Forest.leaves f ++ Forest.leaves g := by
  induction f with
  | nil => rfl
  | cons tree rest ih => simp [Forest.leaves, ih]

theorem Forest.calls_append (f g : Forest τ υ) :
    Forest.calls (f ++ g) = Forest.calls f ++ Forest.calls g := by
  induction f with
  | nil => rfl
  | cons tree rest ih => simp [Forest.calls, ih]

theorem Forest.values?_append (handlers : Array (Handler υ)) {f g : Forest τ υ} {us vs : List υ} :
    Forest.values? handlers f = some us → Forest.values? handlers g = some vs →
      Forest.values? handlers (f ++ g) = some (us ++ vs) := by
  induction f generalizing us with
  | nil =>
    intro hf hg
    obtain rfl : [] = us := Option.some.inj hf
    exact hg
  | cons tree rest ih =>
    intro hf hg
    simp only [Forest.values?, Option.bind_eq_some_iff, Option.map_eq_some_iff] at hf
    obtain ⟨value, hv, tail, ht, rfl⟩ := hf
    simp [Forest.values?, hv, ih ht hg]

theorem Forest.values?_split (handlers : Array (Handler υ)) {f g : Forest τ υ} {vs : List υ}
    (h : Forest.values? handlers (f ++ g) = some vs) :
    Forest.values? handlers f = some (vs.take f.length) ∧
      Forest.values? handlers g = some (vs.drop f.length) := by
  induction f generalizing vs with
  | nil => exact ⟨rfl, h⟩
  | cons tree rest ih =>
    simp only [List.cons_append, Forest.values?, Option.bind_eq_some_iff,
      Option.map_eq_some_iff] at h
    obtain ⟨value, hv, tail, ht, rfl⟩ := h
    obtain ⟨first, second⟩ := ih ht
    simp [Forest.values?, hv, first, second]

theorem Forest.values?_length (handlers : Array (Handler υ)) {f : Forest τ υ} {vs : List υ}
    (h : Forest.values? handlers f = some vs) : vs.length = f.length := by
  induction f generalizing vs with
  | nil =>
    obtain rfl : [] = vs := Option.some.inj h
    rfl
  | cons tree rest ih =>
    simp only [Forest.values?, Option.bind_eq_some_iff, Option.map_eq_some_iff] at h
    obtain ⟨value, hv, tail, ht, rfl⟩ := h
    simp [ih ht]

inductive Derivation (lexicon : Lexicon τ) (productions : Array Production) :
    List (Symbol Nat) → Forest τ υ → Prop where
  | nil : Derivation lexicon productions [] []
  | leaf {terminal : Nat} {token : Token τ υ} {rest : List (Symbol Nat)} {forest : Forest τ υ}
      (spelled : lexicon.get? terminal = some token.kind)
      (tail : Derivation lexicon productions rest forest) :
      Derivation lexicon productions (.terminal terminal :: rest) (.leaf token :: forest)
  | node {production lhs : Nat} {rhs rest : List (Symbol Nat)} {children forest : Forest τ υ}
      (rule : productions[production]? = some ⟨lhs, rhs⟩)
      (below : Derivation lexicon productions rhs children)
      (tail : Derivation lexicon productions rest forest) :
      Derivation lexicon productions (.nonterminal lhs :: rest)
        (.node production children :: forest)

namespace Derivation

variable {lexicon : Lexicon τ} {productions : Array Production}

theorem append {xs ys : List (Symbol Nat)} {f g : Forest τ υ}
    (hf : Derivation lexicon productions xs f) (hg : Derivation lexicon productions ys g) :
    Derivation lexicon productions (xs ++ ys) (f ++ g) := by
  induction hf with
  | nil => exact hg
  | leaf spelled tail ih => exact leaf spelled ih
  | node rule below tail _ ih => exact node rule below ih

theorem split {xs ys : List (Symbol Nat)} {forest : Forest τ υ}
    (h : Derivation lexicon productions (xs ++ ys) forest) :
    ∃ f g, forest = f ++ g ∧ Derivation lexicon productions xs f ∧
      Derivation lexicon productions ys g := by
  induction xs generalizing forest with
  | nil => exact ⟨[], forest, rfl, nil, h⟩
  | cons x xs ih =>
    cases h with
    | leaf spelled tail =>
      obtain ⟨f, g, rfl, hf, hg⟩ := ih tail
      exact ⟨_ :: f, g, rfl, leaf spelled hf, hg⟩
    | node rule below tail =>
      obtain ⟨f, g, rfl, hf, hg⟩ := ih tail
      exact ⟨_ :: f, g, rfl, node rule below hf, hg⟩

theorem length_eq {symbols : List (Symbol Nat)} {forest : Forest τ υ}
    (h : Derivation lexicon productions symbols forest) : forest.length = symbols.length := by
  induction h with
  | nil => rfl
  | leaf _ _ ih => simp [ih]
  | node _ _ _ _ ih => simp [ih]

/-- Leaves and post-order fix the forest: read backwards, the post-order names the production of
each node before its children are met. -/
theorem unique {symbols : List (Symbol Nat)} {f g : Forest τ υ}
    (hf : Derivation lexicon productions symbols f)
    (hg : Derivation lexicon productions symbols g) {cs ds : List Nat} {us vs : List (Token τ υ)}
    (calls : cs ++ Forest.calls f = ds ++ Forest.calls g)
    (leaves : us ++ Forest.leaves f = vs ++ Forest.leaves g) : f = g ∧ cs = ds ∧ us = vs := by
  induction hf generalizing g cs ds us vs with
  | nil =>
    cases hg
    exact ⟨rfl, List.append_cancel_right calls, List.append_cancel_right leaves⟩
  | leaf spelled tail ih =>
    cases hg with
    | leaf spelled' tail' =>
      simp only [Forest.calls, Tree.calls, List.nil_append] at calls
      simp only [Forest.leaves, Tree.leaves, ← List.append_assoc] at leaves
      obtain ⟨rfl, rfl, upTo⟩ := ih tail' calls leaves
      obtain ⟨rfl, last⟩ := List.append_inj' upTo rfl
      obtain rfl := List.singleton_inj.1 last
      exact ⟨rfl, rfl, rfl⟩
  | node rule below tail ihBelow ihTail =>
    cases hg with
    | node rule' below' tail' =>
      simp only [Forest.calls, Tree.calls, ← List.append_assoc] at calls
      simp only [Forest.leaves, Tree.leaves, ← List.append_assoc] at leaves
      obtain ⟨rfl, upTo, before⟩ := ihTail tail' calls leaves
      obtain ⟨inner, last⟩ := List.append_inj' upTo rfl
      obtain rfl := List.singleton_inj.1 last
      rw [rule] at rule'
      cases Option.some.inj rule'
      obtain ⟨rfl, rfl, rfl⟩ := ihBelow below' inner before
      exact ⟨rfl, rfl, rfl⟩

end Derivation

end Trees

def Carries (known : Symbol Nat → Prop) (first second : Array Production) : Prop :=
  ∀ ⦃p lhs : Nat⦄ ⦃rhs : List (Symbol Nat)⦄, known (.nonterminal lhs) →
    first[p]? = some ⟨lhs, rhs⟩ → second[p]? = some ⟨lhs, rhs⟩ ∧ ∀ symbol ∈ rhs, known symbol

theorem Derivation.carry {τ υ : Type} {lexicon : Lexicon τ} {known : Symbol Nat → Prop}
    {first second : Array Production} (carries : Carries known first second)
    {symbols : List (Symbol Nat)} {forest : Forest τ υ}
    (h : Derivation lexicon first symbols forest) (fits : ∀ symbol ∈ symbols, known symbol) :
    Derivation lexicon second symbols forest := by
  induction h with
  | nil => exact .nil
  | leaf spelled _ ih =>
    exact .leaf spelled (ih fun x member => fits x (List.mem_cons_of_mem _ member))
  | node rule _ _ ihBelow ihTail =>
    obtain ⟨same, inner⟩ := carries (fits _ List.mem_cons_self) rule
    exact .node same (ihBelow inner) (ihTail fun x member => fits x (List.mem_cons_of_mem _ member))

end CanonicalLR
