import CanonicalLR.Proofs.Canonicity
import Mathlib.Order.Bounds.Basic
/-
The closure of an item map is the least closed map above it. Maps are compared item by item, so a
map is above another if it has all of its items, each with at least the same lookaheads; the map to
start from may hold any items whatsoever, with the dot past the end or with no lookahead at all.
-/
namespace CanonicalLR

namespace ItemMap

def Below (a b : ItemMap) : Prop :=
  ∀ ⦃item : Item⦄ ⦃set : TerminalSet⦄, a.get? item = some set →
    ∃ larger, b.get? item = some larger ∧ ∀ t ∈ set, t ∈ larger

theorem below_iff_holds {a b : ItemMap} :
    a.Below b ↔ ∀ item look, a.Holds item look → b.Holds item look := by
  constructor
  · intro below item look ⟨set, found, shown⟩
    obtain ⟨larger, there, more⟩ := below found
    refine ⟨larger, there, ?_⟩
    cases look with
    | none => trivial
    | some t => exact more t shown
  · intro facts item set found
    obtain ⟨larger, there, _⟩ := facts item none ⟨set, found, trivial⟩
    refine ⟨larger, there, ?_⟩
    intro t member
    obtain ⟨other, again, shown⟩ := facts item (some t) ⟨set, found, member⟩
    rw [there] at again
    exact Option.some.inj again ▸ shown

instance : PartialOrder ItemMap where
  le := Below
  le_refl a := below_iff_holds.2 fun _ _ held => held
  le_trans a b c first second := by
    rw [below_iff_holds] at first second ⊢
    intro item look held
    exact second item look (first item look held)
  le_antisymm a b first second := by
    rw [below_iff_holds] at first second
    exact ext_holds fun item look => ⟨first item look, second item look⟩

theorem le_iff_holds {a b : ItemMap} :
    a ≤ b ↔ ∀ item look, a.Holds item look → b.Holds item look :=
  below_iff_holds

end ItemMap

namespace Rules

/-- Wherever a non-terminal stands behind a dot, all of its productions are predicted: with what may
begin the rest of the right side and, if the rest may vanish, with the lookaheads of the item. -/
def Closed (rules : Rules) (sets : FirstFollow) (map : ItemMap) : Prop :=
  ∀ ⦃p lhs n q : Nat⦄ ⦃before behind rhs : List (Symbol Nat)⦄ ⦃set : TerminalSet⦄,
    rules.productions[p]? = some ⟨lhs, before ++ .nonterminal n :: behind⟩ →
    map.get? ⟨p, before.length⟩ = some set → rules.productions[q]? = some ⟨n, rhs⟩ →
    ∃ predicted, map.get? ⟨q, 0⟩ = some predicted ∧
      (∀ t ∈ (sets.firstOfSequence behind).1, t ∈ predicted) ∧
      ((sets.firstOfSequence behind).2 = true → ∀ t ∈ set, t ∈ predicted)

variable {rules : Rules}

theorem next_of_rule {p lhs : Nat} {before behind : List (Symbol Nat)} {symbol : Symbol Nat}
    (rule : rules.productions[p]? = some ⟨lhs, before ++ symbol :: behind⟩) :
    rules.next ⟨p, before.length⟩ = some symbol ∧ rules.after ⟨p, before.length⟩ = behind := by
  simp [next, after, rhs_eq rule]

theorem rule_split {item : Item} {symbol : Symbol Nat} (next : rules.next item = some symbol) :
    ∃ lhs before, rules.productions[item.production]? =
        some ⟨lhs, before ++ symbol :: rules.after item⟩ ∧
      item = ⟨item.production, before.length⟩ := by
  obtain ⟨lhs, rule⟩ := rule_of_next next
  refine ⟨lhs, (rules.rhs item.production).take item.dot, ?_, ?_⟩
  · rw [take_append_after next]
    exact rule
  · have inside := (List.getElem?_eq_some_iff.1 next).1
    rw [List.length_take, Nat.min_eq_left (Nat.le_of_lt inside)]

theorem Closed.hands {map : ItemMap} (closed : rules.Closed (FirstFollow.ofRules rules) map)
    (proper : rules.Proper) {item : Item} {look handed : Option Nat} {n p : Nat}
    (held : map.Holds item look) (next : rules.next item = some (.nonterminal n))
    (member : p ∈ rules.productionsOf n)
    (hands : Hands rules.productions (rules.after item) look handed) : map.Holds ⟨p, 0⟩ handed := by
  obtain ⟨set, found, shown⟩ := held
  obtain ⟨lhs, before, rule, split⟩ := rule_split next
  obtain ⟨rhs, predicted⟩ := proper.filed.1 member
  rw [split] at found
  obtain ⟨grown, there, begins, inherits⟩ := closed rule found predicted
  refine ⟨grown, there, ?_⟩
  cases hands with
  | present => trivial
  | begins starts => exact begins _ ((mem_firstOfSequence proper).2 starts)
  | inherits gone => exact inherits ((firstOfSequence_vanishes proper).2 gone) _ shown

theorem closed_of_hands (proper : rules.Proper) {map : ItemMap}
    (hands : ∀ {item look handed n p}, map.Holds item look →
      rules.next item = some (.nonterminal n) → p ∈ rules.productionsOf n →
      Hands rules.productions (rules.after item) look handed → map.Holds ⟨p, 0⟩ handed) :
    rules.Closed (FirstFollow.ofRules rules) map := by
  intro p lhs n q before behind rhs set rule found predicted
  obtain ⟨next, after⟩ := next_of_rule rule
  have member : q ∈ rules.productionsOf n := proper.filed.2 ⟨rhs, predicted⟩
  have handed : ∀ look given, set.Shows look → Hands rules.productions behind look given →
      map.Holds ⟨q, 0⟩ given := by
    intro look given shown passes
    exact hands ⟨set, found, shown⟩ next member (after ▸ passes)
  obtain ⟨grown, there, _⟩ := handed none none trivial .present
  have grows : ∀ t, map.Holds ⟨q, 0⟩ (some t) → t ∈ grown := by
    intro t ⟨other, again, shown⟩
    rw [there] at again
    exact Option.some.inj again ▸ shown
  refine ⟨grown, there, ?_, ?_⟩
  · intro t begins
    exact grows t (handed none (some t) trivial (.begins ((mem_firstOfSequence proper).1 begins)))
  · intro vanishes t shown
    have gone := (firstOfSequence_vanishes proper).1 vanishes
    exact grows t (handed (some t) (some t) shown (.inherits gone))

theorem le_closure (proper : rules.Proper) (map : ItemMap) :
    map ≤ rules.closure (FirstFollow.ofRules rules) map := by
  rw [ItemMap.le_iff_holds]
  intro item look held
  exact (closure_holds proper).2 (.held held)

theorem closure_closed (proper : rules.Proper) (map : ItemMap) :
    rules.Closed (FirstFollow.ofRules rules) (rules.closure (FirstFollow.ofRules rules) map) := by
  apply closed_of_hands proper
  intro item look handed n p held next member hands
  rw [closure_holds proper] at held ⊢
  exact .predict held next member hands

theorem closure_le (proper : rules.Proper) {map grown : ItemMap} (above : map ≤ grown)
    (closed : rules.Closed (FirstFollow.ofRules rules) grown) :
    rules.closure (FirstFollow.ofRules rules) map ≤ grown := by
  rw [ItemMap.le_iff_holds] at above ⊢
  intro item look held
  rw [closure_holds proper] at held
  induction held with
  | held old => exact above _ _ old
  | predict _ next member hands ih => exact closed.hands proper ih next member hands

theorem closure_isLeast (proper : rules.Proper) (map : ItemMap) :
    IsLeast {grown | map ≤ grown ∧ rules.Closed (FirstFollow.ofRules rules) grown}
      (rules.closure (FirstFollow.ofRules rules) map) := by
  constructor
  · exact ⟨le_closure proper map, closure_closed proper map⟩
  · intro grown ⟨above, closed⟩
    exact closure_le proper above closed

theorem closure_monotone (proper : rules.Proper) :
    Monotone (rules.closure (FirstFollow.ofRules rules)) := by
  intro a b below
  exact closure_le proper (below.trans (le_closure proper b)) (closure_closed proper b)

end Rules

variable {τ υ : Type} [DecidableEq τ] [Fingerprint τ] [Spelling τ] {eof : τ}
  {calls : List (Registration τ υ)} {frozen : FrozenGrammar τ υ}

/-- The goal awaiting nothing, beside an item with the dot past the end and an unknown lookahead. -/
def oddMap (rules : Rules) : ItemMap :=
  (ItemMap.empty.put ⟨rules.goal, 0⟩ ∅).put ⟨0, 7⟩ (IdSet.singleton 9)

/-- The closure of a map is the least closed map above it; so closing a map makes it no smaller,
keeps the order of maps, and has no effect the second time. -/
theorem closure_least_closed (froze : (Grammar.assemble eof calls).freeze = .ok frozen) :
    (∀ map, frozen.rules.knows map.items = true →
      frozen.rules.closure? (FirstFollow.ofRules frozen.rules) map =
        some (frozen.rules.closure (FirstFollow.ofRules frozen.rules) map)) ∧
    (∀ map, IsLeast
      {grown | map ≤ grown ∧ frozen.rules.Closed (FirstFollow.ofRules frozen.rules) grown}
      (frozen.rules.closure (FirstFollow.ofRules frozen.rules) map)) ∧
    (∀ map, map ≤ frozen.rules.closure (FirstFollow.ofRules frozen.rules) map) ∧
    Monotone (frozen.rules.closure (FirstFollow.ofRules frozen.rules)) ∧
    ∀ map, frozen.rules.closure (FirstFollow.ofRules frozen.rules)
        (frozen.rules.closure (FirstFollow.ofRules frozen.rules) map) =
      frozen.rules.closure (FirstFollow.ofRules frozen.rules) map := by
  obtain ⟨start, declared, rfl⟩ := Grammar.freeze_eq froze
  have proper := Grammar.rulesFrom_proper (Grammar.assemble_wellFormed eof calls) declared
  refine ⟨?_, Rules.closure_isLeast proper, Rules.le_closure proper,
    Rules.closure_monotone proper, Rules.closure_closure proper⟩
  intro map known
  simp only [Rules.closure?, known, ↓reduceIte]

theorem closure_least_closed_nested : ∃ frozen,
    (Grammar.assemble "$" nested).freeze = .ok frozen ∧
    frozen.rules.closure? (FirstFollow.ofRules frozen.rules) (oddMap frozen.rules) =
      some (frozen.rules.closure (FirstFollow.ofRules frozen.rules) (oddMap frozen.rules)) ∧
    (frozen.rules.closure (FirstFollow.ofRules frozen.rules) (oddMap frozen.rules)).items =
      [⟨0, 0⟩, ⟨0, 7⟩, ⟨1, 0⟩, ⟨2, 0⟩] ∧
    IsLeast {grown | oddMap frozen.rules ≤ grown ∧
        frozen.rules.Closed (FirstFollow.ofRules frozen.rules) grown}
      (frozen.rules.closure (FirstFollow.ofRules frozen.rules) (oddMap frozen.rules)) := by
  obtain ⟨frozen, froze, known, items⟩ : ∃ frozen,
      (Grammar.assemble "$" nested).freeze = .ok frozen ∧
      frozen.rules.knows (oddMap frozen.rules).items = true ∧
      (frozen.rules.closure (FirstFollow.ofRules frozen.rules) (oddMap frozen.rules)).items =
        [⟨0, 0⟩, ⟨0, 7⟩, ⟨1, 0⟩, ⟨2, 0⟩] :=
    exists_ok (by decide +kernel)
  obtain ⟨defined, least, _⟩ := closure_least_closed froze
  exact ⟨frozen, froze, defined _ known, items, least _⟩

end CanonicalLR
