import CanonicalLR.Proofs.Conflicts
import Mathlib.Data.List.Forall2
import Mathlib.Logic.Relator
/-
Rules that differ in their ids alone. Terminals, non-terminals and productions are paired one to
one, though not all of them need a partner; where the pairing is closed under the productions of
paired non-terminals, whatever is derived, begun or viable on one side has a partner that is so on
the other. In particular the rules collide together or not at all.
-/
namespace CanonicalLR

inductive Paired (kinds names : Nat → Nat → Prop) : Symbol Nat → Symbol Nat → Prop where
  | terminal {t u : Nat} (kind : kinds t u) : Paired kinds names (.terminal t) (.terminal u)
  | nonterminal {n m : Nat} (name : names n m) :
      Paired kinds names (.nonterminal n) (.nonterminal m)

def Item.Matches (pairs : Nat → Nat → Prop) (item item' : Item) : Prop :=
  pairs item.production item'.production ∧ item.dot = item'.dot

/-- Two sets of rules that agree up to their ids as far as the pairing goes. -/
structure Rules.Agrees (rules rules' : Rules) (kinds names pairs : Nat → Nat → Prop) : Prop where
  proper : rules.Proper
  proper' : rules'.Proper
  oneKind : Relator.BiUnique kinds
  oneName : Relator.BiUnique names
  onePair : Relator.BiUnique pairs
  eof : kinds rules.eof rules'.eof
  goal : pairs rules.goal rules'.goal
  rule {p p' : Nat} : pairs p p' → ∃ lhs rhs lhs' rhs',
    rules.productions[p]? = some ⟨lhs, rhs⟩ ∧ rules'.productions[p']? = some ⟨lhs', rhs'⟩ ∧
      names lhs lhs' ∧ List.Forall₂ (Paired kinds names) rhs rhs'
  forth {n n' p : Nat} : names n n' → p ∈ rules.productionsOf n → ∃ p', pairs p p'
  back {n n' p' : Nat} : names n n' → p' ∈ rules'.productionsOf n' → ∃ p, pairs p p'

variable {kinds names pairs : Nat → Nat → Prop}

theorem biUnique_flip {R : Nat → Nat → Prop} (h : Relator.BiUnique R) :
    Relator.BiUnique (flip R) :=
  ⟨fun _ _ _ first second => h.2 first second, fun _ _ _ first second => h.1 first second⟩

namespace Paired

theorem swap {x y : Symbol Nat} (h : Paired kinds names x y) :
    Paired (flip kinds) (flip names) y x := by
  cases h with
  | terminal kind => exact .terminal kind
  | nonterminal name => exact .nonterminal name

theorem swap_all {xs ys : List (Symbol Nat)} (h : List.Forall₂ (Paired kinds names) xs ys) :
    List.Forall₂ (Paired (flip kinds) (flip names)) ys xs :=
  (h.imp fun _ _ => swap).flip

theorem unique (oneKind : Relator.BiUnique kinds) (oneName : Relator.BiUnique names)
    {x y z : Symbol Nat} (first : Paired kinds names x y) (second : Paired kinds names x z) :
    y = z := by
  cases first with
  | terminal kind =>
    cases second with
    | terminal kind' => rw [oneKind.2 kind kind']
  | nonterminal name =>
    cases second with
    | nonterminal name' => rw [oneName.2 name name']

theorem unique_left (oneKind : Relator.BiUnique kinds) (oneName : Relator.BiUnique names)
    {x y z : Symbol Nat} (first : Paired kinds names x z) (second : Paired kinds names y z) :
    x = y :=
  unique (biUnique_flip oneKind) (biUnique_flip oneName) first.swap second.swap

end Paired

namespace Rules.Agrees

variable {rules rules' : Rules}

theorem swap (agrees : rules.Agrees rules' kinds names pairs) :
    rules'.Agrees rules (flip kinds) (flip names) (flip pairs) where
  proper := agrees.proper'
  proper' := agrees.proper
  oneKind := biUnique_flip agrees.oneKind
  oneName := biUnique_flip agrees.oneName
  onePair := biUnique_flip agrees.onePair
  eof := agrees.eof
  goal := agrees.goal
  rule h := by
    obtain ⟨lhs, rhs, lhs', rhs', rule, rule', left, right⟩ := agrees.rule h
    exact ⟨lhs', rhs', lhs, rhs, rule', rule, left, Paired.swap_all right⟩
  forth := agrees.back
  back := agrees.forth

theorem rhs (agrees : rules.Agrees rules' kinds names pairs) {p p' : Nat} (h : pairs p p') :
    List.Forall₂ (Paired kinds names) (rules.rhs p) (rules'.rhs p') := by
  obtain ⟨lhs, rhs, lhs', rhs', rule, rule', _, right⟩ := agrees.rule h
  rwa [rhs_eq rule, rhs_eq rule']

theorem descend (agrees : rules.Agrees rules' kinds names pairs) {n n' p : Nat}
    {rhs : List (Symbol Nat)} (name : names n n')
    (rule : rules.productions[p]? = some ⟨n, rhs⟩) :
    ∃ p' rhs', pairs p p' ∧ rules'.productions[p']? = some ⟨n', rhs'⟩ ∧
      List.Forall₂ (Paired kinds names) rhs rhs' := by
  obtain ⟨p', pair⟩ := agrees.forth name (agrees.proper.filed.2 ⟨rhs, rule⟩)
  obtain ⟨lhs, _, lhs', rhs', found, found', left, right⟩ := agrees.rule pair
  obtain ⟨sameLeft, sameRight⟩ := Production.mk.inj (Option.some.inj (rule.symm.trans found))
  rw [← sameLeft] at left
  rw [agrees.oneName.2 left name] at found'
  exact ⟨p', rhs', pair, found', sameRight ▸ right⟩

theorem next (agrees : rules.Agrees rules' kinds names pairs) {item item' : Item}
    (same : item.Matches pairs item') {symbol : Symbol Nat} (next : rules.next item = some symbol) :
    ∃ symbol', rules'.next item' = some symbol' ∧ Paired kinds names symbol symbol' := by
  have sides := agrees.rhs same.1
  obtain ⟨bound, found⟩ := List.getElem?_eq_some_iff.1 next
  have bound' : item'.dot < (rules'.rhs item'.production).length := by
    rw [← same.2, ← sides.length_eq]
    exact bound
  refine ⟨_, List.getElem?_eq_getElem bound', ?_⟩
  have related := sides.get bound (same.2 ▸ bound')
  simpa [← found, same.2] using related

theorem after (agrees : rules.Agrees rules' kinds names pairs) {item item' : Item}
    (same : item.Matches pairs item') :
    List.Forall₂ (Paired kinds names) (rules.after item) (rules'.after item') := by
  rw [Rules.after, Rules.after, same.2]
  exact List.forall₂_drop _ (agrees.rhs same.1)

theorem isComplete (agrees : rules.Agrees rules' kinds names pairs) {item item' : Item}
    (same : item.Matches pairs item') (complete : rules.isComplete item = true) :
    rules'.isComplete item' = true := by
  have length := (agrees.rhs same.1).length_eq
  simp only [Rules.isComplete, beq_iff_eq] at complete ⊢
  rw [← same.2, complete, length]

theorem generates (agrees : rules.Agrees rules' kinds names pairs)
    {symbols symbols' : List (Symbol Nat)} {word calls : List Nat}
    (h : Generates rules.productions symbols word calls)
    (same : List.Forall₂ (Paired kinds names) symbols symbols') :
    ∃ word' calls', Generates rules'.productions symbols' word' calls' ∧
      List.Forall₂ kinds word word' := by
  induction h generalizing symbols' with
  | nil =>
    cases same
    exact ⟨[], [], .nil, .nil⟩
  | terminal _ ih =>
    cases same with
    | cons first others =>
      cases first with
      | terminal kind =>
        obtain ⟨word', calls', made, spelled⟩ := ih others
        exact ⟨_, calls', .terminal made, .cons kind spelled⟩
  | nonterminal rule _ _ ihBelow ihTail =>
    cases same with
    | cons first others =>
      cases first with
      | nonterminal name =>
        obtain ⟨p', rhs', _, rule', right⟩ := agrees.descend name rule
        obtain ⟨first', calls', below, begun⟩ := ihBelow right
        obtain ⟨second', later', tail, ended⟩ := ihTail others
        exact ⟨_, _, .nonterminal rule' below tail, List.rel_append begun ended⟩

theorem vanishes (agrees : rules.Agrees rules' kinds names pairs)
    {symbols symbols' : List (Symbol Nat)} (h : Vanishes rules.productions symbols)
    (same : List.Forall₂ (Paired kinds names) symbols symbols') :
    Vanishes rules'.productions symbols' := by
  obtain ⟨calls, made⟩ := h
  obtain ⟨word', calls', made', spelled⟩ := agrees.generates made same
  cases spelled
  exact ⟨calls', made'⟩

theorem starts (agrees : rules.Agrees rules' kinds names pairs)
    {symbols symbols' : List (Symbol Nat)} {word : List Nat} {t : Nat}
    (h : Starts rules.productions symbols word t)
    (same : List.Forall₂ (Paired kinds names) symbols symbols') :
    ∃ word' t', Starts rules'.productions symbols' word' t' ∧ List.Forall₂ kinds word word' ∧
      kinds t t' := by
  induction h generalizing symbols' with
  | here =>
    cases same with
    | cons first others =>
      cases first with
      | terminal kind => exact ⟨[], _, .here, .nil, kind⟩
  | descend rule _ ih =>
    cases same with
    | cons first others =>
      cases first with
      | nonterminal name =>
        obtain ⟨p', rhs', _, rule', right⟩ := agrees.descend name rule
        obtain ⟨word', t', begins, spelled, kind⟩ := ih right
        exact ⟨word', t', .descend rule' begins, spelled, kind⟩
  | skip whole _ ih =>
    cases same with
    | cons first others =>
      obtain ⟨first', calls', made, begun⟩ := agrees.generates whole (.cons first .nil)
      obtain ⟨second', t', begins, ended, kind⟩ := ih others
      exact ⟨_, t', .skip made begins, List.rel_append begun ended, kind⟩

theorem hands (agrees : rules.Agrees rules' kinds names pairs)
    {behind behind' : List (Symbol Nat)} {look handed look' : Option Nat}
    (h : Hands rules.productions behind look handed)
    (same : List.Forall₂ (Paired kinds names) behind behind')
    (looks : Option.Rel kinds look look') :
    ∃ handed', Hands rules'.productions behind' look' handed' ∧
      Option.Rel kinds handed handed' := by
  cases h with
  | present =>
    cases looks
    exact ⟨none, .present, .none⟩
  | begins starts =>
    cases looks
    obtain ⟨word', t', begins, spelled, kind⟩ := agrees.starts starts same
    cases spelled
    exact ⟨some t', .begins begins, .some kind⟩
  | inherits gone =>
    cases looks with
    | some kind => exact ⟨_, .inherits (agrees.vanishes gone same), .some kind⟩

theorem viable (agrees : rules.Agrees rules' kinds names pairs)
    {stack stack' : List (Symbol Nat)} {item : Item} {look : Option Nat}
    (h : rules.Viable stack item look)
    (same : List.Forall₂ (Paired kinds names) stack stack') :
    ∃ item' look', rules'.Viable stack' item' look' ∧ item.Matches pairs item' ∧
      Option.Rel kinds look look' := by
  induction h generalizing stack' with
  | seed shown =>
    cases same
    rcases shown with rfl | rfl
    · exact ⟨_, none, .seed (Or.inl rfl), ⟨agrees.goal, rfl⟩, .none⟩
    · exact ⟨_, _, .seed (Or.inr rfl), ⟨agrees.goal, rfl⟩, .some agrees.eof⟩
  | advance _ next inside ih =>
    cases same with
    | @cons symbol symbol' below below' top others =>
      obtain ⟨item', look', source, ⟨pair, dot⟩, looks⟩ := ih others
      obtain ⟨found, next', related⟩ := agrees.next ⟨pair, dot⟩ next
      rw [related.unique agrees.oneKind agrees.oneName top] at next'
      have inside' : symbol' ≠ .terminal rules'.eof := by
        intro ends
        rw [ends] at top
        exact inside (top.unique_left agrees.oneKind agrees.oneName (.terminal agrees.eof))
      exact ⟨_, look', .advance source next' inside', ⟨pair, congrArg (· + 1) dot⟩, looks⟩
  | predict _ next member hands ih =>
    obtain ⟨item', look', source, matched, looks⟩ := ih same
    obtain ⟨found, next', related⟩ := agrees.next matched next
    cases related with
    | nonterminal name =>
      obtain ⟨rhs, rule⟩ := agrees.proper.filed.1 member
      obtain ⟨p', rhs', pair, rule', _⟩ := agrees.descend name rule
      obtain ⟨handed', hands', handed⟩ := agrees.hands hands (agrees.after matched) looks
      have member' := agrees.proper'.filed.2 ⟨rhs', rule'⟩
      exact ⟨⟨p', 0⟩, handed', .predict source next' member' hands', ⟨pair, rfl⟩, handed⟩

/-- Every stack with a viable item has a partner: its symbols stand in paired productions. -/
theorem stack (agrees : rules.Agrees rules' kinds names pairs) {stack : List (Symbol Nat)}
    {item : Item} {look : Option Nat} (h : rules.Viable stack item look) :
    ∃ stack', List.Forall₂ (Paired kinds names) stack stack' := by
  induction h with
  | seed => exact ⟨[], .nil⟩
  | advance source next _ ih =>
    obtain ⟨stack', same⟩ := ih
    obtain ⟨item', _, _, matched, _⟩ := agrees.viable source same
    obtain ⟨symbol', _, related⟩ := agrees.next matched next
    exact ⟨symbol' :: stack', .cons related same⟩
  | predict _ _ _ _ ih => exact ih

theorem waits (agrees : rules.Agrees rules' kinds names pairs) {stack stack' : List (Symbol Nat)}
    {item : Item} {look : Option Nat} {t : Nat} (h : rules.Viable stack item look)
    (next : rules.next item = some (.terminal t))
    (same : List.Forall₂ (Paired kinds names) stack stack') :
    ∃ item' t', rules'.Viable stack' item' none ∧ rules'.next item' = some (.terminal t') ∧
      kinds t t' := by
  obtain ⟨item', look', viable, matched, _⟩ := agrees.viable h same
  obtain ⟨symbol', next', related⟩ := agrees.next matched next
  cases related with
  | terminal kind => exact ⟨item', _, viable.present, next', kind⟩

theorem completes (agrees : rules.Agrees rules' kinds names pairs)
    {stack stack' : List (Symbol Nat)} {item : Item} {t : Nat}
    (h : rules.Viable stack item (some t)) (complete : rules.isComplete item = true)
    (same : List.Forall₂ (Paired kinds names) stack stack') :
    ∃ item' t', rules'.Viable stack' item' (some t') ∧ rules'.isComplete item' = true ∧
      pairs item.production item'.production ∧ kinds t t' := by
  obtain ⟨item', look', viable, matched, looks⟩ := agrees.viable h same
  cases looks with
  | some kind => exact ⟨item', _, viable, agrees.isComplete matched complete, matched.1, kind⟩

theorem collision (agrees : rules.Agrees rules' kinds names pairs) {stack : List (Symbol Nat)}
    (h : rules.Collision stack) : ∃ stack', rules'.Collision stack' := by
  cases h with
  | reduces first complete second also distinct =>
    obtain ⟨stack', same⟩ := agrees.stack first
    obtain ⟨item', t', first', complete', pair, kind⟩ := agrees.completes first complete same
    obtain ⟨other', u', second', also', pair', kind'⟩ := agrees.completes second also same
    rw [← agrees.oneKind.2 kind kind'] at second'
    refine ⟨stack', .reduces first' complete' second' also' ?_⟩
    intro productions
    rw [← productions] at pair'
    exact distinct (agrees.onePair.1 pair pair')
  | shifts first complete second next =>
    obtain ⟨stack', same⟩ := agrees.stack first
    obtain ⟨item', t', first', complete', _, kind⟩ := agrees.completes first complete same
    obtain ⟨other', u', second', next', kind'⟩ := agrees.waits second next same
    rw [← agrees.oneKind.2 kind kind'] at next'
    exact ⟨stack', .shifts first' complete' second' next'⟩

end Rules.Agrees

end CanonicalLR
