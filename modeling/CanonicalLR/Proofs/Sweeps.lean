import CanonicalLR.Proofs.Loops
import CanonicalLR.Proofs.Prediction
/-
The loops behind the sets of a grammar, without the bounds that the definitions put on them. They
come to an end by themselves, and what they have reached by then is what the definitions compute.
This holds of rounds, in which every production sees the sets as they were, and of sweeps in
place, in which it sees what the productions before it have added.
-/
namespace CanonicalLR

theorem mem_followIn {nullable : IdSet} {first : Array TerminalSet} {n t : Nat}
    {inherited : TerminalSet} {symbols : List (Symbol Nat)} :
    t ∈ followIn nullable first n inherited symbols ↔
      ∃ before after, symbols = before ++ .nonterminal n :: after ∧
        (t ∈ (firstOfString nullable first after).1 ∨
          (firstOfString nullable first after).2 = true ∧ t ∈ inherited) := by
  induction symbols with
  | nil => simp [followIn]
  | cons symbol rest ih =>
    have here : t ∈ followIn nullable first n inherited (symbol :: rest) ↔
        symbol = .nonterminal n ∧ (t ∈ (firstOfString nullable first rest).1 ∨
          (firstOfString nullable first rest).2 = true ∧ t ∈ inherited) ∨
        t ∈ followIn nullable first n inherited rest := by
      simp only [followIn]
      by_cases same : symbol = .nonterminal n
      · simp only [same, ↓reduceIte, IdSet.mem_union, true_and]
        split <;> simp_all
      · simp only [same, ↓reduceIte, false_and, false_or]
    rw [here, ih]
    constructor
    · intro found
      rcases found with ⟨same, follows⟩ | ⟨before, after, split, follows⟩
      · exact ⟨[], rest, by rw [same]; rfl, follows⟩
      · exact ⟨symbol :: before, after, by rw [split]; rfl, follows⟩
    · intro found
      obtain ⟨before, after, split, follows⟩ := found
      cases before with
      | nil =>
        obtain ⟨same, behind⟩ := List.cons.inj split
        exact Or.inl ⟨same, behind ▸ follows⟩
      | cons other before =>
        obtain ⟨_, behind⟩ := List.cons.inj split
        exact Or.inr ⟨before, after, behind, follows⟩

namespace Rules

variable {rules : Rules}

theorem mem_foldl_contributions {t : Nat} (contribution : Production → TerminalSet)
    (productions : List Production) (set : TerminalSet) :
    t ∈ productions.foldl (fun set production => set ∪ contribution production) set ↔
      t ∈ set ∨ ∃ production ∈ productions, t ∈ contribution production := by
  induction productions generalizing set with
  | nil => simp
  | cons production rest ih =>
    simp only [List.foldl_cons, ih, IdSet.mem_union, List.mem_cons, exists_eq_or_imp, or_assoc]

theorem exists_rule {P : Production → Prop} :
    (∃ production ∈ rules.productions.toList, P production) ↔
      ∃ (p lhs : Nat) (rhs : List (Symbol Nat)),
        rules.productions[p]? = some ⟨lhs, rhs⟩ ∧ P ⟨lhs, rhs⟩ := by
  constructor
  · intro ⟨⟨lhs, rhs⟩, stored, fact⟩
    obtain ⟨p, rule⟩ := List.mem_iff_getElem?.1 stored
    exact ⟨p, lhs, rhs, by simpa using rule, fact⟩
  · intro ⟨p, lhs, rhs, rule, fact⟩
    exact ⟨⟨lhs, rhs⟩, Array.mem_toList_iff.2 (Array.mem_of_getElem? rule), fact⟩

theorem mem_followRound {nullable : IdSet} {first follow : Array TerminalSet} {n t : Nat} :
    t ∈ (rules.followRound nullable first follow).getD n ∅ ↔ n < rules.nonterminalCount ∧
      (t ∈ follow.getD n ∅ ∨ ∃ (p lhs : Nat) (rhs : List (Symbol Nat)),
        rules.productions[p]? = some ⟨lhs, rhs⟩ ∧
          t ∈ followIn nullable first n (follow.getD lhs ∅) rhs) := by
  unfold followRound
  rw [getD_map_range]
  by_cases bound : n < rules.nonterminalCount
  · simp only [bound, ↓reduceIte, true_and]
    rw [mem_foldl_contributions fun production =>
      followIn nullable first n (follow.getD production.lhs ∅) production.rhs]
    rw [exists_rule]
  · simp [bound]

theorem Proper.firstSets_lt (proper : rules.Proper) {n t : Nat}
    (h : t ∈ (rules.firstSets rules.nullableSet).getD n ∅) : t < rules.terminalCount :=
  proper.starts_lt (firstSets_sound h) (by simp)

theorem Proper.followRound_lt (proper : rules.Proper) {follow : Array TerminalSet}
    (bounded : ∀ n t, t ∈ follow.getD n ∅ → t < rules.terminalCount) (n t : Nat)
    (h : t ∈ (rules.followRound rules.nullableSet (rules.firstSets rules.nullableSet) follow).getD
      n ∅) : t < rules.terminalCount := by
  rcases (mem_followRound.1 h).2 with old | ⟨p, lhs, rhs, rule, added⟩
  · exact bounded n t old
  · obtain ⟨before, after, split, begins | ⟨_, inherits⟩⟩ := mem_followIn.1 added
    · apply firstOfString_bounded (fun n t => proper.firstSets_lt) _ begins
      intro a inside
      exact proper.terminal_lt rule (by simp [split, inside])
    · exact bounded lhs t inherits

theorem Proper.followSets_lt (proper : rules.Proper) (n t : Nat)
    (h : t ∈ (rules.followSets rules.nullableSet (rules.firstSets rules.nullableSet)).getD n ∅) :
    t < rules.terminalCount := by
  revert n t
  apply stabilize_induction (P := fun (follow : Array TerminalSet) =>
    ∀ n t, t ∈ follow.getD n ∅ → t < rules.terminalCount)
  · exact fun follow bounded => proper.followRound_lt bounded
  · intro n t member
    exact absurd member (not_mem_noTerminals n t)

theorem followSets_fixed (proper : rules.Proper) :
    rules.followRound rules.nullableSet (rules.firstSets rules.nullableSet)
        (rules.followSets rules.nullableSet (rules.firstSets rules.nullableSet)) =
      rules.followSets rules.nullableSet (rules.firstSets rules.nullableSet) := by
  apply sets_fixed
  · intro follow _
    simp [followRound]
  · intro follow n t bound member
    exact mem_followRound.2 ⟨bound, Or.inl member⟩
  · exact fun follow bounded => proper.followRound_lt bounded

def nullableSweep (rules : Rules) : IdSet → IdSet :=
  rules.productions.toList.foldl fun nullable production =>
    if production.rhs.all (inNullable nullable) then nullable.insert production.lhs else nullable

def firstSweep (rules : Rules) (nullable : IdSet) : Array TerminalSet → Array TerminalSet :=
  rules.productions.toList.foldl fun first production =>
    first.modify production.lhs (· ∪ (firstOfString nullable first production.rhs).1)

def followSweep (rules : Rules) (nullable : IdSet) (first : Array TerminalSet) :
    Array TerminalSet → Array TerminalSet :=
  rules.productions.toList.foldl fun follow production =>
    follow.mapIdx fun n set =>
      set ∪ followIn nullable first n (follow.getD production.lhs ∅) production.rhs

theorem all_inNullable_mono {a b : IdSet} (below : ∀ n, n ∈ a → n ∈ b)
    {symbols : List (Symbol Nat)} (all : symbols.all (inNullable a) = true) :
    symbols.all (inNullable b) = true := by
  simp only [List.all_eq_true] at all ⊢
  intro symbol member
  have held := all symbol member
  cases symbol with
  | terminal t => exact held
  | nonterminal n =>
    simp only [inNullable, IdSet.contains_iff] at held ⊢
    exact below n held

theorem firstOfString_mono {nullable : IdSet} {a b : Array TerminalSet} {t : Nat}
    (below : ∀ n t, t ∈ a.getD n ∅ → t ∈ b.getD n ∅) {symbols : List (Symbol Nat)}
    (begins : t ∈ (firstOfString nullable a symbols).1) :
    t ∈ (firstOfString nullable b symbols).1 := by
  induction symbols with
  | nil => exact begins
  | cons symbol rest ih =>
    cases symbol with
    | terminal s => exact begins
    | nonterminal n =>
      simp only [firstOfString] at begins ⊢
      split at begins
      · rename_i vanishes
        rw [if_pos vanishes]
        rcases IdSet.mem_union.1 begins with own | others
        · exact IdSet.mem_union.2 (Or.inl (below n t own))
        · exact IdSet.mem_union.2 (Or.inr (ih others))
      · rename_i stays
        rw [if_neg stays]
        exact below n t begins

theorem followIn_mono {nullable : IdSet} {first : Array TerminalSet} {n t : Nat}
    {a b : TerminalSet} (below : t ∈ a → t ∈ b) {symbols : List (Symbol Nat)}
    (follows : t ∈ followIn nullable first n a symbols) :
    t ∈ followIn nullable first n b symbols := by
  obtain ⟨before, after, split, begins | ⟨vanishes, inherits⟩⟩ := mem_followIn.1 follows
  · exact mem_followIn.2 ⟨before, after, split, Or.inl begins⟩
  · exact mem_followIn.2 ⟨before, after, split, Or.inr ⟨vanishes, below inherits⟩⟩

theorem nullableSweep_additive (rules : Rules) :
    Additive (fun (set : IdSet) n => n ∈ set) (fun _ => True)
      (fun production set n => production.lhs = n ∧ production.rhs.all (inNullable set) = true)
      rules.productions.toList
      (fun nullable production =>
        if production.rhs.all (inNullable nullable) then nullable.insert production.lhs
        else nullable) := by
  constructor
  · intro production a b n below ⟨same, vanishes⟩
    exact ⟨same, all_inNullable_mono below vanishes⟩
  · intro production a n _ _
    by_cases vanishes : production.rhs.all (inNullable a) = true
    · rw [if_pos vanishes, IdSet.mem_insert]
      grind
    · rw [if_neg vanishes]
      simp [vanishes]
  · exact fun _ => trivial
  · exact fun _ _ same => IdSet.ext same

theorem nullableSet_lt (proper : rules.Proper) : ∀ n ∈ rules.nullableSet,
    n < rules.nonterminalCount := by
  apply stabilize_induction (P := fun set => ∀ n ∈ set, n < rules.nonterminalCount)
  · intro set bounded n member
    rcases mem_nullableRound.1 member with old | ⟨p, rhs, rule, _⟩
    · exact bounded n old
    · exact proper.lhs_lt rule
  · simp

theorem nullableSweep_rests (proper : rules.Proper) :
    RestsWithin rules.nullableSweep (rules.nonterminalCount + 1) ∅ rules.nullableSet := by
  apply rules.nullableSweep_additive.sweep_restsWithin (fun _ _ => trivial) _ trivial
    (nullableSet_fixed proper) IdSet.toFinset (fun _ _ _ => IdSet.mem_toFinset)
  · have few : rules.nullableSet.toFinset.card ≤ (Finset.range rules.nonterminalCount).card := by
      apply Finset.card_le_card
      intro n member
      exact Finset.mem_range.2 (nullableSet_lt proper n (IdSet.mem_toFinset.1 member))
    rw [Finset.card_range] at few
    exact Nat.lt_succ_of_le few
  · intro set n _
    rw [mem_nullableRound, exists_rule]
    grind

/-- One sweep in place that passes over the productions of non-terminals found before. -/
def skippingSweep (rules : Rules) : IdSet → IdSet :=
  rules.productions.toList.foldl fun nullable production =>
    if nullable.contains production.lhs then nullable
    else if production.rhs.all (inNullable nullable) then nullable.insert production.lhs
    else nullable

theorem skippingSweep_eq (rules : Rules) : rules.skippingSweep = rules.nullableSweep := by
  refine congrArg (fun update nullable => rules.productions.toList.foldl update nullable) ?_
  funext nullable production
  by_cases found : nullable.contains production.lhs = true
  · have same : nullable.insert production.lhs = nullable := by
      apply IdSet.ext
      intro n
      rw [IdSet.mem_insert, or_iff_right_of_imp]
      rintro rfl
      exact IdSet.contains_iff.1 found
    rw [if_pos found, same, ite_self]
  · rw [if_neg found]

theorem sets_ext {a b : Array TerminalSet} (size : a.size = rules.nonterminalCount)
    (size' : b.size = rules.nonterminalCount)
    (same : ∀ fact : Nat × Nat, fact.2 ∈ a.getD fact.1 ∅ ↔ fact.2 ∈ b.getD fact.1 ∅) : a = b := by
  apply Array.ext (size.trans size'.symm)
  intro n bound bound'
  have row : a.getD n ∅ = b.getD n ∅ := IdSet.ext fun t => same (n, t)
  simpa [Array.getD, bound, bound'] using row

theorem firstSweep_additive (proper : rules.Proper) (nullable : IdSet) :
    Additive (fun (sets : Array TerminalSet) (fact : Nat × Nat) => fact.2 ∈ sets.getD fact.1 ∅)
      (fun sets => sets.size = rules.nonterminalCount)
      (fun production sets fact =>
        production.lhs = fact.1 ∧ fact.2 ∈ (firstOfString nullable sets production.rhs).1)
      rules.productions.toList
      (fun first production =>
        first.modify production.lhs (· ∪ (firstOfString nullable first production.rhs).1)) := by
  constructor
  · intro production a b fact below ⟨same, begins⟩
    exact ⟨same, firstOfString_mono (fun n t => below (n, t)) begins⟩
  · intro production a fact stored size
    obtain ⟨p, rule⟩ := List.mem_iff_getElem?.1 stored
    have bound : production.lhs < a.size := size ▸ proper.lhs_lt (by simpa using rule)
    by_cases here : production.lhs = fact.1
    · rw [here] at bound
      simp [Array.getD_eq_getD_getElem?, Array.getElem_modify, here, bound]
    · simp [Array.getD_eq_getD_getElem?, Array.getElem?_modify, here]
  · intro production a size
    rw [Array.size_modify, size]
  · exact sets_ext

theorem row_lt {sets : Array TerminalSet} {n t : Nat} (h : t ∈ sets.getD n ∅) :
    n < sets.size := by
  by_contra outside
  simp [Array.getD, outside] at h

theorem arrayFacts_counted {last : Array TerminalSet} (size : last.size = rules.nonterminalCount)
    (bounded : ∀ n t, t ∈ last.getD n ∅ → t < rules.terminalCount) {sets : Array TerminalSet}
    (below : ∀ fact : Nat × Nat, fact.2 ∈ sets.getD fact.1 ∅ → fact.2 ∈ last.getD fact.1 ∅)
    (fact : Nat × Nat) : fact ∈ rules.arrayFacts sets ↔ fact.2 ∈ sets.getD fact.1 ∅ := by
  constructor
  · exact fun member => (mem_arrayFacts.1 member).2
  · intro member
    have held := below fact member
    exact mem_arrayFacts.2 ⟨⟨size ▸ row_lt held, bounded _ _ held⟩, member⟩

theorem arrayFacts_card (sets : Array TerminalSet) :
    (rules.arrayFacts sets).card < rules.nonterminalCount * rules.terminalCount + 1 := by
  have few := Finset.card_filter_le
    (Finset.range rules.nonterminalCount ×ˢ Finset.range rules.terminalCount)
    (fun fact => fact.2 ∈ sets.getD fact.1 ∅)
  rw [Finset.card_product, Finset.card_range, Finset.card_range] at few
  exact Nat.lt_succ_of_le few

/-- Rounds and sweeps over one set of terminals for each non-terminal, which add the same. -/
theorem sets_rest {adds : Production → Array TerminalSet → Nat × Nat → Prop}
    {update : Array TerminalSet → Production → Array TerminalSet}
    {round : Array TerminalSet → Array TerminalSet}
    (sweeps : Additive (fun sets (fact : Nat × Nat) => fact.2 ∈ sets.getD fact.1 ∅)
      (fun sets => sets.size = rules.nonterminalCount) adds rules.productions.toList update)
    (size : ∀ sets, (round sets).size = rules.nonterminalCount)
    (rounded : ∀ sets (fact : Nat × Nat), sets.size = rules.nonterminalCount →
      (fact.2 ∈ (round sets).getD fact.1 ∅ ↔ fact.2 ∈ sets.getD fact.1 ∅ ∨
        ∃ production ∈ rules.productions.toList, adds production sets fact)) {n : Nat}
    (rest : round (stabilize round n rules.noTerminals) = stabilize round n rules.noTerminals)
    (bounded : ∀ m t, t ∈ (stabilize round n rules.noTerminals).getD m ∅ →
      t < rules.terminalCount) :
    RestsWithin (rules.productions.toList.foldl update)
      (rules.nonterminalCount * rules.terminalCount + 1) rules.noTerminals
      (stabilize round n rules.noTerminals) := by
  apply sweeps.sweep_restsWithin (fun sets _ => size sets) rounded (by simp [noTerminals]) rest
    rules.arrayFacts
  · intro sets below
    have last : (stabilize round n rules.noTerminals).size = rules.nonterminalCount := by
      rw [← rest]
      exact size _
    exact arrayFacts_counted last bounded below
  · exact arrayFacts_card _

theorem firstSweep_rests (proper : rules.Proper) :
    RestsWithin (rules.firstSweep rules.nullableSet)
      (rules.nonterminalCount * rules.terminalCount + 1) rules.noTerminals
      (rules.firstSets rules.nullableSet) := by
  apply sets_rest (firstSweep_additive proper rules.nullableSet) (fun _ => by simp [firstRound]) _
    (firstSets_fixed proper) (fun _ _ => proper.firstSets_lt)
  intro sets fact size
  rw [mem_firstRound, exists_rule]
  constructor
  · rintro ⟨_, old | ⟨p, rhs, rule, begins⟩⟩
    · exact Or.inl old
    · exact Or.inr ⟨p, fact.1, rhs, rule, rfl, begins⟩
  · intro held
    rcases held with old | ⟨p, lhs, rhs, rule, same, begins⟩
    · exact ⟨size ▸ row_lt old, Or.inl old⟩
    · rw [show lhs = fact.1 from same] at rule
      exact ⟨proper.lhs_lt rule, Or.inr ⟨p, rhs, rule, begins⟩⟩

theorem followSweep_additive (rules : Rules) (nullable : IdSet) (first : Array TerminalSet) :
    Additive (fun (sets : Array TerminalSet) (fact : Nat × Nat) => fact.2 ∈ sets.getD fact.1 ∅)
      (fun sets => sets.size = rules.nonterminalCount)
      (fun production sets fact => fact.1 < rules.nonterminalCount ∧
        fact.2 ∈ followIn nullable first fact.1 (sets.getD production.lhs ∅) production.rhs)
      rules.productions.toList
      (fun follow production => follow.mapIdx fun n set =>
        set ∪ followIn nullable first n (follow.getD production.lhs ∅) production.rhs) := by
  constructor
  · intro production a b fact below ⟨bound, follows⟩
    exact ⟨bound, followIn_mono (below (production.lhs, fact.2)) follows⟩
  · intro production a fact _ size
    by_cases bound : fact.1 < a.size
    · simp [Array.getD, bound, ← size]
    · simp [Array.getD, bound, ← size]
  · intro production a size
    rw [Array.size_mapIdx, size]
  · exact sets_ext

theorem followSweep_rests (proper : rules.Proper) :
    RestsWithin (rules.followSweep rules.nullableSet (rules.firstSets rules.nullableSet))
      (rules.nonterminalCount * rules.terminalCount + 1) rules.noTerminals
      (rules.followSets rules.nullableSet (rules.firstSets rules.nullableSet)) := by
  apply sets_rest (rules.followSweep_additive _ _) (fun _ => by simp [followRound]) _
    (followSets_fixed proper) proper.followSets_lt
  intro sets fact size
  rw [mem_followRound, exists_rule]
  constructor
  · rintro ⟨bound, old | ⟨p, lhs, rhs, rule, follows⟩⟩
    · exact Or.inl old
    · exact Or.inr ⟨p, lhs, rhs, rule, bound, follows⟩
  · intro held
    rcases held with old | ⟨p, lhs, rhs, rule, bound, follows⟩
    · exact ⟨size ▸ row_lt old, Or.inl old⟩
    · exact ⟨bound, Or.inr ⟨p, lhs, rhs, rule, follows⟩⟩

end Rules

end CanonicalLR
