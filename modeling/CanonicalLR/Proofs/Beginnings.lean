import CanonicalLR.Proofs.Frozen
import CanonicalLR.Proofs.Saturation
import CanonicalLR.Proofs.Words
import Mathlib.Data.Finset.Prod
/-
Nullable non-terminals and first sets are exact: a round only adds what some derivation justifies,
and where no round adds anything more, every derivation has been accounted for. Nothing is asked
of the grammar; symbols that derive no word at all begin with whatever they can be rewritten to.
-/
namespace CanonicalLR

def Vanishes (productions : Array Production) (symbols : List (Symbol Nat)) : Prop :=
  ∃ calls, Generates productions symbols [] calls

theorem Vanishes.nil {productions : Array Production} : Vanishes productions [] := ⟨[], .nil⟩

theorem Vanishes.append {productions : Array Production} {xs ys : List (Symbol Nat)} :
    Vanishes productions xs → Vanishes productions ys → Vanishes productions (xs ++ ys) := by
  rintro ⟨cs, hx⟩ ⟨ds, hy⟩
  exact ⟨cs ++ ds, hx.append hy⟩

theorem Vanishes.not_terminal {productions : Array Production} {t : Nat}
    {rest : List (Symbol Nat)} : ¬ Vanishes productions (.terminal t :: rest) := by
  rintro ⟨calls, made⟩
  exact made.no_terminal rfl t (by simp)

namespace Rules

variable {rules : Rules}

theorem mem_foldl_lhs {n : Nat} (productions : List Production) (set : IdSet) :
    n ∈ productions.foldl (fun set production => set.insert production.lhs) set ↔
      n ∈ set ∨ ∃ production ∈ productions, production.lhs = n := by
  induction productions generalizing set with
  | nil => simp
  | cons production rest ih =>
    simp only [List.foldl_cons, ih, IdSet.mem_insert, List.mem_cons, exists_eq_or_imp]
    grind

theorem mem_nullableRound {n : Nat} {set : IdSet} :
    n ∈ rules.nullableRound set ↔ n ∈ set ∨ ∃ (p : Nat) (rhs : List (Symbol Nat)),
      rules.productions[p]? = some ⟨n, rhs⟩ ∧ rhs.all (inNullable set) = true := by
  unfold nullableRound
  rw [mem_foldl_lhs]
  constructor
  · rintro (old | ⟨⟨lhs, rhs⟩, member, rfl⟩)
    · exact Or.inl old
    · obtain ⟨stored, vanishes⟩ := List.mem_filter.1 member
      obtain ⟨p, rule⟩ := List.mem_iff_getElem?.1 stored
      exact Or.inr ⟨p, rhs, by simpa using rule, vanishes⟩
  · rintro (old | ⟨p, rhs, rule, vanishes⟩)
    · exact Or.inl old
    · have stored : (⟨n, rhs⟩ : Production) ∈ rules.productions.toList := by
        exact Array.mem_toList_iff.2 (Array.mem_of_getElem? rule)
      exact Or.inr ⟨⟨n, rhs⟩, List.mem_filter.2 ⟨stored, vanishes⟩, rfl⟩

theorem vanishes_of_all {set : IdSet}
    (sound : ∀ n ∈ set, Vanishes rules.productions [.nonterminal n]) {symbols : List (Symbol Nat)}
    (h : symbols.all (inNullable set) = true) : Vanishes rules.productions symbols := by
  induction symbols with
  | nil => exact .nil
  | cons symbol rest ih =>
    simp only [List.all_cons, Bool.and_eq_true] at h
    cases symbol with
    | terminal t => simp [inNullable] at h
    | nonterminal n =>
      have first := sound n (by simpa [inNullable] using h.1)
      exact first.append (ih h.2)

theorem nullableSet_sound {n : Nat} (h : n ∈ rules.nullableSet) :
    Vanishes rules.productions [.nonterminal n] := by
  have all : ∀ n ∈ rules.nullableSet, Vanishes rules.productions [.nonterminal n] := by
    refine stabilize_induction (P := fun set => ∀ n ∈ set, Vanishes rules.productions
      [.nonterminal n]) (fun set sound n member => ?_) _ (by simp)
    rcases mem_nullableRound.1 member with old | ⟨p, rhs, rule, vanishes⟩
    · exact sound n old
    · obtain ⟨calls, below⟩ := vanishes_of_all sound vanishes
      exact ⟨calls ++ [p], .node rule below⟩
  exact all n h

theorem nullableSet_fixed (proper : rules.Proper) :
    rules.nullableRound rules.nullableSet = rules.nullableSet := by
  refine stabilize_fixed (P := fun set => ∀ n ∈ set, n < rules.nonterminalCount)
    IdSet.toFinset (Finset.range rules.nonterminalCount) ?_ ?_ ?_ ?_ (by simp) ?_
  · intro set bounded n member
    rcases mem_nullableRound.1 member with old | ⟨p, rhs, rule, _⟩
    · exact bounded n old
    · exact proper.lhs_lt rule
  · intro set bounded n member
    exact Finset.mem_range.2 (bounded n (by simpa using member))
  · intro set _ n member
    simp only [IdSet.mem_toFinset] at member ⊢
    exact mem_nullableRound.2 (Or.inl member)
  · intro set _ same
    exact IdSet.toFinset_injective same
  · simp
    omega

theorem nullableSet_complete (proper : rules.Proper) {symbols : List (Symbol Nat)}
    {word calls : List Nat} (h : Generates rules.productions symbols word calls)
    (empty : word = []) : symbols.all (inNullable rules.nullableSet) = true := by
  induction h with
  | nil => rfl
  | terminal => contradiction
  | nonterminal rule _ _ ihBelow ihTail =>
    obtain ⟨rfl, rfl⟩ := List.append_eq_nil_iff.1 empty
    have member := mem_nullableRound.2 (Or.inr ⟨_, _, rule, ihBelow rfl⟩)
    rw [nullableSet_fixed proper] at member
    simp [inNullable, member, ihTail rfl]

theorem mem_nullableSet (proper : rules.Proper) {n : Nat} :
    n ∈ rules.nullableSet ↔ Vanishes rules.productions [.nonterminal n] := by
  constructor
  · exact nullableSet_sound
  · rintro ⟨calls, made⟩
    simpa [inNullable] using nullableSet_complete proper made rfl

theorem all_inNullable_iff (proper : rules.Proper) {symbols : List (Symbol Nat)} :
    symbols.all (inNullable rules.nullableSet) = true ↔ Vanishes rules.productions symbols :=
  ⟨vanishes_of_all fun _ => nullableSet_sound,
    fun ⟨_, made⟩ => nullableSet_complete proper made rfl⟩

end Rules

theorem firstOfString_vanishes {nullable : IdSet} {first : Array TerminalSet}
    (symbols : List (Symbol Nat)) :
    (firstOfString nullable first symbols).2 = symbols.all (inNullable nullable) := by
  induction symbols with
  | nil => rfl
  | cons symbol rest ih =>
    cases symbol with
    | terminal t => rfl
    | nonterminal n =>
      by_cases member : nullable.contains n = true <;>
        simp_all [firstOfString, inNullable]

namespace Rules

variable {rules : Rules}

theorem firstOfString_sound {first : Array TerminalSet}
    (sound : ∀ n t, t ∈ first.getD n ∅ → Starts rules.productions [.nonterminal n] [] t)
    {symbols : List (Symbol Nat)} {t : Nat}
    (h : t ∈ (firstOfString rules.nullableSet first symbols).1) :
    Starts rules.productions symbols [] t := by
  induction symbols with
  | nil => simp [firstOfString] at h
  | cons symbol rest ih =>
    cases symbol with
    | terminal a =>
      obtain rfl : t = a := by simpa [firstOfString] using h
      exact .here
    | nonterminal n =>
      by_cases member : n ∈ rules.nullableSet
      · obtain ⟨calls, made⟩ := nullableSet_sound member
        simp only [firstOfString, IdSet.contains_iff, member, ↓reduceIte, IdSet.mem_union] at h
        rcases h with own | others
        · exact (sound n t own).append_right rest
        · exact .skip made (ih others)
      · simp only [firstOfString, IdSet.contains_iff, member, ↓reduceIte] at h
        exact (sound n t h).append_right rest

/-- In an array without gaps: the derivation ends inside the first sets it passes through. -/
theorem firstOfString_complete (proper : rules.Proper) {first : Array TerminalSet}
    (closed : ∀ (p n t : Nat) (rhs : List (Symbol Nat)), rules.productions[p]? = some ⟨n, rhs⟩ →
      t ∈ (firstOfString rules.nullableSet first rhs).1 → t ∈ first.getD n ∅)
    {symbols : List (Symbol Nat)} {word : List Nat} {t : Nat}
    (h : Starts rules.productions symbols word t) (empty : word = []) :
    t ∈ (firstOfString rules.nullableSet first symbols).1 := by
  induction h with
  | here => simp [firstOfString]
  | @descend p n t rhs rest word rule _ ih =>
    have own := closed _ _ _ _ rule (ih empty)
    simp only [firstOfString]
    split
    · exact IdSet.mem_union.2 (Or.inl own)
    · exact own
  | @skip symbol rest u v calls t whole _ ih =>
    obtain ⟨rfl, rfl⟩ := List.append_eq_nil_iff.1 empty
    have vanishes := nullableSet_complete proper whole rfl
    cases symbol with
    | terminal a => simp [inNullable] at vanishes
    | nonterminal n =>
      have member : n ∈ rules.nullableSet := by simpa [inNullable] using vanishes
      simp only [firstOfString, IdSet.contains_iff, member, ↓reduceIte]
      exact IdSet.mem_union.2 (Or.inr (ih rfl))

theorem getD_map_range (count : Nat) (row : Nat → TerminalSet) (n : Nat) :
    ((Array.range count).map row).getD n ∅ = if n < count then row n else ∅ := by
  by_cases bound : n < count <;> simp [Array.getD_eq_getD_getElem?, bound]

theorem not_mem_noTerminals (n t : Nat) : t ∉ rules.noTerminals.getD n ∅ := by
  by_cases bound : n < rules.nonterminalCount <;>
    simp [noTerminals, Array.getD_eq_getD_getElem?, bound]

def arrayFacts (rules : Rules) (sets : Array TerminalSet) : Finset (Nat × Nat) :=
  (Finset.range rules.nonterminalCount ×ˢ Finset.range rules.terminalCount).filter
    fun fact => fact.2 ∈ sets.getD fact.1 ∅

theorem mem_arrayFacts {sets : Array TerminalSet} {n t : Nat} :
    (n, t) ∈ rules.arrayFacts sets ↔
      (n < rules.nonterminalCount ∧ t < rules.terminalCount) ∧ t ∈ sets.getD n ∅ := by
  simp [arrayFacts]

theorem sets_fixed {round : Array TerminalSet → Array TerminalSet}
    (size : ∀ sets, sets.size = rules.nonterminalCount →
      (round sets).size = rules.nonterminalCount)
    (grows : ∀ sets n t, n < rules.nonterminalCount → t ∈ sets.getD n ∅ →
      t ∈ (round sets).getD n ∅)
    (bounded : ∀ sets, (∀ n t, t ∈ sets.getD n ∅ → t < rules.terminalCount) →
      ∀ n t, t ∈ (round sets).getD n ∅ → t < rules.terminalCount) :
    round (stabilize round (rules.nonterminalCount * rules.terminalCount + 1) rules.noTerminals) =
      stabilize round (rules.nonterminalCount * rules.terminalCount + 1) rules.noTerminals := by
  refine stabilize_fixed
    (P := fun sets => sets.size = rules.nonterminalCount ∧
      ∀ n t, t ∈ sets.getD n ∅ → t < rules.terminalCount)
    rules.arrayFacts (Finset.range rules.nonterminalCount ×ˢ Finset.range rules.terminalCount)
    ?_ ?_ ?_ ?_ ?_ ?_
  · intro sets inv
    exact ⟨size sets inv.1, bounded sets inv.2⟩
  · intro sets _
    exact Finset.filter_subset _ _
  · rintro sets _ ⟨n, t⟩ member
    rw [mem_arrayFacts] at member ⊢
    exact ⟨member.1, grows sets n t member.1.1 member.2⟩
  · intro sets inv same
    apply Array.ext
    · rw [size sets inv.1, inv.1]
    · intro n small large
      have fact : ∀ t, t ∈ (round sets).getD n ∅ ↔ t ∈ sets.getD n ∅ := by
        intro t
        have agree := Finset.ext_iff.1 same (n, t)
        simp only [mem_arrayFacts] at agree
        constructor
        · intro member
          exact (agree.1 ⟨⟨inv.1 ▸ large, bounded sets inv.2 n t member⟩, member⟩).2
        · intro member
          exact grows sets n t (inv.1 ▸ large) member
      simpa [Array.getD, small, large] using IdSet.ext fact
  · constructor
    · simp [noTerminals]
    · intro n t member
      exact absurd member (not_mem_noTerminals n t)
  · rw [Finset.card_product, Finset.card_range, Finset.card_range]
    omega

theorem mem_foldl_union {n t : Nat} (contribution : Production → TerminalSet)
    (productions : List Production) (set : TerminalSet) :
    t ∈ productions.foldl
        (fun set production =>
          if production.lhs = n then set ∪ contribution production else set) set ↔
      t ∈ set ∨ ∃ production ∈ productions, production.lhs = n ∧ t ∈ contribution production := by
  induction productions generalizing set with
  | nil => simp
  | cons production rest ih =>
    simp only [List.foldl_cons, ih, List.mem_cons, exists_eq_or_imp]
    by_cases same : production.lhs = n
    · simp only [same, ↓reduceIte, IdSet.mem_union, true_and, or_assoc]
    · simp only [same, ↓reduceIte, false_and, false_or]

theorem mem_firstRound {nullable : IdSet} {first : Array TerminalSet} {n t : Nat} :
    t ∈ (rules.firstRound nullable first).getD n ∅ ↔ n < rules.nonterminalCount ∧
      (t ∈ first.getD n ∅ ∨ ∃ (p : Nat) (rhs : List (Symbol Nat)),
        rules.productions[p]? = some ⟨n, rhs⟩ ∧ t ∈ (firstOfString nullable first rhs).1) := by
  unfold firstRound
  rw [getD_map_range]
  by_cases bound : n < rules.nonterminalCount
  · simp only [bound, ↓reduceIte, true_and]
    rw [mem_foldl_union fun production => (firstOfString nullable first production.rhs).1]
    refine or_congr Iff.rfl ⟨?_, ?_⟩
    · rintro ⟨⟨lhs, rhs⟩, stored, rfl, member⟩
      obtain ⟨p, rule⟩ := List.mem_iff_getElem?.1 stored
      exact ⟨p, rhs, by simpa using rule, member⟩
    · rintro ⟨p, rhs, rule, member⟩
      exact ⟨⟨n, rhs⟩, Array.mem_toList_iff.2 (Array.mem_of_getElem? rule), rfl, member⟩
  · simp [bound]

theorem firstSets_sound {n t : Nat} (h : t ∈ (rules.firstSets rules.nullableSet).getD n ∅) :
    Starts rules.productions [.nonterminal n] [] t := by
  have all : ∀ n t, t ∈ (rules.firstSets rules.nullableSet).getD n ∅ →
      Starts rules.productions [.nonterminal n] [] t := by
    refine stabilize_induction (P := fun (first : Array TerminalSet) => ∀ n t, t ∈ first.getD n ∅ →
      Starts rules.productions [.nonterminal n] [] t) (fun first sound n t member => ?_) _ ?_
    · rcases (mem_firstRound.1 member).2 with old | ⟨p, rhs, rule, begins⟩
      · exact sound n t old
      · exact .descend rule (firstOfString_sound sound begins)
    · intro n t member
      exact absurd member (not_mem_noTerminals n t)
  exact all n t h

theorem firstOfString_bounded {nullable : IdSet} {first : Array TerminalSet}
    (bounded : ∀ n t, t ∈ first.getD n ∅ → t < rules.terminalCount) {symbols : List (Symbol Nat)}
    (terminals : ∀ t, .terminal t ∈ symbols → t < rules.terminalCount) {t : Nat}
    (h : t ∈ (firstOfString nullable first symbols).1) : t < rules.terminalCount := by
  induction symbols with
  | nil => simp [firstOfString] at h
  | cons symbol rest ih =>
    cases symbol with
    | terminal a =>
      obtain rfl : t = a := by simpa [firstOfString] using h
      exact terminals t (by simp)
    | nonterminal n =>
      simp only [firstOfString] at h
      split at h
      · rcases IdSet.mem_union.1 h with own | others
        · exact bounded n t own
        · exact ih (fun a member => terminals a (List.mem_cons_of_mem _ member)) others
      · exact bounded n t h

theorem firstSets_fixed (proper : rules.Proper) :
    rules.firstRound rules.nullableSet (rules.firstSets rules.nullableSet) =
      rules.firstSets rules.nullableSet := by
  refine sets_fixed ?_ ?_ ?_
  · intro first _
    simp [firstRound]
  · intro first n t bound member
    exact mem_firstRound.2 ⟨bound, Or.inl member⟩
  · intro first bounded n t member
    rcases (mem_firstRound.1 member).2 with old | ⟨p, rhs, rule, begins⟩
    · exact bounded n t old
    · exact firstOfString_bounded bounded (fun a => proper.terminal_lt rule) begins

theorem mem_firstOfString (proper : rules.Proper) {symbols : List (Symbol Nat)} {t : Nat} :
    t ∈ (firstOfString rules.nullableSet (rules.firstSets rules.nullableSet) symbols).1 ↔
      Starts rules.productions symbols [] t := by
  constructor
  · exact firstOfString_sound fun n t => firstSets_sound
  · intro begins
    refine firstOfString_complete proper (fun p n t rhs rule member => ?_) begins rfl
    have added := mem_firstRound.2 ⟨proper.lhs_lt rule, Or.inr ⟨p, rhs, rule, member⟩⟩
    rwa [firstSets_fixed proper] at added

theorem mem_firstOfSequence (proper : rules.Proper) {symbols : List (Symbol Nat)} {t : Nat} :
    t ∈ ((FirstFollow.ofRules rules).firstOfSequence symbols).1 ↔
      Starts rules.productions symbols [] t :=
  mem_firstOfString proper

theorem firstOfSequence_vanishes (proper : rules.Proper) {symbols : List (Symbol Nat)} :
    ((FirstFollow.ofRules rules).firstOfSequence symbols).2 = true ↔
      Vanishes rules.productions symbols := by
  unfold FirstFollow.firstOfSequence
  rw [firstOfString_vanishes]
  exact all_inNullable_iff proper

end Rules

end CanonicalLR
