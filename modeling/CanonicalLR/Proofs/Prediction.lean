import CanonicalLR.Proofs.Beginnings
import CanonicalLR.Proofs.ItemFacts
import Mathlib.Data.Finset.Option
/-
The closure of an item map holds exactly the facts that follow from those of the map by prediction.
An item hands its presence on to the productions of the non-terminal after its dot; with it goes
every terminal that may begin the rest and, if the rest may vanish, each lookahead of its own.
-/
namespace CanonicalLR

inductive Hands (productions : Array Production) (behind : List (Symbol Nat)) :
    Option Nat → Option Nat → Prop where
  | present : Hands productions behind none none
  | begins {t : Nat} (starts : Starts productions behind [] t) :
      Hands productions behind none (some t)
  | inherits {t : Nat} (vanishes : Vanishes productions behind) :
      Hands productions behind (some t) (some t)

namespace Rules

inductive Predicted (rules : Rules) (map : ItemMap) : Item → Option Nat → Prop where
  | held {item : Item} {look : Option Nat} (held : map.Holds item look) :
      Predicted rules map item look
  | predict {item : Item} {look handed : Option Nat} {n p : Nat}
      (source : Predicted rules map item look) (next : rules.next item = some (.nonterminal n))
      (member : p ∈ rules.productionsOf n)
      (hands : Hands rules.productions (rules.after item) look handed) :
      Predicted rules map ⟨p, 0⟩ handed

variable {rules : Rules}

theorem handedOn_shows (proper : rules.Proper) {item : Item} {lookahead : TerminalSet}
    {handed : Option Nat} :
    (rules.handedOn (FirstFollow.ofRules rules) item lookahead).Shows handed ↔
      ∃ look, lookahead.Shows look ∧ Hands rules.productions (rules.after item) look handed := by
  cases handed with
  | none => exact ⟨fun _ => ⟨none, trivial, .present⟩, fun _ => trivial⟩
  | some t =>
    have begins : t ∈ ((FirstFollow.ofRules rules).firstOfSequence (rules.after item)).1 ↔
        Starts rules.productions (rules.after item) [] t := mem_firstOfSequence proper
    have vanishes : ((FirstFollow.ofRules rules).firstOfSequence (rules.after item)).2 = true ↔
        Vanishes rules.productions (rules.after item) := firstOfSequence_vanishes proper
    have spread : (rules.handedOn (FirstFollow.ofRules rules) item lookahead).Shows (some t) ↔
        Starts rules.productions (rules.after item) [] t ∨
          Vanishes rules.productions (rules.after item) ∧ t ∈ lookahead := by
      rw [← begins, ← vanishes]
      simp only [IdSet.Shows, handedOn]
      split <;> simp_all
    rw [spread]
    constructor
    · rintro (starts | ⟨gone, member⟩)
      · exact ⟨none, trivial, .begins starts⟩
      · exact ⟨some t, member, .inherits gone⟩
    · rintro ⟨look, shown, hands⟩
      cases hands with
      | begins starts => exact Or.inl starts
      | inherits gone => exact Or.inr ⟨gone, shown⟩

theorem mem_predictions {sets : FirstFollow} {item key : Item} {lookahead set : TerminalSet} :
    (key, set) ∈ rules.predictions sets item lookahead ↔
      set = rules.handedOn sets item lookahead ∧ ∃ n p, rules.next item = some (.nonterminal n) ∧
        p ∈ rules.productionsOf n ∧ key = ⟨p, 0⟩ := by
  unfold predictions
  cases next : rules.next item with
  | none => simp
  | some symbol =>
    cases symbol with
    | terminal t => simp
    | nonterminal n =>
      simp only [List.mem_map, Prod.mk.injEq, Option.some.injEq, Symbol.nonterminal.injEq]
      constructor
      · rintro ⟨p, member, rfl, rfl⟩
        exact ⟨rfl, n, p, rfl, member, rfl⟩
      · rintro ⟨rfl, _, p, rfl, member, rfl⟩
        exact ⟨p, member, rfl, rfl⟩

theorem predictRound_holds (proper : rules.Proper) {map : ItemMap} {key : Item}
    {handed : Option Nat} :
    (rules.predictRound (FirstFollow.ofRules rules) map).Holds key handed ↔
      map.Holds key handed ∨ ∃ item look n p, map.Holds item look ∧
        rules.next item = some (.nonterminal n) ∧ p ∈ rules.productionsOf n ∧ key = ⟨p, 0⟩ ∧
        Hands rules.productions (rules.after item) look handed := by
  unfold predictRound
  rw [ItemMap.holds_foldl_join]
  refine or_congr Iff.rfl ?_
  simp only [List.mem_flatMap, Prod.exists, mem_predictions]
  constructor
  · rintro ⟨set, ⟨item, lookahead, entry, rfl, n, p, next, member, rfl⟩, shown⟩
    obtain ⟨look, own, hands⟩ := (handedOn_shows proper).1 shown
    exact ⟨item, look, n, p, ItemMap.holds_iff_mem.2 ⟨lookahead, entry, own⟩, next, member, rfl,
      hands⟩
  · rintro ⟨item, look, n, p, held, next, member, rfl, hands⟩
    obtain ⟨lookahead, entry, own⟩ := ItemMap.holds_iff_mem.1 held
    exact ⟨_, ⟨item, lookahead, entry, rfl, n, p, next, member, rfl⟩,
      (handedOn_shows proper).2 ⟨look, own, hands⟩⟩

theorem Proper.starts_lt (proper : rules.Proper) {symbols : List (Symbol Nat)} {word : List Nat}
    {t : Nat} (h : Starts rules.productions symbols word t)
    (terminals : ∀ a, .terminal a ∈ symbols → a < rules.terminalCount) :
    t < rules.terminalCount := by
  induction h with
  | here => exact terminals _ (by simp)
  | descend rule _ ih => exact ih fun a => proper.terminal_lt rule
  | skip _ _ ih => exact ih fun a member => terminals a (List.mem_cons_of_mem _ member)

theorem Proper.after_terminal (proper : rules.Proper) {item : Item} {t : Nat}
    (member : .terminal t ∈ rules.after item) : t < rules.terminalCount := by
  have inside := List.mem_of_mem_drop member
  cases found : rules.productions[item.production]? with
  | none => simp [Rules.rhs, found] at inside
  | some production => exact proper.terminal_lt found (rhs_eq found ▸ inside)

theorem Proper.hands_lt (proper : rules.Proper) {item : Item} {look : Option Nat} {t : Nat}
    (h : Hands rules.productions (rules.after item) look (some t)) :
    t < rules.terminalCount ∨ look = some t := by
  cases h with
  | begins starts => exact Or.inl (proper.starts_lt starts fun a => proper.after_terminal)
  | inherits _ => exact Or.inr rfl

def closureIds (rules : Rules) (map : ItemMap) : Finset Nat :=
  Finset.range rules.terminalCount ∪ (map.entries.flatMap fun entry => entry.2.ids).toFinset

/-- What prediction can add: a production with the dot in front, and lookaheads for it. -/
def closureFacts (rules : Rules) (map : ItemMap) : Finset (Nat × Option Nat) :=
  Finset.range rules.productions.size ×ˢ (rules.closureIds map).insertNone

theorem card_closureFacts (map : ItemMap) :
    (rules.closureFacts map).card < rules.closureBound map := by
  have ids : (rules.closureIds map).card ≤
      rules.terminalCount + (map.entries.flatMap fun entry => entry.2.ids).length := by
    refine (Finset.card_union_le _ _).trans ?_
    rw [Finset.card_range]
    exact Nat.add_le_add_left (List.toFinset_card_le _) _
  rw [closureFacts, Finset.card_product, Finset.card_range, Finset.card_insertNone]
  exact Nat.lt_succ_of_le (Nat.mul_le_mul_left _ (Nat.succ_le_succ ids))

theorem Proper.mem_productionsOf_lt (proper : rules.Proper) {p n : Nat}
    (h : p ∈ rules.productionsOf n) : p < rules.productions.size := by
  obtain ⟨rhs, rule⟩ := proper.filed.1 h
  exact (Array.getElem?_eq_some_iff.1 rule).1

theorem closure_fixed (proper : rules.Proper) (map : ItemMap) :
    rules.predictRound (FirstFollow.ofRules rules)
        (rules.closure (FirstFollow.ofRules rules) map) =
      rules.closure (FirstFollow.ofRules rules) map := by
  have keeps : ∀ grown : ItemMap,
      (∀ item t, grown.Holds item (some t) → t ∈ rules.closureIds map) →
      ∀ item t, (rules.predictRound (FirstFollow.ofRules rules) grown).Holds item (some t) →
        t ∈ rules.closureIds map := by
    intro grown known item t held
    rcases (predictRound_holds proper).1 held with old | ⟨source, look, _, _, held, _, _, _, hands⟩
    · exact known item t old
    · rcases proper.hands_lt hands with bound | rfl
      · exact Finset.mem_union_left _ (Finset.mem_range.2 bound)
      · exact known source t held
  refine stabilize_fixed
    (P := fun grown : ItemMap => ∀ item t, grown.Holds item (some t) → t ∈ rules.closureIds map)
    (fun grown => (rules.closureFacts map).filter fun fact => grown.Holds ⟨fact.1, 0⟩ fact.2)
    (rules.closureFacts map) keeps ?_ ?_ ?_ ?_ ?_
  · intro grown _
    exact Finset.filter_subset _ _
  · intro grown _ fact member
    rw [Finset.mem_filter] at member ⊢
    exact ⟨member.1, (predictRound_holds proper).2 (Or.inl member.2)⟩
  · intro grown known same
    apply ItemMap.ext_holds
    intro item handed
    refine ⟨fun held => ?_, fun held => (predictRound_holds proper).2 (Or.inl held)⟩
    rcases (predictRound_holds proper).1 held with old | ⟨_, _, n, p, _, _, member, rfl, _⟩
    · exact old
    · have inside : (p, handed) ∈ rules.closureFacts map := by
        refine Finset.mem_product.2 ⟨?_, Finset.mem_insertNone.2 ?_⟩
        · exact Finset.mem_range.2 (proper.mem_productionsOf_lt member)
        · intro t shown
          obtain rfl := Option.mem_def.1 shown
          exact keeps grown known _ t held
      have fact := Finset.ext_iff.1 same (p, handed)
      simp only [Finset.mem_filter, inside, true_and] at fact
      exact fact.1 held
  · intro item t held
    obtain ⟨set, entry, shown⟩ := ItemMap.holds_iff_mem.1 held
    refine Finset.mem_union_right _ (List.mem_toFinset.2 ?_)
    exact List.mem_flatMap.2 ⟨(item, set), entry, shown⟩
  · have bound : (rules.closureFacts map).card < rules.closureBound map := card_closureFacts map
    omega

theorem closure_holds (proper : rules.Proper) {map : ItemMap} {item : Item} {look : Option Nat} :
    (rules.closure (FirstFollow.ofRules rules) map).Holds item look ↔
      rules.Predicted map item look := by
  constructor
  · have sound : ∀ item look, (rules.closure (FirstFollow.ofRules rules) map).Holds item look →
        rules.Predicted map item look := by
      refine stabilize_induction (P := fun grown : ItemMap => ∀ item look, grown.Holds item look →
        rules.Predicted map item look) ?_ _ fun _ _ => .held
      intro grown justified item look held
      rcases (predictRound_holds proper).1 held with
        old | ⟨source, _, n, p, earlier, next, member, rfl, hands⟩
      · exact justified item look old
      · exact .predict (justified source _ earlier) next member hands
    exact sound item look
  · intro predicted
    induction predicted with
    | held held =>
      refine stabilize_induction (P := fun grown : ItemMap => grown.Holds _ _) ?_ _ held
      intro grown old
      exact (predictRound_holds proper).2 (Or.inl old)
    | predict _ next member hands ih =>
      rw [← closure_fixed proper]
      exact (predictRound_holds proper).2 (Or.inr ⟨_, _, _, _, ih, next, member, rfl, hands⟩)

theorem kernel_keys_nodup (map : ItemMap) (symbol : Symbol Nat) :
    ((map.entries.filterMap fun entry =>
      if rules.next entry.1 = some symbol then some (entry.1.advance, entry.2)
      else none).map Prod.fst).Nodup := by
  have items : (map.entries.map Prod.fst).Nodup := map.keys_nodup
  have advanced : ((map.entries.map Prod.fst).filterMap fun item =>
      if rules.next item = some symbol then some item.advance else none).Nodup := by
    refine items.filterMap ?_
    intro a b c ha hb
    simp only [Option.mem_def, Option.ite_none_right_eq_some, Option.some.injEq] at ha hb
    have same := ha.2.trans hb.2.symm
    simp only [Item.advance, Item.mk.injEq] at same
    cases a
    cases b
    simp_all
  rw [List.filterMap_map] at advanced
  rw [List.map_filterMap]
  convert advanced using 2
  rename_i entry _
  by_cases next : rules.next entry.1 = some symbol <;> simp [next]

theorem kernel_holds {map : ItemMap} {symbol : Symbol Nat} {item : Item} {look : Option Nat} :
    (rules.kernel map symbol).Holds item look ↔
      ∃ source, map.Holds source look ∧ rules.next source = some symbol ∧
        item = source.advance := by
  unfold kernel
  rw [ItemMap.holds_ofList (kernel_keys_nodup map symbol)]
  simp only [List.mem_filterMap, Option.ite_none_right_eq_some, Option.some.injEq, Prod.mk.injEq,
    Prod.exists, ItemMap.holds_iff_mem]
  constructor
  · rintro ⟨set, ⟨source, lookahead, entry, next, rfl, rfl⟩, shown⟩
    exact ⟨source, ⟨lookahead, entry, shown⟩, next, rfl⟩
  · rintro ⟨source, ⟨lookahead, entry, shown⟩, next, rfl⟩
    exact ⟨lookahead, ⟨source, lookahead, entry, next, rfl, rfl⟩, shown⟩

theorem mem_relevantSymbols {items : List Item} {symbol : Symbol Nat} :
    symbol ∈ rules.relevantSymbols items ↔
      symbol ≠ .terminal rules.eof ∧ ∃ item ∈ items, rules.next item = some symbol := by
  have fold : ∀ (symbols acc : List (Symbol Nat)), symbol ∈ symbols.foldl
      (fun kept next => if next = .terminal rules.eof then kept else insertAscending next kept)
        acc ↔ symbol ∈ acc ∨ symbol ≠ .terminal rules.eof ∧ symbol ∈ symbols := by
    intro symbols
    induction symbols with
    | nil => simp
    | cons next rest ih =>
      intro acc
      rw [List.foldl_cons, ih]
      by_cases last : next = .terminal rules.eof
      · simp only [last, ↓reduceIte, List.mem_cons]
        grind
      · simp only [last, ↓reduceIte, mem_insertAscending, List.mem_cons]
        grind
  unfold relevantSymbols
  rw [fold]
  simp [List.mem_filterMap]

theorem relevantSymbols_ascending (items : List Item) :
    Ascending (rules.relevantSymbols items) := by
  unfold relevantSymbols
  refine List.foldlRecOn _ _ List.Pairwise.nil ?_
  intro kept ascending symbol _
  split
  · exact ascending
  · exact insertAscending_ascending Symbol.lt_trans Symbol.lt_connected ascending

theorem relevantSymbols_nodup (items : List Item) : (rules.relevantSymbols items).Nodup := by
  refine (relevantSymbols_ascending items).imp ?_
  intro a b before same
  exact Symbol.lt_irrefl (same ▸ before)

end Rules

end CanonicalLR
