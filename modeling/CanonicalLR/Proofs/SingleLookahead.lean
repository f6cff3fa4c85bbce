import CanonicalLR.Proofs.Bounds
import CanonicalLR.Proofs.LeastClosure
import CanonicalLR.Proofs.Rightmost
import CanonicalLR.Proofs.Sums
/-
Sets of lookaheads against single lookaheads. Closing a map gives at least what comes of closing its
items with one lookahead at a time, and no more than that as long as no item predicts without a
lookahead. Only a string that neither vanishes nor begins with a terminal leaves an item without
one, and there is no such string where all non-terminals derive words.
-/
namespace CanonicalLR

def ItemMap.pairs (map : ItemMap) : Set (Item × Nat) :=
  {pair | ∃ set, map.get? pair.1 = some set ∧ pair.2 ∈ set}

theorem ItemMap.mem_pairs {map : ItemMap} {item : Item} {t : Nat} :
    (item, t) ∈ map.pairs ↔ map.Holds item (some t) := Iff.rfl

theorem IdSet.exists_mem {set : IdSet} (filled : set ≠ ∅) : ∃ id, id ∈ set := by
  by_contra none
  apply filled
  apply IdSet.ext
  intro id
  exact iff_of_false (fun member => none ⟨id, member⟩) (IdSet.not_mem_empty id)

/-- The string neither vanishes nor begins with a terminal. -/
def FirstFollow.Stuck (sets : FirstFollow) (symbols : List (Symbol Nat)) : Prop :=
  sets.firstOfSequence symbols = (∅, false)

theorem FirstFollow.mem_firstOfSequence_terminal {sets : FirstFollow} {symbols : List (Symbol Nat)}
    {t u : Nat} : u ∈ (sets.firstOfSequence (symbols ++ [.terminal t])).1 ↔
      u ∈ (sets.firstOfSequence symbols).1 ∨
        (sets.firstOfSequence symbols).2 = true ∧ u = t := by
  unfold firstOfSequence
  induction symbols with
  | nil => simp [firstOfString]
  | cons symbol rest ih =>
    cases symbol with
    | terminal a => simp [firstOfString]
    | nonterminal n =>
      simp only [List.cons_append, firstOfString]
      split
      · simp only [IdSet.mem_union, ih, or_assoc]
      · simp

theorem FirstFollow.begins_of_not_stuck {sets : FirstFollow} {symbols : List (Symbol Nat)}
    (free : ¬ sets.Stuck symbols) (t : Nat) :
    ∃ u, u ∈ (sets.firstOfSequence (symbols ++ [.terminal t])).1 := by
  by_cases vanishes : (sets.firstOfSequence symbols).2 = true
  · exact ⟨t, mem_firstOfSequence_terminal.2 (Or.inr ⟨vanishes, rfl⟩)⟩
  · have filled : (sets.firstOfSequence symbols).1 ≠ ∅ := by
      intro empty
      apply free
      exact Prod.ext empty (Bool.eq_false_iff.2 vanishes)
    obtain ⟨u, begins⟩ := IdSet.exists_mem filled
    exact ⟨u, mem_firstOfSequence_terminal.2 (Or.inl begins)⟩

namespace Rules

/-- Closed under prediction with one lookahead at a time: an item with a lookahead predicts with
whatever may begin the rest of its right side followed by that lookahead. -/
def ClosedSingly (rules : Rules) (sets : FirstFollow) (pairs : Set (Item × Nat)) : Prop :=
  ∀ ⦃p lhs n q t u : Nat⦄ ⦃before behind rhs : List (Symbol Nat)⦄,
    rules.productions[p]? = some ⟨lhs, before ++ .nonterminal n :: behind⟩ →
    (⟨p, before.length⟩, t) ∈ pairs → rules.productions[q]? = some ⟨n, rhs⟩ →
    u ∈ (sets.firstOfSequence (behind ++ [.terminal t])).1 → (⟨q, 0⟩, u) ∈ pairs

def closureSingly (rules : Rules) (sets : FirstFollow) (pairs : Set (Item × Nat)) :
    Set (Item × Nat) :=
  ⋂₀ {larger | pairs ⊆ larger ∧ rules.ClosedSingly sets larger}

def Predicts (rules : Rules) (source item : Item) : Prop :=
  ∃ n p, rules.next source = some (.nonterminal n) ∧ p ∈ rules.productionsOf n ∧ item = ⟨p, 0⟩

def Attended (rules : Rules) (items : List Item) (pairs : Set (Item × Nat)) : Prop :=
  ∀ ⦃item : Item⦄ ⦃n : Nat⦄, item ∈ items → rules.next item = some (.nonterminal n) →
    ∃ t, (item, t) ∈ pairs

def Unstuck (rules : Rules) (sets : FirstFollow) (items : List Item) : Prop :=
  ∀ ⦃item : Item⦄ ⦃n : Nat⦄, item ∈ items → rules.next item = some (.nonterminal n) →
    ¬ sets.Stuck (rules.after item)

variable {rules : Rules} {sets : FirstFollow} {map : ItemMap} {pairs : Set (Item × Nat)}

theorem closureSingly_isLeast (rules : Rules) (sets : FirstFollow) (pairs : Set (Item × Nat)) :
    IsLeast {larger | pairs ⊆ larger ∧ rules.ClosedSingly sets larger}
      (rules.closureSingly sets pairs) := by
  refine ⟨⟨?_, ?_⟩, ?_⟩
  · intro pair shown larger ⟨covers, _⟩
    exact covers shown
  · intro p lhs n q t u before behind rhs rule known predicted begins larger member
    exact member.2 rule (known larger member) predicted begins
  · intro larger member
    exact Set.sInter_subset_of_mem member

theorem ClosedSingly.hands (closed : rules.ClosedSingly sets pairs) (proper : rules.Proper)
    {item : Item} {n p t u : Nat} (known : (item, t) ∈ pairs)
    (next : rules.next item = some (.nonterminal n)) (member : p ∈ rules.productionsOf n)
    (begins : u ∈ (sets.firstOfSequence (rules.after item ++ [.terminal t])).1) :
    (⟨p, 0⟩, u) ∈ pairs := by
  obtain ⟨lhs, before, rule, split⟩ := rule_split next
  obtain ⟨rhs, predicted⟩ := proper.filed.1 member
  rw [split] at known
  exact closed rule known predicted begins

theorem Closed.singly (closed : rules.Closed sets map) : rules.ClosedSingly sets map.pairs := by
  intro p lhs n q t u before behind rhs rule ⟨set, found, member⟩ predicted begins
  obtain ⟨grown, there, starts, inherits⟩ := closed rule found predicted
  refine ⟨grown, there, ?_⟩
  rcases FirstFollow.mem_firstOfSequence_terminal.1 begins with own | ⟨vanishes, same⟩
  · exact starts u own
  · exact inherits vanishes u (same ▸ member)

theorem closureSingly_subset (proper : rules.Proper) (map : ItemMap) :
    rules.closureSingly (FirstFollow.ofRules rules) map.pairs ⊆
      (rules.closure (FirstFollow.ofRules rules) map).pairs := by
  apply (closureSingly_isLeast rules _ map.pairs).2
  refine ⟨?_, (closure_closed proper map).singly⟩
  intro ⟨item, t⟩ shown
  exact ItemMap.le_iff_holds.1 (le_closure proper map) item (some t) shown

theorem Predicted.path {item : Item} {look : Option Nat} (h : rules.Predicted map item look) :
    ∃ source ∈ map.items, Relation.ReflTransGen rules.Predicts source item := by
  induction h with
  | held held => exact ⟨_, held.mem_items, .refl⟩
  | predict _ next member _ ih =>
    obtain ⟨source, present, path⟩ := ih
    exact ⟨source, present, path.tail ⟨_, _, next, member, rfl⟩⟩

theorem mem_closure_items (proper : rules.Proper) {item : Item} :
    item ∈ (rules.closure (FirstFollow.ofRules rules) map).items ↔
      ∃ source ∈ map.items, Relation.ReflTransGen rules.Predicts source item := by
  rw [ItemMap.mem_items, closure_holds proper]
  constructor
  · exact Predicted.path
  · intro ⟨source, present, path⟩
    induction path with
    | refl => exact .held (ItemMap.mem_items.1 present)
    | tail _ step ih =>
      obtain ⟨n, p, next, member, rfl⟩ := step
      exact .predict ih next member .present

theorem Predicted.fed (proper : rules.Proper) (covers : map.pairs ⊆ pairs)
    (closed : rules.ClosedSingly (FirstFollow.ofRules rules) pairs)
    (attended : rules.Attended map.items map.pairs)
    (unstuck : rules.Unstuck (FirstFollow.ofRules rules)
      (rules.closure (FirstFollow.ofRules rules) map).items)
    {item : Item} {look : Option Nat} (h : rules.Predicted map item look)
    (waits : item ∉ map.items ∨ ∃ n, rules.next item = some (.nonterminal n)) :
    ∃ t, (item, t) ∈ pairs := by
  induction h with
  | held held =>
    rcases waits with absent | ⟨n, next⟩
    · exact absurd held.mem_items absent
    · obtain ⟨t, shown⟩ := attended held.mem_items next
      exact ⟨t, covers shown⟩
  | predict source next member _ ih =>
    obtain ⟨t, known⟩ := ih (Or.inr ⟨_, next⟩)
    have present := ((closure_holds proper).2 source).mem_items
    obtain ⟨u, begins⟩ := FirstFollow.begins_of_not_stuck (unstuck present next) t
    exact ⟨u, closed.hands proper known next member begins⟩

/-- Where every item that predicts has a lookahead, all that is handed on comes of some single
lookahead: what begins the rest comes of any of them. -/
theorem Predicted.singly (proper : rules.Proper) (covers : map.pairs ⊆ pairs)
    (closed : rules.ClosedSingly (FirstFollow.ofRules rules) pairs)
    (attended : rules.Attended (rules.closure (FirstFollow.ofRules rules) map).items pairs)
    {item : Item} {look : Option Nat} (h : rules.Predicted map item look) :
    ∀ t, look = some t → (item, t) ∈ pairs := by
  induction h with
  | held held =>
    rintro t rfl
    exact covers held
  | predict source next member hands ih =>
    intro u same
    cases hands with
    | present => contradiction
    | begins starts =>
      obtain rfl := Option.some.inj same
      have present := ((closure_holds proper).2 source).mem_items
      obtain ⟨t, known⟩ := attended present next
      have begins := (mem_firstOfSequence proper).2 starts
      exact closed.hands proper known next member
        (FirstFollow.mem_firstOfSequence_terminal.2 (Or.inl begins))
    | inherits gone =>
      obtain rfl := Option.some.inj same
      have vanishes := (firstOfSequence_vanishes proper).2 gone
      exact closed.hands proper (ih _ rfl) next member
        (FirstFollow.mem_firstOfSequence_terminal.2 (Or.inr ⟨vanishes, rfl⟩))

theorem closure_pairs_eq (proper : rules.Proper)
    (attended : rules.Attended (rules.closure (FirstFollow.ofRules rules) map).items
      (rules.closureSingly (FirstFollow.ofRules rules) map.pairs)) :
    (rules.closure (FirstFollow.ofRules rules) map).pairs =
      rules.closureSingly (FirstFollow.ofRules rules) map.pairs := by
  obtain ⟨⟨covers, closed⟩, _⟩ :=
    closureSingly_isLeast rules (FirstFollow.ofRules rules) map.pairs
  apply Set.Subset.antisymm
  · intro ⟨item, t⟩ shown
    have predicted := (closure_holds proper).1 (ItemMap.mem_pairs.1 shown)
    exact predicted.singly proper covers closed attended t rfl
  · exact closureSingly_subset proper map

theorem exists_lookahead (proper : rules.Proper) (attended : rules.Attended map.items map.pairs)
    (unstuck : rules.Unstuck (FirstFollow.ofRules rules)
      (rules.closure (FirstFollow.ofRules rules) map).items) (item : Item)
    (member : item ∈ (rules.closure (FirstFollow.ofRules rules) map).items)
    (waits : item ∉ map.items ∨ ∃ n, rules.next item = some (.nonterminal n)) :
    ∃ t, (item, t) ∈ rules.closureSingly (FirstFollow.ofRules rules) map.pairs := by
  obtain ⟨⟨covers, closed⟩, _⟩ :=
    closureSingly_isLeast rules (FirstFollow.ofRules rules) map.pairs
  have predicted := (closure_holds proper).1 (ItemMap.mem_items.1 member)
  exact predicted.fed proper covers closed attended unstuck waits

theorem Proper.unstuck_of_words (proper : rules.Proper)
    (words : ∀ n < rules.nonterminalCount,
      ∃ word : List Nat, Derives rules.productions [.nonterminal n] (word.map .terminal))
    (items : List Item) : rules.Unstuck (FirstFollow.ofRules rules) items := by
  intro item n _ _ stuck
  have made : ∃ word calls, Generates rules.productions (rules.after item) word calls := by
    apply Generates.of_each
    intro symbol member
    have known := proper.after_known item symbol member
    cases symbol with
    | terminal t => exact ⟨[t], [], .terminal .nil⟩
    | nonterminal m =>
      obtain ⟨word, derives⟩ := words m known
      exact ⟨word, Generates.of_derives derives⟩
  obtain ⟨word, calls, made⟩ := made
  cases word with
  | nil =>
    have vanishes := (firstOfSequence_vanishes proper).2 ⟨calls, made⟩
    rw [stuck] at vanishes
    contradiction
  | cons t word =>
    have begins := (mem_firstOfSequence proper).2 (made.starts rfl)
    rw [stuck] at begins
    exact absurd begins (IdSet.not_mem_empty t)

end Rules

variable {τ υ : Type} [DecidableEq τ] [Fingerprint τ] [Spelling τ] {eof : τ}
  {calls : List (Registration τ υ)} {frozen : FrozenGrammar τ υ}

/-- Closing with sets of lookaheads covers closing with one lookahead at a time, and it reaches the
items that predictions lead to. The two agree where each item that predicts has a lookahead of its
own; so they do, and each new item has a lookahead, if this is so in the map and no item reached
waits in front of a stuck string, as is the case where all non-terminals derive words. -/
theorem closure_singly (froze : (Grammar.assemble eof calls).freeze = .ok frozen) (map : ItemMap) :
    IsLeast {larger | map.pairs ⊆ larger ∧
        frozen.rules.ClosedSingly (FirstFollow.ofRules frozen.rules) larger}
      (frozen.rules.closureSingly (FirstFollow.ofRules frozen.rules) map.pairs) ∧
    frozen.rules.closureSingly (FirstFollow.ofRules frozen.rules) map.pairs ⊆
      (frozen.rules.closure (FirstFollow.ofRules frozen.rules) map).pairs ∧
    (∀ item, item ∈ (frozen.rules.closure (FirstFollow.ofRules frozen.rules) map).items ↔
      ∃ source ∈ map.items, Relation.ReflTransGen frozen.rules.Predicts source item) ∧
    (frozen.rules.Attended (frozen.rules.closure (FirstFollow.ofRules frozen.rules) map).items
        (frozen.rules.closureSingly (FirstFollow.ofRules frozen.rules) map.pairs) →
      (frozen.rules.closure (FirstFollow.ofRules frozen.rules) map).pairs =
        frozen.rules.closureSingly (FirstFollow.ofRules frozen.rules) map.pairs) ∧
    (frozen.rules.Attended map.items map.pairs →
      frozen.rules.Unstuck (FirstFollow.ofRules frozen.rules)
        (frozen.rules.closure (FirstFollow.ofRules frozen.rules) map).items →
      (frozen.rules.closure (FirstFollow.ofRules frozen.rules) map).pairs =
        frozen.rules.closureSingly (FirstFollow.ofRules frozen.rules) map.pairs ∧
      ∀ item ∈ (frozen.rules.closure (FirstFollow.ofRules frozen.rules) map).items,
        item ∉ map.items →
        ∃ t, (item, t) ∈ (frozen.rules.closure (FirstFollow.ofRules frozen.rules) map).pairs) ∧
    ((∀ n < frozen.rules.nonterminalCount, ∃ word : List Nat,
        Derives frozen.rules.productions [.nonterminal n] (word.map .terminal)) →
      ∀ items, frozen.rules.Unstuck (FirstFollow.ofRules frozen.rules) items) := by
  have proper := Grammar.freeze_proper froze
  refine ⟨Rules.closureSingly_isLeast _ _ _, Rules.closureSingly_subset proper map,
    fun item => Rules.mem_closure_items proper, Rules.closure_pairs_eq proper, ?_,
    proper.unstuck_of_words⟩
  intro attended unstuck
  have fed := Rules.exists_lookahead proper attended unstuck
  have same := Rules.closure_pairs_eq proper fun item n member next =>
    fed item member (Or.inr ⟨n, next⟩)
  refine ⟨same, ?_⟩
  intro item member new
  rw [same]
  exact fed item member (Or.inl new)

theorem closure_singly_midway : ∃ frozen,
    (Grammar.assemble "$" nested).freeze = .ok frozen ∧
    (∀ n < frozen.rules.nonterminalCount, ∃ word : List Nat,
      Derives frozen.rules.productions [.nonterminal n] (word.map .terminal)) ∧
    frozen.rules.Attended (midway (IdSet.singleton 0)).items (midway (IdSet.singleton 0)).pairs ∧
    (frozen.rules.closure (FirstFollow.ofRules frozen.rules) (midway (IdSet.singleton 0))).items =
      [⟨0, 0⟩, ⟨0, 1⟩, ⟨1, 0⟩] ∧
    (⟨1, 0⟩, 2) ∈ frozen.rules.closureSingly (FirstFollow.ofRules frozen.rules)
      (midway (IdSet.singleton 0)).pairs ∧
    (frozen.rules.closure (FirstFollow.ofRules frozen.rules) (midway (IdSet.singleton 0))).pairs =
      frozen.rules.closureSingly (FirstFollow.ofRules frozen.rules)
        (midway (IdSet.singleton 0)).pairs := by
  obtain ⟨frozen, froze, empty, goal, count, items, found⟩ : ∃ frozen,
      (Grammar.assemble "$" nested).freeze = .ok frozen ∧
      frozen.rules.productions[1]? = some ⟨0, []⟩ ∧
      frozen.rules.productions[2]? = some ⟨1, [.nonterminal 0, .terminal 0]⟩ ∧
      frozen.rules.nonterminalCount = 2 ∧
      (frozen.rules.closure (FirstFollow.ofRules frozen.rules)
        (midway (IdSet.singleton 0))).items = [⟨0, 0⟩, ⟨0, 1⟩, ⟨1, 0⟩] ∧
      (frozen.rules.closure (FirstFollow.ofRules frozen.rules)
        (midway (IdSet.singleton 0))).get? ⟨1, 0⟩ = some (IdSet.singleton 2) :=
    exists_ok (by decide +kernel)
  have words : ∀ n < frozen.rules.nonterminalCount, ∃ word : List Nat,
      Derives frozen.rules.productions [.nonterminal n] (word.map .terminal) := by
    intro n small
    have vanishes : Derives frozen.rules.productions [.nonterminal 0] [] := .single empty
    obtain rfl | rfl : n = 0 ∨ n = 1 := by omega
    · exact ⟨[], vanishes⟩
    · exact ⟨[0], (Derives.single goal).trans (vanishes.context [] [.terminal 0])⟩
  have attended : frozen.rules.Attended (midway (IdSet.singleton 0)).items
      (midway (IdSet.singleton 0)).pairs := by
    intro item n member _
    obtain rfl : item = ⟨0, 1⟩ := List.mem_singleton.1 member
    exact ⟨0, IdSet.singleton 0, rfl, by simp⟩
  obtain ⟨_, _, _, _, agree, unstuck⟩ := closure_singly froze (midway (IdSet.singleton 0))
  have same := (agree attended (unstuck words _)).1
  refine ⟨frozen, froze, words, attended, items, ?_, same⟩
  rw [← same]
  exact ⟨_, found, by simp⟩

/-- `S ::= A B`, `A ::= C x`, `C ::= c`, where `B` has no productions. -/
def stranded : List (Registration String Nat) :=
  [.nonterminal "S", .nonterminal "A", .nonterminal "B", .nonterminal "C",
    .production 0 [.nonterminal 1, .nonterminal 2] fun _ => 0,
    .production 1 [.nonterminal 3, .terminal "x"] fun _ => 0,
    .production 3 [.terminal "c"] fun _ => 0]

theorem stranded_closedSingly {rules : Rules} {sets : FirstFollow}
    (productions : rules.productions = #[⟨0, [.nonterminal 1, .nonterminal 2]⟩,
      ⟨1, [.nonterminal 3, .terminal 1]⟩, ⟨3, [.terminal 2]⟩, ⟨4, [.nonterminal 0, .terminal 0]⟩])
    (stuck : sets.Stuck [.nonterminal 2]) :
    rules.ClosedSingly sets {pair | pair.1.production = 0 ∨ pair.1.production = 3} := by
  intro p lhs n q t u before behind rhs rule known predicted begins
  rw [productions] at rule predicted
  have targets : q = 0 ∧ n = 0 ∨ n = 1 ∨ n = 3 ∨ n = 4 := by
    have inside : q < 4 := (Array.getElem?_eq_some_iff.1 predicted).1
    obtain rfl | rfl | rfl | rfl : q = 0 ∨ q = 1 ∨ q = 2 ∨ q = 3 := by omega
    all_goals simp at predicted; omega
  rcases known with rfl | rfl
  · rcases before with _ | ⟨a, _ | ⟨b, before⟩⟩
    · obtain ⟨_, _, rfl⟩ : 0 = lhs ∧ 1 = n ∧ [.nonterminal 2] = behind := by simpa using rule
      rw [FirstFollow.mem_firstOfSequence_terminal, stuck] at begins
      simp at begins
    · -- the dot is in front of `B`, which has no productions
      obtain ⟨_, _, same, _⟩ : 0 = lhs ∧ .nonterminal 1 = a ∧ 2 = n ∧ [] = behind := by
        simpa using rule
      omega
    · simp at rule
  · rcases before with _ | ⟨a, _ | ⟨b, before⟩⟩
    · obtain ⟨_, same, _⟩ : 4 = lhs ∧ 0 = n ∧ [.terminal 0] = behind := by simpa using rule
      exact Or.inl (show q = 0 by omega)
    · simp at rule
    · simp at rule

/-- An item left without a lookahead still predicts, and with what may begin the rest of its right
side: closing one lookahead at a time gives less, and the item itself is new. -/
theorem closure_beyond_single :
    (∃ frozen, (Grammar.assemble "$" stranded).freeze = .ok frozen ∧
      (⟨2, 0⟩, 1) ∈
        (frozen.rules.closure (FirstFollow.ofRules frozen.rules) frozen.rules.seed).pairs ∧
      (⟨2, 0⟩, 1) ∉ frozen.rules.closureSingly (FirstFollow.ofRules frozen.rules)
        frozen.rules.seed.pairs ∧
      ⟨1, 0⟩ ∈ (frozen.rules.closure (FirstFollow.ofRules frozen.rules) frozen.rules.seed).items ∧
      ⟨1, 0⟩ ∉ frozen.rules.seed.items ∧
      ∀ t, (⟨1, 0⟩, t) ∉
        (frozen.rules.closure (FirstFollow.ofRules frozen.rules) frozen.rules.seed).pairs) ∧
    ∃ frozen, (Grammar.assemble "$" nested).freeze = .ok frozen ∧
      (⟨0, 0⟩, 2) ∈ (frozen.rules.closure (FirstFollow.ofRules frozen.rules) (midway ∅)).pairs ∧
      frozen.rules.closureSingly (FirstFollow.ofRules frozen.rules) (midway ∅).pairs = ∅ := by
  constructor
  · obtain ⟨frozen, froze, productions, stuck, goal, handed, alone⟩ : ∃ frozen,
        (Grammar.assemble "$" stranded).freeze = .ok frozen ∧
        frozen.rules.productions = #[⟨0, [.nonterminal 1, .nonterminal 2]⟩,
          ⟨1, [.nonterminal 3, .terminal 1]⟩, ⟨3, [.terminal 2]⟩,
          ⟨4, [.nonterminal 0, .terminal 0]⟩] ∧
        (FirstFollow.ofRules frozen.rules).firstOfSequence [.nonterminal 2] = (∅, false) ∧
        frozen.rules.seed.items = [⟨3, 0⟩] ∧
        (frozen.rules.closure (FirstFollow.ofRules frozen.rules) frozen.rules.seed).get? ⟨2, 0⟩ =
          some (IdSet.singleton 1) ∧
        (frozen.rules.closure (FirstFollow.ofRules frozen.rules) frozen.rules.seed).get? ⟨1, 0⟩ =
          some ∅ :=
      exists_ok (by decide +kernel)
    have least := (Rules.closureSingly_isLeast frozen.rules (FirstFollow.ofRules frozen.rules)
      frozen.rules.seed.pairs).2
    refine ⟨frozen, froze, ⟨_, handed, by simp⟩, ?_, ?_, by simp [goal], ?_⟩
    · intro known
      have covers : frozen.rules.seed.pairs ⊆
          {pair | pair.1.production = 0 ∨ pair.1.production = 3} := by
        intro ⟨item, t⟩ shown
        have member := (ItemMap.mem_pairs.1 shown).mem_items
        rw [goal, List.mem_singleton] at member
        exact Or.inr (congrArg Item.production member)
      have absent := least ⟨covers, stranded_closedSingly productions stuck⟩ known
      simp at absent
    · exact ItemMap.mem_items.2 ⟨_, alone, trivial⟩
    · intro t ⟨set, found, member⟩
      rw [alone] at found
      obtain rfl := Option.some.inj found
      exact IdSet.not_mem_empty t member
  · obtain ⟨frozen, froze, handed⟩ : ∃ frozen,
        (Grammar.assemble "$" nested).freeze = .ok frozen ∧
        (frozen.rules.closure (FirstFollow.ofRules frozen.rules) (midway ∅)).get? ⟨0, 0⟩ =
          some (IdSet.singleton 2) :=
      exists_ok (by decide +kernel)
    have nothing : (midway ∅).pairs ⊆ ∅ := by
      intro ⟨item, t⟩ ⟨set, found, member⟩
      have held : (midway ∅).Holds item none := ⟨set, found, trivial⟩
      obtain rfl : item = ⟨0, 1⟩ := List.mem_singleton.1 held.mem_items
      obtain rfl := Option.some.inj found
      exact IdSet.not_mem_empty t member
    have closed : frozen.rules.ClosedSingly (FirstFollow.ofRules frozen.rules) ∅ := by
      intro p lhs n q t u before behind rhs _ known
      exact absurd known (Set.notMem_empty _)
    have least := (Rules.closureSingly_isLeast frozen.rules (FirstFollow.ofRules frozen.rules)
      (midway ∅).pairs).2 ⟨nothing, closed⟩
    exact ⟨frozen, froze, ⟨_, handed, by simp⟩, Set.subset_empty_iff.1 least⟩

end CanonicalLR
