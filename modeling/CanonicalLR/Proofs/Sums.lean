import CanonicalLR.Proofs.LeastClosure
import Mathlib.Data.Option.NAry
import Mathlib.Order.Lattice
/-
Sums of item maps. The sum of two maps has the items of both, each with the lookaheads it has in
either, and is the least map above the two. Prediction looks at one item with at most one of its
lookaheads at a time, and items that advance over one symbol stay apart; so closures and steps of a
sum are the sums of those of its parts.
-/
namespace CanonicalLR

namespace ItemMap

def sum (a b : ItemMap) : ItemMap :=
  b.entries.foldl (fun grown entry => grown.join entry.1 entry.2) a

theorem holds_sum {a b : ItemMap} {item : Item} {look : Option Nat} :
    (a.sum b).Holds item look ↔ a.Holds item look ∨ b.Holds item look := by
  unfold sum
  rw [holds_foldl_join, ← holds_iff_mem]

theorem get?_sum (a b : ItemMap) (item : Item) :
    (a.sum b).get? item = (a.get? item).merge (· ∪ ·) (b.get? item) := by
  apply get?_eq_of_holds
  intro look
  rw [holds_sum]
  unfold Holds
  cases a.get? item with
  | none => cases b.get? item <;> simp
  | some set => cases b.get? item <;> simp [IdSet.shows_union]

instance : SemilatticeSup ItemMap where
  sup := sum
  le_sup_left a b := by
    rw [le_iff_holds]
    intro item look held
    exact holds_sum.2 (Or.inl held)
  le_sup_right a b := by
    rw [le_iff_holds]
    intro item look held
    exact holds_sum.2 (Or.inr held)
  sup_le a b c first second := by
    rw [le_iff_holds] at first second ⊢
    intro item look held
    rcases holds_sum.1 held with left | right
    · exact first item look left
    · exact second item look right

theorem holds_sup {a b : ItemMap} {item : Item} {look : Option Nat} :
    (a ⊔ b).Holds item look ↔ a.Holds item look ∨ b.Holds item look :=
  holds_sum

theorem mem_items_sup {a b : ItemMap} {item : Item} :
    item ∈ (a ⊔ b).items ↔ item ∈ a.items ∨ item ∈ b.items := by
  rw [mem_items, mem_items, mem_items, holds_sup]

end ItemMap

namespace Rules

variable {rules : Rules} {a b : ItemMap}

theorem Predicted.mono (below : a ≤ b) {item : Item} {look : Option Nat}
    (h : rules.Predicted a item look) : rules.Predicted b item look := by
  rw [ItemMap.le_iff_holds] at below
  induction h with
  | held held => exact .held (below _ _ held)
  | predict _ next member hands ih => exact .predict ih next member hands

/-- Every prediction goes back to one fact of the map, which one of the parts has. -/
theorem predicted_sup {item : Item} {look : Option Nat} :
    rules.Predicted (a ⊔ b) item look ↔
      rules.Predicted a item look ∨ rules.Predicted b item look := by
  constructor
  · intro predicted
    induction predicted with
    | held held =>
      rcases ItemMap.holds_sup.1 held with left | right
      · exact Or.inl (.held left)
      · exact Or.inr (.held right)
    | predict _ next member hands ih =>
      rcases ih with left | right
      · exact Or.inl (.predict left next member hands)
      · exact Or.inr (.predict right next member hands)
  · intro predicted
    rcases predicted with left | right
    · exact left.mono le_sup_left
    · exact right.mono le_sup_right

theorem closure_sup (proper : rules.Proper) (a b : ItemMap) :
    rules.closure (FirstFollow.ofRules rules) (a ⊔ b) =
      rules.closure (FirstFollow.ofRules rules) a ⊔
        rules.closure (FirstFollow.ofRules rules) b := by
  apply ItemMap.ext_holds
  intro item look
  rw [ItemMap.holds_sup, closure_holds proper, closure_holds proper, closure_holds proper,
    predicted_sup]

theorem kernel_sup (a b : ItemMap) (symbol : Symbol Nat) :
    rules.kernel (a ⊔ b) symbol = rules.kernel a symbol ⊔ rules.kernel b symbol := by
  apply ItemMap.ext_holds
  intro item look
  rw [ItemMap.holds_sup, kernel_holds, kernel_holds, kernel_holds]
  simp only [ItemMap.holds_sup, or_and_right, exists_or]

theorem goto_sup (proper : rules.Proper) (a b : ItemMap) (symbol : Symbol Nat) :
    rules.goto (FirstFollow.ofRules rules) (a ⊔ b) symbol =
      rules.goto (FirstFollow.ofRules rules) a symbol ⊔
        rules.goto (FirstFollow.ofRules rules) b symbol := by
  unfold goto
  rw [kernel_sup, closure_sup proper]

theorem knows_sup (a b : ItemMap) :
    rules.knows (a ⊔ b).items = (rules.knows a.items && rules.knows b.items) := by
  rw [Bool.eq_iff_iff, Bool.and_eq_true]
  simp only [knows, List.all_eq_true, ItemMap.mem_items_sup]
  constructor
  · intro known
    constructor
    · intro item member
      exact known item (Or.inl member)
    · intro item member
      exact known item (Or.inr member)
  · intro ⟨left, right⟩ item member
    rcases member with first | second
    · exact left item first
    · exact right item second

theorem refused_sup {f : ItemMap → ItemMap} (additive : f (a ⊔ b) = f a ⊔ f b) :
    (if rules.knows (a ⊔ b).items then some (f (a ⊔ b)) else none) =
      Option.map₂ (· ⊔ ·) (if rules.knows a.items then some (f a) else none)
        (if rules.knows b.items then some (f b) else none) := by
  rw [knows_sup, additive]
  cases rules.knows a.items <;> cases rules.knows b.items <;> rfl

end Rules

variable {τ υ : Type} [DecidableEq τ] [Fingerprint τ] [Spelling τ] {eof : τ}
  {calls : List (Registration τ υ)} {frozen : FrozenGrammar τ υ}

/-- Closure and steps are additive in the item map, and a sum is refused if one of its parts is. -/
theorem closure_goto_additive (froze : (Grammar.assemble eof calls).freeze = .ok frozen)
    (a b : ItemMap) (symbol : Symbol Nat) :
    (∀ item, (a ⊔ b).get? item = (a.get? item).merge (· ∪ ·) (b.get? item)) ∧
    frozen.rules.closure (FirstFollow.ofRules frozen.rules) (a ⊔ b) =
      frozen.rules.closure (FirstFollow.ofRules frozen.rules) a ⊔
        frozen.rules.closure (FirstFollow.ofRules frozen.rules) b ∧
    frozen.rules.goto (FirstFollow.ofRules frozen.rules) (a ⊔ b) symbol =
      frozen.rules.goto (FirstFollow.ofRules frozen.rules) a symbol ⊔
        frozen.rules.goto (FirstFollow.ofRules frozen.rules) b symbol ∧
    frozen.rules.closure? (FirstFollow.ofRules frozen.rules) (a ⊔ b) =
      Option.map₂ (· ⊔ ·) (frozen.rules.closure? (FirstFollow.ofRules frozen.rules) a)
        (frozen.rules.closure? (FirstFollow.ofRules frozen.rules) b) ∧
    frozen.rules.goto? (FirstFollow.ofRules frozen.rules) (a ⊔ b) symbol =
      Option.map₂ (· ⊔ ·) (frozen.rules.goto? (FirstFollow.ofRules frozen.rules) a symbol)
        (frozen.rules.goto? (FirstFollow.ofRules frozen.rules) b symbol) := by
  have proper := Grammar.freeze_proper froze
  have closures := Rules.closure_sup proper a b
  have steps := Rules.goto_sup proper a b symbol
  exact ⟨ItemMap.get?_sum a b, closures, steps, Rules.refused_sup closures,
    Rules.refused_sup (f := fun map => Rules.goto _ _ map symbol) steps⟩

/-- One item of the first production, with the dot in front of its first symbol. -/
def opening (lookahead : TerminalSet) : ItemMap := ItemMap.empty.put ⟨0, 0⟩ lookahead

def midway (lookahead : TerminalSet) : ItemMap := ItemMap.empty.put ⟨0, 1⟩ lookahead

/-- Both productions are predicted in the closure, and again behind the step over a terminal. -/
theorem closure_goto_additive_midway : ∃ frozen,
    (Grammar.assemble "$" nested).freeze = .ok frozen ∧
    (frozen.rules.closure (FirstFollow.ofRules frozen.rules)
        (midway (IdSet.singleton 0) ⊔ midway (IdSet.singleton 2))).entries =
      [(⟨0, 0⟩, IdSet.singleton 2), (⟨0, 1⟩, IdSet.ofList [0, 2]), (⟨1, 0⟩, IdSet.singleton 2)] ∧
    (frozen.rules.goto (FirstFollow.ofRules frozen.rules)
        (opening (IdSet.singleton 0) ⊔ opening (IdSet.singleton 2)) (.terminal 1)).entries =
      [(⟨0, 0⟩, IdSet.singleton 2), (⟨0, 1⟩, IdSet.ofList [0, 2]), (⟨1, 0⟩, IdSet.singleton 2)] ∧
    frozen.rules.closure (FirstFollow.ofRules frozen.rules)
        (midway (IdSet.singleton 0) ⊔ midway (IdSet.singleton 2)) =
      frozen.rules.closure (FirstFollow.ofRules frozen.rules) (midway (IdSet.singleton 0)) ⊔
        frozen.rules.closure (FirstFollow.ofRules frozen.rules) (midway (IdSet.singleton 2)) ∧
    frozen.rules.goto (FirstFollow.ofRules frozen.rules)
        (opening (IdSet.singleton 0) ⊔ opening (IdSet.singleton 2)) (.terminal 1) =
      frozen.rules.goto (FirstFollow.ofRules frozen.rules) (opening (IdSet.singleton 0))
          (.terminal 1) ⊔
        frozen.rules.goto (FirstFollow.ofRules frozen.rules) (opening (IdSet.singleton 2))
          (.terminal 1) := by
  obtain ⟨frozen, froze, closed, reached⟩ : ∃ frozen,
      (Grammar.assemble "$" nested).freeze = .ok frozen ∧
      (frozen.rules.closure (FirstFollow.ofRules frozen.rules)
          (midway (IdSet.singleton 0) ⊔ midway (IdSet.singleton 2))).entries =
        [(⟨0, 0⟩, IdSet.singleton 2), (⟨0, 1⟩, IdSet.ofList [0, 2]),
          (⟨1, 0⟩, IdSet.singleton 2)] ∧
      (frozen.rules.goto (FirstFollow.ofRules frozen.rules)
          (opening (IdSet.singleton 0) ⊔ opening (IdSet.singleton 2)) (.terminal 1)).entries =
        [(⟨0, 0⟩, IdSet.singleton 2), (⟨0, 1⟩, IdSet.ofList [0, 2]),
          (⟨1, 0⟩, IdSet.singleton 2)] :=
    exists_ok (by decide +kernel)
  obtain ⟨_, closures, _⟩ := closure_goto_additive froze (midway (IdSet.singleton 0))
    (midway (IdSet.singleton 2)) (.terminal 1)
  obtain ⟨_, _, steps, _⟩ := closure_goto_additive froze (opening (IdSet.singleton 0))
    (opening (IdSet.singleton 2)) (.terminal 1)
  exact ⟨frozen, froze, closed, reached, closures, steps⟩

end CanonicalLR
