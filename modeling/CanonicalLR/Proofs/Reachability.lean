import CanonicalLR.Proofs.ViableItems
/-
Viable stacks and reachable states. The stacks on which some item is viable are those that paths of
the automaton spell, and every state of the collection lies at the end of a path.
-/
namespace CanonicalLR

namespace Rules

variable {rules : Rules}

theorem Viable.uncover {whole top stack : List (Symbol Nat)} {symbol : Symbol Nat} {item : Item}
    {look : Option Nat} (h : rules.Viable whole item look)
    (split : whole = top ++ symbol :: stack) :
    symbol ≠ .terminal rules.eof ∧
      ∃ source, rules.Viable stack source none ∧ rules.next source = some symbol := by
  induction h generalizing top with
  | seed => simp at split
  | advance source next inside ih =>
    cases top with
    | nil =>
      obtain ⟨rfl, rfl⟩ := List.cons.inj split
      exact ⟨inside, _, source.present, next⟩
    | cons x top => exact ih (List.cons.inj split).2
  | predict _ _ _ _ ih => exact ih split

/-- The map holds the items that are viable on the stack, of which there are some. -/
def Spells (rules : Rules) (stack : List (Symbol Nat)) (map : ItemMap) : Prop :=
  (∃ item, rules.Viable stack item none) ∧
    ∀ item look, map.Holds item look ↔ rules.Viable stack item look

namespace Collects

variable {automaton : Automaton}

theorem trail_exists (collects : rules.Collects automaton) (proper : rules.Proper)
    {stack : List (Symbol Nat)} {item : Item} {look : Option Nat}
    (viable : rules.Viable stack item look) : ∃ s below, automaton.Trail (s :: below) stack := by
  induction stack generalizing item look with
  | nil => exact ⟨_, _, .start⟩
  | cons symbol stack ih =>
    obtain ⟨inside, source, waiting, next⟩ := viable.uncover (List.nil_append _).symm
    obtain ⟨s, below, path⟩ := ih waiting
    obtain ⟨target, edge⟩ := path.extend collects proper waiting next inside
    exact ⟨target, s :: below, .step path edge⟩

end Collects

theorem Proper.spells_inherited (proper : rules.Proper) :
    rules.Inherited (FirstFollow.ofRules rules) fun map => ∃ stack, rules.Spells stack map := by
  rintro map symbol ⟨stack, _, holds⟩ relevant
  obtain ⟨inside, item, listed, next⟩ := mem_relevantSymbols.1 relevant
  have viable := (holds _ _).1 (ItemMap.mem_items.1 listed)
  exact ⟨symbol :: stack, ⟨_, viable.advance next inside⟩,
    fun item look => proper.goto_holds holds relevant⟩

theorem Proper.state_spells (proper : rules.Proper) (construction : Construction) {s : Nat}
    {map : ItemMap}
    (found : (rules.automaton (FirstFollow.ofRules rules) construction).items? s = some map) :
    ∃ stack, rules.Spells stack map := by
  refine automaton_induction (P := fun map => ∃ stack, rules.Spells stack map) construction
    proper.spells_inherited ?_ found
  exact ⟨[], ⟨_, .seed (Or.inl rfl)⟩, fun item look => proper.seed_closure_holds⟩

theorem Proper.state_reached (proper : rules.Proper) (construction : Construction) {s : Nat}
    {map : ItemMap}
    (found : (rules.automaton (FirstFollow.ofRules rules) construction).items? s = some map) :
    ∃ below stack, (rules.automaton (FirstFollow.ofRules rules) construction).Trail (s :: below)
      stack := by
  have collects := proper.collects construction
  obtain ⟨stack, ⟨item, viable⟩, holds⟩ := proper.state_spells construction found
  obtain ⟨other, below, path⟩ := collects.trail_exists proper viable
  obtain ⟨twin, stored, same⟩ := path.items collects proper rfl
  obtain rfl : map = twin := by
    apply ItemMap.ext_holds
    intro item look
    rw [holds, same]
  obtain rfl := collects.distinct found stored
  exact ⟨below, stack, path⟩

end Rules

end CanonicalLR
