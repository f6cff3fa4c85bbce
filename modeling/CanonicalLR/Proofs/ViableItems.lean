import CanonicalLR.Proofs.Collection
/-
The items that are viable on a stack of symbols, and the paths of the automaton that spell a stack.
The state at the end of a path holds an item with a lookahead exactly when the two are viable on the
symbols of the path, so questions about states become questions about stacks.
-/
namespace CanonicalLR

/-- Stacks are written top first. Without a lookahead only the presence of the item is meant. -/
inductive Rules.Viable (rules : Rules) : List (Symbol Nat) → Item → Option Nat → Prop where
  | seed {look : Option Nat} (shown : look = none ∨ look = some rules.eof) :
      Viable rules [] ⟨rules.goal, 0⟩ look
  | advance {stack : List (Symbol Nat)} {item : Item} {look : Option Nat} {symbol : Symbol Nat}
      (source : Viable rules stack item look) (next : rules.next item = some symbol)
      (inside : symbol ≠ .terminal rules.eof) : Viable rules (symbol :: stack) item.advance look
  | predict {stack : List (Symbol Nat)} {item : Item} {look handed : Option Nat} {n p : Nat}
      (source : Viable rules stack item look) (next : rules.next item = some (.nonterminal n))
      (member : p ∈ rules.productionsOf n)
      (hands : Hands rules.productions (rules.after item) look handed) :
      Viable rules stack ⟨p, 0⟩ handed

inductive Automaton.Trail (automaton : Automaton) : List Nat → List (Symbol Nat) → Prop where
  | start : Trail automaton [automaton.start] []
  | step {s target : Nat} {below : List Nat} {symbol : Symbol Nat} {stack : List (Symbol Nat)}
      (path : Trail automaton (s :: below) stack)
      (edge : automaton.transition s symbol = some target) :
      Trail automaton (target :: s :: below) (symbol :: stack)

namespace Rules

variable {rules : Rules}

namespace Viable

theorem present {stack : List (Symbol Nat)} {item : Item} {look : Option Nat}
    (h : rules.Viable stack item look) : rules.Viable stack item none := by
  induction h with
  | seed => exact .seed (Or.inl rfl)
  | advance _ next inside ih => exact .advance ih next inside
  | predict _ next member _ ih => exact .predict ih next member .present

/-- The symbols in front of the dot lie on top of the stack, and below them the item was predicted
with the same lookahead. -/
theorem unwind {stack : List (Symbol Nat)} {item : Item} {look : Option Nat}
    (h : rules.Viable stack item look) :
    item.dot ≤ (rules.rhs item.production).length ∧
      .terminal rules.eof ∉ (rules.rhs item.production).take item.dot ∧
      ∃ below, stack = ((rules.rhs item.production).take item.dot).reverse ++ below ∧
        rules.Viable below ⟨item.production, 0⟩ look := by
  induction h with
  | seed shown => exact ⟨Nat.zero_le _, by simp, [], by simp, .seed shown⟩
  | @advance _ item _ symbol _ next inside ih =>
    obtain ⟨_, absent, below, rfl, origin⟩ := ih
    obtain ⟨bound, found⟩ := List.getElem?_eq_some_iff.1 next
    have longer : (rules.rhs item.production).take (item.dot + 1) =
        (rules.rhs item.production).take item.dot ++ [symbol] := by
      rw [← found, List.take_append_getElem bound]
    refine ⟨bound, ?_, below, ?_, origin⟩
    · simp only [Item.advance, longer, List.mem_append, List.mem_singleton, not_or]
      exact ⟨absent, inside.symm⟩
    · simp [Item.advance, longer]
  | predict source next member hands _ =>
    exact ⟨Nat.zero_le _, by simp, _, by simp, .predict source next member hands⟩

theorem origin {stack : List (Symbol Nat)} {p : Nat} {look : Option Nat}
    (h : rules.Viable stack ⟨p, 0⟩ look) :
    (p = rules.goal ∧ stack = []) ∨ ∃ item old n, rules.Viable stack item old ∧
      rules.next item = some (.nonterminal n) ∧ p ∈ rules.productionsOf n ∧
      Hands rules.productions (rules.after item) old look := by
  generalize start : (⟨p, 0⟩ : Item) = item at h
  cases h with
  | seed => exact Or.inl ⟨(Item.mk.inj start).1, rfl⟩
  | advance => simp [Item.advance] at start
  | predict source next member hands =>
    obtain ⟨rfl, _⟩ := Item.mk.inj start
    exact Or.inr ⟨_, _, _, source, next, member, hands⟩

theorem goal (proper : rules.Proper) {stack : List (Symbol Nat)} {item : Item}
    {look : Option Nat} (h : rules.Viable stack item look) (goal : item.production = rules.goal) :
    (item.dot = 0 ∧ stack = []) ∨ (item.dot = 1 ∧ stack = [.nonterminal rules.start]) := by
  obtain ⟨_, absent, below, rfl, origin⟩ := h.unwind
  have empty : below = [] := by
    rcases origin.origin with ⟨_, empty⟩ | ⟨source, _, n, _, next, member, _⟩
    · exact empty
    · obtain ⟨rhs, rule⟩ := proper.filed.1 member
      exact absurd goal (proper.ne_goal rule (proper.next_nonterminal next))
  rw [goal, proper.rhs_goal] at absent ⊢
  match dot : item.dot with
  | 0 => exact Or.inl ⟨rfl, by simpa using empty⟩
  | 1 => exact Or.inr ⟨rfl, by simpa using empty⟩
  | n + 2 => simp [dot] at absent

theorem complete_ne_goal (proper : rules.Proper) {stack : List (Symbol Nat)} {item : Item}
    {look : Option Nat} (h : rules.Viable stack item look)
    (complete : rules.isComplete item = true) : item.production ≠ rules.goal := by
  intro goal
  have ended : item.dot = 2 := by
    simpa [isComplete, goal, proper.rhs_goal] using complete
  rcases h.goal proper goal with ⟨dot, _⟩ | ⟨dot, _⟩ <;> omega

theorem next_eof (proper : rules.Proper) {stack : List (Symbol Nat)} {item : Item}
    {look : Option Nat} (h : rules.Viable stack item look)
    (next : rules.next item = some (.terminal rules.eof)) :
    stack = [.nonterminal rules.start] ∧ rules.after item = [] := by
  obtain rfl := proper.item_of_next_eof next
  rcases h.goal proper rfl with ⟨dot, _⟩ | ⟨_, stack⟩
  · contradiction
  · exact ⟨stack, by simp [after, proper.rhs_goal]⟩

/-- The end of the input stands behind the start, so nothing inherits a lookahead from the goal. -/
theorem ne_goal_of_vanishes (proper : rules.Proper) {stack : List (Symbol Nat)} {item : Item}
    {look : Option Nat} {n : Nat} (h : rules.Viable stack item look)
    (next : rules.next item = some (.nonterminal n))
    (vanishes : Vanishes rules.productions (rules.after item)) :
    item.production ≠ rules.goal := by
  intro goal
  rcases h.goal proper goal with ⟨dot, _⟩ | ⟨dot, _⟩
  · simp only [after, goal, proper.rhs_goal, dot] at vanishes
    exact Vanishes.not_terminal vanishes
  · simp [Rules.next, goal, proper.rhs_goal, dot] at next

theorem advances {stack symbols behind : List (Symbol Nat)} {item : Item} {look : Option Nat}
    (h : rules.Viable stack item look) (rest : rules.rest item = symbols ++ behind)
    (inside : .terminal rules.eof ∉ symbols) :
    rules.Viable (symbols.reverse ++ stack) ⟨item.production, item.dot + symbols.length⟩ look := by
  induction symbols generalizing stack item with
  | nil => exact h
  | cons symbol symbols ih =>
    obtain ⟨next, after⟩ := rest_cons rest
    rw [List.mem_cons, not_or] at inside
    have pushed := ih (h.advance next (Ne.symm inside.1)) after inside.2
    have dots : item.dot + 1 + symbols.length = item.dot + (symbols.length + 1) := by omega
    simpa [Item.advance, dots] using pushed

theorem completes {stack rhs : List (Symbol Nat)} {p lhs : Nat} {look : Option Nat}
    (proper : rules.Proper) (h : rules.Viable stack ⟨p, 0⟩ look)
    (rule : rules.productions[p]? = some ⟨lhs, rhs⟩) (user : p ≠ rules.goal) :
    rules.Viable (rhs.reverse ++ stack) ⟨p, rhs.length⟩ look ∧
      rules.isComplete ⟨p, rhs.length⟩ = true := by
  have rest : rules.rest ⟨p, 0⟩ = rhs ++ [] := by rw [List.append_nil, rest_start rule]
  have moved := h.advances rest (proper.eof_not_mem rule user)
  rw [Nat.zero_add] at moved
  exact ⟨moved, by simp [isComplete, rhs_eq rule]⟩

theorem handle (proper : rules.Proper) {stack : List (Symbol Nat)} {item : Item}
    {look : Option Nat} (h : rules.Viable stack item look)
    (complete : rules.isComplete item = true) :
    ∃ lhs rhs below, rules.productions[item.production]? = some ⟨lhs, rhs⟩ ∧
      item.production ≠ rules.goal ∧ stack = rhs.reverse ++ below ∧
      ∃ source old, rules.Viable below source old ∧
        rules.next source = some (.nonterminal lhs) := by
  have user := h.complete_ne_goal proper complete
  obtain ⟨_, _, below, rfl, origin⟩ := h.unwind
  rcases origin.origin with ⟨goal, _⟩ | ⟨source, old, n, viable, next, member, _⟩
  · contradiction
  · obtain ⟨rhs, rule⟩ := proper.filed.1 member
    simp only [isComplete, beq_iff_eq, rhs_eq rule] at complete
    refine ⟨n, rhs, below, rule, user, ?_, source, old, viable, next⟩
    rw [rhs_eq rule, complete, List.take_length]

end Viable

theorem Predicted.viable {map : ItemMap} {stack : List (Symbol Nat)}
    (sound : ∀ item look, map.Holds item look → rules.Viable stack item look) {item : Item}
    {look : Option Nat} (h : rules.Predicted map item look) : rules.Viable stack item look := by
  induction h with
  | held held => exact sound _ _ held
  | predict _ next member hands ih => exact .predict ih next member hands

theorem Viable.predicted_start {stack : List (Symbol Nat)} {item : Item} {look : Option Nat}
    (h : rules.Viable stack item look) (empty : stack = []) :
    rules.Predicted rules.seed item look := by
  induction h with
  | seed shown => exact .held (seed_holds.2 ⟨rfl, shown⟩)
  | advance => contradiction
  | predict _ next member hands ih => exact .predict (ih empty) next member hands

theorem Viable.predicted_step {map : ItemMap} {stack tail : List (Symbol Nat)}
    {symbol : Symbol Nat}
    (holds : ∀ item look, map.Holds item look ↔ rules.Viable tail item look) {item : Item}
    {look : Option Nat} (h : rules.Viable stack item look) (top : stack = symbol :: tail) :
    rules.Predicted (rules.kernel map symbol) item look := by
  induction h with
  | seed => contradiction
  | advance source next _ _ =>
    obtain ⟨rfl, rfl⟩ := List.cons.inj top
    exact .held (kernel_holds.2 ⟨_, (holds _ _).2 source, next, rfl⟩)
  | predict _ next member hands ih => exact .predict (ih top) next member hands

theorem Proper.seed_closure_holds (proper : rules.Proper) {item : Item} {look : Option Nat} :
    (rules.closure (FirstFollow.ofRules rules) rules.seed).Holds item look ↔
      rules.Viable [] item look := by
  rw [closure_holds proper]
  constructor
  · apply Predicted.viable
    intro item look held
    obtain ⟨rfl, shown⟩ := seed_holds.1 held
    exact .seed shown
  · intro viable
    exact viable.predicted_start rfl

theorem Proper.goto_holds (proper : rules.Proper) {map : ItemMap} {stack : List (Symbol Nat)}
    (holds : ∀ item look, map.Holds item look ↔ rules.Viable stack item look)
    {symbol : Symbol Nat} (relevant : symbol ∈ rules.relevantSymbols map.items) {item : Item}
    {look : Option Nat} :
    (rules.goto (FirstFollow.ofRules rules) map symbol).Holds item look ↔
      rules.Viable (symbol :: stack) item look := by
  rw [goto, closure_holds proper]
  constructor
  · apply Predicted.viable
    intro item look held
    obtain ⟨source, old, next, rfl⟩ := kernel_holds.1 held
    exact .advance ((holds _ _).1 old) next (mem_relevantSymbols.1 relevant).1
  · intro viable
    exact viable.predicted_step holds rfl

end Rules

namespace Automaton.Trail

variable {automaton : Automaton} {rules : Rules}

theorem length_eq {states : List Nat} {stack : List (Symbol Nat)}
    (h : automaton.Trail states stack) : states.length = stack.length + 1 := by
  induction h with
  | start => rfl
  | step _ _ ih => simpa using ih

theorem uncons {states : List Nat} {stack : List (Symbol Nat)}
    (h : automaton.Trail states stack) : ∃ s below, states = s :: below := by
  cases h with
  | start => exact ⟨_, _, rfl⟩
  | step => exact ⟨_, _, rfl⟩

theorem drop {states : List Nat} {top below : List (Symbol Nat)}
    (h : automaton.Trail states (top ++ below)) :
    automaton.Trail (states.drop top.length) below := by
  induction top generalizing states with
  | nil => exact h
  | cons symbol top ih =>
    cases h with
    | step path _ => exact ih path

theorem items (collects : rules.Collects automaton) (proper : rules.Proper) {states : List Nat}
    {stack : List (Symbol Nat)} (h : automaton.Trail states stack) {s : Nat} {below : List Nat}
    (top : states = s :: below) :
    ∃ map, automaton.items? s = some map ∧
      ∀ item look, map.Holds item look ↔ rules.Viable stack item look := by
  induction h generalizing s below with
  | start =>
    obtain ⟨rfl, _⟩ := List.cons.inj top
    exact ⟨_, collects.start, fun item look => proper.seed_closure_holds⟩
  | step _ edge ih =>
    obtain ⟨rfl, _⟩ := List.cons.inj top
    obtain ⟨map, found, holds⟩ := ih rfl
    obtain ⟨relevant, target⟩ := (collects.transition_iff found).1 edge
    exact ⟨_, target, fun item look => proper.goto_holds holds relevant⟩

theorem extend (collects : rules.Collects automaton) (proper : rules.Proper) {s : Nat}
    {below : List Nat} {stack : List (Symbol Nat)} (h : automaton.Trail (s :: below) stack)
    {item : Item} {look : Option Nat} (viable : rules.Viable stack item look)
    {symbol : Symbol Nat} (next : rules.next item = some symbol)
    (inside : symbol ≠ .terminal rules.eof) :
    ∃ target, automaton.transition s symbol = some target := by
  obtain ⟨map, found, holds⟩ := h.items collects proper rfl
  have listed : item ∈ map.items := ItemMap.mem_items.2 ((holds _ _).2 viable.present)
  exact collects.transition_exists found
    (Rules.mem_relevantSymbols.2 ⟨inside, item, listed, next⟩)

theorem inhabited (collects : rules.Collects automaton) (proper : rules.Proper)
    {states : List Nat} {stack : List (Symbol Nat)} (h : automaton.Trail states stack) :
    ∃ item, rules.Viable stack item none := by
  cases h with
  | start => exact ⟨_, .seed (Or.inl rfl)⟩
  | step path edge =>
    obtain ⟨map, found, holds⟩ := path.items collects proper rfl
    obtain ⟨relevant, _⟩ := (collects.transition_iff found).1 edge
    obtain ⟨inside, item, listed, next⟩ := Rules.mem_relevantSymbols.1 relevant
    exact ⟨_, .advance ((holds _ _).1 (ItemMap.mem_items.1 listed)) next inside⟩

end Automaton.Trail

end CanonicalLR
