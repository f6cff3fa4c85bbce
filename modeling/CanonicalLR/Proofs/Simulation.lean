import CanonicalLR.Proofs.Control
/-
The control follows every derivation. Where an item is viable it reads whatever the rest of the
item's production derives, reducing in the post-order of the derivation, and a lookahead that is
viable for a complete item is itself read after finitely many reductions.
-/
namespace CanonicalLR

variable {rules : Rules} {automaton : Automaton} {table : ParseTable}

theorem Rules.Proper.predicts (proper : rules.Proper) {stack rhs : List (Symbol Nat)} {item : Item}
    {look handed : Option Nat} {p lhs : Nat} (viable : rules.Viable stack item look)
    (next : rules.next item = some (.nonterminal lhs))
    (rule : rules.productions[p]? = some ⟨lhs, rhs⟩)
    (hands : Hands rules.productions (rules.after item) look handed) :
    rules.Viable stack ⟨p, 0⟩ handed :=
  .predict viable next (proper.filed.2 ⟨rhs, rule⟩) hands

theorem Generates.hands {symbols behind : List (Symbol Nat)} {word calls : List Nat}
    (made : Generates rules.productions symbols word calls) {look : Option Nat} {t : Nat}
    (hands : Hands rules.productions behind look (some t)) :
    Hands rules.productions (symbols ++ behind) none (some (word.headD t)) ∨
      Hands rules.productions (symbols ++ behind) look (some (word.headD t)) := by
  cases word with
  | cons a word => exact Or.inl (.begins ((made.starts rfl).append_right behind))
  | nil =>
    cases hands with
    | begins starts => exact Or.inl (.begins (.prepend made starts))
    | inherits vanishes => exact Or.inr (.inherits (.append ⟨_, made⟩ vanishes))

namespace Machinery

theorem reduction (machinery : Machinery rules automaton table) {top states : List Nat}
    {stack rhs : List (Symbol Nat)} {item : Item} {look : Option Nat} {t p lhs : Nat}
    (path : automaton.Trail states stack) (viable : rules.Viable stack item look)
    (next : rules.next item = some (.nonterminal lhs))
    (rule : rules.productions[p]? = some ⟨lhs, rhs⟩)
    (predicted : rules.Viable stack ⟨p, 0⟩ (some t))
    (whole : automaton.Trail (top ++ states) (rhs.reverse ++ stack)) :
    ∃ target, automaton.Trail (target :: states) (.nonterminal lhs :: stack) ∧
      Reduction rules table t p (top ++ states) (target :: states) := by
  have user := machinery.proper.ne_goal rule (machinery.proper.next_nonterminal next)
  obtain ⟨moved, complete⟩ := predicted.completes machinery.proper rule user
  have size : top.length = rhs.length := by
    have long := whole.length_eq
    have short := path.length_eq
    simp only [List.length_append, List.length_reverse] at long
    omega
  obtain ⟨exposed, rest, rfl⟩ := path.uncons
  obtain ⟨target, goto, trail⟩ := machinery.step path viable next (by simp)
  refine ⟨target, trail, .mk ?_ rule size goto⟩
  obtain ⟨s, below, split⟩ := whole.uncons
  rw [split] at whole ⊢
  exact machinery.reduces whole moved complete

theorem generates_runs (machinery : Machinery rules automaton table)
    {symbols behind stack : List (Symbol Nat)} {word calls states : List Nat} {item : Item}
    {look : Option Nat} {t : Nat} (made : Generates rules.productions symbols word calls)
    (path : automaton.Trail states stack) (viable : rules.Viable stack item look)
    (rest : rules.rest item = symbols ++ behind)
    (hands : Hands rules.productions behind look (some t))
    (inside : .terminal rules.eof ∉ symbols) :
    ∃ top, automaton.Trail (top ++ states) (symbols.reverse ++ stack) ∧
      Runs rules table t states word calls (top ++ states) := by
  induction made generalizing stack states item look behind t with
  | nil => exact ⟨[], path, .done⟩
  | @terminal a symbols word calls _ ih =>
    obtain ⟨next, after⟩ := Rules.rest_cons rest
    rw [List.mem_cons, not_or] at inside
    obtain ⟨s, below, rfl⟩ := path.uncons
    obtain ⟨target, action, trail⟩ := machinery.step path viable next (Ne.symm inside.1)
    have moved := viable.advance next (Ne.symm inside.1)
    obtain ⟨top, whole, runs⟩ := ih trail moved after hands inside.2
    refine ⟨top ++ [target], ?_, .shift action ?_⟩
    · simpa using whole
    · simpa using runs
  | @nonterminal p lhs rhs symbols first second calls later rule below tail ihBelow ihTail =>
    obtain ⟨next, after⟩ := Rules.rest_cons rest
    have after : rules.after item = symbols ++ behind := after
    rw [List.mem_cons, not_or] at inside
    -- what the derivation reads next is a lookahead of the production predicted here
    have predicted : rules.Viable stack ⟨p, 0⟩ (some (second.headD t)) := by
      rcases tail.hands hands with handed | handed
      · exact machinery.proper.predicts viable.present next rule (after ▸ handed)
      · exact machinery.proper.predicts viable next rule (after ▸ handed)
    have user := machinery.proper.ne_goal rule (machinery.proper.next_nonterminal next)
    have children : rules.rest ⟨p, 0⟩ = rhs ++ [] := by
      rw [List.append_nil, Rules.rest_start rule]
    obtain ⟨popped, pushed, runs⟩ := ihBelow path predicted children (.inherits .nil)
      (machinery.proper.eof_not_mem rule user)
    obtain ⟨target, trail, move⟩ := machinery.reduction path viable next rule predicted pushed
    have moved := viable.advance next (by simp)
    obtain ⟨top, whole, rest⟩ := ihTail trail moved after hands inside.2
    refine ⟨top ++ [target], by simpa using whole, runs.trans (.reduce move ?_)⟩
    simpa using rest

theorem starts_runs (machinery : Machinery rules automaton table)
    {symbols stack : List (Symbol Nat)} {word states : List Nat} {item : Item} {t : Nat}
    (starts : Starts rules.productions symbols word t) (path : automaton.Trail states stack)
    (viable : rules.Viable stack item none) (rest : rules.rest item = symbols) :
    ∃ calls final, Runs rules table t states word calls final ∧ table.Takes final t := by
  induction starts generalizing stack states item with
  | @here t symbols =>
    obtain ⟨next, _⟩ := Rules.rest_cons rest
    obtain ⟨s, below, rfl⟩ := path.uncons
    refine ⟨[], _, .done, ?_⟩
    by_cases last : t = rules.eof
    · subst last
      exact Or.inr (machinery.accepts path viable next)
    · have inside : Symbol.terminal t ≠ .terminal rules.eof := fun same =>
        last (Symbol.terminal.inj same)
      obtain ⟨target, action, _⟩ := machinery.step path viable next inside
      exact Or.inl ⟨target, action⟩
  | descend rule _ ih =>
    obtain ⟨next, _⟩ := Rules.rest_cons rest
    have predicted := machinery.proper.predicts viable next rule .present
    exact ih path predicted (Rules.rest_start rule)
  | @skip symbol symbols first second calls t whole later ih =>
    obtain ⟨next, after⟩ := Rules.rest_cons rest
    have inside : symbol ≠ .terminal rules.eof := by
      rintro rfl
      have ended : symbols = [] := after ▸ (viable.next_eof machinery.proper next).2
      subst ended
      cases later
    have hands : Hands rules.productions symbols none (some (second.headD t)) :=
      .begins later.first
    obtain ⟨top, trail, runs⟩ := machinery.generates_runs whole path viable rest hands
      (by simpa using Ne.symm inside)
    obtain ⟨cs, final, rest, takes⟩ := ih trail (viable.advance next inside) after
    exact ⟨calls ++ cs, final, runs.trans rest, takes⟩

/-- A lookahead of a production that lies on the stack as a whole is read after finitely many
reductions. By induction on why the lookahead is viable: it begins what stands behind the
production, or it is inherited over something that vanishes. -/
theorem lookahead_runs (machinery : Machinery rules automaton table) {stack : List (Symbol Nat)}
    {states : List Nat} {item : Item} {look : Option Nat} {t : Nat}
    (viable : rules.Viable stack item look) (shown : look = some t)
    (user : item.production ≠ rules.goal)
    (path : automaton.Trail states ((rules.rest item).reverse ++ stack)) :
    ∃ calls final, Runs rules table t states [] calls final ∧ table.Takes final t := by
  induction viable generalizing states with
  | seed => contradiction
  | @advance stack item look symbol _ next _ ih =>
    refine ih shown user ?_
    rw [Rules.rest_of_next next]
    simpa [Rules.rest_advance] using path
  | @predict stack item look handed n p source next member hands ih =>
    subst shown
    obtain ⟨rhs, rule⟩ := machinery.proper.filed.1 member
    have predicted := machinery.proper.predicts source next rule hands
    rw [Rules.rest_start rule] at path
    obtain ⟨top, below, rfl, base⟩ : ∃ top below, states = top ++ below ∧
        automaton.Trail below stack :=
      ⟨_, _, (List.take_append_drop rhs.reverse.length states).symm, path.drop⟩
    obtain ⟨target, trail, move⟩ := machinery.reduction base source next rule predicted path
    have moved := source.advance next (by simp)
    cases hands with
    | begins starts =>
      obtain ⟨calls, final, runs, takes⟩ := machinery.starts_runs starts trail moved rfl
      exact ⟨p :: calls, final, .reduce move runs, takes⟩
    | inherits vanishes =>
      have inner := source.ne_goal_of_vanishes machinery.proper next vanishes
      obtain ⟨cs, made⟩ := vanishes
      have absent : .terminal rules.eof ∉ rules.after item := made.no_terminal rfl _
      have ends : rules.rest item.advance = rules.after item ++ [] := by
        rw [List.append_nil, Rules.rest_advance]
      obtain ⟨above, whole, runs⟩ := machinery.generates_runs made trail moved ends
        (.inherits .nil) absent
      have full : automaton.Trail (above ++ target :: below)
          ((rules.rest item).reverse ++ stack) := by
        rw [Rules.rest_of_next next]
        simpa using whole
      obtain ⟨calls, final, more, takes⟩ := ih rfl inner full
      have joined : Runs rules table t (target :: below) [] (cs ++ calls) final :=
        Runs.trans runs more
      exact ⟨p :: (cs ++ calls), final, .reduce move joined, takes⟩

/-- No path admits reductions without end on one lookahead: where one reduction is possible, the
lookahead is taken in the end. -/
theorem reduction_runs (machinery : Machinery rules automaton table) {stack : List (Symbol Nat)}
    {states after : List Nat} {t p : Nat} (path : automaton.Trail states stack)
    (move : Reduction rules table t p states after) :
    ∃ calls final, Runs rules table t states [] calls final ∧ table.Takes final t := by
  obtain ⟨s, below, rfl⟩ := path.uncons
  have action : table.action s (.terminal t) = some (.reduce p) := move.answer
  rcases machinery.terminal_cases path action with
    ⟨_, _, same, _⟩ | ⟨item, _, viable, complete⟩ | ⟨_, same, _⟩
  · cases same
  · have user := viable.complete_ne_goal machinery.proper complete
    refine machinery.lookahead_runs viable rfl user ?_
    simp only [Rules.isComplete, beq_iff_eq] at complete
    simpa [Rules.rest, complete] using path
  · cases same

end Machinery

end CanonicalLR
