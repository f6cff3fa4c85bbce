import CanonicalLR.Proofs.ReductionBound
/-
Stacks and the forms of the grammar. A viable item extends its stack to a form that begins, behind
the item, with the item's lookahead; so a terminal has an action on a path exactly when it can come
next in some form.
-/
namespace CanonicalLR

def Rules.opening (rules : Rules) : List (Symbol Nat) :=
  [.nonterminal rules.start, .terminal rules.eof]

variable {rules : Rules} {automaton : Automaton} {table : ParseTable}

theorem Rules.Viable.form (proper : rules.Proper) {stack : List (Symbol Nat)} {item : Item}
    {look : Option Nat} (h : rules.Viable stack item look) :
    ∃ behind, Derives rules.productions rules.opening
        (stack.reverse ++ rules.rest item ++ behind) ∧
      ∀ t, look = some t → item.production ≠ rules.goal →
        Starts rules.productions behind [] t := by
  induction h with
  | seed =>
    refine ⟨[], ?_, fun t _ user => absurd rfl user⟩
    rw [rest_start proper.goal]
    exact .refl
  | @advance stack item look symbol _ next _ ih =>
    obtain ⟨behind, form, ahead⟩ := ih
    refine ⟨behind, ?_, ahead⟩
    rw [rest_of_next next] at form
    simpa [rest_advance] using form
  | @predict stack item look handed n p source next member hands ih =>
    obtain ⟨behind, form, ahead⟩ := ih
    obtain ⟨rhs, rule⟩ := proper.filed.1 member
    refine ⟨rules.after item ++ behind, ?_, ?_⟩
    · rw [rest_of_next next] at form
      have rewritten := (Derives.single rule).context stack.reverse (rules.after item ++ behind)
      rw [rest_start rule]
      refine form.trans ?_
      simpa using rewritten
    · rintro t rfl _
      cases hands with
      | begins starts => exact starts.append_right behind
      | inherits vanishes =>
        have user := source.ne_goal_of_vanishes proper next vanishes
        obtain ⟨calls, made⟩ := vanishes
        exact .prepend made (ahead t rfl user)

namespace Machinery

theorem stack_begins (machinery : Machinery rules automaton table) {states word calls : List Nat}
    {stack : List (Symbol Nat)} (path : automaton.Trail states stack)
    (made : Generates rules.productions stack.reverse word calls) :
    ∃ behind, Derives rules.productions rules.opening (word.map .terminal ++ behind) := by
  obtain ⟨item, viable⟩ := path.inhabited machinery.collects machinery.proper
  obtain ⟨behind, form, _⟩ := viable.form machinery.proper
  have read := made.derives.context [] (rules.rest item ++ behind)
  simp only [List.nil_append] at read
  rw [List.append_assoc] at form
  exact ⟨_, form.trans read⟩

theorem answer_starts (machinery : Machinery rules automaton table) {states word calls : List Nat}
    {stack : List (Symbol Nat)} (path : automaton.Trail states stack)
    (made : Generates rules.productions stack.reverse word calls) {t : Nat} {action : Action}
    (answer : table.answer states (.terminal t) = some action) :
    Starts rules.productions rules.opening word t := by
  obtain ⟨s, below, rfl⟩ := path.uncons
  have continues : ∃ item behind, Derives rules.productions rules.opening
      (stack.reverse ++ rules.rest item ++ behind) ∧
        Starts rules.productions (rules.rest item ++ behind) [] t := by
    rcases machinery.terminal_cases path answer with
      ⟨_, item, _, _, _, viable, next⟩ | ⟨item, _, viable, complete⟩ |
      ⟨item, _, rfl, viable, next⟩
    · obtain ⟨behind, form, _⟩ := viable.form machinery.proper
      refine ⟨item, behind, form, ?_⟩
      rw [Rules.rest_of_next next]
      exact .here
    · obtain ⟨behind, form, ahead⟩ := viable.form machinery.proper
      have starts := ahead t rfl (viable.complete_ne_goal machinery.proper complete)
      simp only [Rules.isComplete, beq_iff_eq] at complete
      refine ⟨item, behind, form, ?_⟩
      simpa [Rules.rest, complete] using starts
    · obtain ⟨behind, form, _⟩ := viable.form machinery.proper
      refine ⟨item, behind, form, ?_⟩
      rw [Rules.rest_of_next next]
      exact .here
  obtain ⟨item, behind, form, starts⟩ := continues
  obtain ⟨last, ends⟩ := (Starts.prepend made starts).derives
  rw [List.append_nil, ← List.append_assoc] at ends
  exact .of_derives (form.trans ends)

theorem starts_answer (machinery : Machinery rules automaton table) {states word calls : List Nat}
    {t : Nat} (starts : Starts rules.productions rules.opening word t)
    (runs : Runs rules table t [automaton.start] word calls states) :
    ∃ action, table.answer states (.terminal t) = some action := by
  have rest : rules.rest ⟨rules.goal, 0⟩ = rules.opening :=
    Rules.rest_start machinery.proper.goal
  obtain ⟨_, final, whole, takes⟩ := machinery.starts_runs starts .start
    (.seed (Or.inl rfl)) rest
  obtain ⟨_, _, onward⟩ := runs.toward whole takes
  exact onward.answers takes

/-- The control reads every word of the start symbol, reducing in post-order. -/
theorem word_runs (machinery : Machinery rules automaton table) {word calls : List Nat}
    (made : Generates rules.productions [.nonterminal rules.start] word calls) :
    ∃ final, Runs rules table rules.eof [automaton.start] word calls final ∧
      table.Takes final rules.eof := by
  have rest : rules.rest ⟨rules.goal, 0⟩ = [.nonterminal rules.start] ++ [.terminal rules.eof] :=
    Rules.rest_start machinery.proper.goal
  have viable : rules.Viable [] ⟨rules.goal, 0⟩ none := .seed (Or.inl rfl)
  obtain ⟨top, path, runs⟩ := machinery.generates_runs made .start viable rest (.begins .here)
    (by simp)
  refine ⟨_, runs, Or.inr ?_⟩
  have moved := viable.advances rest (by simp)
  obtain ⟨s, below, split⟩ := path.uncons
  rw [split] at path ⊢
  refine machinery.accepts path moved ?_
  simp [Rules.next, machinery.proper.rhs_goal]

end Machinery

end CanonicalLR
