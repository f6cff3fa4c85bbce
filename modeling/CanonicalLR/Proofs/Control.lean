import CanonicalLR.Proofs.Demands
/-
The control of the parsing machine: its stack of states alone, driven by terminals. A table gives at
most one move at a time, so of two runs over the same terminals one continues the other, and what
lies deep in the stack changes nothing.
-/
namespace CanonicalLR

def ParseTable.answer (table : ParseTable) (states : List Nat) (symbol : Symbol Nat) :
    Option Action :=
  states.head?.bind fun s => table.action s symbol

def ParseTable.Takes (table : ParseTable) (states : List Nat) (t : Nat) : Prop :=
  (∃ target, table.answer states (.terminal t) = some (.shift target)) ∨
    table.answer states (.terminal t) = some .accept

inductive Reduction (rules : Rules) (table : ParseTable) (t p : Nat) :
    List Nat → List Nat → Prop where
  | mk {popped rest : List Nat} {exposed target lhs : Nat} {rhs : List (Symbol Nat)}
      (action : table.answer (popped ++ exposed :: rest) (.terminal t) = some (.reduce p))
      (rule : rules.productions[p]? = some ⟨lhs, rhs⟩) (size : popped.length = rhs.length)
      (goto : table.action exposed (.nonterminal lhs) = some (.goto target)) :
      Reduction rules table t p (popped ++ exposed :: rest) (target :: exposed :: rest)

/-- A run over a word with the terminal `t` behind it, and the productions it reduces by. After the
last shift it may go on reducing under `t`. -/
inductive Runs (rules : Rules) (table : ParseTable) (t : Nat) :
    List Nat → List Nat → List Nat → List Nat → Prop where
  | done {states : List Nat} : Runs rules table t states [] [] states
  | reduce {states between final word calls : List Nat} {p : Nat}
      (move : Reduction rules table (word.headD t) p states between)
      (later : Runs rules table t between word calls final) :
      Runs rules table t states word (p :: calls) final
  | shift {states final word calls : List Nat} {a target : Nat}
      (action : table.answer states (.terminal a) = some (.shift target))
      (later : Runs rules table t (target :: states) word calls final) :
      Runs rules table t states (a :: word) calls final

variable {rules : Rules} {table : ParseTable}

namespace Reduction

theorem answer {t p : Nat} {before after : List Nat} (h : Reduction rules table t p before after) :
    table.answer before (.terminal t) = some (.reduce p) := by
  cases h with
  | mk action => exact action

theorem deterministic {t p q : Nat} {before after other : List Nat}
    (first : Reduction rules table t p before after)
    (second : Reduction rules table t q before other) : p = q ∧ after = other := by
  obtain rfl : p = q := by
    have same := first.answer.symm.trans second.answer
    simpa using same
  refine ⟨rfl, ?_⟩
  generalize source : before = states at second
  cases first with
  | mk _ rule size goto =>
    cases second with
    | mk _ rule' size' goto' =>
      obtain rfl := (Production.mk.inj (Option.some.inj (rule.symm.trans rule'))).1
      obtain rfl := (Production.mk.inj (Option.some.inj (rule.symm.trans rule'))).2
      obtain ⟨_, tail⟩ := List.append_inj source (size.trans size'.symm)
      obtain ⟨rfl, rfl⟩ := List.cons.inj tail
      have same := Option.some.inj (goto.symm.trans goto')
      rw [Action.goto.inj same]

theorem atop {t p exposed target lhs : Nat} {popped rest other : List Nat}
    {rhs : List (Symbol Nat)}
    (action : table.answer (popped ++ exposed :: rest) (.terminal t) = some (.reduce p))
    (rule : rules.productions[p]? = some ⟨lhs, rhs⟩) (size : popped.length = rhs.length)
    (goto : table.action exposed (.nonterminal lhs) = some (.goto target)) :
    Reduction rules table t p (popped ++ exposed :: other) (target :: exposed :: other) := by
  refine .mk ?_ rule size goto
  simpa [ParseTable.answer, List.head?_append] using action

theorem extend {t p : Nat} {before after : List Nat} (h : Reduction rules table t p before after)
    (deep : List Nat) : Reduction rules table t p (before ++ deep) (after ++ deep) := by
  cases h with
  | mk action rule size goto =>
    rw [List.append_assoc]
    exact .atop action rule size goto

end Reduction

namespace Runs

theorem trans {start between final u v cs ds : List Nat} {t : Nat}
    (first : Runs rules table (v.headD t) start u cs between)
    (second : Runs rules table t between v ds final) :
    Runs rules table t start (u ++ v) (cs ++ ds) final := by
  induction first with
  | done => exact second
  | @reduce _ _ _ word _ _ move _ ih =>
    have front : (word ++ v).headD t = word.headD (v.headD t) := by
      cases word with
      | nil => rfl
      | cons => rfl
    exact .reduce (front ▸ move) (ih second)
  | shift action _ ih => exact .shift action (ih second)

theorem extend {start final word calls : List Nat} {t : Nat}
    (h : Runs rules table t start word calls final) (deep : List Nat) :
    Runs rules table t (start ++ deep) word calls (final ++ deep) := by
  induction h with
  | done => exact .done
  | reduce move _ ih => exact .reduce (move.extend deep) ih
  | @shift states _ _ _ _ _ action _ ih =>
    refine .shift ?_ ih
    cases states with
    | nil => simp [ParseTable.answer] at action
    | cons => exact action

theorem linear {start final other word cs ds : List Nat} {t : Nat}
    (first : Runs rules table t start word cs final)
    (second : Runs rules table t start word ds other) :
    (∃ es, ds = cs ++ es ∧ Runs rules table t final [] es other) ∨
      ∃ es, cs = ds ++ es ∧ Runs rules table t other [] es final := by
  induction first generalizing ds other with
  | done => exact Or.inl ⟨ds, rfl, second⟩
  | reduce move later ih =>
    cases second with
    | done => exact Or.inr ⟨_, rfl, .reduce move later⟩
    | reduce move' later' =>
      obtain ⟨rfl, rfl⟩ := move.deterministic move'
      rcases ih later' with ⟨es, rfl, rest⟩ | ⟨es, rfl, rest⟩
      · exact Or.inl ⟨es, rfl, rest⟩
      · exact Or.inr ⟨es, rfl, rest⟩
    | shift action _ =>
      have same := move.answer.symm.trans action
      cases same
  | shift action later ih =>
    cases second with
    | reduce move _ =>
      have same := action.symm.trans move.answer
      cases same
    | shift action' later' =>
      have same := Option.some.inj (action.symm.trans action')
      obtain rfl := Action.shift.inj same
      exact ih later'

theorem stays {states final calls : List Nat} {t : Nat} (takes : table.Takes states t)
    (h : Runs rules table t states [] calls final) : calls = [] ∧ final = states := by
  cases h with
  | done => exact ⟨rfl, rfl⟩
  | reduce move _ =>
    have reduces : table.answer states (.terminal t) = some (.reduce _) := move.answer
    rcases takes with ⟨target, shifts⟩ | accepts
    · cases shifts.symm.trans reduces
    · cases accepts.symm.trans reduces

/-- A run that ends where the terminal is taken continues every other run over the word. -/
theorem toward {start final other word cs ds : List Nat} {t : Nat}
    (first : Runs rules table t start word cs final)
    (second : Runs rules table t start word ds other) (takes : table.Takes other t) :
    ∃ es, ds = cs ++ es ∧ Runs rules table t final [] es other := by
  rcases first.linear second with ahead | ⟨es, rfl, back⟩
  · exact ahead
  · obtain ⟨rfl, rfl⟩ := back.stays takes
    exact ⟨[], by simp, .done⟩

theorem answers {states final calls : List Nat} {t : Nat}
    (h : Runs rules table t states [] calls final) (takes : table.Takes final t) :
    ∃ action, table.answer states (.terminal t) = some action := by
  cases h with
  | done =>
    rcases takes with ⟨target, shifts⟩ | accepts
    · exact ⟨_, shifts⟩
    · exact ⟨_, accepts⟩
  | reduce move _ => exact ⟨_, move.answer⟩

end Runs

end CanonicalLR
