import CanonicalLR.Proofs.Outcomes
import CanonicalLR.Proofs.Validity
/-
Which grammars have a parser. A handle is what the last step of a rightmost derivation has put into
a form. Where every derivation can be finished, the collisions of viable items are the pairs of
handles that one terminal does not tell apart, so the build refuses the grammars that are not LR(1)
and no others.
-/
namespace CanonicalLR

theorem append_terminals_cases {xs ys : List (Symbol Nat)} {us vs : List Nat}
    (h : xs ++ us.map .terminal = ys ++ vs.map .terminal) :
    (xs = ys ∧ us = vs) ∨
      (∃ t extra, ys = xs ++ .terminal t :: extra ∧ us.head? = some t) ∨
      ∃ t extra, xs = ys ++ .terminal t :: extra ∧ vs.head? = some t := by
  induction xs generalizing ys with
  | nil =>
    cases ys with
    | nil => exact Or.inl ⟨rfl, List.map_injective_iff.2 (fun _ _ => Symbol.terminal.inj) h⟩
    | cons y ys =>
      obtain ⟨t, _, rfl, rfl, _⟩ := List.map_eq_cons_iff.1 h
      exact Or.inr (Or.inl ⟨t, ys, rfl, rfl⟩)
  | cons x xs ih =>
    cases ys with
    | nil =>
      obtain ⟨t, _, rfl, rfl, _⟩ := List.map_eq_cons_iff.1 h.symm
      exact Or.inr (Or.inr ⟨t, xs, rfl, rfl⟩)
    | cons y ys =>
      obtain ⟨rfl, tail⟩ := List.cons.inj h
      simpa using ih tail

namespace Rules

/-- A rightmost derivation of the goal whose last step puts the right side of the production in
between `before` and `after`. -/
inductive Handle (rules : Rules) (p : Nat) (before rhs : List (Symbol Nat)) (after : List Nat) :
    Prop where
  | mk {lhs : Nat} (rule : rules.productions[p]? = some ⟨lhs, rhs⟩)
      (derives : DerivesRightmost rules.productions [rules.root]
        (before ++ .nonterminal lhs :: after.map .terminal))

/-- A handle is known by what stands in front of its end and by the one terminal behind it: a form
that agrees so far has the same handle. Where nothing stands behind, nothing is to follow. -/
def IsLR1 (rules : Rules) : Prop :=
  ∀ ⦃p q : Nat⦄ ⦃before rhs other body : List (Symbol Nat)⦄ ⦃after behind rest : List Nat⦄,
    rules.Handle p before rhs after → rules.Handle q other body behind →
    other ++ body ++ behind.map .terminal = before ++ rhs ++ rest.map .terminal →
    after.head? = rest.head? → before = other ∧ p = q ∧ rest = behind

variable {rules : Rules}

theorem Proper.root_not_mem (proper : rules.Proper) {p lhs : Nat} {rhs : List (Symbol Nat)}
    (rule : rules.productions[p]? = some ⟨lhs, rhs⟩) : rules.root ∉ rhs := by
  intro member
  obtain ⟨dot, found⟩ := List.mem_iff_getElem?.1 member
  have next : rules.next ⟨p, dot⟩ = some rules.root := by rwa [Rules.next, rhs_eq rule]
  have bound := proper.next_nonterminal next
  omega

theorem Proper.form_cases (proper : rules.Proper) {form : List (Symbol Nat)}
    (h : DerivesRightmost rules.productions [rules.root] form) :
    form = [rules.root] ∨
      rules.root ∉ form ∧ form.getLast? = some (.terminal rules.eof) := by
  induction h with
  | refl => exact Or.inl rfl
  | tail _ step ih =>
    right
    cases step with
    | @apply p lhs rhs left right rule =>
      have fresh := proper.root_not_mem rule
      have behind : rules.root ∉ right.map .terminal := by simp [root]
      rcases ih with whole | ⟨absent, last⟩
      · obtain ⟨rfl, root, rfl⟩ : left = [] ∧ .nonterminal lhs = rules.root ∧ right = [] := by
          simpa [List.append_eq_singleton_iff] using whole
        obtain rfl := Symbol.nonterminal.inj root
        obtain ⟨_, rfl⟩ := proper.root_rule rule
        exact ⟨by simpa using fresh, rfl⟩
      · have front : rules.root ∉ left := fun member => absent (List.mem_append_left _ member)
        refine ⟨by simp [front, fresh, behind], ?_⟩
        cases right using List.reverseRecOn with
        | nil => simp at last
        | append_singleton right t => simpa [List.getLast?_cons] using last

namespace Handle

variable {p q t : Nat} {before rhs other body extra : List (Symbol Nat)} {after behind : List Nat}

theorem ne_goal (proper : rules.Proper) (h : rules.Handle p before rhs after)
    (ahead : after.head? = some t) : p ≠ rules.goal := by
  intro goal
  cases h with
  | @mk lhs rule derives =>
    subst goal
    obtain ⟨rfl, _⟩ := Production.mk.inj (Option.some.inj (rule.symm.trans proper.goal))
    rcases proper.form_cases derives with whole | ⟨absent, _⟩
    · obtain ⟨_, _, rfl⟩ : before = [] ∧ _ ∧ after = [] := by
        simpa [List.append_eq_singleton_iff] using whole
      contradiction
    · exact absent (by simp [root])

theorem goal (proper : rules.Proper) (h : rules.Handle p before rhs after)
    (ended : after.head? = none) : p = rules.goal ∧ before = [] ∧ rhs = rules.opening := by
  obtain rfl := List.head?_eq_none_iff.1 ended
  cases h with
  | @mk lhs rule derives =>
    rcases proper.form_cases derives with whole | ⟨_, last⟩
    · obtain ⟨rfl, root⟩ : before = [] ∧ .nonterminal lhs = rules.root := by
        simpa [List.append_eq_singleton_iff] using whole
      obtain rfl := Symbol.nonterminal.inj root
      obtain ⟨production, whole⟩ := proper.root_rule rule
      exact ⟨production, rfl, whole⟩
    · simp at last

theorem viable (proper : rules.Proper) (h : rules.Handle p before rhs after)
    (ahead : after.head? = some t) :
    rules.Viable (before ++ rhs).reverse ⟨p, rhs.length⟩ (some t) ∧
      rules.isComplete ⟨p, rhs.length⟩ = true := by
  have user := h.ne_goal proper ahead
  cases h with
  | mk rule derives =>
    have starts : Starts rules.productions (after.map .terminal) [] t := .of_head ahead
    have predicted := proper.viable_of_rightmost derives rfl (proper.filed.2 ⟨rhs, rule⟩)
      (.begins (starts.append_right _))
    rw [List.reverse_append]
    exact predicted.completes proper rule user

theorem waits (proper : rules.Proper) (h : rules.Handle p before rhs after)
    {front : List (Symbol Nat)} (split : before ++ rhs = front ++ .terminal t :: extra) :
    ∃ item, rules.Viable front.reverse item none ∧ rules.next item = some (.terminal t) := by
  cases found : after.head? with
  | none =>
    obtain ⟨_, rfl, rfl⟩ := h.goal proper found
    obtain ⟨rfl, rfl, _⟩ : front = [.nonterminal rules.start] ∧ rules.eof = t ∧ extra = [] := by
      cases front with
      | nil => simp [opening] at split
      | cons x front =>
        obtain ⟨rfl, tail⟩ := List.cons.inj split
        cases front with
        | nil => simpa using tail
        | cons y front => simp at tail
    have first : rules.next ⟨rules.goal, 0⟩ = some (.nonterminal rules.start) := by
      simp [Rules.next, proper.rhs_goal]
    refine ⟨_, .advance (.seed (Or.inl rfl)) first (by simp), ?_⟩
    simp [Rules.next, Item.advance, proper.rhs_goal]
  | some a =>
    have complete := (h.viable proper found).1
    rw [split, List.reverse_append, List.reverse_cons, List.append_assoc] at complete
    exact (complete.uncover rfl).2

/-- The terminal behind the first handle lies in front of the end of the second. -/
theorem collides (proper : rules.Proper) (first : rules.Handle p before rhs after)
    (second : rules.Handle q other body behind) (ahead : after.head? = some t)
    (longer : other ++ body = before ++ rhs ++ .terminal t :: extra) :
    rules.Collision (before ++ rhs).reverse := by
  obtain ⟨viable, complete⟩ := first.viable proper ahead
  obtain ⟨item, waiting, next⟩ := second.waits proper longer
  exact .shifts viable complete waiting next

theorem unique (proper : rules.Proper) (free : ∀ stack, ¬ rules.Collision stack)
    (first : rules.Handle p before rhs after) (second : rules.Handle q other body behind)
    (same : other ++ body = before ++ rhs) (ahead : after.head? = behind.head?) :
    before = other ∧ p = q := by
  have production : p = q := by
    by_contra distinct
    cases found : after.head? with
    | none =>
      have one := (first.goal proper found).1
      have two := (second.goal proper (ahead.symm.trans found)).1
      exact distinct (one.trans two.symm)
    | some t =>
      obtain ⟨viable, complete⟩ := first.viable proper found
      obtain ⟨also, done⟩ := second.viable proper (ahead.symm.trans found)
      rw [same] at also
      exact free _ (.reduces viable complete also done distinct)
  subst production
  cases first with
  | mk rule =>
    cases second with
    | mk rule' =>
      obtain ⟨_, rfl⟩ := Production.mk.inj (Option.some.inj (rule.symm.trans rule'))
      exact ⟨(List.append_cancel_right same).symm, rfl⟩

end Handle

theorem Proper.isLR1_of_free (proper : rules.Proper) (free : ∀ stack, ¬ rules.Collision stack) :
    rules.IsLR1 := by
  intro p q before rhs other body after behind rest first second same ahead
  -- the handles end at one place, or one of them ends inside the other's form
  rcases append_terminals_cases same with ⟨place, rfl⟩ | ⟨t, extra, longer, next⟩ |
    ⟨t, extra, longer, next⟩
  · obtain ⟨front, production⟩ := first.unique proper free second place ahead
    exact ⟨front, production, rfl⟩
  · exact absurd (second.collides proper first next longer) (free _)
  · exact absurd (first.collides proper second (ahead.trans next) longer) (free _)

theorem Viable.complete_handle (proper : rules.Proper)
    (productive : Productive rules.productions rules.start) {stack : List (Symbol Nat)}
    {item : Item} {t : Nat} (h : rules.Viable stack item (some t))
    (complete : rules.isComplete item = true) :
    ∃ before rhs after, rules.Handle item.production before rhs after ∧
      stack.reverse = before ++ rhs ∧ after.head? = some t := by
  have user := h.complete_ne_goal proper complete
  obtain ⟨lhs, before, after, rule, split, derives, ahead⟩ := h.rightmost proper productive
  simp only [isComplete, beq_iff_eq] at complete
  rw [complete, List.take_length] at split
  have handle : rules.Handle item.production before _ after := ⟨rule, derives⟩
  refine ⟨before, _, after, handle, split, ?_⟩
  cases after with
  | nil => exact absurd (handle.goal proper rfl).1 user
  | cons a after => simpa using ahead t rfl

theorem Viable.waiting_handle (proper : rules.Proper)
    (productive : Productive rules.productions rules.start) {stack : List (Symbol Nat)}
    {item : Item} {look : Option Nat} {t : Nat} (h : rules.Viable stack item look)
    (next : rules.next item = some (.terminal t)) :
    ∃ q other body behind rest, rules.Handle q other body behind ∧
      other ++ body ++ behind.map .terminal = stack.reverse ++ (t :: rest).map .terminal ∧
      behind.length ≤ rest.length := by
  obtain ⟨lhs, before, after, rule, split, derives, _⟩ := h.rightmost proper productive
  have parts : before ++ rules.rhs item.production =
      stack.reverse ++ .terminal t :: rules.after item := by
    rw [split, List.append_assoc, take_append_after next]
  obtain ⟨word, calls, made⟩ := productive.generates (h.after_inReach proper next)
  -- what follows the terminal is finished, and the last step taken is the one that counts
  rcases made.rightmost.cases_tail with finished | ⟨form, onward, step⟩
  · refine ⟨item.production, before, _, after, word ++ after, ⟨rule, derives⟩, ?_, by simp⟩
    rw [parts, ← finished]
    simp
  · generalize reached : word.map Symbol.terminal = words at step
    cases step with
    | @apply q lhs body left right rule' =>
      have applied := derives.tail (.apply before after rule)
      have finished := DerivesRightmost.context onward (stack.reverse ++ [.terminal t]) after
      rw [parts] at applied
      have whole := applied.trans (by simpa using finished)
      refine ⟨q, stack.reverse ++ .terminal t :: left, body, right ++ after, word ++ after,
        ⟨rule', by simpa using whole⟩, ?_, ?_⟩
      · simp [reached]
      · have length := congrArg List.length reached
        simp only [List.length_map, List.length_append] at length ⊢
        omega

theorem IsLR1.free (lr1 : rules.IsLR1) (proper : rules.Proper)
    (productive : Productive rules.productions rules.start) (stack : List (Symbol Nat)) :
    ¬ rules.Collision stack := by
  intro collision
  cases collision with
  | reduces first complete second also distinct =>
    obtain ⟨before, rhs, after, one, place, ahead⟩ :=
      first.complete_handle proper productive complete
    obtain ⟨other, body, behind, two, same, next⟩ := second.complete_handle proper productive also
    have equal : other ++ body = before ++ rhs := same.symm.trans place
    obtain ⟨_, production, _⟩ := lr1 one two (by rw [equal]) (ahead.trans next.symm)
    exact distinct production
  | shifts first complete second next =>
    obtain ⟨before, rhs, after, one, place, ahead⟩ :=
      first.complete_handle proper productive complete
    obtain ⟨q, other, body, behind, rest, two, equal, shorter⟩ :=
      second.waiting_handle proper productive next
    rw [place] at equal
    obtain ⟨_, _, rfl⟩ := lr1 one two equal ahead
    exact Nat.not_succ_le_self _ shorter

theorem Proper.isLR1_iff (proper : rules.Proper)
    (productive : Productive rules.productions rules.start) :
    rules.IsLR1 ↔ ∀ stack, ¬ rules.Collision stack := by
  constructor
  · intro lr1
    exact lr1.free proper productive
  · exact proper.isLR1_of_free

end Rules

variable {τ υ : Type} [DecidableEq τ] [Fingerprint τ] [Spelling τ] {eof : τ} {start : Nat}
  {calls : List (Registration τ υ)}

/-- A grammar in which every derivation can be finished has a parser if it is LR(1), and ends with
a conflict if it is not, provided that the build can start at all. -/
theorem build_conflict_iff_not_isLR1 (declared : (Grammar.assemble eof calls).start = some start)
    (productive : Productive (Grammar.assemble eof calls).productions start)
    {host : Host} {strategy : Strategy} (starts : strategy.Starts host) :
    ((∃ parser, (Grammar.assemble eof calls).build host strategy = .ok parser) ↔
      ((Grammar.assemble eof calls).rulesFrom start).IsLR1) ∧
    ((∃ report, (Grammar.assemble eof calls).build host strategy = .error (.conflict report)) ↔
      ¬ ((Grammar.assemble eof calls).rulesFrom start).IsLR1) := by
  have wf := Grammar.assemble_wellFormed eof calls
  have proper := Grammar.rulesFrom_proper wf declared
  have lr1 := proper.isLR1_iff (wf.rulesFrom_productive declared productive)
  constructor
  · rw [Grammar.build_ok_iff wf declared starts, lr1]
  · rw [Grammar.build_conflict_iff wf declared starts, lr1, not_forall_not]

/-- `S ::= a E a | a F c | c F a | c E c`, `E ::= e` and `F ::= e`: what `e` is depends on the
terminals on both its sides, and merging the states behind it would lose the one on the left. -/
def sided : List (Registration String Nat) :=
  [.nonterminal "S", .nonterminal "E", .nonterminal "F",
    .production 0 [.terminal "a", .nonterminal 1, .terminal "a"] (List.foldl Nat.add 0),
    .production 0 [.terminal "a", .nonterminal 2, .terminal "c"] (List.foldl Nat.add 0),
    .production 0 [.terminal "c", .nonterminal 2, .terminal "a"] (List.foldl Nat.add 0),
    .production 0 [.terminal "c", .nonterminal 1, .terminal "c"] (List.foldl Nat.add 0),
    .production 1 [.terminal "e"] (List.foldl Nat.add 0),
    .production 2 [.terminal "e"] (List.foldl Nat.add 0)]

theorem build_conflict_iff_not_isLR1_sided :
    (Grammar.assemble "$" sided).start = some 0 ∧
    Productive (Grammar.assemble "$" sided).productions 0 ∧
    (Strategy.parallel none).Starts tasks ∧
    (∃ parser, (Grammar.assemble "$" sided).build tasks (.parallel none) = .ok parser) ∧
    ((Grammar.assemble "$" sided).rulesFrom 0).IsLR1 := by
  have declared : (Grammar.assemble "$" sided).start = some 0 := by decide +kernel
  have whole : (Grammar.assemble "$" sided).productions[0]? =
      some ⟨0, [.terminal 1, .nonterminal 1, .terminal 1]⟩ := by decide +kernel
  have first : (Grammar.assemble "$" sided).productions[4]? = some ⟨1, [.terminal 3]⟩ := by
    decide +kernel
  have second : (Grammar.assemble "$" sided).productions[5]? = some ⟨2, [.terminal 3]⟩ := by
    decide +kernel
  have productive : Productive (Grammar.assemble "$" sided).productions 0 := by
    refine (Grammar.assemble_wellFormed "$" sided).productive_of_words declared ?_
    have names : (Grammar.assemble "$" sided).names.size = 3 := by decide +kernel
    intro n bound
    obtain rfl | rfl | rfl : n = 0 ∨ n = 1 ∨ n = 2 := by omega
    · exact ⟨[1, 3, 1], (Derives.single whole).tail (.apply [.terminal 1] [.terminal 1] first)⟩
    · exact ⟨[3], .single first⟩
    · exact ⟨[3], .single second⟩
  obtain ⟨parser, built, _⟩ : ∃ parser,
      (Grammar.assemble "$" sided).build tasks (.parallel none) = .ok parser ∧ True :=
    exists_ok (by decide +kernel)
  have starts : (Strategy.parallel none).Starts tasks := ⟨_, rfl⟩
  have lr1 := (build_conflict_iff_not_isLR1 declared productive starts).1.1 ⟨parser, built⟩
  exact ⟨declared, productive, starts, ⟨parser, built⟩, lr1⟩

end CanonicalLR
