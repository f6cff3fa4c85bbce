import CanonicalLR.Closure
import CanonicalLR.Proofs.Derivations
import CanonicalLR.Proofs.Registration
/-
Finished rules. All ids are in range, the goal is the last production and its left side stands
nowhere on the right, and the end of the input stands in the goal alone.
-/
namespace CanonicalLR

namespace Rules

def Usable (rules : Rules) : Symbol Nat → Prop
  | .terminal t => t < rules.terminalCount ∧ t ≠ rules.eof
  | .nonterminal n => n + 1 < rules.nonterminalCount

structure Proper (rules : Rules) : Prop where
  eof : rules.eof < rules.terminalCount
  start : rules.start + 1 < rules.nonterminalCount
  goal : rules.productions[rules.goal]? =
    some ⟨rules.nonterminalCount - 1, [.nonterminal rules.start, .terminal rules.eof]⟩
  last : rules.productions.size = rules.goal + 1
  usable {p lhs : Nat} {rhs : List (Symbol Nat)} : p ≠ rules.goal →
    rules.productions[p]? = some ⟨lhs, rhs⟩ →
      lhs + 1 < rules.nonterminalCount ∧ ∀ symbol ∈ rhs, rules.Usable symbol
  filed {p n : Nat} : p ∈ rules.productionsOf n ↔ ∃ rhs, rules.productions[p]? = some ⟨n, rhs⟩

def rest (rules : Rules) (item : Item) : List (Symbol Nat) :=
  (rules.rhs item.production).drop item.dot

variable {rules : Rules}

theorem rhs_eq {p lhs : Nat} {rhs : List (Symbol Nat)}
    (rule : rules.productions[p]? = some ⟨lhs, rhs⟩) : rules.rhs p = rhs := by
  simp [Rules.rhs, rule]

theorem rest_of_next {item : Item} {symbol : Symbol Nat} (h : rules.next item = some symbol) :
    rules.rest item = symbol :: rules.after item := by
  obtain ⟨bound, found⟩ := List.getElem?_eq_some_iff.1 h
  rw [rest, after, List.drop_eq_getElem_cons bound, found]

theorem take_append_after {item : Item} {symbol : Symbol Nat}
    (h : rules.next item = some symbol) :
    (rules.rhs item.production).take item.dot ++ symbol :: rules.after item =
      rules.rhs item.production := by
  rw [← rest_of_next h, rest, List.take_append_drop]

theorem rest_cons {item : Item} {symbol : Symbol Nat} {behind : List (Symbol Nat)}
    (h : rules.rest item = symbol :: behind) :
    rules.next item = some symbol ∧ rules.after item = behind := by
  have next : rules.next item = some symbol := by
    have head := congrArg List.head? h
    rwa [rest, List.head?_drop] at head
  rw [rest_of_next next] at h
  exact ⟨next, (List.cons.inj h).2⟩

theorem rest_advance (item : Item) : rules.rest item.advance = rules.after item := rfl

theorem rest_start {p lhs : Nat} {rhs : List (Symbol Nat)}
    (rule : rules.productions[p]? = some ⟨lhs, rhs⟩) : rules.rest ⟨p, 0⟩ = rhs := by
  simp [rest, rhs_eq rule]

theorem mem_rhs_of_next {item : Item} {symbol : Symbol Nat} (h : rules.next item = some symbol) :
    symbol ∈ rules.rhs item.production :=
  List.mem_of_getElem? h

theorem rule_of_next {item : Item} {symbol : Symbol Nat} (h : rules.next item = some symbol) :
    ∃ lhs, rules.productions[item.production]? = some ⟨lhs, rules.rhs item.production⟩ := by
  cases found : rules.productions[item.production]? with
  | none => simp [next, Rules.rhs, found] at h
  | some production =>
    obtain ⟨lhs, rhs⟩ := production
    exact ⟨lhs, by rw [rhs_eq found]⟩

namespace Proper

theorem rhs_goal (proper : rules.Proper) :
    rules.rhs rules.goal = [.nonterminal rules.start, .terminal rules.eof] :=
  rhs_eq proper.goal

theorem next_nonterminal (proper : rules.Proper) {item : Item} {n : Nat}
    (h : rules.next item = some (.nonterminal n)) : n + 1 < rules.nonterminalCount := by
  have member := mem_rhs_of_next h
  by_cases last : item.production = rules.goal
  · rw [last, proper.rhs_goal] at member
    simp only [List.mem_cons, Symbol.nonterminal.injEq, List.not_mem_nil, or_false,
      reduceCtorEq] at member
    exact member ▸ proper.start
  · obtain ⟨lhs, rule⟩ := rule_of_next h
    exact (proper.usable last rule).2 _ member

theorem terminal_lt (proper : rules.Proper) {p lhs t : Nat} {rhs : List (Symbol Nat)}
    (rule : rules.productions[p]? = some ⟨lhs, rhs⟩) (member : .terminal t ∈ rhs) :
    t < rules.terminalCount := by
  by_cases user : p = rules.goal
  · have same := Option.some.inj (rule.symm.trans (user ▸ proper.goal))
    obtain rfl := (Production.mk.inj same).2
    simp only [List.mem_cons, Symbol.terminal.injEq, List.not_mem_nil, or_false, false_or,
      reduceCtorEq] at member
    exact member ▸ proper.eof
  · exact ((proper.usable user rule).2 _ member).1

theorem next_terminal (proper : rules.Proper) {item : Item} {t : Nat}
    (h : rules.next item = some (.terminal t)) : t < rules.terminalCount := by
  obtain ⟨lhs, rule⟩ := rule_of_next h
  exact proper.terminal_lt rule (mem_rhs_of_next h)

theorem ne_goal (proper : rules.Proper) {p n : Nat} {rhs : List (Symbol Nat)}
    (rule : rules.productions[p]? = some ⟨n, rhs⟩) (bound : n + 1 < rules.nonterminalCount) :
    p ≠ rules.goal := by
  rintro rfl
  have same := Option.some.inj (rule.symm.trans proper.goal)
  have lhs := congrArg Production.lhs same
  simp only at lhs
  omega

theorem eof_not_mem (proper : rules.Proper) {p lhs : Nat} {rhs : List (Symbol Nat)}
    (rule : rules.productions[p]? = some ⟨lhs, rhs⟩) (user : p ≠ rules.goal) :
    .terminal rules.eof ∉ rhs :=
  fun member => ((proper.usable user rule).2 _ member).2 rfl

/-- One item alone waits for the end of the input. -/
theorem item_of_next_eof (proper : rules.Proper) {item : Item}
    (next : rules.next item = some (.terminal rules.eof)) : item = ⟨rules.goal, 1⟩ := by
  have goal : item.production = rules.goal := by
    by_contra user
    obtain ⟨lhs, rule⟩ := rule_of_next next
    exact proper.eof_not_mem rule user (mem_rhs_of_next next)
  obtain ⟨production, dot⟩ := item
  subst goal
  rw [Rules.next, proper.rhs_goal] at next
  match dot with
  | 0 => simp at next
  | 1 => rfl
  | dot + 2 => simp at next

theorem lhs_lt (proper : rules.Proper) {p lhs : Nat} {rhs : List (Symbol Nat)}
    (rule : rules.productions[p]? = some ⟨lhs, rhs⟩) : lhs < rules.nonterminalCount := by
  by_cases user : p = rules.goal
  · have same := Option.some.inj (rule.symm.trans (user ▸ proper.goal))
    have bound := proper.start
    obtain rfl := (Production.mk.inj same).1
    omega
  · have bound := (proper.usable user rule).1
    omega

end Proper

end Rules

namespace Grammar

variable {τ υ : Type}

theorem freeze_eq {grammar : Grammar τ υ} {frozen : FrozenGrammar τ υ}
    (h : grammar.freeze = .ok frozen) :
    ∃ start, grammar.start = some start ∧
      frozen = ⟨grammar.lexicon, grammar.rulesFrom start, grammar.handlers⟩ := by
  unfold freeze at h
  split at h
  · contradiction
  · rename_i start found
    exact ⟨start, found, (Except.ok.inj h).symm⟩

theorem rulesFrom_rule {grammar : Grammar τ υ} {start p : Nat} {production : Production}
    (h : grammar.productions[p]? = some production) :
    (grammar.rulesFrom start).productions[p]? = some production := by
  have bound := (Array.getElem?_eq_some_iff.1 h).1
  simp only [rulesFrom, Array.getElem?_push, Nat.ne_of_lt bound, ↓reduceIte]
  exact h

theorem rule_of_rulesFrom {grammar : Grammar τ υ} {start p : Nat} {production : Production}
    (h : (grammar.rulesFrom start).productions[p]? = some production)
    (user : p ≠ (grammar.rulesFrom start).goal) : grammar.productions[p]? = some production := by
  simp only [rulesFrom, Array.getElem?_push] at h user
  rwa [if_neg user] at h

theorem rulesFrom_carries (grammar : Grammar τ υ) (start : Nat) :
    Carries (fun _ => True) grammar.productions (grammar.rulesFrom start).productions :=
  fun _ _ _ _ rule => ⟨rulesFrom_rule rule, fun _ _ => trivial⟩

def Declares (grammar : Grammar τ υ) : Symbol Nat → Prop
  | .terminal _ => True
  | .nonterminal n => n < grammar.names.size

variable [Fingerprint τ]

theorem WellFormed.carries {grammar : Grammar τ υ} {eof : τ} (wf : grammar.WellFormed eof)
    (start : Nat) :
    Carries grammar.Declares (grammar.rulesFrom start).productions grammar.productions := by
  intro p lhs rhs declared rule
  have user : p ≠ (grammar.rulesFrom start).goal := by
    rintro rfl
    simp only [rulesFrom, Array.getElem?_push, ↓reduceIte, Option.some.injEq,
      Production.mk.injEq] at rule
    exact Nat.lt_irrefl _ (rule.1 ▸ declared)
  have same := rule_of_rulesFrom rule user
  refine ⟨same, fun symbol member => ?_⟩
  have fits := (wf.admits same).2 symbol member
  cases symbol with
  | terminal t => trivial
  | nonterminal n => exact fits

theorem rulesFrom_proper {grammar : Grammar τ υ} {eof : τ} (wf : grammar.WellFormed eof)
    {start : Nat} (found : grammar.start = some start) : (grammar.rulesFrom start).Proper := by
  constructor
  · exact Interner.get?_lt wf.eof
  · simpa [Rules.nonterminalCount, rulesFrom] using wf.start start found
  · simp [Rules.nonterminalCount, rulesFrom]
  · simp [rulesFrom]
  · intro p lhs rhs user rule
    obtain ⟨declared, symbols⟩ := wf.admits (rule_of_rulesFrom rule user)
    refine ⟨by simpa [Rules.nonterminalCount, rulesFrom] using declared, fun x member => ?_⟩
    have fits := symbols x member
    cases x with
    | terminal t => exact fits
    | nonterminal n =>
      simpa [Rules.Usable, Admits, Rules.nonterminalCount, rulesFrom] using fits
  · intro p n
    have old := wf.filed (p := p) (n := n)
    simp only [Rules.productionsOf, productionsOf, rulesFrom, Array.getD_eq_getD_getElem?,
      Array.getElem?_push] at old ⊢
    have outside : ∀ rhs, grammar.productions[p]? = some ⟨n, rhs⟩ →
        n ≠ grammar.names.size ∧ p ≠ grammar.productions.size := by
      intro rhs rule
      exact ⟨Nat.ne_of_lt (wf.admits rule).1, Nat.ne_of_lt (Array.getElem?_eq_some_iff.1 rule).1⟩
    by_cases goal : n = grammar.names.size <;> by_cases last : p = grammar.productions.size
    · simp [goal, last, wf.rows]
    · simp only [goal, wf.rows, ↓reduceIte, Option.getD_some, List.mem_singleton, last, false_iff]
      rintro ⟨rhs, rule⟩
      exact (outside rhs (goal ▸ rule)).1 goal
    · simp only [wf.rows, goal, ↓reduceIte, last, Option.some.injEq, Production.mk.injEq,
        Ne.symm goal, false_and, exists_false, iff_false]
      intro member
      obtain ⟨rhs, rule⟩ := old.1 (last ▸ member)
      exact (outside rhs rule).2 last
    · simp only [wf.rows, goal, ↓reduceIte, old, last]

theorem freeze_proper [DecidableEq τ] [Spelling τ] {eof : τ} {calls : List (Registration τ υ)}
    {frozen : FrozenGrammar τ υ} (froze : (assemble eof calls).freeze = .ok frozen) :
    frozen.rules.Proper := by
  obtain ⟨start, declared, rfl⟩ := freeze_eq froze
  exact rulesFrom_proper (assemble_wellFormed eof calls) declared

end Grammar

end CanonicalLR
