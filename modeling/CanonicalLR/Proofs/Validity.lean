import CanonicalLR.Proofs.Reachability
import CanonicalLR.Proofs.Rightmost
import CanonicalLR.Proofs.Soundness
/-
The states of the automaton are the sets of valid items. An item with a lookahead is valid for a
string if a rightmost derivation of the goal shows both; the state that the string leads to holds
exactly these, provided that every non-terminal in reach derives some word.
-/
namespace CanonicalLR

def Automaton.walk (automaton : Automaton) (symbols : List (Symbol Nat)) : Option Nat :=
  symbols.foldlM automaton.transition automaton.start

theorem Automaton.walk_eq_some_iff {automaton : Automaton} {symbols : List (Symbol Nat)} {s : Nat} :
    automaton.walk symbols = some s ↔ ∃ below, automaton.Trail (s :: below) symbols.reverse := by
  induction symbols using List.reverseRecOn generalizing s with
  | nil =>
    constructor
    · intro found
      obtain rfl : automaton.start = s := Option.some.inj found
      exact ⟨[], .start⟩
    · rintro ⟨below, path⟩
      cases path
      rfl
  | append_singleton symbols symbol ih =>
    have step : automaton.walk (symbols ++ [symbol]) =
        (automaton.walk symbols).bind fun last => automaton.transition last symbol := by
      simp [walk, List.foldlM_append]
    rw [step, Option.bind_eq_some_iff, List.reverse_append, List.reverse_singleton,
      List.singleton_append]
    constructor
    · rintro ⟨last, found, edge⟩
      obtain ⟨below, path⟩ := ih.1 found
      exact ⟨last :: below, path.step edge⟩
    · rintro ⟨below, path⟩
      cases path with
      | @step last _ below _ _ path edge => exact ⟨last, ih.2 ⟨below, path⟩, edge⟩

namespace Rules

def root (rules : Rules) : Symbol Nat := .nonterminal (rules.nonterminalCount - 1)

/-- A rightmost derivation of the goal reaches the left side of the item's production behind
`before`; the string consists of this and the symbols in front of the dot, and the lookahead comes
next. Behind the goal itself comes the end of the input. -/
inductive Valid (rules : Rules) : List (Symbol Nat) → Item → Nat → Prop where
  | mk {p dot lhs t : Nat} {rhs before : List (Symbol Nat)} {after : List Nat}
      (rule : rules.productions[p]? = some ⟨lhs, rhs⟩) (dotted : dot ≤ rhs.length)
      (derives : DerivesRightmost rules.productions [rules.root]
        (before ++ .nonterminal lhs :: after.map .terminal))
      (ahead : (after ++ [rules.eof]).head? = some t) :
      Valid rules (before ++ rhs.take dot) ⟨p, dot⟩ t

variable {rules : Rules}

theorem opening_inReach (rules : Rules) :
    ∀ symbol ∈ rules.opening, InReach rules.productions rules.start symbol := by
  intro symbol member
  simp only [opening, List.mem_cons, List.not_mem_nil, or_false] at member
  rcases member with rfl | rfl
  · exact ⟨[], [], .refl⟩
  · trivial

theorem Viable.inReach (proper : rules.Proper) {stack : List (Symbol Nat)} {item : Item}
    {look : Option Nat} (h : rules.Viable stack item look) :
    ∀ symbol ∈ rules.rest item, InReach rules.productions rules.start symbol := by
  obtain ⟨behind, form, _⟩ := h.form proper
  have all := (form.carry (inReach_carries rules.start) rules.opening_inReach).2
  intro symbol member
  exact all symbol (List.mem_append_left _ (List.mem_append_right _ member))

theorem Viable.after_inReach (proper : rules.Proper) {stack : List (Symbol Nat)} {item : Item}
    {look : Option Nat} {symbol : Symbol Nat} (h : rules.Viable stack item look)
    (next : rules.next item = some symbol) :
    ∀ symbol ∈ rules.after item, InReach rules.productions rules.start symbol := by
  intro symbol member
  apply h.inReach proper
  rw [rest_of_next next]
  exact List.mem_cons_of_mem _ member

theorem Viable.generates_behind (proper : rules.Proper)
    (productive : Productive rules.productions rules.start) {stack : List (Symbol Nat)}
    {item : Item} {look handed : Option Nat} {n : Nat} (h : rules.Viable stack item look)
    (next : rules.next item = some (.nonterminal n))
    (hands : Hands rules.productions (rules.after item) look handed) :
    ∃ word calls, Generates rules.productions (rules.after item) word calls ∧
      ∀ t, handed = some t → word.head? = some t ∨ word = [] ∧ look = some t := by
  have inReach := h.after_inReach proper next
  cases hands with
  | present =>
    obtain ⟨word, calls, made⟩ := productive.generates inReach
    exact ⟨word, calls, made, by simp⟩
  | begins starts =>
    obtain ⟨rest, calls, made⟩ := productive.generates_start starts inReach
    exact ⟨_, calls, made, by simp⟩
  | inherits vanishes =>
    obtain ⟨calls, made⟩ := vanishes
    exact ⟨[], calls, made, by simp⟩

theorem Viable.rightmost (proper : rules.Proper)
    (productive : Productive rules.productions rules.start) {stack : List (Symbol Nat)}
    {item : Item} {look : Option Nat} (h : rules.Viable stack item look) :
    ∃ lhs before after,
      rules.productions[item.production]? = some ⟨lhs, rules.rhs item.production⟩ ∧
      stack.reverse = before ++ (rules.rhs item.production).take item.dot ∧
      DerivesRightmost rules.productions [rules.root]
        (before ++ .nonterminal lhs :: after.map .terminal) ∧
      ∀ t, look = some t → (after ++ [rules.eof]).head? = some t := by
  induction h with
  | seed shown =>
    refine ⟨_, [], [], ?_, by simp, .refl, ?_⟩
    · rw [proper.rhs_goal]
      exact proper.goal
    · rcases shown with rfl | rfl <;> simp
  | advance source next inside ih =>
    obtain ⟨lhs, before, after, rule, split, derives, ahead⟩ := ih
    refine ⟨lhs, before, after, rule, ?_, derives, ahead⟩
    have found := next
    unfold Rules.next at found
    simp only [Item.advance, List.reverse_cons, split, List.take_add_one, found]
    simp
  | @predict stack item look handed n p source next member hands ih =>
    obtain ⟨lhs, before, after, rule, split, derives, ahead⟩ := ih
    obtain ⟨rhs, predicted⟩ := proper.filed.1 member
    obtain ⟨word, calls, made, first⟩ := source.generates_behind proper productive next hands
    refine ⟨n, stack.reverse, word ++ after, ?_, by simp, ?_, ?_⟩
    · simp only [rhs_eq predicted]
      exact predicted
    · have applied := derives.tail (.apply before after rule)
      have finished := made.rightmost.context (stack.reverse ++ [.nonterminal n]) after
      rw [← take_append_after next, ← List.append_assoc, ← split] at applied
      refine applied.trans ?_
      simpa using finished
    · rintro t rfl
      rcases first t rfl with begins | ⟨rfl, inherited⟩
      · cases word with
        | nil => simp at begins
        | cons a word => simpa using begins
      · simpa using ahead t inherited

theorem Proper.root_rule (proper : rules.Proper) {p : Nat} {rhs : List (Symbol Nat)}
    (rule : rules.productions[p]? = some ⟨rules.nonterminalCount - 1, rhs⟩) :
    p = rules.goal ∧ rhs = rules.opening := by
  have goal : p = rules.goal := by
    by_contra user
    have bound := (proper.usable user rule).1
    omega
  subst goal
  exact ⟨rfl, (Production.mk.inj (Option.some.inj (rule.symm.trans proper.goal))).2⟩

theorem Proper.eof_not_mem_before (proper : rules.Proper) {p lhs n : Nat}
    {before after : List (Symbol Nat)}
    (rule : rules.productions[p]? = some ⟨lhs, before ++ .nonterminal n :: after⟩) :
    .terminal rules.eof ∉ before := by
  intro member
  by_cases user : p = rules.goal
  · have whole := (Production.mk.inj (Option.some.inj (rule.symm.trans (user ▸ proper.goal)))).2
    cases before with
    | nil => simp at member
    | cons x before => cases before <;> simp_all
  · exact proper.eof_not_mem rule user (List.mem_append_left _ member)

theorem Hands.unrewrite {productions : Array Production} {xs ys : List (Symbol Nat)}
    (step : Rewrites productions xs ys) {look : Option Nat}
    (hands : Hands productions ys none look) : Hands productions xs none look := by
  cases hands with
  | present => exact .present
  | begins starts => exact .begins (.unrewrite step starts)

/-- An item that is viable with whatever may follow it predicts, behind the symbols in front of a
non-terminal, the productions of the latter with whatever may follow those. -/
theorem Proper.viable_inside (proper : rules.Proper) {q lhs n p : Nat}
    {front behind follow left : List (Symbol Nat)} {look : Option Nat}
    (rule : rules.productions[q]? = some ⟨lhs, front ++ .nonterminal n :: behind⟩)
    (viable : ∀ handed, Hands rules.productions follow none handed →
      rules.Viable left.reverse ⟨q, 0⟩ handed)
    (member : p ∈ rules.productionsOf n)
    (hands : Hands rules.productions (behind ++ follow) none look) :
    rules.Viable (left ++ front).reverse ⟨p, 0⟩ look := by
  have moved : ∀ handed, Hands rules.productions follow none handed →
      rules.Viable (left ++ front).reverse ⟨q, front.length⟩ handed := by
    intro handed followed
    have origin := viable handed followed
    have advanced := origin.advances (rest_start rule) (proper.eof_not_mem_before rule)
    simpa using advanced
  have rest : rules.rest ⟨q, front.length⟩ = .nonterminal n :: behind := by
    simp [Rules.rest, rhs_eq rule]
  obtain ⟨next, after⟩ := rest_cons rest
  cases hands with
  | present => exact .predict (moved none .present) next member .present
  | @begins t starts =>
    rcases starts.split with inner | ⟨u, v, calls, empty, made, later⟩
    · exact .predict (moved none .present) next member (after ▸ .begins inner)
    · obtain ⟨rfl, rfl⟩ := List.nil_eq_append_iff.1 empty
      have vanishes : Vanishes rules.productions behind := ⟨calls, made⟩
      exact .predict (moved (some t) (.begins later)) next member (after ▸ .inherits vanishes)

theorem Proper.viable_of_rightmost (proper : rules.Proper) {form : List (Symbol Nat)}
    (h : DerivesRightmost rules.productions [rules.root] form) {before after : List (Symbol Nat)}
    {n p : Nat} {look : Option Nat} (split : form = before ++ .nonterminal n :: after)
    (member : p ∈ rules.productionsOf n)
    (hands : Hands rules.productions (after ++ [.terminal rules.eof]) none look) :
    rules.Viable before.reverse ⟨p, 0⟩ look := by
  induction h generalizing before after n p look with
  | refl =>
    cases before with
    | cons x before => simp at split
    | nil =>
      obtain ⟨lhs, rfl⟩ := List.cons.inj split
      obtain rfl := Symbol.nonterminal.inj lhs
      obtain ⟨rhs, rule⟩ := proper.filed.1 member
      obtain ⟨rfl, _⟩ := proper.root_rule rule
      cases hands with
      | present => exact .seed (Or.inl rfl)
      | begins starts => exact .seed (Or.inr (congrArg some (starts.of_terminal rfl)))
  | tail _ step ih =>
    cases step with
    | @apply q lhs rhs left right rule =>
      rcases append_eq_append_cons split with ⟨middle, inside, rfl⟩ | ⟨middle, _, outside⟩
      · rcases append_eq_append_cons inside with ⟨behind, rfl, rfl⟩ | ⟨front, rfl, rfl⟩
        · have place : before ++ .nonterminal n :: behind ++ .nonterminal lhs ::
              right.map .terminal = before ++ .nonterminal n ::
                (behind ++ .nonterminal lhs :: right.map .terminal) := by simp
          refine ih place member (Hands.unrewrite ?_ hands)
          simpa using Rewrites.apply behind (right.map .terminal ++ [.terminal rules.eof]) rule
        · rw [List.append_assoc] at hands
          refine proper.viable_inside rule ?_ member hands
          intro handed followed
          exact ih rfl (proper.filed.2 ⟨_, rule⟩) followed
      · have listed : Symbol.nonterminal n ∈ right.map Symbol.terminal := by
          rw [outside]
          simp
        simp at listed

theorem Proper.valid_iff (proper : rules.Proper)
    (productive : Productive rules.productions rules.start) {symbols : List (Symbol Nat)}
    (inside : .terminal rules.eof ∉ symbols) {item : Item} {t : Nat} :
    rules.Valid symbols item t ↔ rules.Viable symbols.reverse item (some t) := by
  constructor
  · intro valid
    cases valid with
    | @mk p dot lhs _ rhs before after rule dotted derives ahead =>
      have starts : Starts rules.productions (after.map .terminal ++ [.terminal rules.eof]) []
          t := by
        simpa using Starts.of_head ahead
      have predicted := proper.viable_of_rightmost derives rfl (proper.filed.2 ⟨rhs, rule⟩)
        (.begins starts)
      have rest : rules.rest ⟨p, 0⟩ = rhs.take dot ++ rhs.drop dot := by
        rw [rest_start rule, List.take_append_drop]
      have moved := predicted.advances rest fun member =>
        inside (List.mem_append_right _ member)
      simpa [List.length_take_of_le dotted] using moved
  · intro viable
    obtain ⟨dotted, _⟩ := viable.unwind
    obtain ⟨lhs, before, after, rule, split, derives, ahead⟩ := viable.rightmost proper productive
    rw [List.reverse_reverse] at split
    rw [split]
    exact .mk rule dotted derives (ahead t rfl)

theorem Viable.valid_exists (proper : rules.Proper)
    (productive : Productive rules.productions rules.start) {stack : List (Symbol Nat)}
    {item : Item} {look : Option Nat} (viable : rules.Viable stack item look) :
    ∃ t, rules.Valid stack.reverse item t := by
  obtain ⟨dotted, _⟩ := viable.unwind
  obtain ⟨lhs, before, after, rule, split, derives, _⟩ := viable.rightmost proper productive
  obtain ⟨t, ahead⟩ : ∃ t, (after ++ [rules.eof]).head? = some t :=
    Option.isSome_iff_exists.1 (by simp)
  exact ⟨t, split ▸ .mk rule dotted derives ahead⟩

end Rules

namespace Grammar.WellFormed

variable {τ υ : Type} [Fingerprint τ] {grammar : Grammar τ υ} {eof : τ} {start : Nat}

theorem derives_declared (wf : grammar.WellFormed eof) (declared : grammar.start = some start)
    {form : List (Symbol Nat)}
    (derives : Derives (grammar.rulesFrom start).productions [.nonterminal start] form) :
    Derives grammar.productions [.nonterminal start] form ∧
      ∀ symbol ∈ form, grammar.Declares symbol := by
  refine derives.carry (wf.carries start) ?_
  simpa [Declares] using wf.start start declared

theorem rulesFrom_productive (wf : grammar.WellFormed eof) (declared : grammar.start = some start)
    (productive : Productive grammar.productions start) :
    Productive (grammar.rulesFrom start).productions start := by
  intro n before after derives
  obtain ⟨word, made⟩ := productive n before after (wf.derives_declared declared derives).1
  exact ⟨word, (made.carry (grammar.rulesFrom_carries start) fun _ _ => trivial).1⟩

theorem productive_of_words (wf : grammar.WellFormed eof) (declared : grammar.start = some start)
    (words : ∀ n < grammar.names.size,
      ∃ word : List Nat, Derives grammar.productions [.nonterminal n] (word.map .terminal)) :
    Productive grammar.productions start := by
  intro n before after derives
  have inner := (derives.carry (grammar.rulesFrom_carries start) fun _ _ => trivial).1
  have known := (wf.derives_declared declared inner).2 (.nonterminal n) (by simp)
  exact words n known

end Grammar.WellFormed

variable {τ υ : Type} [DecidableEq τ] [Fingerprint τ] [Spelling τ] {eof : τ}
  {calls : List (Registration τ υ)} {frozen : FrozenGrammar τ υ}

/-- Of all strings without the end of the input, those for which some item is valid lead to a
state, and the state holds an item with a lookahead exactly if the two are valid for the string. -/
theorem state_items_valid (froze : (Grammar.assemble eof calls).freeze = .ok frozen)
    (productive : Productive frozen.rules.productions frozen.rules.start)
    (construction : Construction) {symbols : List (Symbol Nat)}
    (inside : .terminal frozen.rules.eof ∉ symbols) :
    ((∃ s, (frozen.rules.automaton (FirstFollow.ofRules frozen.rules) construction).walk symbols =
        some s) ↔ ∃ item t, frozen.rules.Valid symbols item t) ∧
    ∀ s, (frozen.rules.automaton (FirstFollow.ofRules frozen.rules) construction).walk symbols =
        some s →
      ∃ map, (frozen.rules.automaton (FirstFollow.ofRules frozen.rules) construction).items? s =
          some map ∧
        ∀ item t, (∃ set, map.get? item = some set ∧ t ∈ set) ↔
          frozen.rules.Valid symbols item t := by
  have wf := Grammar.assemble_wellFormed eof calls
  obtain ⟨start, declared, rfl⟩ := Grammar.freeze_eq froze
  have proper := Grammar.rulesFrom_proper wf declared
  have collects := proper.collects construction
  constructor
  · constructor
    · rintro ⟨s, found⟩
      obtain ⟨below, path⟩ := Automaton.walk_eq_some_iff.1 found
      obtain ⟨item, viable⟩ := path.inhabited collects proper
      obtain ⟨t, valid⟩ := viable.valid_exists proper productive
      rw [List.reverse_reverse] at valid
      exact ⟨item, t, valid⟩
    · rintro ⟨item, t, valid⟩
      have viable := (proper.valid_iff productive inside).1 valid
      obtain ⟨s, below, path⟩ := collects.trail_exists proper viable
      exact ⟨s, Automaton.walk_eq_some_iff.2 ⟨below, path⟩⟩
  · intro s found
    obtain ⟨below, path⟩ := Automaton.walk_eq_some_iff.1 found
    obtain ⟨map, stored, holds⟩ := path.items collects proper rfl
    refine ⟨map, stored, fun item t => ?_⟩
    rw [proper.valid_iff productive inside, ← holds]
    rfl

theorem state_items_valid_nested : ∃ frozen,
    (Grammar.assemble "$" nested).freeze = .ok frozen ∧
    Productive frozen.rules.productions frozen.rules.start ∧
    frozen.rules.Valid [.terminal 1, .nonterminal 0] ⟨0, 2⟩ 0 ∧
    ¬ frozen.rules.Valid [.terminal 1, .nonterminal 0] ⟨0, 2⟩ 2 := by
  obtain ⟨frozen, froze, last, held⟩ : ∃ frozen,
      (Grammar.assemble "$" nested).freeze = .ok frozen ∧ frozen.rules.eof = 0 ∧
      (((frozen.rules.automaton (FirstFollow.ofRules frozen.rules) .sequential).walk
        [.terminal 1, .nonterminal 0]).bind fun s =>
          ((frozen.rules.automaton (FirstFollow.ofRules frozen.rules) .sequential).items? s).bind
            fun map => map.get? ⟨0, 2⟩) = some (IdSet.singleton 0) :=
    exists_ok (by decide +kernel)
  have productive : Productive frozen.rules.productions frozen.rules.start := by
    have wf := Grammar.assemble_wellFormed "$" nested
    obtain ⟨start, declared, rfl⟩ := Grammar.freeze_eq froze
    refine wf.rulesFrom_productive declared (wf.productive_of_words declared ?_)
    have nothing : (Grammar.assemble "$" nested).productions[1]? = some ⟨0, []⟩ := by
      decide +kernel
    have single : (Grammar.assemble "$" nested).names.size = 1 := by decide +kernel
    intro n bound
    obtain rfl : n = 0 := by omega
    exact ⟨[], .single nothing⟩
  obtain ⟨s, found, held⟩ := Option.bind_eq_some_iff.1 held
  obtain ⟨map, stored, held⟩ := Option.bind_eq_some_iff.1 held
  have inside : Symbol.terminal frozen.rules.eof ∉ [.terminal 1, .nonterminal 0] := by simp [last]
  obtain ⟨_, items⟩ := state_items_valid froze productive .sequential inside
  obtain ⟨twin, again, valid⟩ := items s found
  obtain rfl := Option.some.inj (stored.symm.trans again)
  refine ⟨frozen, froze, productive, (valid _ _).1 ⟨_, held, by simp⟩, ?_⟩
  intro other
  obtain ⟨set, present, member⟩ := (valid _ _).2 other
  obtain rfl := Option.some.inj (held.symm.trans present)
  simp at member

end CanonicalLR
