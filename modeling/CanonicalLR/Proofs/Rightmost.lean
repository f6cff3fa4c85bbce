import CanonicalLR.Proofs.Words
/-
Rightmost derivations, and grammars in which every derivation can be finished. Each word that a
string generates is reached by rewriting the last non-terminal first; and where every non-terminal
in reach derives some word, whatever can begin a string also begins a word of it.
-/
namespace CanonicalLR

/-- Rewriting of the last non-terminal: only terminals stand behind it. -/
inductive RewritesRightmost (productions : Array Production) :
    List (Symbol Nat) → List (Symbol Nat) → Prop where
  | apply {production lhs : Nat} {rhs : List (Symbol Nat)} (before : List (Symbol Nat))
      (after : List Nat) (rule : productions[production]? = some ⟨lhs, rhs⟩) :
      RewritesRightmost productions (before ++ .nonterminal lhs :: after.map .terminal)
        (before ++ rhs ++ after.map .terminal)

abbrev DerivesRightmost (productions : Array Production) :
    List (Symbol Nat) → List (Symbol Nat) → Prop :=
  Relation.ReflTransGen (RewritesRightmost productions)

/-- Every non-terminal that the start symbol leads to derives a terminal string. -/
def Productive (productions : Array Production) (start : Nat) : Prop :=
  ∀ (n : Nat) (before after : List (Symbol Nat)),
    Derives productions [.nonterminal start] (before ++ .nonterminal n :: after) →
      ∃ word : List Nat, Derives productions [.nonterminal n] (word.map .terminal)

variable {productions : Array Production}

theorem DerivesRightmost.context {xs ys : List (Symbol Nat)}
    (h : DerivesRightmost productions xs ys) (before : List (Symbol Nat)) (after : List Nat) :
    DerivesRightmost productions (before ++ xs ++ after.map .terminal)
      (before ++ ys ++ after.map .terminal) := by
  induction h with
  | refl => exact .refl
  | tail _ step ih =>
    refine ih.tail ?_
    cases step with
    | apply left right rule =>
      simpa using RewritesRightmost.apply (before ++ left) (right ++ after) rule

namespace Generates

theorem rightmost {symbols : List (Symbol Nat)} {word calls : List Nat}
    (h : Generates productions symbols word calls) :
    DerivesRightmost productions symbols (word.map .terminal) := by
  induction h with
  | nil => exact .refl
  | @terminal t _ _ _ _ ih => simpa using ih.context [.terminal t] []
  | @nonterminal _ lhs rhs rest u v _ _ rule _ _ ihBelow ihTail =>
    have last := ihTail.context [.nonterminal lhs] []
    have root : RewritesRightmost productions (.nonterminal lhs :: v.map .terminal)
        (rhs ++ v.map .terminal) := .apply [] v rule
    have first := ihBelow.context [] v
    simp only [List.nil_append, List.singleton_append, List.map_nil, List.append_nil] at last first
    rw [List.map_append]
    exact (last.tail root).trans first

theorem split {xs ys : List (Symbol Nat)} {word calls : List Nat}
    (h : Generates productions (xs ++ ys) word calls) :
    ∃ u v cs ds, word = u ++ v ∧ Generates productions xs u cs ∧ Generates productions ys v ds := by
  induction xs generalizing word calls with
  | nil => exact ⟨[], word, [], calls, rfl, .nil, h⟩
  | cons x xs ih =>
    cases h with
    | @terminal t _ _ _ tail =>
      obtain ⟨u, v, cs, ds, rfl, hx, hy⟩ := ih tail
      exact ⟨t :: u, v, cs, ds, rfl, .terminal hx, hy⟩
    | nonterminal rule below tail =>
      obtain ⟨u, v, cs, ds, rfl, hx, hy⟩ := ih tail
      exact ⟨_, v, _, ds, (List.append_assoc _ _ _).symm, .nonterminal rule below hx, hy⟩

theorem of_derives {symbols : List (Symbol Nat)} {word : List Nat}
    (h : Derives productions symbols (word.map .terminal)) :
    ∃ calls, Generates productions symbols word calls := by
  induction h using Relation.ReflTransGen.head_induction_on with
  | refl => exact ⟨[], .terminals word⟩
  | head step _ ih =>
    cases step with
    | apply left right rule =>
      obtain ⟨calls, made⟩ := ih
      obtain ⟨front, last, _, _, rfl, inner, behind⟩ := made.split
      obtain ⟨first, middle, _, _, rfl, outer, below⟩ := inner.split
      rw [List.append_assoc]
      exact ⟨_, outer.append (.nonterminal rule below behind)⟩

theorem of_each {symbols : List (Symbol Nat)}
    (each : ∀ symbol ∈ symbols, ∃ word calls, Generates productions [symbol] word calls) :
    ∃ word calls, Generates productions symbols word calls := by
  induction symbols with
  | nil => exact ⟨[], [], .nil⟩
  | cons symbol rest ih =>
    rw [List.forall_mem_cons] at each
    obtain ⟨first, calls, head⟩ := each.1
    obtain ⟨second, later, tail⟩ := ih each.2
    exact ⟨first ++ second, calls ++ later, head.append tail⟩

end Generates

def InReach (productions : Array Production) (start : Nat) : Symbol Nat → Prop
  | .terminal _ => True
  | .nonterminal n => ∃ before after,
      Derives productions [.nonterminal start] (before ++ .nonterminal n :: after)

theorem inReach_carries (start : Nat) :
    Carries (InReach productions start) productions productions := by
  rintro p lhs rhs ⟨before, after, derives⟩ rule
  refine ⟨rule, ?_⟩
  intro symbol member
  cases symbol with
  | terminal t => trivial
  | nonterminal n =>
    obtain ⟨left, right, rfl⟩ := List.append_of_mem member
    refine ⟨before ++ left, right ++ after, derives.tail ?_⟩
    simpa using Rewrites.apply before after rule

namespace Productive

variable {start : Nat} {symbols : List (Symbol Nat)}

theorem generates (productive : Productive productions start)
    (inReach : ∀ symbol ∈ symbols, InReach productions start symbol) :
    ∃ word calls, Generates productions symbols word calls := by
  apply Generates.of_each
  intro symbol member
  cases symbol with
  | terminal t => exact ⟨[t], [], .terminal .nil⟩
  | nonterminal n =>
    obtain ⟨before, after, derives⟩ := inReach _ member
    obtain ⟨word, whole⟩ := productive n before after derives
    exact ⟨word, Generates.of_derives whole⟩

theorem generates_start (productive : Productive productions start) {word : List Nat} {t : Nat}
    (starts : Starts productions symbols word t)
    (inReach : ∀ symbol ∈ symbols, InReach productions start symbol) :
    ∃ rest calls, Generates productions symbols (word ++ t :: rest) calls := by
  induction starts with
  | here =>
    rw [List.forall_mem_cons] at inReach
    obtain ⟨rest, calls, made⟩ := productive.generates inReach.2
    exact ⟨rest, calls, .terminal made⟩
  | descend rule _ ih =>
    rw [List.forall_mem_cons] at inReach
    obtain ⟨inner, calls, below⟩ := ih (inReach_carries start inReach.1 rule).2
    obtain ⟨rest, later, tail⟩ := productive.generates inReach.2
    have whole := Generates.nonterminal rule below tail
    rw [List.append_assoc, List.cons_append] at whole
    exact ⟨inner ++ rest, _, whole⟩
  | skip whole _ ih =>
    rw [List.forall_mem_cons] at inReach
    obtain ⟨rest, later, tail⟩ := ih inReach.2
    have joined := whole.append tail
    rw [← List.append_assoc, List.singleton_append] at joined
    exact ⟨rest, _, joined⟩

end Productive

end CanonicalLR
