import CanonicalLR.Proofs.Correspondence
import Mathlib.Data.Set.Function
/-
Grammars that are the same up to ids as far as the start symbol leads. Non-terminals, productions
and terminals may have been registered in any order and next to any others; the finished rules then
agree, the goal of one being paired with the goal of the other.
-/
namespace CanonicalLR

variable {τ υ : Type}

def SameKind (lexicon lexicon' : Lexicon τ) (t t' : Nat) : Prop :=
  ∃ kind, lexicon.get? t = some kind ∧ lexicon'.get? t' = some kind

theorem sameKind_biUnique [Fingerprint τ] {lexicon lexicon' : Lexicon τ}
    (faithful : lexicon.Faithful) (faithful' : lexicon'.Faithful) :
    Relator.BiUnique (SameKind lexicon lexicon') := by
  constructor
  · intro t u v first second
    obtain ⟨kind, one, there⟩ := first
    obtain ⟨kind', two, there'⟩ := second
    obtain rfl := Option.some.inj (there.symm.trans there')
    exact faithful.distinct one two
  · intro t u v first second
    obtain ⟨kind, here, one⟩ := first
    obtain ⟨kind', here', two⟩ := second
    obtain rfl := Option.some.inj (here.symm.trans here')
    exact faithful'.distinct one two

def PairedBy (inside : Nat → Prop) (f : Nat → Nat) (last last' a b : Nat) : Prop :=
  inside a ∧ f a = b ∨ a = last ∧ b = last'

theorem pairedBy_biUnique {inside inside' : Nat → Prop} {f : Nat → Nat} {last last' : Nat}
    (bij : Set.BijOn f {a | inside a} {b | inside' b}) (bound : ∀ a, inside a → a < last)
    (bound' : ∀ b, inside' b → b < last') : Relator.BiUnique (PairedBy inside f last last') := by
  have image : ∀ a, inside a → f a < last' := fun a here => bound' _ (bij.mapsTo here)
  constructor
  · rintro a b c (⟨here, rfl⟩ | ⟨rfl, rfl⟩) (⟨there, same⟩ | ⟨rfl, same⟩)
    · exact bij.injOn here there same.symm
    · exact absurd same (Nat.ne_of_lt (image a here))
    · exact absurd same (Nat.ne_of_lt (image b there))
    · rfl
  · rintro a b c (⟨here, rfl⟩ | ⟨rfl, rfl⟩) (⟨there, rfl⟩ | ⟨same, rfl⟩)
    · rfl
    · exact absurd same (Nat.ne_of_lt (bound a here))
    · exact absurd (bound _ there) (Nat.lt_irrefl _)
    · rfl

namespace Grammar

/-- The non-terminals that the start leads to by way of right sides. -/
inductive Reaches (grammar : Grammar τ υ) (start : Nat) : Nat → Prop where
  | start : Reaches grammar start start
  | through {p lhs n : Nat} {rhs : List (Symbol Nat)} (above : Reaches grammar start lhs)
      (rule : grammar.productions[p]? = some ⟨lhs, rhs⟩) (member : .nonterminal n ∈ rhs) :
      Reaches grammar start n

def Uses (grammar : Grammar τ υ) (start p : Nat) : Prop :=
  ∃ lhs rhs, grammar.productions[p]? = some ⟨lhs, rhs⟩ ∧ grammar.Reaches start lhs

/-- What the start leads to in one grammar is, up to ids, what it leads to in the other: names,
right sides with their terminals, and handlers are the same. -/
structure Renames (grammar grammar' : Grammar τ υ) (start start' : Nat)
    (rename reorder : Nat → Nat) : Prop where
  nonterminals : Set.BijOn rename {n | grammar.Reaches start n} {n | grammar'.Reaches start' n}
  opening : rename start = start'
  names {n : Nat} : grammar.Reaches start n → grammar'.names[rename n]? = grammar.names[n]?
  productions : Set.BijOn reorder {p | grammar.Uses start p} {p | grammar'.Uses start' p}
  rules {p lhs : Nat} {rhs : List (Symbol Nat)} : grammar.Reaches start lhs →
    grammar.productions[p]? = some ⟨lhs, rhs⟩ →
      ∃ rhs', grammar'.productions[reorder p]? = some ⟨rename lhs, rhs'⟩ ∧
        List.Forall₂ (Paired (SameKind grammar.lexicon grammar'.lexicon) fun n n' => rename n = n')
          rhs rhs'
  handlers {p : Nat} : grammar.Uses start p → grammar'.handlers[reorder p]? = grammar.handlers[p]?

variable {grammar grammar' : Grammar τ υ} {start start' : Nat} {rename reorder : Nat → Nat}

theorem Uses.lt {p : Nat} (h : grammar.Uses start p) : p < grammar.productions.size := by
  obtain ⟨lhs, rhs, rule, _⟩ := h
  exact (Array.getElem?_eq_some_iff.1 rule).1

theorem Reaches.uses {p lhs : Nat} {rhs : List (Symbol Nat)} (h : grammar.Reaches start lhs)
    (rule : grammar.productions[p]? = some ⟨lhs, rhs⟩) : grammar.Uses start p :=
  ⟨lhs, rhs, rule, h⟩

abbrev NamesPaired (grammar grammar' : Grammar τ υ) (start : Nat) (rename : Nat → Nat) :
    Nat → Nat → Prop :=
  PairedBy (grammar.Reaches start) rename grammar.names.size grammar'.names.size

abbrev ProductionsPaired (grammar grammar' : Grammar τ υ) (start : Nat) (reorder : Nat → Nat) :
    Nat → Nat → Prop :=
  PairedBy (grammar.Uses start) reorder grammar.productions.size grammar'.productions.size

theorem Reaches.paired {p lhs : Nat} {rhs rhs' : List (Symbol Nat)} {kinds : Nat → Nat → Prop}
    (above : grammar.Reaches start lhs) (rule : grammar.productions[p]? = some ⟨lhs, rhs⟩)
    (same : List.Forall₂ (Paired kinds fun n n' => rename n = n') rhs rhs') :
    List.Forall₂ (Paired kinds (NamesPaired grammar grammar' start rename)) rhs rhs' := by
  have reached : ∀ n, .nonterminal n ∈ rhs → grammar.Reaches start n :=
    fun n member => .through above rule member
  clear rule
  induction same with
  | nil => exact .nil
  | cons first _ ih =>
    refine .cons ?_ (ih fun n member => reached n (List.mem_cons_of_mem _ member))
    cases first with
    | terminal kind => exact .terminal kind
    | nonterminal name => exact .nonterminal (Or.inl ⟨reached _ List.mem_cons_self, name⟩)

variable [Fingerprint τ] {eof : τ}

theorem WellFormed.reaches_lt (wf : grammar.WellFormed eof) (declared : grammar.start = some start)
    {n : Nat} (h : grammar.Reaches start n) : n < grammar.names.size := by
  cases h with
  | start => exact wf.start _ declared
  | through _ rule member => exact (wf.admits rule).2 _ member

theorem WellFormed.rule_cases (wf : grammar.WellFormed eof) {p n : Nat} {rhs : List (Symbol Nat)}
    (rule : (grammar.rulesFrom start).productions[p]? = some ⟨n, rhs⟩) :
    (grammar.productions[p]? = some ⟨n, rhs⟩ ∧ n < grammar.names.size) ∨
      p = grammar.productions.size ∧ n = grammar.names.size := by
  by_cases last : p = grammar.productions.size
  · subst last
    simp only [rulesFrom, Array.getElem?_push_size, Option.some.injEq, Production.mk.injEq] at rule
    exact Or.inr ⟨rfl, rule.1.symm⟩
  · have user := rule_of_rulesFrom rule last
    exact Or.inl ⟨user, (wf.admits user).1⟩

theorem Renames.agrees (renames : grammar.Renames grammar' start start' rename reorder)
    (wf : grammar.WellFormed eof) (wf' : grammar'.WellFormed eof)
    (declared : grammar.start = some start) (declared' : grammar'.start = some start') :
    (grammar.rulesFrom start).Agrees (grammar'.rulesFrom start')
      (SameKind grammar.lexicon grammar'.lexicon) (NamesPaired grammar grammar' start rename)
      (ProductionsPaired grammar grammar' start reorder) := by
  have small : ∀ n, grammar.Reaches start n → n < grammar.names.size :=
    fun n reached => wf.reaches_lt declared reached
  have small' : ∀ n, grammar'.Reaches start' n → n < grammar'.names.size :=
    fun n reached => wf'.reaches_lt declared' reached
  constructor
  · exact rulesFrom_proper wf declared
  · exact rulesFrom_proper wf' declared'
  · exact sameKind_biUnique wf.lexicon wf'.lexicon
  · exact pairedBy_biUnique renames.nonterminals small small'
  · exact pairedBy_biUnique renames.productions (fun _ used => used.lt) (fun _ used => used.lt)
  · exact ⟨eof, wf.eof, wf'.eof⟩
  · exact Or.inr ⟨rfl, rfl⟩
  · intro p p' pair
    rcases pair with ⟨⟨lhs, rhs, rule, above⟩, same⟩ | ⟨rfl, rfl⟩
    · obtain ⟨rhs', rule', sides⟩ := renames.rules above rule
      rw [same] at rule'
      exact ⟨lhs, rhs, rename lhs, rhs', rulesFrom_rule rule, rulesFrom_rule rule',
        Or.inl ⟨above, rfl⟩, above.paired rule sides⟩
    · refine ⟨_, _, _, _, Array.getElem?_push_size, Array.getElem?_push_size,
        Or.inr ⟨rfl, rfl⟩, ?_⟩
      exact .cons (.nonterminal (Or.inl ⟨.start, renames.opening⟩))
        (.cons (.terminal ⟨eof, wf.eof, wf'.eof⟩) .nil)
  · intro n n' p name member
    obtain ⟨rhs, rule⟩ := (rulesFrom_proper wf declared).filed.1 member
    rcases wf.rule_cases rule with ⟨user, low⟩ | ⟨rfl, rfl⟩
    · rcases name with ⟨reached, _⟩ | ⟨rfl, _⟩
      · exact ⟨reorder p, Or.inl ⟨reached.uses user, rfl⟩⟩
      · exact absurd low (Nat.lt_irrefl _)
    · exact ⟨_, Or.inr ⟨rfl, rfl⟩⟩
  · intro n n' p' name member
    obtain ⟨rhs, rule⟩ := (rulesFrom_proper wf' declared').filed.1 member
    rcases wf'.rule_cases rule with ⟨user, low⟩ | ⟨rfl, rfl⟩
    · rcases name with ⟨reached, same⟩ | ⟨_, rfl⟩
      · have reached' : grammar'.Reaches start' n' := same ▸ renames.nonterminals.mapsTo reached
        obtain ⟨p, used, image⟩ := renames.productions.surjOn (reached'.uses user)
        exact ⟨p, Or.inl ⟨used, image⟩⟩
      · exact absurd low (Nat.lt_irrefl _)
    · exact ⟨_, Or.inr ⟨rfl, rfl⟩⟩

end Grammar

end CanonicalLR
