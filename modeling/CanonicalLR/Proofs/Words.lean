import CanonicalLR.Proofs.Derivations
import Mathlib.Data.List.Forall2
/-
Terminal words under derivation. `Generates` pairs a word with the post-order of one of its
derivations, `Starts` says that what a string derives may begin with a word and one more terminal,
and both are tied to rewriting, where nothing has to be rewritten to the end.
-/
namespace CanonicalLR

theorem append_eq_append_cons {α : Type} {xs ys before after : List α} {x : α}
    (h : xs ++ ys = before ++ x :: after) :
    (∃ middle, xs = before ++ x :: middle ∧ after = middle ++ ys) ∨
      ∃ middle, before = xs ++ middle ∧ ys = middle ++ x :: after := by
  rcases List.append_eq_append_iff.1 h with right | ⟨taken, rfl, split⟩
  · exact Or.inr right
  · rcases List.cons_eq_append_iff.1 split with ⟨rfl, rfl⟩ | ⟨middle, rfl, rfl⟩
    · exact Or.inr ⟨[], by simp, rfl⟩
    · exact Or.inl ⟨middle, rfl, rfl⟩

theorem append_cons_inj {α : Type} {xs ys rest rest' : List α} {x : α}
    (ends : ∀ more, xs ≠ ys ++ x :: more) (ends' : ∀ more, ys ≠ xs ++ x :: more)
    (same : xs ++ x :: rest = ys ++ x :: rest') : xs = ys ∧ rest = rest' := by
  rcases append_eq_append_cons same with ⟨more, longer, _⟩ | ⟨more, longer, split⟩
  · exact absurd longer (ends more)
  · cases more with
    | nil =>
      rw [List.append_nil] at longer
      exact ⟨longer.symm, (List.cons.inj split).2⟩
    | cons y more =>
      obtain ⟨rfl, _⟩ := List.cons.inj split
      exact absurd longer (ends' more)

theorem append_cons_inj_of_not_mem {α : Type} {xs ys rest rest' : List α} {x : α}
    (absent : x ∉ xs) (absent' : x ∉ ys) (same : xs ++ x :: rest = ys ++ x :: rest') :
    xs = ys ∧ rest = rest' := by
  refine append_cons_inj ?_ ?_ same
  · intro more longer
    exact absent (longer ▸ List.mem_append_right ys List.mem_cons_self)
  · intro more longer
    exact absent' (longer ▸ List.mem_append_right xs List.mem_cons_self)

inductive Generates (productions : Array Production) :
    List (Symbol Nat) → List Nat → List Nat → Prop where
  | nil : Generates productions [] [] []
  | terminal {t : Nat} {rest : List (Symbol Nat)} {word calls : List Nat}
      (tail : Generates productions rest word calls) :
      Generates productions (.terminal t :: rest) (t :: word) calls
  | nonterminal {production lhs : Nat} {rhs rest : List (Symbol Nat)}
      {first second calls later : List Nat}
      (rule : productions[production]? = some ⟨lhs, rhs⟩)
      (below : Generates productions rhs first calls)
      (tail : Generates productions rest second later) :
      Generates productions (.nonterminal lhs :: rest) (first ++ second)
        (calls ++ production :: later)

inductive Rewrites (productions : Array Production) :
    List (Symbol Nat) → List (Symbol Nat) → Prop where
  | apply {production lhs : Nat} {rhs : List (Symbol Nat)} (before after : List (Symbol Nat))
      (rule : productions[production]? = some ⟨lhs, rhs⟩) :
      Rewrites productions (before ++ .nonterminal lhs :: after) (before ++ rhs ++ after)

abbrev Derives (productions : Array Production) : List (Symbol Nat) → List (Symbol Nat) → Prop :=
  Relation.ReflTransGen (Rewrites productions)

/-- The symbols derive a string that begins with the word and then the terminal. -/
inductive Starts (productions : Array Production) :
    List (Symbol Nat) → List Nat → Nat → Prop where
  | here {t : Nat} {rest : List (Symbol Nat)} : Starts productions (.terminal t :: rest) [] t
  | descend {production lhs t : Nat} {rhs rest : List (Symbol Nat)} {word : List Nat}
      (rule : productions[production]? = some ⟨lhs, rhs⟩) (below : Starts productions rhs word t) :
      Starts productions (.nonterminal lhs :: rest) word t
  | skip {symbol : Symbol Nat} {rest : List (Symbol Nat)} {first second calls : List Nat} {t : Nat}
      (whole : Generates productions [symbol] first calls)
      (later : Starts productions rest second t) :
      Starts productions (symbol :: rest) (first ++ second) t

variable {productions : Array Production}

namespace Generates

theorem append {xs ys : List (Symbol Nat)} {u v cs ds : List Nat}
    (hx : Generates productions xs u cs) (hy : Generates productions ys v ds) :
    Generates productions (xs ++ ys) (u ++ v) (cs ++ ds) := by
  induction hx with
  | nil => exact hy
  | terminal tail ih => exact terminal ih
  | nonterminal rule below tail _ ih =>
    simp only [List.cons_append, List.append_assoc]
    exact nonterminal rule below ih

theorem node {production lhs : Nat} {rhs : List (Symbol Nat)} {word calls : List Nat}
    (rule : productions[production]? = some ⟨lhs, rhs⟩)
    (below : Generates productions rhs word calls) :
    Generates productions [.nonterminal lhs] word (calls ++ [production]) := by
  simpa using nonterminal rule below nil

theorem terminals (word : List Nat) : Generates productions (word.map .terminal) word [] := by
  induction word with
  | nil => exact nil
  | cons t word ih => exact terminal ih

theorem no_terminal {symbols : List (Symbol Nat)} {word calls : List Nat}
    (h : Generates productions symbols word calls) (empty : word = []) (t : Nat) :
    .terminal t ∉ symbols := by
  induction h with
  | nil => simp
  | terminal => contradiction
  | nonterminal _ _ _ _ ih =>
    have tail := ih (List.append_eq_nil_iff.1 empty).2
    simpa using tail

theorem starts {symbols : List (Symbol Nat)} {t : Nat} {word whole calls : List Nat}
    (h : Generates productions symbols whole calls) (first : whole = t :: word) :
    Starts productions symbols [] t := by
  induction h generalizing word with
  | nil => contradiction
  | terminal =>
    obtain ⟨rfl, -⟩ := List.cons.inj first
    exact .here
  | @nonterminal _ _ _ _ u v calls _ rule below _ ihBelow ihTail =>
    cases u with
    | nil => exact .skip (node rule below) (ihTail first)
    | cons a u =>
      obtain ⟨rfl, -⟩ := List.cons.inj first
      exact .descend rule (ihBelow rfl)

end Generates

namespace Starts

theorem append_right {symbols : List (Symbol Nat)} {word : List Nat} {t : Nat}
    (h : Starts productions symbols word t) (rest : List (Symbol Nat)) :
    Starts productions (symbols ++ rest) word t := by
  induction h with
  | here => exact .here
  | descend rule below _ => exact .descend rule below
  | skip whole _ ih => exact .skip whole ih

theorem prepend {xs ys : List (Symbol Nat)} {u v calls : List Nat} {t : Nat}
    (hx : Generates productions xs u calls) (hy : Starts productions ys v t) :
    Starts productions (xs ++ ys) (u ++ v) t := by
  induction hx with
  | nil => exact hy
  | @terminal a _ _ _ _ ih =>
    have single : Generates productions [.terminal a] [a] [] := .terminal .nil
    exact (Starts.skip single ih :)
  | nonterminal rule below _ _ ih =>
    rw [List.append_assoc]
    exact .skip (.node rule below) ih

theorem split {xs ys : List (Symbol Nat)} {word : List Nat} {t : Nat}
    (h : Starts productions (xs ++ ys) word t) :
    Starts productions xs word t ∨ ∃ u v calls, word = u ++ v ∧ Generates productions xs u calls ∧
      Starts productions ys v t := by
  induction xs generalizing word with
  | nil => exact Or.inr ⟨[], word, [], rfl, .nil, h⟩
  | cons x xs ih =>
    cases h with
    | here => exact Or.inl .here
    | descend rule below => exact Or.inl (.descend rule below)
    | skip whole later =>
      rcases ih later with inside | ⟨u, v, calls, rfl, hx, hy⟩
      · exact Or.inl (.skip whole inside)
      · refine Or.inr ⟨_ ++ u, v, _ ++ calls, ?_, whole.append hx, hy⟩
        rw [List.append_assoc]

theorem first {symbols : List (Symbol Nat)} {word : List Nat} {t : Nat}
    (h : Starts productions symbols word t) : Starts productions symbols [] (word.headD t) := by
  induction h with
  | here => exact .here
  | descend rule _ ih => exact .descend rule ih
  | @skip symbol rest u v calls t whole later ih =>
    cases u with
    | nil => exact .skip whole ih
    | cons a u => exact (whole.starts rfl).append_right rest

theorem of_terminal {a t : Nat} {rest : List (Symbol Nat)} {word : List Nat}
    (h : Starts productions (.terminal a :: rest) word t) (empty : word = []) : t = a := by
  cases h with
  | here => rfl
  | skip whole _ =>
    obtain ⟨none, _⟩ := List.append_eq_nil_iff.1 empty
    exact absurd List.mem_cons_self (whole.no_terminal none a)

theorem of_head {word : List Nat} {t : Nat} (h : word.head? = some t) :
    Starts productions (word.map .terminal) [] t := by
  obtain ⟨rest, rfl⟩ := List.head?_eq_some_iff.1 h
  exact .here

end Starts

theorem Derivation.generates {τ υ : Type} {lexicon : Lexicon τ} {symbols : List (Symbol Nat)}
    {forest : Forest τ υ} (h : Derivation lexicon productions symbols forest) :
    ∃ word, Generates productions symbols word (Forest.calls forest) ∧
      List.Forall₂ (fun id token => lexicon.get? id = some token.kind) word
        (Forest.leaves forest) := by
  induction h with
  | nil => exact ⟨[], .nil, .nil⟩
  | leaf spelled _ ih =>
    obtain ⟨word, made, spelt⟩ := ih
    exact ⟨_ :: word, .terminal made, .cons spelled spelt⟩
  | node rule _ _ ihBelow ihTail =>
    obtain ⟨u, hu, su⟩ := ihBelow
    obtain ⟨v, hv, sv⟩ := ihTail
    refine ⟨u ++ v, ?_, List.rel_append su sv⟩
    simpa [Forest.calls, Tree.calls] using Generates.nonterminal rule hu hv

namespace Derives

theorem context {xs ys : List (Symbol Nat)} (h : Derives productions xs ys)
    (before after : List (Symbol Nat)) :
    Derives productions (before ++ xs ++ after) (before ++ ys ++ after) := by
  induction h with
  | refl => exact .refl
  | tail _ step ih =>
    refine ih.tail ?_
    cases step with
    | apply left right rule =>
      simpa using Rewrites.apply (before ++ left) (right ++ after) rule

theorem single {production lhs : Nat} {rhs : List (Symbol Nat)}
    (rule : productions[production]? = some ⟨lhs, rhs⟩) :
    Derives productions [.nonterminal lhs] rhs := by
  simpa using Relation.ReflTransGen.single (Rewrites.apply [] [] rule)

theorem carry {known : Symbol Nat → Prop} {second : Array Production}
    (carries : Carries known productions second) {xs ys : List (Symbol Nat)}
    (h : Derives productions xs ys) (fits : ∀ symbol ∈ xs, known symbol) :
    Derives second xs ys ∧ ∀ symbol ∈ ys, known symbol := by
  induction h with
  | refl => exact ⟨.refl, fits⟩
  | tail _ step ih =>
    cases step with
    | apply left right rule =>
      obtain ⟨before, inside⟩ := ih
      obtain ⟨same, inner⟩ := carries (inside _ (by simp)) rule
      refine ⟨before.tail (.apply left right same), ?_⟩
      intro symbol member
      simp only [List.mem_append] at member
      rcases member with (old | new) | old
      · exact inside _ (List.mem_append_left _ old)
      · exact inner _ new
      · exact inside _ (List.mem_append_right _ (List.mem_cons_of_mem _ old))

end Derives

theorem Generates.derives {symbols : List (Symbol Nat)} {word calls : List Nat}
    (h : Generates productions symbols word calls) :
    Derives productions symbols (word.map .terminal) := by
  induction h with
  | nil => exact .refl
  | @terminal t rest _ _ _ ih => simpa using ih.context [.terminal t] []
  | @nonterminal _ _ _ rest u v _ _ rule _ _ ihBelow ihTail =>
    have head : Derives productions _ _ := (Derives.single rule).trans ihBelow
    have left := head.context [] rest
    have right := ihTail.context (u.map .terminal) []
    simp only [List.nil_append, List.append_nil, List.singleton_append] at left right
    simpa using left.trans right

namespace Starts

theorem derives {symbols : List (Symbol Nat)} {word : List Nat} {t : Nat}
    (h : Starts productions symbols word t) :
    ∃ rest, Derives productions symbols (word.map .terminal ++ .terminal t :: rest) := by
  induction h with
  | here => exact ⟨_, .refl⟩
  | @descend _ _ _ _ rest _ rule _ ih =>
    obtain ⟨behind, below⟩ := ih
    have head : Derives productions _ _ := (Derives.single rule).trans below
    have whole := head.context [] rest
    exact ⟨behind ++ rest, by simpa using whole⟩
  | @skip symbol rest u v _ _ whole _ ih =>
    obtain ⟨behind, later⟩ := ih
    have left := whole.derives.context [] rest
    have right := later.context (u.map .terminal) []
    simp only [List.nil_append, List.append_nil, List.singleton_append] at left right
    exact ⟨behind, by simpa using left.trans right⟩

theorem unrewrite {before after : List (Symbol Nat)} (step : Rewrites productions before after)
    {word : List Nat} {t : Nat} (h : Starts productions after word t) :
    Starts productions before word t := by
  cases step with
  | @apply production lhs rhs left right rule =>
    rw [List.append_assoc] at h
    rcases h.split with inside | ⟨u, v, calls, rfl, hl, h⟩
    · exact inside.append_right _
    · refine prepend hl ?_
      rcases h.split with inside | ⟨u, v, calls, rfl, hr, later⟩
      · exact .descend rule inside
      · exact .skip (.node rule hr) later

/-- A beginning of a derived string can be read off without finishing the derivation. -/
theorem of_derives {symbols rest : List (Symbol Nat)} {word : List Nat} {t : Nat}
    (h : Derives productions symbols (word.map .terminal ++ .terminal t :: rest)) :
    Starts productions symbols word t := by
  induction h using Relation.ReflTransGen.head_induction_on with
  | refl =>
    have last : Starts productions (.terminal t :: rest) [] t := .here
    simpa using prepend (Generates.terminals word) last
  | head step _ ih => exact unrewrite step ih

end Starts

end CanonicalLR
