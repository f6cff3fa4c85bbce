import CanonicalLR.Proofs.Prefixes
/-
Every derivation of the start symbol is found. The machine cannot reject its tokens, since each
beginning of them begins a form, and where it accepts it has made the reductions of the derivation
in post-order, which leaves no other tree.
-/
namespace CanonicalLR

theorem Generates.avoids {productions : Array Production} {t : Nat}
    (absent : ∀ ⦃p lhs : Nat⦄ ⦃rhs : List (Symbol Nat)⦄, productions[p]? = some ⟨lhs, rhs⟩ →
      .terminal t ∉ rhs)
    {symbols : List (Symbol Nat)} {word calls : List Nat}
    (h : Generates productions symbols word calls) (outside : .terminal t ∉ symbols) :
    t ∉ word := by
  induction h with
  | nil => simp
  | terminal _ ih =>
    simp only [List.mem_cons, Symbol.terminal.injEq, not_or] at outside ⊢
    exact ⟨outside.1, ih outside.2⟩
  | nonterminal rule _ _ ihBelow ihTail =>
    simp only [List.mem_cons, reduceCtorEq, false_or] at outside
    simp only [List.mem_append, not_or]
    exact ⟨ihBelow (absent rule), ihTail outside⟩

namespace Grammar.WellFormed

variable {τ υ : Type} [Fingerprint τ] {grammar : Grammar τ υ} {eof : τ} {start : Nat}
  {tree : Tree τ υ}

theorem leaves_ne (wf : grammar.WellFormed eof)
    (derivation : Derivation grammar.lexicon grammar.productions [.nonterminal start] [tree]) :
    ∀ token ∈ tree.leaves, token.kind ≠ eof := by
  obtain ⟨word, made, spelled⟩ := derivation.generates
  have absent : grammar.eof ∉ word := by
    refine made.avoids ?_ (by simp)
    intro p lhs rhs rule member
    exact ((wf.admits rule).2 _ member).2 rfl
  intro token member ends
  have listed : token ∈ Forest.leaves [tree] := by simpa [Forest.leaves] using member
  obtain ⟨id, inside, here⟩ := forall₂_mem_right spelled listed
  rw [ends] at here
  exact absent (wf.lexicon.distinct here wf.eof ▸ inside)

theorem yield_begins (wf : grammar.WellFormed eof) (declared : grammar.start = some start)
    (derivation : Derivation grammar.lexicon grammar.productions [.nonterminal start] [tree]) :
    grammar.Begins (tree.leaves.map Token.kind ++ [eof]) := by
  obtain ⟨word, made, spelled⟩ := ((wf.derivation_iff declared).2 derivation).generates
  have spelled : List.Forall₂ (fun id kind => grammar.lexicon.get? id = some kind) word
      (tree.leaves.map Token.kind) := by
    rw [List.forall₂_map_right_iff]
    simpa [Forest.leaves] using spelled
  have longer := List.rel_append spelled (.cons wf.eof .nil)
  refine (wf.begins_iff declared longer).2 ⟨[], ?_⟩
  have whole := made.derives.context [] [.terminal grammar.eof]
  simpa [Rules.opening, rulesFrom] using whole

end Grammar.WellFormed

theorem beforeEnd_append {τ υ : Type} [DecidableEq τ] {eof : τ} {front back : List (Token τ υ)}
    (inside : ∀ token ∈ front, token.kind ≠ eof)
    (ends : ∀ token ∈ back.head?, token.kind = eof) : beforeEnd eof (front ++ back) = front := by
  have all : ∀ token ∈ front, decide (token.kind ≠ eof) = true := by simpa using inside
  unfold beforeEnd
  rw [List.takeWhile_append_of_pos all]
  cases back with
  | nil => simp
  | cons token back =>
    have last : token.kind = eof := ends token rfl
    simp [last]

variable {τ υ : Type} [DecidableEq τ] [Fingerprint τ] [Spelling τ] {eof : τ}
  {calls : List (Registration τ υ)} {host : Host} {strategy : Strategy} {parser : Parser τ υ}

namespace Parser

theorem Built.trace_unique (built : parser.Built eof) {tokens : List (Token τ υ)}
    {c e : Configuration τ υ} {n : Nat} {value : υ}
    (follows : parser.Follows (parser.initial tokens) n c)
    (does : parser.Does c (.accepted value e)) {word calls : List Nat}
    (made : Generates parser.rules.productions [.nonterminal parser.rules.start] word calls)
    (spelled : List.Forall₂ (fun id token => parser.lexicon.get? id = some token.kind) word
      (beforeEnd eof tokens)) : e.calls.reverse = calls := by
  obtain ⟨other, traced⟩ := built.traced follows
  cases does with
  | accept known action =>
    rw [traced.at_end built (built.tracks follows) known] at spelled
    obtain rfl := built.lexicon.ids_unique spelled traced.spelled
    obtain ⟨final, whole, takes⟩ := built.machinery.word_runs made
    obtain ⟨es, rfl, onward⟩ := (traced.runs _ known).toward whole takes
    obtain ⟨rfl, _⟩ := onward.stays (Or.inr action)
    simp

end Parser

/-- Whatever the grammar derives is parsed, with any values at the leaves, and to the value of that
derivation. -/
theorem parse_complete (built : (Grammar.assemble eof calls).build host strategy = .ok parser)
    {start : Nat} (declared : (Grammar.assemble eof calls).start = some start) {tree : Tree τ υ}
    (derivation : Derivation (Grammar.assemble eof calls).lexicon
      (Grammar.assemble eof calls).productions [.nonterminal start] [tree])
    (continuation : List (Token τ υ)) (ends : ∀ token ∈ continuation.head?, token.kind = eof) :
    ∃ value, tree.value? (Grammar.assemble eof calls).handlers = some value ∧
      parser.parse (tree.leaves ++ continuation) = .ok value := by
  obtain ⟨other, origin, sound⟩ := Parser.Built.of_assemble built
  obtain rfl := Option.some.inj (declared.symm.trans origin.declared)
  have wf := Grammar.assemble_wellFormed eof calls
  have front := beforeEnd_append (wf.leaves_ne derivation) ends
  have inner := (wf.derivation_iff declared).2 derivation
  rw [← origin.rules, ← origin.lexicon] at inner
  have opening : parser.rules.start = start := by rw [origin.rules]; rfl
  obtain ⟨n, c, follows, ⟨value, e, does, result⟩ | ⟨error, e, does, result⟩⟩ :=
    sound.run_ends (tree.leaves ++ continuation)
  · obtain ⟨twin, same, leaves, evaluates, post⟩ := sound.accepted follows does
    obtain ⟨word, made, spelled⟩ := inner.generates
    have traced : e.calls.reverse = Forest.calls [tree] := by
      refine sound.trace_unique follows does (opening ▸ made) ?_
      rw [front]
      simpa [Forest.leaves] using spelled
    have order : [] ++ Forest.calls [twin] = [] ++ Forest.calls [tree] := by
      rw [← traced, post]
      simp [Forest.calls]
    have yields : [] ++ Forest.leaves [twin] = [] ++ Forest.leaves [tree] := by
      simp [Forest.leaves, leaves, front]
    obtain ⟨equal, _⟩ := same.unique (opening ▸ inner) order yields
    obtain rfl := List.singleton_inj.1 equal
    exact ⟨value, origin.handlers ▸ evaluates, by rw [Parser.parse, result]⟩
  · obtain ⟨word, traced⟩ := sound.traced follows
    cases does with
    | @reject _ _ found _ _ states unanswered ahead =>
      obtain ⟨here, before⟩ := traced.input_at sound (sound.tracks follows) ahead
      have rejected := origin.not_begins wf traced states unanswered ahead
      rw [inputWord, front] at here before
      have further : (tree.leaves.map Token.kind ++ [eof]).take (c.position + 1) =
          (tree.leaves.map Token.kind ++ [eof]).take c.position ++ [found] := by
        rw [List.take_add_one, here]
        rfl
      rw [← before, ← further] at rejected
      exact absurd ((wf.yield_begins declared derivation).shorten (List.take_prefix _ _)) rejected

theorem parse_complete_nested : ∃ parser,
    (Grammar.assemble "$" nested).build tasks .sequential = .ok parser ∧
    ∃ value, Tree.value? (Grammar.assemble "$" nested).handlers
        (.node 0 [.leaf ⟨"a", 1⟩, .node 1 [], .leaf ⟨"b", 2⟩]) = some value ∧
      parser.parse [⟨"a", 1⟩, ⟨"b", 2⟩, ⟨"$", 3⟩, ⟨"a", 4⟩] = .ok value := by
  obtain ⟨parser, built, _⟩ : ∃ parser,
      (Grammar.assemble "$" nested).build tasks .sequential = .ok parser ∧ True :=
    exists_ok (by decide +kernel)
  have declared : (Grammar.assemble "$" nested).start = some 0 := by decide +kernel
  have derivation : Derivation (Grammar.assemble "$" nested).lexicon
      (Grammar.assemble "$" nested).productions [.nonterminal 0]
      [.node 0 [.leaf ⟨"a", 1⟩, .node 1 [], .leaf ⟨"b", 2⟩]] := by
    have pair : (Grammar.assemble "$" nested).productions[0]? =
        some ⟨0, [.terminal 1, .nonterminal 0, .terminal 2]⟩ := by decide +kernel
    have nothing : (Grammar.assemble "$" nested).productions[1]? = some ⟨0, []⟩ := by
      decide +kernel
    have opens : (Grammar.assemble "$" nested).lexicon.get? 1 = some "a" := by decide +kernel
    have closes : (Grammar.assemble "$" nested).lexicon.get? 2 = some "b" := by decide +kernel
    exact .node pair (.leaf opens (.node nothing .nil (.leaf closes .nil))) .nil
  exact ⟨parser, built, parse_complete built declared derivation [⟨"$", 3⟩, ⟨"a", 4⟩] (by simp)⟩

end CanonicalLR
