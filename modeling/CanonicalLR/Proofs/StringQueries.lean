import CanonicalLR.Proofs.Exactness
/-
Asking a parser what can begin a string. The question is refused for a non-terminal that is not the
parser's, but only if the walk along the string comes to it: whatever stands behind a symbol that
cannot vanish is not looked at.
-/
namespace CanonicalLR

namespace Parser

variable {τ υ : Type}

def passes (parser : Parser τ υ) : Symbol τ → Bool
  | .terminal _ => false
  | .nonterminal n => parser.isNullable n

def Meets (parser : Parser τ υ) (symbols : List (Symbol τ)) (symbol : Symbol τ) : Prop :=
  ∃ before after, symbols = before ++ symbol :: after ∧ ∀ x ∈ before, parser.passes x = true

variable {parser : Parser τ υ} {symbols rest : List (Symbol τ)} {symbol : Symbol τ} {n : Nat}

theorem passes_iff : parser.passes symbol = true ↔
    ∃ n, symbol = .nonterminal n ∧ parser.isNullable n = true := by
  cases symbol with
  | terminal t => simp [passes]
  | nonterminal n => simp [passes]

theorem not_meets_nil : ¬ parser.Meets [] symbol := by
  intro ⟨before, after, split, _⟩
  simp at split

theorem meets_cons {first : Symbol τ} :
    parser.Meets (first :: rest) symbol ↔
      symbol = first ∨ parser.passes first = true ∧ parser.Meets rest symbol := by
  constructor
  · intro ⟨before, after, split, passed⟩
    cases before with
    | nil => exact Or.inl (List.cons.inj split).1.symm
    | cons x before =>
      obtain ⟨rfl, behind⟩ := List.cons.inj split
      rw [List.forall_mem_cons] at passed
      exact Or.inr ⟨passed.1, before, after, behind, passed.2⟩
  · intro met
    rcases met with rfl | ⟨passed, before, after, rfl, others⟩
    · exact ⟨[], rest, rfl, by simp⟩
    · exact ⟨first :: before, after, rfl, List.forall_mem_cons.2 ⟨passed, others⟩⟩

theorem owns_of_isNullable (null : parser.isNullable n = true) : parser.owns n = true := by
  rw [isNullable, Bool.and_eq_true] at null
  exact null.1

theorem mem_terminalsOf {set : TerminalSet} {t : τ} :
    t ∈ parser.terminalsOf set ↔ ∃ id ∈ set, parser.lexicon.get? id = some t := by
  rw [terminalsOf, List.mem_filterMap]
  rfl

theorem terminalsOf_nodup [Fingerprint τ] (faithful : parser.lexicon.Faithful)
    (set : TerminalSet) : (parser.terminalsOf set).Nodup := by
  apply List.Nodup.filterMap
  · intro i j t first second
    exact faithful.distinct first second
  · exact set.ascending.imp Nat.ne_of_lt

structure Equipped [Fingerprint τ] (parser : Parser τ υ) (eof : τ) : Prop
    extends parser.Built eof where
  sets : parser.sets = FirstFollow.ofRules parser.rules

theorem Equipped.passes_iff [Fingerprint τ] {eof : τ} (equipped : parser.Equipped eof) :
    parser.passes symbol = true ↔ ∃ n < parser.rules.nonterminalCount,
      symbol = .nonterminal n ∧ Derives parser.rules.productions [.nonterminal n] [] := by
  have exact : ∀ n, n ∈ parser.rules.nullableSet ↔
      Derives parser.rules.productions [.nonterminal n] [] := by
    intro n
    rw [Rules.mem_nullableSet equipped.machinery.proper, vanishes_iff_derives]
  simp [Parser.passes_iff, isNullable, owns, equipped.sets, FirstFollow.isNullable,
    FirstFollow.ofRules, exact, and_left_comm]

variable [DecidableEq τ]

theorem mem_append_filter {own others : List τ} {t : τ} :
    t ∈ own ++ others.filter (· ∉ own) ↔ t ∈ own ∨ t ∈ others := by
  by_cases member : t ∈ own <;> simp [member]

theorem firstOfSequence?_foreign (foreign : parser.owns n = false) :
    parser.firstOfSequence? (.nonterminal n :: rest) = none := by
  simp [firstOfSequence?, first?, foreign]

theorem firstOfSequence?_stop (owned : parser.owns n = true)
    (stays : parser.isNullable n = false) : parser.firstOfSequence? (.nonterminal n :: rest) =
      some (parser.terminalsOf (parser.sets.firstOf n), false) := by
  simp [firstOfSequence?, first?, owned, stays]

theorem firstOfSequence?_pass (null : parser.isNullable n = true) :
    parser.firstOfSequence? (.nonterminal n :: rest) =
      (parser.firstOfSequence? rest).map fun (others, vanishes) =>
        (parser.terminalsOf (parser.sets.firstOf n) ++
          others.filter (· ∉ parser.terminalsOf (parser.sets.firstOf n)), vanishes) := by
  simp [firstOfSequence?, first?, owns_of_isNullable null, null]

/-- The walk is cut off by the first foreign non-terminal that it comes to, and by nothing else. -/
theorem firstOfSequence?_eq_none_iff : parser.firstOfSequence? symbols = none ↔
    ∃ n, parser.owns n = false ∧ parser.Meets symbols (.nonterminal n) := by
  induction symbols with
  | nil => simp [firstOfSequence?, not_meets_nil]
  | cons first rest ih =>
    simp only [meets_cons]
    cases first with
    | terminal t => simp [firstOfSequence?, passes]
    | nonterminal m =>
      cases owned : parser.owns m with
      | false => simpa [firstOfSequence?_foreign owned] using ⟨m, owned, Or.inl rfl⟩
      | true =>
        cases null : parser.isNullable m with
        | false => simp [firstOfSequence?_stop owned null, passes, null, owned]
        | true =>
          rw [firstOfSequence?_pass null, Option.map_eq_none_iff, ih]
          refine exists_congr fun n => and_congr_right fun foreign => ?_
          have other : n ≠ m := by
            rintro rfl
            simp [owned] at foreign
          simp [passes, null, other]

inductive Walks (parser : Parser τ υ) : List (Symbol τ) → List τ → Bool → Prop where
  | done : Walks parser [] [] true
  | terminal (t : τ) (rest : List (Symbol τ)) : Walks parser (.terminal t :: rest) [t] false
  | stop {n : Nat} (rest : List (Symbol τ)) (owned : parser.owns n = true)
      (stays : parser.isNullable n = false) :
      Walks parser (.nonterminal n :: rest) (parser.terminalsOf (parser.sets.firstOf n)) false
  | pass {n : Nat} {rest : List (Symbol τ)} {others : List τ} {vanishes : Bool}
      (null : parser.isNullable n = true) (later : Walks parser rest others vanishes) :
      Walks parser (.nonterminal n :: rest)
        (parser.terminalsOf (parser.sets.firstOf n) ++
          others.filter (· ∉ parser.terminalsOf (parser.sets.firstOf n))) vanishes

variable {begins : List τ} {vanishes : Bool}

theorem walks_of_answered
    (answered : parser.firstOfSequence? symbols = some (begins, vanishes)) :
    parser.Walks symbols begins vanishes := by
  induction symbols generalizing begins vanishes with
  | nil =>
    obtain ⟨rfl, rfl⟩ := Prod.mk.inj (Option.some.inj answered)
    exact .done
  | cons first rest ih =>
    cases first with
    | terminal a =>
      obtain ⟨rfl, rfl⟩ := Prod.mk.inj (Option.some.inj answered)
      exact .terminal a rest
    | nonterminal m =>
      cases owned : parser.owns m with
      | false => simp [firstOfSequence?_foreign owned] at answered
      | true =>
        cases null : parser.isNullable m with
        | false =>
          rw [firstOfSequence?_stop owned null] at answered
          obtain ⟨rfl, rfl⟩ := Prod.mk.inj (Option.some.inj answered)
          exact .stop rest owned null
        | true =>
          rw [firstOfSequence?_pass null, Option.map_eq_some_iff] at answered
          obtain ⟨⟨others, flag⟩, later, same⟩ := answered
          obtain ⟨rfl, rfl⟩ := Prod.mk.inj same
          exact .pass null (ih later)

namespace Walks

theorem vanishes_eq (h : parser.Walks symbols begins vanishes) :
    vanishes = symbols.all parser.passes := by
  induction h with
  | done => rfl
  | terminal t rest => rfl
  | stop rest _ stays => simp [passes, stays]
  | pass null _ ih => simp [passes, null, ih]

theorem mem_iff (h : parser.Walks symbols begins vanishes) {t : τ} : t ∈ begins ↔
    ∃ symbol own, parser.Meets symbols symbol ∧ parser.first? symbol = some own ∧ t ∈ own := by
  induction h with
  | done => simp [not_meets_nil]
  | terminal a rest => simp [meets_cons, passes, first?]
  | stop rest owned stays => simp [meets_cons, passes, stays, first?, owned]
  | pass null _ ih =>
    rw [mem_append_filter, ih]
    simp [meets_cons, passes, null, or_and_right, exists_or, first?, owns_of_isNullable null]

theorem nodup [Fingerprint τ] (h : parser.Walks symbols begins vanishes)
    (faithful : parser.lexicon.Faithful) : begins.Nodup := by
  induction h with
  | done => exact List.nodup_nil
  | terminal t rest => exact List.nodup_singleton t
  | stop => exact terminalsOf_nodup faithful _
  | pass _ _ ih =>
    apply (terminalsOf_nodup faithful _).append (ih.filter _)
    intro t member other
    simpa [member] using (List.mem_filter.1 other).2

theorem agrees (h : parser.Walks symbols begins vanishes) {sets : FirstFollow}
    {lexicon : Lexicon τ}
    (null : ∀ n, parser.owns n = true → sets.nullable.contains n = parser.isNullable n)
    (own : ∀ n t, parser.owns n = true → (t ∈ parser.terminalsOf (parser.sets.firstOf n) ↔
      ∃ id ∈ sets.firstOf n, lexicon.get? id = some t))
    {ids : List (Symbol Nat)} (resolves : List.Forall₂ (Resolves lexicon) ids symbols) :
    vanishes = (sets.firstOfSequence ids).2 ∧
      ∀ t, t ∈ begins ↔ ∃ id ∈ (sets.firstOfSequence ids).1, lexicon.get? id = some t := by
  unfold FirstFollow.firstOfSequence
  induction h generalizing ids with
  | done =>
    cases resolves
    simp [firstOfString]
  | terminal t rest =>
    obtain _ | ⟨spelled | _, _⟩ := resolves
    simp [firstOfString, spelled, eq_comm]
  | @stop m rest owned stays =>
    obtain _ | ⟨_ | _, _⟩ := resolves
    have stops := (null m owned).trans stays
    simp only [firstOfString, stops]
    exact ⟨rfl, fun t => own m t owned⟩
  | @pass m rest others vanishes goes _ ih =>
    obtain _ | ⟨_ | _, behind⟩ := resolves
    have owned := owns_of_isNullable goes
    have passed := (null m owned).trans goes
    obtain ⟨all, members⟩ := ih behind
    simp only [firstOfString, passed, ↓reduceIte]
    refine ⟨all, fun t => ?_⟩
    rw [mem_append_filter, own m t owned, members]
    simp only [IdSet.mem_union, or_and_right, exists_or]
    rfl

end Walks

theorem Equipped.of_assemble [Fingerprint τ] [Spelling τ] {eof : τ}
    {calls : List (Registration τ υ)} {host : Host} {strategy : Strategy}
    (built : (Grammar.assemble eof calls).build host strategy = .ok parser) :
    ∃ start, parser.From (Grammar.assemble eof calls) start ∧ parser.Equipped eof := by
  obtain ⟨start, origin, sound⟩ := Built.of_assemble built
  refine ⟨start, origin, sound, ?_⟩
  obtain ⟨_, _, _, _, _, _, _, _, rfl⟩ := Grammar.build_eq_ok built
  rfl

end Parser

variable {τ υ : Type} [DecidableEq τ] [Fingerprint τ] [Spelling τ] {eof : τ}
  {calls : List (Registration τ υ)} {host : Host} {strategy : Strategy} {parser : Parser τ υ}

/-- A question is refused for a foreign non-terminal exactly if everything in front of it is the
parser's and derives the empty string. -/
theorem refused_iff_foreign_met
    (built : (Grammar.assemble eof calls).build host strategy = .ok parser)
    (symbols : List (Symbol τ)) :
    parser.firstOfSequence? symbols = none ↔
      ∃ before n after, symbols = before ++ .nonterminal n :: after ∧
        parser.rules.nonterminalCount ≤ n ∧
        ∀ symbol ∈ before, ∃ m < parser.rules.nonterminalCount,
          symbol = .nonterminal m ∧ Derives parser.rules.productions [.nonterminal m] [] := by
  obtain ⟨_, _, equipped⟩ := Parser.Equipped.of_assemble built
  have foreign : ∀ n, parser.owns n = false ↔ parser.rules.nonterminalCount ≤ n := by
    simp [Parser.owns]
  simp only [Parser.firstOfSequence?_eq_none_iff, Parser.Meets, equipped.passes_iff, foreign]
  constructor
  · rintro ⟨n, outside, before, after, split, passed⟩
    exact ⟨before, n, after, split, outside, passed⟩
  · rintro ⟨before, n, after, split, outside, passed⟩
    exact ⟨n, outside, before, after, split, passed⟩

theorem refused_iff_foreign_met_nested : ∃ parser,
    (Grammar.assemble "$" nested).build tasks .sequential = .ok parser ∧
    Derives parser.rules.productions [.nonterminal 0] [] ∧
    parser.firstOfSequence? [.nonterminal 0, .nonterminal 5, .terminal "a"] = none := by
  obtain ⟨parser, built, count, rule⟩ : ∃ parser,
      (Grammar.assemble "$" nested).build tasks .sequential = .ok parser ∧
      parser.rules.nonterminalCount = 2 ∧ parser.rules.productions[1]? = some ⟨0, []⟩ :=
    exists_ok (by decide +kernel)
  have empty := Derives.single rule
  refine ⟨parser, built, empty, (refused_iff_foreign_met built _).2 ?_⟩
  refine ⟨[.nonterminal 0], 5, [.terminal "a"], rfl, by omega, ?_⟩
  intro symbol member
  exact ⟨0, by omega, List.mem_singleton.1 member, empty⟩

/-- Behind a terminal a foreign non-terminal is not noticed. -/
theorem foreign_behind_terminal_answered : ∃ parser,
    (Grammar.assemble "$" nested).build tasks .sequential = .ok parser ∧
    parser.firstOfSequence? [.terminal "a", .nonterminal 5] = some (["a"], false) ∧
    ¬ (parser.firstOfSequence? [.terminal "a", .nonterminal 5] = none ↔
      ∃ n, parser.rules.nonterminalCount ≤ n ∧
        .nonterminal n ∈ ([.terminal "a", .nonterminal 5] : List (Symbol String))) := by
  obtain ⟨parser, built, count, answered⟩ : ∃ parser,
      (Grammar.assemble "$" nested).build tasks .sequential = .ok parser ∧
      parser.rules.nonterminalCount = 2 ∧
      parser.firstOfSequence? [.terminal "a", .nonterminal 5] = some (["a"], false) :=
    exists_ok (by decide +kernel)
  refine ⟨parser, built, answered, ?_⟩
  intro law
  have refused := law.2 ⟨5, by omega, by simp⟩
  rw [answered] at refused
  contradiction

end CanonicalLR
