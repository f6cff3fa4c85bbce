import CanonicalLR.Proofs.Refusals
import CanonicalLR.Proofs.Renaming
import CanonicalLR.Proofs.StringQueries
/-
Parsers with more terminals. Terminals that no production uses change neither whether there is a
parser nor what its sets say; so a string is answered as the sets answer for the ids of its symbols,
and terminals without an id are treated as if they had been registered before the parser was built.
-/
namespace CanonicalLR

variable {τ υ : Type}

theorem filterMap_of_mapM {α β : Type} {f : α → Option β} {xs : List α} {ys : List β}
    (h : xs.mapM f = some ys) : xs.filterMap f = ys := by
  rw [mapM_eq_some_iff] at h
  induction h with
  | nil => rfl
  | cons found _ ih => rw [List.filterMap_cons_some found, ih]

theorem resolves_exists {lexicon : Lexicon τ} {symbols : List (Symbol τ)}
    (registered : ∀ t, .terminal t ∈ symbols → ∃ id, lexicon.get? id = some t) :
    ∃ ids, List.Forall₂ (Resolves lexicon) ids symbols := by
  induction symbols with
  | nil => exact ⟨[], .nil⟩
  | cons symbol rest ih =>
    obtain ⟨ids, resolves⟩ := ih fun t member => registered t (List.mem_cons_of_mem _ member)
    cases symbol with
    | terminal t =>
      obtain ⟨id, found⟩ := registered t List.mem_cons_self
      exact ⟨_, .cons (.terminal found) resolves⟩
    | nonterminal n => exact ⟨_, .cons (.nonterminal n) resolves⟩

namespace Rules

variable {rules rules' : Rules}

theorem Proper.isNullable_congr (proper : rules.Proper) (proper' : rules'.Proper)
    (same : rules'.productions = rules.productions) (n : Nat) :
    (FirstFollow.ofRules rules').isNullable n = (FirstFollow.ofRules rules).isNullable n := by
  rw [Bool.eq_iff_iff]
  simp only [FirstFollow.isNullable, FirstFollow.ofRules, IdSet.contains_iff]
  rw [mem_nullableSet proper, mem_nullableSet proper', same]

theorem Proper.firstOf_congr (proper : rules.Proper) (proper' : rules'.Proper)
    (same : rules'.productions = rules.productions) (n : Nat) :
    (FirstFollow.ofRules rules').firstOf n = (FirstFollow.ofRules rules).firstOf n := by
  apply IdSet.ext
  intro t
  simp only [FirstFollow.firstOf, FirstFollow.ofRules]
  rw [mem_firstSets proper, mem_firstSets proper', same]

end Rules

namespace Grammar

variable {grammar grammar' : Grammar τ υ} {start start' : Nat} {rename reorder : Nat → Nat}

theorem Reaches.carry (same : grammar'.productions = grammar.productions) {n : Nat}
    (h : grammar.Reaches start n) : grammar'.Reaches start n := by
  induction h with
  | start => exact .start
  | through _ rule member ih => exact .through ih (same ▸ rule) member

theorem reaches_congr (same : grammar'.productions = grammar.productions) {n : Nat} :
    grammar'.Reaches start n ↔ grammar.Reaches start n :=
  ⟨.carry same.symm, .carry same⟩

variable [Fingerprint τ] {eof : τ}

theorem WellFormed.renames_grown (wf : grammar.WellFormed eof) {lexicon : Lexicon τ}
    (grown : grammar.lexicon.Extends lexicon) (start : Nat) :
    grammar.Renames { grammar with lexicon } start start id id := by
  have reaches : ∀ n, { grammar with lexicon }.Reaches start n ↔ grammar.Reaches start n := by
    intro n
    apply reaches_congr
    rfl
  constructor
  · simp only [reaches]
    exact Set.bijOn_id _
  · rfl
  · exact fun _ => rfl
  · simp only [Uses, reaches]
    exact Set.bijOn_id _
  · intro p lhs rhs _ rule
    refine ⟨rhs, rule, List.forall₂_same.2 fun symbol member => ?_⟩
    cases symbol with
    | terminal t =>
      obtain ⟨kind, found⟩ := Interner.get?_of_lt ((wf.admits rule).2 _ member).1
      exact .terminal ⟨kind, found, grown found⟩
    | nonterminal n => exact .nonterminal rfl
  · exact fun _ => rfl

theorem Renames.builds [Spelling τ]
    (renames : grammar.Renames grammar' start start' rename reorder)
    (wf : grammar.WellFormed eof) (wf' : grammar'.WellFormed eof)
    (declared : grammar.start = some start) (declared' : grammar'.start = some start')
    {host : Host} {strategy : Strategy} {parser : Parser τ υ}
    (built : grammar.build host strategy = .ok parser) :
    ∃ parser', grammar'.build host strategy = .ok parser' := by
  have agrees := renames.agrees wf wf' declared declared'
  have starts := starts_of_build built
  have free := (build_ok_iff wf declared starts).1 ⟨parser, built⟩
  rw [build_ok_iff wf' declared' starts]
  intro stack met
  obtain ⟨other, collision⟩ := agrees.swap.collision met
  exact free other collision

variable [DecidableEq τ]

theorem foldl_register_terminals [Spelling τ] (grammar : Grammar τ υ) (extra : List τ) :
    (extra.map Registration.terminal).foldl register grammar =
      { grammar with lexicon := (grammar.lexicon.internAll extra).2 } := by
  induction extra generalizing grammar with
  | nil => rfl
  | cons t extra ih => exact ih _

end Grammar

namespace Parser

variable {parser larger : Parser τ υ} {symbols : List (Symbol τ)} {eof : τ}

structure Enlarges (parser larger : Parser τ υ) : Prop where
  lexicon : parser.lexicon.Extends larger.lexicon
  names : larger.rules.nonterminalCount = parser.rules.nonterminalCount
  productions : larger.rules.productions = parser.rules.productions

theorem Enlarges.refl (parser : Parser τ υ) : parser.Enlarges parser :=
  ⟨Interner.Extends.refl _, rfl, rfl⟩

variable [Fingerprint τ] {ids : List (Symbol Nat)}

theorem Enlarges.mem_terminalsOf (enlarges : parser.Enlarges larger) (built : parser.Built eof)
    {set : TerminalSet} (bounded : ∀ id ∈ set, id < parser.rules.terminalCount) {t : τ} :
    t ∈ parser.terminalsOf set ↔ ∃ id ∈ set, larger.lexicon.get? id = some t := by
  rw [Parser.mem_terminalsOf]
  refine exists_congr fun id => and_congr_right fun member => ?_
  constructor
  · exact fun found => enlarges.lexicon found
  · intro found
    obtain ⟨kind, stored⟩ := Interner.get?_of_lt (built.terminals ▸ bounded id member)
    rw [stored, ← found, enlarges.lexicon stored]

theorem Equipped.answers_known (equipped : parser.Equipped eof)
    (resolves : List.Forall₂ (Resolves parser.lexicon) ids symbols)
    (owned : ∀ n, .nonterminal n ∈ symbols → parser.owns n = true) :
    parser.sets.firstOfSequence? ids = some (parser.sets.firstOfSequence ids) ∧
      ∃ values, (parser.sets.firstOfSequence ids).1.ids.mapM parser.terminal? = some values := by
  rw [equipped.sets]
  constructor
  · rw [FirstFollow.firstOfSequence?, if_pos]
    apply Rules.covers_of_known
    intro n member
    obtain ⟨symbol, listed, stands⟩ := forall₂_mem_right resolves.flip member
    cases stands
    simpa [owns] using owned n listed
  · apply mapM_exists
    intro id member
    have starts := (Rules.mem_firstOfSequence equipped.machinery.proper).1 member
    have bound : id < parser.rules.terminalCount := by
      apply equipped.machinery.proper.starts_lt starts
      intro t inside
      obtain ⟨symbol, _, stands⟩ := forall₂_mem_right resolves.flip inside
      cases stands with
      | terminal spelled => exact equipped.terminals ▸ Interner.get?_lt spelled
    exact Interner.get?_of_lt (equipped.terminals ▸ bound)

variable [DecidableEq τ] {begins : List τ} {vanishes : Bool}

theorem Walks.agrees_enlarged (walks : parser.Walks symbols begins vanishes)
    (enlarges : parser.Enlarges larger) (equipped : parser.Equipped eof)
    (equipped' : larger.Equipped eof)
    (resolves : List.Forall₂ (Resolves larger.lexicon) ids symbols) :
    vanishes = (larger.sets.firstOfSequence ids).2 ∧ ∀ t, t ∈ begins ↔
      ∃ id ∈ (larger.sets.firstOfSequence ids).1, larger.lexicon.get? id = some t := by
  have proper := equipped.machinery.proper
  have proper' := equipped'.machinery.proper
  refine walks.agrees ?_ ?_ resolves
  · intro n known
    have same := proper.isNullable_congr proper' enlarges.productions n
    rw [isNullable, known, Bool.true_and, equipped.sets, ← same, equipped'.sets]
    rfl
  · intro n t known
    rw [equipped'.sets, proper.firstOf_congr proper' enlarges.productions, ← equipped.sets]
    apply enlarges.mem_terminalsOf equipped.toBuilt
    intro id member
    rw [equipped.sets] at member
    exact proper.firstSets_lt member

/-- An answer given through ids: all terminals of the string have one, the sets answer for the
interned string, and the terminals behind the ids of that answer, one for each, are those given. -/
def AnswersInIds (parser : Parser τ υ) (symbols : List (Symbol τ)) (begins : List τ)
    (vanishes : Bool) : Prop :=
  ∃ ids set values, Grammar.internSymbols parser.lexicon symbols = (ids, parser.lexicon) ∧
    parser.sets.firstOfSequence? ids = some (set, vanishes) ∧
    set.ids.mapM parser.terminal? = some values ∧ values.Nodup ∧ begins.Perm values

theorem Enlarges.answers (enlarges : parser.Enlarges larger) (equipped : parser.Equipped eof)
    (equipped' : larger.Equipped eof)
    (owned : ∀ n, .nonterminal n ∈ symbols → parser.owns n = true)
    (registered : ∀ t, .terminal t ∈ symbols → ∃ id, larger.lexicon.get? id = some t)
    (answered : parser.firstOfSequence? symbols = some (begins, vanishes)) :
    larger.AnswersInIds symbols begins vanishes := by
  obtain ⟨ids, resolves⟩ := resolves_exists registered
  have walks := walks_of_answered answered
  obtain ⟨rfl, members⟩ := walks.agrees_enlarged enlarges equipped equipped' resolves
  have owned' : ∀ n, .nonterminal n ∈ symbols → larger.owns n = true := by
    intro n member
    simpa [owns, enlarges.names] using owned n member
  obtain ⟨covered, values, listed⟩ := equipped'.answers_known resolves owned'
  have same : larger.terminalsOf (larger.sets.firstOfSequence ids).1 = values :=
    filterMap_of_mapM listed
  have distinct : values.Nodup := same ▸ terminalsOf_nodup equipped'.lexicon _
  refine ⟨ids, _, values, Grammar.internSymbols_known equipped'.lexicon resolves, covered, listed,
    distinct, ?_⟩
  rw [List.perm_ext_iff_of_nodup (walks.nodup equipped.lexicon) distinct]
  intro t
  rw [members, ← same, Parser.mem_terminalsOf]

/-- An unknown terminal begins a string exactly where the walk comes to it. -/
theorem Walks.mem_unknown (walks : parser.Walks symbols begins vanishes)
    (faithful : parser.lexicon.Faithful) {t : τ} (unknown : parser.terminalId? t = none) :
    t ∈ begins ↔ parser.Meets symbols (.terminal t) := by
  rw [walks.mem_iff]
  constructor
  · intro ⟨symbol, own, met, found, member⟩
    cases symbol with
    | terminal a =>
      obtain rfl := Option.some.inj found
      rwa [List.mem_singleton.1 member]
    | nonterminal n =>
      simp only [first?, Option.ite_none_right_eq_some, Option.some.injEq] at found
      rw [← found.2, Parser.mem_terminalsOf] at member
      obtain ⟨id, _, stored⟩ := member
      exact absurd stored (Interner.find?_eq_none faithful unknown id)
  · intro met
    exact ⟨_, [t], met, rfl, List.mem_singleton_self t⟩

variable [Spelling τ] {calls : List (Registration τ υ)} {host : Host} {strategy : Strategy}

theorem enlarges_of_terminals
    (built : (Grammar.assemble eof calls).build host strategy = .ok parser) (extra : List τ) :
    ∃ larger, (Grammar.assemble eof (calls ++ extra.map .terminal)).build host strategy =
        .ok larger ∧ parser.Enlarges larger ∧ larger.Equipped eof ∧
      ∀ t ∈ extra, ∃ id, larger.lexicon.get? id = some t := by
  obtain ⟨start, origin, equipped⟩ := Equipped.of_assemble built
  have wf := Grammar.assemble_wellFormed eof calls
  have wf' := Grammar.assemble_wellFormed eof (calls ++ extra.map Registration.terminal)
  have grown := Interner.internAll_extends (Grammar.assemble eof calls).lexicon extra
  have more : Grammar.assemble eof (calls ++ extra.map Registration.terminal) =
      { Grammar.assemble eof calls with
        lexicon := ((Grammar.assemble eof calls).lexicon.internAll extra).2 } := by
    rw [Grammar.assemble, List.foldl_append]
    exact Grammar.foldl_register_terminals _ extra
  have renames := wf.renames_grown grown start
  rw [← more] at renames
  have declared : (Grammar.assemble eof (calls ++ extra.map .terminal)).start = some start := by
    rw [more]
    exact origin.declared
  obtain ⟨larger, built'⟩ := renames.builds wf wf' origin.declared declared built
  obtain ⟨start', origin', equipped'⟩ := Equipped.of_assemble built'
  obtain rfl := Option.some.inj (declared.symm.trans origin'.declared)
  refine ⟨larger, built', ⟨?_, ?_, ?_⟩, equipped', ?_⟩
  · rw [origin.lexicon, origin'.lexicon, more]
    exact grown
  · rw [origin.rules, origin'.rules, more]
    rfl
  · rw [origin.rules, origin'.rules, more]
    rfl
  · intro t member
    obtain ⟨id, _, stored⟩ := forall₂_mem_right (Interner.internAll_ids wf.lexicon extra) member
    rw [origin'.lexicon, more]
    exact ⟨id, stored⟩

end Parser

variable [DecidableEq τ] [Fingerprint τ] [Spelling τ] {eof : τ}
  {calls : List (Registration τ υ)} {host : Host} {strategy : Strategy} {parser : Parser τ υ}

/-- A string of the parser's own non-terminals and any terminals is answered, and answered as
through ids: at once if all its terminals have one, and otherwise as by a parser for which terminals
have been registered that the first one lacks. Unknown terminals begin what they stand in front of
and do not vanish. -/
theorem answers_through_ids
    (built : (Grammar.assemble eof calls).build host strategy = .ok parser)
    (symbols : List (Symbol τ)) (owned : ∀ n, .nonterminal n ∈ symbols → parser.owns n = true) :
    ∃ begins vanishes, parser.firstOfSequence? symbols = some (begins, vanishes) ∧
      ((∀ t, .terminal t ∈ symbols → ∃ id, parser.terminalId? t = some id) →
        parser.AnswersInIds symbols begins vanishes) ∧
      (∀ extra : List τ,
        (∀ t, .terminal t ∈ symbols → parser.terminalId? t = none → t ∈ extra) →
        ∃ larger, (Grammar.assemble eof (calls ++ extra.map .terminal)).build host strategy =
          .ok larger ∧ larger.AnswersInIds symbols begins vanishes) ∧
      ∀ t, parser.terminalId? t = none →
        (t ∈ begins ↔ ∃ before after, symbols = before ++ .terminal t :: after ∧
          ∀ symbol ∈ before, ∃ n, symbol = .nonterminal n ∧ parser.isNullable n = true) ∧
        (.terminal t ∈ symbols → vanishes = false) := by
  obtain ⟨_, _, equipped⟩ := Parser.Equipped.of_assemble built
  have found : ∀ {t id}, parser.terminalId? t = some id → parser.lexicon.get? id = some t :=
    fun known => (Interner.find?_eq_some_iff equipped.lexicon).1 known
  cases answered : parser.firstOfSequence? symbols with
  | none =>
    obtain ⟨n, foreign, before, after, rfl, _⟩ := Parser.firstOfSequence?_eq_none_iff.1 answered
    have known := owned n (by simp)
    simp [foreign] at known
  | some answer =>
    obtain ⟨begins, vanishes⟩ := answer
    have walks := Parser.walks_of_answered answered
    refine ⟨begins, vanishes, rfl, ?_, ?_, ?_⟩
    · intro registered
      refine (Parser.Enlarges.refl parser).answers equipped equipped owned ?_ answered
      intro t member
      obtain ⟨id, known⟩ := registered t member
      exact ⟨id, found known⟩
    · intro extra covers
      obtain ⟨larger, built', enlarges, equipped', stored⟩ :=
        Parser.enlarges_of_terminals built extra
      refine ⟨larger, built', enlarges.answers equipped equipped' owned ?_ answered⟩
      intro t member
      cases known : parser.terminalId? t with
      | none => exact stored t (covers t member known)
      | some id => exact ⟨id, enlarges.lexicon (found known)⟩
    · intro t unknown
      refine ⟨?_, ?_⟩
      · rw [walks.mem_unknown equipped.lexicon unknown]
        simp only [Parser.Meets, Parser.passes_iff]
      · intro member
        rw [walks.vanishes_eq, List.all_eq_false]
        exact ⟨_, member, by simp [Parser.passes]⟩

theorem answers_through_ids_nested : ∃ parser larger,
    (Grammar.assemble "$" nested).build tasks .sequential = .ok parser ∧
    (Grammar.assemble "$" (nested ++ [.terminal "z"])).build tasks .sequential = .ok larger ∧
    parser.terminalId? "z" = none ∧
    parser.firstOfSequence? [.nonterminal 0, .terminal "z", .nonterminal 0] =
      some (["a", "z"], false) ∧
    larger.AnswersInIds [.nonterminal 0, .terminal "z", .nonterminal 0] ["a", "z"] false := by
  obtain ⟨parser, built, count, unknown, answered⟩ : ∃ parser,
      (Grammar.assemble "$" nested).build tasks .sequential = .ok parser ∧
      parser.rules.nonterminalCount = 2 ∧ parser.terminalId? "z" = none ∧
      parser.firstOfSequence? [.nonterminal 0, .terminal "z", .nonterminal 0] =
        some (["a", "z"], false) :=
    exists_ok (by decide +kernel)
  obtain ⟨begins, vanishes, same, _, enlarged, _⟩ :=
    answers_through_ids built [.nonterminal 0, .terminal "z", .nonterminal 0] (by
      intro n member
      obtain rfl : n = 0 := by simpa using member
      simp [Parser.owns, count])
  rw [answered] at same
  obtain ⟨rfl, rfl⟩ := Prod.mk.inj (Option.some.inj same)
  obtain ⟨larger, built', through⟩ := enlarged ["z"] (by simp)
  exact ⟨parser, larger, built, built', unknown, answered, through⟩

end CanonicalLR
