import CanonicalLR.Proofs.Conflicts
import CanonicalLR.Proofs.Soundness
/-
How a build ends. Every id of finished rules can be written, so a conflict is always reported in
full; a grammar with a start symbol therefore has a parser if no two viable items collide, and is
refused with a report of the conflict otherwise. Before that, a build with a pool that cannot be
started ends with the reasons for it, whatever the grammar.
-/
namespace CanonicalLR

variable {τ υ : Type}

structure Printer.Names (printer : Printer τ) (rules : Rules) : Prop where
  proper : rules.Proper
  names : printer.names = rules.names
  productions : printer.productions = rules.productions
  terminals : printer.lexicon.size = rules.terminalCount

namespace Printer.Names

variable {printer : Printer τ} {rules : Rules}

theorem nonterminal (names : printer.Names rules) {n : Nat} (known : n < rules.nonterminalCount) :
    ∃ text, printer.nonterminal? n = some text := by
  have bound : n < printer.names.size := by rwa [names.names]
  exact ⟨_, Array.getElem?_eq_getElem bound⟩

variable [Spelling τ]

theorem terminal (names : printer.Names rules) {t : Nat} (known : t < rules.terminalCount) :
    ∃ text, printer.terminal? t = some text := by
  obtain ⟨kind, found⟩ := Interner.get?_of_lt (names.terminals ▸ known)
  exact ⟨spelling kind, by simp [terminal?, found]⟩

theorem symbol (names : printer.Names rules) {item : Item} {symbol : Symbol Nat}
    (next : rules.next item = some symbol) : ∃ text, printer.symbol? symbol = some text := by
  cases symbol with
  | terminal t => exact names.terminal (names.proper.next_terminal next)
  | nonterminal n =>
    have bound := names.proper.next_nonterminal next
    exact names.nonterminal (by omega)

theorem sides (names : printer.Names rules) {p : Nat} (stored : p < rules.productions.size) :
    ∃ production name symbols, printer.productions[p]? = some production ∧
      printer.nonterminal? production.lhs = some name ∧
      production.rhs.mapM printer.symbol? = some symbols := by
  obtain ⟨⟨lhs, rhs⟩, rule⟩ : ∃ production, rules.productions[p]? = some production :=
    ⟨_, Array.getElem?_eq_getElem stored⟩
  obtain ⟨name, left⟩ := names.nonterminal (names.proper.lhs_lt rule)
  obtain ⟨symbols, right⟩ : ∃ symbols, rhs.mapM printer.symbol? = some symbols := by
    apply mapM_exists
    intro symbol member
    obtain ⟨dot, found⟩ := List.mem_iff_getElem?.1 member
    have next : rules.next ⟨p, dot⟩ = some symbol := by rwa [Rules.next, Rules.rhs_eq rule]
    exact names.symbol next
  exact ⟨_, name, symbols, names.productions ▸ rule, left, right⟩

theorem rule (names : printer.Names rules) {p : Nat} (stored : p < rules.productions.size) :
    ∃ text, printer.rule? p = some text := by
  obtain ⟨production, name, symbols, found, left, right⟩ := names.sides stored
  simp [rule?, production?, found, left, right]

theorem items (names : printer.Names rules) {map : ItemMap} (within : rules.Within map) :
    ∃ texts, printer.items? map = some texts := by
  unfold items?
  apply mapM_exists
  rintro ⟨item, set⟩ member
  have held : map.Holds item none := ItemMap.holds_iff_mem.2 ⟨set, member, trivial⟩
  obtain ⟨production, name, symbols, found, left, right⟩ := names.sides (within item none held).1
  obtain ⟨texts, listed⟩ : ∃ texts, set.ids.mapM printer.terminal? = some texts := by
    apply mapM_exists
    intro t shown
    have fact : map.Holds item (some t) := ItemMap.holds_iff_mem.2 ⟨set, member, shown⟩
    exact names.terminal ((within item (some t) fact).2.2 t rfl)
  simp [lookaheadItem?, item?, terminals?, found, left, right, listed]

theorem demanded (names : printer.Names rules) {automaton : Automaton}
    (collects : rules.Collects automaton) {s : Nat} {symbol : Symbol Nat} {action : Action}
    (h : rules.Demanded automaton s symbol action) :
    (∃ text, printer.symbol? symbol = some text) ∧ ∃ text, printer.action? action = some text := by
  cases h with
  | step edge =>
    obtain ⟨map, found⟩ := collects.transition_source edge
    obtain ⟨relevant, _⟩ := (collects.transition_iff found).1 edge
    obtain ⟨_, item, _, next⟩ := Rules.mem_relevantSymbols.1 relevant
    refine ⟨names.symbol next, ?_⟩
    cases symbol with
    | terminal t => exact ⟨_, rfl⟩
    | nonterminal n => exact ⟨_, rfl⟩
  | reduce found held complete =>
    obtain ⟨stored, _, known⟩ := collects.within found _ _ held
    obtain ⟨text, written⟩ := names.rule stored
    exact ⟨names.terminal (known _ rfl), by simp [action?, written]⟩
  | accept => exact ⟨names.terminal names.proper.eof, _, rfl⟩

theorem conflict (names : printer.Names rules) {automaton : Automaton}
    (collects : rules.Collects automaton) {conflict : Conflict}
    (h : rules.table automaton = .error conflict) :
    ∃ report, printer.conflict? automaton conflict = some report := by
  obtain ⟨map, found, first, second⟩ := collects.conflict_demanded h
  obtain ⟨⟨symbol, written⟩, existing, old⟩ := names.demanded collects first
  obtain ⟨_, incoming, new⟩ := names.demanded collects second
  obtain ⟨items, listed⟩ := names.items (collects.within found)
  simp [conflict?, written, old, new, found, listed]

end Printer.Names

namespace Grammar

variable [Spelling τ] {grammar : Grammar τ υ} {start : Nat} {host : Host} {strategy : Strategy}

theorem build_of_failure (declared : grammar.start = some start) {reasons : List String}
    (failed : strategy.launch host = .error reasons) :
    grammar.build host strategy = .error (.workerPool reasons) := by
  simp [build, freeze, declared, FrozenGrammar.tabulate, failed]

section Launched

variable {construction : Construction} (launched : strategy.launch host = .ok construction)

include launched

theorem build_of_table (declared : grammar.start = some start) {table : ParseTable}
    (h : (grammar.rulesFrom start).table ((grammar.rulesFrom start).automaton
      (FirstFollow.ofRules (grammar.rulesFrom start)) construction) = .ok table) :
    ∃ parser, grammar.build host strategy = .ok parser := by
  simp [build, freeze, declared, FrozenGrammar.tabulate, FrozenGrammar.tableOf, launched, h,
    Except.map]

theorem build_of_conflict (declared : grammar.start = some start) {conflict : Conflict}
    {report : ConflictReport}
    (h : (grammar.rulesFrom start).table ((grammar.rulesFrom start).automaton
      (FirstFollow.ofRules (grammar.rulesFrom start)) construction) = .error conflict)
    (printed : (Printer.mk (grammar.rulesFrom start).names (grammar.rulesFrom start).productions
      grammar.lexicon).conflict? ((grammar.rulesFrom start).automaton
        (FirstFollow.ofRules (grammar.rulesFrom start)) construction) conflict = some report) :
    grammar.build host strategy = .error (.conflict report) := by
  simp [build, freeze, declared, FrozenGrammar.tabulate, FrozenGrammar.tableOf,
    FrozenGrammar.printer, launched, h, printed, Except.map]

end Launched

variable [Fingerprint τ] {eof : τ}

/-- A grammar with a start symbol is refused for conflicts alone, and only for real ones. -/
theorem build_cases (wf : grammar.WellFormed eof) (declared : grammar.start = some start)
    (starts : strategy.Starts host) :
    ((∃ parser, grammar.build host strategy = .ok parser) ∧
      ∀ stack, ¬ (grammar.rulesFrom start).Collision stack) ∨
    (∃ report, grammar.build host strategy = .error (.conflict report)) ∧
      ∃ stack, (grammar.rulesFrom start).Collision stack := by
  obtain ⟨construction, launched⟩ := starts
  have proper := rulesFrom_proper wf declared
  have collects := proper.collects construction
  cases tabulated : (grammar.rulesFrom start).table ((grammar.rulesFrom start).automaton
      (FirstFollow.ofRules (grammar.rulesFrom start)) construction) with
  | ok table =>
    have machinery : Machinery _ _ table := ⟨proper, collects, collects.tabulates tabulated⟩
    exact Or.inl ⟨build_of_table launched declared tabulated, machinery.no_collision⟩
  | error conflict =>
    have names : (Printer.mk (grammar.rulesFrom start).names
        (grammar.rulesFrom start).productions grammar.lexicon).Names (grammar.rulesFrom start) :=
      ⟨proper, rfl, rfl, rfl⟩
    obtain ⟨report, printed⟩ := names.conflict collects tabulated
    refine Or.inr ⟨⟨report, build_of_conflict launched declared tabulated printed⟩, ?_⟩
    by_contra free
    obtain ⟨table, filled⟩ := proper.table_exists construction (not_exists.1 free)
    rw [tabulated] at filled
    contradiction

theorem build_ends (wf : grammar.WellFormed eof) (declared : grammar.start = some start)
    (host : Host) (strategy : Strategy) :
    (∃ parser, grammar.build host strategy = .ok parser) ∨
    (∃ report, grammar.build host strategy = .error (.conflict report)) ∨
    ∃ reasons, strategy.launch host = .error reasons ∧
      grammar.build host strategy = .error (.workerPool reasons) := by
  rcases strategy.starts_or_fails host with starts | ⟨reasons, failed⟩
  · rcases build_cases wf declared starts with ⟨built, _⟩ | ⟨refused, _⟩
    · exact Or.inl built
    · exact Or.inr (Or.inl refused)
  · exact Or.inr (Or.inr ⟨reasons, failed, build_of_failure declared failed⟩)

theorem build_ok_iff (wf : grammar.WellFormed eof) (declared : grammar.start = some start)
    (starts : strategy.Starts host) :
    (∃ parser, grammar.build host strategy = .ok parser) ↔
      ∀ stack, ¬ (grammar.rulesFrom start).Collision stack := by
  rcases build_cases wf declared starts with ⟨built, free⟩ | ⟨⟨report, refused⟩, stack, met⟩
  · exact ⟨fun _ => free, fun _ => built⟩
  · refine ⟨?_, fun free => absurd met (free stack)⟩
    rintro ⟨parser, built⟩
    rw [refused] at built
    contradiction

theorem build_conflict_iff (wf : grammar.WellFormed eof) (declared : grammar.start = some start)
    (starts : strategy.Starts host) :
    (∃ report, grammar.build host strategy = .error (.conflict report)) ↔
      ∃ stack, (grammar.rulesFrom start).Collision stack := by
  rcases build_cases wf declared starts with ⟨⟨parser, built⟩, free⟩ | ⟨refused, met⟩
  · refine ⟨?_, fun ⟨stack, met⟩ => absurd met (free stack)⟩
    rintro ⟨report, refused⟩
    rw [built] at refused
    contradiction
  · exact ⟨fun _ => met, fun _ => refused⟩

end Grammar

end CanonicalLR
