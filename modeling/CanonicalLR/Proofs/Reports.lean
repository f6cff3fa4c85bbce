import CanonicalLR.Proofs.Clashes
import CanonicalLR.Proofs.PrintedForms
import CanonicalLR.Proofs.Unambiguity
/-
Reports of conflicts. A report writes out two different demands on one terminal of one state, and
the items of that state, all in their printed forms. What it calls the conflict follows from the two
demands, and only three kinds of pairs ever come up: a shift before a reduction, two reductions, and
acceptance beside a reduction at the end of the input.
-/
namespace CanonicalLR

variable {τ υ : Type} [Spelling τ]

namespace Rules.Clash

variable {rules : Rules} {automaton : Automaton} {s t : Nat} {existing incoming : Action}

theorem shiftReduce_iff (clash : rules.Clash automaton s t existing incoming) :
    (Conflict.mk s (.terminal t) existing incoming).kind = .shiftReduce ↔
      ∃ target p, existing = .shift target ∧
        automaton.transition s (.terminal t) = some target ∧ incoming = .reduce p := by
  cases clash with
  | shiftReduce edge => simp [Conflict.kind, edge]
  | reduceReduce | reduceAccept | acceptReduce => simp [Conflict.kind]

theorem reduceReduce_iff (clash : rules.Clash automaton s t existing incoming) :
    (Conflict.mk s (.terminal t) existing incoming).kind = .reduceReduce ↔
      ∃ p q, existing = .reduce p ∧ incoming = .reduce q ∧ p ≠ q := by
  cases clash with
  | reduceReduce apart => simp [Conflict.kind, apart]
  | shiftReduce | reduceAccept | acceptReduce => simp [Conflict.kind]

theorem other_iff (clash : rules.Clash automaton s t existing incoming) :
    (Conflict.mk s (.terminal t) existing incoming).kind = .other ↔
      t = rules.eof ∧ ∃ p, existing = .accept ∧ incoming = .reduce p ∨
        existing = .reduce p ∧ incoming = .accept := by
  cases clash with
  | reduceAccept ended | acceptReduce ended => simp [Conflict.kind, ended]
  | shiftReduce | reduceReduce => simp [Conflict.kind]

end Rules.Clash

/-- What is true of a report: the terminal and the two actions it writes out, where they come from,
and what it calls the conflict. -/
structure ConflictReport.Genuine (report : ConflictReport) (printer : Printer τ) (rules : Rules)
    (automaton : Automaton) (t : Nat) (existing incoming : Action) : Prop where
  found : rules.table automaton = .error ⟨report.state, .terminal t, existing, incoming⟩
  symbolText : printer.Spells (.terminal t) report.symbol
  existingText : printer.ActionText existing report.existing
  incomingText : printer.ActionText incoming report.incoming
  itemTexts : ∃ map, automaton.items? report.state = some map ∧
    List.Forall₂ printer.ItemText map.entries report.items
  first : rules.Demanded automaton report.state (.terminal t) existing
  second : rules.Demanded automaton report.state (.terminal t) incoming
  distinct : existing ≠ incoming
  shiftReduce : report.kind = .shiftReduce ↔ ∃ target p, existing = .shift target ∧
    automaton.transition report.state (.terminal t) = some target ∧ incoming = .reduce p
  reduceReduce : report.kind = .reduceReduce ↔
    ∃ p q, existing = .reduce p ∧ incoming = .reduce q ∧ p ≠ q
  other : report.kind = .other ↔ t = rules.eof ∧
    ∃ p, existing = .accept ∧ incoming = .reduce p ∨ existing = .reduce p ∧ incoming = .accept
  no_goto (target : Nat) : existing ≠ .goto target ∧ incoming ≠ .goto target
  incoming_ne_shift (target : Nat) : incoming ≠ .shift target
  not_shift_accept (target : Nat) : ¬ (existing = .shift target ∧ incoming = .accept)

theorem Printer.conflict?_eq_some {printer : Printer τ} {automaton : Automaton}
    {conflict : Conflict} {report : ConflictReport}
    (h : printer.conflict? automaton conflict = some report) :
    report.state = conflict.state ∧ report.kind = conflict.kind ∧
      printer.symbol? conflict.symbol = some report.symbol ∧
      printer.action? conflict.existing = some report.existing ∧
      printer.action? conflict.incoming = some report.incoming ∧
      ∃ map, automaton.items? conflict.state = some map ∧
        printer.items? map = some report.items := by
  simp only [conflict?, bind, Option.bind_eq_some_iff] at h
  obtain ⟨symbol, written, existing, old, incoming, new, map, found, items, listed, last⟩ := h
  obtain rfl := Option.some.inj last
  exact ⟨rfl, rfl, written, old, new, map, found, listed⟩

theorem Printer.Names.itemTexts {printer : Printer τ} {rules : Rules}
    (names : printer.Names rules) {map : ItemMap} (within : rules.Within map)
    {texts : List String} (h : printer.items? map = some texts) :
    List.Forall₂ printer.ItemText map.entries texts := by
  have inside : ∀ entry ∈ map.entries, ∀ production,
      printer.productions[entry.1.production]? = some production →
        entry.1.dot ≤ production.rhs.length := by
    rintro ⟨item, set⟩ member ⟨lhs, rhs⟩ stored
    have held : map.Holds item none := ItemMap.holds_iff_mem.2 ⟨set, member, trivial⟩
    have bound := (within item none held).2.1
    rwa [Rules.rhs_eq (names.productions ▸ stored)] at bound
  have both := (List.forall₂_and_left _ _).2 ⟨inside, mapM_eq_some_iff.1 h⟩
  refine both.imp ?_
  rintro ⟨item, set⟩ text ⟨bounded, written⟩
  exact Printer.lookaheadItem?_text bounded written

theorem Printer.Names.genuine {printer : Printer τ} {rules : Rules} (names : printer.Names rules)
    {automaton : Automaton} (collects : rules.Collects automaton) {conflict : Conflict}
    (h : rules.table automaton = .error conflict) :
    ∃ report t, printer.conflict? automaton conflict = some report ∧
      report.Genuine printer rules automaton t conflict.existing conflict.incoming := by
  obtain ⟨report, printed⟩ := names.conflict collects h
  obtain ⟨state, kind, symbol, existing, incoming, map, found, items⟩ :=
    Printer.conflict?_eq_some printed
  obtain ⟨distinct, t, at_t, clash⟩ := collects.conflict_clash names.proper h
  obtain ⟨_, _, first, second⟩ := collects.conflict_demanded h
  refine ⟨report, t, printed, ?_⟩
  obtain ⟨s, key, old, new⟩ := conflict
  simp only at state symbol existing incoming found distinct at_t clash first second
  subst state at_t
  constructor
  · exact h
  · exact Printer.spells_of_symbol? symbol
  · exact Printer.action?_text existing
  · exact Printer.action?_text incoming
  · exact ⟨map, found, names.itemTexts (collects.within found) items⟩
  · exact first
  · exact second
  · exact distinct
  · rw [kind, clash.shiftReduce_iff]
  · rw [kind, clash.reduceReduce_iff]
  · rw [kind, clash.other_iff]
  · intro target
    cases clash <;> simp
  · intro target
    cases clash <;> simp
  · intro target
    cases clash <;> simp

theorem FrozenGrammar.conflict_of_tableOf {frozen : FrozenGrammar τ υ} {automaton : Automaton}
    {error : BuildError τ} (failed : frozen.tableOf automaton = .error error) :
    ∃ conflict, frozen.rules.table automaton = .error conflict ∧
      ∀ report, frozen.printer.conflict? automaton conflict = some report →
        error = .conflict report := by
  unfold tableOf at failed
  split at failed
  · contradiction
  · rename_i conflict refused
    refine ⟨conflict, refused, ?_⟩
    intro report printed
    rw [printed] at failed
    exact (Except.error.inj failed).symm

variable [DecidableEq τ] [Fingerprint τ] {eof : τ} {calls : List (Registration τ υ)}
  {frozen : FrozenGrammar τ υ}

/-- Where a finished grammar has no table, the answer is the report of a genuine conflict. -/
theorem reported_conflict_genuine (froze : (Grammar.assemble eof calls).freeze = .ok frozen)
    (construction : Construction) {error : BuildError τ}
    (failed : frozen.tableOf (frozen.rules.automaton (FirstFollow.ofRules frozen.rules)
      construction) = .error error) :
    ∃ report t existing incoming, error = .conflict report ∧
      report.Genuine frozen.printer frozen.rules
        (frozen.rules.automaton (FirstFollow.ofRules frozen.rules) construction)
        t existing incoming := by
  obtain ⟨start, declared, rfl⟩ := Grammar.freeze_eq froze
  have proper := Grammar.rulesFrom_proper (Grammar.assemble_wellFormed eof calls) declared
  have collects := proper.collects construction
  obtain ⟨conflict, refused, reported⟩ := FrozenGrammar.conflict_of_tableOf failed
  have names : (FrozenGrammar.mk (Grammar.assemble eof calls).lexicon
      ((Grammar.assemble eof calls).rulesFrom start)
      (Grammar.assemble eof calls).handlers).printer.Names
        ((Grammar.assemble eof calls).rulesFrom start) := ⟨proper, rfl, rfl, rfl⟩
  obtain ⟨report, t, printed, genuine⟩ := names.genuine collects refused
  exact ⟨report, t, _, _, reported report printed, genuine⟩

/-- Behind a sum, another `+` can be shifted, or the sum be reduced. -/
def sumsReport : ConflictReport where
  state := 4
  symbol := "\"+\""
  kind := .shiftReduce
  existing := "shift 3"
  incoming := "reduce E ::= E \"+\" E"
  items := ["E ::= E . \"+\" E, \x7b\"$\", \"+\"\x7d", "E ::= E \"+\" E ., \x7b\"$\", \"+\"\x7d"]

theorem reported_conflict_genuine_sums : ∃ frozen automaton,
    (Grammar.assemble "$" sums).freeze = .ok frozen ∧
    automaton = frozen.rules.automaton (FirstFollow.ofRules frozen.rules) .sequential ∧
    frozen.tableOf automaton = .error (.conflict sumsReport) ∧
    sumsReport.Genuine frozen.printer frozen.rules automaton 1 (.shift 3) (.reduce 0) := by
  obtain ⟨frozen, froze, refused, clash⟩ : ∃ frozen,
      (Grammar.assemble "$" sums).freeze = .ok frozen ∧
      (match frozen.tableOf
          (frozen.rules.automaton (FirstFollow.ofRules frozen.rules) .sequential) with
        | .error (.conflict report) => some report
        | _ => none) = some sumsReport ∧
      (match frozen.rules.table
          (frozen.rules.automaton (FirstFollow.ofRules frozen.rules) .sequential) with
        | .error conflict => some conflict
        | .ok _ => none) = some ⟨4, .terminal 1, .shift 3, .reduce 0⟩ :=
    exists_ok (by decide +kernel)
  split at refused
  · rename_i report failed
    obtain rfl := Option.some.inj refused
    obtain ⟨_, t, existing, incoming, same, genuine⟩ :=
      reported_conflict_genuine froze .sequential failed
    obtain rfl := BuildError.conflict.inj same
    rw [genuine.found] at clash
    obtain ⟨_, terminal, rfl, rfl⟩ := Conflict.mk.inj (Option.some.inj clash)
    obtain rfl := Symbol.terminal.inj terminal
    exact ⟨frozen, _, froze, rfl, failed, genuine⟩
  · contradiction

end CanonicalLR
