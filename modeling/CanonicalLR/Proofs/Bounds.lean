import CanonicalLR.Dump
import CanonicalLR.Proofs.Canonicity
import CanonicalLR.Proofs.Orderliness
import CanonicalLR.Proofs.Outcomes
import CanonicalLR.Proofs.Sweeps
/-
Every look-up of the construction is in range: those in the sets while they grow, those of the item
maps on the way to the collection, those of the table, and those of the texts. No id is ever taken
for another, since a terminal never reaches the columns of the non-terminals.
-/
namespace CanonicalLR

theorem size_repeat {count : Nat} {round : Array TerminalSet → Array TerminalSet}
    (keeps : ∀ sets, sets.size = count → (round sets).size = count) {sets : Array TerminalSet}
    (base : sets.size = count) (k : Nat) : (Nat.repeat round k sets).size = count := by
  induction k with
  | zero => exact base
  | succ k ih => exact keeps _ ih

namespace Rules

def Known (rules : Rules) : Symbol Nat → Prop
  | .terminal t => t < rules.terminalCount
  | .nonterminal n => n < rules.nonterminalCount

structure SetsInBounds (rules : Rules) : Prop where
  rows : rules.byNonterminal.size = rules.nonterminalCount
  listed {p n : Nat} : p ∈ rules.productionsOf n → p < rules.productions.size
  lhs {p : Nat} {production : Production} : rules.productions[p]? = some production →
    production.lhs < rules.nonterminalCount
  rhs {p : Nat} {production : Production} : rules.productions[p]? = some production →
    ∀ symbol ∈ production.rhs, rules.Known symbol
  first (k : Nat) :
    (Nat.repeat (rules.firstRound rules.nullableSet) k rules.noTerminals).size =
        rules.nonterminalCount ∧
      (Nat.repeat (rules.firstSweep rules.nullableSet) k rules.noTerminals).size =
        rules.nonterminalCount
  follow (k : Nat) :
    (Nat.repeat (rules.followRound rules.nullableSet (rules.firstSets rules.nullableSet)) k
        rules.noTerminals).size = rules.nonterminalCount ∧
      (Nat.repeat (rules.followSweep rules.nullableSet (rules.firstSets rules.nullableSet)) k
        rules.noTerminals).size = rules.nonterminalCount
  covers {symbols : List (Symbol Nat)} : (∀ symbol ∈ symbols, rules.Known symbol) →
    (FirstFollow.ofRules rules).covers symbols = true

/-- The item maps that the construction meets: the seed, what a round of prediction makes of one,
and what is left of one behind a symbol. -/
inductive Meets (rules : Rules) : ItemMap → Prop where
  | seed : Meets rules rules.seed
  | predict {map : ItemMap} (met : Meets rules map) :
      Meets rules (rules.predictRound (FirstFollow.ofRules rules) map)
  | kernel {map : ItemMap} (symbol : Symbol Nat) (met : Meets rules map) :
      Meets rules (rules.kernel map symbol)

structure ItemsInBounds (rules : Rules) (map : ItemMap) : Prop where
  production {item : Item} {look : Option Nat} : map.Holds item look →
    item.production < rules.productions.size
  dot {item : Item} {look : Option Nat} : map.Holds item look →
    item.dot ≤ (rules.rhs item.production).length
  lookahead {item : Item} {t : Nat} : map.Holds item (some t) → t < rules.terminalCount
  next {item : Item} {look : Option Nat} {n : Nat} : map.Holds item look →
    rules.next item = some (.nonterminal n) → n < rules.byNonterminal.size ∧
      (FirstFollow.ofRules rules).covers (rules.after item) = true
  closure : rules.closure? (FirstFollow.ofRules rules) map =
    some (rules.closure (FirstFollow.ofRules rules) map)
  goto (symbol : Symbol Nat) : rules.goto? (FirstFollow.ofRules rules) map symbol =
    some (rules.goto (FirstFollow.ofRules rules) map symbol)
  relevant : rules.relevantSymbols? map.items = some (rules.relevantSymbols map.items)

structure CollectionInBounds (rules : Rules) (automaton : Automaton) : Prop where
  met {map : ItemMap} : rules.Meets map → rules.ItemsInBounds map
  states {s : Nat} {map : ItemMap} : automaton.items? s = some map → rules.Meets map
  start : automaton.start < automaton.stateCount
  steps : automaton.steps.size = automaton.stateCount
  edges : ∀ edge ∈ automaton.edges, edge.source < automaton.stateCount ∧
    edge.target < automaton.stateCount ∧ rules.Known edge.symbol

def width (rules : Rules) : Nat := rules.terminalCount + rules.nonterminalCount

def column (rules : Rules) : Symbol Nat → Nat
  | .terminal t => t
  | .nonterminal n => rules.terminalCount + n

def slot (rules : Rules) (s : Nat) (symbol : Symbol Nat) : Nat :=
  s * rules.width + rules.column symbol

def ActionInBounds (rules : Rules) (automaton : Automaton) : Action → Prop
  | .shift target => target < automaton.stateCount
  | .goto target => target < automaton.stateCount
  | .reduce production => production < rules.productions.size
  | .accept => True

/-- Every demand has a place of its own in the table. -/
structure TableInBounds (rules : Rules) (automaton : Automaton) : Prop where
  demand {s : Nat} {map : ItemMap} {symbol : Symbol Nat} {action : Action} :
    automaton.items? s = some map →
    (symbol, action) ∈ rules.demands map (automaton.stepsFrom s) → rules.Known symbol ∧
      rules.slot s symbol < automaton.stateCount * rules.width ∧
      rules.ActionInBounds automaton action
  apart {s s' : Nat} {symbol symbol' : Symbol Nat} : rules.Known symbol → rules.Known symbol' →
    rules.slot s symbol = rules.slot s' symbol' → s = s' ∧ symbol = symbol'

variable {rules : Rules} {automaton : Automaton}

theorem column_lt {symbol : Symbol Nat} (known : rules.Known symbol) :
    rules.column symbol < rules.width := by
  cases symbol with
  | terminal t => exact Nat.lt_add_right _ known
  | nonterminal n => exact Nat.add_lt_add_left known _

theorem column_injective {symbol symbol' : Symbol Nat} (known : rules.Known symbol)
    (known' : rules.Known symbol') (same : rules.column symbol = rules.column symbol') :
    symbol = symbol' := by
  cases symbol <;> cases symbol' <;> simp only [column, Known] at same known known' <;> grind

theorem slot_lt {s count : Nat} (row : s < count) {symbol : Symbol Nat}
    (known : rules.Known symbol) : rules.slot s symbol < count * rules.width := by
  have inside := column_lt known
  calc rules.slot s symbol < s * rules.width + rules.width := Nat.add_lt_add_left inside _
    _ = (s + 1) * rules.width := (Nat.succ_mul s rules.width).symm
    _ ≤ count * rules.width := Nat.mul_le_mul_right _ row

theorem slot_injective {s s' : Nat} {symbol symbol' : Symbol Nat} (known : rules.Known symbol)
    (known' : rules.Known symbol') (same : rules.slot s symbol = rules.slot s' symbol') :
    s = s' ∧ symbol = symbol' := by
  have inside := column_lt known
  have inside' := column_lt known'
  have positive : 0 < rules.width := Nat.zero_lt_of_lt inside
  have row : s = s' := by
    have quotient := congrArg (· / rules.width) same
    simpa [slot, Nat.add_comm, Nat.add_mul_div_right _ _ positive, Nat.div_eq_of_lt inside,
      Nat.div_eq_of_lt inside'] using quotient
  subst row
  exact ⟨rfl, column_injective known known' (Nat.add_left_cancel same)⟩

theorem firstSets_size (nullable : IdSet) :
    (rules.firstSets nullable).size = rules.nonterminalCount :=
  stabilize_induction (P := fun (sets : Array TerminalSet) => sets.size = rules.nonterminalCount)
    (fun _ _ => by simp [firstRound]) _ (by simp [noTerminals])

theorem covers_of_known {symbols : List (Symbol Nat)}
    (known : ∀ n, .nonterminal n ∈ symbols → n < rules.nonterminalCount) :
    (FirstFollow.ofRules rules).covers symbols = true := by
  induction symbols with
  | nil => rfl
  | cons symbol rest ih =>
    cases symbol with
    | terminal t => rfl
    | nonterminal n =>
      have row : n < (FirstFollow.ofRules rules).first.size := by
        rw [FirstFollow.ofRules, firstSets_size]
        exact known n List.mem_cons_self
      have later := ih fun m member => known m (List.mem_cons_of_mem _ member)
      simp [FirstFollow.covers, row, later]

theorem Proper.next_known (proper : rules.Proper) {item : Item} {symbol : Symbol Nat}
    (next : rules.next item = some symbol) : rules.Known symbol := by
  cases symbol with
  | terminal t => exact proper.next_terminal next
  | nonterminal n => exact Nat.lt_of_succ_lt (proper.next_nonterminal next)

theorem Proper.rhs_known (proper : rules.Proper) {p : Nat} {production : Production}
    (rule : rules.productions[p]? = some production) :
    ∀ symbol ∈ production.rhs, rules.Known symbol := by
  intro symbol member
  obtain ⟨dot, found⟩ := List.mem_iff_getElem?.1 member
  have next : rules.next ⟨p, dot⟩ = some symbol := by rwa [Rules.next, Rules.rhs_eq rule]
  exact proper.next_known next

theorem Proper.after_known (proper : rules.Proper) (item : Item) :
    ∀ symbol ∈ rules.after item, rules.Known symbol := by
  intro symbol member
  have inside := List.mem_of_mem_drop member
  cases found : rules.productions[item.production]? with
  | none => simp [Rules.rhs, found] at inside
  | some production =>
    apply proper.rhs_known found
    simpa [Rules.rhs, found] using inside

theorem Proper.setsInBounds (proper : rules.Proper)
    (rows : rules.byNonterminal.size = rules.nonterminalCount) : rules.SetsInBounds := by
  have empty : rules.noTerminals.size = rules.nonterminalCount := by simp [noTerminals]
  have sweeps := firstSweep_additive proper rules.nullableSet
  have sweeps' := rules.followSweep_additive rules.nullableSet (rules.firstSets rules.nullableSet)
  constructor
  · exact rows
  · exact fun member => proper.mem_productionsOf_lt member
  · exact fun rule => proper.lhs_lt rule
  · exact fun rule => proper.rhs_known rule
  · intro k
    constructor
    · exact size_repeat (fun _ _ => by simp [firstRound]) empty k
    · exact size_repeat (fun _ kept => sweeps.sweep_keeps _ kept) empty k
  · intro k
    constructor
    · exact size_repeat (fun _ _ => by simp [followRound]) empty k
    · exact size_repeat (fun _ kept => sweeps'.sweep_keeps _ kept) empty k
  · exact fun known => covers_of_known fun n => known (.nonterminal n)

theorem Proper.predictRound_within (proper : rules.Proper) {map : ItemMap}
    (within : rules.Within map) :
    rules.Within (rules.predictRound (FirstFollow.ofRules rules) map) := by
  intro item look held
  apply proper.predicted_within within
  rcases (predictRound_holds proper).1 held with
    old | ⟨source, own, n, p, found, next, member, same, hands⟩
  · exact .held old
  · rw [same]
    exact .predict (.held found) next member hands

theorem Meets.within (proper : rules.Proper) {map : ItemMap} (met : rules.Meets map) :
    rules.Within map := by
  induction met with
  | seed => exact proper.seed_within
  | predict _ ih => exact proper.predictRound_within ih
  | kernel symbol _ ih => exact kernel_within ih symbol

theorem Meets.closure {map : ItemMap} (met : rules.Meets map) :
    rules.Meets (rules.closure (FirstFollow.ofRules rules) map) :=
  stabilize_induction (fun _ ok => ok.predict) _ met

theorem Proper.itemsInBounds (proper : rules.Proper) (sets : rules.SetsInBounds) {map : ItemMap}
    (within : rules.Within map) : rules.ItemsInBounds map := by
  have knows : rules.knows map.items = true := by
    rw [Rules.knows, List.all_eq_true]
    intro item member
    exact decide_eq_true (within item none (ItemMap.mem_items.1 member)).1
  constructor
  · exact fun held => (within _ _ held).1
  · exact fun held => (within _ _ held).2.1
  · exact fun held => (within _ _ held).2.2 _ rfl
  · intro item look n _ next
    rw [sets.rows]
    exact ⟨Nat.lt_of_succ_lt (proper.next_nonterminal next), sets.covers (proper.after_known item)⟩
  · simp [closure?, knows]
  · intro symbol
    simp [goto?, knows]
  · simp [relevantSymbols?, knows]

theorem Collects.transition_inBounds (collects : rules.Collects automaton) (proper : rules.Proper)
    {s target : Nat} {symbol : Symbol Nat} (edge : automaton.transition s symbol = some target) :
    s < automaton.stateCount ∧ target < automaton.stateCount ∧ rules.Known symbol := by
  obtain ⟨map, found⟩ := collects.transition_source edge
  obtain ⟨relevant, there⟩ := (collects.transition_iff found).1 edge
  obtain ⟨_, item, _, next⟩ := mem_relevantSymbols.1 relevant
  exact ⟨(Array.getElem?_eq_some_iff.1 found).1, (Array.getElem?_eq_some_iff.1 there).1,
    proper.next_known next⟩

theorem Collects.demanded_inBounds (collects : rules.Collects automaton) (proper : rules.Proper)
    {s : Nat} {symbol : Symbol Nat} {action : Action}
    (h : rules.Demanded automaton s symbol action) :
    rules.Known symbol ∧ rules.ActionInBounds automaton action := by
  cases h with
  | step edge =>
    obtain ⟨_, target, known⟩ := collects.transition_inBounds proper edge
    cases symbol <;> exact ⟨known, target⟩
  | reduce found held _ =>
    obtain ⟨stored, _, known⟩ := collects.within found _ _ held
    exact ⟨known _ rfl, stored⟩
  | accept => exact ⟨proper.eof, trivial⟩

theorem Proper.collectionInBounds (proper : rules.Proper) (sets : rules.SetsInBounds)
    (construction : Construction) :
    rules.CollectionInBounds (rules.automaton (FirstFollow.ofRules rules) construction) := by
  have collects := proper.collects construction
  constructor
  · exact fun met => proper.itemsInBounds sets (met.within proper)
  · intro s map found
    exact automaton_induction (P := rules.Meets) construction
      (fun _ symbol met _ => (Meets.kernel symbol met).closure) Meets.seed.closure found
  · exact (Array.getElem?_eq_some_iff.1 collects.start).1
  · exact collects.rows
  · intro edge member
    have step := (Automaton.mem_edges collects.deterministic).1 member
    exact collects.transition_inBounds proper step

theorem Proper.tableInBounds (proper : rules.Proper) (collects : rules.Collects automaton) :
    rules.TableInBounds automaton := by
  constructor
  · intro s map symbol action found member
    obtain ⟨known, ids⟩ := collects.demanded_inBounds proper ((collects.mem_demands found).1 member)
    exact ⟨known, slot_lt (Array.getElem?_eq_some_iff.1 found).1 known, ids⟩
  · exact slot_injective

end Rules

variable {τ υ : Type}

theorem Printer.Names.known [Spelling τ] {printer : Printer τ} {rules : Rules}
    (names : printer.Names rules) {symbol : Symbol Nat} (known : rules.Known symbol) :
    ∃ text, printer.symbol? symbol = some text := by
  cases symbol with
  | terminal t => exact names.terminal known
  | nonterminal n => exact names.nonterminal known

namespace Parser

structure InBounds [Spelling τ] (parser : Parser τ υ) : Prop where
  dot {s : Nat} {map : ItemMap} {item : Item} : parser.automaton.items? s = some map →
    item ∈ map.items → ∃ production, parser.rules.productions[item.production]? = some production ∧
      item.dot ≤ production.rhs.length
  lookahead {s t : Nat} {map : ItemMap} {item : Item} : parser.automaton.items? s = some map →
    map.Holds item (some t) → t < parser.table.terminalCount
  tableText : parser.tableText ≠ .error .danglingId
  statesText : ∃ text, parser.statesText? = some text
  dotText : ∃ text, parser.dotText? = some text

variable [Fingerprint τ] {parser : Parser τ υ} {eof : τ}

theorem Built.names (built : parser.Built eof) : parser.printer.Names parser.rules :=
  ⟨built.machinery.proper, rfl, rfl, built.terminals.symm⟩

variable [Spelling τ]

theorem Built.headers (built : parser.Built eof) :
    ∃ headers, parser.headers? = some headers := by
  apply mapM_exists
  intro symbol member
  apply built.names.known
  rcases List.mem_append.1 member with terminal | nonterminal
  · obtain ⟨t, inside, rfl⟩ := List.mem_map.1 terminal
    rw [built.machinery.tabulates.terminalCount] at inside
    exact List.mem_range.1 inside
  · obtain ⟨n, inside, rfl⟩ := List.mem_map.1 nonterminal
    exact List.mem_range.1 inside

theorem Built.stateItems (built : parser.Built eof) :
    ∃ states, parser.stateItems? = some states := by
  apply mapM_exists
  intro map member
  obtain ⟨s, found⟩ := List.mem_iff_getElem?.1 member
  have stored : parser.automaton.items? s = some map := by
    simpa [Automaton.items?] using found
  exact built.names.items (built.machinery.collects.within stored)

theorem Built.inBounds (built : parser.Built eof) : parser.InBounds := by
  have collects := built.machinery.collects
  obtain ⟨states, listed⟩ := built.stateItems
  constructor
  · intro s map item found member
    obtain ⟨stored, dotted, _⟩ := collects.within found _ _ (ItemMap.mem_items.1 member)
    have rule := Array.getElem?_eq_getElem stored
    refine ⟨_, rule, ?_⟩
    rwa [Rules.rhs, rule] at dotted
  · intro s t map item found held
    rw [built.machinery.tabulates.terminalCount]
    exact (collects.within found _ _ held).2.2 t rfl
  · obtain ⟨headers, written⟩ := built.headers
    unfold tableText
    simp only [written]
    split <;> simp
  · simp [statesText?, listed]
  · obtain ⟨edges, drawn⟩ : ∃ edges, (parser.automaton.edges.mapM fun edge =>
        (parser.printer.symbol? edge.symbol).map (edgeText edge)) = some edges := by
      apply mapM_exists
      intro edge member
      have step := (Automaton.mem_edges collects.deterministic).1 member
      obtain ⟨_, _, known⟩ := collects.transition_inBounds built.machinery.proper step
      obtain ⟨text, written⟩ := built.names.known known
      exact ⟨edgeText edge text, by simp [written]⟩
    simp [dotText?, listed, drawn]

end Parser

variable [DecidableEq τ] [Fingerprint τ] [Spelling τ]

/-- Two productions, between calls that are refused: ids that were never declared, the end of the
input on a right side, and a production that is there already. -/
def careless : List (Registration String Nat) :=
  [.start 4, .nonterminal "S", .production 3 [] fun _ => 0,
    .production 0 [.nonterminal 5] fun _ => 0,
    .production 0 [.terminal "a", .nonterminal 0] (List.foldl Nat.add 0),
    .production 0 [.terminal "$"] fun _ => 0, .terminal "b", .start 9,
    .production 0 [.terminal "a", .nonterminal 0] fun _ => 1, .production 0 [] fun _ => 0]

/-- However a grammar was assembled it is in order, and if it has a start symbol, everything that
the construction looks up is there, whether it ends in a parser or in the report of a conflict;
without a pool nothing is looked up. -/
theorem assembled_in_bounds (eof : τ) (calls : List (Registration τ υ)) :
    (Grammar.assemble eof calls).Orderly ∧
      ∀ start, (Grammar.assemble eof calls).start = some start →
        ((Grammar.assemble eof calls).rulesFrom start).SetsInBounds ∧
        (∀ construction,
          ((Grammar.assemble eof calls).rulesFrom start).CollectionInBounds
            (((Grammar.assemble eof calls).rulesFrom start).automaton
              (FirstFollow.ofRules ((Grammar.assemble eof calls).rulesFrom start))
              construction) ∧
          ((Grammar.assemble eof calls).rulesFrom start).TableInBounds
            (((Grammar.assemble eof calls).rulesFrom start).automaton
              (FirstFollow.ofRules ((Grammar.assemble eof calls).rulesFrom start))
              construction)) ∧
        ∀ host strategy,
          (∃ parser, (Grammar.assemble eof calls).build host strategy = .ok parser ∧
            parser.InBounds) ∨
          (∃ report, (Grammar.assemble eof calls).build host strategy =
            .error (.conflict report)) ∨
          ∃ reasons, strategy.launch host = .error reasons ∧
            (Grammar.assemble eof calls).build host strategy =
              .error (.workerPool reasons) := by
  have wf := Grammar.assemble_wellFormed eof calls
  refine ⟨Grammar.assemble_orderly eof calls, ?_⟩
  intro start declared
  have proper := Grammar.rulesFrom_proper wf declared
  have sets := proper.setsInBounds (by simp [Grammar.rulesFrom, Rules.nonterminalCount, wf.rows])
  refine ⟨sets, ?_, ?_⟩
  · intro construction
    exact ⟨proper.collectionInBounds sets construction,
      proper.tableInBounds (proper.collects construction)⟩
  · intro host strategy
    rcases Grammar.build_ends wf declared host strategy with ⟨parser, built⟩ | refused
    · obtain ⟨_, _, sound⟩ := Parser.Built.of_assemble built
      exact Or.inl ⟨parser, built, sound.inBounds⟩
    · exact Or.inr refused

theorem assembled_in_bounds_careless :
    (Grammar.assemble "$" careless).Orderly ∧
      (Grammar.assemble "$" careless).productions.size = 2 ∧
      (Grammar.assemble "$" careless).start = some 0 ∧
      ((Grammar.assemble "$" careless).rulesFrom 0).SetsInBounds ∧
      ∃ parser, (Grammar.assemble "$" careless).build tasks .sequential = .ok parser ∧
        parser.InBounds := by
  have declared : (Grammar.assemble "$" careless).start = some 0 := by decide +kernel
  obtain ⟨parser, built, _⟩ : ∃ parser,
      (Grammar.assemble "$" careless).build tasks .sequential = .ok parser ∧ True :=
    exists_ok (by decide +kernel)
  obtain ⟨orderly, construction⟩ := assembled_in_bounds "$" careless
  obtain ⟨sets, _, ends⟩ := construction 0 declared
  rcases ends tasks .sequential with finished | ⟨report, refused⟩ | ⟨reasons, missing, _⟩
  · exact ⟨orderly, by decide +kernel, declared, sets, finished⟩
  · exact absurd (built.symm.trans refused) (by simp)
  · exact absurd missing ((Strategy.sequential_starts tasks).launch_ne reasons)

end CanonicalLR
