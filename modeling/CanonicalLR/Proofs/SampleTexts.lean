import CanonicalLR.Proofs.WrittenTrees
/-
What the samples print. Their grammars keep to plain names and words from the first registration
to the last, so a text that one of their parsers returns tells the tree and with it the words.
-/
namespace CanonicalLR

namespace Grammar

theorem build_eq_sequential {τ υ : Type} [Spelling τ] (grammar : Grammar τ υ) {host : Host}
    {strategy : Strategy} (starts : strategy.Starts host) :
    grammar.build host strategy = grammar.build tasks .sequential := by
  obtain ⟨construction, launched⟩ := starts
  have sequential : Strategy.sequential.launch tasks = .ok .sequential := rfl
  simp only [build, FrozenGrammar.tabulate, launched, sequential,
    Rules.automaton_eq_sequential _ _ construction]

section Registration

variable {τ υ : Type} [DecidableEq τ] [Fingerprint τ]

theorem get?_internSymbols_cases {lexicon : Lexicon τ} {rhs : List (Symbol τ)} {id : Nat} {t : τ}
    (h : (internSymbols lexicon rhs).2.get? id = some t) :
    .terminal t ∈ rhs ∨ lexicon.get? id = some t := by
  induction rhs generalizing lexicon with
  | nil => exact Or.inr h
  | cons symbol rest ih =>
    rcases symbol with word | n
    · rcases ih h with later | early
      · exact Or.inl (List.mem_cons_of_mem _ later)
      · rcases Interner.get?_intern_cases early with rfl | old
        · exact Or.inl List.mem_cons_self
        · exact Or.inr old
    · exact (ih h).imp_left (List.mem_cons_of_mem _)

end Registration

variable {grammar extended : Grammar String String} {lhs id : Nat} {rhs : List (Symbol String)}

theorem new_writes : (new "$" : Grammar String String).Writes where
  wf := new_wellFormed "$"
  tidy := new_tidy "$"
  name named := by simp [new] at named
  apart named := by simp [new] at named
  word stored := by
    rcases Interner.get?_intern_cases stored with rfl | none
    · decide
    · simp [Interner.empty, Interner.get?] at none
  handler rule := by simp [new] at rule

namespace Writes

theorem nonterminal (writes : grammar.Writes) {name : String} (plain : Plain name.toList)
    (fresh : name ∉ grammar.names) : (grammar.nonterminal name).2.Writes where
  wf := nonterminal_wellFormed writes.wf name
  tidy := nonterminal_tidy writes.tidy name
  name {n other} named := by
    simp only [Grammar.nonterminal, Array.getElem?_push] at named
    split at named
    · exact Option.some.inj named ▸ plain
    · exact writes.name named
  apart {m n other} named named' := by
    simp only [Grammar.nonterminal, Array.getElem?_push] at named named'
    split at named <;> split at named'
    · omega
    · exact absurd (Option.some.inj named ▸ Array.mem_of_getElem? named') fresh
    · exact absurd (Option.some.inj named' ▸ Array.mem_of_getElem? named) fresh
    · exact writes.apart named named'
  word := writes.word
  handler {p production} rule := by
    obtain ⟨other, named, written⟩ := writes.handler rule
    have old : production.lhs ≠ grammar.names.size :=
      Nat.ne_of_lt (Array.getElem?_eq_some_iff.1 named).1
    refine ⟨other, ?_, written⟩
    simp only [Grammar.nonterminal, Array.getElem?_push, if_neg old, named]

theorem addProduction (writes : grammar.Writes)
    (plain : ∀ word, .terminal word ∈ rhs → Plain word.toList)
    (h : grammar.addProduction lhs rhs (treeText ((grammar.name? lhs).getD "")) =
      (.ok id, extended)) : extended.Writes := by
  have wf := addProduction_wellFormed writes.wf lhs rhs (treeText ((grammar.name? lhs).getD ""))
  have tidy := addProduction_tidy writes.wf writes.tidy lhs rhs
    (treeText ((grammar.name? lhs).getD ""))
  obtain ⟨declared, _, rfl⟩ := addProduction_accepted h
  rw [h] at wf tidy
  refine { wf, tidy, name := writes.name, apart := writes.apart, word := ?_, handler := ?_ }
  · intro other word stored
    exact (get?_internSymbols_cases stored).elim (plain word) writes.word
  · intro p production rule
    simp only [pushProduction, Array.getElem?_push, writes.wf.handlers] at rule ⊢
    split at rule
    · rename_i last
      obtain rfl := Option.some.inj rule
      rw [if_pos last]
      refine ⟨grammar.names[lhs], Array.getElem?_eq_getElem declared, ?_⟩
      simp [name?, declared]
    · rename_i old
      rw [if_neg old]
      exact writes.handler rule

end Writes

end Grammar

namespace Sample

variable {grammar final : Grammar String String}

theorem declare_writes (writes : grammar.Writes) {names : List String}
    (plain : ∀ name ∈ names, Plain name.toList) (apart : (grammar.names.toList ++ names).Nodup) :
    (declare names grammar).Writes := by
  induction names generalizing grammar with
  | nil => exact writes
  | cons name names ih =>
    rw [List.forall_mem_cons] at plain
    have fresh : name ∉ grammar.names := by
      intro member
      exact (List.nodup_append.1 apart).2.2 name (Array.mem_toList_iff.2 member) name
        List.mem_cons_self rfl
    apply ih (writes.nonterminal plain.1 fresh) plain.2
    simpa [Grammar.nonterminal] using apart

theorem register_writes (writes : grammar.Writes) {rules : List (Nat × List (Symbol String))}
    (plain : ∀ rule ∈ rules, ∀ word, .terminal word ∈ rule.2 → Plain word.toList)
    (h : register grammar rules = .ok final) : final.Writes := by
  induction rules generalizing grammar with
  | nil => exact Except.ok.inj h ▸ writes
  | cons rule rules ih =>
    rw [List.forall_mem_cons] at plain
    simp only [register] at h
    split at h
    · contradiction
    · rename_i accepted
      exact ih (writes.addProduction plain.1 accepted) plain.2 h

theorem nonterminals_plain (sample : Sample) : ∀ name ∈ sample.nonterminals, Plain name.toList := by
  cases sample <;> decide

theorem nonterminals_nodup (sample : Sample) : sample.nonterminals.Nodup := by
  cases sample <;> decide

theorem rules_plain (sample : Sample) :
    ∀ rule ∈ sample.rules, ∀ word, .terminal word ∈ rule.2 → Plain word.toList := by
  cases sample <;> simp [rules, word] <;> decide

theorem grammar_writes {sample : Sample} (h : sample.grammar = .ok grammar) : grammar.Writes := by
  have declared : (declare sample.nonterminals (Grammar.new "$")).Writes :=
    declare_writes Grammar.new_writes sample.nonterminals_plain (by
      simpa [Grammar.new] using sample.nonterminals_nodup)
  exact register_writes declared sample.rules_plain h

theorem parser_exists (sample : Sample) {host : Host} {strategy : Strategy}
    (starts : strategy.Starts host) :
    ∃ grammar parser, sample.grammar = .ok grammar ∧ grammar.build host strategy = .ok parser := by
  have sequential : ∃ parser, sample.parser tasks .sequential = .ok parser ∧ True :=
    exists_ok (by cases sample <;> decide +kernel)
  obtain ⟨parser, built, _⟩ := sequential
  unfold Sample.parser at built
  split at built
  · contradiction
  · rename_i grammar assembled
    exact ⟨grammar, parser, assembled, (grammar.build_eq_sequential starts).trans built⟩

end Sample

def sentence (words : List String) : List String := words.takeWhile fun word => word ≠ "$"

theorem selfTokens_literal (words : List String) : Literal (selfTokens words) :=
  List.forall_mem_map.2 fun _ _ => rfl

theorem selfTokens_injective : Function.Injective selfTokens :=
  List.map_injective_iff.2 fun _ _ same => congrArg Token.kind same

theorem beforeEnd_selfTokens (words : List String) :
    beforeEnd "$" (selfTokens words) = selfTokens (sentence words) := by
  rw [beforeEnd, selfTokens, List.takeWhile_map]
  rfl

structure Grammar.Writing (grammar : Grammar String String) (n : Nat) (tree : Tree String String)
    (text : String) : Prop where
  derivation : Derivation grammar.lexicon grammar.productions [.nonterminal n] [tree]
  literal : Literal tree.leaves
  text : tree.value? grammar.handlers = some text

theorem Grammar.Writes.tree_unique {grammar : Grammar String String} (writes : grammar.Writes)
    {m n : Nat} {tree other : Tree String String} {text : String}
    (first : grammar.Writing m tree text) (second : grammar.Writing n other text) :
    tree = other := by
  have alone {tree : Tree String String} (literal : Literal tree.leaves) :
      Literal (Forest.leaves [tree]) := by
    simpa [Forest.leaves] using literal
  have value {tree : Tree String String} (h : tree.value? grammar.handlers = some text) :
      Forest.values? grammar.handlers [tree] = some [text] := by
    simp [Forest.values?, h]
  have same := writes.unique first.derivation second.derivation (alone first.literal)
    (alone second.literal) (value first.text) (value second.text)
  exact List.singleton_inj.1 same.2

theorem Parser.From.writing {parser : Parser String String} {grammar : Grammar String String}
    {start : Nat} (origin : parser.From grammar start) (wf : grammar.WellFormed "$")
    {words : List String} {text : String} (parsed : parser.parse (selfTokens words) = .ok text) :
    ∃ tree, grammar.Writing start tree text ∧ tree.leaves = selfTokens (sentence words) := by
  have built := origin.built wf
  unfold Parser.parse at parsed
  obtain ⟨n, c, follows, ⟨value, e, does, result⟩ | ⟨error, e, _, result⟩⟩ :=
    built.run_ends (selfTokens words)
  · rw [result] at parsed
    obtain rfl : value = text := Except.ok.inj parsed
    obtain ⟨tree, derivation, leaves, evaluates, _⟩ := built.accepted follows does
    rw [origin.lexicon, origin.rules] at derivation
    rw [origin.handlers] at evaluates
    rw [beforeEnd_selfTokens] at leaves
    refine ⟨tree, ⟨?_, ?_, evaluates⟩, leaves⟩
    · exact (wf.derivation_iff origin.declared).1 derivation
    · rw [leaves]
      exact selfTokens_literal _
  · rw [result] at parsed
    contradiction

/-- What a sample prints is the text of the tree of its input. Different trees have different
texts, and so have inputs that differ in front of their ends. -/
theorem sample_text_tells (sample : Sample) {host : Host} {strategy : Strategy}
    (starts : strategy.Starts host) :
    ∃ grammar start parser, sample.grammar = .ok grammar ∧ grammar.start = some start ∧
      sample.parser host strategy = .ok parser ∧
      (∀ words text, parser.parse (selfTokens words) = .ok text →
        ∃ tree, grammar.Writing start tree text ∧
          tree.leaves = selfTokens (sentence words)) ∧
      (∀ tree other text, grammar.Writing start tree text → grammar.Writing start other text →
        tree = other) ∧
      ∀ words others text, parser.parse (selfTokens words) = .ok text →
        parser.parse (selfTokens others) = .ok text → sentence words = sentence others := by
  obtain ⟨grammar, parser, assembled, built⟩ := sample.parser_exists starts
  obtain ⟨start, origin⟩ := Parser.from_build built
  have writes := Sample.grammar_writes assembled
  have parsed : sample.parser host strategy = .ok parser := by
    rw [Sample.parser, assembled]
    exact built
  refine ⟨grammar, start, parser, assembled, origin.declared, parsed,
    fun words text => origin.writing writes.wf, fun _ _ _ => writes.tree_unique, ?_⟩
  intro words others text first second
  obtain ⟨tree, writing, leaves⟩ := origin.writing writes.wf first
  obtain ⟨other, writing', leaves'⟩ := origin.writing writes.wf second
  apply selfTokens_injective
  rw [← leaves, ← leaves', writes.tree_unique writing writing']

/-- An input with an empty node, and with more words behind its end. -/
theorem sample_text_tells_blank : ∃ parser,
    Sample.whitespaceLeft.parser tasks .sequential = .ok parser ∧
    parser.parse (selfTokens ["<", "ws", ">", "$", "ws"]) =
      .ok "S ::= [<] [W ::= [W ::= ε] [ws]] [>]" ∧
    ∀ words, parser.parse (selfTokens words) = .ok "S ::= [<] [W ::= [W ::= ε] [ws]] [>]" →
      sentence words = ["<", "ws", ">"] := by
  obtain ⟨_, _, parser, _, _, built, _, _, tells⟩ :=
    sample_text_tells .whitespaceLeft (Strategy.sequential_starts tasks)
  obtain ⟨twin, again, parsed⟩ : ∃ parser,
      Sample.whitespaceLeft.parser tasks .sequential = .ok parser ∧
      parser.parse (selfTokens ["<", "ws", ">", "$", "ws"]) =
        .ok "S ::= [<] [W ::= [W ::= ε] [ws]] [>]" :=
    exists_ok (by decide +kernel)
  obtain rfl := Except.ok.inj (built.symm.trans again)
  exact ⟨parser, built, parsed, fun words same => tells _ _ _ same parsed⟩

end CanonicalLR
