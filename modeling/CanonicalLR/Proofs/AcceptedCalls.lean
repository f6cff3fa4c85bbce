import CanonicalLR.Proofs.Refusals
/-
What registration calls leave behind. An outline keeps the accepted calls as they were written,
without ids of terminals and without tables: the declared names, the start symbols that were set
and the rules in the order of their ids. It decides by itself which production is refused, and an
assembled grammar stores exactly what the outline of its calls says.
-/
namespace CanonicalLR

structure Rule (τ υ : Type) where
  lhs : Nat
  rhs : List (Symbol τ)
  handler : Handler υ

structure Outline (τ υ : Type) where
  names : Array String
  starts : Array Nat
  rules : Array (Rule τ υ)

namespace Outline

variable {τ υ : Type}

def start (outline : Outline τ υ) : Option Nat :=
  outline.starts.back?.or (if outline.names = #[] then none else some 0)

variable [DecidableEq τ]

def Allows (outline : Outline τ υ) (eof : τ) : Symbol τ → Bool
  | .terminal t => t ≠ eof
  | .nonterminal n => n < outline.names.size

def Accepts (outline : Outline τ υ) (eof : τ) (lhs : Nat) (rhs : List (Symbol τ)) : Prop :=
  lhs < outline.names.size ∧ (∀ symbol ∈ rhs, outline.Allows eof symbol) ∧
    ∀ rule ∈ outline.rules, ¬ (rule.lhs = lhs ∧ rule.rhs = rhs)

instance (outline : Outline τ υ) (eof : τ) (lhs : Nat) (rhs : List (Symbol τ)) :
    Decidable (outline.Accepts eof lhs rhs) :=
  inferInstanceAs (Decidable (_ ∧ _ ∧ _))

def after (eof : τ) (outline : Outline τ υ) : Registration τ υ → Outline τ υ
  | .nonterminal name => { outline with names := outline.names.push name }
  | .terminal _ => outline
  | .start id =>
    if id < outline.names.size then { outline with starts := outline.starts.push id } else outline
  | .production lhs rhs handler =>
    if outline.Accepts eof lhs rhs then
      { outline with rules := outline.rules.push ⟨lhs, rhs, handler⟩ }
    else outline

def ofCalls (eof : τ) (calls : List (Registration τ υ)) : Outline τ υ :=
  calls.foldl (after eof) ⟨#[], #[], #[]⟩

end Outline

theorem getElem?_push_old {α : Type} {values : Array α} {place : Nat} {old : α}
    (stored : values[place]? = some old) (new : α) : (values.push new)[place]? = some old := by
  have bound := (Array.getElem?_eq_some_iff.1 stored).1
  rw [Array.getElem?_push, if_neg (Nat.ne_of_lt bound), stored]

theorem Resolves.unique {τ : Type} {lexicon : Lexicon τ} {symbols : List (Symbol Nat)}
    {first second : List (Symbol τ)} (r : List.Forall₂ (Resolves lexicon) symbols first)
    (s : List.Forall₂ (Resolves lexicon) symbols second) : first = second := by
  induction r generalizing second with
  | nil =>
    cases s
    rfl
  | cons head _ ih =>
    cases s with
    | cons other rest =>
      have same := ih rest
      cases head with
      | nonterminal n =>
        cases other
        rw [same]
      | terminal spelled =>
        cases other with
        | terminal spelled' =>
          obtain rfl := Option.some.inj (spelled.symm.trans spelled')
          rw [same]

namespace Grammar

variable {τ υ : Type}

def Stores (grammar : Grammar τ υ) (id : Nat) (rule : Rule τ υ) : Prop :=
  ∃ symbols, grammar.productions[id]? = some ⟨rule.lhs, symbols⟩ ∧
    List.Forall₂ (Resolves grammar.lexicon) symbols rule.rhs ∧
    grammar.handlers[id]? = some rule.handler

structure Keeps (grammar : Grammar τ υ) (outline : Outline τ υ) : Prop where
  names : grammar.names = outline.names
  start : grammar.start = outline.start
  count : grammar.productions.size = outline.rules.size
  stored {id : Nat} {rule : Rule τ υ} :
    outline.rules[id]? = some rule → grammar.Stores id rule

theorem Stores.extended {grammar : Grammar τ υ} {id : Nat} {rule : Rule τ υ}
    (stored : grammar.Stores id rule) {lexicon : Lexicon τ}
    (grown : grammar.lexicon.Extends lexicon) : { grammar with lexicon }.Stores id rule := by
  obtain ⟨symbols, production, resolves, handler⟩ := stored
  refine ⟨symbols, production, resolves.imp ?_, handler⟩
  intro x y r
  cases r with
  | nonterminal n => exact .nonterminal n
  | terminal spelled => exact .terminal (grown spelled)

theorem Stores.pushed {grammar : Grammar τ υ} {id : Nat} {rule : Rule τ υ}
    (stored : grammar.Stores id rule) (production : Production) (handler : Handler υ) :
    (grammar.pushProduction production handler).Stores id rule := by
  obtain ⟨symbols, found, resolves, own⟩ := stored
  exact ⟨symbols, getElem?_push_old found production, resolves, getElem?_push_old own handler⟩

theorem pushProduction_stores {grammar : Grammar τ υ}
    (paired : grammar.handlers.size = grammar.productions.size) {lhs : Nat}
    {symbols : List (Symbol Nat)} {rhs : List (Symbol τ)}
    (resolves : List.Forall₂ (Resolves grammar.lexicon) symbols rhs) (handler : Handler υ) :
    (grammar.pushProduction ⟨lhs, symbols⟩ handler).Stores grammar.productions.size
      ⟨lhs, rhs, handler⟩ := by
  refine ⟨symbols, Array.getElem?_push_size, resolves, ?_⟩
  simp [pushProduction, ← paired]

variable {grammar : Grammar τ υ} {outline : Outline τ υ}

theorem Keeps.registered_iff (kept : grammar.Keeps outline) (lhs : Nat) (rhs : List (Symbol τ)) :
    grammar.Registered lhs rhs ↔ ∃ rule ∈ outline.rules, rule.lhs = lhs ∧ rule.rhs = rhs := by
  constructor
  · intro ⟨id, symbols, found, resolves⟩
    have bound := (Array.getElem?_eq_some_iff.1 found).1
    rw [kept.count] at bound
    obtain ⟨own, production, written, _⟩ := kept.stored (Array.getElem?_eq_getElem bound)
    rw [found] at production
    injection production with production
    injection production with side same
    subst same
    exact ⟨_, Array.getElem_mem bound, side.symm, Resolves.unique written resolves⟩
  · rintro ⟨rule, member, rfl, rfl⟩
    obtain ⟨id, listed⟩ := Array.mem_iff_getElem?.1 member
    obtain ⟨symbols, production, resolves, _⟩ := kept.stored listed
    exact ⟨id, symbols, production, resolves⟩

theorem Keeps.nonterminal (kept : grammar.Keeps outline) (name : String) :
    (grammar.nonterminal name).2.Keeps { outline with names := outline.names.push name } := by
  refine ⟨?_, ?_, kept.count, kept.stored⟩
  · simp [Grammar.nonterminal, kept.names]
  · simp only [Grammar.nonterminal, kept.start, Outline.start, ← kept.names]
    cases outline.starts.back? with
    | some last => simp
    | none =>
      by_cases first : grammar.names = #[]
      · simp [first]
      · simp [first]

variable [DecidableEq τ] {eof : τ}

theorem Keeps.setStart (kept : grammar.Keeps outline) (id : Nat) :
    (grammar.setStart id).2.Keeps (outline.after eof (.start id)) := by
  simp only [Grammar.setStart, Outline.after, ← kept.names]
  split
  · refine ⟨rfl, ?_, kept.count, kept.stored⟩
    simp [Outline.start]
  · exact kept

variable [Fingerprint τ]

theorem Keeps.allows_iff (kept : grammar.Keeps outline) (wf : grammar.WellFormed eof)
    (symbol : Symbol τ) : outline.Allows eof symbol ↔ grammar.Permits symbol := by
  cases symbol with
  | terminal t =>
    rw [permits_terminal_iff wf]
    simp [Outline.Allows]
  | nonterminal n => simp [Outline.Allows, Permits, ← kept.names]

/-- The outline refuses what the grammar refuses, without a look at any id. -/
theorem Keeps.accepts_iff (kept : grammar.Keeps outline) (wf : grammar.WellFormed eof) (lhs : Nat)
    (rhs : List (Symbol τ)) : outline.Accepts eof lhs rhs ↔ lhs < grammar.names.size ∧
      (∀ symbol ∈ rhs, grammar.Permits symbol) ∧ ¬ grammar.Registered lhs rhs := by
  rw [kept.registered_iff]
  simp only [Outline.Accepts, kept.names, kept.allows_iff wf, not_exists, not_and]

theorem new_keeps (eof : τ) : (new eof : Grammar τ υ).Keeps ⟨#[], #[], #[]⟩ := by
  refine ⟨rfl, rfl, rfl, ?_⟩
  intro id rule listed
  contradiction

theorem Keeps.terminal (kept : grammar.Keeps outline) (t : τ) :
    (grammar.terminal t).2.Keeps outline := by
  refine ⟨kept.names, kept.start, kept.count, ?_⟩
  intro id rule listed
  exact (kept.stored listed).extended (Interner.intern_extends grammar.lexicon t)

variable [Spelling τ]

theorem Keeps.addProduction_cases (kept : grammar.Keeps outline) (wf : grammar.WellFormed eof)
    (lhs : Nat) (rhs : List (Symbol τ)) (handler : Handler υ) :
    (¬ outline.Accepts eof lhs rhs ∧
      ∃ refusal, grammar.addProduction lhs rhs handler = (.error refusal, grammar)) ∨
    (outline.Accepts eof lhs rhs ∧ grammar.addProduction lhs rhs handler =
      (.ok outline.rules.size,
        { grammar with lexicon := (internSymbols grammar.lexicon rhs).2 }.pushProduction
          ⟨lhs, (internSymbols grammar.lexicon rhs).1⟩ handler)) := by
  rw [kept.accepts_iff wf, ← kept.count]
  rcases Grammar.addProduction_cases wf lhs rhs handler with
    ⟨refused, reason⟩ | ⟨⟨id, accepted⟩, faultless⟩
  · refine Or.inl ⟨?_, refused⟩
    rintro ⟨declared, permitted, unregistered⟩
    rcases reason with undeclared | forbidden | registered
    · exact Nat.not_lt_of_le undeclared declared
    · exact forbidden permitted
    · exact unregistered registered
  · obtain ⟨_, next, extended⟩ := addProduction_accepted (Prod.ext accepted rfl)
    exact Or.inr ⟨faultless, Prod.ext (next ▸ accepted) extended⟩

theorem Keeps.addProduction (kept : grammar.Keeps outline) (wf : grammar.WellFormed eof)
    (lhs : Nat) (rhs : List (Symbol τ)) (handler : Handler υ) :
    (grammar.addProduction lhs rhs handler).2.Keeps
      (outline.after eof (.production lhs rhs handler)) := by
  rcases kept.addProduction_cases wf lhs rhs handler with
    ⟨refuses, refusal, refused⟩ | ⟨accepts, accepted⟩
  · simp only [Outline.after, if_neg refuses, refused]
    exact kept
  · simp only [Outline.after, if_pos accepts, accepted]
    have grown := internSymbols_extends grammar.lexicon rhs
    have extended := extendLexicon_wellFormed wf grown (internSymbols_faithful wf.lexicon rhs)
    have resolves := internSymbols_resolves wf.lexicon rhs
    refine ⟨kept.names, kept.start, ?_, ?_⟩
    · simp [pushProduction, kept.count]
    · intro id rule listed
      rw [Array.getElem?_push] at listed
      split at listed
      · rename_i last
        obtain rfl := Option.some.inj listed
        rw [last, ← kept.count]
        exact pushProduction_stores extended.handlers resolves handler
      · exact ((kept.stored listed).extended grown).pushed _ handler

theorem Keeps.register (kept : grammar.Keeps outline) (wf : grammar.WellFormed eof)
    (call : Registration τ υ) : (grammar.register call).Keeps (outline.after eof call) := by
  cases call with
  | nonterminal name => exact kept.nonterminal name
  | terminal t => exact kept.terminal t
  | start id => exact kept.setStart id
  | production lhs rhs handler => exact kept.addProduction wf lhs rhs handler

theorem Keeps.foldl_register (kept : grammar.Keeps outline) (wf : grammar.WellFormed eof)
    (calls : List (Registration τ υ)) :
    (calls.foldl Grammar.register grammar).Keeps (calls.foldl (Outline.after eof) outline) := by
  induction calls generalizing grammar outline with
  | nil => exact kept
  | cons call calls ih => exact ih (kept.register wf call) (register_wellFormed wf call)

/-- An assembled grammar holds the names, the start symbol and the rules of its accepted calls,
the rules under the ids they were given and each with its own handler, and nothing else. -/
theorem assemble_keeps (eof : τ) (calls : List (Registration τ υ)) :
    (assemble eof calls).Keeps (Outline.ofCalls eof calls) :=
  (new_keeps eof).foldl_register (new_wellFormed eof) calls

theorem assemble_answers (eof : τ) (calls : List (Registration τ υ)) (lhs : Nat)
    (rhs : List (Symbol τ)) (handler : Handler υ) (id : Nat) :
    ((assemble eof calls).addProduction lhs rhs handler).1 = .ok id ↔
      (Outline.ofCalls eof calls).Accepts eof lhs rhs ∧
        id = (Outline.ofCalls eof calls).rules.size := by
  have wf := assemble_wellFormed eof calls
  have kept := assemble_keeps eof calls
  rcases kept.addProduction_cases wf lhs rhs handler with
    ⟨refuses, refusal, refused⟩ | ⟨accepts, accepted⟩
  · rw [refused]
    simp [refuses]
  · rw [accepted]
    simp [accepts, eq_comm]

end Grammar

/-- The second production of these calls is refused, since it holds the end of the input. -/
example : (Outline.ofCalls "$" settled).names = #["S", "T"] ∧
    (Outline.ofCalls "$" settled).start = some 0 ∧
    (Outline.ofCalls "$" settled).rules.size = 1 := by
  decide +kernel

end CanonicalLR
