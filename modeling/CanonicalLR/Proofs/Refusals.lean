import CanonicalLR.Proofs.Registration
/-
Refused registrations. A call is refused for ids that were never declared, for the end of the input
on a right side and for a production that is there already, and then leaves the grammar as it was.
A duplicate is noticed only after the terminals of the right side have been interned; but those of
a registered production are in the lexicon, so none of them was new.
-/
namespace CanonicalLR

namespace Grammar

variable {τ υ : Type} {grammar : Grammar τ υ}

/-- A production with these sides is stored, whatever the ids of its terminals. -/
def Registered (grammar : Grammar τ υ) (lhs : Nat) (rhs : List (Symbol τ)) : Prop :=
  ∃ (p : Nat) (symbols : List (Symbol Nat)), grammar.productions[p]? = some ⟨lhs, symbols⟩ ∧
    List.Forall₂ (Resolves grammar.lexicon) symbols rhs

theorem setStart_refused_iff (grammar : Grammar τ υ) (id : Nat) :
    (∃ refusal, (grammar.setStart id).1 = .error refusal) ↔ grammar.names.size ≤ id := by
  unfold setStart
  split
  · rename_i declared
    exact iff_of_false (by simp) (Nat.not_le_of_lt declared)
  · rename_i undeclared
    exact iff_of_true ⟨_, rfl⟩ (Nat.le_of_not_lt undeclared)

theorem setStart_unchanged {id : Nat} {refusal : GrammarError τ}
    (h : (grammar.setStart id).1 = .error refusal) : (grammar.setStart id).2 = grammar := by
  unfold setStart at h ⊢
  split at h
  · contradiction
  · rename_i undeclared
    rw [if_neg undeclared]

variable [Fingerprint τ] [DecidableEq τ] {eof : τ} {lexicon : Lexicon τ}

theorem internSymbols_known (faithful : lexicon.Faithful) {symbols : List (Symbol Nat)}
    {rhs : List (Symbol τ)} (resolves : List.Forall₂ (Resolves lexicon) symbols rhs) :
    internSymbols lexicon rhs = (symbols, lexicon) := by
  induction resolves with
  | nil => rfl
  | cons first _ ih =>
    cases first with
    | terminal spelled => simp only [internSymbols, Interner.intern_known faithful spelled, ih]
    | nonterminal n => simp only [internSymbols, ih]

theorem internSymbols_lexicon_of_lt {rhs : List (Symbol τ)}
    (old : ∀ t, .terminal t ∈ (internSymbols lexicon rhs).1 → t < lexicon.size) :
    (internSymbols lexicon rhs).2 = lexicon := by
  induction rhs with
  | nil => rfl
  | cons symbol rest ih =>
    cases symbol with
    | nonterminal n => exact ih fun t member => old t (List.mem_cons_of_mem _ member)
    | terminal t =>
      -- the first terminal was known, so the rest is interned into the same lexicon
      have same : (lexicon.intern t).table = lexicon :=
        Interner.intern_table_of_lt (old _ List.mem_cons_self)
      simp only [internSymbols, same] at old ⊢
      exact ih fun t member => old t (List.mem_cons_of_mem _ member)

theorem registered_iff (wf : grammar.WellFormed eof) (lhs : Nat) (rhs : List (Symbol τ)) :
    grammar.Registered lhs rhs ↔ ∃ p ∈ grammar.productionsOf lhs,
      grammar.productions[p]? = some ⟨lhs, (internSymbols grammar.lexicon rhs).1⟩ := by
  constructor
  · intro ⟨p, symbols, stored, resolves⟩
    have interned := internSymbols_known wf.lexicon resolves
    refine ⟨p, wf.filed.2 ⟨symbols, stored⟩, ?_⟩
    rw [interned]
    exact stored
  · intro ⟨p, _, stored⟩
    have resolves := internSymbols_resolves wf.lexicon rhs
    have kept : (internSymbols grammar.lexicon rhs).2 = grammar.lexicon := by
      apply internSymbols_lexicon_of_lt
      intro t member
      exact ((wf.admits stored).2 _ member).1
    rw [kept] at resolves
    exact ⟨p, _, stored, resolves⟩

theorem Registered.lexicon_kept (wf : grammar.WellFormed eof) {lhs : Nat} {rhs : List (Symbol τ)}
    (registered : grammar.Registered lhs rhs) :
    (internSymbols grammar.lexicon rhs).2 = grammar.lexicon := by
  obtain ⟨p, symbols, _, resolves⟩ := registered
  rw [internSymbols_known wf.lexicon resolves]

theorem permits_terminal_iff (wf : grammar.WellFormed eof) {t : τ} :
    grammar.Permits (.terminal t) ↔ t ≠ eof := by
  have reserved : grammar.lexicon.find? t = some grammar.eof ↔ t = eof := by
    rw [Interner.find?_eq_some_iff wf.lexicon, wf.eof, Option.some.injEq]
    exact eq_comm
  exact not_congr reserved

theorem not_permits_iff (wf : grammar.WellFormed eof) {rhs : List (Symbol τ)} :
    (¬ ∀ symbol ∈ rhs, grammar.Permits symbol) ↔
      (∃ n, .nonterminal n ∈ rhs ∧ grammar.names.size ≤ n) ∨ .terminal eof ∈ rhs := by
  constructor
  · intro refused
    simp only [not_forall] at refused
    obtain ⟨symbol, member, bad⟩ := refused
    cases symbol with
    | nonterminal n => exact Or.inl ⟨n, member, Nat.le_of_not_lt bad⟩
    | terminal t =>
      rw [permits_terminal_iff wf, not_not] at bad
      exact Or.inr (bad ▸ member)
  · rintro (⟨n, member, undeclared⟩ | member) permitted
    · exact absurd (permitted _ member) (Nat.not_lt_of_le undeclared)
    · exact (permits_terminal_iff wf).1 (permitted _ member) rfl

variable [Spelling τ]

theorem symbolTexts_exists (lhs : String) {rhs : List (Symbol τ)}
    (permitted : ∀ symbol ∈ rhs, grammar.Permits symbol) :
    ∃ texts, grammar.symbolTexts lhs rhs = .ok texts := by
  induction rhs with
  | nil => exact ⟨[], rfl⟩
  | cons symbol rest ih =>
    rw [List.forall_mem_cons] at permitted
    obtain ⟨texts, tail⟩ := ih permitted.2
    have head : ∃ text, grammar.symbolText lhs symbol = .ok text := by
      cases symbol with
      | nonterminal n =>
        have declared : n < grammar.names.size := permitted.1
        exact ⟨grammar.names[n], by simp [symbolText, declared]⟩
      | terminal t =>
        have usual : grammar.lexicon.find? t ≠ some grammar.eof := permitted.1
        exact ⟨spelling t, by simp [symbolText, usual]⟩
    obtain ⟨text, written⟩ := head
    exact ⟨text :: texts, by simp [symbolTexts, written, tail, Except.map]⟩

theorem sideTexts_exists {lhs : Nat} {rhs : List (Symbol τ)} (declared : lhs < grammar.names.size)
    (permitted : ∀ symbol ∈ rhs, grammar.Permits symbol) :
    ∃ texts, grammar.sideTexts lhs rhs = .ok texts := by
  obtain ⟨texts, written⟩ := symbolTexts_exists grammar.names[lhs] permitted
  exact ⟨(grammar.names[lhs], texts), by simp [sideTexts, declared, written, Except.map]⟩

theorem addProduction_cases (wf : grammar.WellFormed eof) (lhs : Nat) (rhs : List (Symbol τ))
    (handler : Handler υ) :
    ((∃ refusal, grammar.addProduction lhs rhs handler = (.error refusal, grammar)) ∧
      (grammar.names.size ≤ lhs ∨ (¬ ∀ symbol ∈ rhs, grammar.Permits symbol) ∨
        grammar.Registered lhs rhs)) ∨
    ((∃ id, (grammar.addProduction lhs rhs handler).1 = .ok id) ∧ lhs < grammar.names.size ∧
      (∀ symbol ∈ rhs, grammar.Permits symbol) ∧ ¬ grammar.Registered lhs rhs) := by
  unfold addProduction
  split
  · rename_i refusal refused
    refine Or.inl ⟨⟨refusal, rfl⟩, ?_⟩
    by_contra faultless
    rw [not_or, not_or, not_not] at faultless
    obtain ⟨texts, written⟩ := sideTexts_exists (Nat.lt_of_not_le faultless.1) faultless.2.1
    rw [refused] at written
    contradiction
  · rename_i name symbols checked
    obtain ⟨declared, permitted⟩ := sideTexts_permits checked
    dsimp only
    split
    · rename_i searched
      obtain ⟨p, filed, stored⟩ := List.any_eq_true.1 searched
      have registered := (registered_iff wf lhs rhs).2 ⟨p, filed, of_decide_eq_true stored⟩
      rw [registered.lexicon_kept wf]
      exact Or.inl ⟨⟨_, rfl⟩, Or.inr (Or.inr registered)⟩
    · rename_i searched
      refine Or.inr ⟨⟨_, rfl⟩, declared, permitted, ?_⟩
      intro registered
      obtain ⟨p, filed, stored⟩ := (registered_iff wf lhs rhs).1 registered
      exact searched (List.any_eq_true.2 ⟨p, filed, decide_eq_true stored⟩)

structure Guarded (grammar : Grammar τ υ) (eof : τ) : Prop where
  production_refused {lhs : Nat} {rhs : List (Symbol τ)} {handler : Handler υ} :
    (∃ refusal, (grammar.addProduction lhs rhs handler).1 = .error refusal) ↔
      grammar.names.size ≤ lhs ∨ (∃ n, .nonterminal n ∈ rhs ∧ grammar.names.size ≤ n) ∨
        .terminal eof ∈ rhs ∨ grammar.Registered lhs rhs
  production_unchanged {lhs : Nat} {rhs : List (Symbol τ)} {handler : Handler υ}
    {refusal : GrammarError τ} : (grammar.addProduction lhs rhs handler).1 = .error refusal →
      (grammar.addProduction lhs rhs handler).2 = grammar
  start_refused {id : Nat} :
    (∃ refusal, (grammar.setStart id).1 = .error refusal) ↔ grammar.names.size ≤ id
  start_unchanged {id : Nat} {refusal : GrammarError τ} :
    (grammar.setStart id).1 = .error refusal → (grammar.setStart id).2 = grammar

theorem addProduction_refused_iff (wf : grammar.WellFormed eof) (lhs : Nat)
    (rhs : List (Symbol τ)) (handler : Handler υ) :
    (∃ refusal, (grammar.addProduction lhs rhs handler).1 = .error refusal) ↔
      grammar.names.size ≤ lhs ∨ (∃ n, .nonterminal n ∈ rhs ∧ grammar.names.size ≤ n) ∨
        .terminal eof ∈ rhs ∨ grammar.Registered lhs rhs := by
  rw [← or_assoc (a := ∃ n, _), ← not_permits_iff wf]
  rcases addProduction_cases wf lhs rhs handler with
    ⟨⟨refusal, refused⟩, reason⟩ | ⟨⟨id, accepted⟩, declared, permitted, new⟩
  · exact iff_of_true ⟨refusal, congrArg Prod.fst refused⟩ reason
  · refine iff_of_false ?_ ?_
    · intro ⟨refusal, refused⟩
      rw [accepted] at refused
      contradiction
    · rintro (undeclared | refused | registered)
      · exact Nat.not_lt_of_le undeclared declared
      · exact refused permitted
      · exact new registered

theorem addProduction_unchanged (wf : grammar.WellFormed eof) {lhs : Nat} {rhs : List (Symbol τ)}
    {handler : Handler υ} {refusal : GrammarError τ}
    (h : (grammar.addProduction lhs rhs handler).1 = .error refusal) :
    (grammar.addProduction lhs rhs handler).2 = grammar := by
  rcases addProduction_cases wf lhs rhs handler with ⟨⟨_, refused⟩, _⟩ | ⟨⟨id, accepted⟩, _⟩
  · exact congrArg Prod.snd refused
  · rw [accepted] at h
    contradiction

theorem WellFormed.guarded (wf : grammar.WellFormed eof) : grammar.Guarded eof := by
  constructor
  · intro lhs rhs handler
    exact addProduction_refused_iff wf lhs rhs handler
  · intro lhs rhs handler refusal h
    exact addProduction_unchanged wf h
  · intro id
    exact grammar.setStart_refused_iff id
  · intro id refusal h
    exact setStart_unchanged h

end Grammar

variable {τ υ : Type} [Fingerprint τ] [DecidableEq τ] [Spelling τ]

/-- One production, registered before a declaration, a terminal and a call that is refused. -/
def settled : List (Registration String Nat) :=
  [.nonterminal "S", .production 0 [.terminal "a", .nonterminal 0, .terminal "b"] fun _ => 0,
    .nonterminal "T", .terminal "c", .production 1 [.terminal "d", .terminal "$"] fun _ => 0]

/-- However a grammar was assembled, registration refuses exactly what it has to refuse, and a
refused call leaves all parts of the grammar as they were. -/
theorem refused_calls_change_nothing (eof : τ) (calls : List (Registration τ υ)) :
    (Grammar.assemble eof calls).Guarded eof :=
  (Grammar.assemble_wellFormed eof calls).guarded

theorem refused_calls_change_nothing_settled :
    (Grammar.assemble "$" settled).Registered 0
        [.terminal "a", .nonterminal 0, .terminal "b"] ∧
      ((Grammar.assemble "$" settled).addProduction 0
        [.terminal "a", .nonterminal 0, .terminal "b"] fun _ => 1).2 =
          Grammar.assemble "$" settled := by
  have registered : (Grammar.assemble "$" settled).Registered 0
      [.terminal "a", .nonterminal 0, .terminal "b"] :=
    ⟨0, [.terminal 1, .nonterminal 0, .terminal 2], by decide +kernel,
      .cons (.terminal (by decide +kernel)) (.cons (.nonterminal 0)
        (.cons (.terminal (by decide +kernel)) .nil))⟩
  have guarded := refused_calls_change_nothing "$" settled
  obtain ⟨refusal, refused⟩ :=
    guarded.production_refused.2 (Or.inr (Or.inr (Or.inr registered)))
  exact ⟨registered, guarded.production_unchanged refused⟩

end CanonicalLR
