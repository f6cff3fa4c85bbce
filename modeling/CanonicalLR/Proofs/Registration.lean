import CanonicalLR.Parser
import CanonicalLR.Proofs.Interning
/-
Grammars assembled by registration calls, refused calls included. Whatever the calls and their
arguments, names, productions, handlers and lexicon fit together afterwards.
-/
namespace CanonicalLR

inductive Registration (τ υ : Type) where
  | nonterminal (name : String)
  | terminal (terminal : τ)
  | start (nonterminal : Nat)
  | production (lhs : Nat) (rhs : List (Symbol τ)) (handler : Handler υ)

/-- A symbol with an interned terminal stands for one with the terminal itself. -/
inductive Resolves {τ : Type} (lexicon : Lexicon τ) : Symbol Nat → Symbol τ → Prop where
  | terminal {id : Nat} {t : τ} (spelled : lexicon.get? id = some t) :
      Resolves lexicon (.terminal id) (.terminal t)
  | nonterminal (n : Nat) : Resolves lexicon (.nonterminal n) (.nonterminal n)

namespace Grammar

variable {τ υ : Type}

def Admits (grammar : Grammar τ υ) : Symbol Nat → Prop
  | .terminal t => t < grammar.lexicon.size ∧ t ≠ grammar.eof
  | .nonterminal n => n < grammar.names.size

theorem mem_productionsOf_push {grammar : Grammar τ υ} {production : Production}
    {handler : Handler υ} (declared : production.lhs < grammar.byNonterminal.size) {p n : Nat} :
    p ∈ (grammar.pushProduction production handler).productionsOf n ↔
      p ∈ grammar.productionsOf n ∨ n = production.lhs ∧ p = grammar.productions.size := by
  simp only [productionsOf, pushProduction, Array.getD_eq_getD_getElem?, Array.getElem?_modify]
  by_cases same : production.lhs = n
  · subst same
    simp [declared]
  · simp [same, Ne.symm same]

variable [Fingerprint τ]

structure WellFormed (grammar : Grammar τ υ) (eof : τ) : Prop where
  lexicon : grammar.lexicon.Faithful
  eof : grammar.lexicon.get? grammar.eof = some eof
  start (n : Nat) : grammar.start = some n → n < grammar.names.size
  handlers : grammar.handlers.size = grammar.productions.size
  rows : grammar.byNonterminal.size = grammar.names.size
  admits {p : Nat} {production : Production} : grammar.productions[p]? = some production →
    production.lhs < grammar.names.size ∧ ∀ symbol ∈ production.rhs, grammar.Admits symbol
  filed {p n : Nat} : p ∈ grammar.productionsOf n ↔
    ∃ rhs, grammar.productions[p]? = some ⟨n, rhs⟩

theorem nonterminal_wellFormed {grammar : Grammar τ υ} {eof : τ} (wf : grammar.WellFormed eof)
    (name : String) : (grammar.nonterminal name).2.WellFormed eof := by
  constructor
  · exact wf.lexicon
  · exact wf.eof
  · intro n h
    simp only [nonterminal, Option.some.injEq, Array.size_push] at h ⊢
    cases first : grammar.start with
    | none => simp_all
    | some m =>
      have bound := wf.start m first
      simp only [first, Option.getD_some] at h
      omega
  · exact wf.handlers
  · simp [nonterminal, wf.rows]
  · intro p production h
    obtain ⟨bound, symbols⟩ := wf.admits h
    simp only [nonterminal, Array.size_push]
    refine ⟨by omega, fun symbol member => ?_⟩
    have fits := symbols symbol member
    cases symbol with
    | terminal t => exact fits
    | nonterminal n =>
      simp only [Admits, Array.size_push] at fits ⊢
      omega
  · intro p n
    have old := wf.filed (p := p) (n := n)
    -- the row of the new name is empty, as that of any name not declared before
    have rows : (grammar.nonterminal name).2.productionsOf n = grammar.productionsOf n := by
      simp only [nonterminal, productionsOf, Array.getD_eq_getD_getElem?, Array.getElem?_push]
      split
      · rename_i last
        simp [last]
      · rfl
    rw [rows, old]
    rfl

theorem setStart_wellFormed {grammar : Grammar τ υ} {eof : τ} (wf : grammar.WellFormed eof)
    (id : Nat) : (grammar.setStart id).2.WellFormed eof := by
  unfold setStart
  split
  · rename_i declared
    refine { wf with start := ?_ }
    intro n h
    cases h
    exact declared
  · exact wf

theorem extendLexicon_wellFormed {grammar : Grammar τ υ} {eof : τ} (wf : grammar.WellFormed eof)
    {lexicon : Lexicon τ} (grown : grammar.lexicon.Extends lexicon) (faithful : lexicon.Faithful) :
    { grammar with lexicon }.WellFormed eof := by
  refine { wf with lexicon := faithful, eof := grown wf.eof, admits := ?_ }
  intro p production h
  obtain ⟨bound, symbols⟩ := wf.admits h
  refine ⟨bound, fun symbol member => ?_⟩
  have fits := symbols symbol member
  cases symbol with
  | terminal id => exact ⟨Nat.lt_of_lt_of_le fits.1 grown.size_le, fits.2⟩
  | nonterminal n => exact fits

theorem pushProduction_wellFormed {grammar : Grammar τ υ} {eof : τ}
    (wf : grammar.WellFormed eof) {production : Production}
    (declared : production.lhs < grammar.names.size)
    (admitted : ∀ symbol ∈ production.rhs, grammar.Admits symbol) (handler : Handler υ) :
    (grammar.pushProduction production handler).WellFormed eof := by
  refine { lexicon := wf.lexicon, eof := wf.eof, start := wf.start, handlers := ?_, rows := ?_,
           admits := ?_, filed := ?_ }
  · simp [pushProduction, wf.handlers]
  · simp [pushProduction, wf.rows]
  · intro p other h
    simp only [pushProduction, Array.getElem?_push] at h
    split at h
    · obtain rfl := Option.some.inj h
      exact ⟨declared, admitted⟩
    · exact wf.admits h
  · intro p n
    rw [mem_productionsOf_push (wf.rows ▸ declared), wf.filed]
    simp only [pushProduction, Array.getElem?_push]
    by_cases last : p = grammar.productions.size
    · have fresh : ¬ ∃ rhs, grammar.productions[p]? = some ⟨n, rhs⟩ := by
        rintro ⟨rhs, found⟩
        have bound := (Array.getElem?_eq_some_iff.1 found).1
        omega
      obtain ⟨lhs, rhs⟩ := production
      simp [last, eq_comm]
    · simp [last]

variable [DecidableEq τ]

theorem new_wellFormed (eof : τ) : (new eof : Grammar τ υ).WellFormed eof := by
  constructor
  · exact Interner.intern_faithful Interner.empty_faithful eof
  · exact Interner.get?_intern Interner.empty_faithful eof
  · intro n h
    contradiction
  · rfl
  · rfl
  · intro p production h
    simp [new] at h
  · intro p n
    simp [new, productionsOf]

theorem terminal_wellFormed {grammar : Grammar τ υ} {eof : τ} (wf : grammar.WellFormed eof)
    (t : τ) : (grammar.terminal t).2.WellFormed eof :=
  extendLexicon_wellFormed wf (Interner.intern_extends grammar.lexicon t)
    (Interner.intern_faithful wf.lexicon t)

theorem internSymbols_extends (lexicon : Lexicon τ) (symbols : List (Symbol τ)) :
    lexicon.Extends (internSymbols lexicon symbols).2 := by
  induction symbols generalizing lexicon with
  | nil => exact Interner.Extends.refl lexicon
  | cons symbol rest ih =>
    cases symbol with
    | terminal t => exact (Interner.intern_extends lexicon t).trans (ih _)
    | nonterminal n => exact ih lexicon

theorem internSymbols_faithful {lexicon : Lexicon τ} (faithful : lexicon.Faithful)
    (symbols : List (Symbol τ)) : (internSymbols lexicon symbols).2.Faithful := by
  induction symbols generalizing lexicon with
  | nil => exact faithful
  | cons symbol rest ih =>
    cases symbol with
    | terminal t => exact ih (Interner.intern_faithful faithful t)
    | nonterminal n => exact ih faithful

theorem internSymbols_resolves {lexicon : Lexicon τ} (faithful : lexicon.Faithful)
    (symbols : List (Symbol τ)) :
    List.Forall₂ (Resolves (internSymbols lexicon symbols).2) (internSymbols lexicon symbols).1
      symbols := by
  induction symbols generalizing lexicon with
  | nil => exact List.Forall₂.nil
  | cons symbol rest ih =>
    cases symbol with
    | terminal t =>
      have first := Interner.get?_intern faithful t
      have kept := internSymbols_extends (lexicon.intern t).table rest first
      exact List.Forall₂.cons (.terminal kept) (ih (Interner.intern_faithful faithful t))
    | nonterminal n => exact List.Forall₂.cons (.nonterminal n) (ih faithful)

def Permits (grammar : Grammar τ υ) : Symbol τ → Prop
  | .terminal t => grammar.lexicon.find? t ≠ some grammar.eof
  | .nonterminal n => n < grammar.names.size

/-- Interning never hands the reserved id to a permitted terminal. -/
theorem admits_of_resolves {grammar : Grammar τ υ} {eof : τ} (wf : grammar.WellFormed eof)
    {lexicon : Lexicon τ} (grown : grammar.lexicon.Extends lexicon) {x : Symbol Nat} {y : Symbol τ}
    (r : Resolves lexicon x y) (permitted : grammar.Permits y) :
    { grammar with lexicon }.Admits x := by
  cases r with
  | nonterminal n => exact permitted
  | @terminal id t spelled =>
    refine ⟨Interner.get?_lt spelled, fun reserved => permitted ?_⟩
    have same : t = eof := by
      have stored := grown wf.eof
      rw [← reserved, spelled] at stored
      exact Option.some.inj stored
    rw [same]
    exact (Interner.find?_eq_some_iff wf.lexicon).2 wf.eof

theorem admits_all {grammar : Grammar τ υ} {eof : τ} (wf : grammar.WellFormed eof)
    {lexicon : Lexicon τ} (grown : grammar.lexicon.Extends lexicon) {xs : List (Symbol Nat)}
    {ys : List (Symbol τ)} (r : List.Forall₂ (Resolves lexicon) xs ys)
    (permitted : ∀ y ∈ ys, grammar.Permits y) : ∀ x ∈ xs, { grammar with lexicon }.Admits x := by
  induction r with
  | nil => simp
  | cons first _ ih =>
    rw [List.forall_mem_cons] at permitted ⊢
    exact ⟨admits_of_resolves wf grown first permitted.1, ih permitted.2⟩

variable [Spelling τ]

theorem symbolTexts_permits {grammar : Grammar τ υ} {lhs : String} {symbols : List (Symbol τ)}
    {texts : List String} (h : grammar.symbolTexts lhs symbols = .ok texts) :
    ∀ symbol ∈ symbols, grammar.Permits symbol := by
  induction symbols generalizing texts with
  | nil => simp
  | cons symbol rest ih =>
    unfold symbolTexts at h
    split at h
    · contradiction
    · rename_i text first
      cases tail : grammar.symbolTexts lhs rest with
      | error refusal => simp [tail, Except.map] at h
      | ok texts =>
        intro x member
        rcases List.mem_cons.1 member with rfl | later
        · cases x with
          | terminal t =>
            intro reserved
            simp [symbolText, reserved] at first
          | nonterminal n =>
            cases declared : grammar.names[n]? with
            | none => simp [symbolText, declared] at first
            | some name => exact (Array.getElem?_eq_some_iff.1 declared).1
        · exact ih tail x later

theorem sideTexts_permits {grammar : Grammar τ υ} {lhs : Nat} {rhs : List (Symbol τ)}
    {texts : String × List String} (h : grammar.sideTexts lhs rhs = .ok texts) :
    lhs < grammar.names.size ∧ ∀ symbol ∈ rhs, grammar.Permits symbol := by
  unfold sideTexts at h
  split at h
  · contradiction
  · rename_i name declared
    refine ⟨(Array.getElem?_eq_some_iff.1 declared).1, ?_⟩
    cases sides : grammar.symbolTexts name rhs with
    | error refusal => simp [sides, Except.map] at h
    | ok symbols => exact symbolTexts_permits sides

theorem addProduction_accepted {grammar extended : Grammar τ υ} {lhs id : Nat}
    {rhs : List (Symbol τ)} {handler : Handler υ}
    (h : grammar.addProduction lhs rhs handler = (.ok id, extended)) :
    lhs < grammar.names.size ∧ id = grammar.productions.size ∧
      extended = { grammar with lexicon := (internSymbols grammar.lexicon rhs).2 }.pushProduction
        ⟨lhs, (internSymbols grammar.lexicon rhs).1⟩ handler := by
  unfold addProduction at h
  split at h
  · simp at h
  · rename_i checked
    dsimp only at h
    split at h
    · simp at h
    · obtain ⟨given, final⟩ := Prod.mk.inj h
      exact ⟨(sideTexts_permits checked).1, (Except.ok.inj given).symm, final.symm⟩

theorem addProduction_wellFormed {grammar : Grammar τ υ} {eof : τ} (wf : grammar.WellFormed eof)
    (lhs : Nat) (rhs : List (Symbol τ)) (handler : Handler υ) :
    (grammar.addProduction lhs rhs handler).2.WellFormed eof := by
  unfold addProduction
  split
  · exact wf
  · rename_i checked
    obtain ⟨declared, permitted⟩ := sideTexts_permits checked
    have grown := internSymbols_extends grammar.lexicon rhs
    have kept := extendLexicon_wellFormed wf grown (internSymbols_faithful wf.lexicon rhs)
    dsimp only
    split
    · exact kept
    · have admitted := admits_all wf grown (internSymbols_resolves wf.lexicon rhs) permitted
      exact pushProduction_wellFormed kept declared admitted handler

def register (grammar : Grammar τ υ) : Registration τ υ → Grammar τ υ
  | .nonterminal name => (grammar.nonterminal name).2
  | .terminal t => (grammar.terminal t).2
  | .start id => (grammar.setStart id).2
  | .production lhs rhs handler => (grammar.addProduction lhs rhs handler).2

def assemble (eof : τ) (calls : List (Registration τ υ)) : Grammar τ υ :=
  calls.foldl register (new eof)

theorem register_wellFormed {grammar : Grammar τ υ} {eof : τ} (wf : grammar.WellFormed eof)
    (call : Registration τ υ) : (grammar.register call).WellFormed eof := by
  cases call with
  | nonterminal name => exact nonterminal_wellFormed wf name
  | terminal t => exact terminal_wellFormed wf t
  | start id => exact setStart_wellFormed wf id
  | production lhs rhs handler => exact addProduction_wellFormed wf lhs rhs handler

theorem foldl_register_wellFormed {grammar : Grammar τ υ} {eof : τ} (wf : grammar.WellFormed eof)
    (calls : List (Registration τ υ)) : (calls.foldl register grammar).WellFormed eof := by
  induction calls generalizing grammar with
  | nil => exact wf
  | cons call calls ih => exact ih (register_wellFormed wf call)

theorem assemble_wellFormed (eof : τ) (calls : List (Registration τ υ)) :
    (assemble eof calls).WellFormed eof :=
  foldl_register_wellFormed (new_wellFormed eof) calls

end Grammar

end CanonicalLR
