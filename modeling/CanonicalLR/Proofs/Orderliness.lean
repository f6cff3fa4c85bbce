import CanonicalLR.Proofs.Registration
import Mathlib.Data.List.Nodup
/-
The order that registration keeps. Beyond the bounds on ids, every production stands exactly once
among the lists of the non-terminals, these lists ascend, and no production is stored twice. Each
call keeps this, refused or not.
-/
namespace CanonicalLR

namespace Grammar

variable {τ υ : Type}

/-- The lists of the non-terminals ascend, and no production is stored under two ids. -/
structure Tidy (grammar : Grammar τ υ) : Prop where
  ascending (n : Nat) : Ascending (grammar.productionsOf n)
  distinct {p q : Nat} {production : Production} : grammar.productions[p]? = some production →
    grammar.productions[q]? = some production → p = q

structure Orderly (grammar : Grammar τ υ) : Prop extends grammar.Tidy where
  handlers : grammar.handlers.size = grammar.productions.size
  rows : grammar.byNonterminal.size = grammar.names.size
  once {p : Nat} : p < grammar.productions.size → grammar.byNonterminal.toList.flatten.count p = 1
  filed {p n : Nat} : p ∈ grammar.productionsOf n ↔
    ∃ rhs, grammar.productions[p]? = some ⟨n, rhs⟩
  start {n : Nat} : grammar.start = some n → n < grammar.names.size
  lhs {p : Nat} {production : Production} : grammar.productions[p]? = some production →
    production.lhs < grammar.names.size
  rhs {p n : Nat} {production : Production} : grammar.productions[p]? = some production →
    .nonterminal n ∈ production.rhs → n < grammar.names.size
  terminals {p t : Nat} {production : Production} : grammar.productions[p]? = some production →
    .terminal t ∈ production.rhs → t < grammar.lexicon.size ∧ t ≠ grammar.eof

theorem productionsOf_nonterminal [Fingerprint τ] (grammar : Grammar τ υ) (name : String)
    (n : Nat) : (grammar.nonterminal name).2.productionsOf n = grammar.productionsOf n := by
  simp only [nonterminal, productionsOf, Array.getD_eq_getD_getElem?, Array.getElem?_push]
  split
  · rename_i last
    simp [last]
  · rfl

theorem productionsOf_push {grammar : Grammar τ υ} {production : Production} {handler : Handler υ}
    (declared : production.lhs < grammar.byNonterminal.size) (n : Nat) :
    (grammar.pushProduction production handler).productionsOf n =
      if production.lhs = n then grammar.productionsOf n ++ [grammar.productions.size]
      else grammar.productionsOf n := by
  simp only [productionsOf, pushProduction, Array.getD_eq_getD_getElem?, Array.getElem?_modify]
  split
  · rename_i same
    rw [same] at declared
    simp [declared]
  · rfl

variable {grammar : Grammar τ υ}

theorem productionsOf_eq {n : Nat} (bound : n < grammar.byNonterminal.toList.length) :
    grammar.productionsOf n = grammar.byNonterminal.toList[n] := by
  have row : n < grammar.byNonterminal.size := by simpa using bound
  simp [productionsOf, Array.getD, row]

theorem setStart_tidy (tidy : grammar.Tidy) (id : Nat) : (grammar.setStart id).2.Tidy := by
  unfold setStart
  split
  · exact ⟨tidy.ascending, tidy.distinct⟩
  · exact tidy

variable [Fingerprint τ] {eof : τ}

theorem nonterminal_tidy (tidy : grammar.Tidy) (name : String) :
    (grammar.nonterminal name).2.Tidy := by
  constructor
  · intro n
    rw [productionsOf_nonterminal]
    exact tidy.ascending n
  · exact tidy.distinct

theorem WellFormed.listed_lt (wf : grammar.WellFormed eof) {p n : Nat}
    (h : p ∈ grammar.productionsOf n) : p < grammar.productions.size := by
  obtain ⟨rhs, rule⟩ := wf.filed.1 h
  exact (Array.getElem?_eq_some_iff.1 rule).1

theorem pushProduction_tidy (wf : grammar.WellFormed eof) (tidy : grammar.Tidy)
    {production : Production} (declared : production.lhs < grammar.names.size)
    (unused : ∀ p : Nat, grammar.productions[p]? ≠ some production) (handler : Handler υ) :
    (grammar.pushProduction production handler).Tidy := by
  constructor
  · intro n
    rw [productionsOf_push (wf.rows ▸ declared)]
    split
    · rw [Ascending, List.pairwise_append]
      refine ⟨tidy.ascending n, List.pairwise_singleton _ _, ?_⟩
      intro p member q last
      rw [List.mem_singleton.1 last]
      exact wf.listed_lt member
    · exact tidy.ascending n
  · intro p q other first second
    simp only [pushProduction, Array.getElem?_push] at first second
    split at first <;> split at second
    · omega
    · exact absurd (second.trans first.symm) (unused q)
    · exact absurd (first.trans second.symm) (unused p)
    · exact tidy.distinct first second

theorem WellFormed.flatten_nodup (wf : grammar.WellFormed eof) (tidy : grammar.Tidy) :
    grammar.byNonterminal.toList.flatten.Nodup := by
  rw [List.nodup_flatten]
  constructor
  · intro row member
    obtain ⟨n, bound, found⟩ := List.mem_iff_getElem.1 member
    have ascending := tidy.ascending n
    rw [productionsOf_eq bound, found] at ascending
    exact ascending.imp Nat.ne_of_lt
  · rw [List.pairwise_iff_getElem]
    intro i j first second apart p inFirst inSecond
    rw [← productionsOf_eq first] at inFirst
    rw [← productionsOf_eq second] at inSecond
    obtain ⟨rhs, rule⟩ := wf.filed.1 inFirst
    obtain ⟨rhs', rule'⟩ := wf.filed.1 inSecond
    have same := congrArg Production.lhs (Option.some.inj (rule.symm.trans rule'))
    exact Nat.ne_of_lt apart same

theorem WellFormed.listed (wf : grammar.WellFormed eof) {p : Nat}
    (stored : p < grammar.productions.size) : p ∈ grammar.byNonterminal.toList.flatten := by
  obtain ⟨⟨lhs, rhs⟩, rule⟩ : ∃ production, grammar.productions[p]? = some production :=
    ⟨_, Array.getElem?_eq_getElem stored⟩
  have row : p ∈ grammar.productionsOf lhs := wf.filed.2 ⟨rhs, rule⟩
  have bound : lhs < grammar.byNonterminal.toList.length := by
    simpa [wf.rows] using (wf.admits rule).1
  rw [productionsOf_eq bound] at row
  exact List.mem_flatten.2 ⟨_, List.getElem_mem bound, row⟩

theorem WellFormed.orderly (wf : grammar.WellFormed eof) (tidy : grammar.Tidy) :
    grammar.Orderly where
  ascending := tidy.ascending
  distinct := tidy.distinct
  handlers := wf.handlers
  rows := wf.rows
  once stored := List.count_eq_one_of_mem (wf.flatten_nodup tidy) (wf.listed stored)
  filed := wf.filed
  start := wf.start _
  lhs rule := (wf.admits rule).1
  rhs rule member := (wf.admits rule).2 _ member
  terminals rule member := (wf.admits rule).2 _ member

variable [DecidableEq τ]

theorem new_tidy (eof : τ) : (new eof : Grammar τ υ).Tidy := by
  constructor
  · intro n
    simp [new, productionsOf]
  · intro p q production h
    simp [new] at h

variable [Spelling τ]

/-- Only the productions of the left side are searched for a duplicate, and that is enough. -/
theorem addProduction_tidy (wf : grammar.WellFormed eof) (tidy : grammar.Tidy) (lhs : Nat)
    (rhs : List (Symbol τ)) (handler : Handler υ) :
    (grammar.addProduction lhs rhs handler).2.Tidy := by
  unfold addProduction
  split
  · exact tidy
  · rename_i checked
    have declared := (sideTexts_permits checked).1
    have grown := extendLexicon_wellFormed wf (internSymbols_extends grammar.lexicon rhs)
      (internSymbols_faithful wf.lexicon rhs)
    dsimp only
    split
    · exact ⟨tidy.ascending, tidy.distinct⟩
    · rename_i searched
      refine pushProduction_tidy grown ⟨tidy.ascending, tidy.distinct⟩ declared ?_ handler
      intro p stored
      apply searched
      exact List.any_eq_true.2 ⟨p, wf.filed.2 ⟨_, stored⟩, decide_eq_true stored⟩

theorem register_tidy (wf : grammar.WellFormed eof) (tidy : grammar.Tidy)
    (call : Registration τ υ) : (grammar.register call).Tidy := by
  cases call with
  | nonterminal name => exact nonterminal_tidy tidy name
  | terminal t => exact ⟨tidy.ascending, tidy.distinct⟩
  | start id => exact setStart_tidy tidy id
  | production lhs rhs handler => exact addProduction_tidy wf tidy lhs rhs handler

theorem foldl_register_tidy (wf : grammar.WellFormed eof) (tidy : grammar.Tidy)
    (calls : List (Registration τ υ)) : (calls.foldl register grammar).Tidy := by
  induction calls generalizing grammar with
  | nil => exact tidy
  | cons call calls ih => exact ih (register_wellFormed wf call) (register_tidy wf tidy call)

theorem assemble_orderly (eof : τ) (calls : List (Registration τ υ)) :
    (assemble eof calls).Orderly := by
  have tidy : (assemble eof calls).Tidy :=
    foldl_register_tidy (new_wellFormed eof) (new_tidy eof) calls
  exact (assemble_wellFormed eof calls).orderly tidy

end Grammar

end CanonicalLR
