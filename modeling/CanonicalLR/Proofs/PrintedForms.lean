import CanonicalLR.Proofs.Steps
/-
The printed forms of symbols, actions and items, told without the functions that print them. A
rule shows its name, `::=` and its symbols one space apart, with `ε` where there are none. An item
has the dot among the symbols, and behind a comma the terminals of its set in ascending order.
-/
namespace CanonicalLR

theorem spaced_eq {symbols : List String} (some_symbol : symbols ≠ []) :
    spaced symbols = " " ++ String.intercalate " " symbols := by
  induction symbols with
  | nil => contradiction
  | cons symbol rest ih =>
    cases rest with
    | nil => simp [spaced]
    | cons next rest =>
      have later := ih (List.cons_ne_nil next rest)
      rw [String.intercalate_cons_cons]
      simp only [spaced, List.map_cons, String.join_cons] at later ⊢
      rw [later]
      simp [String.append_assoc]

theorem ruleText_eq (name : String) (symbols : List String) :
    ruleText name symbols =
      name ++ " ::= " ++ String.intercalate " " (if symbols = [] then ["ε"] else symbols) := by
  cases symbols with
  | nil => simp [ruleText, String.append_assoc]
  | cons symbol rest =>
    rw [ruleText, spaced_eq (List.cons_ne_nil symbol rest), show " ::= " = " ::=" ++ " " from rfl]
    simp only [List.isEmpty_cons, Bool.false_eq_true, if_false, reduceCtorEq, String.append_assoc]

/-- The dot is written like one more symbol. -/
theorem itemText_eq (name : String) {symbols : List String} {dot : Nat}
    (inside : dot ≤ symbols.length) :
    itemText name symbols dot = name ++ " ::= " ++
      String.intercalate " " (symbols.take dot ++ "." :: symbols.drop dot) := by
  have dotted : spaced (symbols.take dot) ++ (" ." ++ spaced (symbols.drop dot)) =
      spaced (symbols.take dot ++ "." :: symbols.drop dot) := by
    simp [spaced]
  rw [itemText, if_pos inside, String.append_assoc, String.append_assoc, dotted,
    spaced_eq (by simp), show " ::= " = " ::=" ++ " " from rfl]
  simp only [String.append_assoc]

namespace Printer

variable {τ : Type} [Spelling τ]

inductive Spells (printer : Printer τ) : Symbol Nat → String → Prop where
  | terminal {t : Nat} {kind : τ} (known : printer.lexicon.get? t = some kind) :
      Spells printer (.terminal t) (spelling kind)
  | nonterminal {n : Nat} {name : String} (known : printer.names[n]? = some name) :
      Spells printer (.nonterminal n) name

inductive Sides (printer : Printer τ) : Nat → String → List String → Prop where
  | intro {p lhs : Nat} {rhs : List (Symbol Nat)} {name : String} {symbols : List String}
      (stored : printer.productions[p]? = some ⟨lhs, rhs⟩) (left : printer.names[lhs]? = some name)
      (right : List.Forall₂ printer.Spells rhs symbols) : Sides printer p name symbols

inductive ActionText (printer : Printer τ) : Action → String → Prop where
  | shift (target : Nat) : ActionText printer (.shift target) ("shift " ++ toString target)
  | goto (target : Nat) : ActionText printer (.goto target) ("goto " ++ toString target)
  | reduce {p : Nat} {name : String} {symbols : List String}
      (sides : printer.Sides p name symbols) :
      ActionText printer (.reduce p) ("reduce " ++ name ++ " ::= " ++
        String.intercalate " " (if symbols = [] then ["ε"] else symbols))
  | accept : ActionText printer .accept "accept"

inductive ItemText (printer : Printer τ) : Item × TerminalSet → String → Prop where
  | intro {item : Item} {set : TerminalSet} {name : String} {symbols members : List String}
      (sides : printer.Sides item.production name symbols) (inside : item.dot ≤ symbols.length)
      (lookaheads : List.Forall₂ printer.Spells (set.ids.map .terminal) members) :
      ItemText printer (item, set) (name ++ " ::= " ++
        String.intercalate " " (symbols.take item.dot ++ "." :: symbols.drop item.dot) ++
          ", \x7b" ++ String.intercalate ", " members ++ "\x7d")

variable {printer : Printer τ}

theorem spells_of_symbol? {symbol : Symbol Nat} {text : String}
    (h : printer.symbol? symbol = some text) : printer.Spells symbol text := by
  cases symbol with
  | terminal t =>
    obtain ⟨kind, known, rfl⟩ := Option.map_eq_some_iff.1 h
    exact .terminal known
  | nonterminal n => exact .nonterminal h

theorem spells_of_mapM {symbols : List (Symbol Nat)} {texts : List String}
    (h : symbols.mapM printer.symbol? = some texts) : List.Forall₂ printer.Spells symbols texts :=
  (mapM_eq_some_iff.1 h).imp fun _ _ => spells_of_symbol?

theorem action?_text {action : Action} {text : String} (h : printer.action? action = some text) :
    printer.ActionText action text := by
  cases action with
  | shift target =>
    obtain rfl := Option.some.inj h
    exact .shift target
  | goto target =>
    obtain rfl := Option.some.inj h
    exact .goto target
  | accept =>
    obtain rfl := Option.some.inj h
    exact .accept
  | reduce p =>
    simp only [action?, rule?, production?, bind, Option.map_eq_some_iff,
      Option.bind_eq_some_iff] at h
    obtain ⟨_, ⟨⟨lhs, rhs⟩, stored, name, left, symbols, right, last⟩, rfl⟩ := h
    obtain rfl := Option.some.inj last
    rw [ruleText_eq, ← String.append_assoc, ← String.append_assoc]
    exact .reduce (.intro stored left (spells_of_mapM right))

theorem lookaheadItem?_text {item : Item} {set : TerminalSet} {text : String}
    (inside : ∀ production, printer.productions[item.production]? = some production →
      item.dot ≤ production.rhs.length)
    (h : printer.lookaheadItem? item set = some text) : printer.ItemText (item, set) text := by
  simp only [lookaheadItem?, item?, terminals?, bind, Option.bind_eq_some_iff] at h
  obtain ⟨_, ⟨⟨lhs, rhs⟩, stored, name, left, symbols, right, dotted⟩, _,
    ⟨members, listed, braced⟩, last⟩ := h
  obtain rfl := Option.some.inj dotted
  obtain rfl := Option.some.inj braced
  obtain rfl := Option.some.inj last
  have spelled := spells_of_mapM right
  have bound : item.dot ≤ symbols.length := spelled.length_eq ▸ inside _ stored
  have lookaheads : List.Forall₂ printer.Spells (set.ids.map .terminal) members := by
    rw [List.forall₂_map_left_iff]
    refine (mapM_eq_some_iff.1 listed).imp ?_
    intro t text (known : printer.symbol? (.terminal t) = some text)
    exact spells_of_symbol? known
  have written := ItemText.intro (.intro stored left spelled) bound lookaheads
  rw [show ", \x7b" = ", " ++ "\x7b" from rfl] at written
  rw [itemText_eq name bound]
  simpa only [String.append_assoc] using written

end Printer

end CanonicalLR
