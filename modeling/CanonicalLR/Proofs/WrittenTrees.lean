import CanonicalLR.Proofs.Orderliness
import CanonicalLR.Proofs.Soundness
import CanonicalLR.Proofs.TreeTexts
import CanonicalLR.Sample
/-
Grammars over words whose handlers write trees. Where names and words are plain and no name is
given twice, the text of a tree tells the tree, and so the text that a parser returns tells the
words that it has read.
-/
namespace CanonicalLR

namespace Forest

variable {τ υ : Type} {handlers : Array (Handler υ)} {forest children : Forest τ υ}
  {values : List υ}

theorem values?_leaf {token : Token τ υ}
    (h : Forest.values? handlers (.leaf token :: forest) = some values) :
    ∃ rest, Forest.values? handlers forest = some rest ∧ values = token.value :: rest := by
  simp only [Forest.values?, Tree.value?, Option.bind_some, Option.map_eq_some_iff] at h
  obtain ⟨rest, later, rfl⟩ := h
  exact ⟨rest, later, rfl⟩

theorem values?_node {production : Nat}
    (h : Forest.values? handlers (.node production children :: forest) = some values) :
    ∃ handler inner rest, handlers[production]? = some handler ∧
      Forest.values? handlers children = some inner ∧
      Forest.values? handlers forest = some rest ∧ values = handler inner :: rest := by
  simp only [Forest.values?, Tree.value?, Option.bind_eq_some_iff, Option.map_eq_some_iff] at h
  obtain ⟨_, ⟨handler, stored, inner, below, rfl⟩, rest, later, rfl⟩ := h
  exact ⟨handler, inner, rest, stored, below, later, rfl⟩

end Forest

def Literal (tokens : List (Token String String)) : Prop :=
  ∀ token ∈ tokens, token.value = token.kind

/-- Every handler writes the node that it stands for, in names and words that can be told apart. -/
structure Grammar.Writes (grammar : Grammar String String) : Prop where
  wf : grammar.WellFormed "$"
  tidy : grammar.Tidy
  name {n : Nat} {name : String} : grammar.names[n]? = some name → Plain name.toList
  apart {m n : Nat} {name : String} : grammar.names[m]? = some name →
    grammar.names[n]? = some name → m = n
  word {id : Nat} {word : String} : grammar.lexicon.get? id = some word → Plain word.toList
  handler {p : Nat} {production : Production} : grammar.productions[p]? = some production →
    ∃ name, grammar.names[production.lhs]? = some name ∧
      grammar.handlers[p]? = some (treeText name)

namespace Grammar.Writes

variable {grammar : Grammar String String} {symbols symbols' : List (Symbol Nat)}
  {f g : Forest String String} {values : List String}

theorem literal_cons {token : Token String String} {rest : List (Token String String)}
    (h : Literal (token :: rest)) : token.value = token.kind ∧ Literal rest :=
  List.forall_mem_cons.1 h

theorem literal_append {tokens rest : List (Token String String)} (h : Literal (tokens ++ rest)) :
    Literal tokens ∧ Literal rest :=
  List.forall_mem_append.1 h

theorem written (writes : grammar.Writes) {p lhs : Nat} {rhs : List (Symbol Nat)}
    {handler : Handler String} (rule : grammar.productions[p]? = some ⟨lhs, rhs⟩)
    (stored : grammar.handlers[p]? = some handler) :
    ∃ name, grammar.names[lhs]? = some name ∧ handler = treeText name := by
  obtain ⟨name, named, written⟩ := writes.handler rule
  exact ⟨name, named, Option.some.inj (stored.symm.trans written)⟩

theorem balanced (writes : grammar.Writes)
    (h : Derivation grammar.lexicon grammar.productions symbols f)
    (literal : Literal (Forest.leaves f))
    (evaluates : Forest.values? grammar.handlers f = some values) :
    ∀ value ∈ values, Balanced value.toList := by
  induction h generalizing values with
  | nil =>
    obtain rfl : [] = values := Option.some.inj evaluates
    simp
  | leaf spelled _ ih =>
    obtain ⟨rest, later, rfl⟩ := Forest.values?_leaf evaluates
    obtain ⟨same, others⟩ := literal_cons literal
    rw [List.forall_mem_cons, same]
    exact ⟨(writes.word spelled).balanced, ih others later⟩
  | node rule _ _ ihBelow ihTail =>
    obtain ⟨handler, inner, rest, stored, below, later, rfl⟩ := Forest.values?_node evaluates
    obtain ⟨name, named, rfl⟩ := writes.written rule stored
    obtain ⟨inside, others⟩ := literal_append literal
    rw [List.forall_mem_cons]
    exact ⟨treeText_balanced (writes.name named) (ihBelow inside below), ihTail others later⟩

theorem leaf_inj (writes : grammar.Writes) {t t' : Nat} {token token' : Token String String}
    (spelled : grammar.lexicon.get? t = some token.kind)
    (spelled' : grammar.lexicon.get? t' = some token'.kind) (own : token.value = token.kind)
    (own' : token'.value = token'.kind) (same : token.value = token'.value) :
    t = t' ∧ token = token' := by
  obtain ⟨kind, value⟩ := token
  obtain ⟨kind', value'⟩ := token'
  dsimp only at *
  subst own own' same
  exact ⟨writes.wf.lexicon.distinct spelled spelled', rfl⟩

theorem leaf_ne_node (writes : grammar.Writes) {t p lhs : Nat} {rhs : List (Symbol Nat)}
    {token : Token String String} {handler : Handler String}
    (spelled : grammar.lexicon.get? t = some token.kind) (own : token.value = token.kind)
    (rule : grammar.productions[p]? = some ⟨lhs, rhs⟩)
    (stored : grammar.handlers[p]? = some handler) (inner : List String) :
    token.value ≠ handler inner := by
  obtain ⟨name, _, rfl⟩ := writes.written rule stored
  intro same
  have plain := writes.word spelled
  rw [← own, same] at plain
  exact treeText_not_plain name inner plain

theorem node_inj (writes : grammar.Writes) {p q lhs lhs' : Nat} {rhs rhs' : List (Symbol Nat)}
    {handler handler' : Handler String} {inner inner' : List String}
    (rule : grammar.productions[p]? = some ⟨lhs, rhs⟩)
    (rule' : grammar.productions[q]? = some ⟨lhs', rhs'⟩)
    (stored : grammar.handlers[p]? = some handler)
    (stored' : grammar.handlers[q]? = some handler')
    (balanced : ∀ child ∈ inner, Balanced child.toList)
    (balanced' : ∀ child ∈ inner', Balanced child.toList)
    (same : handler inner = handler' inner') : lhs = lhs' ∧ inner = inner' := by
  obtain ⟨name, named, rfl⟩ := writes.written rule stored
  obtain ⟨name', named', rfl⟩ := writes.written rule' stored'
  obtain ⟨rfl, children⟩ := treeText_injective (writes.name named) (writes.name named')
    balanced balanced' same
  exact ⟨writes.apart named named', children⟩

theorem unique (writes : grammar.Writes)
    (hf : Derivation grammar.lexicon grammar.productions symbols f)
    (hg : Derivation grammar.lexicon grammar.productions symbols' g)
    (literal : Literal (Forest.leaves f)) (literal' : Literal (Forest.leaves g))
    (evaluates : Forest.values? grammar.handlers f = some values)
    (evaluates' : Forest.values? grammar.handlers g = some values) :
    symbols = symbols' ∧ f = g := by
  induction hf generalizing symbols' g values with
  | nil =>
    obtain rfl : [] = values := Option.some.inj evaluates
    cases hg with
    | nil => exact ⟨rfl, rfl⟩
    | leaf _ _ =>
      obtain ⟨_, _, same⟩ := Forest.values?_leaf evaluates'
      contradiction
    | node _ _ _ =>
      obtain ⟨_, _, _, _, _, _, same⟩ := Forest.values?_node evaluates'
      contradiction
  | leaf spelled tail ih =>
    obtain ⟨values, later, rfl⟩ := Forest.values?_leaf evaluates
    obtain ⟨own, others⟩ := literal_cons literal
    cases hg with
    | nil => simp [Forest.values?] at evaluates'
    | leaf spelled' tail' =>
      obtain ⟨values', later', same⟩ := Forest.values?_leaf evaluates'
      obtain ⟨own', others'⟩ := literal_cons literal'
      obtain ⟨value, rfl⟩ := List.cons.inj same
      obtain ⟨rfl, rfl⟩ := writes.leaf_inj spelled spelled' own own' value
      obtain ⟨rfl, rfl⟩ := ih tail' others others' later later'
      exact ⟨rfl, rfl⟩
    | node rule' _ _ =>
      obtain ⟨_, inner, _, stored, _, _, same⟩ := Forest.values?_node evaluates'
      exact absurd (List.cons.inj same).1 (writes.leaf_ne_node spelled own rule' stored inner)
  | node rule below tail ihBelow ihTail =>
    obtain ⟨handler, inner, values, stored, inside, later, rfl⟩ := Forest.values?_node evaluates
    obtain ⟨own, others⟩ := literal_append literal
    cases hg with
    | nil => simp [Forest.values?] at evaluates'
    | leaf spelled' _ =>
      obtain ⟨_, _, same⟩ := Forest.values?_leaf evaluates'
      exact absurd (List.cons.inj same).1.symm
        (writes.leaf_ne_node spelled' (literal_cons literal').1 rule stored inner)
    | node rule' below' tail' =>
      obtain ⟨_, inner', _, stored', inside', later', same⟩ := Forest.values?_node evaluates'
      obtain ⟨own', others'⟩ := literal_append literal'
      obtain ⟨text, rfl⟩ := List.cons.inj same
      obtain ⟨rfl, rfl⟩ := writes.node_inj rule rule' stored stored'
        (writes.balanced below own inside) (writes.balanced below' own' inside') text
      obtain ⟨rfl, rfl⟩ := ihTail tail' others others' later later'
      obtain ⟨rfl, rfl⟩ := ihBelow below' own own' inside inside'
      -- equal sides are registered once, so one production made both nodes
      obtain rfl := writes.tidy.distinct rule rule'
      exact ⟨rfl, rfl⟩

end Grammar.Writes

end CanonicalLR
