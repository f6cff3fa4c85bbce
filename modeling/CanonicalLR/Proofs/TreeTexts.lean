import CanonicalLR.Proofs.Words
import CanonicalLR.Scalar
/-
Trees as texts. The brackets in the text of a tree are balanced, so the first bracket that closes
more than was opened ends a child; a node's text tells its name and the texts of all its children.
-/
namespace CanonicalLR

section Brackets

def bracket (count : Nat) (c : Char) : Option Nat :=
  if c = '[' then some (count + 1)
  else if c = ']' then (if count = 0 then none else some (count - 1))
  else some count

def depth (count : Nat) (text : List Char) : Option Nat := text.foldlM bracket count

/-- Every bracket is closed, and none that is not open. -/
def Balanced (text : List Char) : Prop := ∀ count, depth count text = some count

def Plain (text : List Char) : Prop := ∀ c ∈ text, c ≠ ' ' ∧ c ≠ '[' ∧ c ≠ ']'

instance (text : List Char) : Decidable (Plain text) :=
  List.decidableBAll (fun c => c ≠ ' ' ∧ c ≠ '[' ∧ c ≠ ']') text

variable {xs ys rest rest' : List Char}

theorem depth_append (count : Nat) (xs ys : List Char) :
    depth count (xs ++ ys) = (depth count xs).bind fun inner => depth inner ys := by
  rw [depth, List.foldlM_append]
  rfl

theorem Balanced.append (h : Balanced xs) (h' : Balanced ys) : Balanced (xs ++ ys) := by
  intro count
  rw [depth_append, h count]
  exact h' count

theorem balanced_of_unbracketed (none : ∀ c ∈ xs, c ≠ '[' ∧ c ≠ ']') : Balanced xs := by
  intro count
  induction xs with
  | nil => rfl
  | cons c rest ih =>
    rw [List.forall_mem_cons] at none
    obtain ⟨⟨opens, closes⟩, others⟩ := none
    have step : bracket count c = some count := by rw [bracket, if_neg opens, if_neg closes]
    rw [depth, List.foldlM_cons, step]
    exact ih others

theorem Plain.balanced (plain : Plain xs) : Balanced xs :=
  balanced_of_unbracketed fun c member => (plain c member).2

theorem Balanced.enclose (h : Balanced xs) : Balanced ('[' :: xs ++ [']']) := by
  intro count
  have inner : depth (count + 1) (xs ++ [']']) = some count := by
    rw [depth_append, h (count + 1)]
    rfl
  exact inner

/-- A bracket that closes a balanced text is not inside another. -/
theorem Balanced.ends (h : Balanced xs) (h' : Balanced ys) (more : List Char) :
    xs ≠ ys ++ ']' :: more := by
  intro longer
  have level := h 0
  rw [longer, depth_append, h' 0] at level
  contradiction

theorem Balanced.enclosed_inj (h : Balanced xs) (h' : Balanced ys)
    (same : xs ++ ']' :: rest = ys ++ ']' :: rest') : xs = ys ∧ rest = rest' :=
  append_cons_inj (h.ends h') (h'.ends h) same

end Brackets

section Nodes

def childrenText (children : List String) : List Char :=
  children.flatMap fun child => ' ' :: '[' :: child.toList ++ [']']

theorem childrenText_injective {children children' : List String}
    (balanced : ∀ child ∈ children, Balanced child.toList)
    (balanced' : ∀ child ∈ children', Balanced child.toList)
    (same : childrenText children = childrenText children') : children = children' := by
  induction children generalizing children' with
  | nil =>
    cases children' with
    | nil => rfl
    | cons child rest => simp [childrenText] at same
  | cons child rest ih =>
    cases children' with
    | nil => simp [childrenText] at same
    | cons child' rest' =>
      rw [List.forall_mem_cons] at balanced balanced'
      have enclosed : child.toList ++ ']' :: childrenText rest =
          child'.toList ++ ']' :: childrenText rest' := by
        simpa [childrenText] using same
      obtain ⟨chars, later⟩ := balanced.1.enclosed_inj balanced'.1 enclosed
      rw [String.toList_inj.1 chars, ih balanced.2 balanced'.2 later]

theorem childrenText_balanced {children : List String}
    (balanced : ∀ child ∈ children, Balanced child.toList) : Balanced (childrenText children) := by
  have blank : Balanced [' '] := balanced_of_unbracketed (by simp)
  induction children with
  | nil => exact fun _ => rfl
  | cons child rest ih =>
    rw [List.forall_mem_cons] at balanced
    exact (blank.append balanced.1.enclose).append (ih balanced.2)

theorem childrenText_cons (child : String) (rest : List String) :
    childrenText (child :: rest) = ' ' ::
      (String.intercalate " " ((child :: rest).map fun child => "[" ++ child ++ "]")).toList := by
  induction rest generalizing child with
  | nil => simp [childrenText]
  | cons next rest ih =>
    have later := ih next
    rw [List.map_cons] at later
    rw [List.map_cons, List.map_cons, String.intercalate_cons_cons, childrenText, List.flatMap_cons,
      ← childrenText, later]
    simp

def bodyText (children : List String) : List Char :=
  [':', ':', '='] ++ if children = [] then [' ', 'ε'] else childrenText children

theorem toList_treeText (name : String) (children : List String) :
    (treeText name children).toList = name.toList ++ ' ' :: bodyText children := by
  unfold bodyText
  cases children with
  | nil => simp [treeText]
  | cons child rest => simp [treeText, childrenText_cons]

theorem treeText_balanced {name : String} {children : List String} (plain : Plain name.toList)
    (balanced : ∀ child ∈ children, Balanced child.toList) :
    Balanced (treeText name children).toList := by
  have sign : Balanced [' ', ':', ':', '='] := balanced_of_unbracketed (by simp)
  have empty : Balanced [' ', 'ε'] := balanced_of_unbracketed (by simp)
  rw [toList_treeText]
  apply plain.balanced.append
  apply sign.append
  split
  · exact empty
  · exact childrenText_balanced balanced

theorem treeText_not_plain (name : String) (children : List String) :
    ¬ Plain (treeText name children).toList := by
  intro plain
  rw [toList_treeText] at plain
  exact (plain ' ' (by simp)).1 rfl

theorem treeText_injective {name name' : String} {children children' : List String}
    (plain : Plain name.toList) (plain' : Plain name'.toList)
    (balanced : ∀ child ∈ children, Balanced child.toList)
    (balanced' : ∀ child ∈ children', Balanced child.toList)
    (same : treeText name children = treeText name' children') :
    name = name' ∧ children = children' := by
  have chars := congrArg String.toList same
  rw [toList_treeText, toList_treeText] at chars
  obtain ⟨names, bodies⟩ := append_cons_inj_of_not_mem (fun member => (plain _ member).1 rfl)
    (fun member => (plain' _ member).1 rfl) chars
  refine ⟨String.toList_inj.1 names, ?_⟩
  unfold bodyText at bodies
  have inner := List.append_cancel_left bodies
  -- a node without children shows a letter where another opens a bracket
  by_cases bare : children = [] <;> by_cases bare' : children' = []
  · rw [bare, bare']
  · obtain ⟨child, rest, rfl⟩ := List.exists_cons_of_ne_nil bare'
    simp [bare, childrenText] at inner
  · obtain ⟨child, rest, rfl⟩ := List.exists_cons_of_ne_nil bare
    simp [bare', childrenText] at inner
  · rw [if_neg bare, if_neg bare'] at inner
    exact childrenText_injective balanced balanced' inner

end Nodes

end CanonicalLR
