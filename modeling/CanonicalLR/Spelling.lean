import CanonicalLR.Text.Quoted
/-
How a terminal is spelled in messages, dumps and diagrams.
-/
namespace CanonicalLR

class Spelling (α : Type) where
  spelling : α → String

export Spelling (spelling)

instance : Spelling String := ⟨quote⟩

instance : Spelling Nat := ⟨toString⟩

def spellList {α : Type} [Spelling α] (members : List α) : String :=
  "[" ++ String.intercalate ", " (members.map spelling) ++ "]"

end CanonicalLR
