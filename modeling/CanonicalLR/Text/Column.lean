/-
Fixed-width columns. Widths count characters; a text that is too wide is kept whole.
-/
namespace CanonicalLR

def spaces (n : Nat) : String := String.ofList (List.replicate n ' ')

def padRight (width : Nat) (text : String) : String :=
  text ++ spaces (width - text.length)

def padLeft (width : Nat) (text : String) : String :=
  spaces (width - text.length) ++ text

/-- Fills up with spaces on both sides; an odd space goes to the right. -/
def centre (width : Nat) (text : String) : String :=
  let gap := width - text.length
  spaces (gap / 2) ++ text ++ spaces (gap - gap / 2)

theorem length_spaces (n : Nat) : (spaces n).length = n := by
  simp [spaces]

theorem length_padRight (width : Nat) (text : String) :
    (padRight width text).length = max width text.length := by
  simp only [padRight, String.length_append, length_spaces]
  omega

theorem length_centre (width : Nat) (text : String) :
    (centre width text).length = max width text.length := by
  simp only [centre, String.length_append, length_spaces]
  omega

end CanonicalLR
