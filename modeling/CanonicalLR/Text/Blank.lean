/-
White space in the Unicode sense, and the words it separates.
-/
namespace CanonicalLR

/-- The ranges of code points with the property White_Space, ascending, both ends included. -/
def blankRanges : List (Nat × Nat) :=
  [(0x09, 0x0d), (0x20, 0x20), (0x85, 0x85), (0xa0, 0xa0), (0x1680, 0x1680), (0x2000, 0x200a),
    (0x2028, 0x2029), (0x202f, 0x202f), (0x205f, 0x205f), (0x3000, 0x3000)]

def isBlank (c : Char) : Bool :=
  blankRanges.any fun range => range.1 ≤ c.toNat && c.toNat ≤ range.2

def consWord (word : List Char) (words : List (List Char)) : List (List Char) :=
  if word = [] then words else word :: words

def splitBlank : List Char → List Char × List (List Char)
  | [] => ([], [])
  | c :: rest =>
    let (word, words) := splitBlank rest
    if isBlank c then ([], consWord word words) else (c :: word, words)

def words (text : String) : List String :=
  let (word, rest) := splitBlank text.toList
  (consWord word rest).map String.ofList

end CanonicalLR
