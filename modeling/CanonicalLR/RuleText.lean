/-
The written form of rules and items: `E ::= E + T`, with a dot at the place an item has reached
and `ε` for an empty right side.
-/
namespace CanonicalLR

def spaced (symbols : List String) : String :=
  String.join (symbols.map fun symbol => " " ++ symbol)

def ruleText (name : String) (symbols : List String) : String :=
  name ++ " ::=" ++ if symbols.isEmpty then " ε" else spaced symbols

/-- A dot past the end of the right side is not shown. -/
def itemText (name : String) (symbols : List String) (dot : Nat) : String :=
  if dot ≤ symbols.length then
    name ++ " ::=" ++ spaced (symbols.take dot) ++ " ." ++ spaced (symbols.drop dot)
  else ruleText name symbols

end CanonicalLR
