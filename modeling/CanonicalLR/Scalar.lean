import CanonicalLR.Fingerprint
import CanonicalLR.Spelling
/-
Scalars: whole numbers of 64 bits and words. They serve as terminals and as semantic values.
-/
namespace CanonicalLR

inductive Scalar where
  | number : Int64 → Scalar
  | word : String → Scalar
  deriving DecidableEq

namespace Scalar

def text : Scalar → String
  | number n => toString n.toInt
  | word w => w

def Before : Scalar → Scalar → Prop
  | number m, number n => m < n
  | number _, word _ => True
  | word _, number _ => False
  | word v, word w => v < w

instance : LT Scalar := ⟨Before⟩

instance : DecidableLT Scalar
  | number m, number n => inferInstanceAs (Decidable (m < n))
  | number _, word _ => isTrue trivial
  | word _, number _ => isFalse id
  | word v, word w => inferInstanceAs (Decidable (v < w))

instance : Spelling Scalar where
  spelling
    | number n => toString n.toInt
    | word w => quote w

instance : Fingerprint Scalar where
  fingerprint
    | number n => stir 1 n.toUInt64
    | word w => stir 2 (fingerprint w)

def numbers (values : List Scalar) : List Int64 :=
  values.filterMap fun
    | number n => some n
    | word _ => none

def sort (values : List Scalar) : List Scalar :=
  values.mergeSort fun x y => !decide (y < x)

end Scalar

/-- The derivation step `name ::= [child] …`, children between brackets. -/
def treeText (name : String) (children : List String) : String :=
  if children.isEmpty then name ++ " ::= ε"
  else name ++ " ::= " ++ String.intercalate " " (children.map fun child => "[" ++ child ++ "]")

/-- Ready-made ways to compute the value of a left side from the values of a right side. Sums and
products skip words and wrap around. -/
inductive Recipe where
  | tree
  | concat
  | sum
  | product
  | count
  | arity
  | pick (position : Nat)

def Recipe.handler (name : String) : Recipe → List Scalar → Scalar
  | tree, values => .word (treeText name (values.map Scalar.text))
  | concat, values => .word (String.join (values.map Scalar.text))
  | sum, values => .number ((Scalar.numbers values).foldl (· + ·) 0)
  | product, values => .number ((Scalar.numbers values).foldl (· * ·) 1)
  | count, values => .number ((Scalar.numbers values).foldl (· + ·) 1)
  | arity, values => .number (Int64.ofNat values.length)
  | pick position, values => values.getD position (.number 0)

end CanonicalLR
