/-
Fingerprints: short words computed from a value, equal for equal values and usually different
for different ones. Nothing but speed rests on how rarely they coincide.
-/
namespace CanonicalLR

class Fingerprint (α : Type) where
  fingerprint : α → UInt64

export Fingerprint (fingerprint)

def stir (seed word : UInt64) : UInt64 := (seed ^^^ word) * 1099511628211

def fingerprintList {α : Type} [Fingerprint α] (members : List α) : UInt64 :=
  members.foldl (fun seed member => stir seed (fingerprint member)) 14695981039346656037

instance : Fingerprint Nat := ⟨fun n => n.toUInt64⟩

instance : Fingerprint Char := ⟨fun c => c.toNat.toUInt64⟩

instance {α : Type} [Fingerprint α] : Fingerprint (List α) := ⟨fingerprintList⟩

instance {α β : Type} [Fingerprint α] [Fingerprint β] : Fingerprint (α × β) :=
  ⟨fun pair => stir (fingerprint pair.1) (fingerprint pair.2)⟩

instance : Fingerprint String := ⟨fun text => fingerprint text.toList⟩

end CanonicalLR
