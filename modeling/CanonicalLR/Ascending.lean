/-
Strictly ascending lists. A finite set has exactly one such list, so sets kept this way are
equal as soon as they have the same members.
-/
namespace CanonicalLR

variable {α : Type} [LT α]

abbrev Ascending (members : List α) : Prop := members.Pairwise (· < ·)

theorem ascending_ext (trans : ∀ {x y z : α}, x < y → y < z → x < z)
    (irrefl : ∀ {x : α}, ¬ x < x) {as bs : List α} (ha : Ascending as) (hb : Ascending bs)
    (h : ∀ x, x ∈ as ↔ x ∈ bs) : as = bs := by
  induction as generalizing bs with
  | nil =>
    cases bs with
    | nil => rfl
    | cons b bs => simpa using h b
  | cons a as ih =>
    cases bs with
    | nil => simpa using h a
    | cons b bs =>
      have ta := List.pairwise_cons.1 ha
      have tb := List.pairwise_cons.1 hb
      have head : a = b := by
        rcases List.mem_cons.1 ((h a).1 (by simp)) with e | mb
        · exact e
        · rcases List.mem_cons.1 ((h b).2 (by simp)) with e | ma
          · exact e.symm
          · exact absurd (trans (ta.1 b ma) (tb.1 a mb)) irrefl
      subst head
      congr 1
      refine ih ta.2 tb.2 fun x => ⟨fun hx => ?_, fun hx => ?_⟩
      · rcases List.mem_cons.1 ((h x).1 (List.mem_cons_of_mem a hx)) with e | m
        · exact absurd (e ▸ ta.1 x hx) irrefl
        · exact m
      · rcases List.mem_cons.1 ((h x).2 (List.mem_cons_of_mem a hx)) with e | m
        · exact absurd (e ▸ tb.1 x hx) irrefl
        · exact m

variable [DecidableLT α] [DecidableEq α]

def insertAscending (a : α) : List α → List α
  | [] => [a]
  | b :: rest =>
    if a < b then a :: b :: rest
    else if a = b then b :: rest
    else b :: insertAscending a rest

theorem mem_insertAscending {a x : α} {members : List α} :
    x ∈ insertAscending a members ↔ x = a ∨ x ∈ members := by
  induction members with
  | nil => simp [insertAscending]
  | cons b rest ih =>
    simp only [insertAscending]
    split
    · simp
    · split
      · rename_i eq
        simp [eq]
      · simp only [List.mem_cons, ih]
        constructor
        · rintro (h | h | h) <;> simp [h]
        · rintro (h | h | h) <;> simp [h]

theorem insertAscending_ascending
    (trans : ∀ {x y z : α}, x < y → y < z → x < z)
    (connected : ∀ {x y : α}, ¬ x < y → x ≠ y → y < x)
    {a : α} {members : List α} (h : Ascending members) :
    Ascending (insertAscending a members) := by
  induction members with
  | nil => simp [insertAscending]
  | cons b rest ih =>
    have tail := List.pairwise_cons.1 h
    simp only [insertAscending]
    split
    · rename_i lt
      refine List.pairwise_cons.2 ⟨fun x hx => ?_, h⟩
      rcases List.mem_cons.1 hx with rfl | hx
      · exact lt
      · exact trans lt (tail.1 x hx)
    · rename_i nlt
      split
      · exact h
      · rename_i ne
        refine List.pairwise_cons.2 ⟨fun x hx => ?_, ih tail.2⟩
        rcases mem_insertAscending.1 hx with rfl | hx
        · exact connected nlt ne
        · exact tail.1 x hx

end CanonicalLR
