import Mathlib.Data.List.Lex
import Mathlib.Order.Lattice

/-! Ranges of sequences with one prefix.

In the lexicographic order the sequences that start with `q ++ [b]` are those from it on and before
`q ++ [b']`, where `b'` comes next after `b`. -/
namespace Library.PrefixRange
variable {α : Type} [LinearOrder α]

/-- Every sequence with the prefix is in the range. -/
theorem range_of_prefix {q l : List α} {b b' : α} (hb : b < b') (h : q ++ [b] <+: l) :
    ¬l < q ++ [b] ∧ l < q ++ [b'] := by
  induction q generalizing l with
  | nil =>
    obtain ⟨t, rfl⟩ := h
    constructor
    · intro hlt
      rw [List.nil_append, List.cons_append, List.cons_lt_cons_iff] at hlt
      obtain hlt | ⟨-, hlt⟩ := hlt
      · exact lt_irrefl b hlt
      · exact List.not_lt_nil _ hlt
    · rw [List.nil_append, List.nil_append, List.cons_append, List.cons_lt_cons_iff]
      exact .inl hb
  | cons c q ih =>
    obtain ⟨t, rfl⟩ := h
    obtain ⟨hge, hlt⟩ := ih (List.prefix_append (q ++ [b]) t)
    simp only [List.cons_append, List.cons_lt_cons_iff]
    constructor
    · intro hlt
      obtain hlt | ⟨-, hlt⟩ := hlt
      · exact lt_irrefl c hlt
      · exact hge hlt
    · exact .inr ⟨trivial, hlt⟩

/-- With nothing between the two values, the range has no other sequences. -/
theorem prefix_of_range {q l : List α} {b b' : α} (hb : ∀ x, x < b' → x ≤ b) (hge : ¬l < q ++ [b])
    (hlt : l < q ++ [b']) : q ++ [b] <+: l := by
  induction q generalizing l with
  | nil =>
    cases l with
    | nil => exact absurd (List.nil_lt_cons b []) hge
    | cons a l =>
      rw [List.nil_append, List.cons_lt_cons_iff] at hge hlt
      obtain hlt | ⟨-, hlt⟩ := hlt
      · have hab : a = b := le_antisymm (hb a hlt) (not_lt.1 fun h => hge (.inl h))
        rw [hab]
        exact List.prefix_append [b] l
      · exact absurd hlt (List.not_lt_nil _)
  | cons c q ih =>
    cases l with
    | nil => exact absurd (List.nil_lt_cons c (q ++ [b])) hge
    | cons a l =>
      rw [List.cons_append, List.cons_lt_cons_iff] at hge hlt
      obtain hac | ⟨rfl, hlt⟩ := hlt
      · exact absurd (.inl hac) hge
      · have hrest := ih (fun h => hge (.inr ⟨rfl, h⟩)) hlt
        rw [List.cons_append]
        exact List.cons_prefix_cons.2 ⟨rfl, hrest⟩

end Library.PrefixRange
