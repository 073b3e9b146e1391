import Mathlib.Data.List.Basic

/-! Patterns with wildcards.

A pattern is a sequence of items, each of which stands for any sequence of values or for one value that
it accepts. What a pattern matches is defined by splitting (`Matches`); the lemmas are the steps of a matcher that
goes from left to right: it may skip wildcards in a row, and after them look for the first item's
values only. -/
namespace Library.Wildcard
variable {α : Type}

inductive Item (α : Type) where
  /-- Any sequence. -/
  | any
  /-- One of the values accepted. -/
  | one (accepts : α → Bool)

/-- An item that matches nothing. -/
def Item.never : Item α := .one fun _ => false

def Matches : List (Item α) → List α → Prop
  | [], s => s = []
  | .any :: items, s => ∃ s₁ s₂, s = s₁ ++ s₂ ∧ Matches items s₂
  | .one accepts :: items, s => ∃ x s', s = x :: s' ∧ accepts x = true ∧ Matches items s'

variable {items : List (Item α)}

theorem one_nil (accepts : α → Bool) : ¬Matches (.one accepts :: items) [] := by
  intro ⟨x, s', h, _⟩
  cases h

@[simp] theorem one_cons {accepts : α → Bool} {x : α} {s : List α} :
    Matches (.one accepts :: items) (x :: s) ↔ accepts x = true ∧ Matches items s := by
  constructor
  · intro ⟨y, s', h, hy, hs⟩
    cases h
    exact ⟨hy, hs⟩
  · intro ⟨hx, hs⟩
    exact ⟨x, s, rfl, hx, hs⟩

theorem never_nothing (s : List α) : ¬Matches (.never :: items) s := by
  intro ⟨_, _, _, h, _⟩
  cases h

theorem any_nil : Matches (.any :: items) ([] : List α) ↔ Matches items [] := by
  constructor
  · intro ⟨s₁, s₂, h, hs⟩
    rwa [(List.append_eq_nil_iff.1 h.symm).2] at hs
  · intro h
    exact ⟨[], [], rfl, h⟩

/-- Any sequence is nothing, or a value and any sequence. -/
theorem any_cons {x : α} {s : List α} :
    Matches (.any :: items) (x :: s) ↔ Matches items (x :: s) ∨ Matches (.any :: items) s := by
  constructor
  · intro ⟨s₁, s₂, h, hs⟩
    cases s₁ with
    | nil =>
      cases h
      exact .inl hs
    | cons y s₁ =>
      cases h
      exact .inr ⟨s₁, s₂, rfl, hs⟩
  · intro h
    obtain h | ⟨s₁, s₂, rfl, hs⟩ := h
    · exact ⟨[], x :: s, rfl, h⟩
    · exact ⟨x :: s₁, s₂, rfl, hs⟩

theorem any_last (s : List α) : Matches [.any] s := ⟨s, [], (List.append_nil s).symm, rfl⟩

/-- Two of them in a row are one. -/
theorem any_any {s : List α} : Matches (.any :: .any :: items) s ↔ Matches (.any :: items) s := by
  constructor
  · intro ⟨s₁, s₂, h, s₃, s₄, h', hs⟩
    exact ⟨s₁ ++ s₃, s₄, by rw [h, h', List.append_assoc], hs⟩
  · intro h
    exact ⟨[], s, rfl, h⟩

theorem any_one_nil (accepts : α → Bool) : ¬Matches (.any :: .one accepts :: items) [] :=
  fun h => one_nil accepts (any_nil.1 h)

/-- Values in front that the items in front accept, one each. -/
theorem ones_append {β : Type} {accepts : β → α → Bool} (cs : List β) (s : List α) :
    Matches (cs.map (fun c => .one (accepts c)) ++ items) s ↔
      ∃ s₁ s₂, s = s₁ ++ s₂ ∧ List.Forall₂ (fun c x => accepts c x = true) cs s₁ ∧ Matches items s₂ := by
  induction cs generalizing s with
  | nil =>
    constructor
    · intro h
      exact ⟨[], s, rfl, .nil, h⟩
    · intro ⟨s₁, s₂, h, hs₁, hs₂⟩
      cases hs₁
      rwa [h]
  | cons c cs ih =>
    constructor
    · intro ⟨x, s', h, hx, hs⟩
      obtain ⟨s₁, s₂, rfl, hs₁, hs₂⟩ := (ih s').1 hs
      exact ⟨x :: s₁, s₂, h, .cons hx hs₁, hs₂⟩
    · intro ⟨s₁, s₂, h, hs₁, hs₂⟩
      cases hs₁ with
      | cons hx hs₁ => exact ⟨_, _, h, hx, (ih _).2 ⟨_, s₂, rfl, hs₁, hs₂⟩⟩

/-- Looking for a value that the item accepts. -/
theorem any_one_cons {accepts : α → Bool} {x : α} {s : List α} :
    Matches (.any :: .one accepts :: items) (x :: s) ↔
      (accepts x = true ∧ Matches items s) ∨ Matches (.any :: .one accepts :: items) s := by
  rw [any_cons, one_cons]

/-- An item that accepts all values may be taken at once. -/
theorem any_one_all {x : α} {s : List α} :
    Matches (.any :: .one (fun _ => true) :: items) (x :: s) ↔ Matches (.any :: items) s := by
  induction s generalizing x with
  | nil =>
    rw [any_one_cons]
    constructor
    · intro h
      obtain ⟨-, h⟩ | h := h
      · exact any_nil.2 h
      · exact absurd h (any_one_nil _)
    · intro h
      exact .inl ⟨rfl, any_nil.1 h⟩
  | cons y s ih =>
    rw [any_one_cons, ih, any_cons]
    constructor
    · intro h
      obtain ⟨-, h⟩ | h := h
      · exact .inl h
      · exact .inr h
    · intro h
      obtain h | h := h
      · exact .inl ⟨rfl, h⟩
      · exact .inr h

end Library.Wildcard
