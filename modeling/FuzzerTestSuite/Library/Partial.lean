import Mathlib.Data.List.Forall2

/-! Partial functions.

`l.mapM f` for an `f` into `Option` has a value when `f` has one at every element,
and then relates the two lists element by element (`mapM_eq_some`). `Returns` is total correctness, with a rule
for each way to build a partial function. -/
namespace Library.Partial

variable {α β : Type} {f : α → Option β}

theorem mapM_eq_some {l : List α} {l' : List β} :
    l.mapM f = some l' ↔ List.Forall₂ (fun x y => f x = some y) l l' := by
  induction l generalizing l' with
  | nil => cases l' <;> simp
  | cons x l ih =>
    rw [List.mapM_cons, List.forall₂_cons_left_iff]
    constructor
    · intro h
      cases hx : f x with
      | none => rw [hx] at h; cases h
      | some y =>
        cases hl : l.mapM f with
        | none => rw [hx, hl] at h; cases h
        | some t =>
          rw [hx, hl] at h
          cases h
          exact ⟨y, t, rfl, ih.mp hl, rfl⟩
    · intro h
      obtain ⟨y, t, hx, hl, rfl⟩ := h
      rw [hx, ih.mpr hl]
      rfl

theorem mapM_isSome {l : List α} : (l.mapM f).isSome ↔ ∀ x ∈ l, (f x).isSome := by
  induction l with
  | nil => simp
  | cons x l ih =>
    rw [List.mapM_cons, List.forall_mem_cons, ← ih]
    cases f x with
    | none => simp
    | some y => cases l.mapM f <;> simp

theorem mapM_length {l : List α} {l' : List β} (h : l.mapM f = some l') : l'.length = l.length :=
  (mapM_eq_some.mp h).length_eq.symm

/-- Every element of the result comes from one of the list. -/
theorem mem_of_mapM {l : List α} {l' : List β} (h : l.mapM f = some l') :
    ∀ y ∈ l', ∃ x ∈ l, f x = some y := by
  have hrel := mapM_eq_some.mp h
  clear h
  induction hrel with
  | nil => intro y hy; cases hy
  | cons hxy _ ih =>
    intro y hy
    rcases List.mem_cons.mp hy with rfl | hy
    · exact ⟨_, List.mem_cons_self .., hxy⟩
    · obtain ⟨x, hx, hxy⟩ := ih y hy
      exact ⟨x, List.mem_cons_of_mem _ hx, hxy⟩

/-- Every element of the list goes to one of the result. -/
theorem mem_mapM {l : List α} {l' : List β} (h : l.mapM f = some l') :
    ∀ x ∈ l, ∃ y ∈ l', f x = some y := by
  have hrel := mapM_eq_some.mp h
  clear h
  induction hrel with
  | nil => intro x hx; cases hx
  | cons hxy _ ih =>
    intro x hx
    rcases List.mem_cons.mp hx with rfl | hx
    · exact ⟨_, List.mem_cons_self .., hxy⟩
    · obtain ⟨y, hy, hxy⟩ := ih x hx
      exact ⟨y, List.mem_cons_of_mem _ hy, hxy⟩

/-- An element goes to the one at its place. -/
theorem mapM_getElem? {l : List α} {l' : List β} (h : l.mapM f = some l') {i : Nat} {x : α}
    (hx : l[i]? = some x) : ∃ y, f x = some y ∧ l'[i]? = some y := by
  have hrel := mapM_eq_some.mp h
  clear h
  induction hrel generalizing i with
  | nil => cases hx
  | cons hxy _ ih =>
    cases i with
    | zero =>
      cases hx
      exact ⟨_, hxy, rfl⟩
    | succ i => exact ih hx

/-- A function with a left inverse on a list is undone on the whole list. -/
theorem mapM_inverse {g : β → Option α} {l : List α} (h : ∀ x ∈ l, ∃ y, f x = some y ∧ g y = some x) :
    ∃ l', l.mapM f = some l' ∧ l'.mapM g = some l := by
  induction l with
  | nil => exact ⟨[], rfl, rfl⟩
  | cons x l ih =>
    obtain ⟨⟨y, hf, hg⟩, hl⟩ := List.forall_mem_cons.mp h
    obtain ⟨l', hf', hg'⟩ := ih hl
    refine ⟨y :: l', ?_, ?_⟩
    · rw [List.mapM_cons, hf, hf']
      rfl
    · rw [List.mapM_cons, hg, hg']
      rfl

/-- What the function does not change of an element, it does not change of a list. -/
theorem mapM_map_eq {γ : Type} {g : α → γ} {g' : β → γ} (hf : ∀ x y, f x = some y → g' y = g x)
    {l : List α} {l' : List β} (h : l.mapM f = some l') : l'.map g' = l.map g := by
  have hrel := mapM_eq_some.mp h
  clear h
  induction hrel with
  | nil => rfl
  | cons hxy _ ih => rw [List.map_cons, List.map_cons, hf _ _ hxy, ih]

/-- Two functions mapped one after the other are mapped together. -/
theorem mapM_bind {γ : Type} {g : β → Option γ} (l : List α) :
    ((l.mapM f).bind fun l' => l'.mapM g) = l.mapM fun x => (f x).bind g := by
  induction l with
  | nil => rfl
  | cons x l ih =>
    rw [List.mapM_cons, List.mapM_cons, ← ih]
    cases f x with
    | none => rfl
    | some y =>
      cases l.mapM f with
      | none => cases hy : g y <;> simp [hy]
      | some l' => simp [List.mapM_cons]

theorem mapM_singleton {x : α} {y : β} (h : f x = some y) : [x].mapM f = some [y] :=
  mapM_eq_some.mpr (.cons h .nil)

theorem mapM_self {f : α → Option α} {l : List α} (h : ∀ x ∈ l, f x = some x) : l.mapM f = some l :=
  mapM_eq_some.mpr (List.forall₂_same.mpr h)

/-- What the function does not move in or out of a class, it maps within the class, in order. -/
theorem mapM_filter {f : α → Option α} {keep : α → Bool}
    (hf : ∀ x y, f x = some y → keep y = keep x) {l l' : List α} (h : l.mapM f = some l') :
    (l.filter keep).mapM f = some (l'.filter keep) := by
  have hrel := mapM_eq_some.mp h
  clear h
  induction hrel with
  | nil => rfl
  | @cons x y l l' hxy _ ih =>
    have hkeep := hf x y hxy
    cases hx : keep x with
    | true =>
      rw [List.filter_cons_of_pos hx, List.filter_cons_of_pos (hkeep.trans hx), List.mapM_cons, hxy, ih]
      rfl
    | false =>
      rw [List.filter_cons_of_neg (by simp [hx]), List.filter_cons_of_neg (by simp [hkeep, hx]), ih]

/-- A class on which the function is the identity is found again as it was. -/
theorem filter_mapM {f : α → Option α} {keep : α → Bool}
    (hf : ∀ x y, f x = some y → keep y = keep x) (hself : ∀ x, keep x = true → f x = some x)
    {l l' : List α} (h : l.mapM f = some l') : l'.filter keep = l.filter keep := by
  have hkept := mapM_filter hf h
  rw [mapM_self fun x hx => hself x (List.mem_filter.mp hx).2] at hkept
  exact (Option.some.inj hkept).symm

/-- There is a result, and it has the property. -/
def Returns (r : Option α) (P : α → Prop) : Prop := ∃ a, r = some a ∧ P a

section Returns
variable {P : α → Prop} {Q : β → Prop}

theorem Returns.pure {a : α} (h : P a) : Returns (some a) P := ⟨a, rfl, h⟩

theorem Returns.bind {r : Option α} {f : α → Option β} (h : Returns r P) (hf : ∀ a, P a → Returns (f a) Q) :
    Returns (r >>= f) Q := by
  obtain ⟨a, rfl, ha⟩ := h
  exact hf a ha

theorem Returns.map {r : Option α} {f : α → β} (h : Returns r P) (hf : ∀ a, P a → Q (f a)) :
    Returns (r.map f) Q := by
  obtain ⟨a, rfl, ha⟩ := h
  exact ⟨f a, rfl, hf a ha⟩

theorem Returns.ite {c : Prop} [Decidable c] {r r' : Option α} (h : c → Returns r P) (h' : ¬c → Returns r' P) :
    Returns (if c then r else r') P := by
  by_cases hc : c
  · rw [if_pos hc]
    exact h hc
  · rw [if_neg hc]
    exact h' hc

end Returns

end Library.Partial
