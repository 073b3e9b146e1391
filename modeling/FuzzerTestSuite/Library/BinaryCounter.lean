import Mathlib.Algebra.GroupWithZero.Nat
import Mathlib.Data.Set.Lattice

/-! A row of slots that carries like a binary counter.

Adding a value to the row puts it into the first slot if that is free. If not, the value and the slot's
are joined, the slot is freed and the result carried to the next one. So the slots that are taken are
the ones of the number of values added (`value_add`), whatever joining does; and what joining
preserves, all slots have (`add_forall`, `add_content`). -/
namespace Library.BinaryCounter
variable {α β γ : Type}

/-- Add a value to the row: the new row, and what was carried out of it. -/
def add (join : β → α → α) (store : α → β) : List (Option β) → α → List (Option β) × Option α
  | [], x => ([], some x)
  | none :: slots, x => (some (store x) :: slots, none)
  | some b :: slots, x =>
    let (slots', carry) := add join store slots (join b x)
    (none :: slots', carry)

/-- The number whose bits are the slots that are taken. -/
def value : List (Option β) → Nat
  | [] => 0
  | none :: slots => 2 * value slots
  | some _ :: slots => 2 * value slots + 1

theorem value_free (n : Nat) : value (List.replicate n (none : Option β)) = 0 := by
  induction n with
  | zero => rfl
  | succ n ih =>
    rw [List.replicate_succ, value, ih]

variable {join : β → α → α} {store : α → β}

theorem length_add (join : β → α → α) (store : α → β) (slots : List (Option β)) (x : α) :
    (add join store slots x).1.length = slots.length := by
  induction slots generalizing x with
  | nil => rfl
  | cons slot slots ih =>
    cases slot with
    | none => rfl
    | some b => exact congrArg (· + 1) (ih (join b x))

theorem value_lt (slots : List (Option β)) : value slots < 2 ^ slots.length := by
  induction slots with
  | nil => exact Nat.one_pos
  | cons slot slots ih =>
    rw [List.length_cons, Nat.pow_succ]
    cases slot with
    | none =>
      rw [value]
      omega
    | some b =>
      rw [value]
      omega

/-- **One more value is one more on the counter**, with what is carried out of it. -/
theorem value_step (join : β → α → α) (store : α → β) (slots : List (Option β)) (x : α) :
    value (add join store slots x).1 + (if (add join store slots x).2.isSome then 2 ^ slots.length else 0) =
      value slots + 1 := by
  induction slots generalizing x with
  | nil => rfl
  | cons slot slots ih =>
    cases slot with
    | none => rfl
    | some b =>
      have hrest := ih (join b x)
      show 2 * value (add join store slots (join b x)).1 +
        (if (add join store slots (join b x)).2.isSome then 2 ^ (slots.length + 1) else 0) = 2 * value slots + 1 + 1
      rw [Nat.pow_succ]
      split at hrest
      · rename_i hcarry
        rw [if_pos hcarry]
        omega
      · rename_i hcarry
        rw [if_neg hcarry]
        omega

/-- A value is carried out of a full counter only. -/
theorem value_add {slots : List (Option β)} (h : value slots + 1 < 2 ^ slots.length) (x : α) :
    value (add join store slots x).1 = value slots + 1 ∧ (add join store slots x).2 = none := by
  have hstep := value_step join store slots x
  cases hcarry : (add join store slots x).2 with
  | none =>
    rw [hcarry] at hstep
    exact ⟨hstep, rfl⟩
  | some y =>
    rw [hcarry, Option.isSome_some, if_pos rfl] at hstep
    omega

theorem value_concat (slots : List (Option β)) (b : β) : value (slots ++ [some b]) = value slots + 2 ^ slots.length := by
  induction slots with
  | nil => rfl
  | cons slot slots ih =>
    rw [List.length_cons, Nat.pow_succ, List.cons_append]
    cases slot with
    | none =>
      rw [value, value, ih]
      omega
    | some c =>
      rw [value, value, ih]
      omega

/-- What joining and storing preserve. -/
theorem add_forall {P : β → Prop} {Q : α → Prop} (hjoin : ∀ b x, P b → Q x → Q (join b x))
    (hstore : ∀ x, Q x → P (store x)) {slots : List (Option β)} (hslots : ∀ b, some b ∈ slots → P b) {x : α}
    (hx : Q x) :
    (∀ b, some b ∈ (add join store slots x).1 → P b) ∧ ∀ y, (add join store slots x).2 = some y → Q y := by
  induction slots generalizing x with
  | nil =>
    refine ⟨fun b hb => absurd hb List.not_mem_nil, fun y hy => ?_⟩
    cases hy
    exact hx
  | cons slot slots ih =>
    cases slot with
    | none =>
      refine ⟨fun b hb => ?_, fun y hy => by cases hy⟩
      rcases List.mem_cons.mp hb with hb | hb
      · cases hb
        exact hstore x hx
      · exact hslots b (List.mem_cons_of_mem _ hb)
    | some b =>
      have hjoined := hjoin b x (hslots b List.mem_cons_self) hx
      obtain ⟨hrest, hcarry⟩ := ih (fun c hc => hslots c (List.mem_cons_of_mem _ hc)) hjoined
      refine ⟨fun c hc => ?_, hcarry⟩
      rcases List.mem_cons.mp hc with hc | hc
      · cases hc
      · exact hrest c hc

/-- The weight of the slots together. -/
def weight (w : β → Nat) : List (Option β) → Nat
  | [] => 0
  | none :: slots => weight w slots
  | some b :: slots => w b + weight w slots

/-- Joining adds no weight, so that the row and the carry weigh no more than the row and the value. -/
theorem add_weight {w : β → Nat} {u : α → Nat} (hjoin : ∀ b x, u (join b x) ≤ w b + u x)
    (hstore : ∀ x, w (store x) ≤ u x) (slots : List (Option β)) (x : α) :
    weight w (add join store slots x).1 + ((add join store slots x).2.elim 0 u) ≤ weight w slots + u x := by
  induction slots generalizing x with
  | nil => exact Nat.le_refl _
  | cons slot slots ih =>
    cases slot with
    | none =>
      have := hstore x
      show w (store x) + weight w slots + 0 ≤ weight w slots + u x
      omega
    | some b =>
      have hrest := ih (join b x)
      have hone := hjoin b x
      show weight w (add join store slots (join b x)).1 + ((add join store slots (join b x)).2.elim 0 u) ≤
        w b + weight w slots + u x
      omega

theorem weight_concat (w : β → Nat) (slots : List (Option β)) (b : β) :
    weight w (slots ++ [some b]) = weight w slots + w b := by
  induction slots with
  | nil => exact Nat.add_comm _ _
  | cons slot slots ih =>
    cases slot with
    | none => exact ih
    | some c =>
      rw [List.cons_append, weight, weight, ih, Nat.add_assoc]

theorem le_weight (w : β → Nat) {slots : List (Option β)} {b : β} (h : some b ∈ slots) : w b ≤ weight w slots := by
  induction slots with
  | nil => exact absurd h List.not_mem_nil
  | cons slot slots ih =>
    cases slot with
    | none => exact ih ((List.mem_cons.mp h).resolve_left nofun)
    | some c =>
      rw [weight]
      rcases List.mem_cons.mp h with h | h
      · cases h
        exact Nat.le_add_right _ _
      · exact Nat.le_add_left_of_le (ih h)

/-- Everything in the slots. -/
def content (c : β → Set γ) (slots : List (Option β)) : Set γ := {y | ∃ b, some b ∈ slots ∧ y ∈ c b}

/-- What is in a value that there may be. -/
def contentOf (e : α → Set γ) : Option α → Set γ
  | none => ∅
  | some x => e x

theorem content_nil (c : β → Set γ) : content c [] = ∅ := by
  ext y
  simp [content]

theorem content_cons (c : β → Set γ) (slot : Option β) (slots : List (Option β)) :
    content c (slot :: slots) = contentOf c slot ∪ content c slots := by
  ext y
  cases slot with
  | none => simp [content, contentOf]
  | some b => simp [content, contentOf]

/-- **Nothing is lost, and nothing appears**: the row and the carry have what the row and the value had. -/
theorem add_content {c : β → Set γ} {e : α → Set γ} (hjoin : ∀ b x, e (join b x) = c b ∪ e x)
    (hstore : ∀ x, c (store x) = e x) (slots : List (Option β)) (x : α) :
    content c (add join store slots x).1 ∪ contentOf e (add join store slots x).2 = content c slots ∪ e x := by
  induction slots generalizing x with
  | nil => rfl
  | cons slot slots ih =>
    cases slot with
    | none =>
      show content c (some (store x) :: slots) ∪ ∅ = content c (none :: slots) ∪ e x
      rw [content_cons, content_cons, contentOf, contentOf, hstore, Set.union_empty, Set.empty_union, Set.union_comm]
    | some b =>
      show content c (none :: (add join store slots (join b x)).1) ∪ contentOf e (add join store slots (join b x)).2 =
        content c (some b :: slots) ∪ e x
      rw [content_cons, content_cons, contentOf, contentOf, Set.empty_union, ih, hjoin, ← Set.union_assoc,
        Set.union_comm (c b)]

end Library.BinaryCounter
