import Mathlib.Data.List.Basic

/-! Operations that have no value outside their precondition.

An index past the end, a remainder by zero, a difference below zero: each is
`none`, so that a computation built from these returns a value only when every
access it makes is in range. -/
namespace Library.Checked

/-- The remainder, undefined for a zero divisor. -/
def mod? (a b : Nat) : Option Nat := if b = 0 then none else some (a % b)

/-- The difference, undefined where it would wrap below zero. -/
def sub? (a b : Nat) : Option Nat := if b ≤ a then some (a - b) else none

variable {α : Type}

/-- Change the element at an index in range. -/
def modifyAt? (l : List α) (i : Nat) (f : α → α) : Option (List α) :=
  if i < l.length then some (l.modify i f) else none

/-- Remove the element at an index in range. -/
def eraseAt? (l : List α) (i : Nat) : Option (List α) :=
  if i < l.length then some (l.eraseIdx i) else none

/-- Insert before an index in range, or at the end. -/
def insertAt? (l : List α) (i : Nat) (x : α) : Option (List α) :=
  if i ≤ l.length then some (l.insertIdx i x) else none

theorem mod?_pos {a b : Nat} (h : 0 < b) : mod? a b = some (a % b) := by
  rw [mod?, if_neg (by omega)]

theorem sub?_le {a b : Nat} (h : b ≤ a) : sub? a b = some (a - b) := if_pos h

theorem modifyAt?_lt {l : List α} {i : Nat} (h : i < l.length) (f : α → α) :
    modifyAt? l i f = some (l.modify i f) := if_pos h

theorem eraseAt?_lt {l : List α} {i : Nat} (h : i < l.length) :
    eraseAt? l i = some (l.eraseIdx i) := if_pos h

theorem insertAt?_le {l : List α} {i : Nat} (h : i ≤ l.length) (x : α) :
    insertAt? l i x = some (l.insertIdx i x) := if_pos h

/-- The element right after a prefix is the one at the prefix's length. -/
theorem modifyAt?_append (a : List α) (x : α) (b : List α) (f : α → α) :
    modifyAt? (a ++ x :: b) a.length f = some (a ++ f x :: b) := by
  rw [modifyAt?_lt (by simp)]
  congr 1
  induction a with
  | nil => rfl
  | cons y a ih => exact congrArg (y :: ·) ih

/-- An element of a changed list is an old one, or the changed one. -/
theorem mem_modify {l : List α} {i : Nat} {f : α → α} {x : α} (h : x ∈ l.modify i f) :
    x ∈ l ∨ ∃ hi : i < l.length, x = f l[i] := by
  obtain ⟨j, hj, rfl⟩ := List.getElem_of_mem h
  rw [List.length_modify] at hj
  rw [List.getElem_modify]
  split
  · rename_i hij
    subst hij
    exact .inr ⟨hj, rfl⟩
  · exact .inl (List.getElem_mem hj)

end Library.Checked
