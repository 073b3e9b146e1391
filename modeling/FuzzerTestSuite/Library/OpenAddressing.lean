import FuzzerTestSuite.Library.WhileLoop
import Mathlib.Data.List.Basic
import Mathlib.Data.Nat.Find

/-! Hash tables with linear probing.

A table is a list of slots, some of them free. A key has a home slot; where that is taken, the
slots after it are tried, round the end of the table. The invariant is that no slot between a key's
home and the key is free (`Chained`): a search from the home then finds a stored key before it meets
a free slot (`Chained.first`), and ends as long as there is one (`exists_firstStop`). Whatever loop
the search is written as, it makes one pass for each slot up to the one it stops at (`run_seek`). -/
namespace Library.OpenAddressing
open WhileLoop

/-- The slot after `h`, round the end. -/
def next (size h : Nat) : Nat := if size ≤ h + 1 then 0 else h + 1

theorem next_eq {size h : Nat} (hlt : h < size) : next size h = (h + 1) % size := by
  rw [next]
  split
  · rw [show h + 1 = size by omega, Nat.mod_self]
  · rw [Nat.mod_eq_of_lt (by omega)]

variable {α ρ : Type} {slots : List α}

/-- The slot `d` places after `h` is the first, from `h` on, that the search stops at. -/
structure FirstStop (stop : α → Prop) (slots : List α) (h d : Nat) : Prop where
  at_stop : ∃ y, slots[(h + d) % slots.length]? = some y ∧ stop y
  passed : ∀ k < d, ∃ y, slots[(h + k) % slots.length]? = some y ∧ ¬stop y

theorem exists_firstStop {stop : α → Prop} (hstop : ∃ y ∈ slots, stop y) (h : Nat) :
    ∃ d < slots.length, FirstStop stop slots h d := by
  obtain ⟨y, hmem, hy⟩ := hstop
  obtain ⟨j, hj, hget⟩ := List.mem_iff_getElem.mp hmem
  have hpos : 0 < slots.length := by omega
  -- the distance from `h` round to the slot of `y`
  have hround : ∃ d < slots.length, ∃ y, slots[(h + d) % slots.length]? = some y ∧ stop y := by
    refine ⟨(j + (slots.length - h % slots.length)) % slots.length, Nat.mod_lt _ hpos, y, ?_, hy⟩
    have hlt := Nat.mod_lt h hpos
    have hreach : (h + (j + (slots.length - h % slots.length)) % slots.length) % slots.length = j := by
      rw [Nat.add_mod_mod, ← Nat.mod_add_mod, show h % slots.length + (j + (slots.length - h % slots.length)) =
        j + slots.length by omega, Nat.add_mod_right, Nat.mod_eq_of_lt hj]
    rw [hreach, List.getElem?_eq_getElem hj, hget]
  classical
  obtain ⟨hd, hat⟩ := Nat.find_spec hround
  refine ⟨Nat.find hround, hd, hat, fun k hk => ?_⟩
  have hslot : (h + k) % slots.length < slots.length := Nat.mod_lt _ hpos
  refine ⟨slots[(h + k) % slots.length], List.getElem?_eq_getElem hslot, fun hs => ?_⟩
  exact Nat.find_min hround hk ⟨by omega, _, List.getElem?_eq_getElem hslot, hs⟩

/-- A loop that goes on to the next slot until it is where the search stops leaves there. -/
theorem run_seek {pass : Nat → Option (Pass Nat ρ)} {size h d : Nat} {r : ρ}
    (hagain : ∀ k < d, pass ((h + k) % size) = some (.again ((h + k + 1) % size)))
    (hdone : pass ((h + d) % size) = some (.done r)) {n : Nat} (hn : d < n) :
    run pass n (h % size) = some r := by
  obtain ⟨n, rfl⟩ : ∃ m, n = m + 1 := ⟨n - 1, by omega⟩
  induction d generalizing h n with
  | zero => exact run_done hdone n
  | succ d ih =>
    obtain ⟨n, rfl⟩ : ∃ m, n = m + 1 := ⟨n - 1, by omega⟩
    have hstep : pass (h % size) = some (.again ((h + 1) % size)) := hagain 0 (Nat.succ_pos d)
    rw [run_again hstep]
    apply ih
    · intro k hk
      have hk' := hagain (k + 1) (Nat.succ_lt_succ hk)
      rwa [← Nat.add_assoc, Nat.add_right_comm h k 1] at hk'
    · rwa [Nat.add_right_comm h 1 d]
    · omega

variable {home : α → Nat} {free : α}

/-- No slot between a key's home and the key is free. -/
def Chained (home : α → Nat) (free : α) (slots : List α) : Prop :=
  ∀ j x, slots[j]? = some x → x ≠ free → ∃ d, j = (home x + d) % slots.length ∧
    ∀ k < d, slots[(home x + k) % slots.length]? ≠ some free

theorem chained_free (home : α → Nat) (free : α) (size : Nat) : Chained home free (List.replicate size free) := by
  intro j x hget hx
  exact absurd (List.eq_of_mem_replicate (List.mem_of_getElem? hget)) hx

/-- A key stored where its search stopped keeps the invariant. -/
theorem Chained.store (hchain : Chained home free slots) {x : α} (hx : x ≠ free) {d : Nat}
    (hpassed : ∀ k < d, slots[(home x + k) % slots.length]? ≠ some free) :
    Chained home free (slots.set ((home x + d) % slots.length) x) := by
  -- a slot that was not free is not free now
  have hkeep {i : Nat} (hi : slots[i]? ≠ some free) :
      (slots.set ((home x + d) % slots.length) x)[i]? ≠ some free := by
    intro hget
    rw [List.getElem?_set] at hget
    split at hget
    · split at hget
      · exact hx (Option.some.inj hget)
      · cases hget
    · exact hi hget
  intro j y hget hy
  rw [List.length_set]
  rw [List.getElem?_set] at hget
  split at hget
  · rename_i hj
    split at hget
    · cases hget
      exact ⟨d, hj.symm, fun k hk => hkeep (hpassed k hk)⟩
    · cases hget
  · obtain ⟨d', hj, hbetween⟩ := hchain j y hget hy
    exact ⟨d', hj, fun k hk => hkeep (hbetween k hk)⟩

/-- **A search that stops at the key or at a free slot stops at the key if the table has it.** -/
theorem Chained.first (hchain : Chained home free slots) {x : α} (hx : x ≠ free) {d : Nat}
    (hfirst : FirstStop (fun y => y = free ∨ y = x) slots (home x) d) :
    slots[(home x + d) % slots.length]? = some x ↔ x ∈ slots := by
  constructor
  · exact List.mem_of_getElem?
  · intro hmem
    obtain ⟨j, hj⟩ := List.mem_iff_getElem?.mp hmem
    obtain ⟨d', rfl, hbetween⟩ := hchain j x hj hx
    obtain ⟨y, hy, hstop⟩ := hfirst.at_stop
    rcases Nat.lt_trichotomy d d' with hlt | rfl | hgt
    · -- the stop is before the key, so it is not at a free slot
      rcases hstop with rfl | rfl
      · exact absurd hy (hbetween d hlt)
      · exact hy
    · exact hj
    · obtain ⟨z, hz, hnot⟩ := hfirst.passed d' hgt
      cases hj.symm.trans hz
      exact absurd (.inr rfl) hnot

theorem mem_store {j : Nat} (hget : slots[j]? = some free) {x y : α} (hy : y ≠ free) :
    y ∈ slots.set j x ↔ y = x ∨ y ∈ slots := by
  obtain ⟨hj, hslot⟩ := List.getElem?_eq_some_iff.mp hget
  constructor
  · intro hmem
    exact (List.mem_or_eq_of_mem_set hmem).symm
  · intro hor
    rcases hor with rfl | hmem
    · exact List.mem_set hj y
    · obtain ⟨i, hi, rfl⟩ := List.mem_iff_getElem.mp hmem
      apply List.mem_iff_getElem?.mpr
      refine ⟨i, ?_⟩
      rw [List.getElem?_set_ne, List.getElem?_eq_getElem hi]
      intro hij
      subst hij
      exact hy hslot

variable [DecidableEq α]

/-- The slots in use. -/
def used (free : α) (slots : List α) : Nat := slots.countP (· ≠ free)

theorem used_free (free : α) (size : Nat) : used free (List.replicate size free) = 0 := by
  apply List.countP_eq_zero.mpr
  intro x hx
  simpa using List.eq_of_mem_replicate hx

theorem exists_free (h : used free slots < slots.length) : free ∈ slots := by
  by_contra hnot
  have hall : used free slots = slots.length :=
    List.countP_eq_length.mpr fun x hx => by simpa using fun (he : x = free) => hnot (he ▸ hx)
  omega

theorem used_store {j : Nat} (hget : slots[j]? = some free) {x : α} (hx : x ≠ free) :
    used free (slots.set j x) = used free slots + 1 := by
  obtain ⟨hj, hslot⟩ := List.getElem?_eq_some_iff.mp hget
  rw [used, List.countP_set hj, used]
  simp [hslot, hx]

end Library.OpenAddressing
