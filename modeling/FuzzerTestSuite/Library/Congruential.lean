import Mathlib.Data.Nat.ModEq

/-! Multiplicative congruential generators, `x ↦ a * x mod m`.

A generator whose multiplier has an inverse runs backwards: the state before a
known output is the inverse generator's next one (`eq_next_inverse`). Two
consecutive states, each taken modulo a small number, are correlated, but not so far
that a pair of residues would be missing (`exists_residues`). -/
namespace Library.Congruential

def next (a m x : Nat) : Nat := a * x % m

theorem next_lt {a m x : Nat} (hm : 0 < m) : next a m x < m := Nat.mod_lt _ hm

/-- The inverse generator undoes a step. -/
theorem next_next_inverse {a b m x : Nat} (hinv : b * a % m = 1) (hx : x < m) :
    next b m (next a m x) = x := by
  have hback : next b m (next a m x) = b * a % m * x % m := by
    simp only [next, Nat.mul_mod_mod, Nat.mod_mul_mod, Nat.mul_assoc]
  rw [hback, hinv, Nat.one_mul, Nat.mod_eq_of_lt hx]

/-- One step back: only one state leads to a given output. -/
theorem eq_next_inverse {a b m x y : Nat} (hinv : b * a % m = 1) (hx : x < m)
    (h : next a m x = y) : x = next b m y := by
  rw [← h, next_next_inverse hinv hx]

/-! ### Consecutive outputs -/

/-- Every residue class meets every interval of its modulus's length. -/
theorem exists_between {n : Nat} (hn : 0 < n) (i l : Nat) : ∃ x, l < x ∧ x ≤ l + n ∧ x ≡ i [MOD n] := by
  refine ⟨l + 1 + (i + n * (l + 1) - (l + 1)) % n, by omega, ?_, ?_⟩
  · have := Nat.mod_lt (i + n * (l + 1) - (l + 1)) hn
    omega
  · have hle : l + 1 ≤ i + n * (l + 1) := Nat.le_trans (Nat.le_mul_of_pos_left _ hn) (Nat.le_add_left ..)
    calc l + 1 + (i + n * (l + 1) - (l + 1)) % n
        ≡ l + 1 + (i + n * (l + 1) - (l + 1)) [MOD n] := (Nat.mod_modEq _ _).add_left _
      _ = i + n * (l + 1) := by omega
      _ ≡ i [MOD n] := Nat.add_mul_mod_self_left i n (l + 1)

/-- Among the first `b` multiples of a number prime to `b` one is in every class modulo `b`. -/
theorem exists_multiple {m b : Nat} (hb : 0 < b) (hcop : m.Coprime b) (i j : Nat) :
    ∃ q < b, m * q + j ≡ i [MOD b] := by
  obtain ⟨y, hzero, hy⟩ := Nat.chineseRemainder hcop 0 (i + b * j - j)
  obtain ⟨q, rfl⟩ := (Nat.modEq_zero_iff_dvd).mp hzero
  have hle : j ≤ i + b * j := Nat.le_trans (Nat.le_mul_of_pos_left _ hb) (Nat.le_add_left ..)
  refine ⟨q % b, Nat.mod_lt _ hb, ?_⟩
  calc m * (q % b) + j
      ≡ m * q + j [MOD b] := ((Nat.mod_modEq q b).mul_left m).add_right j
    _ ≡ i + b * j - j + j [MOD b] := hy.add_right j
    _ = i + b * j := by omega
    _ ≡ i [MOD b] := Nat.add_mul_mod_self_left i b j

/-- **A state and the one after it reach every pair of residues**, if the multiplier times both
moduli stays below the generator's modulus. -/
theorem exists_residues {a m k l i j : Nat} (hcop : m.Coprime l) (hl : l ≤ a) (hfit : a * (k * l) < m)
    (hi : i < k) (hj : j < l) : ∃ x, 0 < x ∧ x < m ∧ x % k = i ∧ next a m x % l = j := by
  have hl0 : 0 < l := Nat.lt_of_le_of_lt (Nat.zero_le _) hj
  have ha : 0 < a := Nat.lt_of_lt_of_le hl0 hl
  -- all states from the `q`-th multiple of the modulus to the next are multiplied without a wrap
  obtain ⟨q, hq, hblock⟩ := exists_multiple hl0 hcop (a * i) j
  obtain ⟨x, hlow, hhigh, hx⟩ := exists_between (Nat.mul_pos (Nat.lt_of_le_of_lt (Nat.zero_le _) hi) hl0)
    i (m * q / a)
  have hlow' : m * q < a * x := by
    rw [Nat.div_lt_iff_lt_mul ha, Nat.mul_comm x] at hlow
    exact hlow
  have hhigh' : a * x < m * q + m := by
    calc a * x ≤ a * (m * q / a + k * l) := Nat.mul_le_mul_left a hhigh
      _ = a * (m * q / a) + a * (k * l) := Nat.mul_add ..
      _ < m * q + m := Nat.add_lt_add_of_le_of_lt (Nat.mul_div_le ..) hfit
  obtain ⟨y, hy⟩ : ∃ y, a * x = m * q + y := ⟨a * x - m * q, by omega⟩
  have hnext : next a m x = y := by
    rw [next, hy, Nat.mul_add_mod, Nat.mod_eq_of_lt (by omega)]
  have hxm : x < m := by
    have hqa : m * q + m ≤ m * a := by
      rw [← Nat.mul_succ]
      exact Nat.mul_le_mul_left m (Nat.le_trans hq hl)
    exact Nat.lt_of_mul_lt_mul_left (a := a) (by rw [Nat.mul_comm a m]; omega)
  have hyj : y ≡ j [MOD l] := by
    refine Nat.ModEq.add_left_cancel' (m * q) ?_
    calc m * q + y = a * x := hy.symm
      _ ≡ a * i [MOD l] := (hx.of_mul_left k).mul_left a
      _ ≡ m * q + j [MOD l] := hblock.symm
  have hxi := hx.of_mul_right l
  rw [Nat.ModEq, Nat.mod_eq_of_lt hi] at hxi
  rw [Nat.ModEq, Nat.mod_eq_of_lt hj] at hyj
  exact ⟨x, Nat.pos_of_lt_mul_left hlow', hxm, hxi, hnext ▸ hyj⟩
end Library.Congruential
