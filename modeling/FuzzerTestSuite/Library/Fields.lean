import Mathlib.Data.Nat.Bitwise

/-! Words made of bit fields.

`pack k lo hi` has `lo` in its low `k` bits and `hi` above them. Bitwise operations work on
the two parts by themselves (`pack_or`, `pack_and`), a shift by `k` makes a new low
field, and cutting a word off above `k` bits cuts its upper part (`pack_mod`). Nested, `pack`
makes words of any number of fields, and code that assembles numbers from bytes with shifts, masks
and `or` is followed field by field. -/
namespace Library.Fields

def pack (k lo hi : Nat) : Nat := lo + 2 ^ k * hi

section Pack
variable {k a b : Nat}

theorem pack_div (ha : a < 2 ^ k) (x : Nat) : pack k a x / 2 ^ k = x := by
  rw [pack, Nat.add_mul_div_left _ _ (Nat.two_pow_pos k), Nat.div_eq_of_lt ha, Nat.zero_add]

theorem pack_low (ha : a < 2 ^ k) (x : Nat) : pack k a x % 2 ^ k = a := by
  rw [pack, Nat.add_mul_mod_self_left, Nat.mod_eq_of_lt ha]

/-- A word is its two parts. -/
theorem eq_pack (k n : Nat) : n = pack k (n % 2 ^ k) (n / 2 ^ k) := (Nat.mod_add_div n _).symm

theorem pack_or (ha : a < 2 ^ k) (hb : b < 2 ^ k) (x y : Nat) :
    pack k a x ||| pack k b y = pack k (a ||| b) (x ||| y) := by
  rw [eq_pack k (pack k a x ||| pack k b y), Nat.or_mod_two_pow, Nat.or_div_two_pow, pack_low ha, pack_low hb,
    pack_div ha, pack_div hb]

theorem pack_and (ha : a < 2 ^ k) (hb : b < 2 ^ k) (x y : Nat) :
    pack k a x &&& pack k b y = pack k (a &&& b) (x &&& y) := by
  rw [eq_pack k (pack k a x &&& pack k b y), Nat.and_mod_two_pow, Nat.and_div_two_pow, pack_low ha,
    pack_low hb, pack_div ha, pack_div hb]

theorem shiftLeft_pack (k n : Nat) : n <<< k = pack k 0 n := by
  rw [Nat.shiftLeft_eq, pack, Nat.zero_add, Nat.mul_comm]

theorem pack_mod (ha : a < 2 ^ k) (x j : Nat) : pack k a x % 2 ^ (k + j) = pack k a (x % 2 ^ j) := by
  rw [Nat.pow_add, Nat.mod_mul, pack_low ha, pack_div ha]
  rfl

theorem pack_lt (ha : a < 2 ^ k) {x j : Nat} (hx : x < 2 ^ j) : pack k a x < 2 ^ (k + j) := by
  rw [Nat.pow_add, pack]
  calc a + 2 ^ k * x < 2 ^ k * (x + 1) := by rw [Nat.mul_succ]; omega
    _ ≤ 2 ^ k * 2 ^ j := Nat.mul_le_mul_left _ hx

end Pack

/-- A mask of `k` ones keeps a number below `2 ^ k`. -/
theorem and_ones {k a : Nat} (ha : a < 2 ^ k) : a &&& (2 ^ k - 1) = a := by
  rw [Nat.and_two_pow_sub_one_eq_mod, Nat.mod_eq_of_lt ha]

/-- A mask of `j` ones above `k` zeros keeps the field there. -/
theorem and_field (k j a : Nat) : a &&& pack k 0 (2 ^ j - 1) = 2 ^ k * (a / 2 ^ k % 2 ^ j) := by
  conv_lhs => rw [eq_pack k a]
  rw [pack_and (Nat.mod_lt _ (Nat.two_pow_pos k)) (Nat.two_pow_pos k), Nat.and_zero,
    Nat.and_two_pow_sub_one_eq_mod, pack, Nat.zero_add]

/-- `or` of numbers with no bit in common. -/
theorem or_add {k a b : Nat} (ha : a % 2 ^ k = 0) (hb : b < 2 ^ k) : a ||| b = a + b := by
  have hmul : a = 2 ^ k * (a / 2 ^ k) := (Nat.mul_div_cancel' (Nat.dvd_of_mod_eq_zero ha)).symm
  rw [hmul]
  exact (Nat.two_pow_add_eq_or_of_lt hb _).symm

end Library.Fields
