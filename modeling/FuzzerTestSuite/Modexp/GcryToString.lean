import FuzzerTestSuite.Library.Checked
import FuzzerTestSuite.Library.Hexadecimal
import FuzzerTestSuite.Library.WhileLoop

/-! `gcrytostring`: a libgcrypt print without its leading zeros.

The print is a buffer of digits and a terminating NUL, and its size counts the NUL.
Reads past the buffer, differences below zero and copies past what was allocated
are `none`; on a print there are none of them, and the string is the canonical
print of the same number in a buffer of exactly its size (`gcrytostring_prints`). -/
namespace FuzzerTestSuite.Modexp
open Library Library.Bytes Library.Checked Library.Hexadecimal Library.WhileLoop

/-! ### C strings -/

/-- The string at a pointer, up to its NUL. -/
def cString : List UInt8 → Option (List UInt8)
  | [] => none
  | c :: s => if c = 0 then some [] else (cString s).map (c :: ·)

/-- `strncmp(s, lit, n) == 0` for a literal of `n` characters. Nothing is read after
the first difference. -/
def strncmpEq : List UInt8 → List UInt8 → Option Bool
  | _, [] => some true
  | [], _ :: _ => none
  | c :: s, l :: lit => if c = l then strncmpEq s lit else some false

/-- `malloc(size)`, and the string `strcpy` leaves there. -/
structure Malloced where
  size : Nat
  str : List UInt8
deriving DecidableEq, Repr

/-- `strcpy` into a buffer of the given size, NUL included. -/
def strcpy (size : Nat) (src : List UInt8) : Option Malloced := do
  let str ← cString src
  if str.length + 1 ≤ size then some ⟨size, str⟩ else none

/-! ### The function -/

/-- `while(a[j]=='0' && j<(i-2)) j++;` -/
def scanPass (a : List UInt8) (i j : Nat) : Option (Pass Nat Nat) := do
  let c ← a[j]?
  if c = zeroDigit then
    let last ← sub? i 2
    if j < last then some (.again (j + 1)) else some (.done j)
  else some (.done j)

/-- The scan makes at most as many passes as the print has characters. -/
def scanZeros (a : List UInt8) (i : Nat) : Option Nat := run (scanPass a i) i 0

/-- `a` and `i` are the print and the size `gcry_mpi_aprint` reports. -/
def gcrytostring (a : List UInt8) (i : Nat) : Option Malloced := do
  let j ← scanZeros a i
  let j ← (if j % 2 = 1 then sub? j 1 else some j)
  let zeros ← strncmpEq (a.drop j) [zeroDigit, zeroDigit]
  let j := if zeros then j + 1 else j
  let size ← sub? i j
  strcpy size (a.drop j)

/-! ### The scan -/

theorem cString_nul {s : List UInt8} (h : ∀ c ∈ s, c ≠ 0) : cString (s ++ [0]) = some s := by
  induction s with
  | nil => rfl
  | cons c s ih =>
    obtain ⟨hc, hs⟩ := List.forall_mem_cons.mp h
    rw [List.cons_append, cString, if_neg hc, ih hs]
    rfl

section Scan
variable {a : List UInt8} {i : Nat}

theorem scanPass_again {j : Nat} (hc : a[j]? = some zeroDigit) (hi : 2 ≤ i) (hj : j < i - 2) :
    scanPass a i j = some (.again (j + 1)) := by
  simp only [scanPass, hc, Option.bind_eq_bind, Option.bind_some, if_true, sub?_le hi, if_pos hj]

theorem scanPass_last {j : Nat} (hc : a[j]? = some zeroDigit) (hi : 2 ≤ i) (hj : ¬j < i - 2) :
    scanPass a i j = some (.done j) := by
  simp only [scanPass, hc, Option.bind_eq_bind, Option.bind_some, if_true, sub?_le hi, if_neg hj]

theorem scanPass_other {j : Nat} {c : UInt8} (hc : a[j]? = some c) (hne : c ≠ zeroDigit) :
    scanPass a i j = some (.done j) := by
  simp only [scanPass, hc, Option.bind_eq_bind, Option.bind_some, if_neg hne]

/-- The index stays at or before the last digit wherever a pass starts. -/
theorem scan_index (hi : 2 ≤ i) {j : Nat} (h : Visits (scanPass a i) 0 j) : j ≤ i - 2 := by
  refine h.invariant (fun j => j ≤ i - 2) ?_ (Nat.zero_le _)
  intro j j' _ hp
  cases hc : a[j]? with
  | none => simp [scanPass, hc] at hp
  | some c =>
    by_cases hz : c = zeroDigit
    · subst hz
      by_cases hlt : j < i - 2
      · rw [scanPass_again hc hi hlt] at hp
        cases hp
        exact hlt
      · rw [scanPass_last hc hi hlt] at hp
        cases hp
    · rw [scanPass_other hc hz] at hp
      cases hp

/-- Over `k` zero digits and something else, the scan stops at the something, or at the
last digit if there is no other. -/
theorem scanZeros_eq (hi : 2 ≤ i) {k : Nat} (hzeros : ∀ j < k, a[j]? = some zeroDigit) {c : UInt8}
    (hc : a[k]? = some c) (hne : c ≠ zeroDigit) : scanZeros a i = some (min k (i - 2)) := by
  suffices ∀ n j, j ≤ min k (i - 2) → min k (i - 2) - j < n →
      run (scanPass a i) n j = some (min k (i - 2)) from this i 0 (Nat.zero_le _) (by omega)
  intro n
  induction n with
  | zero => intro j _ hn; exact absurd hn (Nat.not_lt_zero _)
  | succ n ih =>
    intro j hj hn
    by_cases hk : j < k
    · by_cases hlast : j < i - 2
      · rw [run_again (scanPass_again (hzeros j hk) hi hlast)]
        exact ih (j + 1) (by omega) (by omega)
      · rw [run_done (scanPass_last (hzeros j hk) hi hlast)]
        congr 1
        omega
    · obtain rfl : j = k := by omega
      rw [run_done (scanPass_other hc hne)]
      congr 1
      omega

end Scan

/-! ### The string -/

/-- The function once the scan has stopped at `k`: from the even position before it, or
one further if both digits there are zero, everything is copied. -/
theorem gcrytostring_eq {a : List UInt8} {i k : Nat} (hscan : scanZeros a i = some k) (zeros : Bool)
    (hzeros : strncmpEq (a.drop (k - k % 2)) [zeroDigit, zeroDigit] = some zeros) {t : List UInt8}
    (hdrop : a.drop (if zeros then k - k % 2 + 1 else k - k % 2) = t ++ [0])
    (hi : i = (if zeros then k - k % 2 + 1 else k - k % 2) + (t.length + 1))
    (hnul : ∀ c ∈ t, c ≠ 0) : gcrytostring a i = some ⟨t.length + 1, t⟩ := by
  have heven : (if k % 2 = 1 then sub? k 1 else some k) = some (k - k % 2) := by
    by_cases hk : k % 2 = 1
    · rw [if_pos hk, sub?_le (by omega), hk]
    · rw [if_neg hk, Nat.mod_two_ne_one.mp hk, Nat.sub_zero]
  have hsize : sub? i (if zeros then k - k % 2 + 1 else k - k % 2) = some (t.length + 1) := by
    rw [sub?_le (by omega), hi, Nat.add_sub_cancel_left]
  have hcopy : strcpy (t.length + 1) (t ++ [0]) = some ⟨t.length + 1, t⟩ := by
    simp only [strcpy, cString_nul hnul, Option.bind_eq_bind, Option.bind_some, Nat.le_refl, if_true]
  simp only [gcrytostring, hscan, heven, hzeros, hsize, hdrop, hcopy, Option.bind_eq_bind,
    Option.bind_some]

/-- A print of zero: pairs of zeros, of which one digit is left. -/
theorem gcrytostring_zero (z : Nat) :
    gcrytostring (List.replicate (2 * (z + 1)) zeroDigit ++ [0]) (2 * (z + 1) + 1) =
      some ⟨2, [zeroDigit]⟩ := by
  have hzeros : ∀ j < 2 * (z + 1),
      (List.replicate (2 * (z + 1)) zeroDigit ++ [0])[j]? = some zeroDigit := by
    intro j hj
    rw [List.getElem?_append_left (by rw [List.length_replicate]; exact hj),
      List.getElem?_replicate_of_lt hj]
  have hend : (List.replicate (2 * (z + 1)) zeroDigit ++ [0])[2 * (z + 1)]? = some 0 := by
    rw [List.getElem?_append_right (by rw [List.length_replicate]), List.length_replicate, Nat.sub_self]
    rfl
  have hscan := scanZeros_eq (i := 2 * (z + 1) + 1) (by omega) hzeros hend (by decide)
  have hsplit : List.replicate (2 * (z + 1)) zeroDigit ++ [0] =
      List.replicate (2 * z) zeroDigit ++ [zeroDigit, zeroDigit, 0] := by
    rw [Nat.mul_succ, List.replicate_add, List.append_assoc]
    rfl
  have hk : min (2 * (z + 1)) (2 * (z + 1) + 1 - 2) = 2 * z + 1 := by omega
  have hkeven : 2 * z + 1 - (2 * z + 1) % 2 = 2 * z := by omega
  rw [hk] at hscan
  rw [hsplit] at hscan ⊢
  have hnul : ∀ c ∈ [zeroDigit], c ≠ 0 := by
    intro c hc
    rw [List.mem_singleton.mp hc]
    decide
  refine gcrytostring_eq hscan true ?_ ?_ ?_ hnul
  · rw [hkeven, List.drop_left' List.length_replicate]
    rfl
  · rw [hkeven, if_pos rfl, ← List.drop_drop, List.drop_left' List.length_replicate]
    rfl
  · rw [hkeven, if_pos rfl]
    rfl

/-- Digits whose first pair is not zero do not start with `00`. -/
theorem strncmpEq_hex {b : UInt8} (hb : b ≠ 0) (bs : List UInt8) :
    strncmpEq (hex (b :: bs) ++ [0]) [zeroDigit, zeroDigit] = some false := by
  rw [hex_cons]
  by_cases hhigh : digit (b.toNat / 16) = zeroDigit
  · have hlow : digit (b.toNat % 16) ≠ zeroDigit := by
      rw [Ne, digit_zero _ (low_lt b)]
      rw [digit_zero _ (high_lt b)] at hhigh
      intro hzero
      exact hb (UInt8.toNat_inj.mp (by show b.toNat = 0; omega))
    simp only [List.cons_append, strncmpEq, if_pos hhigh, if_neg hlow]
  · simp only [List.cons_append, strncmpEq, if_neg hhigh]

/-- The scan stops in the first pair that is not zero. -/
theorem scanZeros_digits (z : Nat) {b : UInt8} (hb : b ≠ 0) (bs : List UInt8) :
    ∃ k, k - k % 2 = 2 * z ∧
      scanZeros (List.replicate (2 * z) zeroDigit ++ (hex (b :: bs) ++ [0]))
        (2 * z + ((hex (b :: bs)).length + 1)) = some k := by
  have hlength : (List.replicate (2 * z) zeroDigit).length = 2 * z := List.length_replicate
  have hlen : (hex (b :: bs)).length = 2 * bs.length + 2 := hex_length _
  have hzeros : ∀ j < 2 * z,
      (List.replicate (2 * z) zeroDigit ++ (hex (b :: bs) ++ [0]))[j]? = some zeroDigit := by
    intro j hj
    rw [List.getElem?_append_left (by rw [hlength]; exact hj), List.getElem?_replicate_of_lt hj]
  have hhigh : (List.replicate (2 * z) zeroDigit ++ (hex (b :: bs) ++ [0]))[2 * z]? =
      some (digit (b.toNat / 16)) := by
    rw [List.getElem?_append_right (by rw [hlength]), hlength, Nat.sub_self]
    rfl
  have hlow : (List.replicate (2 * z) zeroDigit ++ (hex (b :: bs) ++ [0]))[2 * z + 1]? =
      some (digit (b.toNat % 16)) := by
    rw [List.getElem?_append_right (by rw [hlength]; omega), hlength, Nat.add_sub_cancel_left]
    rfl
  by_cases hz : digit (b.toNat / 16) = zeroDigit
  · -- the first digit is zero, so the second is not, and the scan stops there
    have hne : digit (b.toNat % 16) ≠ zeroDigit := by
      intro hzero
      have hpair := strncmpEq_hex hb bs
      simp only [hex_cons, List.cons_append, strncmpEq, if_pos hz, if_pos hzero] at hpair
      cases hpair
    have hzeros' : ∀ j < 2 * z + 1,
        (List.replicate (2 * z) zeroDigit ++ (hex (b :: bs) ++ [0]))[j]? = some zeroDigit := by
      intro j hj
      by_cases hj' : j < 2 * z
      · exact hzeros j hj'
      · obtain rfl : j = 2 * z := by omega
        rw [hhigh, hz]
    refine ⟨2 * z + 1, by omega, ?_⟩
    rw [scanZeros_eq (by omega) hzeros' hlow hne, Nat.min_eq_left (by omega)]
  · refine ⟨2 * z, by omega, ?_⟩
    rw [scanZeros_eq (by omega) hzeros hhigh hz, Nat.min_eq_left (by omega)]

/-- A print of any other number: pairs of zeros, and then digits the first pair of which
is not zero, which are left. -/
theorem gcrytostring_digits (z : Nat) {b : UInt8} (hb : b ≠ 0) (bs : List UInt8) :
    gcrytostring (List.replicate (2 * z) zeroDigit ++ (hex (b :: bs) ++ [0]))
        (2 * z + ((hex (b :: bs)).length + 1)) =
      some ⟨(hex (b :: bs)).length + 1, hex (b :: bs)⟩ := by
  obtain ⟨k, hk, hscan⟩ := scanZeros_digits z hb bs
  have hdrop : (List.replicate (2 * z) zeroDigit ++ (hex (b :: bs) ++ [0])).drop (2 * z) =
      hex (b :: bs) ++ [0] := List.drop_left' List.length_replicate
  refine gcrytostring_eq hscan false ?_ ?_ ?_ (hex_ne_nul _)
  · rw [hk, hdrop, strncmpEq_hex hb]
  · rw [hk, if_neg Bool.false_ne_true, hdrop]
  · rw [hk, if_neg Bool.false_ne_true]

/-- **The string is the canonical print of the number, in a buffer of exactly its size.** -/
theorem gcrytostring_prints {n : Nat} {s t : List UInt8} (hs : Prints n s) (ht : Canonical n t) :
    gcrytostring (s ++ [0]) (s.length + 1) = some ⟨t.length + 1, t⟩ := by
  obtain ⟨bs, hne, hn, rfl⟩ := hs
  obtain ⟨z, rest, rfl, hhead⟩ := zeros_split bs
  rw [beNat_zeros] at hn
  rw [hex_append, hex_zeros, List.append_assoc, List.length_append, List.length_replicate, Nat.add_assoc]
  cases rest with
  | nil =>
    have hz : z ≠ 0 := by
      intro hz
      rw [hz] at hne
      exact hne rfl
    obtain ⟨w, rfl⟩ := Nat.exists_eq_succ_of_ne_zero hz
    rw [ht.unique (.inl ⟨hn.symm, rfl⟩)]
    exact gcrytostring_zero w
  | cons b bs =>
    have hb : b ≠ 0 := hhead b rfl
    rw [ht.unique (.inr ⟨b, bs, hb, hn, rfl⟩)]
    exact gcrytostring_digits z hb bs

end FuzzerTestSuite.Modexp
