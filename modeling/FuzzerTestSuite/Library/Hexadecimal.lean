import FuzzerTestSuite.Library.Bytes
import Mathlib.Data.Nat.Digits.Lemmas

/-! Numbers printed in hexadecimal, two upper-case digits for each byte.

A number has many such prints, one for each number of zero bytes in front
(`Prints`). The canonical one has none, and is a lone `0` for zero; it is unique
(`Canonical.unique`), every number has one (`canonical_canonicalHex`), and two
numbers never share it (`Canonical.inj`). -/
namespace Library.Hexadecimal
open Bytes

/-! ### Big-endian numbers -/

/-- The number bytes hold, highest byte first. -/
def beNat (bs : List UInt8) : Nat := leNat bs.reverse

theorem leNat_eq_ofDigits (bs : List UInt8) : leNat bs = Nat.ofDigits 256 (bs.map UInt8.toNat) := by
  induction bs with
  | nil => rfl
  | cons b bs ih => rw [leNat, ih, List.map_cons, Nat.ofDigits_cons]

theorem leNat_append (a b : List UInt8) : leNat (a ++ b) = leNat a + 256 ^ a.length * leNat b := by
  rw [leNat_eq_ofDigits, List.map_append, Nat.ofDigits_append, ← leNat_eq_ofDigits, ← leNat_eq_ofDigits,
    List.length_map]

theorem beNat_zero_cons (bs : List UInt8) : beNat (0 :: bs) = beNat bs := by
  rw [beNat, List.reverse_cons, leNat_append]
  rfl

theorem beNat_zeros (z : Nat) (bs : List UInt8) : beNat (List.replicate z 0 ++ bs) = beNat bs := by
  induction z with
  | zero => rfl
  | succ z ih => rw [List.replicate_succ, List.cons_append, beNat_zero_cons, ih]

/-- Bytes are zeros, and then nothing or a byte that is not zero. -/
theorem zeros_split (bs : List UInt8) :
    ∃ z rest, bs = List.replicate z 0 ++ rest ∧ ∀ b ∈ rest.head?, b ≠ 0 := by
  induction bs with
  | nil => exact ⟨0, [], rfl, fun b hb => by cases hb⟩
  | cons b bs ih =>
    by_cases hb : b = 0
    · obtain ⟨z, rest, rfl, hrest⟩ := ih
      exact ⟨z + 1, rest, by rw [hb, List.replicate_succ, List.cons_append], hrest⟩
    · exact ⟨0, b :: bs, rfl, fun c hc => Option.some.inj hc ▸ hb⟩

/-- Without a zero in front, the digits of the number are the bytes. -/
theorem digits_beNat {b : UInt8} (hb : b ≠ 0) (bs : List UInt8) :
    Nat.digits 256 (beNat (b :: bs)) = (b :: bs).reverse.map UInt8.toNat := by
  rw [beNat, leNat_eq_ofDigits]
  apply Nat.digits_ofDigits 256 (by decide)
  · intro d hd
    obtain ⟨c, -, rfl⟩ := List.mem_map.mp hd
    exact c.toNat_lt
  · intro hne
    simp only [List.reverse_cons, List.map_append, List.map_cons, List.map_nil,
      List.getLast_append_of_ne_nil _ (List.cons_ne_nil _ _), List.getLast_singleton]
    exact fun h => hb (UInt8.toNat_inj.mp h)

theorem beNat_injective {b b' : UInt8} (hb : b ≠ 0) (hb' : b' ≠ 0) {bs bs' : List UInt8}
    (h : beNat (b :: bs) = beNat (b' :: bs')) : b :: bs = b' :: bs' := by
  have hdigits := digits_beNat hb bs
  rw [h, digits_beNat hb'] at hdigits
  have hmap := List.map_injective_iff.mpr (fun _ _ => UInt8.toNat_inj.mp) hdigits
  exact (List.reverse_injective hmap).symm

theorem beNat_ne_zero {b : UInt8} (hb : b ≠ 0) (bs : List UInt8) : beNat (b :: bs) ≠ 0 := by
  intro h
  have hdigits := digits_beNat hb bs
  rw [h, Nat.digits_zero, List.reverse_cons, List.map_append] at hdigits
  exact absurd hdigits.symm (List.append_ne_nil_of_right_ne_nil _ (List.cons_ne_nil _ _))

/-! ### Digits -/

/-- The character of a digit below 16. -/
def digit (d : Nat) : UInt8 := UInt8.ofNat (if d < 10 then 48 + d else 55 + d)

def zeroDigit : UInt8 := 48

def pair (b : UInt8) : List UInt8 := [digit (b.toNat / 16), digit (b.toNat % 16)]

/-- The characters of a byte string. -/
def hex (bs : List UInt8) : List UInt8 := bs.flatMap pair

theorem digit_injective : ∀ d < 16, ∀ e < 16, digit d = digit e → d = e := by decide

theorem digit_ne_nul : ∀ d < 16, digit d ≠ 0 := by decide

theorem digit_zero : ∀ d < 16, (digit d = zeroDigit ↔ d = 0) := by decide

theorem high_lt (b : UInt8) : b.toNat / 16 < 16 := by
  have := b.toNat_lt
  omega

theorem low_lt (b : UInt8) : b.toNat % 16 < 16 := Nat.mod_lt _ (by decide)

theorem pair_injective {b b' : UInt8} (h : pair b = pair b') : b = b' := by
  simp only [pair, List.cons.injEq, and_true] at h
  have hhigh := digit_injective _ (high_lt b) _ (high_lt b') h.1
  have hlow := digit_injective _ (low_lt b) _ (low_lt b') h.2
  apply UInt8.toNat_inj.mp
  omega

theorem hex_cons (b : UInt8) (bs : List UInt8) :
    hex (b :: bs) = digit (b.toNat / 16) :: digit (b.toNat % 16) :: hex bs := rfl

theorem hex_append (a b : List UInt8) : hex (a ++ b) = hex a ++ hex b := List.flatMap_append ..

@[simp] theorem hex_length (bs : List UInt8) : (hex bs).length = 2 * bs.length := by
  induction bs with
  | nil => rfl
  | cons b bs ih =>
    simp only [hex_cons, List.length_cons, ih]
    omega

theorem hex_injective {a b : List UInt8} (h : hex a = hex b) : a = b := by
  induction a generalizing b with
  | nil =>
    cases b with
    | nil => rfl
    | cons c b => cases h
  | cons c a ih =>
    cases b with
    | nil => cases h
    | cons c' b =>
      rw [hex_cons, hex_cons, List.cons.injEq, List.cons.injEq] at h
      have hpair : pair c = pair c' := by rw [pair, pair, h.1, h.2.1]
      rw [pair_injective hpair, ih h.2.2]

theorem hex_ne_nul (bs : List UInt8) : ∀ c ∈ hex bs, c ≠ 0 := by
  intro c hc
  obtain ⟨b, -, hb⟩ := List.mem_flatMap.mp hc
  simp only [pair, List.mem_cons, List.not_mem_nil, or_false] at hb
  rcases hb with rfl | rfl
  · exact digit_ne_nul _ (high_lt b)
  · exact digit_ne_nul _ (low_lt b)

theorem hex_zeros (z : Nat) : hex (List.replicate z 0) = List.replicate (2 * z) zeroDigit := by
  induction z with
  | zero => rfl
  | succ z ih =>
    rw [List.replicate_succ, hex_cons, ih, Nat.mul_succ, List.replicate_succ, List.replicate_succ]
    rfl

/-! ### Prints -/

/-- An even number of digits, at least two, that read as the number. -/
def Prints (n : Nat) (s : List UInt8) : Prop := ∃ bs, bs ≠ [] ∧ beNat bs = n ∧ s = hex bs

/-- A lone zero for zero, and otherwise digits whose first pair is not zero. -/
def Canonical (n : Nat) (s : List UInt8) : Prop :=
  n = 0 ∧ s = [zeroDigit] ∨ ∃ b bs, b ≠ 0 ∧ beNat (b :: bs) = n ∧ s = hex (b :: bs)

theorem Canonical.unique {n : Nat} {s t : List UInt8} (hs : Canonical n s) (ht : Canonical n t) :
    s = t := by
  rcases hs with ⟨hn, rfl⟩ | ⟨b, bs, hb, hn, rfl⟩ <;> rcases ht with ⟨hn', rfl⟩ | ⟨b', bs', hb', hn', rfl⟩
  · rfl
  · exact absurd (hn'.trans hn) (beNat_ne_zero hb' bs')
  · exact absurd (hn.trans hn') (beNat_ne_zero hb bs)
  · rw [beNat_injective hb hb' (hn.trans hn'.symm)]

theorem Canonical.inj {n m : Nat} {s : List UInt8} (hn : Canonical n s) (hm : Canonical m s) : n = m := by
  rcases hn with ⟨hn, rfl⟩ | ⟨b, bs, -, hn, rfl⟩ <;> rcases hm with ⟨hm, hs⟩ | ⟨b', bs', -, hm, hs⟩
  · rw [hn, hm]
  · have := congrArg List.length hs
    simp only [hex_length, List.length_cons, List.length_nil] at this
    omega
  · have := congrArg List.length hs
    simp only [hex_length, List.length_cons, List.length_nil] at this
    omega
  · rw [← hn, ← hm, hex_injective hs]

/-- The bytes of a number, highest first, none for zero. -/
def beBytes (n : Nat) : List UInt8 := ((Nat.digits 256 n).map UInt8.ofNat).reverse

def canonicalHex (n : Nat) : List UInt8 := if n = 0 then [zeroDigit] else hex (beBytes n)

theorem beNat_beBytes (n : Nat) : beNat (beBytes n) = n := by
  have hdigits : ((Nat.digits 256 n).map UInt8.ofNat).map UInt8.toNat = Nat.digits 256 n := by
    rw [List.map_map]
    refine (List.map_congr_left fun d hd => ?_).trans (List.map_id _)
    exact UInt8.toNat_ofNat_of_lt' (Nat.digits_lt_base (by decide) hd)
  rw [beNat, beBytes, List.reverse_reverse, leNat_eq_ofDigits, hdigits, Nat.ofDigits_digits]

theorem beBytes_beNat {b : UInt8} (hb : b ≠ 0) (bs : List UInt8) :
    beBytes (beNat (b :: bs)) = b :: bs := by
  rw [beBytes, digits_beNat hb, List.map_map]
  have hid : UInt8.ofNat ∘ UInt8.toNat = id := funext fun c => UInt8.ofNat_toNat
  rw [hid, List.map_id, List.reverse_reverse]

theorem canonical_canonicalHex (n : Nat) : Canonical n (canonicalHex n) := by
  unfold canonicalHex
  split
  · rename_i hn
    exact .inl ⟨hn, rfl⟩
  · rename_i hn
    right
    obtain ⟨z, rest, hsplit, hhead⟩ := zeros_split (beBytes n)
    have hvalue : beNat rest = n := by rw [← beNat_zeros z, ← hsplit, beNat_beBytes]
    cases rest with
    | nil => exact absurd hvalue.symm hn
    | cons b bs =>
      have hb : b ≠ 0 := hhead b rfl
      refine ⟨b, bs, hb, hvalue, ?_⟩
      rw [← hvalue, beBytes_beNat hb]

end Library.Hexadecimal
