import Mathlib.Data.List.TakeDrop
import Mathlib.Data.UInt

/-! Bytes in memory: little-endian numbers, 32-bit words and fixed-size buffers.

`leNat` reads any number of bytes and `leBytes` writes a chosen number of them;
`word` and `wordBytes` are the two at 32 bits, as a machine that stores its low
byte first holds them. A buffer is a list whose length is its size: `overwrite`
stores into it without moving its end, `resize` moves the end. -/
namespace Library.Bytes

/-! ### Little-endian numbers -/

def leNat : List UInt8 → Nat
  | [] => 0
  | b :: bs => b.toNat + 256 * leNat bs

/-- The low `k` bytes, lowest first. -/
def leBytes : Nat → Nat → List UInt8
  | 0, _ => []
  | k + 1, n => UInt8.ofNat n :: leBytes k (n / 256)

@[simp] theorem leBytes_length (k n : Nat) : (leBytes k n).length = k := by
  induction k generalizing n with
  | zero => rfl
  | succ k ih => simp only [leBytes, List.length_cons, ih]

theorem leNat_lt (bs : List UInt8) : leNat bs < 256 ^ bs.length := by
  induction bs with
  | nil => exact Nat.one_pos
  | cons b bs ih =>
    have hb := b.toNat_lt
    simp only [leNat, List.length_cons, Nat.pow_succ]
    omega

theorem leNat_zeros (bs : List UInt8) (n : Nat) : leNat (bs ++ List.replicate n 0) = leNat bs := by
  induction bs with
  | nil =>
    induction n with
    | zero => rfl
    | succ n ih =>
      rw [List.nil_append] at ih ⊢
      simp only [List.replicate_succ, leNat, ih]
      rfl
  | cons b bs ih => simp only [List.cons_append, leNat, ih]

theorem leNat_leBytes (k n : Nat) : leNat (leBytes k n) = n % 256 ^ k := by
  induction k generalizing n with
  | zero => simp only [leBytes, leNat, Nat.pow_zero, Nat.mod_one]
  | succ k ih =>
    have hb : (UInt8.ofNat n).toNat = n % 256 := UInt8.toNat_ofNat'
    simp only [leBytes, leNat, ih, hb, Nat.pow_succ']
    exact (Nat.mod_mul ..).symm

theorem leBytes_leNat (bs : List UInt8) : leBytes bs.length (leNat bs) = bs := by
  induction bs with
  | nil => rfl
  | cons b bs ih =>
    have hb := b.toNat_lt
    have hlow : UInt8.ofNat (leNat (b :: bs)) = b := by
      apply UInt8.toNat_inj.mp
      rw [UInt8.toNat_ofNat']
      simp only [leNat]
      omega
    have hhigh : leNat (b :: bs) / 256 = leNat bs := by
      simp only [leNat]
      omega
    rw [List.length_cons, leBytes, hlow, hhigh, ih]

/-! ### 32-bit words -/

/-- The word four bytes hold; of fewer bytes, the word they are the low part of. -/
def word (bs : List UInt8) : UInt32 := UInt32.ofNat (leNat bs)

def wordBytes (w : UInt32) : List UInt8 := leBytes 4 w.toNat

/-- The word with its bytes in the other order. -/
def bswap32 (w : UInt32) : UInt32 := word (wordBytes w).reverse

@[simp] theorem wordBytes_length (w : UInt32) : (wordBytes w).length = 4 := leBytes_length ..

theorem wordBytes_word {bs : List UInt8} (h : bs.length = 4) : wordBytes (word bs) = bs := by
  have hlt := leNat_lt bs
  rw [h] at hlt
  have hn : (word bs).toNat = leNat bs := by
    rw [word, UInt32.toNat_ofNat', Nat.mod_eq_of_lt (by omega)]
  rw [wordBytes, hn, ← h]
  exact leBytes_leNat bs

@[simp] theorem word_wordBytes (w : UInt32) : word (wordBytes w) = w := by
  have hw := w.toNat_lt
  apply UInt32.toNat_inj.mp
  rw [word, wordBytes, UInt32.toNat_ofNat', leNat_leBytes]
  omega

theorem wordBytes_bswap32 (w : UInt32) : wordBytes (bswap32 w) = (wordBytes w).reverse :=
  wordBytes_word (by simp)

@[simp] theorem bswap32_bswap32 (w : UInt32) : bswap32 (bswap32 w) = w := by
  rw [bswap32, wordBytes_bswap32, List.reverse_reverse, word_wordBytes]

/-! ### Buffers -/

/-- A buffer falls into a start of any length it has, and the rest. -/
theorem exists_append {l : List UInt8} {n : Nat} (h : n ≤ l.length) :
    ∃ a b, l = a ++ b ∧ a.length = n ∧ b.length = l.length - n :=
  ⟨l.take n, l.drop n, (List.take_append_drop n l).symm, List.length_take_of_le h, List.length_drop⟩

/-- Store bytes at the start of a buffer: its length stays, what does not fit is lost. -/
def overwrite (buf bs : List UInt8) : List UInt8 := bs.take buf.length ++ buf.drop bs.length

/-- Move a buffer's end, filling with zeros. -/
def resize (buf : List UInt8) (n : Nat) : List UInt8 := buf.takeD n 0

@[simp] theorem overwrite_length (buf bs : List UInt8) : (overwrite buf bs).length = buf.length := by
  simp only [overwrite, List.length_append, List.length_take, List.length_drop]
  omega

/-- A store of exactly the buffer's size leaves nothing of what it held. -/
theorem overwrite_full {buf bs : List UInt8} (h : bs.length = buf.length) : overwrite buf bs = bs := by
  rw [overwrite, ← h, List.take_length, h, List.drop_length, List.append_nil]

/-- What a store of no more than the buffer's size leaves at its start. -/
theorem overwrite_take {buf bs : List UInt8} (h : bs.length ≤ buf.length) :
    (overwrite buf bs).take bs.length = bs := by
  rw [overwrite, List.take_of_length_le h, List.take_left']
  rfl

/-- A word's bytes are stored from the lowest on: those that are missing are zero. -/
theorem word_overwrite {bs : List UInt8} (h : bs.length ≤ 4) :
    word (overwrite (wordBytes 0) bs) = word bs := by
  have hzero : wordBytes 0 = List.replicate 4 0 := rfl
  rw [overwrite, wordBytes_length, List.take_of_length_le h, hzero, List.drop_replicate, word, word,
    leNat_zeros]

@[simp] theorem resize_length (buf : List UInt8) (n : Nat) : (resize buf n).length = n :=
  List.takeD_length ..

theorem resize_le {buf : List UInt8} {n : Nat} (h : n ≤ buf.length) : resize buf n = buf.take n :=
  List.takeD_eq_take 0 h

end Library.Bytes
