import Mathlib.Data.Nat.Log
import Mathlib.Data.UInt
import FuzzerTestSuite.Library.Fields

/-! SQLite's variable-length integers.

Seven bits of data in each byte, high groups first, with the top bit set on every byte
that is not the last; a ninth byte is the last in any case and holds eight bits.
`plainGetVarint` reads that format byte by byte. `sqlite3GetVarint` reads it unrolled, two groups of
fourteen bits at a time in 32-bit words; it gives the same value and length on all bytes there are,
and so does the 32-bit reader, up to saturation (`readers_agree`). What `sqlite3PutVarint` writes
is read back, whatever follows it (`putVarint_roundTrip`). -/
namespace FuzzerTestSuite.Sqlite
open Library.Fields

/-! ### The reader -/

def slot_2_0 : UInt32 := 0x001fc07f

def slot_4_2_0 : UInt32 := 0xf01fc07f

/-- `*v` and the number of bytes read; `none` is a read past the end of the memory at `p`. -/
def sqlite3GetVarint (p : List UInt8) : Option (UInt64 × Nat) := do
  let a := (← p[0]?).toUInt32
  if a &&& 0x80 = 0 then return (a.toUInt64, 1)
  let b := (← p[1]?).toUInt32
  if b &&& 0x80 = 0 then
    return ((((a &&& 0x7f) <<< 7) ||| b).toUInt64, 2)
  -- a: p0<<14 | p2 (unmasked)
  let a := a <<< 14 ||| (← p[2]?).toUInt32
  if a &&& 0x80 = 0 then
    return ((a &&& slot_2_0 ||| (b &&& 0x7f) <<< 7).toUInt64, 3)
  let a := a &&& slot_2_0
  -- b: p1<<14 | p3 (unmasked)
  let b := b <<< 14 ||| (← p[3]?).toUInt32
  if b &&& 0x80 = 0 then
    return ((a <<< 7 ||| b &&& slot_2_0).toUInt64, 4)
  let b := b &&& slot_2_0
  let s := a
  -- a: p0<<28 | p2<<14 | p4 (unmasked)
  let a := a <<< 14 ||| (← p[4]?).toUInt32
  if a &&& 0x80 = 0 then
    return ((s >>> 18).toUInt64 <<< 32 ||| (a ||| b <<< 7).toUInt64, 5)
  -- s: p0<<21 | p1<<14 | p2<<7 | p3 (masked)
  let s := s <<< 7 ||| b
  -- b: p1<<28 | p3<<14 | p5 (unmasked)
  let b := b <<< 14 ||| (← p[5]?).toUInt32
  if b &&& 0x80 = 0 then
    return ((s >>> 18).toUInt64 <<< 32 ||| ((a &&& slot_2_0) <<< 7 ||| b).toUInt64, 6)
  -- a: p2<<28 | p4<<14 | p6 (unmasked)
  let a := a <<< 14 ||| (← p[6]?).toUInt32
  if a &&& 0x80 = 0 then
    return ((s >>> 11).toUInt64 <<< 32 ||| (a &&& slot_4_2_0 ||| (b &&& slot_2_0) <<< 7).toUInt64, 7)
  let a := a &&& slot_2_0
  -- b: p3<<28 | p5<<14 | p7 (unmasked)
  let b := b <<< 14 ||| (← p[7]?).toUInt32
  if b &&& 0x80 = 0 then
    return ((s >>> 4).toUInt64 <<< 32 ||| (a <<< 7 ||| b &&& slot_4_2_0).toUInt64, 8)
  -- a: p4<<29 | p6<<15 | p8 (unmasked)
  let a := a <<< 15 ||| (← p[8]?).toUInt32
  let a := a ||| (b &&& slot_2_0) <<< 8
  let s := s <<< 4 ||| ((← p[4]?).toUInt32 &&& 0x7f) >>> 3
  return (s.toUInt64 <<< 32 ||| a.toUInt64, 9)

/-- The format, read byte by byte: `left` bytes may still come before the one of eight bits. -/
def plainGet : Nat → Nat → List UInt8 → Option (Nat × Nat)
  | _, _, [] => none
  | 0, acc, b :: _ => some (256 * acc + b.toNat, 1)
  | left + 1, acc, b :: p =>
    if b.toNat < 128 then some (128 * acc + b.toNat, 1)
    else (plainGet left (128 * acc + (b.toNat - 128)) p).map fun (v, n) => (v, n + 1)

def plainGetVarint (p : List UInt8) : Option (Nat × Nat) := plainGet 8 0 p

/-! ### Words of seven-bit groups -/

/-- A 32-bit word of four groups and a half, the lowest first. -/
structure Groups (w : UInt32) (d₀ d₁ d₂ d₃ d₄ : Nat) : Prop where
  value : w.toNat = pack 7 d₀ (pack 7 d₁ (pack 7 d₂ (pack 7 d₃ d₄)))
  h₀ : d₀ < 2 ^ 7
  h₁ : d₁ < 2 ^ 7
  h₂ : d₂ < 2 ^ 7
  h₃ : d₃ < 2 ^ 7

section Groups
variable {w w' : UInt32} {d₀ d₁ d₂ d₃ d₄ e₀ e₁ e₂ e₃ e₄ : Nat}

theorem Groups.or (h : Groups w d₀ d₁ d₂ d₃ d₄) (h' : Groups w' e₀ e₁ e₂ e₃ e₄) :
    Groups (w ||| w') (d₀ ||| e₀) (d₁ ||| e₁) (d₂ ||| e₂) (d₃ ||| e₃) (d₄ ||| e₄) where
  value := by
    rw [UInt32.toNat_or, h.value, h'.value, pack_or h.h₀ h'.h₀, pack_or h.h₁ h'.h₁, pack_or h.h₂ h'.h₂,
      pack_or h.h₃ h'.h₃]
  h₀ := Nat.or_lt_two_pow h.h₀ h'.h₀
  h₁ := Nat.or_lt_two_pow h.h₁ h'.h₁
  h₂ := Nat.or_lt_two_pow h.h₂ h'.h₂
  h₃ := Nat.or_lt_two_pow h.h₃ h'.h₃

theorem Groups.and (h : Groups w d₀ d₁ d₂ d₃ d₄) (h' : Groups w' e₀ e₁ e₂ e₃ e₄) :
    Groups (w &&& w') (d₀ &&& e₀) (d₁ &&& e₁) (d₂ &&& e₂) (d₃ &&& e₃) (d₄ &&& e₄) where
  value := by
    rw [UInt32.toNat_and, h.value, h'.value, pack_and h.h₀ h'.h₀, pack_and h.h₁ h'.h₁, pack_and h.h₂ h'.h₂,
      pack_and h.h₃ h'.h₃]
  h₀ := Nat.and_lt_two_pow _ h'.h₀
  h₁ := Nat.and_lt_two_pow _ h'.h₁
  h₂ := Nat.and_lt_two_pow _ h'.h₂
  h₃ := Nat.and_lt_two_pow _ h'.h₃

theorem Groups.shl7 (h : Groups w d₀ d₁ d₂ d₃ d₄) : Groups (w <<< 7) 0 d₀ d₁ d₂ (d₃ % 16) where
  value := by
    have hshift : (w <<< 7).toNat = pack 7 0 w.toNat % 2 ^ (7 + (7 + (7 + (7 + 4)))) := by
      rw [UInt32.toNat_shiftLeft, ← shiftLeft_pack]
      rfl
    rw [hshift, h.value, pack_mod (by decide), pack_mod h.h₀, pack_mod h.h₁, pack_mod h.h₂]
    have hlow : pack 7 d₃ d₄ % 2 ^ 4 = d₃ % 16 := by
      simp only [pack]
      omega
    rw [hlow]
  h₀ := by decide
  h₁ := h.h₀
  h₂ := h.h₁
  h₃ := h.h₂

/-- A byte: its seven low bits, and its top bit as a group. -/
theorem groups_byte (b : UInt8) : Groups b.toUInt32 (b.toNat % 128) (b.toNat / 128) 0 0 0 where
  value := by
    rw [UInt8.toNat_toUInt32]
    simp only [pack]
    omega
  h₀ := Nat.mod_lt _ (by decide)
  h₁ := by
    have := b.toNat_lt
    omega
  h₂ := by decide
  h₃ := by decide

theorem Groups.shl14 (h : Groups w d₀ d₁ d₂ d₃ d₄) : Groups (w <<< 14) 0 0 d₀ d₁ (d₂ % 16) where
  value := by
    have hshift : (w <<< 14).toNat = pack 7 0 (pack 7 0 w.toNat) % 2 ^ (7 + (7 + (7 + (7 + 4)))) := by
      have hpack : pack 14 0 w.toNat = pack 7 0 (pack 7 0 w.toNat) := by
        simp only [pack]
        omega
      rw [UInt32.toNat_shiftLeft, ← hpack, ← shiftLeft_pack]
      rfl
    rw [hshift, h.value, pack_mod (by decide), pack_mod (by decide), pack_mod h.h₀, pack_mod h.h₁]
    have hlow : pack 7 d₂ (pack 7 d₃ d₄) % 2 ^ 4 = d₂ % 16 := by
      simp only [pack]
      omega
    rw [hlow]
  h₀ := by decide
  h₁ := by decide
  h₂ := h.h₀
  h₃ := h.h₁

/-- `x<<14 | *p` -/
theorem Groups.next (h : Groups w d₀ d₁ d₂ d₃ d₄) (b : UInt8) :
    Groups (w <<< 14 ||| b.toUInt32) (b.toNat % 128) (b.toNat / 128) d₀ d₁ (d₂ % 16) := by
  have hor := h.shl14.or (groups_byte b)
  rwa [Nat.zero_or, Nat.zero_or, Nat.or_zero, Nat.or_zero, Nat.or_zero] at hor

/-- A flag that is set is a group of one. -/
theorem flag_set {b : UInt8} (h : ¬b.toNat < 128) : b.toNat / 128 = 1 := by
  have := b.toNat_lt
  omega

theorem group_and {d : Nat} (h : d < 2 ^ 7) : d &&& 127 = d := and_ones h

theorem Groups.mask_2_0 (h : Groups w d₀ d₁ d₂ d₃ d₄) : Groups (w &&& slot_2_0) d₀ 0 d₂ 0 0 := by
  have hand := h.and (⟨rfl, by decide, by decide, by decide, by decide⟩ : Groups slot_2_0 127 0 127 0 0)
  rwa [group_and h.h₀, group_and h.h₂, Nat.and_zero, Nat.and_zero, Nat.and_zero] at hand

theorem Groups.mask_4_2_0 (h : Groups w d₀ d₁ d₂ d₃ (d₄ % 16)) :
    Groups (w &&& slot_4_2_0) d₀ 0 d₂ 0 (d₄ % 16) := by
  have hand := h.and (⟨rfl, by decide, by decide, by decide, by decide⟩ : Groups slot_4_2_0 127 0 127 0 15)
  have htop : d₄ % 16 &&& 15 = d₄ % 16 := and_ones (k := 4) (Nat.mod_lt _ (by decide))
  rwa [group_and h.h₀, group_and h.h₂, Nat.and_zero, Nat.and_zero, htop] at hand

theorem Groups.mask_0 (h : Groups w d₀ d₁ d₂ d₃ d₄) : Groups (w &&& 0x7f) d₀ 0 0 0 0 := by
  have hand := h.and (⟨rfl, by decide, by decide, by decide, by decide⟩ : Groups 0x7f 127 0 0 0 0)
  rwa [group_and h.h₀, Nat.and_zero, Nat.and_zero, Nat.and_zero, Nat.and_zero] at hand

/-- Groups at even places, and groups at odd ones. -/
theorem Groups.merge (h : Groups w d₀ 0 d₂ 0 d₄) (h' : Groups w' 0 e₁ 0 e₃ 0) :
    Groups (w ||| w') d₀ e₁ d₂ e₃ d₄ := by
  have hor := h.or h'
  rwa [Nat.or_zero, Nat.zero_or, Nat.or_zero, Nat.zero_or, Nat.or_zero] at hor

/-- The flag of the byte read last. -/
theorem Groups.flag (h : Groups w d₀ (d₁ / 128) d₂ d₃ d₄) (hd : d₁ < 256) : w &&& 0x80 = 0 ↔ d₁ < 128 := by
  have hand := h.and (⟨rfl, by decide, by decide, by decide, by decide⟩ : Groups 0x80 0 1 0 0 0)
  have hbit : d₁ / 128 &&& 1 = d₁ / 128 := and_ones (k := 1) (by omega)
  have hvalue := hand.value
  rw [Nat.and_zero, Nat.and_zero, Nat.and_zero, Nat.and_zero, hbit] at hvalue
  simp only [pack] at hvalue
  rw [← UInt32.toNat_inj, hvalue]
  show 0 + 2 ^ 7 * (d₁ / 128 + 2 ^ 7 * (0 + 2 ^ 7 * (0 + 2 ^ 7 * 0))) = 0 ↔ d₁ < 128
  omega

end Groups

/-- `((u64)s)<<32 | a` -/
theorem join_toNat (s a : UInt32) :
    (s.toUInt64 <<< 32 ||| a.toUInt64).toNat = 2 ^ 32 * s.toNat + a.toNat := by
  have hs := s.toNat_lt
  have hshift : (s.toUInt64 <<< 32).toNat = pack 32 0 s.toNat := by
    rw [UInt64.toNat_shiftLeft, UInt32.toNat_toUInt64]
    show s.toNat <<< 32 % 2 ^ 64 = pack 32 0 s.toNat
    rw [shiftLeft_pack, Nat.mod_eq_of_lt (pack_lt (j := 32) (by decide) hs)]
  have hlow : a.toUInt64.toNat = pack 32 a.toNat 0 := by rw [UInt32.toNat_toUInt64]; rfl
  rw [UInt64.toNat_or, hshift, hlow, pack_or (by decide) a.toNat_lt, Nat.zero_or, Nat.or_zero, pack]
  exact Nat.add_comm ..

theorem shiftRight_toNat (s : UInt32) {n : UInt32} (hn : n.toNat < 32) :
    (s >>> n).toNat = s.toNat / 2 ^ n.toNat := by
  rw [UInt32.toNat_shiftRight, Nat.mod_eq_of_lt hn, Nat.shiftRight_eq_div_pow]

/-- The ninth byte goes below the groups of the four bytes before it, eight bits wide. -/
theorem ninth_low {a b : UInt32} {x₄ x₅ x₆ x₇ : Nat} (ha : Groups a x₆ 0 x₄ 0 0) (hb : Groups b x₇ 0 x₅ 0 0)
    (p₈ : UInt8) :
    (a <<< 15 ||| p₈.toUInt32 ||| b <<< 8).toNat =
      p₈.toNat + 2 ^ 8 * x₇ + 2 ^ 15 * x₆ + 2 ^ 22 * x₅ + 2 ^ 29 * (x₄ % 8) := by
  have hx₄ := ha.h₂
  have hx₅ := hb.h₂
  have hx₆ := ha.h₀
  have hx₇ := hb.h₀
  have h₈ : p₈.toNat < 2 ^ 8 := p₈.toNat_lt
  have h15 : (a <<< 15).toNat = pack 8 0 (pack 7 0 (pack 7 x₆ (pack 7 0 (x₄ % 8)))) := by
    rw [UInt32.toNat_shiftLeft, ha.value]
    show pack 7 x₆ (pack 7 0 (pack 7 x₄ (pack 7 0 0))) <<< 15 % 2 ^ 32 = _
    rw [Nat.shiftLeft_eq]
    simp only [pack]
    omega
  have h8 : (b <<< 8).toNat = pack 8 0 (pack 7 x₇ (pack 7 0 (pack 7 x₅ 0))) := by
    rw [UInt32.toNat_shiftLeft, hb.value]
    show pack 7 x₇ (pack 7 0 (pack 7 x₅ (pack 7 0 0))) <<< 8 % 2 ^ 32 = _
    rw [Nat.shiftLeft_eq]
    simp only [pack]
    omega
  have hp : p₈.toUInt32.toNat = pack 8 p₈.toNat 0 := by
    rw [UInt8.toNat_toUInt32]
    rfl
  have hzero : 0 < 2 ^ 7 := by decide
  rw [UInt32.toNat_or, UInt32.toNat_or, h15, h8, hp, pack_or (by decide) h₈, Nat.zero_or, Nat.or_zero,
    pack_or h₈ (by decide), Nat.or_zero, pack_or hzero hx₇, Nat.zero_or, pack_or hx₆ hzero, Nat.or_zero,
    pack_or hzero hx₅, Nat.zero_or, Nat.or_zero]
  simp only [pack]
  omega

/-- The four high bits of the fifth byte's group go below the first four groups. -/
theorem ninth_high {s : UInt32} {x₀ x₁ x₂ x₃ : Nat} (hs : Groups s x₃ x₂ x₁ x₀ 0) (p₄ : UInt8) :
    (s <<< 4 ||| (p₄.toUInt32 &&& 0x7f) >>> 3).toNat = 16 * s.toNat + p₄.toNat % 128 / 8 := by
  have hlow : ((p₄.toUInt32 &&& 0x7f) >>> 3).toNat = pack 4 (p₄.toNat % 128 / 8) 0 := by
    rw [shiftRight_toNat _ (by decide), (groups_byte p₄).mask_0.value]
    rfl
  have hlt : s.toNat < 2 ^ 28 := by
    have := hs.h₀
    have := hs.h₁
    have := hs.h₂
    have := hs.h₃
    rw [hs.value]
    simp only [pack]
    omega
  have hhigh : (s <<< 4).toNat = pack 4 0 s.toNat := by
    rw [UInt32.toNat_shiftLeft]
    show s.toNat <<< 4 % 2 ^ 32 = _
    rw [shiftLeft_pack, Nat.mod_eq_of_lt (pack_lt (j := 28) (by decide) hlt)]
  rw [UInt32.toNat_or, hhigh, hlow, pack_or (by decide) (by omega), Nat.zero_or, Nat.or_zero, pack]
  omega

/-! ### The unrolled reader reads the format -/

/-- A result as numbers. -/
def varintNat (r : UInt64 × Nat) : Nat × Nat := (r.1.toNat, r.2)

theorem plainGet_last {left acc : Nat} {b : UInt8} (h : b.toNat < 128) (p : List UInt8) :
    plainGet (left + 1) acc (b :: p) = some (128 * acc + b.toNat, 1) := if_pos h

theorem plainGet_more {left acc : Nat} {b : UInt8} (h : ¬b.toNat < 128) (p : List UInt8) :
    plainGet (left + 1) acc (b :: p) =
      (plainGet left (128 * acc + b.toNat % 128) p).map fun r => (r.1, r.2 + 1) := by
  have hb : b.toNat - 128 = b.toNat % 128 := by
    have := b.toNat_lt
    omega
  rw [← hb]
  exact if_neg h

/-- A long result is right if its two halves make it up. -/
theorem some_join {s a : UInt32} {v n : Nat} (h : 2 ^ 32 * s.toNat + a.toNat = v) :
    (some (s.toUInt64 <<< 32 ||| a.toUInt64, n)).map varintNat = some (v, n) := by
  rw [Option.map_some, varintNat, join_toNat, h]

theorem some_word {a : UInt32} {v n : Nat} (h : a.toNat = v) :
    (some (a.toUInt64, n)).map varintNat = some (v, n) := by
  rw [Option.map_some, varintNat, UInt32.toNat_toUInt64, h]

/-- The unrolled reader after six bytes with their flag set, on the bytes that follow. -/
def getVarintTail (p₄ : UInt8) (s a b : UInt32) (p : List UInt8) : Option (UInt64 × Nat) := do
  let a := a <<< 14 ||| (← p[0]?).toUInt32
  if a &&& 0x80 = 0 then
    return ((s >>> 11).toUInt64 <<< 32 ||| (a &&& slot_4_2_0 ||| (b &&& slot_2_0) <<< 7).toUInt64, 7)
  let a := a &&& slot_2_0
  let b := b <<< 14 ||| (← p[1]?).toUInt32
  if b &&& 0x80 = 0 then
    return ((s >>> 4).toUInt64 <<< 32 ||| (a <<< 7 ||| b &&& slot_4_2_0).toUInt64, 8)
  let a := a <<< 15 ||| (← p[2]?).toUInt32
  let a := a ||| (b &&& slot_2_0) <<< 8
  let s := s <<< 4 ||| (p₄.toUInt32 &&& 0x7f) >>> 3
  return (s.toUInt64 <<< 32 ||| a.toUInt64, 9)

/-- And after four. -/
def getVarintRest (a b : UInt32) (p : List UInt8) : Option (UInt64 × Nat) := do
  let s := a
  let p₄ ← p[0]?
  let a := a <<< 14 ||| p₄.toUInt32
  if a &&& 0x80 = 0 then
    return ((s >>> 18).toUInt64 <<< 32 ||| (a ||| b <<< 7).toUInt64, 5)
  let s := s <<< 7 ||| b
  let b := b <<< 14 ||| (← p[1]?).toUInt32
  if b &&& 0x80 = 0 then
    return ((s >>> 18).toUInt64 <<< 32 ||| ((a &&& slot_2_0) <<< 7 ||| b).toUInt64, 6)
  getVarintTail p₄ s a b (p.drop 2)

section Stages
variable {s a b : UInt32} {x₀ x₁ x₂ x₃ : Nat}

theorem getVarintTail_plain (hs : Groups s x₃ x₂ x₁ x₀ 0) {p₄ : UInt8} {x₅ : Nat}
    (ha : Groups a (p₄.toNat % 128) 1 x₂ 0 (x₀ % 16)) (hb : Groups b x₅ 1 x₃ 0 (x₁ % 16)) (p : List UInt8) :
    (getVarintTail p₄ s a b p).map varintNat =
      (plainGet 2 (2 ^ 35 * x₀ + 2 ^ 28 * x₁ + 2 ^ 21 * x₂ + 2 ^ 14 * x₃ + 2 ^ 7 * (p₄.toNat % 128) + x₅) p).map
        fun r => (r.1, r.2 + 6) := by
  have hx₀ := hs.h₃
  have hx₁ := hs.h₂
  have hx₂ := hs.h₁
  have hx₃ := hs.h₀
  cases p with
  | nil => rfl
  | cons p₆ p =>
    have ha₁ := ha.next p₆
    have hf₆ := ha₁.flag p₆.toNat_lt
    simp only [getVarintTail, List.getElem?_cons_zero, List.getElem?_cons_succ, Option.bind_eq_bind,
      Option.bind_some]
    generalize a <<< 14 ||| p₆.toUInt32 = a₁ at ha₁ hf₆ ⊢
    by_cases h₆ : p₆.toNat < 128
    · have hv : Groups (a₁ &&& slot_4_2_0 ||| (b &&& slot_2_0) <<< 7) p₆.toNat x₅ (p₄.toNat % 128) x₃ (x₂ % 16) := by
        rw [Nat.mod_eq_of_lt h₆] at ha₁
        exact ha₁.mask_4_2_0.merge hb.mask_2_0.shl7
      have hshift : (s >>> 11).toNat = s.toNat / 2 ^ 11 := shiftRight_toNat s (by decide)
      rw [if_pos (hf₆.mpr h₆), plainGet_last h₆]
      refine some_join ?_
      rw [hshift, hs.value, hv.value]
      simp only [pack]
      omega
    · rw [if_neg (hf₆.not.mpr h₆), plainGet_more h₆]
      cases p with
      | nil => rfl
      | cons p₇ p =>
        have hb₁ := hb.next p₇
        have hf₇ := hb₁.flag p₇.toNat_lt
        simp only [List.getElem?_cons_zero, List.getElem?_cons_succ, Option.bind_some]
        generalize b <<< 14 ||| p₇.toUInt32 = b₁ at hb₁ hf₇ ⊢
        by_cases h₇ : p₇.toNat < 128
        · have hv : Groups ((a₁ &&& slot_2_0) <<< 7 ||| b₁ &&& slot_4_2_0) p₇.toNat (p₆.toNat % 128) x₅
              (p₄.toNat % 128) (x₃ % 16) := by
            rw [Nat.mod_eq_of_lt h₇] at hb₁
            rw [UInt32.or_comm]
            exact hb₁.mask_4_2_0.merge ha₁.mask_2_0.shl7
          have hshift : (s >>> 4).toNat = s.toNat / 2 ^ 4 := shiftRight_toNat s (by decide)
          rw [if_pos (hf₇.mpr h₇), plainGet_last h₇]
          refine some_join ?_
          rw [hshift, hs.value, hv.value]
          simp only [pack]
          omega
        · rw [if_neg (hf₇.not.mpr h₇), plainGet_more h₇]
          cases p with
          | nil => rfl
          | cons p₈ p =>
            simp only [List.getElem?_cons_zero, Option.bind_some]
            refine some_join ?_
            rw [ninth_high hs, ninth_low ha₁.mask_2_0 hb₁.mask_2_0, hs.value]
            simp only [pack]
            omega

theorem getVarintRest_plain (ha : Groups a x₂ 0 x₀ 0 0) (hb : Groups b x₃ 0 x₁ 0 0) (p : List UInt8) :
    (getVarintRest a b p).map varintNat =
      (plainGet 4 (2 ^ 21 * x₀ + 2 ^ 14 * x₁ + 2 ^ 7 * x₂ + x₃) p).map fun r => (r.1, r.2 + 4) := by
  have hs : Groups (a <<< 7 ||| b) x₃ x₂ x₁ x₀ 0 := by
    rw [UInt32.or_comm]
    exact hb.merge ha.shl7
  have hx₀ := ha.h₂
  have hx₁ := hb.h₂
  have hx₂ := ha.h₀
  have hx₃ := hb.h₀
  cases p with
  | nil => rfl
  | cons p₄ p =>
    have ha₁ := ha.next p₄
    have hf₄ := ha₁.flag p₄.toNat_lt
    simp only [getVarintRest, List.getElem?_cons_zero, List.getElem?_cons_succ, Option.bind_eq_bind,
      Option.bind_some]
    generalize a <<< 14 ||| p₄.toUInt32 = a₁ at ha₁ hf₄ ⊢
    by_cases h₄ : p₄.toNat < 128
    · have hv : Groups (a₁ ||| b <<< 7) p₄.toNat x₃ x₂ x₁ (x₀ % 16) := by
        rw [Nat.mod_eq_of_lt h₄, Nat.div_eq_of_lt h₄] at ha₁
        exact ha₁.merge hb.shl7
      have hshift : (a >>> 18).toNat = a.toNat / 2 ^ 18 := shiftRight_toNat a (by decide)
      rw [if_pos (hf₄.mpr h₄), plainGet_last h₄]
      refine some_join ?_
      rw [hshift, ha.value, hv.value]
      simp only [pack]
      omega
    · rw [if_neg (hf₄.not.mpr h₄), plainGet_more h₄]
      generalize a <<< 7 ||| b = s at hs
      cases p with
      | nil => rfl
      | cons p₅ p =>
        have hb₁ := hb.next p₅
        have hf₅ := hb₁.flag p₅.toNat_lt
        simp only [List.getElem?_cons_zero, Option.bind_some]
        generalize b <<< 14 ||| p₅.toUInt32 = b₁ at hb₁ hf₅ ⊢
        by_cases h₅ : p₅.toNat < 128
        · have hv : Groups ((a₁ &&& slot_2_0) <<< 7 ||| b₁) p₅.toNat (p₄.toNat % 128) x₃ x₂ (x₁ % 16) := by
            rw [Nat.mod_eq_of_lt h₅, Nat.div_eq_of_lt h₅] at hb₁
            rw [UInt32.or_comm]
            exact hb₁.merge ha₁.mask_2_0.shl7
          have hshift : (s >>> 18).toNat = s.toNat / 2 ^ 18 := shiftRight_toNat s (by decide)
          have hx₄ := ha₁.h₀
          rw [if_pos (hf₅.mpr h₅), plainGet_last h₅]
          refine some_join ?_
          rw [hshift, hs.value, hv.value]
          simp only [pack]
          omega
        · rw [if_neg (hf₅.not.mpr h₅), plainGet_more h₅]
          rw [flag_set h₄] at ha₁
          rw [flag_set h₅] at hb₁
          have hacc : 128 * (128 * (2 ^ 21 * x₀ + 2 ^ 14 * x₁ + 2 ^ 7 * x₂ + x₃) + p₄.toNat % 128) + p₅.toNat % 128 =
              2 ^ 35 * x₀ + 2 ^ 28 * x₁ + 2 ^ 21 * x₂ + 2 ^ 14 * x₃ + 2 ^ 7 * (p₄.toNat % 128) + p₅.toNat % 128 := by
            omega
          rw [List.drop_succ_cons, List.drop_succ_cons, List.drop_zero, getVarintTail_plain hs ha₁ hb₁, hacc,
            Option.map_map, Option.map_map]
          rfl

end Stages

theorem byte_flag (b : UInt8) : b.toUInt32 &&& 0x80 = 0 ↔ b.toNat < 128 := (groups_byte b).flag b.toNat_lt

theorem pair_flag (b c : UInt8) : (b.toUInt32 <<< 14 ||| c.toUInt32) &&& 0x80 = 0 ↔ c.toNat < 128 :=
  ((groups_byte b).next c).flag c.toNat_lt

section Unrolled
variable {p₀ p₁ p₂ p₃ : UInt8}

theorem getVarint_one (h₀ : p₀.toNat < 128) (p : List UInt8) :
    sqlite3GetVarint (p₀ :: p) = some (p₀.toUInt32.toUInt64, 1) := if_pos ((byte_flag p₀).mpr h₀)

variable (h₀ : ¬p₀.toNat < 128)
include h₀

theorem getVarint_end₁ : sqlite3GetVarint [p₀] = none := (if_neg ((byte_flag p₀).not.mpr h₀)).trans rfl

theorem getVarint_two (h₁ : p₁.toNat < 128) (p : List UInt8) :
    sqlite3GetVarint (p₀ :: p₁ :: p) = some (((p₀.toUInt32 &&& 0x7f) <<< 7 ||| p₁.toUInt32).toUInt64, 2) :=
  (if_neg ((byte_flag p₀).not.mpr h₀)).trans (if_pos ((byte_flag p₁).mpr h₁))

variable (h₁ : ¬p₁.toNat < 128)
include h₁

theorem getVarint_end₂ : sqlite3GetVarint [p₀, p₁] = none :=
  (if_neg ((byte_flag p₀).not.mpr h₀)).trans ((if_neg ((byte_flag p₁).not.mpr h₁)).trans rfl)

theorem getVarint_three (h₂ : p₂.toNat < 128) (p : List UInt8) :
    sqlite3GetVarint (p₀ :: p₁ :: p₂ :: p) =
      some (((p₀.toUInt32 <<< 14 ||| p₂.toUInt32) &&& slot_2_0 ||| (p₁.toUInt32 &&& 0x7f) <<< 7).toUInt64, 3) :=
  (if_neg ((byte_flag p₀).not.mpr h₀)).trans
    ((if_neg ((byte_flag p₁).not.mpr h₁)).trans (if_pos ((pair_flag p₀ p₂).mpr h₂)))

variable (h₂ : ¬p₂.toNat < 128)
include h₂

theorem getVarint_end₃ : sqlite3GetVarint [p₀, p₁, p₂] = none :=
  (if_neg ((byte_flag p₀).not.mpr h₀)).trans
    ((if_neg ((byte_flag p₁).not.mpr h₁)).trans ((if_neg ((pair_flag p₀ p₂).not.mpr h₂)).trans rfl))

theorem getVarint_four (h₃ : p₃.toNat < 128) (p : List UInt8) :
    sqlite3GetVarint (p₀ :: p₁ :: p₂ :: p₃ :: p) =
      some ((((p₀.toUInt32 <<< 14 ||| p₂.toUInt32) &&& slot_2_0) <<< 7 |||
        (p₁.toUInt32 <<< 14 ||| p₃.toUInt32) &&& slot_2_0).toUInt64, 4) :=
  (if_neg ((byte_flag p₀).not.mpr h₀)).trans
    ((if_neg ((byte_flag p₁).not.mpr h₁)).trans
      ((if_neg ((pair_flag p₀ p₂).not.mpr h₂)).trans (if_pos ((pair_flag p₁ p₃).mpr h₃))))

/-- With four flags set, the reader is in its later stages. -/
theorem getVarint_rest (h₃ : ¬p₃.toNat < 128) (p : List UInt8) :
    sqlite3GetVarint (p₀ :: p₁ :: p₂ :: p₃ :: p) =
      getVarintRest ((p₀.toUInt32 <<< 14 ||| p₂.toUInt32) &&& slot_2_0)
        ((p₁.toUInt32 <<< 14 ||| p₃.toUInt32) &&& slot_2_0) p := by
  refine (if_neg ((byte_flag p₀).not.mpr h₀)).trans ((if_neg ((byte_flag p₁).not.mpr h₁)).trans
    ((if_neg ((pair_flag p₀ p₂).not.mpr h₂)).trans ((if_neg ((pair_flag p₁ p₃).not.mpr h₃)).trans ?_)))
  match p with
  | [] => rfl
  | [p₄] =>
    simp only [getVarintRest, List.getElem?_cons_zero, List.getElem?_cons_succ, List.getElem?_nil,
      Option.bind_eq_bind, Option.bind_some, Option.bind_none]
  | p₄ :: p₅ :: p =>
    simp only [getVarintRest, getVarintTail, List.getElem?_cons_zero, List.getElem?_cons_succ,
      Option.bind_eq_bind, Option.bind_some, List.drop_succ_cons, List.drop_zero]

end Unrolled

section Values
variable {p₀ p₁ p₂ p₃ : UInt8}

theorem two_value (h₁ : p₁.toNat < 128) :
    ((p₀.toUInt32 &&& 0x7f) <<< 7 ||| p₁.toUInt32).toNat = 128 * (p₀.toNat % 128) + p₁.toNat := by
  have hb := groups_byte p₁
  rw [Nat.mod_eq_of_lt h₁, Nat.div_eq_of_lt h₁] at hb
  have hv : Groups ((p₀.toUInt32 &&& 0x7f) <<< 7 ||| p₁.toUInt32) p₁.toNat (p₀.toNat % 128) 0 0 0 := by
    rw [UInt32.or_comm]
    exact hb.merge (groups_byte p₀).mask_0.shl7
  rw [hv.value]
  simp only [pack]
  omega

theorem three_value (h₂ : p₂.toNat < 128) :
    ((p₀.toUInt32 <<< 14 ||| p₂.toUInt32) &&& slot_2_0 ||| (p₁.toUInt32 &&& 0x7f) <<< 7).toNat =
      128 * (128 * (p₀.toNat % 128) + p₁.toNat % 128) + p₂.toNat := by
  have ha := (groups_byte p₀).next p₂
  rw [Nat.mod_eq_of_lt h₂] at ha
  have hv := ha.mask_2_0.merge (groups_byte p₁).mask_0.shl7
  rw [hv.value]
  simp only [pack]
  omega

theorem four_value (h₃ : p₃.toNat < 128) :
    (((p₀.toUInt32 <<< 14 ||| p₂.toUInt32) &&& slot_2_0) <<< 7 |||
        (p₁.toUInt32 <<< 14 ||| p₃.toUInt32) &&& slot_2_0).toNat =
      128 * (128 * (128 * (p₀.toNat % 128) + p₁.toNat % 128) + p₂.toNat % 128) + p₃.toNat := by
  have ha := (groups_byte p₀).next p₂
  have hb := (groups_byte p₁).next p₃
  rw [Nat.mod_eq_of_lt h₃] at hb
  have hv := hb.mask_2_0.merge ha.mask_2_0.shl7
  rw [UInt32.or_comm, hv.value]
  simp only [pack]
  omega

end Values

/-- The unrolled reader reads the format. -/
theorem getVarint_plain (p : List UInt8) : (sqlite3GetVarint p).map varintNat = plainGetVarint p := by
  unfold plainGetVarint
  cases p with
  | nil => rfl
  | cons p₀ p =>
    by_cases h₀ : p₀.toNat < 128
    · rw [plainGet_last h₀, getVarint_one h₀, Nat.mul_zero, Nat.zero_add]
      exact some_word p₀.toNat_toUInt32
    · rw [plainGet_more h₀, Nat.mul_zero, Nat.zero_add]
      cases p with
      | nil =>
        rw [getVarint_end₁ h₀]
        rfl
      | cons p₁ p =>
        by_cases h₁ : p₁.toNat < 128
        · rw [plainGet_last h₁, getVarint_two h₀ h₁]
          exact some_word (two_value h₁)
        · rw [plainGet_more h₁]
          cases p with
          | nil =>
            rw [getVarint_end₂ h₀ h₁]
            rfl
          | cons p₂ p =>
            by_cases h₂ : p₂.toNat < 128
            · rw [plainGet_last h₂, getVarint_three h₀ h₁ h₂]
              exact some_word (three_value h₂)
            · rw [plainGet_more h₂]
              cases p with
              | nil =>
                rw [getVarint_end₃ h₀ h₁ h₂]
                rfl
              | cons p₃ p =>
                by_cases h₃ : p₃.toNat < 128
                · rw [plainGet_last h₃, getVarint_four h₀ h₁ h₂ h₃]
                  exact some_word (four_value h₃)
                · have ha := (groups_byte p₀).next p₂
                  have hb := (groups_byte p₁).next p₃
                  have hacc : 128 * (128 * (128 * (p₀.toNat % 128) + p₁.toNat % 128) + p₂.toNat % 128) +
                      p₃.toNat % 128 =
                      2 ^ 21 * (p₀.toNat % 128) + 2 ^ 14 * (p₁.toNat % 128) + 2 ^ 7 * (p₂.toNat % 128) +
                        p₃.toNat % 128 := by
                    omega
                  rw [getVarint_rest h₀ h₁ h₂ h₃, getVarintRest_plain ha.mask_2_0 hb.mask_2_0,
                    plainGet_more h₃, hacc]
                  simp only [Option.map_map]
                  rfl

/-! ### The 32-bit reader -/

/-- Reached through the macro alone, with the one-byte case handled. -/
def sqlite3GetVarint32 (p : List UInt8) : Option (UInt32 × Nat) := do
  let a := (← p[0]?).toUInt32
  let b := (← p[1]?).toUInt32
  if b &&& 0x80 = 0 then
    return ((a &&& 0x7f) <<< 7 ||| b, 2)
  let a := a <<< 14 ||| (← p[2]?).toUInt32
  if a &&& 0x80 = 0 then
    return (a &&& ((0x7f : UInt32) <<< 14 ||| (0x7f : UInt32)) ||| (b &&& 0x7f) <<< 7, 3)
  let (v64, n) ← sqlite3GetVarint p
  if v64 &&& 0xffffffff ≠ v64 then
    return (0xffffffff, n)
  else
    return (v64.toUInt32, n)

/-- The macro. -/
def getVarint32 (p : List UInt8) : Option (UInt32 × Nat) := do
  let a ← p[0]?
  if a < 0x80 then return (a.toUInt32, 1)
  sqlite3GetVarint32 p

/-! ### The writer -/

/-- `(u8)((v & 0x7f) | 0x80)` -/
def putByte (v : UInt64) : UInt8 := (v &&& 0x7f ||| 0x80).toUInt8

/-- `for(i=n-1; i>=0; i--)` -/
def putGroups : Nat → UInt64 → List UInt8
  | 0, _ => []
  | n + 1, v => putGroups n (v >>> 7) ++ [putByte v]

/-- The do-while that fills `buf`; `none` is a byte past the room there. -/
def putBuf : Nat → UInt64 → Option (List UInt8)
  | 0, _ => none
  | room + 1, v =>
    if v >>> 7 = 0 then some [putByte v]
    else (putBuf room (v >>> 7)).map (putByte v :: ·)

/-- `buf[0] &= 0x7f` -/
def clearFlag : List UInt8 → List UInt8
  | [] => []
  | b :: buf => (b &&& 0x7f) :: buf

/-- `none` is a write past `buf`, or its assertion failing. -/
def putVarint64 (v : UInt64) : Option (List UInt8) := do
  if v &&& (0xff000000 : UInt64) <<< 32 ≠ 0 then
    return putGroups 8 (v >>> 8) ++ [v.toUInt8]
  let buf ← putBuf 10 v
  guard (buf.length ≤ 9)
  return (clearFlag buf).reverse

def sqlite3PutVarint (v : UInt64) : Option (List UInt8) :=
  if v ≤ 0x7f then some [(v &&& 0x7f).toUInt8]
  else if v ≤ 0x3fff then some [(v >>> 7 &&& 0x7f ||| 0x80).toUInt8, (v &&& 0x7f).toUInt8]
  else putVarint64 v

/-- The macro. -/
def putVarint32 (B : UInt32) : Option (List UInt8) :=
  if B < 0x80 then some [B.toUInt8] else sqlite3PutVarint B.toUInt64

/-- `i` at the end of the loop; `none` is its assertion failing. -/
def varintLenLoop : Nat → Nat → UInt64 → Option Nat
  | 0, _, _ => none
  | left + 1, i, v => if v >>> 7 = 0 then some i else varintLenLoop left (i + 1) (v >>> 7)

def sqlite3VarintLen (v : UInt64) : Option Nat := varintLenLoop 10 1 v

/-! ### Agreement of the readers -/

theorem low32 (v : UInt64) : v &&& 0xffffffff = v ↔ v.toNat < 2 ^ 32 := by
  rw [← UInt64.toNat_inj, UInt64.toNat_and]
  show v.toNat &&& (2 ^ 32 - 1) = v.toNat ↔ _
  rw [Nat.and_two_pow_sub_one_eq_mod]
  constructor
  · intro h
    have := Nat.mod_lt v.toNat (Nat.two_pow_pos 32)
    omega
  · exact Nat.mod_eq_of_lt

/-- A value that does not fit is as large as a value can be. -/
def saturate (r : Nat × Nat) : Nat × Nat := (min r.1 (2 ^ 32 - 1), r.2)

def varint32Nat (r : UInt32 × Nat) : Nat × Nat := (r.1.toNat, r.2)

theorem some_saturated {w : UInt32} {v : UInt64} {n : Nat} (h : v.toNat = w.toNat) :
    (some (w, n)).map varint32Nat = ((some (v, n)).map varintNat).map saturate := by
  have hlt := w.toNat_lt
  have hmin : min v.toNat (2 ^ 32 - 1) = w.toNat := by omega
  rw [Option.map_some, Option.map_some, Option.map_some, varintNat, saturate, hmin]
  rfl

theorem clamp_saturates (v : UInt64) (n : Nat) :
    (if v &&& 0xffffffff ≠ v then some (0xffffffff, n) else some (v.toUInt32, n)).map varint32Nat =
      some (saturate (v.toNat, n)) := by
  by_cases h : v &&& 0xffffffff = v
  · have hv := (low32 v).mp h
    have hword : v.toUInt32.toNat = v.toNat := by
      rw [UInt64.toNat_toUInt32, Nat.mod_eq_of_lt hv]
    have hmin : min v.toNat (2 ^ 32 - 1) = v.toNat := by omega
    rw [if_neg (not_not.mpr h), Option.map_some, varint32Nat, saturate, hword, hmin]
  · have hv := (low32 v).not.mp h
    have hmin : min v.toNat (2 ^ 32 - 1) = 2 ^ 32 - 1 := by omega
    rw [if_pos h, Option.map_some, varint32Nat, saturate, hmin]
    rfl

/-- The 32-bit reader is the other one, saturated. -/
theorem getVarint32_saturates (p : List UInt8) :
    (getVarint32 p).map varint32Nat = ((sqlite3GetVarint p).map varintNat).map saturate := by
  cases p with
  | nil => rfl
  | cons p₀ p =>
    by_cases h₀ : p₀.toNat < 128
    · have hget : getVarint32 (p₀ :: p) = some (p₀.toUInt32, 1) := if_pos (UInt8.lt_iff_toNat_lt.mpr h₀)
      rw [hget, getVarint_one h₀]
      exact some_saturated (UInt32.toNat_toUInt64 _)
    · have hget : getVarint32 (p₀ :: p) = sqlite3GetVarint32 (p₀ :: p) :=
        if_neg (UInt8.lt_iff_toNat_lt.not.mpr h₀)
      rw [hget]
      cases p with
      | nil =>
        rw [getVarint_end₁ h₀]
        rfl
      | cons p₁ p =>
        by_cases h₁ : p₁.toNat < 128
        · have htwo : sqlite3GetVarint32 (p₀ :: p₁ :: p) =
              some ((p₀.toUInt32 &&& 0x7f) <<< 7 ||| p₁.toUInt32, 2) := if_pos ((byte_flag p₁).mpr h₁)
          rw [htwo, getVarint_two h₀ h₁]
          exact some_saturated (UInt32.toNat_toUInt64 _)
        · have hflag₁ := (byte_flag p₁).not.mpr h₁
          cases p with
          | nil =>
            have hend : sqlite3GetVarint32 [p₀, p₁] = none := (if_neg hflag₁).trans rfl
            rw [hend, getVarint_end₂ h₀ h₁]
            rfl
          | cons p₂ p =>
            by_cases h₂ : p₂.toNat < 128
            · have hthree : sqlite3GetVarint32 (p₀ :: p₁ :: p₂ :: p) =
                  some ((p₀.toUInt32 <<< 14 ||| p₂.toUInt32) &&& slot_2_0 ||| (p₁.toUInt32 &&& 0x7f) <<< 7, 3) :=
                (if_neg hflag₁).trans (if_pos ((pair_flag p₀ p₂).mpr h₂))
              rw [hthree, getVarint_three h₀ h₁ h₂]
              exact some_saturated (UInt32.toNat_toUInt64 _)
            · have hrest : sqlite3GetVarint32 (p₀ :: p₁ :: p₂ :: p) =
                  (sqlite3GetVarint (p₀ :: p₁ :: p₂ :: p)).bind fun (v64, n) =>
                    if v64 &&& 0xffffffff ≠ v64 then some (0xffffffff, n) else some (v64.toUInt32, n) :=
                (if_neg hflag₁).trans (if_neg ((pair_flag p₀ p₂).not.mpr h₂))
              rw [hrest, Option.map_map]
              cases sqlite3GetVarint (p₀ :: p₁ :: p₂ :: p) with
              | none => rfl
              | some r => exact clamp_saturates r.1 r.2

/-- **Both unrolled readers read the format, on all bytes there are; the 32-bit one saturates.** -/
theorem readers_agree (p : List UInt8) :
    (sqlite3GetVarint p).map varintNat = plainGetVarint p ∧
      (getVarint32 p).map varint32Nat = (plainGetVarint p).map saturate :=
  ⟨getVarint_plain p, by rw [getVarint32_saturates, getVarint_plain]⟩

/-! ### What is written is read back -/

theorem shr7_toNat (v : UInt64) : (v >>> 7).toNat = v.toNat / 128 := by
  rw [UInt64.toNat_shiftRight]
  exact Nat.shiftRight_eq_div_pow _ 7

theorem shr8_toNat (v : UInt64) : (v >>> 8).toNat = v.toNat / 256 := by
  rw [UInt64.toNat_shiftRight]
  exact Nat.shiftRight_eq_div_pow _ 8

theorem low7_toNat (v : UInt64) : (v &&& 0x7f).toNat = v.toNat % 128 := by
  rw [UInt64.toNat_and]
  exact Nat.and_two_pow_sub_one_eq_mod _ 7

theorem putLast_toNat (v : UInt64) : (v &&& 0x7f).toUInt8.toNat = v.toNat % 128 := by
  rw [UInt64.toNat_toUInt8, low7_toNat]
  omega

theorem putByte_toNat (v : UInt64) : (putByte v).toNat = 128 + v.toNat % 128 := by
  have hlow : v.toNat % 128 < 2 ^ 7 := Nat.mod_lt _ (by decide)
  have hor : v.toNat % 128 ||| 0x80 = 128 + v.toNat % 128 := by
    have hpack : pack 7 (v.toNat % 128) 0 ||| pack 7 0 1 = pack 7 (v.toNat % 128 ||| 0) (0 ||| 1) :=
      pack_or hlow (by decide) 0 1
    rw [Nat.or_zero, Nat.zero_or] at hpack
    rw [pack, pack, pack] at hpack
    have hbit : 0 + 2 ^ 7 * 1 = 0x80 := rfl
    rw [Nat.mul_zero, Nat.add_zero, hbit] at hpack
    rw [hpack]
    exact Nat.add_comm ..
  rw [putByte, UInt64.toNat_toUInt8, UInt64.toNat_or, low7_toNat]
  show (v.toNat % 128 ||| 0x80) % 256 = _
  rw [hor]
  omega

/-- The test for nine bytes. -/
theorem high_byte (v : UInt64) : v &&& (0xff000000 : UInt64) <<< 32 = 0 ↔ v.toNat < 2 ^ 56 := by
  have hlow : v.toNat % 2 ^ 56 < 2 ^ 56 := Nat.mod_lt _ (Nat.two_pow_pos 56)
  have hhigh : v.toNat / 2 ^ 56 < 2 ^ 8 := by
    have := v.toNat_lt
    omega
  have hand : (v &&& (0xff000000 : UInt64) <<< 32).toNat = pack 56 0 (v.toNat / 2 ^ 56) := by
    rw [UInt64.toNat_and]
    show v.toNat &&& pack 56 0 (2 ^ 8 - 1) = _
    rw [eq_pack 56 v.toNat, pack_and hlow (Nat.two_pow_pos 56), pack_div hlow, Nat.and_zero, and_ones hhigh]
  rw [← UInt64.toNat_inj, hand, pack]
  show 0 + 2 ^ 56 * (v.toNat / 2 ^ 56) = 0 ↔ _
  omega

theorem putGroups_length (n : Nat) (v : UInt64) : (putGroups n v).length = n := by
  induction n generalizing v with
  | zero => rfl
  | succ n ih => rw [putGroups, List.length_append, ih, List.length_singleton]

/-- Reading through flagged groups. -/
theorem plainGet_putGroups (n left acc : Nat) (v : UInt64) (p : List UInt8) :
    plainGet (left + n) acc (putGroups n v ++ p) =
      (plainGet left (128 ^ n * acc + v.toNat % 128 ^ n) p).map fun r => (r.1, r.2 + n) := by
  induction n generalizing left v p with
  | zero =>
    rw [Nat.pow_zero, Nat.one_mul, Nat.mod_one, Nat.add_zero]
    exact Option.map_id'.symm
  | succ n ih =>
    have hbyte : ¬(putByte v).toNat < 128 := by
      rw [putByte_toNat]
      omega
    have hacc : 128 * (128 ^ n * acc + v.toNat / 128 % 128 ^ n) + v.toNat % 128 =
        128 ^ (n + 1) * acc + v.toNat % 128 ^ (n + 1) := by
      have hmod : v.toNat % (128 * 128 ^ n) = v.toNat % 128 + 128 * (v.toNat / 128 % 128 ^ n) := Nat.mod_mul
      rw [Nat.pow_succ', hmod, Nat.mul_assoc]
      omega
    have hlow : (putByte v).toNat % 128 = v.toNat % 128 := by
      rw [putByte_toNat]
      omega
    rw [putGroups, List.append_assoc, ← Nat.add_assoc, Nat.add_right_comm, ih, List.singleton_append,
      plainGet_more hbyte, hlow, shr7_toNat, hacc, Option.map_map]
    exact congrArg (Option.map · _) (funext fun r => by rw [Function.comp_apply, Nat.add_right_comm]; rfl)

/-- The number of seven-bit groups above the lowest. -/
structure Above (v n : Nat) : Prop where
  lt : v < 128 ^ (n + 1)
  le : n = 0 ∨ 128 ^ n ≤ v

theorem Above.step {v n : Nat} (h : Above (v / 128) n) (hv : v / 128 ≠ 0) : Above v (n + 1) where
  lt := by
    have := h.lt
    rw [Nat.pow_succ]
    omega
  le := by
    right
    have h128 : 128 * (v / 128) ≤ v := Nat.mul_div_le v 128
    calc 128 ^ (n + 1) = 128 * 128 ^ n := Nat.pow_succ'
      _ ≤ 128 * (v / 128) := by
        refine Nat.mul_le_mul_left 128 ?_
        cases h.le with
        | inl hzero =>
          rw [hzero]
          omega
        | inr hle => exact hle
      _ ≤ v := h128

theorem shr7_eq_zero {v : UInt64} : v >>> 7 = 0 ↔ v.toNat / 128 = 0 := by
  rw [← UInt64.toNat_inj, shr7_toNat]
  rfl

theorem putBuf_groups {room : Nat} {v : UInt64} (hv : v.toNat < 128 ^ (room + 1)) :
    ∃ n ≤ room, putBuf (room + 1) v = some (putGroups (n + 1) v).reverse ∧ Above v.toNat n := by
  induction room generalizing v with
  | zero =>
    have hzero : v >>> 7 = 0 := shr7_eq_zero.mpr (Nat.div_eq_of_lt hv)
    exact ⟨0, Nat.le_refl _, if_pos hzero, hv, .inl rfl⟩
  | succ room ih =>
    by_cases hzero : v >>> 7 = 0
    · have hlt : v.toNat / 128 = 0 := shr7_eq_zero.mp hzero
      exact ⟨0, Nat.zero_le _, if_pos hzero, by omega, .inl rfl⟩
    · have hdiv : (v >>> 7).toNat < 128 ^ (room + 1) := by
        rw [shr7_toNat]
        rw [Nat.pow_succ] at hv
        omega
      obtain ⟨n, hn, hbuf, habove⟩ := ih hdiv
      rw [shr7_toNat] at habove
      have hput : putBuf (room + 2) v = (putBuf (room + 1) (v >>> 7)).map (putByte v :: ·) := if_neg hzero
      refine ⟨n + 1, by omega, ?_, habove.step (shr7_eq_zero.not.mp hzero)⟩
      rw [hput, hbuf, Option.map_some, putGroups.eq_2 v (n + 1), List.reverse_append, List.reverse_singleton,
        List.singleton_append]

/-- Fewer than nine bytes: flagged groups, and the last one without its flag. -/
def putShort (n : Nat) (v : UInt64) : List UInt8 := putGroups n (v >>> 7) ++ [(v &&& 0x7f).toUInt8]

/-- Nine bytes. -/
def putLong (v : UInt64) : List UInt8 := putGroups 8 (v >>> 8) ++ [v.toUInt8]

theorem clearFlag_groups (n : Nat) (v : UInt64) :
    (clearFlag (putGroups (n + 1) v).reverse).reverse = putShort n v := by
  have hbyte : putByte v &&& 0x7f = (v &&& 0x7f).toUInt8 := by
    rw [← UInt8.toNat_inj, UInt8.toNat_and, putByte_toNat, putLast_toNat]
    show 128 + v.toNat % 128 &&& (2 ^ 7 - 1) = _
    rw [Nat.and_two_pow_sub_one_eq_mod]
    omega
  rw [putGroups, List.reverse_append, List.reverse_singleton, List.singleton_append, clearFlag, hbyte,
    List.reverse_cons, List.reverse_reverse, putShort]

/-- What the writer writes. -/
theorem putVarint_cases (v : UInt64) :
    (2 ^ 56 ≤ v.toNat ∧ sqlite3PutVarint v = some (putLong v)) ∨
      ∃ n < 8, sqlite3PutVarint v = some (putShort n v) ∧ Above v.toNat n := by
  by_cases h₁ : v ≤ 0x7f
  · right
    exact ⟨0, by decide, if_pos h₁, Nat.lt_succ_of_le (UInt64.le_iff_toNat_le.mp h₁), .inl rfl⟩
  · have hlow : 128 ≤ v.toNat := Nat.lt_of_not_le (UInt64.le_iff_toNat_le.not.mp h₁)
    by_cases h₂ : v ≤ 0x3fff
    · have hbyte : (v >>> 7 &&& 0x7f ||| 0x80).toUInt8 = putByte (v >>> 7) := rfl
      right
      refine ⟨1, by decide, ?_, Nat.lt_succ_of_le (UInt64.le_iff_toNat_le.mp h₂), .inr hlow⟩
      rw [sqlite3PutVarint, if_neg h₁, if_pos h₂, hbyte]
      rfl
    · rw [sqlite3PutVarint, if_neg h₁, if_neg h₂, putVarint64]
      by_cases h₉ : v.toNat < 2 ^ 56
      · obtain ⟨n, -, hbuf, habove⟩ := @putBuf_groups 9 v (by omega)
        have hn : n < 8 := by
          cases habove.le with
          | inl hzero => omega
          | inr hle =>
            have hpow : 128 ^ n < 128 ^ 8 := by omega
            exact (Nat.pow_lt_pow_iff_right (by decide)).mp hpow
        have hlen : (putGroups (n + 1) v).reverse.length ≤ 9 := by
          rw [List.length_reverse, putGroups_length]
          omega
        right
        refine ⟨n, hn, ?_, habove⟩
        rw [if_neg (not_not.mpr ((high_byte v).mpr h₉)), hbuf, ← clearFlag_groups]
        rw [Option.bind_eq_bind, Option.bind_some, guard, if_pos hlen]
        rfl
      · left
        exact ⟨by omega, if_pos ((high_byte v).not.mpr h₉)⟩

theorem varintLenLoop_groups {n left i : Nat} {v : UInt64} (hn : n < left) (habove : Above v.toNat n) :
    varintLenLoop left i v = some (i + n) := by
  induction n generalizing left i v with
  | zero =>
    obtain ⟨left, rfl⟩ := Nat.exists_eq_succ_of_ne_zero (Nat.ne_of_gt hn)
    exact if_pos (shr7_eq_zero.mpr (Nat.div_eq_of_lt habove.lt))
  | succ n ih =>
    obtain ⟨left, rfl⟩ := Nat.exists_eq_succ_of_ne_zero (Nat.ne_of_gt (Nat.zero_lt_of_lt hn))
    have hle : 128 ^ (n + 1) ≤ v.toNat := habove.le.resolve_left (Nat.succ_ne_zero n)
    have hpos : 0 < 128 ^ n := Nat.pow_pos (by decide)
    have hdiv : Above (v >>> 7).toNat n := by
      have hlt := habove.lt
      rw [Nat.pow_succ] at hlt hle
      rw [shr7_toNat]
      exact ⟨by omega, .inr (by omega)⟩
    have hmore : v >>> 7 ≠ 0 := by
      refine shr7_eq_zero.not.mpr ?_
      rw [Nat.pow_succ] at hle
      omega
    rw [varintLenLoop, if_neg hmore, ih (by omega) hdiv, Nat.add_assoc, Nat.add_comm 1]

/-- A form of at most eight bytes is too short for larger values. -/
theorem plainGet_lt {left acc v n : Nat} {p : List UInt8} (h : plainGet left acc p = some (v, n))
    (hn : n ≤ left) : v < 128 ^ n * (acc + 1) := by
  induction left generalizing acc p n with
  | zero =>
    cases p with
    | nil => cases h
    | cons b p =>
      have hone : 1 = n := congrArg Prod.snd (Option.some.inj h)
      omega
  | succ left ih =>
    cases p with
    | nil => cases h
    | cons b p =>
      by_cases hb : b.toNat < 128
      · rw [plainGet_last hb] at h
        cases h
        omega
      · rw [plainGet_more hb] at h
        obtain ⟨⟨v', n'⟩, hget, hpair⟩ := Option.map_eq_some_iff.mp h
        cases hpair
        have hlow : b.toNat % 128 < 128 := Nat.mod_lt _ (by decide)
        calc v' < 128 ^ n' * (128 * acc + b.toNat % 128 + 1) := ih hget (by omega)
          _ ≤ 128 ^ n' * (128 * (acc + 1)) := Nat.mul_le_mul_left _ (by omega)
          _ = 128 ^ (n' + 1) * (acc + 1) := by rw [Nat.pow_succ, Nat.mul_assoc]

theorem plainGet_pos {left acc v n : Nat} {p : List UInt8} (h : plainGet left acc p = some (v, n)) : 0 < n := by
  cases p with
  | nil => cases left <;> cases h
  | cons b p =>
    cases left with
    | zero =>
      cases h
      decide
    | succ left =>
      by_cases hb : b.toNat < 128
      · rw [plainGet_last hb] at h
        cases h
        decide
      · rw [plainGet_more hb] at h
        obtain ⟨r, -, hpair⟩ := Option.map_eq_some_iff.mp h
        cases hpair
        exact Nat.succ_pos _

theorem varintNat_some {o : Option (UInt64 × Nat)} {v : UInt64} {n : Nat} :
    o.map varintNat = some (v.toNat, n) ↔ o = some (v, n) := by
  constructor
  · intro h
    obtain ⟨⟨w, m⟩, hget, hpair⟩ := Option.map_eq_some_iff.mp h
    have hw : w = v := UInt64.toNat_inj.mp (congrArg Prod.fst hpair)
    have hm : m = n := congrArg Prod.snd hpair
    rw [hget, hw, hm]
  · intro h
    rw [h]
    rfl

theorem getVarint_putShort {n : Nat} {v : UInt64} (hn : n < 8) (habove : Above v.toNat n) (tail : List UInt8) :
    sqlite3GetVarint (putShort n v ++ tail) = some (v, n + 1) := by
  have hlast : (v &&& 0x7f).toUInt8.toNat < 128 := by
    rw [putLast_toNat]
    exact Nat.mod_lt _ (by decide)
  have hleft : 8 = 7 - n + 1 + n := by omega
  have hlt : v.toNat / 128 < 128 ^ n := by
    have := habove.lt
    rw [Nat.pow_succ] at this
    omega
  have hvalue : 128 * (128 ^ n * 0 + v.toNat / 128) + v.toNat % 128 = v.toNat := by omega
  refine varintNat_some.mp ?_
  rw [getVarint_plain, plainGetVarint, putShort, hleft, List.append_assoc, plainGet_putGroups, shr7_toNat,
    Nat.mod_eq_of_lt hlt, List.singleton_append, plainGet_last hlast, putLast_toNat, hvalue, Option.map_some,
    Nat.add_comm 1]

theorem getVarint_putLong (v : UInt64) (tail : List UInt8) :
    sqlite3GetVarint (putLong v ++ tail) = some (v, 9) := by
  have hhigh : v.toNat / 256 % 128 ^ 8 = v.toNat / 256 := by
    have := v.toNat_lt
    omega
  have hlow : v.toUInt8.toNat = v.toNat % 256 := UInt64.toNat_toUInt8 v
  have hget : plainGet 8 0 (putGroups 8 (v >>> 8) ++ ([v.toUInt8] ++ tail)) =
      (plainGet 0 (128 ^ 8 * 0 + (v >>> 8).toNat % 128 ^ 8) ([v.toUInt8] ++ tail)).map
        fun r => (r.1, r.2 + 8) := plainGet_putGroups 8 0 0 _ _
  have hvalue : 256 * (128 ^ 8 * 0 + v.toNat / 256) + v.toNat % 256 = v.toNat := by omega
  refine varintNat_some.mp ?_
  rw [getVarint_plain, plainGetVarint, putLong, List.append_assoc, hget, shr8_toNat, hhigh,
    List.singleton_append, plainGet, hlow, hvalue]
  rfl

/-! ### Lengths -/

theorem exists_above (v : Nat) : ∃ n, Above v n := by
  refine ⟨Nat.log 128 v, Nat.lt_pow_succ_log_self (by decide) v, ?_⟩
  by_cases hv : v = 0
  · left
    rw [hv, Nat.log_zero_right]
  · exact .inr (Nat.pow_log_le_self 128 hv)

theorem Above.mono {v w n m : Nat} (hv : Above v n) (hw : Above w m) (h : v ≤ w) : n ≤ m := by
  cases hv.le with
  | inl hzero => omega
  | inr hle =>
    have hlt : 128 ^ n < 128 ^ (m + 1) := hle.trans_lt (h.trans_lt hw.lt)
    have := (Nat.pow_lt_pow_iff_right (by decide)).mp hlt
    omega

theorem varintLen_above {v : UInt64} {n : Nat} (h : Above v.toNat n) : sqlite3VarintLen v = some (n + 1) := by
  have hn : n < 10 := by
    have hten : Above (2 ^ 64 - 1) 9 := ⟨by decide, .inr (by decide)⟩
    have := h.mono hten (Nat.le_sub_one_of_lt v.toNat_lt)
    omega
  rw [sqlite3VarintLen, varintLenLoop_groups hn h, Nat.add_comm]

/-- A word is written in as many bytes as it has groups, and read back. -/
theorem putVarint32_spec (t : UInt32) :
    ∃ p n, putVarint32 t = some p ∧ p.length = n + 1 ∧ Above t.toNat n ∧
      ∀ tail, getVarint32 (p ++ tail) = some (t, p.length) := by
  have hc : (0x80 : UInt32).toNat = 128 := rfl
  by_cases ht : t < 0x80
  · have hlt : t.toNat < 128 := UInt32.lt_iff_toNat_lt.mp ht
    have hbyte : t.toUInt8.toNat = t.toNat := by
      rw [UInt32.toNat_toUInt8]
      omega
    refine ⟨[t.toUInt8], 0, if_pos ht, rfl, ⟨hlt, .inl rfl⟩, fun tail => ?_⟩
    have hword : t.toUInt8.toUInt32 = t := by rw [← UInt32.toNat_inj, UInt8.toNat_toUInt32, hbyte]
    have hget : getVarint32 (t.toUInt8 :: tail) = some (t.toUInt8.toUInt32, 1) :=
      if_pos (UInt8.lt_iff_toNat_lt.mpr (hbyte ▸ hlt))
    rw [List.singleton_append, hget, hword]
    rfl
  · have hword : t.toUInt64.toNat = t.toNat := UInt32.toNat_toUInt64 t
    have hlt := t.toNat_lt
    obtain ⟨hlarge, -⟩ | ⟨n, hn, hput, habove⟩ := putVarint_cases t.toUInt64
    · omega
    · have hlen : (putShort n t.toUInt64).length = n + 1 := by
        rw [putShort, List.length_append, putGroups_length, List.length_singleton]
      rw [hword] at habove
      refine ⟨putShort n t.toUInt64, n, (if_neg ht).trans hput, hlen, habove, fun tail => ?_⟩
      have hget := getVarint32_saturates (putShort n t.toUInt64 ++ tail)
      have hmin : min t.toNat (2 ^ 32 - 1) = t.toNat := by omega
      rw [getVarint_putShort hn (hword ▸ habove), Option.map_some, Option.map_some, varintNat, saturate, hword, hmin]
        at hget
      obtain ⟨⟨w, m⟩, hsome, hpair⟩ := Option.map_eq_some_iff.mp hget
      have hw : w = t := UInt32.toNat_inj.mp (congrArg Prod.fst hpair)
      have hm : m = n + 1 := congrArg Prod.snd hpair
      rw [hsome, hw, hm, hlen]

theorem getVarint32_put {t : UInt32} {p : List UInt8} (h : putVarint32 t = some p) (tail : List UInt8) :
    getVarint32 (p ++ tail) = some (t, p.length) := by
  obtain ⟨p', n, hput, -, -, hget⟩ := putVarint32_spec t
  cases hput.symm.trans h
  exact hget tail

/-! ### The writer as a whole -/

/-- **Every value is written in at most nine bytes, is read back whatever comes after them, and has no
shorter form.** `sqlite3VarintLen` says how long the form is, but for the values of 64 bits: it
counts ten groups of seven where the ninth byte has eight bits. -/
theorem putVarint_roundTrip (v : UInt64) :
    ∃ p, sqlite3PutVarint v = some p ∧ p.length ≤ 9 ∧
      (∀ tail, sqlite3GetVarint (p ++ tail) = some (v, p.length)) ∧
      (∀ q n, sqlite3GetVarint q = some (v, n) → p.length ≤ n) ∧
      sqlite3VarintLen v = some (if v.toNat < 2 ^ 63 then p.length else p.length + 1) := by
  have hplain {q : List UInt8} {n : Nat} (hget : sqlite3GetVarint q = some (v, n)) :
      plainGet 8 0 q = some (v.toNat, n) := (getVarint_plain q).symm.trans (varintNat_some.mpr hget)
  have hshort {q : List UInt8} {n : Nat} (hget : sqlite3GetVarint q = some (v, n)) (hn : n ≤ 8) :
      v.toNat < 128 ^ n := by
    have hlt := plainGet_lt (hplain hget) hn
    rwa [Nat.zero_add, Nat.mul_one] at hlt
  obtain ⟨hlarge, hput⟩ | ⟨n, hn, hput, habove⟩ := putVarint_cases v
  · have hlen : (putLong v).length = 9 := by
      rw [putLong, List.length_append, putGroups_length, List.length_singleton]
    refine ⟨putLong v, hput, Nat.le_of_eq hlen, fun tail => ?_, fun q n hget => ?_, ?_⟩
    · rw [hlen]
      exact getVarint_putLong v tail
    · rw [hlen]
      by_contra hn
      have hlt := hshort hget (by omega)
      have hle : 128 ^ n ≤ 128 ^ 8 := Nat.pow_le_pow_right (by decide) (by omega)
      omega
    · rw [hlen]
      by_cases h63 : v.toNat < 2 ^ 63
      · rw [if_pos h63]
        exact varintLenLoop_groups (n := 8) (by decide) ⟨h63, .inr hlarge⟩
      · rw [if_neg h63]
        exact varintLenLoop_groups (n := 9) (by decide) ⟨by have := v.toNat_lt; omega, .inr (by omega)⟩
  · have hlen : (putShort n v).length = n + 1 := by
      rw [putShort, List.length_append, putGroups_length, List.length_singleton]
    have hpow : 128 ^ (n + 1) ≤ 128 ^ 8 := Nat.pow_le_pow_right (by decide) hn
    have h63 : v.toNat < 2 ^ 63 := by
      have := habove.lt
      omega
    refine ⟨putShort n v, hput, by omega, fun tail => ?_, fun q m hget => ?_, ?_⟩
    · rw [hlen]
      exact getVarint_putShort hn habove tail
    · rw [hlen]
      by_contra hm
      have hlt := hshort hget (by omega)
      cases habove.le with
      | inl hzero =>
        have hpos : 0 < m := plainGet_pos (hplain hget)
        omega
      | inr hle =>
        have hle' : 128 ^ m ≤ 128 ^ n := Nat.pow_le_pow_right (by decide) (by omega)
        omega
    · rw [if_pos h63, hlen, Nat.add_comm n]
      exact varintLenLoop_groups (by omega) habove

end FuzzerTestSuite.Sqlite
