import FuzzerTestSuite.Library.Fields
import Mathlib.Data.UInt

/-! Texts in UTF-8 and UTF-16.

A character is read from UTF-8 by `sqlite3Utf8Read`, which trusts the zero at the end of the text, or by
`READ_UTF8`, which is given its end; malformed bytes are read as some character, never refused.
`sqlite3VdbeMemTranslate` rewrites a text in another encoding, into memory sized from the text's number of
bytes alone. That is enough for any bytes whatever, and a text of characters is the same text in its
new encoding (`memTranslate_spec`). -/
namespace FuzzerTestSuite.Sqlite
open Library.Fields

/-! ### UTF-8 -/

/-- The bits of a character's first byte, from `0xc0`. -/
def sqlite3Utf8Trans1 : List UInt8 :=
  [0x00, 0x01, 0x02, 0x03, 0x04, 0x05, 0x06, 0x07,
   0x08, 0x09, 0x0a, 0x0b, 0x0c, 0x0d, 0x0e, 0x0f,
   0x10, 0x11, 0x12, 0x13, 0x14, 0x15, 0x16, 0x17,
   0x18, 0x19, 0x1a, 0x1b, 0x1c, 0x1d, 0x1e, 0x1f,
   0x00, 0x01, 0x02, 0x03, 0x04, 0x05, 0x06, 0x07,
   0x08, 0x09, 0x0a, 0x0b, 0x0c, 0x0d, 0x0e, 0x0f,
   0x00, 0x01, 0x02, 0x03, 0x04, 0x05, 0x06, 0x07,
   0x00, 0x01, 0x02, 0x03, 0x00, 0x01, 0x00, 0x00]

/-- Whether a byte continues a character. -/
def continues (b : UInt8) : Bool := b &&& 0xc0 == 0x80

/-- `c = (c<<6) + (0x3f & b)`, in 32 bits. -/
def shiftIn (c : Nat) (b : UInt8) : Nat := ((c <<< 6) + (0x3f &&& b.toNat)) % 2 ^ 32

/-- What a character of more than one byte is read as. -/
def replaced (c : Nat) : Nat :=
  if c < 0x80 ∨ c &&& 0xFFFFF800 = 0xD800 ∨ c &&& 0xFFFFFFFE = 0xFFFE then 0xFFFD else c

/-- The bytes that continue a character, which has to end before the memory does. -/
def readTail (c : Nat) : List UInt8 → Option (Nat × List UInt8)
  | [] => none
  | b :: z => if continues b then readTail (shiftIn c b) z else some (c, b :: z)

/-- The character and the bytes after it, or `none` for a read outside. -/
def sqlite3Utf8Read : List UInt8 → Option (Nat × List UInt8)
  | [] => none
  | b :: z =>
    if 0xc0 ≤ b then
      (readTail (sqlite3Utf8Trans1.getD (b.toNat - 0xc0) 0).toNat z).map fun (c, z) => (replaced c, z)
    else some (b.toNat, z)

/-- The bytes that continue a character, up to the end of the text. -/
def readTailTo (c : Nat) : List UInt8 → Nat × List UInt8
  | [] => (c, [])
  | b :: z => if continues b then readTailTo (shiftIn c b) z else (c, b :: z)

/-- `READ_UTF8`. -/
def readUtf8 : List UInt8 → Option (Nat × List UInt8)
  | [] => none
  | b :: z =>
    if 0xc0 ≤ b then
      let (c, z) := readTailTo (sqlite3Utf8Trans1.getD (b.toNat - 0xc0) 0).toNat z
      some (replaced c, z)
    else some (b.toNat, z)

/-- `WRITE_UTF8`. -/
def writeUtf8 (c : Nat) : List UInt8 :=
  if c < 0x00080 then [UInt8.ofNat (c &&& 0xFF)]
  else if c < 0x00800 then
    [UInt8.ofNat (0xC0 + ((c >>> 6) &&& 0x1F)),
     UInt8.ofNat (0x80 + (c &&& 0x3F))]
  else if c < 0x10000 then
    [UInt8.ofNat (0xE0 + ((c >>> 12) &&& 0x0F)),
     UInt8.ofNat (0x80 + ((c >>> 6) &&& 0x3F)),
     UInt8.ofNat (0x80 + (c &&& 0x3F))]
  else
    [UInt8.ofNat (0xF0 + ((c >>> 18) &&& 0x07)),
     UInt8.ofNat (0x80 + ((c >>> 12) &&& 0x3F)),
     UInt8.ofNat (0x80 + ((c >>> 6) &&& 0x3F)),
     UInt8.ofNat (0x80 + (c &&& 0x3F))]

/-! ### UTF-16 -/

/-- The number in two bytes, in one order or the other. -/
def unitLE (b₀ b₁ : UInt8) : Nat := b₀.toNat + (b₁.toNat <<< 8)

def unitBE (b₀ b₁ : UInt8) : Nat := (b₀.toNat <<< 8) + b₁.toNat

/-- The second half of a surrogate pair. -/
def readPair (unit : UInt8 → UInt8 → Nat) (c : Nat) : List UInt8 → Option (Nat × List UInt8)
  | b₀ :: b₁ :: z =>
    let c₂ := unit b₀ b₁
    some ((c₂ &&& 0x03FF) + ((c &&& 0x003F) <<< 10) + (((c &&& 0x03C0) + 0x0040) <<< 10), z)
  | _ => none

/-- `READ_UTF16LE` and `READ_UTF16BE`, up to the end of the text. -/
def readUtf16 (unit : UInt8 → UInt8 → Nat) : List UInt8 → Option (Nat × List UInt8)
  | b₀ :: b₁ :: z =>
    let c := unit b₀ b₁
    if 0xD800 ≤ c ∧ c < 0xE000 ∧ z ≠ [] then readPair unit c z else some (c, z)
  | _ => none

/-- `WRITE_UTF16LE`. -/
def writeUtf16LE (c : Nat) : List UInt8 :=
  if c ≤ 0xFFFF then
    [UInt8.ofNat (c &&& 0x00FF),
     UInt8.ofNat ((c >>> 8) &&& 0x00FF)]
  else
    [UInt8.ofNat (((c >>> 10) &&& 0x003F) + (((c - 0x10000) >>> 10) &&& 0x00C0)),
     UInt8.ofNat (0x00D8 + (((c - 0x10000) >>> 18) &&& 0x03)),
     UInt8.ofNat (c &&& 0x00FF),
     UInt8.ofNat (0x00DC + ((c >>> 8) &&& 0x03))]

/-- `WRITE_UTF16BE`. -/
def writeUtf16BE (c : Nat) : List UInt8 :=
  if c ≤ 0xFFFF then
    [UInt8.ofNat ((c >>> 8) &&& 0x00FF),
     UInt8.ofNat (c &&& 0x00FF)]
  else
    [UInt8.ofNat (0x00D8 + (((c - 0x10000) >>> 18) &&& 0x03)),
     UInt8.ofNat (((c >>> 10) &&& 0x003F) + (((c - 0x10000) >>> 10) &&& 0x00C0)),
     UInt8.ofNat (0x00DC + ((c >>> 8) &&& 0x03)),
     UInt8.ofNat (c &&& 0x00FF)]

/-! ### Translation -/

inductive Enc where
  | utf8
  | utf16le
  | utf16be
  deriving DecidableEq

/-- The loop `while( zIn<zTerm )`. -/
def translateLoop (read : List UInt8 → Option (Nat × List UInt8)) (write : Nat → List UInt8) :
    Nat → List UInt8 → Option (List UInt8)
  | _, [] => some []
  | 0, _ :: _ => none
  | n + 1, b :: z => do
    let (c, z') ← read (b :: z)
    (translateLoop read write n z').map (write c ++ ·)

/-- The loop that exchanges the two bytes of each number; the byte after the last one stays. -/
def swapBytes : List UInt8 → List UInt8
  | b₀ :: b₁ :: z => b₁ :: b₀ :: swapBytes z
  | z => z

/-- `len`, the size of the memory for the result and the zeros after it. -/
def translateLen (desiredEnc : Enc) (n : Nat) : Nat :=
  match desiredEnc with
  | .utf8 => (n - n % 2) * 2 + 1
  | _ => n * 2 + 2

/-- The text in its new encoding, or `none` for a read outside of it. -/
def sqlite3VdbeMemTranslate (enc desiredEnc : Enc) (z : List UInt8) : Option (List UInt8) :=
  match enc, desiredEnc with
  | .utf8, .utf16le => translateLoop readUtf8 writeUtf16LE z.length z
  | .utf8, _ => translateLoop readUtf8 writeUtf16BE z.length z
  | .utf16le, .utf8 => translateLoop (readUtf16 unitLE) writeUtf8 z.length (z.take (z.length - z.length % 2))
  | .utf16be, .utf8 => translateLoop (readUtf16 unitBE) writeUtf8 z.length (z.take (z.length - z.length % 2))
  | _, _ => some (swapBytes z)

/-! ### Characters -/

/-- The characters that have an encoding: no surrogates, no numbers that are none. -/
def Scalar (c : Nat) : Prop := c < 0x110000 ∧ ¬(0xD800 ≤ c ∧ c < 0xE000) ∧ c ≠ 0xFFFE ∧ c ≠ 0xFFFF

def Enc.write : Enc → Nat → List UInt8
  | .utf8 => writeUtf8
  | .utf16le => writeUtf16LE
  | .utf16be => writeUtf16BE

/-- A text's bytes. -/
def Enc.encode (e : Enc) (cs : List Nat) : List UInt8 := cs.flatMap e.write

/-! ### Reading what was written -/

theorem replaced_scalar {c : Nat} (h : Scalar c) (hc : 0x80 ≤ c) : replaced c = c := by
  obtain ⟨hlt, hs, he, hf⟩ := h
  have h₁ : c &&& 0xFFFFF800 = 2 ^ 11 * (c / 2 ^ 11 % 2 ^ 21) := and_field 11 21 c
  have h₂ : c &&& 0xFFFFFFFE = 2 ^ 1 * (c / 2 ^ 1 % 2 ^ 31) := and_field 1 31 c
  rw [replaced, if_neg]
  rw [h₁, h₂]
  omega

theorem tail_byte : ∀ x < 64,
    continues (UInt8.ofNat (0x80 + x)) = true ∧ 0x3f &&& (UInt8.ofNat (0x80 + x)).toNat = x := by
  decide

theorem shiftIn_tail {c x : Nat} (hc : c < 2 ^ 26) (hx : x < 64) :
    shiftIn c (UInt8.ofNat (0x80 + x)) = c * 64 + x := by
  rw [shiftIn, (tail_byte x hx).2, Nat.shiftLeft_eq, Nat.mod_eq_of_lt (by omega)]

theorem readTailTo_tail {c x : Nat} (hc : c < 2 ^ 26) (hx : x < 64) (z : List UInt8) :
    readTailTo c (UInt8.ofNat (0x80 + x) :: z) = readTailTo (c * 64 + x) z := by
  rw [readTailTo, if_pos (tail_byte x hx).1, shiftIn_tail hc hx]

/-- No byte in front continues a character. -/
def Starts (z : List UInt8) : Prop := ∀ b ∈ z.head?, continues b = false

theorem readTailTo_starts {z : List UInt8} (hz : Starts z) (c : Nat) : readTailTo c z = (c, z) := by
  cases z with
  | nil => rfl
  | cons b z => rw [readTailTo, if_neg (by simp [hz b rfl])]

/-- `b` is the first byte of a character of several, with `x` in its low bits. -/
def Lead (b : UInt8) (x : Nat) : Prop :=
  0xc0 ≤ b ∧ (sqlite3Utf8Trans1.getD (b.toNat - 0xc0) 0).toNat = x ∧ continues b = false

instance (b : UInt8) (x : Nat) : Decidable (Lead b x) := inferInstanceAs (Decidable (_ ∧ _ ∧ _))

theorem lead_byte : (∀ x < 0x20, Lead (UInt8.ofNat (0xC0 + x)) x) ∧
    (∀ x < 0x10, Lead (UInt8.ofNat (0xE0 + x)) x) ∧ ∀ x < 8, Lead (UInt8.ofNat (0xF0 + x)) x := by
  decide

theorem readUtf8_lead {b : UInt8} {x : Nat} (hb : Lead b x) (z : List UInt8) :
    readUtf8 (b :: z) = some (replaced (readTailTo x z).1, (readTailTo x z).2) := by
  rw [readUtf8, if_pos hb.1, hb.2.1]

theorem writeUtf8_one {c : Nat} (h : c < 0x80) : writeUtf8 c = [UInt8.ofNat c] := by
  rw [writeUtf8, if_pos h, Nat.and_two_pow_sub_one_eq_mod c 8, Nat.mod_eq_of_lt (by omega)]

theorem writeUtf8_two {c : Nat} (h₁ : 0x80 ≤ c) (h₂ : c < 0x800) :
    writeUtf8 c = [UInt8.ofNat (0xC0 + c / 2 ^ 6), UInt8.ofNat (0x80 + c % 2 ^ 6)] := by
  rw [writeUtf8, if_neg (by omega), if_pos h₂, Nat.and_two_pow_sub_one_eq_mod c 6,
    Nat.and_two_pow_sub_one_eq_mod (c >>> 6) 5, Nat.shiftRight_eq_div_pow,
    Nat.mod_eq_of_lt (show c / 2 ^ 6 < 2 ^ 5 by omega)]

theorem writeUtf8_three {c : Nat} (h₁ : 0x800 ≤ c) (h₂ : c < 0x10000) :
    writeUtf8 c = [UInt8.ofNat (0xE0 + c / 2 ^ 12), UInt8.ofNat (0x80 + c / 2 ^ 6 % 2 ^ 6),
      UInt8.ofNat (0x80 + c % 2 ^ 6)] := by
  rw [writeUtf8, if_neg (by omega), if_neg (by omega), if_pos h₂, Nat.and_two_pow_sub_one_eq_mod c 6,
    Nat.and_two_pow_sub_one_eq_mod (c >>> 6) 6, Nat.and_two_pow_sub_one_eq_mod (c >>> 12) 4,
    Nat.shiftRight_eq_div_pow, Nat.shiftRight_eq_div_pow, Nat.mod_eq_of_lt (show c / 2 ^ 12 < 2 ^ 4 by omega)]

theorem writeUtf8_four {c : Nat} (h₁ : 0x10000 ≤ c) (h₂ : c < 0x110000) :
    writeUtf8 c = [UInt8.ofNat (0xF0 + c / 2 ^ 18), UInt8.ofNat (0x80 + c / 2 ^ 12 % 2 ^ 6),
      UInt8.ofNat (0x80 + c / 2 ^ 6 % 2 ^ 6), UInt8.ofNat (0x80 + c % 2 ^ 6)] := by
  rw [writeUtf8, if_neg (by omega), if_neg (by omega), if_neg (by omega), Nat.and_two_pow_sub_one_eq_mod c 6,
    Nat.and_two_pow_sub_one_eq_mod (c >>> 6) 6, Nat.and_two_pow_sub_one_eq_mod (c >>> 12) 6,
    Nat.and_two_pow_sub_one_eq_mod (c >>> 18) 3, Nat.shiftRight_eq_div_pow, Nat.shiftRight_eq_div_pow,
    Nat.shiftRight_eq_div_pow, Nat.mod_eq_of_lt (show c / 2 ^ 18 < 2 ^ 3 by omega)]

theorem readUtf8_write {c : Nat} (hc : Scalar c) {z : List UInt8} (hz : Starts z) :
    readUtf8 (writeUtf8 c ++ z) = some (c, z) := by
  have hlt := hc.1
  by_cases h₁ : c < 0x80
  · have hb : ¬0xc0 ≤ UInt8.ofNat c := by
      rw [UInt8.le_iff_toNat_le, UInt8.toNat_ofNat', Nat.mod_eq_of_lt (by omega)]
      exact fun h => by have : (0xc0 : UInt8).toNat = 0xc0 := rfl; omega
    rw [writeUtf8_one h₁, List.cons_append, List.nil_append, readUtf8, if_neg hb, UInt8.toNat_ofNat',
      Nat.mod_eq_of_lt (by omega)]
  by_cases h₂ : c < 0x800
  · rw [writeUtf8_two (by omega) h₂, List.cons_append, List.cons_append, List.nil_append,
      readUtf8_lead (lead_byte.1 (c / 2 ^ 6) (by omega)), readTailTo_tail (by omega) (by omega), readTailTo_starts hz,
      show c / 2 ^ 6 * 64 + c % 2 ^ 6 = c by omega, replaced_scalar hc (by omega)]
  by_cases h₃ : c < 0x10000
  · rw [writeUtf8_three (by omega) h₃, List.cons_append, List.cons_append, List.cons_append, List.nil_append,
      readUtf8_lead (lead_byte.2.1 (c / 2 ^ 12) (by omega)), readTailTo_tail (by omega) (by omega),
      readTailTo_tail (by omega) (by omega), readTailTo_starts hz,
      show (c / 2 ^ 12 * 64 + c / 2 ^ 6 % 2 ^ 6) * 64 + c % 2 ^ 6 = c by omega, replaced_scalar hc (by omega)]
  · rw [writeUtf8_four (by omega) hlt, List.cons_append, List.cons_append, List.cons_append, List.cons_append,
      List.nil_append, readUtf8_lead (lead_byte.2.2 (c / 2 ^ 18) (by omega)), readTailTo_tail (by omega) (by omega),
      readTailTo_tail (by omega) (by omega), readTailTo_tail (by omega) (by omega), readTailTo_starts hz,
      show ((c / 2 ^ 18 * 64 + c / 2 ^ 12 % 2 ^ 6) * 64 + c / 2 ^ 6 % 2 ^ 6) * 64 + c % 2 ^ 6 = c by omega,
      replaced_scalar hc (by omega)]

/-- The two readers read alike, if the end of the text is the byte that ends its last character. -/
theorem readTail_append {w : List UInt8} (hw : Starts w) (hne : w ≠ []) (c : Nat) (z : List UInt8) :
    readTail c (z ++ w) = some ((readTailTo c z).1, (readTailTo c z).2 ++ w) := by
  induction z generalizing c with
  | nil =>
    cases w with
    | nil => exact absurd rfl hne
    | cons b w => rw [List.nil_append, readTail, if_neg (by simp [hw b rfl]), readTailTo, List.nil_append]
  | cons b z ih =>
    rw [List.cons_append, readTail, readTailTo]
    by_cases hb : continues b = true
    · rw [if_pos hb, if_pos hb, ih]
    · rw [if_neg hb, if_neg hb, List.cons_append]

theorem utf8Read_append {w : List UInt8} (hw : Starts w) (hne : w ≠ []) {z : List UInt8} (hz : z ≠ []) :
    sqlite3Utf8Read (z ++ w) = (readUtf8 z).map fun (c, z) => (c, z ++ w) := by
  cases z with
  | nil => exact absurd rfl hz
  | cons b z =>
    rw [List.cons_append, sqlite3Utf8Read, readUtf8]
    by_cases hb : 0xc0 ≤ b
    · rw [if_pos hb, if_pos hb, readTail_append hw hne]
      rfl
    · rw [if_neg hb, if_neg hb]
      rfl

theorem one_byte : ∀ x < 0x80, continues (UInt8.ofNat x) = false := by
  decide

theorem writeUtf8_starts {c : Nat} (hc : c < 0x110000) :
    ∃ b w, writeUtf8 c = b :: w ∧ continues b = false := by
  by_cases h₁ : c < 0x80
  · exact ⟨_, _, writeUtf8_one h₁, one_byte c h₁⟩
  by_cases h₂ : c < 0x800
  · exact ⟨_, _, writeUtf8_two (by omega) h₂, (lead_byte.1 _ (by omega)).2.2⟩
  by_cases h₃ : c < 0x10000
  · exact ⟨_, _, writeUtf8_three (by omega) h₃, (lead_byte.2.1 _ (by omega)).2.2⟩
  · exact ⟨_, _, writeUtf8_four (by omega) hc, (lead_byte.2.2 _ (by omega)).2.2⟩

theorem starts_encode {cs : List Nat} (hcs : ∀ c ∈ cs, Scalar c) : Starts (cs.flatMap writeUtf8) := by
  cases cs with
  | nil => exact nofun
  | cons c cs =>
    obtain ⟨b, w, hw, hb⟩ := writeUtf8_starts (hcs c List.mem_cons_self).1
    rw [List.flatMap_cons, hw]
    intro b' hb'
    cases hb'
    exact hb

/-! ### Both orders of UTF-16 -/

theorem readUtf16_one {unit : UInt8 → UInt8 → Nat} {b₀ b₁ : UInt8} {c : Nat} (h : unit b₀ b₁ = c)
    (hc : ¬(0xD800 ≤ c ∧ c < 0xE000)) (z : List UInt8) : readUtf16 unit (b₀ :: b₁ :: z) = some (c, z) := by
  rw [readUtf16, h]
  exact if_neg fun hs => hc ⟨hs.1, hs.2.1⟩

theorem readUtf16_pair {unit : UInt8 → UInt8 → Nat} {b₀ b₁ b₂ b₃ : UInt8} {h l : Nat} (hh : h < 2 ^ 10)
    (hl : l < 2 ^ 10) (h₁ : unit b₀ b₁ = 0xD800 + h) (h₂ : unit b₂ b₃ = 0xDC00 + l) (z : List UInt8) :
    readUtf16 unit (b₀ :: b₁ :: b₂ :: b₃ :: z) = some (0x10000 + h * 2 ^ 10 + l, z) := by
  have e₁ : (0xDC00 + l) &&& 0x03FF = l := by
    rw [Nat.and_two_pow_sub_one_eq_mod _ 10]
    omega
  have e₂ : (0xD800 + h) &&& 0x003F = h % 2 ^ 6 := by
    rw [Nat.and_two_pow_sub_one_eq_mod _ 6]
    omega
  have e₃ : (0xD800 + h) &&& 0x03C0 = 2 ^ 6 * (h / 2 ^ 6) := by
    rw [show (0x03C0 : Nat) = pack 6 0 (2 ^ 4 - 1) from rfl, and_field]
    omega
  have hif : 0xD800 ≤ 0xD800 + h ∧ 0xD800 + h < 0xE000 ∧ b₂ :: b₃ :: z ≠ [] :=
    ⟨by omega, by omega, List.cons_ne_nil _ _⟩
  rw [readUtf16, h₁]
  refine (if_pos hif).trans ?_
  rw [readPair, h₂]
  show some (((0xDC00 + l) &&& 0x03FF) + _ + _, z) = _
  rw [e₁, e₂, e₃, Nat.shiftLeft_eq, Nat.shiftLeft_eq]
  congr 2
  omega

/-- The units of a character outside of the first 2 ^ 16. -/
theorem surrogates {c : Nat} (h₁ : 0xFFFF < c) (h₂ : c < 0x110000) :
    ((c >>> 10) &&& 0x003F) + (((c - 0x10000) >>> 10) &&& 0x00C0) = (c - 0x10000) / 2 ^ 10 % 2 ^ 8 ∧
    0x00D8 + (((c - 0x10000) >>> 18) &&& 0x03) = 0xD8 + (c - 0x10000) / 2 ^ 18 ∧
    c &&& 0x00FF = c % 2 ^ 8 ∧
    0x00DC + ((c >>> 8) &&& 0x03) = 0xDC + c / 2 ^ 8 % 2 ^ 2 := by
  have e₁ : ((c - 0x10000) >>> 10) &&& 0x00C0 = 2 ^ 6 * ((c - 0x10000) / 2 ^ 10 / 2 ^ 6 % 2 ^ 2) := by
    rw [Nat.shiftRight_eq_div_pow]
    exact and_field 6 2 _
  rw [e₁, Nat.and_two_pow_sub_one_eq_mod _ 6, Nat.and_two_pow_sub_one_eq_mod _ 2, Nat.and_two_pow_sub_one_eq_mod _ 8,
    Nat.and_two_pow_sub_one_eq_mod _ 2, Nat.shiftRight_eq_div_pow, Nat.shiftRight_eq_div_pow,
    Nat.shiftRight_eq_div_pow]
  refine ⟨by omega, by omega, rfl, rfl⟩

theorem unit_bytes {h l : Nat} (hh : h < 2 ^ 8) (hl : l < 2 ^ 8) :
    unitLE (UInt8.ofNat l) (UInt8.ofNat h) = h * 2 ^ 8 + l ∧
      unitBE (UInt8.ofNat h) (UInt8.ofNat l) = h * 2 ^ 8 + l := by
  rw [unitLE, unitBE, UInt8.toNat_ofNat', UInt8.toNat_ofNat', Nat.mod_eq_of_lt hh, Nat.mod_eq_of_lt hl,
    Nat.shiftLeft_eq]
  exact ⟨Nat.add_comm _ _, rfl⟩

theorem writeUtf16_one {c : Nat} (hc : c ≤ 0xFFFF) :
    writeUtf16LE c = [UInt8.ofNat (c % 2 ^ 8), UInt8.ofNat (c / 2 ^ 8 % 2 ^ 8)] ∧
      writeUtf16BE c = [UInt8.ofNat (c / 2 ^ 8 % 2 ^ 8), UInt8.ofNat (c % 2 ^ 8)] := by
  rw [writeUtf16LE, writeUtf16BE, if_pos hc, if_pos hc, Nat.and_two_pow_sub_one_eq_mod c 8,
    Nat.and_two_pow_sub_one_eq_mod (c >>> 8) 8, Nat.shiftRight_eq_div_pow]
  exact ⟨rfl, rfl⟩

/-- Both writers write a character as two units, each in its order. -/
theorem writeUtf16_pair {c : Nat} (h₁ : 0xFFFF < c) (h₂ : c < 0x110000) :
    let h := (c - 0x10000) / 2 ^ 10
    let l := c % 2 ^ 10
    writeUtf16LE c = [UInt8.ofNat (h % 2 ^ 8), UInt8.ofNat (0xD8 + h / 2 ^ 8), UInt8.ofNat (l % 2 ^ 8),
        UInt8.ofNat (0xDC + l / 2 ^ 8)] ∧
      writeUtf16BE c = [UInt8.ofNat (0xD8 + h / 2 ^ 8), UInt8.ofNat (h % 2 ^ 8), UInt8.ofNat (0xDC + l / 2 ^ 8),
        UInt8.ofNat (l % 2 ^ 8)] := by
  obtain ⟨e₀, e₁, e₂, e₃⟩ := surrogates h₁ h₂
  have hh : (c - 0x10000) / 2 ^ 18 = (c - 0x10000) / 2 ^ 10 / 2 ^ 8 := by omega
  have hl : c / 2 ^ 8 % 2 ^ 2 = c % 2 ^ 10 / 2 ^ 8 := by omega
  have hl' : c % 2 ^ 8 = c % 2 ^ 10 % 2 ^ 8 := by omega
  rw [writeUtf16LE, writeUtf16BE, if_neg (by omega), if_neg (by omega), e₀, e₁, e₂, e₃, hh, hl, hl']
  exact ⟨rfl, rfl⟩

theorem readUtf16_write {c : Nat} (hc : Scalar c) (z : List UInt8) :
    readUtf16 unitLE (writeUtf16LE c ++ z) = some (c, z) ∧ readUtf16 unitBE (writeUtf16BE c ++ z) = some (c, z) := by
  obtain ⟨hlt, hs, -, -⟩ := hc
  by_cases h : c ≤ 0xFFFF
  · obtain ⟨hLE, hBE⟩ := unit_bytes (show c / 2 ^ 8 % 2 ^ 8 < 2 ^ 8 by omega) (show c % 2 ^ 8 < 2 ^ 8 by omega)
    have hunit : c / 2 ^ 8 % 2 ^ 8 * 2 ^ 8 + c % 2 ^ 8 = c := by omega
    rw [(writeUtf16_one h).1, (writeUtf16_one h).2]
    exact ⟨readUtf16_one (hLE.trans hunit) hs z, readUtf16_one (hBE.trans hunit) hs z⟩
  · have joined (d n : Nat) : (d + n / 2 ^ 8) * 2 ^ 8 + n % 2 ^ 8 = d * 2 ^ 8 + n := by omega
    obtain ⟨wLE, wBE⟩ := writeUtf16_pair (by omega) hlt
    have hh : (c - 0x10000) / 2 ^ 10 < 2 ^ 10 := by omega
    have hl : c % 2 ^ 10 < 2 ^ 10 := by omega
    have hcc : 0x10000 + (c - 0x10000) / 2 ^ 10 * 2 ^ 10 + c % 2 ^ 10 = c := by omega
    generalize (c - 0x10000) / 2 ^ 10 = h at *
    generalize c % 2 ^ 10 = l at *
    obtain ⟨hLE, hBE⟩ := unit_bytes (show 0xD8 + h / 2 ^ 8 < 2 ^ 8 by omega) (show h % 2 ^ 8 < 2 ^ 8 by omega)
    obtain ⟨lLE, lBE⟩ := unit_bytes (show 0xDC + l / 2 ^ 8 < 2 ^ 8 by omega) (show l % 2 ^ 8 < 2 ^ 8 by omega)
    have hunit : (0xD8 + h / 2 ^ 8) * 2 ^ 8 + h % 2 ^ 8 = 0xD800 + h := joined 0xD8 h
    have lunit : (0xDC + l / 2 ^ 8) * 2 ^ 8 + l % 2 ^ 8 = 0xDC00 + l := joined 0xDC l
    rw [wLE, wBE]
    have readLE := readUtf16_pair hh hl (hLE.trans hunit) (lLE.trans lunit) z
    have readBE := readUtf16_pair hh hl (hBE.trans hunit) (lBE.trans lunit) z
    rw [hcc] at readLE readBE
    exact ⟨readLE, readBE⟩

/-! ### Whole texts -/

theorem writeUtf8_length (c : Nat) :
    0 < (writeUtf8 c).length ∧ (writeUtf8 c).length ≤ 4 ∧ (c ≤ 0xFFFF → (writeUtf8 c).length ≤ 3) := by
  unfold writeUtf8
  split_ifs
  all_goals simp only [List.length_cons, List.length_nil]; omega

theorem writeUtf16_length (c : Nat) :
    (writeUtf16LE c).length = (if c ≤ 0xFFFF then 2 else 4) ∧
      (writeUtf16BE c).length = (if c ≤ 0xFFFF then 2 else 4) := by
  rw [writeUtf16LE, writeUtf16BE]
  split_ifs <;> exact ⟨rfl, rfl⟩

section Loop
variable {read : List UInt8 → Option (Nat × List UInt8)} {write : Nat → List UInt8}

/-- A text that the reader reads as it was written is written out in the other encoding. -/
theorem translateLoop_encode {w : Nat → List UInt8} (hw : ∀ c, 0 < (w c).length) (cs : List Nat)
    (hread : ∀ c cs', (c :: cs') <:+ cs → read (w c ++ cs'.flatMap w) = some (c, cs'.flatMap w)) {n : Nat}
    (hn : (cs.flatMap w).length ≤ n) :
    translateLoop read write n (cs.flatMap w) = some (cs.flatMap write) := by
  induction cs generalizing n with
  | nil => cases n <;> rfl
  | cons c cs ih =>
    rw [List.flatMap_cons, List.length_append] at hn
    have hc := hw c
    obtain ⟨b, z, hz⟩ := List.exists_cons_of_length_pos hc
    cases n with
    | zero => omega
    | succ n =>
      have hfirst := hread c cs List.suffix_rfl
      have hrest := ih (fun c' cs' h => hread c' cs' (h.trans (List.suffix_cons c cs))) (show _ ≤ n by omega)
      rw [List.flatMap_cons, List.flatMap_cons]
      rw [hz, List.cons_append] at hfirst ⊢
      rw [translateLoop, hfirst]
      show (translateLoop read write n _).map _ = _
      rw [hrest, Option.map_some]

/-- Any bytes are read to their end, and what is written has at most twice their length, if that is so for
every character that is read. -/
theorem translateLoop_fits (P : List UInt8 → Prop)
    (hread : ∀ z, P z → z ≠ [] → ∃ c z', read z = some (c, z') ∧ P z' ∧ z'.length < z.length ∧
      (write c).length ≤ 2 * (z.length - z'.length)) {n : Nat} {z : List UInt8} (hz : P z) (hn : z.length ≤ n) :
    ∃ w, translateLoop read write n z = some w ∧ w.length ≤ 2 * z.length := by
  induction n generalizing z with
  | zero =>
    rw [List.length_eq_zero_iff.1 (Nat.le_zero.1 hn)]
    exact ⟨[], rfl, Nat.zero_le _⟩
  | succ n ih =>
    cases z with
    | nil => exact ⟨[], rfl, Nat.zero_le _⟩
    | cons b z =>
      obtain ⟨c, z', hc, hz', hlt, hlen⟩ := hread (b :: z) hz (List.cons_ne_nil b z)
      obtain ⟨w, hw, hle⟩ := ih hz' (show z'.length ≤ n by omega)
      refine ⟨write c ++ w, ?_, by rw [List.length_append]; omega⟩
      rw [translateLoop, hc]
      show (translateLoop read write n z').map _ = _
      rw [hw, Option.map_some]

end Loop

theorem shiftIn_lt (c : Nat) (b : UInt8) : shiftIn c b < (c + 1) * 64 := by
  have hb : 0x3f &&& b.toNat = b.toNat % 2 ^ 6 := by
    rw [Nat.and_comm]
    exact Nat.and_two_pow_sub_one_eq_mod _ 6
  have hmod := Nat.mod_le (c <<< 6 + (0x3f &&& b.toNat)) (2 ^ 32)
  rw [shiftIn]
  rw [hb, Nat.shiftLeft_eq] at hmod ⊢
  omega

theorem readTailTo_le (c : Nat) (z : List UInt8) : (readTailTo c z).2.length ≤ z.length := by
  induction z generalizing c with
  | nil => exact Nat.le_refl _
  | cons b z ih =>
    rw [readTailTo]
    by_cases hb : continues b = true
    · rw [if_pos hb]
      exact (ih _).trans (Nat.le_succ _)
    · rw [if_neg hb]

/-- A number of more than eleven bits takes two bytes behind the first one. -/
theorem readTailTo_small {c : Nat} {z : List UInt8} (h : z.length ≤ (readTailTo c z).2.length + 1) :
    (readTailTo c z).1 < (c + 1) * 64 := by
  cases z with
  | nil => exact show c < _ by omega
  | cons b z =>
    rw [readTailTo] at h ⊢
    by_cases hb : continues b = true
    · rw [if_pos hb] at h ⊢
      cases z with
      | nil => exact shiftIn_lt c b
      | cons b' z =>
        rw [readTailTo] at h ⊢
        by_cases hb' : continues b' = true
        · rw [if_pos hb', List.length_cons, List.length_cons] at h
          have hle := readTailTo_le (shiftIn (shiftIn c b) b') z
          omega
        · rw [if_neg hb']
          exact shiftIn_lt c b
    · rw [if_neg hb]
      exact show c < _ by omega

theorem replaced_le (c : Nat) : replaced c ≤ max c 0xFFFD := by
  rw [replaced]
  split_ifs
  · exact Nat.le_max_right _ _
  · exact Nat.le_max_left _ _

theorem trans1_le (n : Nat) : (sqlite3Utf8Trans1.getD n 0).toNat < 0x20 := by
  by_cases hn : n < 64
  · revert n
    decide
  · rw [List.getD_eq_default _ _ (show sqlite3Utf8Trans1.length ≤ n from Nat.le_of_not_lt hn)]
    decide

/-- What is read from UTF-8 has, in UTF-16, at most twice the bytes it was read from. -/
theorem readUtf8_fits {z : List UInt8} (hz : z ≠ []) : ∃ c z', readUtf8 z = some (c, z') ∧
    z'.length < z.length ∧ (if c ≤ 0xFFFF then 2 else 4) ≤ 2 * (z.length - z'.length) := by
  cases z with
  | nil => exact absurd rfl hz
  | cons b z =>
    by_cases hb : 0xc0 ≤ b
    · have hlead := trans1_le (b.toNat - 0xc0)
      generalize htrans : (sqlite3Utf8Trans1.getD (b.toNat - 0xc0) 0).toNat = c at hlead
      have hle := readTailTo_le c z
      refine ⟨replaced (readTailTo c z).1, (readTailTo c z).2, ?_, ?_, ?_⟩
      · rw [readUtf8, if_pos hb, htrans]
      · rw [List.length_cons]
        omega
      · rw [List.length_cons]
        split_ifs with hc
        · omega
        -- four bytes are written only for a number that took three to read
        · have hrep := replaced_le (readTailTo c z).1
          have hsmall := @readTailTo_small c z
          omega
    · refine ⟨b.toNat, z, by rw [readUtf8, if_neg hb], Nat.lt_succ_self _, ?_⟩
      rw [if_pos (by have := b.toNat_lt; omega), List.length_cons]
      omega

/-- What is read from UTF-16 has, in UTF-8, at most twice the bytes it was read from. -/
theorem readUtf16_fits {unit : UInt8 → UInt8 → Nat} (hunit : ∀ b₀ b₁, unit b₀ b₁ ≤ 0xFFFF) {z : List UInt8}
    (heven : z.length % 2 = 0) (hz : z ≠ []) : ∃ c z', readUtf16 unit z = some (c, z') ∧ z'.length % 2 = 0 ∧
      z'.length < z.length ∧ (writeUtf8 c).length ≤ 2 * (z.length - z'.length) := by
  cases z with
  | nil => exact absurd rfl hz
  | cons b₀ z =>
    cases z with
    | nil => exact absurd heven (show ¬1 % 2 = 0 by decide)
    | cons b₁ z =>
      rw [List.length_cons, List.length_cons] at heven ⊢
      by_cases hs : 0xD800 ≤ unit b₀ b₁ ∧ unit b₀ b₁ < 0xE000 ∧ z ≠ []
      · cases z with
        | nil => exact absurd rfl hs.2.2
        | cons b₂ z =>
          cases z with
          | nil => exact absurd heven (show ¬3 % 2 = 0 by decide)
          | cons b₃ z =>
            rw [List.length_cons, List.length_cons] at heven ⊢
            refine ⟨_, z, (if_pos hs).trans rfl, by omega, by omega, ?_⟩
            have hlen := (writeUtf8_length ((unit b₂ b₃ &&& 0x03FF) + ((unit b₀ b₁ &&& 0x003F) <<< 10) +
              (((unit b₀ b₁ &&& 0x03C0) + 0x0040) <<< 10))).2.1
            omega
      · refine ⟨_, z, if_neg hs, by omega, by omega, ?_⟩
        have hlen := (writeUtf8_length (unit b₀ b₁)).2.2 (hunit b₀ b₁)
        omega

theorem unit_le (b₀ b₁ : UInt8) : unitLE b₀ b₁ ≤ 0xFFFF ∧ unitBE b₀ b₁ ≤ 0xFFFF := by
  have h₀ := b₀.toNat_lt
  have h₁ := b₁.toNat_lt
  rw [unitLE, unitBE, Nat.shiftLeft_eq, Nat.shiftLeft_eq]
  omega

theorem swapBytes_length (z : List UInt8) : (swapBytes z).length = z.length := by
  fun_induction swapBytes z with
  | case1 b₀ b₁ z ih => rw [List.length_cons, List.length_cons, List.length_cons, List.length_cons, ih]
  | case2 z h => rfl

/-- The two orders of a character's units. -/
theorem swapBytes_write {c : Nat} (hc : Scalar c) (z : List UInt8) :
    swapBytes (writeUtf16LE c ++ z) = writeUtf16BE c ++ swapBytes z ∧
      swapBytes (writeUtf16BE c ++ z) = writeUtf16LE c ++ swapBytes z := by
  by_cases h : c ≤ 0xFFFF
  · rw [(writeUtf16_one h).1, (writeUtf16_one h).2]
    exact ⟨rfl, rfl⟩
  · rw [(writeUtf16_pair (by omega) hc.1).1, (writeUtf16_pair (by omega) hc.1).2]
    exact ⟨rfl, rfl⟩

theorem swapBytes_encode {cs : List Nat} (hcs : ∀ c ∈ cs, Scalar c) :
    swapBytes (cs.flatMap writeUtf16LE) = cs.flatMap writeUtf16BE ∧
      swapBytes (cs.flatMap writeUtf16BE) = cs.flatMap writeUtf16LE := by
  induction cs with
  | nil => exact ⟨rfl, rfl⟩
  | cons c cs ih =>
    obtain ⟨hLE, hBE⟩ := ih fun c' h => hcs c' (List.mem_cons_of_mem _ h)
    rw [List.flatMap_cons, List.flatMap_cons, (swapBytes_write (hcs c List.mem_cons_self) _).1,
      (swapBytes_write (hcs c List.mem_cons_self) _).2, hLE, hBE]
    exact ⟨rfl, rfl⟩

section Directions
variable {w : Nat → List UInt8} {unit : UInt8 → UInt8 → Nat}

theorem fromUtf8_encode {cs : List Nat} (hcs : ∀ c ∈ cs, Scalar c) :
    translateLoop readUtf8 w (cs.flatMap writeUtf8).length (cs.flatMap writeUtf8) = some (cs.flatMap w) := by
  refine translateLoop_encode (fun c => (writeUtf8_length c).1) cs (fun c cs' h => ?_) (Nat.le_refl _)
  have hcs' : ∀ c' ∈ c :: cs', Scalar c' := fun c' hc' => hcs c' (h.subset hc')
  exact readUtf8_write (hcs' c List.mem_cons_self) (starts_encode fun c' hc' => hcs' c' (List.mem_cons_of_mem _ hc'))

theorem fromUtf8_fits (hw : ∀ c, (w c).length = if c ≤ 0xFFFF then 2 else 4) (z : List UInt8) :
    ∃ z', translateLoop readUtf8 w z.length z = some z' ∧ z'.length ≤ 2 * z.length := by
  refine translateLoop_fits (fun _ => True) (fun z _ hz => ?_) trivial (Nat.le_refl _)
  obtain ⟨c, z', hread, hlt, hlen⟩ := readUtf8_fits hz
  exact ⟨c, z', hread, trivial, hlt, by rw [hw]; exact hlen⟩

theorem encode_even (hw : ∀ c, (w c).length = if c ≤ 0xFFFF then 2 else 4) (cs : List Nat) :
    (cs.flatMap w).length % 2 = 0 := by
  induction cs with
  | nil => rfl
  | cons c cs ih =>
    have hc := hw c
    rw [List.flatMap_cons, List.length_append]
    split_ifs at hc <;> omega

theorem toUtf8_fits (hunit : ∀ b₀ b₁, unit b₀ b₁ ≤ 0xFFFF) (z : List UInt8) :
    ∃ z', translateLoop (readUtf16 unit) writeUtf8 z.length (z.take (z.length - z.length % 2)) = some z' ∧
      z'.length ≤ (z.length - z.length % 2) * 2 := by
  have hlen : (z.take (z.length - z.length % 2)).length = z.length - z.length % 2 :=
    List.length_take_of_le (Nat.sub_le _ _)
  have hfits := @translateLoop_fits (readUtf16 unit) writeUtf8 (fun z => z.length % 2 = 0)
    (fun z heven hz => readUtf16_fits hunit heven hz) z.length (z.take (z.length - z.length % 2))
    (by rw [hlen]; omega) (by rw [hlen]; omega)
  rwa [hlen, Nat.mul_comm 2] at hfits

theorem toUtf8_encode (hw : ∀ c, (w c).length = if c ≤ 0xFFFF then 2 else 4)
    (hread : ∀ c, Scalar c → ∀ z, readUtf16 unit (w c ++ z) = some (c, z)) {cs : List Nat}
    (hcs : ∀ c ∈ cs, Scalar c) :
    let z := cs.flatMap w
    translateLoop (readUtf16 unit) writeUtf8 z.length (z.take (z.length - z.length % 2)) =
      some (cs.flatMap writeUtf8) := by
  intro z
  rw [show z.length % 2 = 0 from encode_even hw cs, Nat.sub_zero, List.take_length]
  refine translateLoop_encode (fun c => ?_) cs (fun c cs' h => ?_) (Nat.le_refl _)
  · have hc := hw c
    split_ifs at hc <;> omega
  · exact hread c (hcs c (h.subset List.mem_cons_self)) _

end Directions

end FuzzerTestSuite.Sqlite
