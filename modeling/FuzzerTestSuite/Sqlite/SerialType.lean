import FuzzerTestSuite.Library.Bytes
import FuzzerTestSuite.Library.Fields

/-! The values of SQLite's records, and the bytes they are stored as.

`sqlite3VdbeSerialType` picks a storage class, `sqlite3VdbeSerialPut` writes the bytes and
`sqlite3VdbeSerialGet` reads them. What is written is read back as it was (`serialGet_stored`), but for
a NaN, which is read as NULL, and the zeros a blob ends in, which are bytes again. Integers are stored
in the fewest bytes they can be read from (`serialType_smallest`).

A floating-point number is its 64 bits here: they are copied, and asked if they are a NaN's. -/
namespace FuzzerTestSuite.Sqlite
open Library.Bytes Library.Fields

/-! ### Values -/

/-- A memory cell: a blob may end in zeros that are counted, not held. -/
inductive Mem where
  | null
  | int (i : Int64)
  | real (r : UInt64)
  | str (z : List UInt8)
  | blob (z : List UInt8) (nZero : Nat)
  deriving DecidableEq, Repr

/-- `x != x` for the number with these bits. -/
def sqlite3IsNaN (x : UInt64) : Bool := 0x7ff0000000000000 < x &&& 0x7fffffffffffffff

def MAX_6BYTE : UInt64 := (0x00008000 : UInt64) <<< 32 - 1

/-- The serial type and the number of bytes. -/
def sqlite3VdbeSerialType (pMem : Mem) (file_format : Nat) : UInt32 × UInt32 :=
  match pMem with
  | .null => (0, 0)
  | .int i =>
    let u := if i < 0 then (~~~i).toUInt64 else i.toUInt64
    if u ≤ 127 then
      if i &&& 1 = i ∧ 4 ≤ file_format then (8 + u.toUInt32, 0) else (1, 1)
    else if u ≤ 32767 then (2, 2)
    else if u ≤ 8388607 then (3, 3)
    else if u ≤ 2147483647 then (4, 4)
    else if u ≤ MAX_6BYTE then (5, 6)
    else (6, 8)
  | .real _ => (7, 8)
  | .str z =>
    let n := UInt32.ofNat z.length
    (n * 2 + 12 + 1, n)
  | .blob z nZero =>
    let n := UInt32.ofNat z.length + UInt32.ofNat nZero
    (n * 2 + 12, n)

/-- The sizes for serial types less than 128. -/
def sqlite3SmallTypeSizes : List UInt8 :=
  [ 0,  1,  2,  3,  4,  6,  8,  8,  0,  0,
    0,  0,  0,  0,  1,  1,  2,  2,  3,  3,
    4,  4,  5,  5,  6,  6,  7,  7,  8,  8,
    9,  9, 10, 10, 11, 11, 12, 12, 13, 13,
   14, 14, 15, 15, 16, 16, 17, 17, 18, 18,
   19, 19, 20, 20, 21, 21, 22, 22, 23, 23,
   24, 24, 25, 25, 26, 26, 27, 27, 28, 28,
   29, 29, 30, 30, 31, 31, 32, 32, 33, 33,
   34, 34, 35, 35, 36, 36, 37, 37, 38, 38,
   39, 39, 40, 40, 41, 41, 42, 42, 43, 43,
   44, 44, 45, 45, 46, 46, 47, 47, 48, 48,
   49, 49, 50, 50, 51, 51, 52, 52, 53, 53,
   54, 54, 55, 55, 56, 56, 57, 57]

/-- The length of the data. -/
def sqlite3VdbeSerialTypeLen (serial_type : UInt32) : UInt32 :=
  if 128 ≤ serial_type then (serial_type - 12) / 2
  else (sqlite3SmallTypeSizes[serial_type.toNat]?.getD 0).toUInt32

/-- `do{ buf[--i] = (u8)(v&0xFF); v >>= 8; }while( i )` -/
def putBytes : Nat → UInt64 → List UInt8
  | 0, _ => []
  | i + 1, v => putBytes i (v >>> 8) ++ [(v &&& 0xff).toUInt8]

/-- The bytes put into `buf`; `none` is a read of what the cell does not hold. -/
def sqlite3VdbeSerialPut (pMem : Mem) (serial_type : UInt32) : Option (List UInt8) :=
  if serial_type ≤ 7 ∧ 0 < serial_type then do
    let v ← match pMem with
      | .int i => some i.toUInt64
      | .real r => some r
      | _ => none
    let len ← sqlite3SmallTypeSizes[serial_type.toNat]?
    return putBytes len.toNat v
  else if 12 ≤ serial_type then
    match pMem with
    | .str z => some z
    | .blob z _ => some z
    | _ => none
  else some []

def ONE_BYTE_INT (x₀ : UInt8) : Int32 := x₀.toInt8.toInt32

def TWO_BYTE_INT (x₀ x₁ : UInt8) : Int32 := 256 * x₀.toInt8.toInt32 ||| x₁.toUInt32.toInt32

def THREE_BYTE_INT (x₀ x₁ x₂ : UInt8) : Int32 :=
  (65536 : Int32) * x₀.toInt8.toInt32 ||| x₁.toUInt32.toInt32 <<< 8 ||| x₂.toUInt32.toInt32

def FOUR_BYTE_UINT (x₀ x₁ x₂ x₃ : UInt8) : UInt32 :=
  x₀.toUInt32 <<< 24 ||| x₁.toUInt32 <<< 16 ||| x₂.toUInt32 <<< 8 ||| x₃.toUInt32

def FOUR_BYTE_INT (x₀ x₁ x₂ x₃ : UInt8) : Int32 :=
  (16777216 : Int32) * x₀.toInt8.toInt32 ||| x₁.toUInt32.toInt32 <<< 16 ||| x₂.toUInt32.toInt32 <<< 8 |||
    x₃.toUInt32.toInt32

/-- `x`, in its last value. -/
def eightBytes : List UInt8 → Option UInt64
  | x₀ :: x₁ :: x₂ :: x₃ :: x₄ :: x₅ :: x₆ :: x₇ :: _ =>
    let x := (FOUR_BYTE_UINT x₀ x₁ x₂ x₃).toUInt64
    let y := FOUR_BYTE_UINT x₄ x₅ x₆ x₇
    some (x <<< 32 + y.toUInt64)
  | _ => none

def serialGet (buf : List UInt8) (serial_type : UInt32) : Option (Mem × UInt32) := do
  let x ← eightBytes buf
  if serial_type = 6 then return (.int x.toInt64, 8)
  else return (if sqlite3IsNaN x then .null else .real x, 8)

/-- The value, and the number of bytes it took; `none` is a read past the end of the memory at `buf`. The
bytes of a text or a blob are not read yet: here the value has those that there are. -/
def sqlite3VdbeSerialGet (buf : List UInt8) (serial_type : UInt32) : Option (Mem × UInt32) :=
  match serial_type.toNat, buf with
  | 10, _ | 11, _ | 0, _ => some (.null, 0)
  | 1, x₀ :: _ => some (.int (ONE_BYTE_INT x₀).toInt64, 1)
  | 2, x₀ :: x₁ :: _ => some (.int (TWO_BYTE_INT x₀ x₁).toInt64, 2)
  | 3, x₀ :: x₁ :: x₂ :: _ => some (.int (THREE_BYTE_INT x₀ x₁ x₂).toInt64, 3)
  | 4, x₀ :: x₁ :: x₂ :: x₃ :: _ => some (.int (FOUR_BYTE_INT x₀ x₁ x₂ x₃).toInt64, 4)
  | 5, x₀ :: x₁ :: x₂ :: x₃ :: x₄ :: x₅ :: _ =>
    let high := (1 : Int64) <<< 32 * (TWO_BYTE_INT x₀ x₁).toInt64
    some (.int ((FOUR_BYTE_UINT x₂ x₃ x₄ x₅).toUInt64.toInt64 + high), 6)
  | 1, _ | 2, _ | 3, _ | 4, _ | 5, _ => none
  | 6, _ | 7, _ => serialGet buf serial_type
  | 8, _ | 9, _ => some (.int (serial_type - 8).toUInt64.toInt64, 0)
  | _, _ =>
    let n := (serial_type - 12) / 2
    let z := buf.take n.toNat
    some (if serial_type &&& 1 = 1 then .str z else .blob z 0, n)

/-! ### Integers as the reader assembles them -/

theorem toInt_eq (i : Int32) : i.toInt = (i.toBitVec.toNat : Int).bmod (2 ^ 32) := BitVec.toInt_eq_toNat_bmod _

theorem or_toNat (a b : Int32) : (a ||| b).toBitVec.toNat = a.toBitVec.toNat ||| b.toBitVec.toNat := by
  rw [Int32.toBitVec_or, BitVec.toNat_or]

theorem mul_toNat (a b : Int32) : (a * b).toBitVec.toNat = a.toBitVec.toNat * b.toBitVec.toNat % 2 ^ 32 := by
  rw [Int32.toBitVec_mul, BitVec.toNat_mul]

/-- A byte whose sign is extended. -/
theorem signed_toNat (x : UInt8) :
    x.toInt8.toInt32.toBitVec.toNat = if x.toNat < 128 then x.toNat else x.toNat + 0xffffff00 := by
  have hx := x.toNat_lt
  have hlt := x.toInt8.toInt32.toBitVec.isLt
  have hbyte : x.toInt8.toInt = (x.toNat : Int).bmod (2 ^ 8) := BitVec.toInt_eq_toNat_bmod _
  have hword := toInt_eq x.toInt8.toInt32
  rw [Int8.toInt_toInt32, hbyte, Int.bmod_def, Int.bmod_def] at hword
  split <;> omega

theorem byte_toNat (x : UInt8) : x.toUInt32.toInt32.toBitVec.toNat = x.toNat := UInt8.toNat_toUInt32 x

theorem shl8_toNat (x : UInt8) : (x.toUInt32 <<< 8).toNat = 2 ^ 8 * x.toNat := by
  have hx := x.toNat_lt
  have hshift : (x.toUInt32 <<< 8).toNat = x.toUInt32.toNat <<< 8 % 2 ^ 32 := rfl
  rw [hshift, UInt8.toNat_toUInt32, Nat.shiftLeft_eq]
  omega

theorem shl16_toNat (x : UInt8) : (x.toUInt32 <<< 16).toNat = 2 ^ 16 * x.toNat := by
  have hx := x.toNat_lt
  have hshift : (x.toUInt32 <<< 16).toNat = x.toUInt32.toNat <<< 16 % 2 ^ 32 := rfl
  rw [hshift, UInt8.toNat_toUInt32, Nat.shiftLeft_eq]
  omega

theorem shl24_toNat (x : UInt8) : (x.toUInt32 <<< 24).toNat = 2 ^ 24 * x.toNat := by
  have hx := x.toNat_lt
  have hshift : (x.toUInt32 <<< 24).toNat = x.toUInt32.toNat <<< 24 % 2 ^ 32 := rfl
  rw [hshift, UInt8.toNat_toUInt32, Nat.shiftLeft_eq]
  omega

section Assembled
variable (x₀ x₁ x₂ x₃ : UInt8)

theorem one_byte_toInt : (ONE_BYTE_INT x₀).toInt = (x₀.toNat : Int).bmod (2 ^ 8) := by
  have hbyte : x₀.toInt8.toInt = (x₀.toNat : Int).bmod (2 ^ 8) := BitVec.toInt_eq_toNat_bmod _
  rw [ONE_BYTE_INT, Int8.toInt_toInt32, hbyte]

theorem two_byte_toInt :
    (TWO_BYTE_INT x₀ x₁).toInt = ((x₁.toNat + 256 * x₀.toNat : Nat) : Int).bmod (2 ^ 16) := by
  have h₀ := x₀.toNat_lt
  have h₁ := x₁.toNat_lt
  have hmul := mul_toNat 256 x₀.toInt8.toInt32
  have hc : (256 : Int32).toBitVec.toNat = 256 := rfl
  rw [hc] at hmul
  rw [toInt_eq, TWO_BYTE_INT, or_toNat, byte_toNat, or_add (k := 8) (by omega) h₁, hmul, signed_toNat,
    Int.bmod_def, Int.bmod_def]
  split <;> omega

theorem three_byte_toInt :
    (THREE_BYTE_INT x₀ x₁ x₂).toInt =
      ((x₂.toNat + 256 * (x₁.toNat + 256 * x₀.toNat) : Nat) : Int).bmod (2 ^ 24) := by
  have h₀ := x₀.toNat_lt
  have h₁ := x₁.toNat_lt
  have h₂ := x₂.toNat_lt
  have hmul := mul_toNat 65536 x₀.toInt8.toInt32
  have hc : (65536 : Int32).toBitVec.toNat = 65536 := rfl
  have hshift : (x₁.toUInt32.toInt32 <<< 8).toBitVec.toNat = 2 ^ 8 * x₁.toNat := shl8_toNat x₁
  rw [hc] at hmul
  rw [toInt_eq, THREE_BYTE_INT, or_toNat, or_toNat, byte_toNat, hshift,
    or_add (k := 16) (b := 2 ^ 8 * x₁.toNat) (by omega) (by omega), or_add (k := 8) (by omega) h₂, hmul,
    signed_toNat, Int.bmod_def, Int.bmod_def]
  split <;> omega

theorem four_byte_toNat :
    (FOUR_BYTE_UINT x₀ x₁ x₂ x₃).toNat =
      x₃.toNat + 256 * (x₂.toNat + 256 * (x₁.toNat + 256 * x₀.toNat)) := by
  have h₀ := x₀.toNat_lt
  have h₁ := x₁.toNat_lt
  have h₂ := x₂.toNat_lt
  have h₃ := x₃.toNat_lt
  rw [FOUR_BYTE_UINT, UInt32.toNat_or, UInt32.toNat_or, UInt32.toNat_or, shl24_toNat, shl16_toNat, shl8_toNat,
    UInt8.toNat_toUInt32, or_add (k := 24) (b := 2 ^ 16 * x₁.toNat) (by omega) (by omega),
    or_add (k := 16) (b := 2 ^ 8 * x₂.toNat) (by omega) (by omega), or_add (k := 8) (by omega) h₃]
  omega

theorem four_byte_toInt :
    (FOUR_BYTE_INT x₀ x₁ x₂ x₃).toInt =
      ((x₃.toNat + 256 * (x₂.toNat + 256 * (x₁.toNat + 256 * x₀.toNat)) : Nat) : Int).bmod (2 ^ 32) := by
  have h₀ := x₀.toNat_lt
  have h₁ := x₁.toNat_lt
  have h₂ := x₂.toNat_lt
  have h₃ := x₃.toNat_lt
  have hmul := mul_toNat 16777216 x₀.toInt8.toInt32
  have hc : (16777216 : Int32).toBitVec.toNat = 16777216 := rfl
  have hshift₁ : (x₁.toUInt32.toInt32 <<< 16).toBitVec.toNat = 2 ^ 16 * x₁.toNat := shl16_toNat x₁
  have hshift₂ : (x₂.toUInt32.toInt32 <<< 8).toBitVec.toNat = 2 ^ 8 * x₂.toNat := shl8_toNat x₂
  rw [hc, signed_toNat] at hmul
  rw [toInt_eq, FOUR_BYTE_INT, or_toNat, or_toNat, or_toNat, byte_toNat, hshift₁, hshift₂,
    or_add (k := 24) (b := 2 ^ 16 * x₁.toNat) (by omega) (by omega),
    or_add (k := 16) (b := 2 ^ 8 * x₂.toNat) (by omega) (by omega), or_add (k := 8) (by omega) h₃]
  have hvalue : (16777216 * x₀.toInt8.toInt32).toBitVec.toNat + 2 ^ 16 * x₁.toNat + 2 ^ 8 * x₂.toNat + x₃.toNat =
      x₃.toNat + 256 * (x₂.toNat + 256 * (x₁.toNat + 256 * x₀.toNat)) := by
    rw [hmul]
    split <;> omega
  rw [hvalue]

end Assembled

/-- The integer types, and how many bytes they take. -/
def intWidths : List (UInt32 × Nat) := [(1, 1), (2, 2), (3, 3), (4, 4), (5, 6), (6, 8)]

/-- Big-endian two's complement. -/
def beInt (bs : List UInt8) : Int := (leNat bs.reverse : Int).bmod (2 ^ (8 * bs.length))

/-- A value is what it is as an integer. -/
theorem some_int {i : Int64} {v : Int} {n : UInt32} (h : i.toInt = v) :
    some (Mem.int i, n) = some (.int (Int64.ofInt v), n) := by
  rw [← h, Int64.ofInt_toInt]

theorem eight_byte_toNat (x₀ x₁ x₂ x₃ x₄ x₅ x₆ x₇ : UInt8) :
    ((FOUR_BYTE_UINT x₀ x₁ x₂ x₃).toUInt64 <<< 32 + (FOUR_BYTE_UINT x₄ x₅ x₆ x₇).toUInt64).toNat =
      leNat [x₇, x₆, x₅, x₄, x₃, x₂, x₁, x₀] := by
  have hhigh := (FOUR_BYTE_UINT x₀ x₁ x₂ x₃).toNat_lt
  have hlow := (FOUR_BYTE_UINT x₄ x₅ x₆ x₇).toNat_lt
  have hshift : ((FOUR_BYTE_UINT x₀ x₁ x₂ x₃).toUInt64 <<< 32).toNat = 2 ^ 32 * (FOUR_BYTE_UINT x₀ x₁ x₂ x₃).toNat := by
    have hdef : ((FOUR_BYTE_UINT x₀ x₁ x₂ x₃).toUInt64 <<< 32).toNat =
        (FOUR_BYTE_UINT x₀ x₁ x₂ x₃).toUInt64.toNat <<< 32 % 2 ^ 64 := rfl
    rw [hdef, UInt32.toNat_toUInt64, Nat.shiftLeft_eq]
    omega
  have hsum : 2 ^ 32 * (FOUR_BYTE_UINT x₀ x₁ x₂ x₃).toNat + (FOUR_BYTE_UINT x₄ x₅ x₆ x₇).toNat < 2 ^ 64 := by omega
  rw [UInt64.toNat_add, hshift, UInt32.toNat_toUInt64, Nat.mod_eq_of_lt hsum, four_byte_toNat, four_byte_toNat]
  simp only [leNat]
  omega

/-- A word below a signed pair of bytes. -/
theorem six_byte_value {low : Nat} (hlow : low < 2 ^ 32) (m : Nat) :
    ((low : Int) + (2 ^ 32 * (m : Int).bmod (2 ^ 16)).bmod (2 ^ 64)).bmod (2 ^ 64) =
      ((low + 2 ^ 32 * m : Nat) : Int).bmod (2 ^ 48) := by
  have hpair : -2 ^ 15 ≤ (m : Int).bmod (2 ^ 16) ∧ (m : Int).bmod (2 ^ 16) < 2 ^ 15 := by
    rw [Int.bmod_def]
    omega
  have hvalue : ((low + 2 ^ 32 * m : Nat) : Int).bmod (2 ^ 48) = low + 2 ^ 32 * (m : Int).bmod (2 ^ 16) := by
    rw [Int.bmod_def, Int.bmod_def]
    omega
  rw [hvalue]
  generalize (m : Int).bmod (2 ^ 16) = pair at hpair
  have hprod : (2 ^ 32 * pair).bmod (2 ^ 64) = 2 ^ 32 * pair := Int.bmod_eq_of_le (by omega) (by omega)
  rw [hprod]
  exact Int.bmod_eq_of_le (by omega) (by omega)

theorem exists_four {bs : List UInt8} {n : Nat} (h : bs.length = n + 4) :
    ∃ x₀ x₁ x₂ x₃ tail, bs = x₀ :: x₁ :: x₂ :: x₃ :: tail ∧ tail.length = n := by
  obtain ⟨four, tail, rfl, hfour, htail⟩ := exists_append (Nat.le.intro ((Nat.add_comm 4 n).trans h.symm))
  obtain ⟨x₀, x₁, x₂, x₃, rfl⟩ := List.length_eq_four.mp hfour
  exact ⟨x₀, x₁, x₂, x₃, tail, rfl, by omega⟩

/-- **The reader of integers is big-endian two's complement, at every width.** -/
theorem serialGet_int {t : UInt32} {bs : List UInt8} (ht : (t, bs.length) ∈ intWidths) (tail : List UInt8) :
    sqlite3VdbeSerialGet (bs ++ tail) t =
      some (.int (Int64.ofInt (beInt bs)), UInt32.ofNat bs.length) := by
  simp only [intWidths, List.mem_cons, Prod.mk.injEq, List.not_mem_nil, or_false] at ht
  obtain ⟨rfl, hlen⟩ | ⟨rfl, hlen⟩ | ⟨rfl, hlen⟩ | ⟨rfl, hlen⟩ | ⟨rfl, hlen⟩ | ⟨rfl, hlen⟩ := ht
  · obtain ⟨x₀, rfl⟩ := List.length_eq_one_iff.mp hlen
    refine some_int ?_
    rw [Int32.toInt_toInt64, one_byte_toInt]
    rfl
  · obtain ⟨x₀, x₁, rfl⟩ := List.length_eq_two.mp hlen
    refine some_int ?_
    rw [Int32.toInt_toInt64, two_byte_toInt]
    rfl
  · obtain ⟨x₀, x₁, x₂, rfl⟩ := List.length_eq_three.mp hlen
    refine some_int ?_
    rw [Int32.toInt_toInt64, three_byte_toInt]
    rfl
  · obtain ⟨x₀, x₁, x₂, x₃, rfl⟩ := List.length_eq_four.mp hlen
    refine some_int ?_
    rw [Int32.toInt_toInt64, four_byte_toInt]
    rfl
  · obtain ⟨x₀, x₁, x₂, x₃, tail', rfl, htail⟩ := exists_four hlen
    obtain ⟨x₄, x₅, rfl⟩ := List.length_eq_two.mp htail
    have hhigh := two_byte_toInt x₀ x₁
    have hlow := four_byte_toNat x₂ x₃ x₄ x₅
    have hword : (FOUR_BYTE_UINT x₂ x₃ x₄ x₅).toUInt64.toInt64.toInt = (FOUR_BYTE_UINT x₂ x₃ x₄ x₅).toNat := by
      have hlt := (FOUR_BYTE_UINT x₂ x₃ x₄ x₅).toNat_lt
      have hbmod : (FOUR_BYTE_UINT x₂ x₃ x₄ x₅).toUInt64.toInt64.toInt =
          ((FOUR_BYTE_UINT x₂ x₃ x₄ x₅).toUInt64.toNat : Int).bmod (2 ^ 64) := BitVec.toInt_eq_toNat_bmod _
      rw [hbmod, UInt32.toNat_toUInt64]
      exact Int.bmod_eq_of_le (by omega) (by omega)
    have hunit : ((1 : Int64) <<< 32).toInt = 2 ^ 32 := rfl
    have hbe : leNat [x₅, x₄, x₃, x₂, x₁, x₀] =
        x₅.toNat + 256 * (x₄.toNat + 256 * (x₃.toNat + 256 * x₂.toNat)) +
          2 ^ 32 * (x₁.toNat + 256 * x₀.toNat) := by
      simp only [leNat]
      omega
    refine some_int ?_
    show _ = (leNat [x₅, x₄, x₃, x₂, x₁, x₀] : Int).bmod (2 ^ 48)
    rw [Int64.toInt_add, Int64.toInt_mul, hword, hunit, Int32.toInt_toInt64, hhigh, hbe, ← hlow]
    exact six_byte_value (FOUR_BYTE_UINT x₂ x₃ x₄ x₅).toNat_lt _
  · obtain ⟨x₀, x₁, x₂, x₃, tail', rfl, htail⟩ := exists_four hlen
    obtain ⟨x₄, x₅, x₆, x₇, rfl⟩ := List.length_eq_four.mp htail
    refine some_int ?_
    have hbmod (x : UInt64) : x.toInt64.toInt = (x.toNat : Int).bmod (2 ^ 64) := BitVec.toInt_eq_toNat_bmod _
    rw [hbmod, eight_byte_toNat]
    rfl

theorem putBytes_leBytes (n : Nat) (v : UInt64) : putBytes n v = (leBytes n v.toNat).reverse := by
  induction n generalizing v with
  | zero => rfl
  | succ n ih =>
    have hshift : (v >>> 8).toNat = v.toNat / 256 := by
      rw [UInt64.toNat_shiftRight]
      exact Nat.shiftRight_eq_div_pow _ 8
    have hlow : (v &&& 0xff).toUInt8 = UInt8.ofNat v.toNat := by
      rw [← UInt8.toNat_inj, UInt64.toNat_toUInt8, UInt64.toNat_and, UInt8.toNat_ofNat']
      show (v.toNat &&& (2 ^ 8 - 1)) % 2 ^ 8 = _
      rw [Nat.and_two_pow_sub_one_eq_mod, Nat.mod_mod]
    rw [putBytes, ih, hshift, hlow, leBytes, List.reverse_cons]

/-- Bytes put for an integer in range are the integer. -/
theorem beInt_putBytes {n : Nat} (hn : n ≤ 8) {i : Int64} (hlow : -2 ^ (8 * n) ≤ 2 * i.toInt)
    (hhigh : 2 * i.toInt < 2 ^ (8 * n)) : beInt (putBytes n i.toUInt64) = i.toInt := by
  have hbmod : i.toInt = (i.toUInt64.toNat : Int).bmod (2 ^ 64) := BitVec.toInt_eq_toNat_bmod _
  have hpow : 256 ^ n = 2 ^ (8 * n) := (Nat.pow_mul 2 8 n).symm
  have hdvd : 2 ^ (8 * n) ∣ 2 ^ 64 := Nat.pow_dvd_pow 2 (by omega)
  rw [beInt, putBytes_leBytes, List.reverse_reverse, List.length_reverse, leBytes_length, leNat_leBytes, hpow,
    Int.natCast_emod, Int.emod_bmod, ← Int.bmod_bmod_of_dvd hdvd, ← hbmod]
  exact Int.bmod_eq_of_le (by push_cast; omega) (by push_cast; omega)

/-! ### The storage class of a value -/

/-- `~i` of a negative number, and `i` of another: what is left without the sign. -/
def unsigned (i : Int64) : UInt64 := if i < 0 then (~~~i).toUInt64 else i.toUInt64

theorem unsigned_toNat (i : Int64) :
    ((unsigned i).toNat : Int) = if i.toInt < 0 then -i.toInt - 1 else i.toInt := by
  have hlow := i.le_toInt
  have hhigh := i.toInt_lt
  have hbmod (j : Int64) : j.toInt = (j.toUInt64.toNat : Int).bmod (2 ^ 64) := BitVec.toInt_eq_toNat_bmod _
  have hzero : i < 0 ↔ i.toInt < 0 := Int64.lt_iff_toInt_lt
  by_cases hneg : i.toInt < 0
  · have hnot := hbmod (~~~i)
    have hlt := (~~~i).toUInt64.toNat_lt
    rw [Int64.toInt_not, Int.bmod_eq_of_le (by omega) (by omega), Int.bmod_def] at hnot
    rw [unsigned, if_pos (hzero.mpr hneg), if_pos hneg]
    omega
  · have hnum := hbmod i
    have hlt := i.toUInt64.toNat_lt
    rw [Int.bmod_def] at hnum
    rw [unsigned, if_neg (hzero.not.mpr hneg), if_neg hneg]
    omega

/-- The integers that `n` bytes hold. -/
def InWidth (n : Nat) (i : Int64) : Prop := -2 ^ (8 * n) ≤ 2 * i.toInt ∧ 2 * i.toInt < 2 ^ (8 * n)

/-- Zero and one have types of their own, from file format 4 on. -/
theorem bit_cases {i : Int64} (h : i &&& 1 = i) : i = 0 ∨ i = 1 := by
  have hnat : i.toUInt64.toNat &&& 1 = i.toUInt64.toNat := by
    have := congrArg (fun j : Int64 => j.toUInt64.toNat) h
    rwa [Int64.toUInt64_and, UInt64.toNat_and] at this
  rw [Nat.and_one_is_mod] at hnat
  have hinj (j : Int64) (hj : i.toUInt64.toNat = j.toUInt64.toNat) : i = j := by
    rw [← Int64.toInt64_toUInt64 i, ← Int64.toInt64_toUInt64 j, UInt64.toNat_inj.mp hj]
  obtain hbit | hbit : i.toUInt64.toNat = 0 ∨ i.toUInt64.toNat = 1 := by omega
  · exact .inl (hinj 0 hbit)
  · exact .inr (hinj 1 hbit)

theorem inWidth_iff {n : Nat} (hn : 0 < n) (i : Int64) :
    InWidth n i ↔ 2 * (unsigned i).toNat + 1 < 2 ^ (8 * n) := by
  have heven : 2 ^ (8 * n) % 2 = 0 := Nat.mod_eq_zero_of_dvd (dvd_pow_self 2 (by omega))
  have hunsigned := unsigned_toNat i
  have hcast : (2 : Int) ^ (8 * n) = (2 ^ (8 * n) : Nat) := by push_cast; rfl
  rw [InWidth, hcast]
  generalize (unsigned i).toNat = u at hunsigned
  generalize 2 ^ (8 * n) = p at heven
  split at hunsigned <;> omega

theorem width_cases {t : UInt32} {n : Nat} (h : (t, n) ∈ intWidths) :
    n = 1 ∨ n = 2 ∨ n = 3 ∨ n = 4 ∨ n = 6 ∨ n = 8 := by
  simp only [intWidths, List.mem_cons, Prod.mk.injEq, List.not_mem_nil, or_false] at h
  omega

/-- A width is the first if a value has too many bits for all below. -/
theorem first_width {n m : Nat} {i : Int64} (hm : 2 ^ (8 * m) ≤ 2 * (unsigned i).toNat + 1)
    (hnext : ∀ t' n', (t', n') ∈ intWidths → m < n' → n ≤ n') {t' : UInt32} {n' : Nat}
    (ht' : (t', n') ∈ intWidths) (hwidth : InWidth n' i) : n ≤ n' := by
  refine hnext t' n' ht' ?_
  have hpos : 0 < n' := by
    have := width_cases ht'
    omega
  have hlt := hm.trans_lt ((inWidth_iff hpos i).mp hwidth)
  have := (Nat.pow_lt_pow_iff_right (by decide : 1 < 2)).mp hlt
  omega

/-- The type of an integer is that of the first width that holds it. -/
theorem serialType_int (i : Int64) (file_format : Nat) :
    (4 ≤ file_format ∧ (i = 0 ∧ sqlite3VdbeSerialType (.int i) file_format = (8, 0) ∨
      i = 1 ∧ sqlite3VdbeSerialType (.int i) file_format = (9, 0))) ∨
    ∃ t n, sqlite3VdbeSerialType (.int i) file_format = (t, UInt32.ofNat n) ∧ (t, n) ∈ intWidths ∧ InWidth n i ∧
      ∀ t' n', (t', n') ∈ intWidths → InWidth n' i → n ≤ n' := by
  have hlt := (unsigned i).toNat_lt
  have hle (w : UInt64) : unsigned i ≤ w ↔ (unsigned i).toNat ≤ w.toNat := UInt64.le_iff_toNat_le
  have htype : sqlite3VdbeSerialType (.int i) file_format =
      if unsigned i ≤ 127 then
        if i &&& 1 = i ∧ 4 ≤ file_format then (8 + (unsigned i).toUInt32, 0) else (1, 1)
      else if unsigned i ≤ 32767 then (2, 2)
      else if unsigned i ≤ 8388607 then (3, 3)
      else if unsigned i ≤ 2147483647 then (4, 4)
      else if unsigned i ≤ MAX_6BYTE then (5, 6)
      else (6, 8) := rfl
  rw [htype]
  have hnext {m n : Nat} (h : ∀ k, k = 1 ∨ k = 2 ∨ k = 3 ∨ k = 4 ∨ k = 6 ∨ k = 8 → m < k → n ≤ k) (t' : UInt32)
      (n' : Nat) (ht' : (t', n') ∈ intWidths) : m < n' → n ≤ n' := h n' (width_cases ht')
  by_cases h₁ : unsigned i ≤ 127
  · have hu : (unsigned i).toNat ≤ 127 := (hle 127).mp h₁
    rw [if_pos h₁]
    by_cases hbit : i &&& 1 = i ∧ 4 ≤ file_format
    · left
      rw [if_pos hbit]
      obtain rfl | rfl := bit_cases hbit.1
      · exact ⟨hbit.2, .inl ⟨rfl, rfl⟩⟩
      · exact ⟨hbit.2, .inr ⟨rfl, rfl⟩⟩
    · rw [if_neg hbit]
      exact .inr ⟨1, 1, rfl, by decide, (inWidth_iff (by decide) i).mpr (by omega),
        fun t' n' ht' => first_width (m := 0) (by omega) (hnext (by omega)) ht'⟩
  · have hu₁ : ¬(unsigned i).toNat ≤ 127 := (hle 127).not.mp h₁
    rw [if_neg h₁]
    right
    by_cases h₂ : unsigned i ≤ 32767
    · have hu : (unsigned i).toNat ≤ 32767 := (hle 32767).mp h₂
      rw [if_pos h₂]
      exact ⟨2, 2, rfl, by decide, (inWidth_iff (by decide) i).mpr (by omega),
        fun t' n' ht' => first_width (m := 1) (by omega) (hnext (by omega)) ht'⟩
    · have hu₂ : ¬(unsigned i).toNat ≤ 32767 := (hle 32767).not.mp h₂
      rw [if_neg h₂]
      by_cases h₃ : unsigned i ≤ 8388607
      · have hu : (unsigned i).toNat ≤ 8388607 := (hle 8388607).mp h₃
        rw [if_pos h₃]
        exact ⟨3, 3, rfl, by decide, (inWidth_iff (by decide) i).mpr (by omega),
          fun t' n' ht' => first_width (m := 2) (by omega) (hnext (by omega)) ht'⟩
      · have hu₃ : ¬(unsigned i).toNat ≤ 8388607 := (hle 8388607).not.mp h₃
        rw [if_neg h₃]
        by_cases h₄ : unsigned i ≤ 2147483647
        · have hu : (unsigned i).toNat ≤ 2147483647 := (hle 2147483647).mp h₄
          rw [if_pos h₄]
          exact ⟨4, 4, rfl, by decide, (inWidth_iff (by decide) i).mpr (by omega),
            fun t' n' ht' => first_width (m := 3) (by omega) (hnext (by omega)) ht'⟩
        · have hu₄ : ¬(unsigned i).toNat ≤ 2147483647 := (hle 2147483647).not.mp h₄
          rw [if_neg h₄]
          by_cases h₅ : unsigned i ≤ MAX_6BYTE
          · have hu : (unsigned i).toNat ≤ 2 ^ 47 - 1 := (hle MAX_6BYTE).mp h₅
            rw [if_pos h₅]
            exact ⟨5, 6, rfl, by decide, (inWidth_iff (by decide) i).mpr (by omega),
              fun t' n' ht' => first_width (m := 4) (by omega) (hnext (by omega)) ht'⟩
          · have hu₅ : ¬(unsigned i).toNat ≤ 2 ^ 47 - 1 := (hle MAX_6BYTE).not.mp h₅
            have hwidth : InWidth 8 i := ⟨by have := i.le_toInt; omega, by have := i.toInt_lt; omega⟩
            rw [if_neg h₅]
            exact ⟨6, 8, rfl, by decide, hwidth,
              fun t' n' ht' => first_width (m := 6) (by omega) (hnext (by omega)) ht'⟩

/-! ### What is stored is read back -/

/-- `sqlite3VdbeMemExpandBlob`: the zeros a blob ends in, as bytes. -/
def Mem.expand : Mem → Mem
  | .blob z nZero => .blob (z ++ List.replicate nZero 0) 0
  | pMem => pMem

/-- A cell as it comes back from a record. -/
def Mem.stored : Mem → Mem
  | .real r => if sqlite3IsNaN r then .null else .real r
  | pMem => pMem.expand

/-- The bytes of a text or a blob. -/
def Mem.size : Mem → Nat
  | .str z => z.length
  | .blob z nZero => z.length + nZero
  | _ => 0

/-- A text or a blob with a serial type of 32 bits. -/
def Mem.Fits (pMem : Mem) : Prop := 2 * pMem.size + 13 < 2 ^ 32

theorem serialGet_large {t : UInt32} (ht : 12 ≤ t.toNat) (buf : List UInt8) :
    sqlite3VdbeSerialGet buf t =
      some (if t &&& 1 = 1 then .str (buf.take ((t - 12) / 2).toNat) else .blob (buf.take ((t - 12) / 2).toNat) 0,
        (t - 12) / 2) := by
  unfold sqlite3VdbeSerialGet
  split <;> first | rfl | (exfalso; omega)

/-- The type of `n` bytes, and of text when `s` is one. -/
theorem bytesType {n s : Nat} (hn : 2 * n + 13 < 2 ^ 32) (hs : s ≤ 1) {t : UInt32} (ht : t.toNat = 2 * n + 12 + s) :
    ((t - 12) / 2).toNat = n ∧ (t &&& 1 = 1 ↔ s = 1) := by
  have hc : (12 : UInt32).toNat = 12 := rfl
  have hsub : (t - 12).toNat = 2 * n + s := by
    rw [UInt32.toNat_sub_of_le _ _ (UInt32.le_iff_toNat_le.mpr (by omega)), ht, hc]
    omega
  constructor
  · rw [UInt32.toNat_div, hsub]
    show (2 * n + s) / 2 = n
    omega
  · have hone : (1 : UInt32).toNat = 1 := rfl
    rw [← UInt32.toNat_inj, UInt32.toNat_and, ht, hone, Nat.and_one_is_mod]
    omega

theorem serialGet_bytes {z : List UInt8} {s : Nat} (hz : 2 * z.length + 13 < 2 ^ 32) (hs : s ≤ 1) {t len : UInt32}
    (ht : t.toNat = 2 * z.length + 12 + s) (hlen : len.toNat = z.length) (tail : List UInt8) :
    sqlite3VdbeSerialGet (z ++ tail) t = some (if s = 1 then .str z else .blob z 0, len) := by
  obtain ⟨hdiv, hodd⟩ := bytesType hz hs ht
  have hn : (t - 12) / 2 = len := UInt32.toNat_inj.mp (hdiv.trans hlen.symm)
  rw [serialGet_large (by omega), hn, hlen, List.take_left' rfl]
  simp only [hodd]

theorem serialPut_int {t : UInt32} {n : Nat} (ht : (t, n) ∈ intWidths) (i : Int64) :
    sqlite3VdbeSerialPut (.int i) t = some (putBytes n i.toUInt64) := by
  simp only [intWidths, List.mem_cons, Prod.mk.injEq, List.not_mem_nil, or_false] at ht
  obtain ⟨rfl, rfl⟩ | ⟨rfl, rfl⟩ | ⟨rfl, rfl⟩ | ⟨rfl, rfl⟩ | ⟨rfl, rfl⟩ | ⟨rfl, rfl⟩ := ht <;> rfl

/-- The eight bytes put for a word are the word. -/
theorem serialGet_real (r : UInt64) (tail : List UInt8) :
    sqlite3VdbeSerialGet (putBytes 8 r ++ tail) 7 = some ((Mem.real r).stored, 8) := by
  have hle : leNat (putBytes 8 r).reverse = r.toNat := by
    rw [putBytes_leBytes, List.reverse_reverse, leNat_leBytes]
    exact Nat.mod_eq_of_lt r.toNat_lt
  have hlen : (putBytes 8 r).length = 8 := by rw [putBytes_leBytes, List.length_reverse, leBytes_length]
  generalize putBytes 8 r = bs at hle hlen
  obtain ⟨x₀, x₁, x₂, x₃, tail', rfl, htail⟩ := exists_four hlen
  obtain ⟨x₄, x₅, x₆, x₇, rfl⟩ := List.length_eq_four.mp htail
  have hword := UInt64.toNat_inj.mp ((eight_byte_toNat x₀ x₁ x₂ x₃ x₄ x₅ x₆ x₇).trans hle)
  have hget : sqlite3VdbeSerialGet ([x₀, x₁, x₂, x₃, x₄, x₅, x₆, x₇] ++ tail) 7 =
      some ((Mem.real ((FOUR_BYTE_UINT x₀ x₁ x₂ x₃).toUInt64 <<< 32 +
        (FOUR_BYTE_UINT x₄ x₅ x₆ x₇).toUInt64)).stored, 8) := rfl
  rw [hget, hword]

theorem put_bytes {t : UInt32} (ht : 12 ≤ t.toNat) {z : List UInt8} {m : Mem}
    (hm : m = .str z ∨ ∃ nZero, m = .blob z nZero) : sqlite3VdbeSerialPut m t = some z := by
  have hsmall : ¬(t ≤ 7 ∧ 0 < t) := fun h => by
    have : t.toNat ≤ 7 := UInt32.le_iff_toNat_le.mp h.1
    omega
  have hlarge : (12 : UInt32) ≤ t := UInt32.le_iff_toNat_le.mpr ht
  obtain rfl | ⟨nZero, rfl⟩ := hm
  · exact (if_neg hsmall).trans (if_pos hlarge)
  · exact (if_neg hsmall).trans (if_pos hlarge)

/-- What a cell's type says of its bytes, and what is read from them. -/
structure Stored (pMem : Mem) (t len : UInt32) (data : List UInt8) : Prop where
  put : sqlite3VdbeSerialPut pMem.expand t = some data
  length : data.length = len.toNat
  get (tail : List UInt8) : sqlite3VdbeSerialGet (data ++ tail) t = some (pMem.stored, len)

theorem blob_stored {z : List UInt8} {nZero : Nat} (hfits : (Mem.blob z nZero).Fits) (file_format : Nat) :
    12 ≤ (sqlite3VdbeSerialType (.blob z nZero) file_format).1.toNat ∧
      Stored (.blob z nZero) (sqlite3VdbeSerialType (.blob z nZero) file_format).1
        (sqlite3VdbeSerialType (.blob z nZero) file_format).2 (z ++ List.replicate nZero 0) := by
  have hz : 2 * (z.length + nZero) + 13 < 2 ^ 32 := hfits
  have hsize : (z ++ List.replicate nZero 0).length = z.length + nZero := by
    rw [List.length_append, List.length_replicate]
  have hlen : (UInt32.ofNat z.length + UInt32.ofNat nZero).toNat = z.length + nZero := by
    rw [UInt32.toNat_add, UInt32.toNat_ofNat', UInt32.toNat_ofNat']
    omega
  have ht : ((UInt32.ofNat z.length + UInt32.ofNat nZero) * 2 + 12).toNat = 2 * (z.length + nZero) + 12 + 0 := by
    rw [UInt32.toNat_add, UInt32.toNat_mul, hlen]
    show ((z.length + nZero) * 2 % 2 ^ 32 + 12) % 2 ^ 32 = _
    omega
  have hlarge : 12 ≤ ((UInt32.ofNat z.length + UInt32.ofNat nZero) * 2 + 12).toNat := by omega
  rw [← hsize] at hz ht hlen
  exact ⟨hlarge, put_bytes hlarge (.inr ⟨0, rfl⟩), hlen.symm, serialGet_bytes hz (Nat.zero_le 1) ht hlen⟩

/-- **What is stored is read back**, whatever follows it. -/
theorem serialGet_stored {pMem : Mem} (hfits : pMem.Fits) (file_format : Nat) :
    ∃ data, Stored pMem (sqlite3VdbeSerialType pMem file_format).1 (sqlite3VdbeSerialType pMem file_format).2 data := by
  cases pMem with
  | null => exact ⟨[], rfl, rfl, fun tail => rfl⟩
  | int i =>
    obtain ⟨-, ⟨rfl, htype⟩ | ⟨rfl, htype⟩⟩ | ⟨t, n, htype, ht, hwidth, -⟩ := serialType_int i file_format
    · rw [htype]
      exact ⟨[], rfl, rfl, fun tail => rfl⟩
    · rw [htype]
      exact ⟨[], rfl, rfl, fun tail => rfl⟩
    · have hn := width_cases ht
      have hlen : (putBytes n i.toUInt64).length = n := by
        rw [putBytes_leBytes, List.length_reverse, leBytes_length]
      have hword : (UInt32.ofNat n).toNat = n := by
        rw [UInt32.toNat_ofNat']
        omega
      rw [htype]
      refine ⟨putBytes n i.toUInt64, serialPut_int ht i, by rw [hlen, hword], fun tail => ?_⟩
      rw [serialGet_int (hlen.symm ▸ ht), beInt_putBytes (by omega) hwidth.1 hwidth.2, hlen, Int64.ofInt_toInt]
      rfl
  | real r => exact ⟨putBytes 8 r, rfl, rfl, serialGet_real r⟩
  | str z =>
    have hz : 2 * z.length + 13 < 2 ^ 32 := hfits
    have hlen : (UInt32.ofNat z.length).toNat = z.length := by
      rw [UInt32.toNat_ofNat']
      omega
    have ht : (UInt32.ofNat z.length * 2 + 12 + 1).toNat = 2 * z.length + 12 + 1 := by
      rw [UInt32.toNat_add, UInt32.toNat_add, UInt32.toNat_mul, hlen]
      show ((z.length * 2 % 2 ^ 32 + 12) % 2 ^ 32 + 1) % 2 ^ 32 = _
      omega
    have hput : sqlite3VdbeSerialPut (.str z) (UInt32.ofNat z.length * 2 + 12 + 1) = some z :=
      put_bytes (by omega) (.inl rfl)
    exact ⟨z, hput, hlen.symm, serialGet_bytes hz (Nat.le_refl 1) ht hlen⟩
  | blob z nZero => exact ⟨_, (blob_stored hfits file_format).2⟩

/-! ### The smallest storage class -/

theorem eightBytes_length {buf : List UInt8} {x : UInt64} (h : eightBytes buf = some x) : 8 ≤ buf.length := by
  unfold eightBytes at h
  split at h
  · simp only [List.length_cons]
    omega
  · cases h

theorem serialGet_eight {t : UInt32} {buf : List UInt8} {r : Mem × UInt32} (h : serialGet buf t = some r) :
    8 ≤ buf.length := by
  obtain ⟨x, hx, -⟩ := Option.bind_eq_some_iff.mp h
  exact eightBytes_length hx

theorem serialGet_seven {buf : List UInt8} {i : Int64} {n : UInt32} : serialGet buf 7 ≠ some (.int i, n) := by
  intro h
  obtain ⟨x, -, hx⟩ := Option.bind_eq_some_iff.mp h
  rw [if_neg (by decide)] at hx
  split at hx <;> cases hx

/-- An integer comes from a type of its width, or is one of the two constants. -/
theorem serialGet_width {t n : UInt32} {buf : List UInt8} {i : Int64}
    (h : sqlite3VdbeSerialGet buf t = some (.int i, n)) :
    (∃ k, (t, k) ∈ intWidths ∧ k ≤ buf.length) ∨ n = 0 ∧ (i = 0 ∨ i = 1) := by
  have hword {w : UInt32} (hw : t.toNat = w.toNat) : t = w := UInt32.toNat_inj.mp hw
  unfold sqlite3VdbeSerialGet at h
  split at h
  case h_1 | h_2 | h_3 | h_9 | h_10 | h_11 | h_12 | h_13 => cases h
  case h_4 ht =>
    cases hword (w := 1) ht
    exact .inl ⟨1, by decide, by simp⟩
  case h_5 ht =>
    cases hword (w := 2) ht
    exact .inl ⟨2, by decide, by simp⟩
  case h_6 ht =>
    cases hword (w := 3) ht
    exact .inl ⟨3, by decide, by simp⟩
  case h_7 ht =>
    cases hword (w := 4) ht
    exact .inl ⟨4, by decide, by simp⟩
  case h_8 ht =>
    cases hword (w := 5) ht
    exact .inl ⟨6, by decide, by simp⟩
  case h_14 ht =>
    cases hword (w := 6) ht
    exact .inl ⟨8, by decide, serialGet_eight h⟩
  case h_15 ht =>
    cases hword (w := 7) ht
    exact absurd h serialGet_seven
  case h_16 ht =>
    cases hword (w := 8) ht
    cases h
    exact .inr ⟨rfl, .inl rfl⟩
  case h_17 ht =>
    cases hword (w := 9) ht
    cases h
    exact .inr ⟨rfl, .inr rfl⟩
  case h_18 =>
    exfalso
    split at h <;> cases h

theorem beInt_width {bs : List UInt8} (h₀ : 0 < bs.length) (h₈ : bs.length ≤ 8) :
    InWidth bs.length (Int64.ofInt (beInt bs)) := by
  have heven : 2 ^ (8 * bs.length) % 2 = 0 := Nat.mod_eq_zero_of_dvd (dvd_pow_self 2 (by omega))
  have hpow : 2 ^ (8 * bs.length) ≤ 2 ^ 64 := Nat.pow_le_pow_right (by decide) (by omega)
  have hpos : 0 < 2 ^ (8 * bs.length) := Nat.two_pow_pos _
  have hlow : -((2 ^ (8 * bs.length) : Nat) / 2 : Int) ≤ beInt bs := Int.le_bmod hpos
  have hhigh : beInt bs < ((2 ^ (8 * bs.length) : Nat) + 1 : Int) / 2 := Int.bmod_lt hpos
  have hcast : (2 : Int) ^ (8 * bs.length) = (2 ^ (8 * bs.length) : Nat) := by push_cast; rfl
  rw [InWidth, Int64.toInt_ofInt, hcast]
  generalize beInt bs = v at hlow hhigh
  generalize 2 ^ (8 * bs.length) = p at heven hpow hlow hhigh
  have hsize : v.bmod Int64.size = v :=
    Int.bmod_eq_of_le (by show -(2 ^ 64 / 2 : Int) ≤ v; omega) (by show v < (2 ^ 64 + 1 : Int) / 2; omega)
  rw [hsize]
  omega

/-- No serial type an integer is read from has fewer bytes. -/
theorem serialType_le {t n : UInt32} {buf : List UInt8} {i : Int64}
    (h : sqlite3VdbeSerialGet buf t = some (.int i, n)) {file_format : Nat} (hf : 4 ≤ file_format ∨ n ≠ 0) :
    (sqlite3VdbeSerialType (.int i) file_format).2 ≤ n := by
  have hzero : (0 : UInt32) ≤ n := UInt32.le_iff_toNat_le.mpr (Nat.zero_le _)
  obtain ⟨k, ht, hlen⟩ | ⟨rfl, hi⟩ := serialGet_width h
  · have hk := width_cases ht
    obtain ⟨bs, tail, rfl, hbs, -⟩ := exists_append hlen
    rw [serialGet_int (hbs.symm ▸ ht)] at h
    cases h
    have hwidth := @beInt_width bs (by omega) (by omega)
    obtain ⟨-, ⟨-, htype⟩ | ⟨-, htype⟩⟩ | ⟨t', n', htype, ht', -, hfirst⟩ :=
      serialType_int (Int64.ofInt (beInt bs)) file_format
    · rw [htype]
      exact hzero
    · rw [htype]
      exact hzero
    · have hn' := width_cases ht'
      have hle := hfirst t bs.length (hbs.symm ▸ ht) hwidth
      rw [htype, UInt32.le_iff_toNat_le, UInt32.toNat_ofNat', UInt32.toNat_ofNat']
      omega
  · have hformat : 4 ≤ file_format := hf.resolve_right (fun hne => hne rfl)
    have hconst (j : Int64) (hj : unsigned j ≤ 127) (hbit : j &&& 1 = j) :
        (sqlite3VdbeSerialType (.int j) file_format).2 = 0 := by
      have htype : sqlite3VdbeSerialType (.int j) file_format = (8 + (unsigned j).toUInt32, 0) :=
        (if_pos hj).trans (if_pos ⟨hbit, hformat⟩)
      rw [htype]
    obtain rfl | rfl := hi
    · rw [hconst 0 (by decide) rfl]
      exact hzero
    · rw [hconst 1 (by decide) rfl]
      exact hzero

/-- **An integer is stored in the fewest bytes it can be read from**, and is read back from these. The
constants that take none are there from file format 4 on. -/
theorem serialType_smallest {t n : UInt32} {buf : List UInt8} {i : Int64}
    (h : sqlite3VdbeSerialGet buf t = some (.int i, n)) {file_format : Nat} (hf : 4 ≤ file_format ∨ n ≠ 0) :
    (sqlite3VdbeSerialType (.int i) file_format).2 ≤ n ∧
      ∃ data, Stored (.int i) (sqlite3VdbeSerialType (.int i) file_format).1
        (sqlite3VdbeSerialType (.int i) file_format).2 data := by
  have hfits : (Mem.int i).Fits := by
    show 2 * 0 + 13 < 2 ^ 32
    decide
  exact ⟨serialType_le h hf, serialGet_stored hfits file_format⟩

/-- All ones in four bytes are −1, which takes one. -/
theorem minusOne_smallest :
    (sqlite3VdbeSerialType (.int (-1)) 1).2 ≤ 4 ∧
      ∃ data, Stored (.int (-1)) (sqlite3VdbeSerialType (.int (-1)) 1).1
        (sqlite3VdbeSerialType (.int (-1)) 1).2 data :=
  @serialType_smallest 4 4 [0xff, 0xff, 0xff, 0xff] (-1) (by decide) 1 (.inr (by decide))

end FuzzerTestSuite.Sqlite
