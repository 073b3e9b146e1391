import FuzzerTestSuite.Sqlite.Record

/-! Comparing a record with an unpacked key.

`sqlite3VdbeRecordCompareWithSkip` compares a record's bytes with the values of a key, field by field, without
unpacking them. `sqlite3VdbeFindCompare` may choose a faster function, for keys that start with an
integer or a text. On the records that `OP_MakeRecord` makes, the first is the comparison of the
values themselves, and so are the chosen ones, up to the size of the result (`findCompare_values`). -/
namespace FuzzerTestSuite.Sqlite

/-! ### Values -/

/-- A double in units of its smallest step, `2 ^ -1074`; the infinities are outside of all the others. -/
def scaled (r : UInt64) : Int :=
  let exponent := (r >>> 52 &&& 0x7ff).toNat
  let fraction := (r &&& 0xfffffffffffff).toNat
  let magnitude := if exponent = 0 then fraction else (2 ^ 52 + fraction) <<< (exponent - 1)
  if r >>> 63 = 0 then (magnitude : Int) else -(magnitude : Int)

/-- `r < s` of doubles. -/
def doubleLt (r s : UInt64) : Bool := !sqlite3IsNaN r && !sqlite3IsNaN s && decide (scaled r < scaled s)

/-- With a `LONGDOUBLE_TYPE` that has every `i64`. -/
def sqlite3IntFloatCompare (i : Int64) (r : UInt64) : Int :=
  let x := i.toInt * 2 ^ 1074
  if sqlite3IsNaN r then 0 else if x < scaled r then -1 else if scaled r < x then 1 else 0

/-- The difference of the first bytes that differ. -/
def memcmp : Nat → List UInt8 → List UInt8 → Int
  | n + 1, x :: s, y :: t => if x = y then memcmp n s t else (x.toNat : Int) - y.toNat
  | _, _, _ => 0

def isAllZero (z : List UInt8) : Bool := z.all (· == 0)

/-- `xCmp`, on texts in its own encoding. -/
abbrev CollSeq := List UInt8 → List UInt8 → Int

def sqlite3BlobCompare (z₁ : List UInt8) (nZero₁ : Nat) (z₂ : List UInt8) (nZero₂ : Nat) : Int :=
  if nZero₁ ≠ 0 ∨ nZero₂ ≠ 0 then
    if nZero₁ ≠ 0 ∧ nZero₂ ≠ 0 then (nZero₁ : Int) - nZero₂
    else if nZero₁ ≠ 0 then
      if !isAllZero z₂ then -1 else (nZero₁ : Int) - z₂.length
    else if !isAllZero z₁ then 1
    else (z₁.length : Int) - nZero₂
  else
    let c := memcmp (min z₁.length z₂.length) z₁ z₂
    if c ≠ 0 then c else (z₁.length : Int) - z₂.length

def sqlite3MemCompare (pMem₁ pMem₂ : Mem) (pColl : Option CollSeq) : Int :=
  match pMem₁, pMem₂ with
  | .null, .null => 0
  | .null, _ => -1
  | _, .null => 1
  | .int i, .int j => if i < j then -1 else if j < i then 1 else 0
  | .real r, .real s => if doubleLt r s then -1 else if doubleLt s r then 1 else 0
  | .int i, .real r => sqlite3IntFloatCompare i r
  | .int _, _ => -1
  | .real r, .int i => -sqlite3IntFloatCompare i r
  | .real _, _ => -1
  | _, .int _ | _, .real _ => 1
  | .str z₁, .str z₂ =>
    match pColl with
    | some xCmp => xCmp z₁ z₂
    | none => sqlite3BlobCompare z₁ 0 z₂ 0
  | .blob _ _, .str _ => 1
  | .str _, .blob _ _ => -1
  | .blob z₁ nZero₁, .blob z₂ nZero₂ => sqlite3BlobCompare z₁ nZero₁ z₂ nZero₂

/-! ### Keys -/

structure KeyInfo where
  nField : Nat
  nXField : Nat
  /-- Whether the column descends. -/
  aSortOrder : Nat → Bool
  aColl : Nat → Option CollSeq

structure UnpackedRecord where
  pKeyInfo : KeyInfo
  aMem : List Mem
  default_rc : Int
  errCode : Nat
  r1 : Int
  r2 : Int
  eqSeen : Bool

def SQLITE_CORRUPT : Nat := 11

/-! ### The comparison -/

def vdbeRecordDecodeInt (serial_type : UInt32) (aKey : List UInt8) : Option Int64 :=
  match serial_type.toNat, aKey with
  | 0, x₀ :: _ | 1, x₀ :: _ => some (ONE_BYTE_INT x₀).toInt64
  | 2, x₀ :: x₁ :: _ => some (TWO_BYTE_INT x₀ x₁).toInt64
  | 3, x₀ :: x₁ :: x₂ :: _ => some (THREE_BYTE_INT x₀ x₁ x₂).toInt64
  | 4, x₀ :: x₁ :: x₂ :: x₃ :: _ => some (FOUR_BYTE_UINT x₀ x₁ x₂ x₃).toInt32.toInt64
  | 5, x₀ :: x₁ :: x₂ :: x₃ :: x₄ :: x₅ :: _ =>
    let high := (1 : Int64) <<< 32 * (TWO_BYTE_INT x₀ x₁).toInt64
    some ((FOUR_BYTE_UINT x₂ x₃ x₄ x₅).toUInt64.toInt64 + high)
  | 6, x₀ :: x₁ :: x₂ :: x₃ :: x₄ :: x₅ :: x₆ :: x₇ :: _ =>
    some ((FOUR_BYTE_UINT x₀ x₁ x₂ x₃).toUInt64 <<< 32 ||| (FOUR_BYTE_UINT x₄ x₅ x₆ x₇).toUInt64).toInt64
  | 0, _ | 1, _ | 2, _ | 3, _ | 4, _ | 5, _ | 6, _ => none
  | _, _ => some (serial_type - 8).toUInt64.toInt64

/-- What the comparison of one field comes to. -/
inductive FieldCompare where
  | corrupt
  | rc (rc : Int) (serial_type : UInt32)

/-- The body of the loop up to `if( rc!=0 )`, with the types and the data of the record at `idx1` and `d1`. -/
def compareField (pKeyInfo : KeyInfo) (nKey1 : Nat) (aKey1 : List UInt8) (i : Nat) (idx1 d1 : UInt32) :
    Mem → Option FieldCompare
  | .int rhs => do
    let serial_type := (← aKey1[idx1.toNat]?).toUInt32
    if 10 ≤ serial_type then return .rc 1 serial_type
    else if serial_type = 0 then return .rc (-1) serial_type
    else if serial_type = 7 then
      let r ← eightBytes (aKey1.drop d1.toNat)
      return .rc (-sqlite3IntFloatCompare rhs r) serial_type
    else
      let lhs ← vdbeRecordDecodeInt serial_type (aKey1.drop d1.toNat)
      return .rc (if lhs < rhs then -1 else if rhs < lhs then 1 else 0) serial_type
  | .real rhs => do
    let serial_type := (← aKey1[idx1.toNat]?).toUInt32
    if 10 ≤ serial_type then return .rc 1 serial_type
    else if serial_type = 0 then return .rc (-1) serial_type
    else if serial_type = 7 then
      let r ← eightBytes (aKey1.drop d1.toNat)
      return .rc (if doubleLt r rhs then -1 else if doubleLt rhs r then 1 else 0) serial_type
    else
      match ← sqlite3VdbeSerialGet (aKey1.drop d1.toNat) serial_type with
      | (.int i, _) => return .rc (sqlite3IntFloatCompare i rhs) serial_type
      | _ => none
  | .str z => do
    let (serial_type, _) ← getVarint32 (aKey1.drop idx1.toNat)
    if serial_type < 12 then return .rc (-1) serial_type
    else if serial_type &&& 1 = 0 then return .rc 1 serial_type
    else
      let n := (serial_type - 12) / 2
      let lhs := (aKey1.drop d1.toNat).take n.toNat
      if UInt32.ofNat nKey1 < d1 + n then return .corrupt
      else
        match pKeyInfo.aColl i with
        | some xCmp => return .rc (xCmp lhs z) serial_type
        | none =>
          let rc := memcmp (min n.toNat z.length) lhs z
          return .rc (if rc = 0 then (n.toNat : Int) - z.length else rc) serial_type
  | .blob z nZero => do
    let (serial_type, _) ← getVarint32 (aKey1.drop idx1.toNat)
    if serial_type < 12 ∨ serial_type &&& 1 ≠ 0 then return .rc (-1) serial_type
    else
      let nStr := (serial_type - 12) / 2
      let lhs := (aKey1.drop d1.toNat).take nStr.toNat
      if UInt32.ofNat nKey1 < d1 + nStr then return .corrupt
      else if nZero ≠ 0 then
        return .rc (if !isAllZero lhs then 1 else (nStr.toNat : Int) - nZero) serial_type
      else
        let rc := memcmp (min nStr.toNat z.length) lhs z
        return .rc (if rc = 0 then (nStr.toNat : Int) - z.length else rc) serial_type
  | .null => do
    let serial_type := (← aKey1[idx1.toNat]?).toUInt32
    return .rc (if serial_type ≠ 0 then 1 else 0) serial_type

/-- The loop, over the fields of the key that are left; `none` is a read past the end of an array. -/
def compareLoop (pPKey2 : UnpackedRecord) (nKey1 : Nat) (aKey1 : List UInt8) (szHdr1 : UInt32) :
    List Mem → Nat → UInt32 → UInt32 → Option (Int × UnpackedRecord)
  | [], _, _, _ => none
  | pRhs :: later, i, idx1, d1 => do
    match ← compareField pPKey2.pKeyInfo nKey1 aKey1 i idx1 d1 pRhs with
    | .corrupt => return (0, { pPKey2 with errCode := SQLITE_CORRUPT })
    | .rc rc serial_type =>
      if rc ≠ 0 then return (if pPKey2.pKeyInfo.aSortOrder i then -rc else rc, pPKey2)
      let n ← sqlite3VarintLen serial_type.toUInt64
      let d1 := d1 + sqlite3VdbeSerialTypeLen serial_type
      let idx1 := idx1 + UInt32.ofNat n
      if idx1 < szHdr1 ∧ later ≠ [] ∧ d1 ≤ UInt32.ofNat nKey1 then
        compareLoop pPKey2 nKey1 aKey1 szHdr1 later (i + 1) idx1 d1
      else return (pPKey2.default_rc, { pPKey2 with eqSeen := true })

def sqlite3VdbeRecordCompareWithSkip (nKey1 : Nat) (aKey1 : List UInt8) (pPKey2 : UnpackedRecord) (bSkip : Bool) :
    Option (Int × UnpackedRecord) := do
  if bSkip then
    let (s1, n) ← getVarint32 (aKey1.drop 1)
    let szHdr1 := (← aKey1[0]?).toUInt32
    let d1 := szHdr1 + sqlite3VdbeSerialTypeLen s1
    compareLoop pPKey2 nKey1 aKey1 szHdr1 (pPKey2.aMem.drop 1) 1 (1 + UInt32.ofNat n) d1
  else
    let (szHdr1, idx1) ← getVarint32 aKey1
    if UInt32.ofNat nKey1 < szHdr1 then return (0, { pPKey2 with errCode := SQLITE_CORRUPT })
    compareLoop pPKey2 nKey1 aKey1 szHdr1 pPKey2.aMem 0 (UInt32.ofNat idx1) szHdr1

def sqlite3VdbeRecordCompare (nKey1 : Nat) (aKey1 : List UInt8) (pPKey2 : UnpackedRecord) :
    Option (Int × UnpackedRecord) :=
  sqlite3VdbeRecordCompareWithSkip nKey1 aKey1 pPKey2 false

/-- What follows when the first fields are equal. -/
def compareTrailing (nKey1 : Nat) (aKey1 : List UInt8) (pPKey2 : UnpackedRecord) : Option (Int × UnpackedRecord) :=
  if 1 < pPKey2.aMem.length then sqlite3VdbeRecordCompareWithSkip nKey1 aKey1 pPKey2 true
  else some (pPKey2.default_rc, { pPKey2 with eqSeen := true })

def vdbeRecordCompareInt (nKey1 : Nat) (aKey1 : List UInt8) (pPKey2 : UnpackedRecord) :
    Option (Int × UnpackedRecord) := do
  let aKey := aKey1.drop ((← aKey1[0]?) &&& 0x3f).toNat
  let serial_type := (← aKey1[1]?).toUInt32
  if serial_type = 0 ∨ serial_type = 7 ∨ 10 ≤ serial_type then
    sqlite3VdbeRecordCompare nKey1 aKey1 pPKey2
  else
    -- the cases of the switch are those of `vdbeRecordDecodeInt`
    let lhs ← vdbeRecordDecodeInt serial_type aKey
    match pPKey2.aMem with
    | .int v :: _ =>
      if lhs < v then return (pPKey2.r1, pPKey2)
      else if v < lhs then return (pPKey2.r2, pPKey2)
      else compareTrailing nKey1 aKey1 pPKey2
    | _ => none

def vdbeRecordCompareString (nKey1 : Nat) (aKey1 : List UInt8) (pPKey2 : UnpackedRecord) :
    Option (Int × UnpackedRecord) := do
  let (serial_type, _) ← getVarint32 (aKey1.drop 1)
  if serial_type.toInt32 < 12 then return (pPKey2.r1, pPKey2)
  else if serial_type &&& 1 = 0 then return (pPKey2.r2, pPKey2)
  else
    let szHdr := (← aKey1[0]?).toNat
    let nStr := ((serial_type - 12) / 2).toNat
    if nKey1 < szHdr + nStr then return (0, { pPKey2 with errCode := SQLITE_CORRUPT })
    match pPKey2.aMem with
    | .str z :: _ =>
      let res := memcmp (min z.length nStr) (aKey1.drop szHdr) z
      if res = 0 then
        let res := (nStr : Int) - z.length
        if res = 0 then compareTrailing nKey1 aKey1 pPKey2
        else if 0 < res then return (pPKey2.r2, pPKey2)
        else return (pPKey2.r1, pPKey2)
      else if 0 < res then return (pPKey2.r2, pPKey2)
      else return (pPKey2.r1, pPKey2)
    | _ => none

/-- A function for comparing records. -/
inductive RecordCompare where
  | recordCompare
  | compareInt
  | compareString

def RecordCompare.run : RecordCompare → Nat → List UInt8 → UnpackedRecord → Option (Int × UnpackedRecord)
  | .recordCompare => sqlite3VdbeRecordCompare
  | .compareInt => vdbeRecordCompareInt
  | .compareString => vdbeRecordCompareString

/-- `p->r1` and `p->r2`. -/
def setResults (p : UnpackedRecord) : UnpackedRecord :=
  if p.pKeyInfo.aSortOrder 0 then { p with r1 := 1, r2 := -1 } else { p with r1 := -1, r2 := 1 }

/-- The function for a key, and the key with its results for less and greater. -/
def sqlite3VdbeFindCompare (p : UnpackedRecord) : RecordCompare × UnpackedRecord :=
  if p.pKeyInfo.nField + p.pKeyInfo.nXField ≤ 13 then
    match p.aMem with
    | .int _ :: _ => (.compareInt, setResults p)
    | .str _ :: _ =>
      if (p.pKeyInfo.aColl 0).isNone then (.compareString, setResults p) else (.recordCompare, setResults p)
    | _ => (.recordCompare, setResults p)
  else (.recordCompare, p)

/-! ### What is in the record -/

theorem small_size : ∀ k < 128, 12 ≤ k → (sqlite3SmallTypeSizes[k]?.getD 0).toNat = (k - 12) / 2 := by decide

theorem large_typeLen {t : UInt32} (ht : 12 ≤ t.toNat) : sqlite3VdbeSerialTypeLen t = (t - 12) / 2 := by
  by_cases h128 : 128 ≤ t
  · exact if_pos h128
  · have hlt : t.toNat < 128 := Nat.lt_of_not_le (UInt32.le_iff_toNat_le.not.mp h128)
    have hle : (12 : UInt32) ≤ t := UInt32.le_iff_toNat_le.mpr ht
    rw [sqlite3VdbeSerialTypeLen, if_neg h128, ← UInt32.toNat_inj, UInt8.toNat_toUInt32, small_size _ hlt ht,
      UInt32.toNat_div, UInt32.toNat_sub_of_le _ _ hle]
    rfl

/-- The reader takes as many bytes as the type says. -/
theorem serialGet_len {buf : List UInt8} {t n : UInt32} {mem : Mem}
    (h : sqlite3VdbeSerialGet buf t = some (mem, n)) : sqlite3VdbeSerialTypeLen t = n := by
  have hword {w : UInt32} (hw : t.toNat = w.toNat) : t = w := UInt32.toNat_inj.mp hw
  have height {w : UInt32} (hget : serialGet buf w = some (mem, n)) : n = 8 := by
    obtain ⟨x, -, hx⟩ := Option.bind_eq_some_iff.mp hget
    split at hx <;> cases hx <;> rfl
  by_cases ht : 12 ≤ t.toNat
  · rw [serialGet_large ht] at h
    cases h
    exact large_typeLen ht
  · unfold sqlite3VdbeSerialGet at h
    split at h
    case h_9 | h_10 | h_11 | h_12 | h_13 => cases h
    case h_1 hk => cases hword (w := 10) hk; cases h; rfl
    case h_2 hk => cases hword (w := 11) hk; cases h; rfl
    case h_3 hk => cases hword (w := 0) hk; cases h; rfl
    case h_4 hk => cases hword (w := 1) hk; cases h; rfl
    case h_5 hk => cases hword (w := 2) hk; cases h; rfl
    case h_6 hk => cases hword (w := 3) hk; cases h; rfl
    case h_7 hk => cases hword (w := 4) hk; cases h; rfl
    case h_8 hk => cases hword (w := 5) hk; cases h; rfl
    case h_14 hk => cases hword (w := 6) hk; rw [height h]; rfl
    case h_15 hk => cases hword (w := 7) hk; rw [height h]; rfl
    case h_16 hk => cases hword (w := 8) hk; cases h; rfl
    case h_17 hk => cases hword (w := 9) hk; cases h; rfl
    case h_18 =>
      simp only [imp_false] at *
      omega

/-- What a value says of its type and of its bytes. -/
inductive Kind (t : UInt32) (buf : List UInt8) : Mem → Prop
  | null (ht : t = 0) : Kind t buf .null
  | int (i : Int64) (h₀ : t ≠ 0) (h₇ : t ≠ 7) (h₁₀ : ¬10 ≤ t) (h : vdbeRecordDecodeInt t buf = some i)
      (hget : ∃ n, sqlite3VdbeSerialGet buf t = some (.int i, n)) : Kind t buf (.int i)
  | real (r : UInt64) (ht : t = 7) (h : eightBytes buf = some r) : Kind t buf (.real r)
  | str (h₁₂ : 12 ≤ t.toNat) (hodd : t &&& 1 = 1) : Kind t buf (.str (buf.take ((t - 12) / 2).toNat))
  | blob (h₁₂ : 12 ≤ t.toNat) (heven : t &&& 1 = 0) : Kind t buf (.blob (buf.take ((t - 12) / 2).toNat) 0)

theorem four_byte_int (x₀ x₁ x₂ x₃ : UInt8) :
    FOUR_BYTE_INT x₀ x₁ x₂ x₃ = (FOUR_BYTE_UINT x₀ x₁ x₂ x₃).toInt32 := by
  have hbmod : (FOUR_BYTE_UINT x₀ x₁ x₂ x₃).toInt32.toInt =
      ((FOUR_BYTE_UINT x₀ x₁ x₂ x₃).toNat : Int).bmod (2 ^ 32) := BitVec.toInt_eq_toNat_bmod _
  rw [← Int32.toInt_inj, hbmod, four_byte_toInt, four_byte_toNat]

theorem eight_byte_or (x y : UInt32) : x.toUInt64 <<< 32 ||| y.toUInt64 = x.toUInt64 <<< 32 + y.toUInt64 := by
  have hx := x.toNat_lt
  have hy := y.toNat_lt
  have hshift : (x.toUInt64 <<< 32).toNat = 2 ^ 32 * x.toNat := by
    have hdef : (x.toUInt64 <<< 32).toNat = x.toUInt64.toNat <<< 32 % 2 ^ 64 := rfl
    rw [hdef, UInt32.toNat_toUInt64, Nat.shiftLeft_eq]
    omega
  rw [← UInt64.toNat_inj, join_toNat, UInt64.toNat_add, hshift, UInt32.toNat_toUInt64, Nat.mod_eq_of_lt (by omega)]

theorem large_kind {buf : List UInt8} {t n : UInt32} {mem : Mem} (ht : 12 ≤ t.toNat)
    (h : sqlite3VdbeSerialGet buf t = some (mem, n)) : Kind t buf mem := by
  rw [serialGet_large ht] at h
  by_cases hodd : t &&& 1 = 1
  · rw [if_pos hodd] at h
    cases h
    exact .str ht hodd
  · have heven : t &&& 1 = 0 := by
      rw [← UInt32.toNat_inj, UInt32.toNat_and] at hodd ⊢
      have hone : (1 : UInt32).toNat = 1 := rfl
      have hzero : (0 : UInt32).toNat = 0 := rfl
      rw [hone, Nat.and_one_is_mod] at hodd ⊢
      omega
    rw [if_neg hodd] at h
    cases h
    exact .blob ht heven

/-- The eight bytes of an integer are read as one word, and as two where keys are compared. -/
theorem eight_kind {buf : List UInt8} {n : UInt32} {mem : Mem} (h : sqlite3VdbeSerialGet buf 6 = some (mem, n)) :
    Kind 6 buf mem := by
  have hget := h
  replace h : serialGet buf 6 = some (mem, n) := h
  unfold serialGet eightBytes at h
  split at h
  · cases h
    refine .int _ (by decide) (by decide) (by decide) ?_ ⟨_, hget⟩
    rw [← eight_byte_or]
    rfl
  · cases h

theorem real_kind {buf : List UInt8} {n : UInt32} {mem : Mem} (h : sqlite3VdbeSerialGet buf 7 = some (mem, n))
    (hnull : mem ≠ .null) : Kind 7 buf mem := by
  obtain ⟨x, hx, hvalue⟩ := Option.bind_eq_some_iff.mp (show serialGet buf 7 = some (mem, n) from h)
  rw [if_neg (by decide)] at hvalue
  by_cases hnan : sqlite3IsNaN x
  · rw [if_pos hnan] at hvalue
    cases hvalue
    exact absurd rfl hnull
  · rw [if_neg hnan] at hvalue
    cases hvalue
    exact .real x rfl hx

/-- A NaN aside, values are of their kind. -/
theorem serialGet_kind {buf : List UInt8} {t n : UInt32} {mem : Mem}
    (h : sqlite3VdbeSerialGet buf t = some (mem, n)) (hnull : mem = .null → t = 0) : Kind t buf mem := by
  have hword {w : UInt32} (hw : t.toNat = w.toNat) : t = w := UInt32.toNat_inj.mp hw
  have hget := h
  by_cases ht : 12 ≤ t.toNat
  · exact large_kind ht h
  · unfold sqlite3VdbeSerialGet at h
    split at h
    case h_9 | h_10 | h_11 | h_12 | h_13 => cases h
    case h_1 hk | h_2 hk | h_3 hk =>
      cases h
      exact .null (hnull rfl)
    case h_4 hk =>
      cases hword (w := 1) hk
      cases h
      exact .int _ (by decide) (by decide) (by decide) rfl ⟨_, hget⟩
    case h_5 hk =>
      cases hword (w := 2) hk
      cases h
      exact .int _ (by decide) (by decide) (by decide) rfl ⟨_, hget⟩
    case h_6 hk =>
      cases hword (w := 3) hk
      cases h
      exact .int _ (by decide) (by decide) (by decide) rfl ⟨_, hget⟩
    case h_7 hk =>
      cases hword (w := 4) hk
      cases h
      refine .int _ (by decide) (by decide) (by decide) ?_ ⟨_, hget⟩
      rw [four_byte_int]
      rfl
    case h_8 hk =>
      cases hword (w := 5) hk
      cases h
      exact .int _ (by decide) (by decide) (by decide) rfl ⟨_, hget⟩
    case h_14 hk =>
      cases hword (w := 6) hk
      exact eight_kind hget
    case h_15 hk =>
      cases hword (w := 7) hk
      exact real_kind hget fun h => absurd (hnull h) (by decide)
    case h_16 hk =>
      cases hword (w := 8) hk
      cases h
      exact .int _ (by decide) (by decide) (by decide) rfl ⟨_, hget⟩
    case h_17 hk =>
      cases hword (w := 9) hk
      cases h
      exact .int _ (by decide) (by decide) (by decide) rfl ⟨_, hget⟩
    case h_18 =>
      simp only [imp_false] at *
      omega

/-- The first byte of a type: the type itself, or a sign that it is a longer one. -/
theorem putVarint32_head {t : UInt32} {type : List UInt8} (h : putVarint32 t = some type) :
    ∃ b rest, type = b :: rest ∧ (b.toUInt32 = t ∨ 128 ≤ b.toNat ∧ 128 ≤ t.toNat) := by
  obtain ⟨p, n, hput, hlen, -, -⟩ := putVarint32_spec t
  cases hput.symm.trans h
  cases type with
  | nil => cases hlen
  | cons b rest =>
    refine ⟨b, rest, rfl, ?_⟩
    have hget := getVarint32_put h []
    by_cases hb : b < 0x80
    · have hone : getVarint32 (b :: (rest ++ [])) = some (b.toUInt32, 1) := if_pos hb
      exact .inl (congrArg Prod.fst (Option.some.inj (hone.symm.trans hget)))
    · have hb' : ¬b.toNat < 128 := UInt8.lt_iff_toNat_lt.not.mp hb
      refine .inr ⟨by omega, ?_⟩
      by_contra ht
      have hput' : putVarint32 t = some [t.toUInt8] := if_pos (UInt32.lt_iff_toNat_lt.mpr (by
        show t.toNat < 128
        omega))
      cases hput'.symm.trans h
      rw [UInt32.toNat_toUInt8] at hb'
      omega

/-! ### One field -/

/-- A field of a record at the two positions. -/
structure FieldAt (nKey1 : Nat) (aKey1 : List UInt8) (idx1 d1 : UInt32) (mem : Mem) (t : UInt32)
    (type content headerTail after : List UInt8) : Prop where
  type_eq : putVarint32 t = some type
  header : aKey1.drop idx1.toNat = type ++ headerTail
  data : aKey1.drop d1.toNat = content ++ after
  get : ∃ len : UInt32, content.length = len.toNat ∧ ∀ tail, sqlite3VdbeSerialGet (content ++ tail) t = some (mem, len)
  room : d1.toNat + content.length ≤ nKey1
  int : nKey1 < 2 ^ 31
  null : mem = .null → t = 0

/-- The comparison of the field with a cell of the key is that of the values; the type it is left with is the
field's, unless the comparison is over. -/
def Agrees (result : Option FieldCompare) (rc : Int) (t : UInt32) : Prop :=
  ∃ st, result = some (.rc rc st) ∧ (rc = 0 → st = t)

theorem small_of_lt {t : UInt32} (h : ¬10 ≤ t) : t.toNat < 128 := by
  have hlt : t.toNat < 10 := Nat.lt_of_not_le (UInt32.le_iff_toNat_le.not.mp h)
  omega

theorem not_large {t : UInt32} (ht : 12 ≤ t.toNat) : ¬t < 12 := by
  rw [UInt32.lt_iff_toNat_lt]
  exact Nat.not_lt.mpr ht

theorem lt_twelve {t : UInt32} (ht : ¬10 ≤ t) : t < 12 := by
  have hlt : t.toNat < 10 := Nat.lt_of_not_le (UInt32.le_iff_toNat_le.not.mp ht)
  rw [UInt32.lt_iff_toNat_lt]
  exact hlt.trans (by decide)

/-- The comparison of two runs of bytes as the record's comparison makes it. -/
theorem blobCompare_bytes (z₁ z₂ : List UInt8) :
    sqlite3BlobCompare z₁ 0 z₂ 0 =
      if memcmp (min z₁.length z₂.length) z₁ z₂ = 0 then (z₁.length : Int) - z₂.length
      else memcmp (min z₁.length z₂.length) z₁ z₂ := by
  rw [sqlite3BlobCompare, if_neg (by decide)]
  exact ite_not ..

section Field
variable {nKey1 i : Nat} {aKey1 type content headerTail after : List UInt8} {idx1 d1 t : UInt32} {mem : Mem}
  (h : FieldAt nKey1 aKey1 idx1 d1 mem t type content headerTail after) (k : KeyInfo)
include h

theorem FieldAt.kind : Kind t (aKey1.drop d1.toNat) mem := by
  obtain ⟨len, -, hget⟩ := h.get
  rw [h.data]
  exact serialGet_kind (hget after) h.null

theorem FieldAt.typeLen : (sqlite3VdbeSerialTypeLen t).toNat = content.length := by
  obtain ⟨len, hlen, hget⟩ := h.get
  rw [hlen, serialGet_len (hget after)]

theorem FieldAt.byte :
    ∃ b, aKey1[idx1.toNat]? = some b ∧ (b.toUInt32 = t ∨ 128 ≤ b.toUInt32.toNat ∧ 128 ≤ t.toNat) := by
  obtain ⟨b, rest, htype, hb⟩ := putVarint32_head h.type_eq
  have hget : (aKey1.drop idx1.toNat)[0]? = some b := by
    rw [h.header, htype]
    rfl
  rw [List.getElem?_drop, Nat.add_zero] at hget
  exact ⟨b, hget, by rwa [UInt8.toNat_toUInt32]⟩

/-- A text or a blob is all there. -/
theorem FieldAt.bytes (ht : 12 ≤ t.toNat) :
    ((aKey1.drop d1.toNat).take ((t - 12) / 2).toNat).length = ((t - 12) / 2).toNat ∧
      ¬UInt32.ofNat nKey1 < d1 + (t - 12) / 2 := by
  have hlen := h.typeLen
  have hroom := h.room
  have hint := h.int
  rw [large_typeLen ht] at hlen
  constructor
  · rw [h.data, hlen, List.take_left' rfl]
  · rw [UInt32.lt_iff_toNat_lt, UInt32.toNat_ofNat', UInt32.toNat_add, hlen]
    omega

theorem FieldAt.byte_small (ht : t.toNat < 128) : ∃ b, aKey1[idx1.toNat]? = some b ∧ b.toUInt32 = t := by
  obtain ⟨b, hb, hsame⟩ := h.byte
  exact ⟨b, hb, hsame.resolve_right fun hlong => by omega⟩

theorem FieldAt.byte_large (ht : 12 ≤ t.toNat) : ∃ b, aKey1[idx1.toNat]? = some b ∧ (10 : UInt32) ≤ b.toUInt32 := by
  obtain ⟨b, hb, hsame⟩ := h.byte
  refine ⟨b, hb, UInt32.le_iff_toNat_le.mpr ?_⟩
  show 10 ≤ b.toUInt32.toNat
  obtain heq | hlong := hsame
  · rw [heq]
    omega
  · omega

theorem compareField_int (rhs : Int64) :
    Agrees (compareField k nKey1 aKey1 i idx1 d1 (.int rhs)) (sqlite3MemCompare mem (.int rhs) (k.aColl i)) t := by
  rw [compareField]
  cases h.kind with
  | null ht =>
    subst ht
    obtain ⟨b, hb, hsame⟩ := h.byte_small (by decide)
    rw [hb, Option.bind_eq_bind, Option.bind_some, hsame]
    exact ⟨0, rfl, fun _ => rfl⟩
  | int j h₀ h₇ h₁₀ hdecode =>
    obtain ⟨b, hb, hsame⟩ := h.byte_small (small_of_lt h₁₀)
    rw [hb, Option.bind_eq_bind, Option.bind_some, hsame]
    simp only [if_neg h₁₀, if_neg h₀, if_neg h₇, hdecode]
    exact ⟨t, rfl, fun _ => rfl⟩
  | real r ht hread =>
    subst ht
    obtain ⟨b, hb, hsame⟩ := h.byte_small (by decide)
    rw [hb, Option.bind_eq_bind, Option.bind_some, hsame]
    simp only [hread]
    exact ⟨7, rfl, fun _ => rfl⟩
  | str h₁₂ | blob h₁₂ =>
    obtain ⟨b, hb, hlarge⟩ := h.byte_large h₁₂
    rw [hb, Option.bind_eq_bind, Option.bind_some]
    simp only [if_pos hlarge]
    exact ⟨_, rfl, fun hzero => absurd (show (1 : Int) = 0 from hzero) (by decide)⟩

theorem compareField_real (rhs : UInt64) :
    Agrees (compareField k nKey1 aKey1 i idx1 d1 (.real rhs)) (sqlite3MemCompare mem (.real rhs) (k.aColl i)) t := by
  rw [compareField]
  cases h.kind with
  | null ht =>
    subst ht
    obtain ⟨b, hb, hsame⟩ := h.byte_small (by decide)
    rw [hb, Option.bind_eq_bind, Option.bind_some, hsame]
    exact ⟨0, rfl, fun _ => rfl⟩
  | int j h₀ h₇ h₁₀ hdecode hget =>
    obtain ⟨n, hget⟩ := hget
    obtain ⟨b, hb, hsame⟩ := h.byte_small (small_of_lt h₁₀)
    rw [hb, Option.bind_eq_bind, Option.bind_some, hsame]
    simp only [if_neg h₁₀, if_neg h₀, if_neg h₇, hget]
    exact ⟨t, rfl, fun _ => rfl⟩
  | real r ht hread =>
    subst ht
    obtain ⟨b, hb, hsame⟩ := h.byte_small (by decide)
    rw [hb, Option.bind_eq_bind, Option.bind_some, hsame]
    simp only [hread]
    exact ⟨7, rfl, fun _ => rfl⟩
  | str h₁₂ | blob h₁₂ =>
    obtain ⟨b, hb, hlarge⟩ := h.byte_large h₁₂
    rw [hb, Option.bind_eq_bind, Option.bind_some]
    simp only [if_pos hlarge]
    exact ⟨_, rfl, fun hzero => absurd (show (1 : Int) = 0 from hzero) (by decide)⟩

theorem compareField_null :
    Agrees (compareField k nKey1 aKey1 i idx1 d1 .null) (sqlite3MemCompare mem .null (k.aColl i)) t := by
  rw [compareField]
  cases h.kind with
  | null ht =>
    subst ht
    obtain ⟨b, hb, hsame⟩ := h.byte_small (by decide)
    rw [hb, Option.bind_eq_bind, Option.bind_some, hsame]
    exact ⟨0, rfl, fun _ => rfl⟩
  | int j h₀ h₇ h₁₀ =>
    obtain ⟨b, hb, hsame⟩ := h.byte_small (small_of_lt h₁₀)
    rw [hb, Option.bind_eq_bind, Option.bind_some, hsame]
    simp only [if_pos h₀]
    exact ⟨t, rfl, fun _ => rfl⟩
  | real r ht =>
    subst ht
    obtain ⟨b, hb, hsame⟩ := h.byte_small (by decide)
    rw [hb, Option.bind_eq_bind, Option.bind_some, hsame]
    exact ⟨7, rfl, fun _ => rfl⟩
  | str h₁₂ | blob h₁₂ =>
    obtain ⟨b, hb, hlarge⟩ := h.byte_large h₁₂
    have hne : b.toUInt32 ≠ 0 := fun hzero => by
      rw [hzero] at hlarge
      exact absurd hlarge (by decide)
    rw [hb, Option.bind_eq_bind, Option.bind_some]
    simp only [if_pos hne]
    exact ⟨_, rfl, fun hzero => absurd (show (1 : Int) = 0 from hzero) (by decide)⟩

theorem FieldAt.getType : getVarint32 (aKey1.drop idx1.toNat) = some (t, type.length) := by
  rw [h.header]
  exact getVarint32_put h.type_eq headerTail

theorem compareField_str (z : List UInt8) :
    Agrees (compareField k nKey1 aKey1 i idx1 d1 (.str z)) (sqlite3MemCompare mem (.str z) (k.aColl i)) t := by
  rw [compareField, h.getType, Option.bind_eq_bind, Option.bind_some]
  cases h.kind with
  | null ht | real _ ht =>
    subst ht
    exact ⟨_, rfl, fun _ => rfl⟩
  | int j h₀ h₇ h₁₀ =>
    simp only [if_pos (lt_twelve h₁₀)]
    exact ⟨t, rfl, fun _ => rfl⟩
  | str h₁₂ hodd =>
    obtain ⟨hlen, hroom⟩ := h.bytes h₁₂
    have hodd' : ¬t &&& 1 = 0 := by rw [hodd]; decide
    simp only [if_neg (not_large h₁₂), if_neg hodd', if_neg hroom]
    cases hcoll : k.aColl i with
    | some xCmp => exact ⟨t, rfl, fun _ => rfl⟩
    | none =>
      have hcompare := blobCompare_bytes ((aKey1.drop d1.toNat).take ((t - 12) / 2).toNat) z
      rw [hlen] at hcompare
      refine ⟨t, ?_, fun _ => rfl⟩
      show _ = some (FieldCompare.rc (sqlite3BlobCompare _ 0 z 0) t)
      rw [hcompare]
      rfl
  | blob h₁₂ heven =>
    simp only [if_neg (not_large h₁₂), if_pos heven]
    exact ⟨t, rfl, fun _ => rfl⟩

theorem compareField_blob (z : List UInt8) (nZero : Nat) :
    Agrees (compareField k nKey1 aKey1 i idx1 d1 (.blob z nZero)) (sqlite3MemCompare mem (.blob z nZero) (k.aColl i))
      t := by
  rw [compareField, h.getType, Option.bind_eq_bind, Option.bind_some]
  cases h.kind with
  | null ht | real _ ht =>
    subst ht
    exact ⟨_, rfl, fun _ => rfl⟩
  | int j h₀ h₇ h₁₀ =>
    simp only [if_pos (Or.inl (lt_twelve h₁₀))]
    exact ⟨t, rfl, fun _ => rfl⟩
  | str h₁₂ hodd =>
    have hodd' : t &&& 1 ≠ 0 := by rw [hodd]; decide
    simp only [if_pos (Or.inr hodd')]
    exact ⟨t, rfl, fun _ => rfl⟩
  | blob h₁₂ heven =>
    obtain ⟨hlen, hroom⟩ := h.bytes h₁₂
    have hbytes : ¬(t < 12 ∨ t &&& 1 ≠ 0) := fun hor => hor.elim (not_large h₁₂) fun hne => hne heven
    simp only [if_neg hbytes, if_neg hroom]
    by_cases hzero : nZero = 0
    · have hcompare := blobCompare_bytes ((aKey1.drop d1.toNat).take ((t - 12) / 2).toNat) z
      subst hzero
      rw [hlen] at hcompare
      refine ⟨t, ?_, fun _ => rfl⟩
      show _ = some (FieldCompare.rc (sqlite3BlobCompare _ 0 z 0) t)
      rw [hcompare]
      rfl
    · simp only [ne_eq, hzero, not_false_eq_true, if_true]
      refine ⟨t, ?_, fun _ => rfl⟩
      simp only [sqlite3MemCompare, sqlite3BlobCompare, hlen, ne_eq, hzero, not_false_eq_true, not_true_eq_false,
        or_true, and_true, if_true, if_false]
      rfl

/-- A field is compared as its value is. -/
theorem compareField_value (pRhs : Mem) :
    Agrees (compareField k nKey1 aKey1 i idx1 d1 pRhs) (sqlite3MemCompare mem pRhs (k.aColl i)) t := by
  cases pRhs with
  | null => exact compareField_null h k
  | int rhs => exact compareField_int h k rhs
  | real rhs => exact compareField_real h k rhs
  | str z => exact compareField_str h k z
  | blob z nZero => exact compareField_blob h k z nZero

end Field

/-! ### All fields -/

/-- The comparison of values with a key, from column `i` on, and whether nothing told them apart. -/
def compareValues (p : UnpackedRecord) : Nat → List Mem → List Mem → Int × Bool
  | i, pMem :: mems, pRhs :: later =>
    let rc := sqlite3MemCompare pMem pRhs (p.pKeyInfo.aColl i)
    if rc ≠ 0 then (if p.pKeyInfo.aSortOrder i then -rc else rc, false)
    else compareValues p (i + 1) mems later
  | _, _, _ => (p.default_rc, true)

/-- What a comparison leaves: its result, and `eqSeen` if nothing told the two apart. -/
def compared (p : UnpackedRecord) (r : Int × Bool) : Int × UnpackedRecord :=
  (r.1, if r.2 then { p with eqSeen := true } else p)

theorem compareValues_nil (p : UnpackedRecord) (i : Nat) (later : List Mem) :
    compareValues p i [] later = (p.default_rc, true) := rfl

theorem compareValues_end (p : UnpackedRecord) (i : Nat) (mems : List Mem) :
    compareValues p i mems [] = (p.default_rc, true) := by
  cases mems <;> rfl

theorem varintLen_type {t : UInt32} {type : List UInt8} (h : putVarint32 t = some type) :
    0 < type.length ∧ sqlite3VarintLen t.toUInt64 = some type.length := by
  obtain ⟨p, n, hput, hlen, habove, -⟩ := putVarint32_spec t
  cases hput.symm.trans h
  exact ⟨by omega, hlen ▸ varintLen_above (by rwa [UInt32.toNat_toUInt64])⟩

/-- A header ends where the fields do. -/
theorem Lays.header_pos {fields : List (Mem × UInt32)} {header data : List UInt8} (h : Lays fields header data)
    (hne : fields ≠ []) : 0 < header.length := by
  cases h with
  | nil => exact absurd rfl hne
  | cons htype =>
    rw [List.length_append]
    exact Nat.add_pos_left (varintLen_type htype).1 _

theorem compareValues_equal {p : UnpackedRecord} {i : Nat} {mem pRhs : Mem} {mems later : List Mem}
    (h : sqlite3MemCompare mem pRhs (p.pKeyInfo.aColl i) = 0) :
    compareValues p i (mem :: mems) (pRhs :: later) = compareValues p (i + 1) mems later := by
  rw [compareValues]
  simp only [h, ne_eq, not_true_eq_false, if_false]

theorem compareValues_differ {p : UnpackedRecord} {i : Nat} {mem pRhs : Mem} {mems later : List Mem}
    (h : sqlite3MemCompare mem pRhs (p.pKeyInfo.aColl i) ≠ 0) :
    compareValues p i (mem :: mems) (pRhs :: later) =
      (if p.pKeyInfo.aSortOrder i then -sqlite3MemCompare mem pRhs (p.pKeyInfo.aColl i)
        else sqlite3MemCompare mem pRhs (p.pKeyInfo.aColl i), false) := by
  rw [compareValues]
  simp only [ne_eq, h, not_false_eq_true, if_true]

/-- Without a field or without a value to compare with, nothing tells the two apart. -/
theorem compareValues_stop {p : UnpackedRecord} {i : Nat} {fields : List (Mem × UInt32)} {later : List Mem}
    (h : fields = [] ∨ later = []) : compareValues p i (fields.map Prod.fst) later = (p.default_rc, true) := by
  obtain rfl | rfl := h
  · exact compareValues_nil ..
  · exact compareValues_end ..

theorem Lays.header_ne {fields : List (Mem × UInt32)} {header data : List UInt8} (h : Lays fields header data) :
    header ≠ [] ↔ fields ≠ [] := by
  refine ⟨fun hne hnil => ?_, fun hne => List.ne_nil_of_length_pos (h.header_pos hne)⟩
  subst hnil
  cases h
  exact hne rfl

theorem compareLoop_values {p : UnpackedRecord} {fields : List (Mem × UInt32)} {header data : List UInt8}
    (h : Lays fields header data) (hnull : ∀ f ∈ fields, f.1 = .null → f.2 = 0) (hfields : fields ≠ [])
    {aKey1 after : List UInt8} {nKey1 i : Nat} {szHdr1 idx1 d1 : UInt32}
    (hrest : Rest aKey1 nKey1 szHdr1 idx1 d1 header data after) {later : List Mem} (hlater : later ≠ []) :
    compareLoop p nKey1 aKey1 szHdr1 later i idx1 d1 =
      some (compared p (compareValues p i (fields.map Prod.fst) later)) := by
  induction h generalizing idx1 d1 i later with
  | nil => exact absurd rfl hfields
  | @cons mem t len fields type content header data htype hcontent hlen h ih =>
    cases later with
    | nil => exact absurd rfl hlater
    | cons pRhs later =>
      have hhdr := hrest.header_eq
      have hdata := hrest.data_eq
      have hroom := hrest.room
      rw [List.append_assoc] at hhdr hdata
      rw [List.length_append] at hroom
      have hat : FieldAt nKey1 aKey1 idx1 d1 mem t type content (header ++ aKey1.drop szHdr1.toNat) (data ++ after) :=
        { type_eq := htype
          header := hhdr
          data := hdata
          get := ⟨len, hlen, hcontent⟩
          room := by omega
          int := hrest.int
          null := hnull (mem, t) (List.mem_cons_self ..) }
      obtain ⟨st, hcompare, hst⟩ := compareField_value (i := i) hat p.pKeyInfo pRhs
      rw [compareLoop, hcompare, Option.bind_eq_bind, Option.bind_some, List.map_cons]
      by_cases hrc : sqlite3MemCompare mem pRhs (p.pKeyInfo.aColl i) = 0
      · obtain ⟨-, hvarint⟩ := varintLen_type htype
        have hnext := hrest.next hat.typeLen
        rw [hst hrc, compareValues_equal hrc]
        simp only [hrc, ne_eq, not_true_eq_false, if_false, hvarint]
        by_cases hstop : fields = [] ∨ later = []
        · have hcond : ¬(idx1 + UInt32.ofNat type.length < szHdr1 ∧ later ≠ [] ∧
              d1 + sqlite3VdbeSerialTypeLen t ≤ UInt32.ofNat nKey1) := fun hand =>
            hstop.elim (h.header_ne.mp (hnext.lt_iff.mp hand.1)) hand.2.1
          rw [compareValues_stop hstop]
          exact if_neg hcond
        · rw [not_or] at hstop
          have hcond : idx1 + UInt32.ofNat type.length < szHdr1 ∧ later ≠ [] ∧
              d1 + sqlite3VdbeSerialTypeLen t ≤ UInt32.ofNat nKey1 :=
            ⟨hnext.lt_iff.mpr (h.header_ne.mpr hstop.1), hstop.2, hnext.le⟩
          have hlaterNull : ∀ f ∈ fields, f.1 = .null → f.2 = 0 :=
            fun f hf => hnull f (List.mem_cons_of_mem _ hf)
          exact (if_pos hcond).trans (ih hlaterNull hstop.1 hnext hstop.2)
      · rw [compareValues_differ hrc]
        simp only [ne_eq, hrc, not_false_eq_true, if_true]
        rfl

/-- Without a NaN, a value that is NULL has the type of NULL. -/
theorem typed_null {file_format : Nat} {regs : List Mem} (hnan : ∀ r, Mem.real r ∈ regs → ¬sqlite3IsNaN r) :
    ∀ f ∈ typed file_format regs, f.1 = .null → f.2 = 0 := by
  intro f hf hnull
  obtain ⟨pMem, hmem, rfl⟩ := List.mem_map.mp hf
  cases pMem with
  | null => rfl
  | int | str | blob => cases hnull
  | real r =>
    have hstored : (Mem.real r).stored = .real r := if_neg (hnan r hmem)
    exact absurd (hstored.symm.trans hnull) (by simp)

/-- **A record is compared with a key as its values are**, whatever comes after it in memory. -/
theorem compare_record {fields : List (Mem × UInt32)} {aKey1 : List UInt8} (h : IsRecord fields aKey1)
    (hnull : ∀ f ∈ fields, f.1 = .null → f.2 = 0) (hfields : fields ≠ []) {p : UnpackedRecord} (hp : p.aMem ≠ [])
    (after : List UInt8) : sqlite3VdbeRecordCompare aKey1.length (aKey1 ++ after) p =
      some (compared p (compareValues p 0 (fields.map Prod.fst) p.aMem)) := by
  obtain ⟨size, header, data, rfl, hlayout⟩ := h
  have hstart := hlayout.start after
  have hsize : getVarint32 (size ++ header ++ data ++ after) =
      some (UInt32.ofNat (size.length + header.length), size.length) := by
    simp only [List.append_assoc]
    exact getVarint32_put hlayout.size_eq _
  have hroom : ¬UInt32.ofNat (size ++ header ++ data).length < UInt32.ofNat (size.length + header.length) :=
    UInt32.not_lt.mpr hstart.le
  rw [sqlite3VdbeRecordCompare, sqlite3VdbeRecordCompareWithSkip, hsize]
  simp only [Bool.false_eq_true, if_false, Option.bind_eq_bind, Option.bind_some, if_neg hroom]
  exact compareLoop_values hlayout.lays hnull hfields hstart hp

/-! ### The faster functions -/

theorem type_length_le {t : UInt32} {type : List UInt8} (h : putVarint32 t = some type) : type.length ≤ 5 := by
  obtain ⟨p, n, hput, hlen, habove, -⟩ := putVarint32_spec t
  cases hput.symm.trans h
  have hlt := t.toNat_lt
  have := habove.mono (w := 2 ^ 32) (m := 4) ⟨by decide, .inr (by decide)⟩ (by omega)
  omega

theorem Lays.header_le {fields : List (Mem × UInt32)} {header data : List UInt8} (h : Lays fields header data) :
    header.length ≤ 5 * fields.length := by
  induction h with
  | nil => exact Nat.le_refl _
  | cons htype _ _ _ ih =>
    have := type_length_le htype
    rw [List.length_append, List.length_cons]
    omega

/-- A record whose header has at most 63 bytes if it starts with a type of one byte, in memory. -/
structure Short (aKey1 : List UInt8) (nKey1 : Nat) (mem : Mem) (t : UInt32) (fields : List (Mem × UInt32)) (b : UInt8)
    (type content header data after : List UInt8) : Prop where
  memory : aKey1 = b :: (type ++ header) ++ (content ++ data) ++ after
  size : b.toNat = 1 + (type.length + header.length)
  size_lt : b.toNat < 128
  size_le : t.toNat < 128 → b.toNat ≤ 63
  length : nKey1 = b.toNat + (content.length + data.length)
  le : nKey1 ≤ SQLITE_MAX_LENGTH
  type_eq : putVarint32 t = some type
  get : ∃ len : UInt32, content.length = len.toNat ∧ ∀ tail, sqlite3VdbeSerialGet (content ++ tail) t = some (mem, len)
  null : mem = .null → t = 0
  lays : Lays fields header data

theorem short_record {mem : Mem} {t : UInt32} {fields : List (Mem × UInt32)} {aKey : List UInt8}
    (h : IsRecord ((mem, t) :: fields) aKey) (hfields : fields.length ≤ 12) (hnull : mem = .null → t = 0)
    (after : List UInt8) :
    ∃ b type content header data, Short (aKey ++ after) aKey.length mem t fields b type content header data after := by
  obtain ⟨size, header, data, rfl, hlayout⟩ := h
  have hshort := hlayout.short
  have hlays := hlayout.lays
  have hle := hlays.header_le
  obtain ⟨p, n, hput, hlen, habove, -⟩ := putVarint32_spec (UInt32.ofNat (size.length + header.length))
  cases hput.symm.trans hlayout.size_eq
  have hsize := type_length_le hlayout.size_eq
  rw [List.length_cons] at hle
  have hword : (UInt32.ofNat (size.length + header.length)).toNat = size.length + header.length := by
    rw [UInt32.toNat_ofNat']
    omega
  rw [hword] at habove
  have hn : n ≤ 0 := habove.mono (w := 127) (m := 0) ⟨by decide, .inl rfl⟩ (by omega)
  have hone : size.length = 1 := by omega
  obtain ⟨b, rfl⟩ := List.length_eq_one_iff.mp hone
  have hb : b.toNat = 1 + header.length := by
    obtain ⟨b', rest, hcons, hsame⟩ := putVarint32_head hlayout.size_eq
    cases hcons
    obtain heq | hlong := hsame
    · rw [← UInt8.toNat_toUInt32, heq, hword]
      rfl
    · rw [hword, List.length_singleton] at hlong
      omega
  cases hlays with
  | @cons _ _ len _ type content header data htype hcontent hcontentLen hrest =>
    have htypeLe := type_length_le htype
    have hrestLe := hrest.header_le
    rw [List.length_append] at hb
    refine ⟨b, type, content, header, data, rfl, hb, by omega, fun ht => ?_, ?_, ?_, htype,
      ⟨len, hcontentLen, hcontent⟩, hnull, hrest⟩
    · obtain ⟨p, n, hput, hlen, habove, -⟩ := putVarint32_spec t
      cases hput.symm.trans htype
      have := habove.mono (w := 127) (m := 0) ⟨by decide, .inl rfl⟩ (by omega)
      omega
    · rw [hb, List.length_append, List.length_append, List.length_append, List.length_append, hone]
    · rw [List.length_append, List.length_append]
      omega

section Short
variable {aKey1 : List UInt8} {nKey1 : Nat} {mem : Mem} {t : UInt32} {fields : List (Mem × UInt32)} {b : UInt8}
  {type content header data after : List UInt8}
  (h : Short aKey1 nKey1 mem t fields b type content header data after)
include h

theorem Short.drop_one : aKey1.drop 1 = type ++ (header ++ (content ++ data) ++ after) := by
  rw [h.memory]
  simp only [List.cons_append, List.append_assoc, List.drop_succ_cons, List.drop_zero]

theorem Short.drop_header : aKey1.drop b.toNat = content ++ (data ++ after) := by
  have hmem : aKey1 = (b :: (type ++ header)) ++ (content ++ (data ++ after)) := by
    rw [h.memory]
    simp only [List.cons_append, List.append_assoc]
  have hlen : (b :: (type ++ header)).length = b.toNat := by
    rw [h.size, List.length_cons, List.length_append, Nat.add_comm]
  rw [hmem, ← hlen, List.drop_left' rfl]

theorem Short.first : aKey1[0]? = some b := by
  rw [h.memory]
  rfl

/-- The first field, at the two positions where it is looked for. -/
theorem Short.fieldAt : FieldAt nKey1 aKey1 1 b.toUInt32 mem t type content
    (header ++ (content ++ data) ++ after) (data ++ after) where
  type_eq := h.type_eq
  header := h.drop_one
  data := by
    rw [UInt8.toNat_toUInt32]
    exact h.drop_header
  get := h.get
  room := by
    rw [UInt8.toNat_toUInt32, h.length]
    omega
  int := by
    have := h.le
    have hmax : SQLITE_MAX_LENGTH = 1000000000 := rfl
    omega
  null := h.null

theorem Short.kind : Kind t (aKey1.drop b.toNat) mem := by
  have hkind := h.fieldAt.kind
  rwa [UInt8.toNat_toUInt32] at hkind

theorem Short.get32 : getVarint32 (aKey1.drop 1) = some (t, type.length) := by
  rw [h.drop_one]
  exact getVarint32_put h.type_eq _

/-- Past the first field, in the header and in the contents. -/
theorem Short.rest : Rest aKey1 nKey1 b.toUInt32 (1 + UInt32.ofNat type.length)
    (b.toUInt32 + sqlite3VdbeSerialTypeLen t) header data after := by
  have hle := h.le
  have hmax : SQLITE_MAX_LENGTH = 1000000000 := rfl
  have hlength := h.length
  have htypeLe := type_length_le h.type_eq
  have hidx : (1 + UInt32.ofNat type.length).toNat = 1 + type.length := by
    rw [UInt32.toNat_add, UInt32.toNat_ofNat']
    show (1 + type.length % 2 ^ 32) % 2 ^ 32 = _
    omega
  have hd : (b.toUInt32 + sqlite3VdbeSerialTypeLen t).toNat = b.toNat + content.length := by
    rw [UInt32.toNat_add, UInt8.toNat_toUInt32, h.fieldAt.typeLen]
    omega
  refine ⟨?_, ?_, ?_, ?_, by omega⟩
  · rw [hidx, ← List.drop_drop, h.drop_one, List.drop_left' rfl, UInt8.toNat_toUInt32, h.drop_header]
    simp only [List.append_assoc]
  · rw [hidx, UInt8.toNat_toUInt32, h.size]
    omega
  · rw [hd, ← List.drop_drop, h.drop_header, List.drop_left' rfl]
  · rw [hd]
    omega

/-- The comparison of the fields after the first. -/
theorem Short.trailing (hnull : ∀ f ∈ fields, f.1 = .null → f.2 = 0) {p : UnpackedRecord} {pRhs : Mem}
    {later : List Mem} (hp : p.aMem = pRhs :: later) (hmore : fields ≠ [] ∨ later = []) :
    compareTrailing nKey1 aKey1 p = some (compared p (compareValues p 1 (fields.map Prod.fst) later)) := by
  cases later with
  | nil =>
    have hone : ¬1 < p.aMem.length := by
      rw [hp]
      exact Nat.lt_irrefl 1
    rw [compareTrailing, if_neg hone, compareValues_end]
    rfl
  | cons next later =>
    have hfields : fields ≠ [] := hmore.resolve_right (List.cons_ne_nil _ _)
    have hlong : 1 < p.aMem.length := by
      rw [hp, List.length_cons, List.length_cons]
      omega
    rw [compareTrailing, if_pos hlong, sqlite3VdbeRecordCompareWithSkip, h.get32, h.first, hp]
    simp only [if_true, Option.bind_eq_bind, Option.bind_some, List.drop_succ_cons, List.drop_zero]
    exact compareLoop_values h.lays hnull hfields h.rest (List.cons_ne_nil _ _)

/-- The type of a first field is told apart as a signed word. -/
theorem Short.toInt32_lt : t.toInt32 < 12 ↔ t.toNat < 12 := by
  have hsmall : t.toNat < 2 ^ 31 := by
    by_cases ht : 12 ≤ t.toNat
    · have hle := h.le
      have hmax : SQLITE_MAX_LENGTH = 1000000000 := rfl
      have hlength := h.length
      have hle₁₂ : (12 : UInt32) ≤ t := UInt32.le_iff_toNat_le.mpr ht
      have htwelve : (12 : UInt32).toNat = 12 := rfl
      have htwo : (2 : UInt32).toNat = 2 := rfl
      have hsize := h.fieldAt.typeLen
      rw [large_typeLen ht, UInt32.toNat_div, UInt32.toNat_sub_of_le _ _ hle₁₂, htwelve, htwo] at hsize
      omega
    · omega
  have htwelve : (12 : Int32).toInt = 12 := rfl
  rw [Int32.lt_iff_toInt_lt, toInt_of_small hsmall, htwelve]
  omega

end Short

/-- A result of the same sign, and the same key after it. -/
def SameSign (result : Option (Int × UnpackedRecord)) (p : UnpackedRecord) (r : Int × Bool) : Prop :=
  ∃ rc, result = some (rc, (compared p r).2) ∧ rc.sign = r.1.sign

theorem sameSign_of_eq {result : Option (Int × UnpackedRecord)} {p : UnpackedRecord} {r : Int × Bool}
    (h : result = some (compared p r)) : SameSign result p r := ⟨r.1, h, rfl⟩

/-- The results for less and greater are those of the first column's order. -/
structure Ordered (p : UnpackedRecord) : Prop where
  r1 : p.r1 = if p.pKeyInfo.aSortOrder 0 then 1 else -1
  r2 : p.r2 = if p.pKeyInfo.aSortOrder 0 then -1 else 1

section Ordered
variable {p : UnpackedRecord} (h : Ordered p) {mem pRhs : Mem} {mems later : List Mem}
include h

theorem Ordered.less (hrc : sqlite3MemCompare mem pRhs (p.pKeyInfo.aColl 0) < 0) :
    SameSign (some (p.r1, p)) p (compareValues p 0 (mem :: mems) (pRhs :: later)) := by
  have hne : sqlite3MemCompare mem pRhs (p.pKeyInfo.aColl 0) ≠ 0 := Int.ne_of_lt hrc
  rw [compareValues]
  simp only [if_pos hne]
  refine ⟨p.r1, rfl, ?_⟩
  rw [h.r1]
  split
  · exact (Int.sign_eq_one_of_pos (Int.neg_pos_of_neg hrc)).symm
  · exact (Int.sign_eq_neg_one_of_neg hrc).symm

theorem Ordered.greater (hrc : 0 < sqlite3MemCompare mem pRhs (p.pKeyInfo.aColl 0)) :
    SameSign (some (p.r2, p)) p (compareValues p 0 (mem :: mems) (pRhs :: later)) := by
  have hne : sqlite3MemCompare mem pRhs (p.pKeyInfo.aColl 0) ≠ 0 := Int.ne_of_gt hrc
  rw [compareValues]
  simp only [if_pos hne]
  refine ⟨p.r2, rfl, ?_⟩
  rw [h.r2]
  split
  · exact (Int.sign_eq_neg_one_of_neg (Int.neg_neg_of_pos hrc)).symm
  · exact (Int.sign_eq_one_of_pos hrc).symm

/-- A result that decides by its sign, and leaves equal values to `tail`. -/
theorem Ordered.signed {res : Int} (hres : sqlite3MemCompare mem pRhs (p.pKeyInfo.aColl 0) = res)
    {tail : Option (Int × UnpackedRecord)}
    (htail : res = 0 → SameSign tail p (compareValues p 0 (mem :: mems) (pRhs :: later))) :
    SameSign (if res = 0 then tail else if 0 < res then some (p.r2, p) else some (p.r1, p)) p
      (compareValues p 0 (mem :: mems) (pRhs :: later)) := by
  by_cases hzero : res = 0
  · rw [if_pos hzero]
    exact htail hzero
  · rw [if_neg hzero]
    by_cases hpos : 0 < res
    · rw [if_pos hpos]
      exact h.greater (hres.symm ▸ hpos)
    · rw [if_neg hpos]
      exact h.less (by rw [hres]; omega)

end Ordered

theorem memcmp_take {n m : Nat} (h : n ≤ m) (s t : List UInt8) : memcmp n (s.take m) t = memcmp n s t := by
  induction n generalizing m s t with
  | zero => cases s <;> cases t <;> cases m <;> rfl
  | succ n ih =>
    obtain ⟨m, rfl⟩ := Nat.exists_eq_succ_of_ne_zero (Nat.ne_of_gt (Nat.zero_lt_of_lt h))
    cases s with
    | nil => rfl
    | cons x s =>
      cases t with
      | nil => rfl
      | cons y t =>
        rw [List.take_succ_cons, memcmp, memcmp, ih (by omega)]

section Short
variable {aKey1 : List UInt8} {nKey1 : Nat} {mem : Mem} {t : UInt32} {fields : List (Mem × UInt32)} {b : UInt8}
  {type content header data after : List UInt8}
  (h : Short aKey1 nKey1 mem t fields b type content header data after)
include h

/-- Keys that start with an integer. -/
theorem Short.compareInt (hnull : ∀ f ∈ fields, f.1 = .null → f.2 = 0) {p : UnpackedRecord} (hp : Ordered p)
    {v : Int64} {later : List Mem} (hkey : p.aMem = .int v :: later) (hmore : fields ≠ [] ∨ later = [])
    (hall : sqlite3VdbeRecordCompare nKey1 aKey1 p =
      some (compared p (compareValues p 0 (mem :: fields.map Prod.fst) p.aMem))) :
    SameSign (vdbeRecordCompareInt nKey1 aKey1 p) p (compareValues p 0 (mem :: fields.map Prod.fst) p.aMem) := by
  have hat := h.fieldAt
  have hgeneric (hother : t = 0 ∨ t = 7 ∨ 12 ≤ t.toNat) :
      SameSign (vdbeRecordCompareInt nKey1 aKey1 p) p (compareValues p 0 (mem :: fields.map Prod.fst) p.aMem) := by
    obtain ⟨b', hb', hsame⟩ := hat.byte
    have hbyte : aKey1[1]? = some b' := hb'
    have hcond : b'.toUInt32 = 0 ∨ b'.toUInt32 = 7 ∨ 10 ≤ b'.toUInt32 := by
      have hlong (hle : 12 ≤ b'.toUInt32.toNat) : 10 ≤ b'.toUInt32 := by
        rw [UInt32.le_iff_toNat_le]
        exact Nat.le_trans (by decide) hle
      obtain heq | ⟨hle, -⟩ := hsame
      · rw [heq] at hlong ⊢
        exact hother.imp_right (Or.imp_right hlong)
      · exact .inr (.inr (hlong (by omega)))
    rw [vdbeRecordCompareInt, h.first, hbyte]
    simp only [Option.bind_eq_bind, Option.bind_some, if_pos hcond]
    exact sameSign_of_eq hall
  cases h.kind with
  | null ht => exact hgeneric (.inl ht)
  | real r ht => exact hgeneric (.inr (.inl ht))
  | str ht | blob ht => exact hgeneric (.inr (.inr ht))
  | int lhs h₀ h₇ h₁₀ hdecode =>
    obtain ⟨b', hb', hsame⟩ := hat.byte_small (small_of_lt h₁₀)
    have hbyte : aKey1[1]? = some b' := hb'
    have hcond : ¬(t = 0 ∨ t = 7 ∨ 10 ≤ t) := fun hor => hor.elim h₀ (fun hor => hor.elim h₇ h₁₀)
    have hmask : (b &&& 0x3f).toNat = b.toNat := by
      have hle := h.size_le (small_of_lt h₁₀)
      rw [UInt8.toNat_and]
      show b.toNat &&& (2 ^ 6 - 1) = _
      rw [Nat.and_two_pow_sub_one_eq_mod]
      omega
    rw [vdbeRecordCompareInt, h.first, hbyte]
    simp only [Option.bind_eq_bind, Option.bind_some, hsame, if_neg hcond, hmask, hdecode]
    rw [hkey]
    have hvalue : sqlite3MemCompare (.int lhs) (.int v) (p.pKeyInfo.aColl 0) =
        if lhs < v then -1 else if v < lhs then 1 else 0 := rfl
    by_cases hless : lhs < v
    · have hrc : sqlite3MemCompare (.int lhs) (.int v) (p.pKeyInfo.aColl 0) < 0 := by
        rw [hvalue, if_pos hless]
        decide
      simp only [if_pos hless]
      exact hp.less hrc
    · by_cases hgreater : v < lhs
      · have hrc : 0 < sqlite3MemCompare (.int lhs) (.int v) (p.pKeyInfo.aColl 0) := by
          rw [hvalue, if_neg hless, if_pos hgreater]
          decide
        simp only [if_neg hless, if_pos hgreater]
        exact hp.greater hrc
      · have hrc : sqlite3MemCompare (.int lhs) (.int v) (p.pKeyInfo.aColl 0) = 0 := by
          rw [hvalue, if_neg hless, if_neg hgreater]
        simp only [if_neg hless, if_neg hgreater]
        rw [compareValues_equal hrc]
        exact sameSign_of_eq (h.trailing hnull hkey hmore)

/-- Two texts are compared on the bytes that both have, and then by their lengths. -/
theorem Short.str_compare (h₁₂ : 12 ≤ t.toNat) (z : List UInt8) :
    sqlite3MemCompare (.str ((aKey1.drop b.toNat).take ((t - 12) / 2).toNat)) (.str z) none =
      if memcmp (min z.length ((t - 12) / 2).toNat) (aKey1.drop b.toNat) z = 0 then
        (((t - 12) / 2).toNat : Int) - z.length
      else memcmp (min z.length ((t - 12) / 2).toNat) (aKey1.drop b.toNat) z := by
  have hlhs : ((aKey1.drop b.toNat).take ((t - 12) / 2).toNat).length = ((t - 12) / 2).toNat := by
    rw [h.drop_header, ← large_typeLen h₁₂, h.fieldAt.typeLen, List.take_left' rfl]
  have hbytes := blobCompare_bytes ((aKey1.drop b.toNat).take ((t - 12) / 2).toNat) z
  rw [hlhs, memcmp_take (Nat.min_le_left _ _), Nat.min_comm] at hbytes
  exact hbytes

/-- Keys that start with a text, in the order of its bytes. -/
theorem Short.compareString (hnull : ∀ f ∈ fields, f.1 = .null → f.2 = 0) {p : UnpackedRecord} (hp : Ordered p)
    {z : List UInt8} {later : List Mem} (hkey : p.aMem = .str z :: later) (hcoll : p.pKeyInfo.aColl 0 = none)
    (hmore : fields ≠ [] ∨ later = []) :
    SameSign (vdbeRecordCompareString nKey1 aKey1 p) p
      (compareValues p 0 (mem :: fields.map Prod.fst) p.aMem) := by
  have hlarge (ht : 12 ≤ t.toNat) : ¬t.toInt32 < 12 := h.toInt32_lt.not.mpr (Nat.not_lt.mpr ht)
  rw [vdbeRecordCompareString, h.get32, Option.bind_eq_bind, Option.bind_some, hkey]
  cases h.kind with
  | null ht | real _ ht =>
    subst ht
    exact hp.less (by decide : (-1 : Int) < 0)
  | int lhs h₀ h₇ h₁₀ =>
    have hlt : t.toNat < 12 := UInt32.lt_iff_toNat_lt.mp (lt_twelve h₁₀)
    simp only [if_pos (h.toInt32_lt.mpr hlt)]
    exact hp.less (by decide : (-1 : Int) < 0)
  | blob h₁₂ heven =>
    simp only [if_neg (hlarge h₁₂), if_pos heven]
    exact hp.greater (by decide : (0 : Int) < 1)
  | str h₁₂ hodd =>
    have hodd' : ¬t &&& 1 = 0 := by rw [hodd]; decide
    have hroom : ¬nKey1 < b.toNat + ((t - 12) / 2).toNat := by
      have hlength := h.length
      rw [← large_typeLen h₁₂, h.fieldAt.typeLen]
      omega
    have hvalue := h.str_compare h₁₂ z
    rw [← hcoll] at hvalue
    simp only [if_neg (hlarge h₁₂), if_neg hodd', h.first, Option.bind_eq_bind, Option.bind_some, if_neg hroom]
    generalize memcmp (min z.length ((t - 12) / 2).toNat) (aKey1.drop b.toNat) z = res at hvalue ⊢
    have hequal (hrc : sqlite3MemCompare (.str ((aKey1.drop b.toNat).take ((t - 12) / 2).toNat)) (.str z)
        (p.pKeyInfo.aColl 0) = 0) :
        SameSign (compareTrailing nKey1 aKey1 p) p
          (compareValues p 0 (.str ((aKey1.drop b.toNat).take ((t - 12) / 2).toNat) :: fields.map Prod.fst)
            (.str z :: later)) := by
      rw [compareValues_equal hrc]
      exact sameSign_of_eq (h.trailing hnull hkey hmore)
    by_cases hres : res = 0
    · rw [if_pos hres] at hvalue ⊢
      exact hp.signed hvalue fun hzero => hequal (hvalue.trans hzero)
    · rw [if_neg hres] at hvalue
      have hsigned := hp.signed hvalue fun hzero => hequal (hvalue.trans hzero)
      rw [if_neg hres] at hsigned ⊢
      exact hsigned

end Short

/-! ### Records that are made -/

/-- A record that `OP_MakeRecord` has made of values without a NaN, which is not a value of SQLite's. -/
structure Made (file_format : Nat) (regs : List Mem) (z : List UInt8) (nZero : Nat) : Prop where
  made : ∃ limit ≤ SQLITE_MAX_LENGTH, OP_MakeRecord limit file_format regs = some (.record z nZero)
  nonempty : regs ≠ []
  few : regs.length < 2 ^ 28
  ints : ∀ pMem ∈ regs, pMem.Ints
  nan : ∀ r, Mem.real r ∈ regs → ¬sqlite3IsNaN r

theorem Made.isRecord {file_format : Nat} {regs : List Mem} {z : List UInt8} {nZero : Nat}
    (h : Made file_format regs z nZero) : IsRecord (typed file_format regs) (z ++ List.replicate nZero 0) := by
  obtain ⟨limit, hlimit, hmade⟩ := h.made
  obtain ⟨size, -, hlimits⟩ := makeRecord_layout file_format h.few h.ints
  by_cases hbig : limit < size
  · cases ((hlimits limit hlimit).1 hbig).symm.trans hmade
  · obtain ⟨z', nZero', hmade', -, hrecord⟩ := (hlimits limit hlimit).2 (Nat.le_of_not_lt hbig)
    cases hmade'.symm.trans hmade
    exact hrecord

section Made
variable {file_format : Nat} {regs : List Mem} {z : List UInt8} {nZero : Nat} (h : Made file_format regs z nZero)
  {p : UnpackedRecord}
include h

theorem Made.compare (hp : p.aMem ≠ []) (after : List UInt8) :
    sqlite3VdbeRecordCompare (z.length + nZero) (z ++ List.replicate nZero 0 ++ after) p =
      some (compared p (compareValues p 0 (regs.map Mem.stored) p.aMem)) := by
  have hne : typed file_format regs ≠ [] := List.map_eq_nil_iff.not.mpr h.nonempty
  have hcompare := compare_record h.isRecord (typed_null h.nan) hne hp after
  rw [List.length_append, List.length_replicate, typed, List.map_map] at hcompare
  exact hcompare

end Made

/-- A record of few values has a short header. -/
theorem Made.short {file_format : Nat} {pMem : Mem} {regs : List Mem} {z : List UInt8} {nZero : Nat}
    (h : Made file_format (pMem :: regs) z nZero) (hfew : regs.length ≤ 12) (after : List UInt8) :
    ∃ t b type content header data, Short (z ++ List.replicate nZero 0 ++ after) (z.length + nZero) pMem.stored t
      (typed file_format regs) b type content header data after := by
  have hlen : (z ++ List.replicate nZero 0).length = z.length + nZero := by
    rw [List.length_append, List.length_replicate]
  have hrest : (typed file_format regs).length ≤ 12 := by
    rw [typed, List.length_map]
    exact hfew
  obtain ⟨b, type, content, header, data, hshort⟩ :=
    short_record h.isRecord hrest (typed_null h.nan _ (List.mem_cons_self ..)) after
  rw [hlen] at hshort
  exact ⟨_, b, type, content, header, data, hshort⟩

/-- The values a comparison depends on. -/
theorem compareValues_congr {p q : UnpackedRecord} (hkey : p.pKeyInfo = q.pKeyInfo) (hrc : p.default_rc = q.default_rc)
    (i : Nat) (mems later : List Mem) : compareValues p i mems later = compareValues q i mems later := by
  induction mems generalizing i later with
  | nil => rw [compareValues_nil, compareValues_nil, hrc]
  | cons mem mems ih =>
    cases later with
    | nil => rw [compareValues_end, compareValues_end, hrc]
    | cons pRhs later => rw [compareValues, compareValues, hkey, ih]

theorem setResults_key (p : UnpackedRecord) :
    (setResults p).pKeyInfo = p.pKeyInfo ∧ (setResults p).aMem = p.aMem ∧ (setResults p).default_rc = p.default_rc := by
  unfold setResults
  split <;> exact ⟨rfl, rfl, rfl⟩

theorem setResults_ordered (p : UnpackedRecord) : Ordered (setResults p) := by
  obtain ⟨hkey, -, -⟩ := setResults_key p
  constructor
  · rw [hkey]
    unfold setResults
    split <;> rfl
  · rw [hkey]
    unfold setResults
    split <;> rfl

/-- **A record is compared with a key as its values are, in the order of the columns, and the function chosen
for the key gives a result of the same sign.** For that function, the record has no more fields than the
key's columns, and more than one if the key has. -/
theorem findCompare_values {file_format : Nat} {regs : List Mem} {z : List UInt8} {nZero : Nat}
    (h : Made file_format regs z nZero) {p : UnpackedRecord} (hp : p.aMem ≠ []) (after : List UInt8) :
    sqlite3VdbeRecordCompare (z.length + nZero) (z ++ List.replicate nZero 0 ++ after) p =
        some (compared p (compareValues p 0 (regs.map Mem.stored) p.aMem)) ∧
      (regs.length ≤ p.pKeyInfo.nField + p.pKeyInfo.nXField → 1 < regs.length ∨ p.aMem.length = 1 →
        SameSign ((sqlite3VdbeFindCompare p).1.run (z.length + nZero) (z ++ List.replicate nZero 0 ++ after)
            (sqlite3VdbeFindCompare p).2)
          (sqlite3VdbeFindCompare p).2 (compareValues p 0 (regs.map Mem.stored) p.aMem)) := by
  refine ⟨h.compare hp after, fun hfields hmore => ?_⟩
  obtain ⟨hkey, hmem, hrc⟩ := setResults_key p
  have hvalues := compareValues_congr hkey hrc 0 (regs.map Mem.stored) p.aMem
  have hgeneric : SameSign (sqlite3VdbeRecordCompare (z.length + nZero) (z ++ List.replicate nZero 0 ++ after)
      (setResults p)) (setResults p) (compareValues p 0 (regs.map Mem.stored) p.aMem) := by
    rw [← hvalues, ← hmem]
    exact sameSign_of_eq (h.compare (hmem.symm ▸ hp) after)
  by_cases hfew : p.pKeyInfo.nField + p.pKeyInfo.nXField ≤ 13
  · have hsome : sqlite3VdbeFindCompare p = match p.aMem with
        | .int _ :: _ => (.compareInt, setResults p)
        | .str _ :: _ =>
          if (p.pKeyInfo.aColl 0).isNone then (.compareString, setResults p) else (.recordCompare, setResults p)
        | _ => (.recordCompare, setResults p) := if_pos hfew
    obtain ⟨pRhs, later, hcons⟩ := List.exists_cons_of_ne_nil hp
    obtain ⟨pMem, regs, rfl⟩ := List.exists_cons_of_ne_nil h.nonempty
    rw [List.length_cons] at hfields hmore
    obtain ⟨t, b, type, content, header, data, hshort⟩ := h.short (by omega) after
    have hnull' : ∀ f ∈ typed file_format regs, f.1 = .null → f.2 = 0 :=
      typed_null fun r hr => h.nan r (List.mem_cons_of_mem _ hr)
    have hmore' : typed file_format regs ≠ [] ∨ later = [] := by
      rw [hcons, List.length_cons] at hmore
      refine hmore.imp (fun hlt hnil => ?_) (fun hone => List.length_eq_zero_iff.mp (by omega))
      have hzero : (typed file_format regs).length = 0 := List.length_eq_zero_iff.mpr hnil
      rw [typed, List.length_map] at hzero
      omega
    have hstored : (typed file_format regs).map Prod.fst = regs.map Mem.stored := List.map_map
    have hall := h.compare (p := setResults p) (hmem.symm ▸ hp) after
    rw [List.map_cons, ← hstored] at hall
    rw [hsome, ← hvalues, ← hmem, List.map_cons, ← hstored]
    cases pRhs with
    | int v =>
      have hfound : (setResults p).aMem = .int v :: later := hmem.trans hcons
      have hcompare := hshort.compareInt hnull' (setResults_ordered p) hfound hmore' hall
      rw [hfound] at hcompare ⊢
      exact hcompare
    | str text =>
      have hfound : (setResults p).aMem = .str text :: later := hmem.trans hcons
      cases hcoll : p.pKeyInfo.aColl 0 with
      | none =>
        have hcompare := hshort.compareString hnull' (setResults_ordered p) hfound (hkey.symm ▸ hcoll) hmore'
        rw [hfound] at hcompare ⊢
        exact hcompare
      | some xCmp =>
        rw [hfound] at hall ⊢
        exact sameSign_of_eq hall
    | null | real _ | blob _ _ =>
      rw [hmem.trans hcons] at hall ⊢
      exact sameSign_of_eq hall
  · have hnone : sqlite3VdbeFindCompare p = (.recordCompare, p) := if_neg hfew
    rw [hnone]
    exact sameSign_of_eq (h.compare hp after)

/-- A row of a descending integer column and a text, against a key of both. -/
def sampleKey : UnpackedRecord where
  pKeyInfo := { nField := 2, nXField := 0, aSortOrder := fun i => i == 0, aColl := fun _ => none }
  aMem := [.int (-300), .str [98]]
  default_rc := 0
  errCode := 0
  r1 := 0
  r2 := 0
  eqSeen := false

theorem sampleRow_made : Made 4 [.int (-300), .str [97]] [3, 2, 15, 254, 212, 97] 0 where
  made := ⟨1000, by decide, by decide⟩
  nonempty := by decide
  few := by decide
  ints := by
    intro pMem hmem
    obtain rfl | rfl : pMem = .int (-300) ∨ pMem = .str [97] := by simpa using hmem
    · trivial
    · exact (by decide : 1 < 2 ^ 31)
  nan := by
    intro r hmem
    simp at hmem

/-- The first columns are equal, and the row's text comes before the key's. -/
theorem sampleRow_values :
    sqlite3VdbeRecordCompare 6 ([3, 2, 15, 254, 212, 97] ++ [] ++ [0]) sampleKey = some (-1, sampleKey) ∧
      (2 ≤ 2 + 0 → 1 < 2 ∨ 2 = 1 →
        SameSign ((sqlite3VdbeFindCompare sampleKey).1.run 6 ([3, 2, 15, 254, 212, 97] ++ [] ++ [0])
            (sqlite3VdbeFindCompare sampleKey).2)
          (sqlite3VdbeFindCompare sampleKey).2 (-1, false)) :=
  findCompare_values sampleRow_made (by decide : sampleKey.aMem ≠ []) [0]

end FuzzerTestSuite.Sqlite
