import Mathlib.Algebra.GroupWithZero.Nat
import FuzzerTestSuite.Sqlite.Varint
import FuzzerTestSuite.Sqlite.SerialType

/-! Records: a header of serial types, and the values it is about.

`OP_MakeRecord` writes a record from its registers. The header starts with its own length, which it counts
too; the zeros that blobs at the end of the record end in are not written but counted. A record that is not
too big has the layout its header says, and `sqlite3VdbeRecordUnpack` gives back the values, or as many of
them as it is asked for, but at least the first (`makeRecord_unpack`). -/
namespace FuzzerTestSuite.Sqlite

/-! ### Writing -/

def SQLITE_MAX_LENGTH : Nat := 1000000000

/-- What the first loop of `OP_MakeRecord` leaves: the registers with the serial type each one has in
`uTemp`, and its three sums. -/
structure RecordSize where
  fields : List (Mem × UInt32)
  nData : Nat
  nHdr : Nat
  nZero : Nat

/-- What a serial type adds to `nHdr`. -/
def typeSize (serial_type : UInt32) : Option Nat :=
  if serial_type ≤ 127 then some 1 else sqlite3VarintLen serial_type.toUInt64

/-- That loop, from the last register to the first. -/
def recordSize (file_format : Nat) : List Mem → Option RecordSize
  | [] => some ⟨[], 0, 0, 0⟩
  | pRec :: later => do
    let s ← recordSize file_format later
    let (serial_type, len) := sqlite3VdbeSerialType pRec file_format
    let (pRec, len, nZero) := match pRec with
      | .blob z nZero =>
        -- zeros that data follows are written
        if s.nData ≠ 0 then ((Mem.blob z nZero).expand, len, s.nZero)
        else (.blob z nZero, len - UInt32.ofNat nZero, s.nZero + nZero)
      | pRec => (pRec, len, s.nZero)
    let n ← typeSize serial_type
    return ⟨(pRec, serial_type) :: s.fields, s.nData + len.toNat, s.nHdr + n, nZero⟩

/-- The length of the header, its own length in it. -/
def headerSize (nHdr : Nat) : Option Nat :=
  if nHdr ≤ 126 then some (nHdr + 1)
  else do
    let nVarint ← sqlite3VarintLen (UInt64.ofNat nHdr)
    let nHdr := nHdr + nVarint
    if nVarint < (← sqlite3VarintLen (UInt64.ofNat nHdr)) then return nHdr + 1
    return nHdr

/-- The second loop: what it puts from `i` on, and from `j` on. -/
def putFields : List (Mem × UInt32) → Option (List UInt8 × List UInt8)
  | [] => some ([], [])
  | (pRec, serial_type) :: fields => do
    let type ← putVarint32 serial_type
    let content ← sqlite3VdbeSerialPut pRec serial_type
    let (header, data) ← putFields fields
    return (type ++ header, content ++ data)

inductive MakeRecord where
  | too_big
  | record (z : List UInt8) (nZero : Nat)
  deriving DecidableEq, Repr

/-- The registers have their affinities; `none` is an assertion failing. -/
def OP_MakeRecord (limit file_format : Nat) (regs : List Mem) : Option MakeRecord := do
  let s ← recordSize file_format regs
  let nHdr ← headerSize s.nHdr
  let nByte := nHdr + s.nData
  if limit < nByte + s.nZero then return .too_big
  let size ← putVarint32 (UInt32.ofNat nHdr)
  let (header, data) ← putFields s.fields
  guard (size.length + header.length = nHdr)
  guard (nHdr + data.length = nByte)
  return .record (size ++ header ++ data) s.nZero

/-! ### Reading -/

/-- The loop of `sqlite3VdbeRecordUnpack`, with room for `left` values after the next one; `none` is a read
outside the memory at `aKey`. -/
def unpackLoop (aKey : List UInt8) (nKey : Nat) (szHdr : UInt32) (left : Nat) (idx d : UInt32) :
    Option (List Mem) :=
  if idx < szHdr ∧ d.toInt32.toInt ≤ nKey then do
    let (serial_type, n) ← getVarint32 (aKey.drop idx.toNat)
    -- `d` is an `int`, and may have become negative
    guard (0 ≤ d.toInt32.toInt)
    let (mem, len) ← sqlite3VdbeSerialGet (aKey.drop d.toNat) serial_type
    match left with
    | 0 => return [mem]
    | left + 1 =>
      let rest ← unpackLoop aKey nKey szHdr left (idx + UInt32.ofNat n) (d + len)
      return mem :: rest
  else some []

/-- There is room for one value after a field unless `(++u)>=p->nField`: the first is read even for none. -/
def sqlite3VdbeRecordUnpack (nField nKey : Nat) (aKey : List UInt8) : Option (List Mem) := do
  let (szHdr, idx) ← getVarint32 aKey
  unpackLoop aKey nKey szHdr (nField - 1) (UInt32.ofNat idx) szHdr

/-! ### The length of the header -/

theorem headerSize_above {nHdr n : Nat} (hlt : nHdr < 2 ^ 31) (habove : Above nHdr n) :
    ∃ size m, headerSize nHdr = some size ∧ Above size m ∧ size = nHdr + (m + 1) ∧ m ≤ n + 1 := by
  have hn : n ≤ 4 := habove.mono (w := 2 ^ 31) (m := 4) ⟨by decide, .inr (by decide)⟩ (by omega)
  by_cases hsmall : nHdr ≤ 126
  · exact ⟨nHdr + 1, 0, if_pos hsmall, ⟨by omega, .inl rfl⟩, rfl, Nat.zero_le _⟩
  · obtain ⟨m, hm⟩ := exists_above (nHdr + (n + 1))
    have hlen : sqlite3VarintLen (UInt64.ofNat nHdr) = some (n + 1) := by
      refine varintLen_above ?_
      rwa [UInt64.toNat_ofNat', Nat.mod_eq_of_lt (by omega)]
    have hlen' : sqlite3VarintLen (UInt64.ofNat (nHdr + (n + 1))) = some (m + 1) := by
      refine varintLen_above ?_
      rwa [UInt64.toNat_ofNat', Nat.mod_eq_of_lt (by omega)]
    have hsize : headerSize nHdr = if n + 1 < m + 1 then some (nHdr + (n + 1) + 1) else some (nHdr + (n + 1)) := by
      rw [headerSize, if_neg hsmall]
      simp only [hlen, hlen', Option.bind_eq_bind, Option.bind_some]
      rfl
    have hnm : n ≤ m := habove.mono hm (by omega)
    have hroom : n + 2 ≤ 128 ^ (n + 1) := Nat.lt_pow_self (by decide)
    have hpow : 128 ^ (n + 2) = 128 * 128 ^ (n + 1) := Nat.pow_succ'
    have hnext := habove.lt
    have hmn : m ≤ n + 1 := by
      cases hm.le with
      | inl hzero => omega
      | inr hle =>
        have hpowlt : 128 ^ m < 128 ^ (n + 2) := by omega
        have := (Nat.pow_lt_pow_iff_right (by decide)).mp hpowlt
        omega
    rw [hsize]
    by_cases heq : m = n
    · rw [if_neg (by omega)]
      exact ⟨nHdr + (n + 1), m, rfl, hm, by rw [heq], by omega⟩
    · have hm' : m = n + 1 := by omega
      rw [if_pos (by omega)]
      subst hm'
      refine ⟨nHdr + (n + 1) + 1, n + 1, rfl, ⟨by omega, .inr ?_⟩, rfl, Nat.le_refl _⟩
      have := hm.le.resolve_left (Nat.succ_ne_zero n)
      omega

/-! ### The layout -/

/-- A header and contents that say the same values, each with its serial type. -/
inductive Lays : List (Mem × UInt32) → List UInt8 → List UInt8 → Prop
  | nil : Lays [] [] []
  | cons {mem : Mem} {t len : UInt32} {fields : List (Mem × UInt32)} {type content header data : List UInt8}
      (htype : putVarint32 t = some type)
      (hcontent : ∀ tail, sqlite3VdbeSerialGet (content ++ tail) t = some (mem, len))
      (hlen : content.length = len.toNat) (h : Lays fields header data) :
      Lays ((mem, t) :: fields) (type ++ header) (content ++ data)

/-- The record format: the length of the header, the rest of it, and the contents. -/
structure Layout (fields : List (Mem × UInt32)) (size header data : List UInt8) : Prop where
  size_eq : putVarint32 (UInt32.ofNat (size.length + header.length)) = some size
  lays : Lays fields header data
  short : size.length + header.length + data.length ≤ SQLITE_MAX_LENGTH

/-- A key that is a record of these values. -/
def IsRecord (fields : List (Mem × UInt32)) (aKey : List UInt8) : Prop :=
  ∃ size header data, aKey = size ++ header ++ data ∧ Layout fields size header data

/-- A word of no more than 31 bits is the same number as an `int`. -/
theorem toInt_of_small {w : UInt32} (h : w.toNat < 2 ^ 31) : w.toInt32.toInt = w.toNat := by
  have hbmod : w.toInt32.toInt = (w.toNat : Int).bmod (2 ^ 32) := BitVec.toInt_eq_toNat_bmod _
  rw [hbmod]
  exact Int.bmod_eq_of_le (by omega) (by omega)

/-- Where a loop over a record stands: `idx` in front of the rest of the header, and `d` in front of the rest of
the contents. -/
structure Rest (aKey : List UInt8) (nKey : Nat) (szHdr idx d : UInt32) (header data after : List UInt8) : Prop where
  header_eq : aKey.drop idx.toNat = header ++ aKey.drop szHdr.toNat
  header_end : idx.toNat + header.length = szHdr.toNat
  data_eq : aKey.drop d.toNat = data ++ after
  room : d.toNat + data.length ≤ nKey
  int : nKey < 2 ^ 31

section Rest
variable {aKey after type content header data : List UInt8} {nKey : Nat} {szHdr idx d len : UInt32}

/-- The two positions go through the header and the contents in step. -/
theorem Rest.next (h : Rest aKey nKey szHdr idx d (type ++ header) (content ++ data) after)
    (hlen : len.toNat = content.length) :
    Rest aKey nKey szHdr (idx + UInt32.ofNat type.length) (d + len) header data after := by
  obtain ⟨hheader, hend, hdata, hroom, hint⟩ := h
  rw [List.append_assoc] at hheader hdata
  rw [List.length_append] at hend hroom
  have hszHdr := szHdr.toNat_lt
  have hidx : (idx + UInt32.ofNat type.length).toNat = idx.toNat + type.length := by
    rw [UInt32.toNat_add, UInt32.toNat_ofNat']
    omega
  have hd : (d + len).toNat = d.toNat + content.length := by
    rw [UInt32.toNat_add, hlen]
    omega
  refine ⟨?_, by rw [hidx]; omega, ?_, by rw [hd]; omega, hint⟩
  · rw [hidx, ← List.drop_drop, hheader, List.drop_left' rfl]
  · rw [hd, ← List.drop_drop, hdata, List.drop_left' rfl]

/-- There is more of the header exactly if the position is before its end. -/
theorem Rest.lt_iff (h : Rest aKey nKey szHdr idx d header data after) : idx < szHdr ↔ header ≠ [] := by
  have hend := h.header_end
  rw [UInt32.lt_iff_toNat_lt, ← List.length_pos_iff]
  omega

theorem Rest.toInt_eq (h : Rest aKey nKey szHdr idx d header data after) : d.toInt32.toInt = d.toNat := by
  have hroom := h.room
  have hint := h.int
  exact toInt_of_small (by omega)

theorem Rest.le (h : Rest aKey nKey szHdr idx d header data after) : d ≤ UInt32.ofNat nKey := by
  have hroom := h.room
  have hint := h.int
  rw [UInt32.le_iff_toNat_le, UInt32.toNat_ofNat']
  omega

end Rest

/-- The positions at the start of a record. -/
theorem Layout.start {fields : List (Mem × UInt32)} {size header data : List UInt8}
    (h : Layout fields size header data) (after : List UInt8) :
    Rest (size ++ header ++ data ++ after) (size ++ header ++ data).length (UInt32.ofNat (size.length + header.length))
      (UInt32.ofNat size.length) (UInt32.ofNat (size.length + header.length)) header data after := by
  have hshort := h.short
  have hmax : SQLITE_MAX_LENGTH = 1000000000 := rfl
  have hword : (UInt32.ofNat (size.length + header.length)).toNat = size.length + header.length := by
    rw [UInt32.toNat_ofNat', Nat.mod_eq_of_lt (by omega)]
  have hlen : (UInt32.ofNat size.length).toNat = size.length := by
    rw [UInt32.toNat_ofNat', Nat.mod_eq_of_lt (by omega)]
  have hmem : size ++ header ++ data ++ after = size ++ (header ++ (data ++ after)) := by
    simp only [List.append_assoc]
  have hdrop : (size ++ (header ++ (data ++ after))).drop (size.length + header.length) = data ++ after := by
    rw [← List.drop_drop, List.drop_left' rfl, List.drop_left' rfl]
  have hlength : (size ++ header ++ data).length = size.length + header.length + data.length := by
    rw [List.length_append, List.length_append]
  rw [hmem]
  refine ⟨?_, by rw [hlen, hword], by rw [hword, hdrop], by rw [hword, hlength], by omega⟩
  rw [hlen, hword, hdrop, List.drop_left' rfl]

theorem unpackLoop_lays {fields : List (Mem × UInt32)} {header data : List UInt8} (h : Lays fields header data)
    {aKey after : List UInt8} {nKey : Nat} {szHdr idx d : UInt32}
    (hrest : Rest aKey nKey szHdr idx d header data after) (left : Nat) :
    unpackLoop aKey nKey szHdr left idx d = some ((fields.map Prod.fst).take (left + 1)) := by
  induction h generalizing idx d left with
  | nil =>
    rw [unpackLoop, if_neg fun hmore => hrest.lt_iff.mp hmore.1 rfl]
    rfl
  | @cons mem t len fields type content header data htype hcontent hlen h ih =>
    obtain ⟨p, n, hput, hpos, -, -⟩ := putVarint32_spec t
    cases hput.symm.trans htype
    have hne : type ++ header ≠ [] := List.ne_nil_of_length_pos (by rw [List.length_append]; omega)
    have hroom := hrest.room
    have hmore : idx < szHdr ∧ d.toInt32.toInt ≤ nKey := ⟨hrest.lt_iff.mpr hne, by rw [hrest.toInt_eq]; omega⟩
    have hsign : 0 ≤ d.toInt32.toInt := by
      rw [hrest.toInt_eq]
      omega
    rw [unpackLoop, if_pos hmore, hrest.header_eq, List.append_assoc, getVarint32_put htype, hrest.data_eq,
      List.append_assoc]
    simp only [Option.bind_eq_bind, Option.bind_some, guard, if_pos hsign, Option.pure_def, hcontent]
    cases left with
    | zero => rfl
    | succ left =>
      simp only [ih (hrest.next hlen.symm) left, Option.bind_some]
      rfl

/-- What is unpacked from a record, whatever comes after it in memory. -/
theorem unpack_record {fields : List (Mem × UInt32)} {aKey : List UInt8} (h : IsRecord fields aKey) (nField : Nat)
    (after : List UInt8) : sqlite3VdbeRecordUnpack nField aKey.length (aKey ++ after) =
      some ((fields.map Prod.fst).take (max nField 1)) := by
  obtain ⟨size, header, data, rfl, hlayout⟩ := h
  have hroom : max nField 1 = nField - 1 + 1 := by omega
  have hsize : getVarint32 (size ++ header ++ data ++ after) =
      some (UInt32.ofNat (size.length + header.length), size.length) := by
    simp only [List.append_assoc]
    exact getVarint32_put hlayout.size_eq _
  rw [sqlite3VdbeRecordUnpack, hsize, hroom]
  exact unpackLoop_lays hlayout.lays (hlayout.start after) (nField - 1)

/-! ### What the writer lays out -/

/-- The length of a text or a blob is an `int`, and so is the number of its zeros. -/
def Mem.Ints : Mem → Prop
  | .str z => z.length < 2 ^ 31
  | .blob z nZero => z.length < 2 ^ 31 ∧ nZero < 2 ^ 31
  | _ => True

/-- The values a record of these registers has, and their types. -/
def typed (file_format : Nat) (regs : List Mem) : List (Mem × UInt32) :=
  regs.map fun pMem => (pMem.stored, (sqlite3VdbeSerialType pMem file_format).1)

/-- The bytes of the contents, written or counted. -/
def contentSize (file_format : Nat) (regs : List Mem) : Nat :=
  (regs.map fun pMem => (sqlite3VdbeSerialType pMem file_format).2.toNat).sum

/-- A record before its size is written. -/
structure Sized (file_format : Nat) (regs : List Mem) (s : RecordSize) : Prop where
  bound : s.nHdr ≤ 5 * regs.length
  sum : s.nData + s.nZero = contentSize file_format regs
  total : ∀ pMem ∈ regs, pMem.size ≤ s.nData + s.nZero
  lays : (∀ pMem ∈ regs, pMem.Fits) → ∃ header data, putFields s.fields = some (header, data) ∧
    header.length = s.nHdr ∧ data.length = s.nData ∧
      Lays (typed file_format regs) header (data ++ List.replicate s.nZero 0)

/-- How many bytes the loop counts for a serial type. -/
theorem typeSize_above (t : UInt32) :
    ∃ n ≤ 4, typeSize t = some (n + 1) ∧ Above t.toNat n := by
  obtain ⟨n, habove⟩ := exists_above t.toNat
  have hlt := t.toNat_lt
  have hn : n ≤ 4 := habove.mono (w := 2 ^ 32) (m := 4) ⟨by decide, .inr (by decide)⟩ (by omega)
  refine ⟨n, hn, ?_, habove⟩
  have hle : t ≤ 127 ↔ t.toNat ≤ 127 := UInt32.le_iff_toNat_le
  by_cases ht : t ≤ 127
  · have hzero : n ≤ 0 := habove.mono (w := 127) (m := 0) ⟨by decide, .inl rfl⟩ (hle.mp ht)
    rw [typeSize, if_pos ht, Nat.le_zero.mp hzero]
  · rw [typeSize, if_neg ht]
    exact varintLen_above (by rwa [UInt32.toNat_toUInt64])

/-- The bytes counted for a cell are those of its text or blob. -/
theorem size_le {pMem : Mem} (hints : pMem.Ints) (file_format : Nat) :
    pMem.size ≤ (sqlite3VdbeSerialType pMem file_format).2.toNat := by
  cases pMem with
  | null | int | real => exact Nat.zero_le _
  | str z =>
    have hz : z.length < 2 ^ 31 := hints
    show z.length ≤ (UInt32.ofNat z.length).toNat
    rw [UInt32.toNat_ofNat']
    omega
  | blob z nZero =>
    have hz : z.length < 2 ^ 31 ∧ nZero < 2 ^ 31 := hints
    show z.length + nZero ≤ (UInt32.ofNat z.length + UInt32.ofNat nZero).toNat
    rw [UInt32.toNat_add, UInt32.toNat_ofNat', UInt32.toNat_ofNat']
    omega

section Step
variable {file_format n : Nat} {later : List Mem} {s : RecordSize}

/-- A cell whose zeros are written, if it has any. -/
theorem recordSize_written {pMem : Mem} {t len : UInt32} (ht : sqlite3VdbeSerialType pMem file_format = (t, len))
    (hs : recordSize file_format later = some s)
    (hn : typeSize t = some n)
    (hwritten : s.nData ≠ 0 ∨ ∀ z nZero, pMem ≠ .blob z nZero) :
    recordSize file_format (pMem :: later) =
      some ⟨(pMem.expand, t) :: s.fields, s.nData + len.toNat, s.nHdr + n, s.nZero⟩ := by
  rw [recordSize, hs, ht]
  cases pMem with
  | blob z nZero =>
    have hdata : s.nData ≠ 0 := hwritten.resolve_right fun h => h z nZero rfl
    simp only [Option.bind_eq_bind, Option.bind_some, if_pos hdata, hn, Option.pure_def]
  | null | int | real | str => simp only [Option.bind_eq_bind, Option.bind_some, hn, Option.pure_def, Mem.expand]

/-- A blob that no data follows: its zeros are counted. -/
theorem recordSize_counted {z : List UInt8} {nZero : Nat} {t len : UInt32}
    (ht : sqlite3VdbeSerialType (.blob z nZero) file_format = (t, len)) (hs : recordSize file_format later = some s)
    (hn : typeSize t = some n) (hdata : s.nData = 0) :
    recordSize file_format (.blob z nZero :: later) =
      some ⟨(.blob z nZero, t) :: s.fields, s.nData + (len - UInt32.ofNat nZero).toNat, s.nHdr + n,
        s.nZero + nZero⟩ := by
  rw [recordSize, hs, ht]
  simp only [Option.bind_eq_bind, Option.bind_some, hdata, ne_eq, not_true_eq_false, if_false, hn, Option.pure_def]

end Step

/-- One more field: what it takes of the header and of the contents. -/
theorem putFields_cons {pMem : Mem} {t : UInt32} {type content header data : List UInt8}
    {fields : List (Mem × UInt32)} (htype : putVarint32 t = some type)
    (hput : sqlite3VdbeSerialPut pMem t = some content) (hfields : putFields fields = some (header, data)) :
    putFields ((pMem, t) :: fields) = some (type ++ header, content ++ data) := by
  simp only [putFields, htype, hput, hfields, Option.bind_eq_bind, Option.bind_some, Option.pure_def]

/-- One more cell in front of a record: `mem` is put in `k` bytes, and `nZero` zeros are counted behind them
and what the later cells have put. -/
theorem Sized.cons {file_format n k nZero : Nat} {pMem mem : Mem} {later : List Mem} {s : RecordSize} {t len : UInt32}
    (h : Sized file_format later s) (ht : sqlite3VdbeSerialType pMem file_format = (t, len))
    (hn : n ≤ 4) (habove : Above t.toNat n) (hsize : pMem.size ≤ len.toNat) (hsum : k + nZero = len.toNat + s.nZero)
    (hcontent : pMem.Fits → ∃ content stored, sqlite3VdbeSerialPut mem t = some content ∧ content.length = k ∧
      Stored pMem t len stored ∧ ∀ data : List UInt8, data.length = s.nData →
        content ++ data ++ List.replicate nZero 0 = stored ++ (data ++ List.replicate s.nZero 0)) :
    Sized file_format (pMem :: later) ⟨(mem, t) :: s.fields, s.nData + k, s.nHdr + (n + 1), nZero⟩ := by
  have hbound := h.bound
  have hlater : ∀ m ∈ later, m.size ≤ s.nData + s.nZero := h.total
  refine ⟨?_, ?_, fun m hm => ?_, fun hfits => ?_⟩
  · rw [List.length_cons]
    show s.nHdr + (n + 1) ≤ _
    omega
  · rw [contentSize, List.map_cons, List.sum_cons, ht]
    have hcontentSize : s.nData + s.nZero = (later.map fun m => (sqlite3VdbeSerialType m file_format).2.toNat).sum := h.sum
    show s.nData + k + nZero = len.toNat + _
    omega
  · show m.size ≤ s.nData + k + nZero
    cases List.mem_cons.mp hm with
    | inl heq =>
      rw [heq]
      omega
    | inr hmem =>
      have := hlater m hmem
      omega
  · obtain ⟨header, data, hfields, hheader, hdata, hlays⟩ := h.lays fun m hm => hfits m (List.mem_cons_of_mem _ hm)
    obtain ⟨type, m, htype, htypeLen, habove', -⟩ := putVarint32_spec t
    have hmn : m = n :=
      Nat.le_antisymm (habove'.mono habove (Nat.le_refl _)) (habove.mono habove' (Nat.le_refl _))
    obtain ⟨content, stored, hput, hlen, hstored, hbytes⟩ := hcontent (hfits pMem (List.mem_cons_self ..))
    refine ⟨type ++ header, content ++ data, putFields_cons htype hput hfields, ?_, ?_, ?_⟩
    · show _ = s.nHdr + (n + 1)
      rw [List.length_append, htypeLen, hheader, hmn, Nat.add_comm]
    · show _ = s.nData + k
      rw [List.length_append, hlen, hdata, Nat.add_comm]
    · show Lays _ _ (content ++ data ++ List.replicate nZero 0)
      rw [hbytes data hdata, typed, List.map_cons, ht]
      exact .cons htype hstored.get hstored.length hlays

/-- The words of a blob's length and of the zeros in it. -/
theorem blob_words {z : List UInt8} {nZero : Nat} (hz : z.length < 2 ^ 31) (hzero : nZero < 2 ^ 31) :
    (UInt32.ofNat z.length + UInt32.ofNat nZero - UInt32.ofNat nZero).toNat = z.length ∧
      (UInt32.ofNat z.length + UInt32.ofNat nZero).toNat = z.length + nZero := by
  constructor
  · rw [UInt32.add_sub_cancel, UInt32.toNat_ofNat', Nat.mod_eq_of_lt (by omega)]
  · rw [UInt32.toNat_add, UInt32.toNat_ofNat', UInt32.toNat_ofNat']
    omega

theorem recordSize_sized (file_format : Nat) {regs : List Mem} (hints : ∀ pMem ∈ regs, pMem.Ints) :
    ∃ s, recordSize file_format regs = some s ∧ Sized file_format regs s := by
  induction regs with
  | nil => exact ⟨_, rfl, Nat.le_refl _, rfl, fun _ h => (List.not_mem_nil h).elim, fun _ => ⟨[], [], rfl, rfl, rfl, .nil⟩⟩
  | cons pMem later ih =>
    obtain ⟨s, hs, hsized⟩ := ih fun m hm => hints m (List.mem_cons_of_mem _ hm)
    obtain ⟨t, len, ht⟩ : ∃ t len, sqlite3VdbeSerialType pMem file_format = (t, len) := ⟨_, _, rfl⟩
    obtain ⟨n, hn, htypeSize, habove⟩ := typeSize_above t
    have hsize := size_le (hints pMem (List.mem_cons_self ..)) file_format
    rw [ht] at hsize
    by_cases hwritten : s.nData ≠ 0 ∨ ∀ z nZero, pMem ≠ .blob z nZero
    · refine ⟨_, recordSize_written ht hs htypeSize hwritten, hsized.cons ht hn habove hsize rfl fun hfits => ?_⟩
      obtain ⟨content, hstored⟩ := serialGet_stored hfits file_format
      rw [ht] at hstored
      exact ⟨content, content, hstored.put, hstored.length, hstored, fun data _ => List.append_assoc ..⟩
    · rw [not_or, not_not, not_forall] at hwritten
      obtain ⟨hdata₀, z, hz⟩ := hwritten
      obtain ⟨nZero, rfl⟩ : ∃ nZero, pMem = .blob z nZero := by
        rw [not_forall] at hz
        exact hz.imp fun _ => not_not.mp
      obtain ⟨hzlen, hzero⟩ : z.length < 2 ^ 31 ∧ nZero < 2 ^ 31 := hints _ (List.mem_cons_self ..)
      have hwords : len = UInt32.ofNat z.length + UInt32.ofNat nZero := (congrArg Prod.snd ht).symm
      obtain ⟨hlen, hwhole⟩ := blob_words hzlen hzero
      rw [← hwords] at hlen hwhole
      refine ⟨_, recordSize_counted ht hs htypeSize hdata₀,
        hsized.cons ht hn habove hsize (by omega) fun hfits => ?_⟩
      obtain ⟨hlarge, hstored⟩ := blob_stored hfits file_format
      rw [ht] at hlarge hstored
      refine ⟨z, _, put_bytes hlarge (.inr ⟨nZero, rfl⟩), hlen.symm, hstored, fun data hdata => ?_⟩
      -- no data follows: the zeros counted here are next to those counted before
      have hnil : data = [] := List.length_eq_zero_iff.mp (hdata.trans hdata₀)
      rw [hnil, List.append_nil, List.nil_append, List.append_assoc, ← List.replicate_add, Nat.add_comm nZero]

/-! ### The round trip -/

/-- **A record is made unless it is too big.** Its size is that of its contents and at most five bytes for
each field and for the header. -/
theorem makeRecord_layout (file_format : Nat) {regs : List Mem} (hregs : regs.length < 2 ^ 28)
    (hints : ∀ pMem ∈ regs, pMem.Ints) :
    ∃ size ≤ 5 * regs.length + 5 + contentSize file_format regs, ∀ limit ≤ SQLITE_MAX_LENGTH,
      (limit < size → OP_MakeRecord limit file_format regs = some .too_big) ∧
      (size ≤ limit → ∃ z nZero, OP_MakeRecord limit file_format regs = some (.record z nZero) ∧
        z.length + nZero = size ∧ IsRecord (typed file_format regs) (z ++ List.replicate nZero 0)) := by
  obtain ⟨s, hs, hsized⟩ := recordSize_sized file_format hints
  have hbound := hsized.bound
  obtain ⟨n, habove⟩ := exists_above s.nHdr
  obtain ⟨nHdr, m, hsize, hm, hnHdr, hmn⟩ := headerSize_above (by omega) habove
  have hmake (limit : Nat) : OP_MakeRecord limit file_format regs =
      if limit < nHdr + s.nData + s.nZero then some .too_big
      else do
        let size ← putVarint32 (UInt32.ofNat nHdr)
        let (header, data) ← putFields s.fields
        guard (size.length + header.length = nHdr)
        guard (nHdr + data.length = nHdr + s.nData)
        return .record (size ++ header ++ data) s.nZero := by
    rw [OP_MakeRecord, hs]
    simp only [Option.bind_eq_bind, Option.bind_some, hsize]
    rfl
  have hn₄ : n ≤ 4 := habove.mono (w := 2 ^ 32) (m := 4) ⟨by decide, .inr (by decide)⟩ (by omega)
  have hm₄ : m ≤ 4 := hm.mono (w := 2 ^ 32) (m := 4) ⟨by decide, .inr (by decide)⟩ (by omega)
  have hsum := hsized.sum
  refine ⟨nHdr + s.nData + s.nZero, by omega, fun limit hlimit => ⟨fun hbig => ?_, fun hsmall => ?_⟩⟩
  · exact (hmake limit).trans (if_pos hbig)
  · have hmax : SQLITE_MAX_LENGTH = 1000000000 := rfl
    have hfits : ∀ pMem ∈ regs, pMem.Fits := fun pMem hmem => by
      have hle := hsized.total pMem hmem
      show 2 * pMem.size + 13 < 2 ^ 32
      omega
    have hword : (UInt32.ofNat nHdr).toNat = nHdr := by
      rw [UInt32.toNat_ofNat', Nat.mod_eq_of_lt (by omega)]
    obtain ⟨header, data, hfields, hheader, hdata, hlays⟩ := hsized.lays hfits
    obtain ⟨p, k, hput, hp, hk, -⟩ := putVarint32_spec (UInt32.ofNat nHdr)
    rw [hword] at hk
    have hkm : k = m := Nat.le_antisymm (hk.mono hm (Nat.le_refl _)) (hm.mono hk (Nat.le_refl _))
    have hhdr : p.length + header.length = nHdr := by omega
    refine ⟨p ++ header ++ data, s.nZero, ?_, ?_, p, header, data ++ List.replicate s.nZero 0, ?_, ?_, hlays, ?_⟩
    · rw [hmake, if_neg (Nat.not_lt.mpr hsmall)]
      simp only [hput, hfields, Option.bind_eq_bind, Option.bind_some, guard, if_pos hhdr, hdata, if_true,
        Option.pure_def]
    · rw [List.length_append, List.length_append]
      omega
    · simp only [List.append_assoc]
    · rw [hhdr]
      exact hput
    · rw [List.length_append, List.length_replicate]
      omega

/-- **A record that is made is unpacked again, whatever comes after it in memory.** The values are those of
the registers, with the zeros of blobs written out and NULL for a NaN; fewer fields asked for are the
first ones, and asked for none it is one. -/
theorem makeRecord_unpack (file_format : Nat) {regs : List Mem} (hregs : regs.length < 2 ^ 28)
    (hints : ∀ pMem ∈ regs, pMem.Ints) :
    ∃ size ≤ 5 * regs.length + 5 + contentSize file_format regs, ∀ limit ≤ SQLITE_MAX_LENGTH,
      (limit < size → OP_MakeRecord limit file_format regs = some .too_big) ∧
      (size ≤ limit → ∃ z nZero, OP_MakeRecord limit file_format regs = some (.record z nZero) ∧
        z.length + nZero = size ∧
        ∀ nField after, sqlite3VdbeRecordUnpack nField size (z ++ List.replicate nZero 0 ++ after) =
          some ((regs.map Mem.stored).take (max nField 1))) := by
  obtain ⟨size, hsize, hlimits⟩ := makeRecord_layout file_format hregs hints
  refine ⟨size, hsize, fun limit hlimit => ⟨(hlimits limit hlimit).1, fun hle => ?_⟩⟩
  obtain ⟨z, nZero, hmake, hlen, hrecord⟩ := (hlimits limit hlimit).2 hle
  refine ⟨z, nZero, hmake, hlen, fun nField after => ?_⟩
  have hkey : (z ++ List.replicate nZero 0).length = size := by rw [List.length_append, List.length_replicate, hlen]
  have hunpack := unpack_record hrecord nField after
  rw [hkey, typed, List.map_map] at hunpack
  exact hunpack

/-- An integer, a NaN and a blob with zeros. -/
theorem threeFields_unpack :
    ∃ size ≤ 5 * 3 + 5 + contentSize 4 [.int 1, .real 0x7ff8000000000000, .blob [7] 2],
      ∀ limit ≤ SQLITE_MAX_LENGTH,
        (limit < size →
          OP_MakeRecord limit 4 [.int 1, .real 0x7ff8000000000000, .blob [7] 2] = some .too_big) ∧
        (size ≤ limit → ∃ z nZero,
          OP_MakeRecord limit 4 [.int 1, .real 0x7ff8000000000000, .blob [7] 2] = some (.record z nZero) ∧
            z.length + nZero = size ∧
            ∀ nField after, sqlite3VdbeRecordUnpack nField size (z ++ List.replicate nZero 0 ++ after) =
              some ([Mem.int 1, .null, .blob [7, 0, 0] 0].take (max nField 1))) :=
  @makeRecord_unpack 4 [.int 1, .real 0x7ff8000000000000, .blob [7] 2] (by decide) (by
    intro pMem hmem
    obtain rfl | rfl | rfl : pMem = .int 1 ∨ pMem = .real 0x7ff8000000000000 ∨ pMem = .blob [7] 2 := by
      simpa using hmem
    · trivial
    · trivial
    · exact ⟨by decide, by decide⟩)

end FuzzerTestSuite.Sqlite
