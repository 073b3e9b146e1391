import FuzzerTestSuite.Library.OpenAddressing
import FuzzerTestSuite.Sqlite.Malloc
import Mathlib.Data.Nat.Bitwise

/-! SQLite's bitmaps of page numbers.

A `Bitvec` holds bits 1 to `iSize` in 512 bytes. A small one is a straight bitmap. A large one starts
as a hash table of the bits that are set, and when that fills up it is split into sub-bitmaps of
`iDivisor` bits each, which start the same way again.

The union is whichever of its three arrays the code reads it as; all are zero at first. An index past
an array's end, and a probe of a table without a free slot, are `none`. -/
namespace FuzzerTestSuite.Sqlite
open Library Library.OpenAddressing Library.WhileLoop

def BITVEC_SZ : Nat := 512
def BITVEC_USIZE : Nat := (BITVEC_SZ - 3 * 4) / 8 * 8
def BITVEC_SZELEM : Nat := 8
def BITVEC_NELEM : Nat := BITVEC_USIZE
def BITVEC_NBIT : Nat := BITVEC_NELEM * BITVEC_SZELEM
def BITVEC_NINT : Nat := BITVEC_USIZE / 4
def BITVEC_MXHASH : Nat := BITVEC_NINT / 2
def BITVEC_HASH (x : UInt32) : Nat := x.toNat % BITVEC_NINT
def BITVEC_NPTR : Nat := BITVEC_USIZE / 8

inductive BitvecUnion (Bitvec : Type) where
  | aBitmap (a : List UInt8)
  | aHash (a : List UInt32)
  | apSub (a : List (Option Bitvec))

structure Bitvec where
  iSize : UInt32
  nSet : UInt32
  iDivisor : UInt32
  u : BitvecUnion Bitvec

def SQLITE_OK : UInt32 := 0
def SQLITE_NOMEM : UInt32 := 7

/-- A bitmap with all bits clear. -/
def zeroed (iSize : UInt32) : Bitvec :=
  ⟨iSize, 0, 0,
    if iSize.toNat ≤ BITVEC_NBIT then .aBitmap (List.replicate BITVEC_NELEM 0)
    else .aHash (List.replicate BITVEC_NINT 0)⟩

def sqlite3BitvecCreate (iSize : UInt32) (mem : Malloc) : Option Bitvec × Malloc :=
  (if mem 0 then some (zeroed iSize) else none, mem.later)

def sqlite3BitvecSize (p : Bitvec) : UInt32 := p.iSize

/-- The mask of the `i`th bit in its byte. -/
def bitMask (i : UInt32) : UInt8 := 1 <<< (i &&& 7).toUInt8

/-! ### Test -/

def testPass (aHash : List UInt32) (i : UInt32) (h : Nat) : Option (Pass Nat Bool) := do
  let v ← aHash[h]?
  return if v = 0 then .done false
    else if v = i then .done true
    else .again ((h + 1) % BITVEC_NINT)

/-- The test of a bitmap that is not split. -/
def testLeaf (p : Bitvec) (i : UInt32) : Option Bool :=
  if p.iSize.toNat ≤ BITVEC_NBIT then
    match p.u with
    | .aBitmap a => a[i.toNat / BITVEC_SZELEM]?.map (· &&& bitMask i != 0)
    | _ => none
  else
    match p.u with
    | .aHash a => run (testPass a (i + 1)) BITVEC_NINT (BITVEC_HASH i)
    | _ => none

/-- The loop of `sqlite3BitvecTestNotNull`, and what follows it. -/
def testLoop : Nat → Bitvec → UInt32 → Option Bool
  | 0, _, _ => none
  | n + 1, p, i =>
    if p.iDivisor ≠ 0 then
      match p.u with
      | .apSub a =>
        match a[(i / p.iDivisor).toNat]? with
        | none => none
        | some none => some false
        | some (some c) => testLoop n c (i % p.iDivisor)
      | _ => none
    else testLeaf p i

/-- Bitmaps are split at most four times; a `Set` that splits one takes two rounds. -/
def BITVEC_DEPTH : Nat := 9

def sqlite3BitvecTestNotNull (p : Bitvec) (i : UInt32) : Option Bool :=
  if i - 1 ≥ p.iSize then some false else testLoop BITVEC_DEPTH p (i - 1)

def sqlite3BitvecTest (p : Option Bitvec) (i : UInt32) : Option Bool :=
  match p with
  | none => some false
  | some p => sqlite3BitvecTestNotNull p i

/-! ### Set -/

/-- What became of a `Set`: the code it returns, the bitmap, and the allocator. -/
structure SetResult where
  rc : UInt32
  p : Bitvec
  mem : Malloc

/-- Where the search of a taken slot's successors ends. -/
inductive Collision where
  | present
  | vacant (h : Nat)

/-- The `do` loop of `sqlite3BitvecSet`. -/
def setPass (aHash : List UInt32) (i : UInt32) (h : Nat) : Option (Pass Nat Collision) := do
  if (← aHash[h]?) = i then return .done .present
  let h := next BITVEC_NINT h
  return if (← aHash[h]?) ≠ 0 then .again h else .done (.vacant h)

/-- `bitvec_set_end`. -/
def setEnd (p : Bitvec) (aHash : List UInt32) (h : Nat) (i : UInt32) : Bitvec :=
  { p with nSet := p.nSet + 1, u := .aHash (aHash.set h i) }

/-- The bitmap split, with nothing in it. -/
def split (p : Bitvec) : Bitvec :=
  { p with
    iDivisor := ((p.iSize.toUInt64 + UInt64.ofNat BITVEC_NPTR - 1) / UInt64.ofNat BITVEC_NPTR).toUInt32
    u := .apSub (List.replicate BITVEC_NPTR none) }

/-- The bits of the table set again, whatever the earlier ones returned. -/
def setAgain (set : Bitvec → UInt32 → Malloc → Option SetResult) (s : SetResult) (v : UInt32) : Option SetResult :=
  if v ≠ 0 then (set s.p v s.mem).map fun s' => { s' with rc := s.rc ||| s'.rc } else some s

/-- `bitvec_set_rehash`. -/
def setRehash (set : Bitvec → UInt32 → Malloc → Option SetResult) (p : Bitvec) (aHash : List UInt32) (h : Nat)
    (i : UInt32) (mem : Malloc) : Option SetResult :=
  if p.nSet.toNat ≥ BITVEC_MXHASH then
    if mem 0 then do aHash.foldlM (setAgain set) (← set (split p) i mem.later)
    else some ⟨SQLITE_NOMEM, p, mem.later⟩
  else some ⟨SQLITE_OK, setEnd p aHash h i, mem⟩

/-- The part of `sqlite3BitvecSet` after its loop; `set` is the function itself. -/
def setLeaf (set : Bitvec → UInt32 → Malloc → Option SetResult) (p : Bitvec) (i : UInt32) (mem : Malloc) :
    Option SetResult :=
  if p.iSize.toNat ≤ BITVEC_NBIT then
    match p.u with
    | .aBitmap a => do
      let b ← a[i.toNat / BITVEC_SZELEM]?
      return ⟨SQLITE_OK, { p with u := .aBitmap (a.set (i.toNat / BITVEC_SZELEM) (b ||| bitMask i)) }, mem⟩
    | _ => none
  else
    match p.u with
    | .aHash a => do
      let h := BITVEC_HASH i
      if (← a[h]?) = 0 then
        if p.nSet.toNat < BITVEC_NINT - 1 then some ⟨SQLITE_OK, setEnd p a h (i + 1), mem⟩
        else setRehash set p a h (i + 1) mem
      else
        match ← run (setPass a (i + 1)) BITVEC_NINT h with
        | .present => some ⟨SQLITE_OK, p, mem⟩
        | .vacant h => setRehash set p a h (i + 1) mem
    | _ => none

/-- The sub-bitmap in use, or a new one. -/
def subOrCreate (p : Bitvec) (sub : Option Bitvec) (mem : Malloc) : Option Bitvec × Malloc :=
  match sub with
  | some c => (some c, mem)
  | none => sqlite3BitvecCreate p.iDivisor mem

/-- `sqlite3BitvecSet` from its loop on, where `i` counts from 0. -/
def setLoop : Nat → Bitvec → UInt32 → Malloc → Option SetResult
  | 0, _, _, _ => none
  | n + 1, p, i, mem =>
    if p.iSize.toNat > BITVEC_NBIT ∧ p.iDivisor ≠ 0 then
      match p.u with
      | .apSub a => do
        let bin := (i / p.iDivisor).toNat
        match subOrCreate p (← a[bin]?) mem with
        | (none, mem) => some ⟨SQLITE_NOMEM, p, mem⟩
        | (some c, mem) =>
          let s ← setLoop n c (i % p.iDivisor) mem
          return { s with p := { p with u := .apSub (a.set bin (some s.p)) } }
      | _ => none
    else setLeaf (fun p i mem => setLoop n p (i - 1) mem) p i mem

def sqlite3BitvecSet (p : Bitvec) (i : UInt32) (mem : Malloc) : Option SetResult :=
  setLoop BITVEC_DEPTH p (i - 1) mem

/-! ### Clear -/

def clearPass (aHash : List UInt32) (h : Nat) : Option (Pass Nat Nat) := do
  return if (← aHash[h]?) ≠ 0 then .again (next BITVEC_NINT h) else .done h

/-- One value of the old table, put into the new one if it is not the one cleared. -/
def clearAgain (i : UInt32) (s : UInt32 × List UInt32) (v : UInt32) : Option (UInt32 × List UInt32) :=
  if v ≠ 0 ∧ v ≠ i + 1 then do
    let h ← run (clearPass s.2) BITVEC_NINT (BITVEC_HASH (v - 1))
    return (s.1 + 1, s.2.set h v)
  else some s

def clearLeaf (p : Bitvec) (i : UInt32) : Option Bitvec :=
  if p.iSize.toNat ≤ BITVEC_NBIT then
    match p.u with
    | .aBitmap a => do
      let b ← a[i.toNat / BITVEC_SZELEM]?
      return { p with u := .aBitmap (a.set (i.toNat / BITVEC_SZELEM) (b &&& ~~~bitMask i)) }
    | _ => none
  else
    match p.u with
    | .aHash a => do
      let (nSet, a) ← a.foldlM (clearAgain i) (0, List.replicate BITVEC_NINT 0)
      return { p with nSet, u := .aHash a }
    | _ => none

/-- The loop of `sqlite3BitvecClear`, and what follows it. -/
def clearLoop : Nat → Bitvec → UInt32 → Option Bitvec
  | 0, _, _ => none
  | n + 1, p, i =>
    if p.iDivisor ≠ 0 then
      match p.u with
      | .apSub a =>
        match a[(i / p.iDivisor).toNat]? with
        | none => none
        | some none => some p
        | some (some c) => do
          let c ← clearLoop n c (i % p.iDivisor)
          return { p with u := .apSub (a.set (i / p.iDivisor).toNat (some c)) }
      | _ => none
    else clearLeaf p i

def sqlite3BitvecClear (p : Bitvec) (i : UInt32) : Option Bitvec := clearLoop BITVEC_DEPTH p (i - 1)

/-! ### The bits of a byte -/

/-- The `i`th bit of a straight bitmap is set. -/
def bitOf (a : List UInt8) (i : Nat) : Prop :=
  ∃ b, a[i / BITVEC_SZELEM]? = some b ∧ b.toNat.testBit (i % BITVEC_SZELEM) = true

theorem bitMask_toNat (i : UInt32) : (bitMask i).toNat = 2 ^ (i.toNat % BITVEC_SZELEM) := by
  have hlow : (i &&& 7).toUInt8.toNat = i.toNat % 8 := by
    rw [UInt32.toNat_toUInt8, UInt32.toNat_and]
    show (i.toNat &&& (2 ^ 3 - 1)) % 2 ^ 8 = _
    rw [Nat.and_two_pow_sub_one_eq_mod]
    omega
  have hlt : i.toNat % 8 < 8 := Nat.mod_lt _ (by decide)
  rw [bitMask, UInt8.toNat_shiftLeft, hlow, Nat.mod_eq_of_lt hlt, Nat.shiftLeft_eq]
  show 1 * 2 ^ (i.toNat % 8) % 2 ^ 8 = _
  rw [Nat.one_mul, Nat.mod_eq_of_lt (Nat.pow_lt_pow_right (by decide) hlt)]
  rfl

theorem and_bitMask (b : UInt8) (i : UInt32) :
    (b &&& bitMask i != 0) = b.toNat.testBit (i.toNat % BITVEC_SZELEM) := by
  rw [Bool.eq_iff_iff, bne_iff_ne, ← UInt8.toNat_inj.ne, UInt8.toNat_and, bitMask_toNat, UInt8.toNat_zero,
    Nat.and_two_pow]
  cases b.toNat.testBit (i.toNat % BITVEC_SZELEM) <;> simp

theorem or_bitMask (b : UInt8) (i : UInt32) (j : Nat) :
    (b ||| bitMask i).toNat.testBit j = (b.toNat.testBit j || decide (i.toNat % BITVEC_SZELEM = j)) := by
  rw [UInt8.toNat_or, bitMask_toNat, Nat.testBit_or, Nat.testBit_two_pow]

theorem andNot_bitMask (b : UInt8) (i : UInt32) {j : Nat} (hj : j < BITVEC_SZELEM) :
    (b &&& ~~~bitMask i).toNat.testBit j = (b.toNat.testBit j && !decide (i.toNat % BITVEC_SZELEM = j)) := by
  have hnot : UInt8.size - 1 - 2 ^ (i.toNat % BITVEC_SZELEM) = 2 ^ 8 - (2 ^ (i.toNat % BITVEC_SZELEM) + 1) := by
    show 256 - 1 - _ = 256 - _
    omega
  have hlt : 2 ^ (i.toNat % BITVEC_SZELEM) < 2 ^ 8 := Nat.pow_lt_pow_right (by decide) (Nat.mod_lt _ (by decide))
  rw [UInt8.toNat_and, UInt8.toNat_not, bitMask_toNat, Nat.testBit_and, hnot, Nat.testBit_two_pow_sub_succ hlt,
    Nat.testBit_two_pow, decide_eq_true (show j < 8 from hj), Bool.true_and]

theorem div_mod_eq {i j : Nat} (h : i / BITVEC_SZELEM = j / BITVEC_SZELEM) :
    i % BITVEC_SZELEM = j % BITVEC_SZELEM ↔ j = i := by
  have hi := Nat.div_add_mod i BITVEC_SZELEM
  have hj := Nat.div_add_mod j BITVEC_SZELEM
  rw [h] at hi
  constructor
  · intro hmod
    exact hj.symm.trans ((congrArg _ hmod.symm).trans hi)
  · intro hij
    rw [hij]

/-- A byte of a bitmap replaced by `c`, which has the value `v` for the `i`th bit and the old ones for the others. -/
theorem bitOf_set {a : List UInt8} {i : Nat} {b c : UInt8} {v : Bool} (hget : a[i / BITVEC_SZELEM]? = some b)
    (hc : ∀ j < BITVEC_SZELEM, c.toNat.testBit j = if i % BITVEC_SZELEM = j then v else b.toNat.testBit j) (j : Nat) :
    bitOf (a.set (i / BITVEC_SZELEM) c) j ↔ if j = i then v = true else bitOf a j := by
  obtain ⟨hi, -⟩ := List.getElem?_eq_some_iff.mp hget
  unfold bitOf
  by_cases hbyte : i / BITVEC_SZELEM = j / BITVEC_SZELEM
  · have hmod := div_mod_eq hbyte
    rw [← hbyte, List.getElem?_set_self hi, hget]
    simp only [Option.some.injEq, exists_eq_left', hc _ (Nat.mod_lt j (by decide : 0 < BITVEC_SZELEM)), hmod]
    by_cases hj : j = i
    · rw [if_pos hj, if_pos hj]
    · rw [if_neg hj, if_neg hj]
  · have hj : ¬j = i := fun h => hbyte (by rw [h])
    rw [List.getElem?_set_ne hbyte, if_neg hj]

/-! ### The hash table -/

/-- The slot a value of the table is looked for in first. -/
def home (v : UInt32) : Nat := BITVEC_HASH (v - 1)

/-- A table that is not full, in which every value can be found. -/
structure Table (aHash : List UInt32) (nSet : Nat) : Prop where
  length : aHash.length = BITVEC_NINT
  chained : Chained home 0 aHash
  count : used 0 aHash = nSet
  room : nSet < BITVEC_NINT

variable {a : List UInt32} {nSet : Nat}

theorem table_zero : Table (List.replicate BITVEC_NINT 0) 0 :=
  ⟨List.length_replicate, chained_free home 0 BITVEC_NINT, used_free 0 BITVEC_NINT, by decide⟩

theorem Table.free (h : Table a nSet) : (0 : UInt32) ∈ a := by
  apply exists_free
  rw [h.count, h.length]
  exact h.room

theorem hash_lt (i : UInt32) : BITVEC_HASH i < BITVEC_NINT := Nat.mod_lt _ (by decide)

theorem home_succ (i : UInt32) : home (i + 1) = BITVEC_HASH i := by
  rw [home, UInt32.add_sub_cancel]

/-- A search for a value ends at the value, or at a free slot if the table does not have it. -/
theorem Table.search (h : Table a nSet) {v : UInt32} (hv : v ≠ 0) :
    ∃ d < BITVEC_NINT, FirstStop (fun y => y = 0 ∨ y = v) a (home v) d ∧
      a[(home v + d) % BITVEC_NINT]? = some (if v ∈ a then v else 0) := by
  have hstop : ∃ y ∈ a, y = 0 ∨ y = v := ⟨0, h.free, .inl rfl⟩
  obtain ⟨d, hd, hfirst⟩ := exists_firstStop hstop (home v)
  have hfound := h.chained.first hv hfirst
  rw [h.length] at hd hfound
  refine ⟨d, hd, hfirst, ?_⟩
  split
  · rename_i hmem
    exact hfound.mpr hmem
  · rename_i hmem
    obtain ⟨y, hy, hstop⟩ := hfirst.at_stop
    rw [h.length] at hy
    rcases hstop with rfl | rfl
    · exact hy
    · exact absurd (hfound.mp hy) hmem

theorem Table.passed (h : Table a nSet) {stop : UInt32 → Prop} {v : UInt32} {d : Nat}
    (hfirst : FirstStop stop a (home v) d) (hzero : stop 0) {k : Nat} (hk : k < d) : a[(home v + k) % BITVEC_NINT]? ≠ some 0 := by
  intro hfree
  obtain ⟨y, hy, hnot⟩ := hfirst.passed k hk
  rw [h.length, hfree] at hy
  cases hy
  exact hnot hzero

/-- A value put into the first free slot. -/
theorem Table.store (h : Table a nSet) {v : UInt32} (hv : v ≠ 0) {d : Nat}
    (hpassed : ∀ k < d, a[(home v + k) % BITVEC_NINT]? ≠ some 0)
    (hget : a[(home v + d) % BITVEC_NINT]? = some 0) (hroom : nSet + 1 < BITVEC_NINT) :
    Table (a.set ((home v + d) % BITVEC_NINT) v) (nSet + 1) := by
  refine ⟨List.length_set.trans h.length, ?_, ?_, hroom⟩
  · rw [← h.length] at hpassed ⊢
    exact h.chained.store hv hpassed
  · rw [used_store hget hv, h.count]

/-! ### The three loops over the table -/

theorem testPass_spec (h : Table a nSet) {i : UInt32} (hi : i + 1 ≠ 0) :
    run (testPass a (i + 1)) BITVEC_NINT (BITVEC_HASH i) = some (decide (i + 1 ∈ a)) := by
  obtain ⟨d, hd, hfirst, hstop⟩ := h.search hi
  rw [home_succ] at hfirst hstop
  have hstart := Nat.mod_eq_of_lt (hash_lt i)
  rw [← hstart]
  apply run_seek _ _ hd
  · intro k hk
    obtain ⟨y, hy, hnot⟩ := hfirst.passed k hk
    rw [h.length] at hy
    have hne := not_or.mp hnot
    simp only [testPass, hy, Option.bind_eq_bind, Option.bind_some, if_neg hne.1, if_neg hne.2,
      Nat.mod_add_mod]
    rfl
  · simp only [testPass, hstop, Option.bind_eq_bind, Option.bind_some]
    by_cases hmem : i + 1 ∈ a
    · simp only [if_pos hmem, if_neg hi, decide_eq_true hmem, if_true]
      rfl
    · simp only [if_neg hmem, if_true, decide_eq_false hmem]
      rfl

theorem setPass_step {i : UInt32} {h : Nat} {y z : UInt32} (hy : a[h % BITVEC_NINT]? = some y) (hne : y ≠ i)
    (hz : a[(h + 1) % BITVEC_NINT]? = some z) :
    setPass a i (h % BITVEC_NINT) =
      some (if z ≠ 0 then .again ((h + 1) % BITVEC_NINT) else .done (.vacant ((h + 1) % BITVEC_NINT))) := by
  have hnext : next BITVEC_NINT (h % BITVEC_NINT) = (h + 1) % BITVEC_NINT := by
    rw [next_eq (Nat.mod_lt _ (by decide)), Nat.mod_add_mod]
  simp only [setPass, hy, hnext, hz, Option.bind_eq_bind, Option.bind_some, if_neg hne]
  rfl

/-- The search of `sqlite3BitvecSet` from a slot that is taken. -/
theorem setPass_spec (h : Table a nSet) {i : UInt32} (hi : i + 1 ≠ 0) (hfull : a[BITVEC_HASH i]? ≠ some 0) :
    if i + 1 ∈ a then run (setPass a (i + 1)) BITVEC_NINT (BITVEC_HASH i) = some .present
    else ∃ d, (∀ k < d, a[(home (i + 1) + k) % BITVEC_NINT]? ≠ some 0) ∧
      a[(home (i + 1) + d) % BITVEC_NINT]? = some 0 ∧
      run (setPass a (i + 1)) BITVEC_NINT (BITVEC_HASH i) = some (.vacant ((home (i + 1) + d) % BITVEC_NINT)) := by
  obtain ⟨d, hd, hfirst, hstop⟩ := h.search hi
  have hstart : home (i + 1) % BITVEC_NINT = BITVEC_HASH i := by
    rw [home_succ, Nat.mod_eq_of_lt (hash_lt i)]
  have hpassed (k : Nat) (hk : k < d) : ∃ y, a[(home (i + 1) + k) % BITVEC_NINT]? = some y ∧ ¬(y = 0 ∨ y = i + 1) := by
    rw [← h.length]
    exact hfirst.passed k hk
  have hagain (k : Nat) (hk : k < d) (hnext : ∃ z, a[(home (i + 1) + k + 1) % BITVEC_NINT]? = some z ∧ z ≠ 0) :
      setPass a (i + 1) ((home (i + 1) + k) % BITVEC_NINT) = some (.again ((home (i + 1) + k + 1) % BITVEC_NINT)) := by
    obtain ⟨y, hy, hnot⟩ := hpassed k hk
    obtain ⟨z, hz, hne⟩ := hnext
    rw [setPass_step hy (not_or.mp hnot).2 hz, if_pos hne]
  rw [← hstart]
  split
  · rename_i hmem
    rw [if_pos hmem] at hstop
    apply run_seek _ _ hd
    · intro k hk
      apply hagain k hk
      by_cases hlast : k + 1 = d
      · exact ⟨i + 1, by rw [Nat.add_assoc, hlast, hstop], hi⟩
      · obtain ⟨z, hz, hnot⟩ := hpassed (k + 1) (by omega)
        exact ⟨z, hz, (not_or.mp hnot).1⟩
    · simp only [setPass, hstop, Option.bind_eq_bind, Option.bind_some, if_true]
      rfl
  · rename_i hmem
    rw [if_neg hmem] at hstop
    refine ⟨d, fun k hk => h.passed hfirst (.inl rfl) hk, hstop, ?_⟩
    cases d with
    | zero =>
      rw [Nat.add_zero, hstart] at hstop
      exact absurd hstop hfull
    | succ d =>
      apply run_seek _ _ (by omega : d < BITVEC_NINT)
      · intro k hk
        obtain ⟨z, hz, hnot⟩ := hpassed (k + 1) (by omega)
        exact hagain k (by omega) ⟨z, hz, (not_or.mp hnot).1⟩
      · obtain ⟨y, hy, hnot⟩ := hpassed d (Nat.lt_succ_self d)
        rw [setPass_step hy (not_or.mp hnot).2 hstop]
        rfl

theorem clearPass_spec (h : Table a nSet) (v : UInt32) :
    ∃ d, (∀ k < d, a[(home v + k) % BITVEC_NINT]? ≠ some 0) ∧ a[(home v + d) % BITVEC_NINT]? = some 0 ∧
      run (clearPass a) BITVEC_NINT (BITVEC_HASH (v - 1)) = some ((home v + d) % BITVEC_NINT) := by
  have hfree : ∃ y ∈ a, y = 0 := ⟨0, h.free, rfl⟩
  obtain ⟨d, hd, hfirst⟩ := exists_firstStop hfree (home v)
  obtain ⟨y, hy, rfl⟩ := hfirst.at_stop
  have hpassed (k : Nat) (hk : k < d) := h.passed hfirst rfl hk
  have hstart : home v % BITVEC_NINT = BITVEC_HASH (v - 1) := Nat.mod_eq_of_lt (hash_lt _)
  rw [h.length] at hd hy
  refine ⟨d, hpassed, hy, ?_⟩
  rw [← hstart]
  apply run_seek _ _ hd
  · intro k hk
    obtain ⟨z, hz, hnot⟩ := hfirst.passed k hk
    rw [h.length] at hz
    have hnext : next BITVEC_NINT ((home v + k) % BITVEC_NINT) = (home v + k + 1) % BITVEC_NINT := by
      rw [next_eq (Nat.mod_lt _ (by decide)), Nat.mod_add_mod]
    simp only [clearPass, hz, hnext, Option.bind_eq_bind, Option.bind_some, ne_eq, hnot, not_false_eq_true,
      if_true]
    rfl
  · simp only [clearPass, hy, Option.bind_eq_bind, Option.bind_some, ne_eq, not_true_eq_false, if_false]
    rfl

end FuzzerTestSuite.Sqlite
