import FuzzerTestSuite.Sqlite.Bitvec
import Mathlib.Data.Set.Image

/-! What a bitmap holds.

`Holds p S` says of each of the three representations that it has the bits of `S` and no others: the
bits of the bytes, the values of the table, or, for a bitmap that is split, of each sub-bitmap the part
of `S` that falls to it. A bit is found by `Test` exactly if it is held (`testLoop_spec`), and one bit
changed in a sub-bitmap is one bit changed in the whole (`graft_change`). -/
namespace FuzzerTestSuite.Sqlite
open Library Library.OpenAddressing Library.WhileLoop

variable {a : List UInt32} {nSet : Nat}

/-! ### What a bitmap holds -/

/-- The bits of `S` that fall to a sub-bitmap of `d` bits. -/
def part (S : Set Nat) (d bin : Nat) : Set Nat := {j | j < d ∧ bin * d + j ∈ S}

/-- A straight bitmap of the bits of `S`. -/
structure Straight (p : Bitvec) (a : List UInt8) (S : Set Nat) : Prop where
  divisor : p.iDivisor = 0
  u : p.u = .aBitmap a
  size : p.iSize.toNat ≤ BITVEC_NBIT
  length : a.length = BITVEC_NELEM
  bound : ∀ i ∈ S, i < p.iSize.toNat
  bits : ∀ i < p.iSize.toNat, bitOf a i ↔ i ∈ S

/-- A hash table of the bits of `S`. -/
structure Hashed (p : Bitvec) (a : List UInt32) (S : Set Nat) : Prop where
  divisor : p.iDivisor = 0
  u : p.u = .aHash a
  size : BITVEC_NBIT < p.iSize.toNat
  table : Table a p.nSet.toNat
  bound : ∀ i ∈ S, i < p.iSize.toNat
  values : ∀ v, v ≠ 0 → (v ∈ a ↔ v.toNat - 1 ∈ S)

/-- A bitmap split in sub-bitmaps for the bits of `S`. -/
structure Divided (p : Bitvec) (a : List (Option Bitvec)) (S : Set Nat) : Prop where
  u : p.u = .apSub a
  size : BITVEC_NBIT < p.iSize.toNat
  divisor : p.iDivisor.toNat = (p.iSize.toNat + BITVEC_NPTR - 1) / BITVEC_NPTR
  length : a.length = BITVEC_NPTR
  bound : ∀ i ∈ S, i < p.iSize.toNat
  absent : ∀ bin : Nat, a[bin]? = some none → part S p.iDivisor.toNat bin = ∅
  sizes : ∀ (bin : Nat) (c : Bitvec), a[bin]? = some (some c) → c.iSize = p.iDivisor

/-- The bitmap has the bits of `S`, counted from 0, and no others. -/
inductive Holds : Bitvec → Set Nat → Prop where
  | aBitmap {p : Bitvec} {a : List UInt8} {S : Set Nat} (h : Straight p a S) : Holds p S
  | aHash {p : Bitvec} {a : List UInt32} {S : Set Nat} (h : Hashed p a S) : Holds p S
  | apSub {p : Bitvec} {a : List (Option Bitvec)} {S : Set Nat} (h : Divided p a S)
      (subs : ∀ (bin : Nat) (c : Bitvec), a[bin]? = some (some c) → Holds c (part S p.iDivisor.toNat bin)) :
      Holds p S

theorem Holds.bound {p : Bitvec} {S : Set Nat} (h : Holds p S) : ∀ i ∈ S, i < p.iSize.toNat := by
  cases h with
  | aBitmap h => exact h.bound
  | aHash h => exact h.bound
  | apSub h _ => exact h.bound

theorem holds_zeroed (iSize : UInt32) : Holds (zeroed iSize) ∅ := by
  have hbound : ∀ i ∈ (∅ : Set Nat), i < iSize.toNat := fun i hi => hi.elim
  by_cases hsize : iSize.toNat ≤ BITVEC_NBIT
  · refine .aBitmap ⟨rfl, if_pos hsize, hsize, List.length_replicate, hbound, fun i _ => iff_of_false ?_ id⟩
    intro hbit
    obtain ⟨b, hget, hset⟩ := hbit
    rw [List.eq_of_mem_replicate (List.mem_of_getElem? hget)] at hset
    cases (Nat.zero_testBit _).symm.trans hset
  · refine .aHash ⟨rfl, if_neg hsize, Nat.not_le.mp hsize, table_zero, hbound, fun v hv => iff_of_false ?_ id⟩
    exact fun hmem => hv (List.eq_of_mem_replicate hmem)

/-! ### Where a bit falls -/

theorem divisor_pos {iSize d : Nat} (hsize : BITVEC_NBIT < iSize) (hd : d = (iSize + BITVEC_NPTR - 1) / BITVEC_NPTR) :
    0 < d := by
  rw [hd]
  apply Nat.div_pos _ (by decide)
  have : BITVEC_NPTR ≤ BITVEC_NBIT := by decide
  omega

theorem ne_zero_of_pos {d : UInt32} (hpos : 0 < d.toNat) : d ≠ 0 := by
  intro hzero
  rw [hzero] at hpos
  exact absurd hpos (Nat.lt_irrefl 0)

theorem Divided.divisor_pos {p : Bitvec} {a : List (Option Bitvec)} {S : Set Nat} (h : Divided p a S) :
    0 < p.iDivisor.toNat := Sqlite.divisor_pos h.size h.divisor

theorem Divided.exists_sub {p : Bitvec} {a : List (Option Bitvec)} {S : Set Nat} (h : Divided p a S) {i : UInt32}
    (hi : i < p.iSize) : ∃ sub, a[(i / p.iDivisor).toNat]? = some sub := by
  have hmul := Nat.div_add_mod (p.iSize.toNat + BITVEC_NPTR - 1) BITVEC_NPTR
  have hmod := Nat.mod_lt (p.iSize.toNat + BITVEC_NPTR - 1) (show 0 < BITVEC_NPTR by decide)
  have hlt := UInt32.lt_iff_toNat_lt.mp hi
  have hbin : (i / p.iDivisor).toNat < a.length := by
    rw [← h.divisor] at hmul
    rw [h.length, UInt32.toNat_div]
    apply Nat.div_lt_of_lt_mul
    rw [Nat.mul_comm p.iDivisor.toNat]
    omega
  exact ⟨_, List.getElem?_eq_getElem hbin⟩

theorem mem_part {S : Set Nat} {i d : UInt32} (hd : 0 < d.toNat) :
    (i % d).toNat ∈ part S d.toNat (i / d).toNat ↔ i.toNat ∈ S := by
  rw [UInt32.toNat_mod, UInt32.toNat_div]
  show i.toNat % d.toNat < d.toNat ∧ i.toNat / d.toNat * d.toNat + i.toNat % d.toNat ∈ S ↔ _
  rw [Nat.div_add_mod']
  exact and_iff_right (Nat.mod_lt _ hd)

/-- A bitmap of this size is split at most `k` times. -/
def Shallow (iSize k : Nat) : Prop := iSize ≤ BITVEC_NBIT * BITVEC_NPTR ^ k

theorem shallow_all (iSize : UInt32) : Shallow iSize.toNat 4 := by
  have hlt := iSize.toNat_lt
  have hbig : 2 ^ 32 ≤ BITVEC_NBIT * BITVEC_NPTR ^ 4 := by decide
  exact Nat.le_of_lt (Nat.lt_of_lt_of_le hlt hbig)

theorem Shallow.sub {iSize d k : Nat} (h : Shallow iSize k) (hsize : BITVEC_NBIT < iSize)
    (hd : d = (iSize + BITVEC_NPTR - 1) / BITVEC_NPTR) : ∃ k', k = k' + 1 ∧ Shallow d k' := by
  cases k with
  | zero => exact absurd h (by rw [Shallow, Nat.pow_zero, Nat.mul_one]; omega)
  | succ k =>
    refine ⟨k, rfl, ?_⟩
    rw [Shallow, Nat.pow_succ, ← Nat.mul_assoc] at h
    rw [Shallow, hd]
    apply Nat.le_of_lt_succ
    apply Nat.div_lt_of_lt_mul
    have hpos : 0 < BITVEC_NPTR := by decide
    rw [Nat.mul_succ, Nat.mul_comm BITVEC_NPTR]
    omega

theorem succ_toNat {i n : UInt32} (h : i < n) : (i + 1).toNat = i.toNat + 1 := by
  have hlt := UInt32.lt_iff_toNat_lt.mp h
  have hn := n.toNat_lt
  rw [UInt32.toNat_add, UInt32.toNat_one, Nat.mod_eq_of_lt (by omega)]

theorem succ_ne_zero {i n : UInt32} (h : i < n) : i + 1 ≠ 0 := by
  intro hzero
  have := succ_toNat h
  rw [hzero] at this
  cases this

theorem pred_toNat {v : UInt32} (hv : v ≠ 0) : (v - 1).toNat = v.toNat - 1 := by
  have hpos : v.toNat ≠ 0 := fun hzero => hv (UInt32.toNat_inj.mp hzero)
  have hle : 1 ≤ v := by
    rw [UInt32.le_iff_toNat_le, UInt32.toNat_one]
    omega
  rw [UInt32.toNat_sub_of_le _ _ hle, UInt32.toNat_one]

theorem pred_lt {v n : UInt32} (hv : v ≠ 0) (hle : v.toNat ≤ n.toNat) : v - 1 < n := by
  have hpos : v.toNat ≠ 0 := fun hzero => hv (UInt32.toNat_inj.mp hzero)
  rw [UInt32.lt_iff_toNat_lt, pred_toNat hv]
  omega

theorem exists_byte {a : List UInt8} {i iSize : UInt32} (hlen : a.length = BITVEC_NELEM)
    (hsize : iSize.toNat ≤ BITVEC_NBIT) (hi : i < iSize) : ∃ b, a[i.toNat / BITVEC_SZELEM]? = some b := by
  have hlt := UInt32.lt_iff_toNat_lt.mp hi
  have hbyte : i.toNat / BITVEC_SZELEM < a.length := by
    rw [hlen]
    apply Nat.div_lt_of_lt_mul
    rw [Nat.mul_comm]
    exact Nat.lt_of_lt_of_le hlt hsize
  exact ⟨_, List.getElem?_eq_getElem hbyte⟩

theorem split_divisor (p : Bitvec) :
    (split p).iDivisor.toNat = (p.iSize.toNat + BITVEC_NPTR - 1) / BITVEC_NPTR := by
  have hlt := p.iSize.toNat_lt
  have hptr : (UInt64.ofNat BITVEC_NPTR).toNat = 62 := rfl
  have hle : (1 : UInt64) ≤ p.iSize.toUInt64 + UInt64.ofNat BITVEC_NPTR := by
    rw [UInt64.le_iff_toNat_le, UInt64.toNat_add, UInt32.toNat_toUInt64, hptr, UInt64.toNat_one]
    omega
  rw [split, UInt64.toNat_toUInt32, UInt64.toNat_div, UInt64.toNat_sub_of_le _ _ hle, UInt64.toNat_add,
    UInt32.toNat_toUInt64, hptr, UInt64.toNat_one]
  show _ = (p.iSize.toNat + 62 - 1) / 62
  omega

theorem divided_split {p : Bitvec} (hsize : BITVEC_NBIT < p.iSize.toNat) :
    Divided (split p) (List.replicate BITVEC_NPTR none) ∅ := by
  refine ⟨rfl, hsize, split_divisor p, List.length_replicate, fun i hi => hi.elim, ?_, ?_⟩
  · intro bin _
    exact Set.eq_empty_of_forall_notMem fun j hj => hj.2
  · intro bin c hget
    cases List.eq_of_mem_replicate (List.mem_of_getElem? hget)

theorem holds_split {p : Bitvec} (hsize : BITVEC_NBIT < p.iSize.toNat) : Holds (split p) ∅ := by
  refine .apSub (divided_split hsize) fun bin c hget => ?_
  cases List.eq_of_mem_replicate (List.mem_of_getElem? hget)

variable {p : Bitvec} {S : Set Nat} {i : UInt32}

/-! ### Test -/

theorem testLoop_spec {p : Bitvec} {S : Set Nat} (h : Holds p S) {k : Nat} (hk : Shallow p.iSize.toNat k) {n : Nat}
    (hn : k < n) {i : UInt32} (hi : i < p.iSize) : ∃ b, testLoop n p i = some b ∧ (b = true ↔ i.toNat ∈ S) := by
  induction h generalizing k n i with
  | @aBitmap p a S h =>
    obtain ⟨n, rfl⟩ : ∃ m, n = m + 1 := ⟨n - 1, by omega⟩
    obtain ⟨b, hget⟩ := exists_byte h.length h.size hi
    refine ⟨b &&& bitMask i != 0, ?_, ?_⟩
    · rw [testLoop, if_neg (fun hne => hne h.divisor), testLeaf, if_pos h.size, h.u]
      exact congrArg (Option.map _) hget
    · rw [and_bitMask, ← h.bits i.toNat (UInt32.lt_iff_toNat_lt.mp hi), bitOf, hget]
      simp only [Option.some.injEq, exists_eq_left']
  | @aHash p a S h =>
    obtain ⟨n, rfl⟩ : ∃ m, n = m + 1 := ⟨n - 1, by omega⟩
    have hne := succ_ne_zero hi
    refine ⟨decide (i + 1 ∈ a), ?_, ?_⟩
    · rw [testLoop, if_neg (fun hne => hne h.divisor), testLeaf, if_neg (Nat.not_le.mpr h.size), h.u]
      exact testPass_spec h.table hne
    · rw [decide_eq_true_iff, h.values _ hne, succ_toNat hi, Nat.add_sub_cancel]
  | @apSub p a S h hsubs ih =>
    obtain ⟨n, rfl⟩ : ∃ m, n = m + 1 := ⟨n - 1, by omega⟩
    obtain ⟨k', rfl, hk'⟩ := hk.sub h.size h.divisor
    have hpart := mem_part (S := S) (i := i) h.divisor_pos
    obtain ⟨sub, hget⟩ := h.exists_sub hi
    rw [testLoop, if_pos (ne_zero_of_pos h.divisor_pos), h.u]
    simp only [hget]
    cases sub with
    | none =>
      refine ⟨false, rfl, iff_of_false Bool.false_ne_true fun hmem => ?_⟩
      have hempty := hpart.mpr hmem
      rw [h.absent _ hget] at hempty
      exact hempty
    | some c =>
      have hsize := h.sizes _ c hget
      have hlt : i % p.iDivisor < c.iSize := by
        rw [hsize, UInt32.lt_iff_toNat_lt, UInt32.toNat_mod]
        exact Nat.mod_lt _ h.divisor_pos
      obtain ⟨b, hb, hiff⟩ := ih _ c hget (hsize ▸ hk') (Nat.lt_of_succ_lt_succ hn) hlt
      exact ⟨b, hb, hiff.trans hpart⟩

/-! ### Sub-bitmaps -/

/-- The bits of `S`, but those of `U` in one sub-bitmap. -/
def graft (S : Set Nat) (d bin : Nat) (U : Set Nat) : Set Nat := {j | if j / d = bin then j % d ∈ U else j ∈ S}

theorem mem_graft {d bin j : Nat} {U : Set Nat} : j ∈ graft S d bin U ↔ if j / d = bin then j % d ∈ U else j ∈ S :=
  Iff.rfl

theorem part_graft_self {d bin : Nat} {U : Set Nat} (hU : ∀ j ∈ U, j < d) : part (graft S d bin U) d bin = U := by
  ext j
  show j < d ∧ bin * d + j ∈ graft S d bin U ↔ j ∈ U
  rw [mem_graft]
  constructor
  · intro h
    obtain ⟨hj, hmem⟩ := h
    rwa [Nat.mul_comm, Nat.mul_add_div (by omega), Nat.div_eq_of_lt hj, Nat.add_zero, if_pos rfl, Nat.mul_add_mod,
      Nat.mod_eq_of_lt hj] at hmem
  · intro hmem
    have hj := hU j hmem
    refine ⟨hj, ?_⟩
    rwa [Nat.mul_comm, Nat.mul_add_div (by omega), Nat.div_eq_of_lt hj, Nat.add_zero, if_pos rfl, Nat.mul_add_mod,
      Nat.mod_eq_of_lt hj]

theorem part_graft_ne {d bin bin' : Nat} {U : Set Nat} (hne : bin' ≠ bin) :
    part (graft S d bin U) d bin' = part S d bin' := by
  ext j
  show j < d ∧ bin' * d + j ∈ graft S d bin U ↔ j < d ∧ bin' * d + j ∈ S
  apply and_congr_right
  intro hj
  rw [mem_graft, Nat.mul_comm, Nat.mul_add_div (by omega), Nat.div_eq_of_lt hj, Nat.add_zero, if_neg hne]

theorem graft_mono {d bin : Nat} {U V : Set Nat} (h : U ⊆ V) : graft S d bin U ⊆ graft S d bin V := by
  intro j hj
  rw [mem_graft] at hj ⊢
  split at hj
  · rename_i hbin
    rw [if_pos hbin]
    exact h hj
  · rename_i hbin
    rwa [if_neg hbin]

/-- A change of one bit is the change of its sub-bitmap. -/
theorem graft_change {d i : Nat} (hd : 0 < d) {T : Set Nat} (hT : ∀ j, j ≠ i → (j ∈ T ↔ j ∈ S)) {U : Set Nat}
    (hU : ∀ j, j ≠ i % d → (j ∈ U ↔ j ∈ part S d (i / d))) (hi : i % d ∈ U ↔ i ∈ T) : graft S d (i / d) U = T := by
  ext j
  rw [mem_graft]
  split
  · rename_i hbin
    have hj := Nat.div_add_mod' j d
    by_cases hmod : j % d = i % d
    · have hji : j = i := by
        rw [← hj, hbin, hmod, Nat.div_add_mod']
      rw [hmod, hi, hji]
    · have hne : j ≠ i := fun hji => hmod (by rw [hji])
      rw [hU _ hmod, hT j hne]
      show j % d < d ∧ i / d * d + j % d ∈ S ↔ j ∈ S
      rw [← hbin, hj]
      exact and_iff_right (Nat.mod_lt j hd)
  · rename_i hbin
    exact (hT j fun hji => hbin (by rw [hji])).symm

/-- A sub-bitmap changed, or made. -/
theorem Divided.graft {a : List (Option Bitvec)} (h : Divided p a S)
    (hsubs : ∀ (bin : Nat) (c : Bitvec), a[bin]? = some (some c) → Holds c (part S p.iDivisor.toNat bin))
    {bin : Nat} (hbin : bin < a.length) {c : Bitvec} (hsize : c.iSize = p.iDivisor) {U : Set Nat} (hc : Holds c U)
    (hbound : ∀ j ∈ graft S p.iDivisor.toNat bin U, j < p.iSize.toNat) :
    Holds { p with u := .apSub (a.set bin (some c)) } (graft S p.iDivisor.toNat bin U) := by
  have hU : part (Sqlite.graft S p.iDivisor.toNat bin U) p.iDivisor.toNat bin = U :=
    part_graft_self fun j hj => hsize ▸ hc.bound j hj
  refine .apSub ⟨rfl, h.size, h.divisor, List.length_set.trans h.length, hbound, ?_, ?_⟩ ?_
  · intro bin' hget
    by_cases hb : bin = bin'
    · rw [hb, List.getElem?_set_self (hb ▸ hbin)] at hget
      cases hget
    · rw [List.getElem?_set_ne hb] at hget
      exact (part_graft_ne (Ne.symm hb)).trans (h.absent bin' hget)
  · intro bin' c' hget
    by_cases hb : bin = bin'
    · rw [hb, List.getElem?_set_self (hb ▸ hbin)] at hget
      cases hget
      exact hsize
    · rw [List.getElem?_set_ne hb] at hget
      exact h.sizes bin' c' hget
  · intro bin' c' hget
    by_cases hb : bin = bin'
    · rw [hb, List.getElem?_set_self (hb ▸ hbin)] at hget
      cases hget
      rw [← hb]
      exact hU.symm ▸ hc
    · rw [List.getElem?_set_ne hb] at hget
      have hsub := hsubs bin' c' hget
      rwa [← part_graft_ne (U := U) (Ne.symm hb)] at hsub

end FuzzerTestSuite.Sqlite
