import FuzzerTestSuite.Modexp.Target

/-! How the target splits its input.

The first two bytes scale the rest twice: once for the first operand, once, of what
is left, for the second. For every input of an `int`'s size no step of that wraps
(`lengths_exact`), the assertion after it holds and the three operands lie end to
end in the input (`split_tiles`); and every way to split a payload is reached from
some header exactly if the payload is under 256 bytes (`all_splits_iff`). -/
namespace FuzzerTestSuite.Modexp
open Library

/-! ### The lengths -/

/-- Nothing wraps: each product fits in a `size_t`, no difference goes below zero, and
each length is the number its expression stands for. -/
structure Lengths.Exact (l : Lengths) (n : Nat) (b₁ b₂ : UInt8) : Prop where
  product₁ : n * (b₁.toNat + 1) < 2 ^ 64
  l1 : l.l1.toNat = n * (b₁.toNat + 1) / 256
  l1_le : l.l1.toNat ≤ n
  product₂ : (n - l.l1.toNat) * (b₂.toNat + 1) < 2 ^ 64
  l2 : l.l2.toNat = (n - l.l1.toNat) * (b₂.toNat + 1) / 256
  l2_le : l.l2.toNat ≤ n - l.l1.toNat
  l3 : l.l3.toNat = n - l.l1.toNat - l.l2.toNat

theorem multiplier_toNat (b : UInt8) : (b.toUInt32 + 1).toUInt64.toNat = b.toNat + 1 := by
  have hb := b.toNat_lt
  rw [UInt32.toNat_toUInt64, UInt32.toNat_add, UInt8.toNat_toUInt32]
  exact Nat.mod_eq_of_lt (by show b.toNat + 1 < 2 ^ 32; omega)

/-- One scaling: a multiplier of at most 256 shortens what it scales. -/
theorem scaled_toNat {m : UInt64} (hm : m.toNat < 2 ^ 31) (b : UInt8) :
    m.toNat * (b.toNat + 1) < 2 ^ 64 ∧
      (m * (b.toUInt32 + 1).toUInt64 / 256).toNat = m.toNat * (b.toNat + 1) / 256 ∧
      m.toNat * (b.toNat + 1) / 256 ≤ m.toNat := by
  have hb := b.toNat_lt
  have hle : m.toNat * (b.toNat + 1) ≤ m.toNat * 256 := Nat.mul_le_mul_left _ (by omega)
  have hlt : m.toNat * (b.toNat + 1) < 2 ^ 64 := by omega
  refine ⟨hlt, ?_, ?_⟩
  · rw [UInt64.toNat_div, UInt64.toNat_mul, multiplier_toNat, Nat.mod_eq_of_lt hlt]
    rfl
  · omega

theorem payload_toNat {n : Nat} (h : n + 2 < 2 ^ 31) : (UInt64.ofNat (n + 2) - 2).toNat = n := by
  have hlen : (UInt64.ofNat (n + 2)).toNat = n + 2 := by
    rw [UInt64.toNat_ofNat', Nat.mod_eq_of_lt (by omega)]
  have htwo : (2 : UInt64).toNat = 2 := rfl
  rw [UInt64.toNat_sub_of_le _ _ (by rw [UInt64.le_iff_toNat_le, hlen, htwo]; omega), hlen, htwo]
  omega

theorem lengths_exact {n : Nat} (h : n + 2 < 2 ^ 31) (b₁ b₂ : UInt8) :
    (lengths (UInt64.ofNat (n + 2)) (b₁.toUInt32 + 1) (b₂.toUInt32 + 1)).Exact n b₁ b₂ := by
  have hm := payload_toNat h
  generalize hl : lengths (UInt64.ofNat (n + 2)) (b₁.toUInt32 + 1) (b₂.toUInt32 + 1) = l
  simp only [lengths] at hl
  generalize UInt64.ofNat (n + 2) - 2 = m at hm hl
  obtain ⟨hproduct₁, hl₁, hle₁⟩ := scaled_toNat (m := m) (by omega) b₁
  generalize m * (b₁.toUInt32 + 1).toUInt64 / 256 = l₁ at hl hl₁
  have hleft : (m - l₁).toNat = n - l₁.toNat := by
    rw [UInt64.toNat_sub_of_le _ _ (by rw [UInt64.le_iff_toNat_le]; omega), hm]
  obtain ⟨hproduct₂, hl₂, hle₂⟩ := scaled_toNat (m := m - l₁) (by omega) b₂
  generalize (m - l₁) * (b₂.toUInt32 + 1).toUInt64 / 256 = l₂ at hl hl₂
  have hrest : (m - l₁ - l₂).toNat = n - l₁.toNat - l₂.toNat := by
    rw [UInt64.toNat_sub_of_le _ _ (by rw [UInt64.le_iff_toNat_le]; omega), hleft]
  rw [hm] at hproduct₁ hl₁ hle₁
  rw [hleft] at hproduct₂ hl₂ hle₂
  subst hl
  exact ⟨hproduct₁, hl₁, hl₁.trans_le hle₁, hproduct₂, hl₂, hl₂.trans_le hle₂, hrest⟩

/-- The lengths add up to the payload. -/
theorem Lengths.Exact.sum {l : Lengths} {n : Nat} {b₁ b₂ : UInt8} (h : l.Exact n b₁ b₂) :
    l.l1.toNat + l.l2.toNat + l.l3.toNat = n := by
  have := h.l1_le
  have := h.l2_le
  have := h.l3
  omega

/-! ### The operands -/

/-- The bytes a library reads of an operand: as many as it is told, from the pointer on. -/
def Operands.a (x : Operands) : List UInt8 := x.a_raw.take x.a_len.toInt.toNat
def Operands.b (x : Operands) : List UInt8 := x.b_raw.take x.b_len.toInt.toNat
def Operands.c (x : Operands) : List UInt8 := x.c_raw.take x.c_len.toInt.toNat

/-- The operands lie end to end in the input, from its third byte to its last. -/
structure Operands.Tile (x : Operands) (l : Lengths) (data : List UInt8) : Prop where
  a : x.a = (data.drop 2).take l.l1.toNat
  b : x.b = (data.drop (2 + l.l1.toNat)).take l.l2.toNat
  c : x.c = (data.drop (2 + l.l1.toNat + l.l2.toNat)).take l.l3.toNat
  inBounds : 2 + l.l1.toNat + l.l2.toNat + l.l3.toNat = data.length
  cover : x.a ++ x.b ++ x.c = data.drop 2

theorem intOf_toInt {len : UInt64} (h : len.toNat < 2 ^ 31) : (intOf len).toInt = len.toNat := by
  have hlow : len.toUInt32.toNat = len.toNat := by
    rw [UInt64.toNat_toUInt32, Nat.mod_eq_of_lt (by omega)]
  show len.toUInt32.toBitVec.toInt = len.toNat
  rw [BitVec.toInt_eq_toNat_of_lt, UInt32.toNat_toBitVec, hlow]
  rw [UInt32.toNat_toBitVec, hlow]
  omega

/-- An operand is as long as its `size_t` length. -/
theorem operand_take (bs : List UInt8) {len : UInt64} (h : len.toNat < 2 ^ 31) :
    bs.take (intOf len).toInt.toNat = bs.take len.toNat := by
  rw [intOf_toInt h, Int.toNat_natCast]

/-- Three slices that follow each other to the end of a list make it up. -/
theorem take_tiles {α : Type} (l : List α) {i j k : Nat} (h : i + j + k = l.length) :
    l.take i ++ (l.drop i).take j ++ (l.drop (i + j)).take k = l := by
  rw [← List.take_add, List.take_of_length_le (l := l.drop (i + j)), List.take_append_drop]
  rw [List.length_drop]
  omega

theorem operands_tile {data : List UInt8} {l : Lengths} {n : Nat} {b₁ b₂ : UInt8}
    (h : l.Exact n b₁ b₂) (hn : n + 2 = data.length) (hlt : data.length < 2 ^ 31) :
    (operands data l).Tile l data := by
  have hsum := h.sum
  have ha : (operands data l).a = (data.drop 2).take l.l1.toNat := operand_take _ (by omega)
  have hb : (operands data l).b = (data.drop (2 + l.l1.toNat)).take l.l2.toNat := operand_take _ (by omega)
  have hc : (operands data l).c = (data.drop (2 + l.l1.toNat + l.l2.toNat)).take l.l3.toNat :=
    operand_take _ (by omega)
  refine ⟨ha, hb, hc, by omega, ?_⟩
  rw [ha, hb, hc, Nat.add_assoc, ← List.drop_drop, ← List.drop_drop]
  apply take_tiles
  rw [List.length_drop]
  omega

/-! ### Every split -/

/-- The header bytes split a payload of `n` bytes into these lengths. -/
def Splits (n : Nat) (b₁ b₂ : UInt8) (t₁ t₂ t₃ : Nat) : Prop :=
  let l := lengths (UInt64.ofNat (n + 2)) (b₁.toUInt32 + 1) (b₂.toUInt32 + 1)
  l.l1.toNat = t₁ ∧ l.l2.toNat = t₂ ∧ l.l3.toNat = t₃

/-- Multipliers of a length under 256 reach every length up to it: two neighbouring
multiples are less than one apart. -/
theorem exists_multiplier {m t : Nat} (hm : m ≤ 255) (ht : t ≤ m) :
    ∃ b : UInt8, m * (b.toNat + 1) / 256 = t := by
  rcases Nat.eq_zero_or_pos t with rfl | hpos
  · exact ⟨0, Nat.div_eq_of_lt (by show m * 1 < 256; omega)⟩
  -- the least multiplier that reaches `t`
  · have hle : (256 * t + (m - 1)) / m < 257 := by
      rw [Nat.div_lt_iff_lt_mul (by omega)]
      omega
    have hmul := Nat.div_add_mod (256 * t + (m - 1)) m
    have hmod := Nat.mod_lt (256 * t + (m - 1)) (by omega : 0 < m)
    have hone : 1 ≤ (256 * t + (m - 1)) / m := by
      rw [Nat.le_div_iff_mul_le (by omega)]
      omega
    generalize (256 * t + (m - 1)) / m = d at hle hmul hone
    refine ⟨UInt8.ofNat (d - 1), ?_⟩
    have hd : (UInt8.ofNat (d - 1)).toNat + 1 = d := by
      rw [UInt8.toNat_ofNat', Nat.mod_eq_of_lt (by omega)]
      omega
    rw [hd]
    omega

theorem splits_of_le {n : Nat} (hn : n ≤ 255) {t₁ t₂ t₃ : Nat} (h : t₁ + t₂ + t₃ = n) :
    ∃ b₁ b₂, Splits n b₁ b₂ t₁ t₂ t₃ := by
  obtain ⟨b₁, h₁⟩ := exists_multiplier hn (by omega : t₁ ≤ n)
  obtain ⟨b₂, h₂⟩ := exists_multiplier (by omega : n - t₁ ≤ 255) (by omega : t₂ ≤ n - t₁)
  have hexact := lengths_exact (n := n) (by omega) b₁ b₂
  have hl₁ := hexact.l1.trans h₁
  have hl₂ := hexact.l2
  rw [hl₁, h₂] at hl₂
  have hl₃ := hexact.l3
  rw [hl₁, hl₂] at hl₃
  exact ⟨b₁, b₂, hl₁, hl₂, by omega⟩

/-- From 256 bytes on the first operand is never empty. -/
theorem not_splits_zero {n : Nat} (hn : 256 ≤ n) (hlt : n + 2 < 2 ^ 31) (b₁ b₂ : UInt8) (t₂ t₃ : Nat) :
    ¬Splits n b₁ b₂ 0 t₂ t₃ := by
  intro h
  have hl₁ := (lengths_exact hlt b₁ b₂).l1
  rw [h.1] at hl₁
  have hmul : n ≤ n * (b₁.toNat + 1) := Nat.le_mul_of_pos_right n (Nat.succ_pos _)
  omega

theorem all_splits_iff {n : Nat} (hlt : n + 2 < 2 ^ 31) :
    (∀ t₁ t₂ t₃, t₁ + t₂ + t₃ = n → ∃ b₁ b₂, Splits n b₁ b₂ t₁ t₂ t₃) ↔ n ≤ 255 := by
  refine ⟨fun h => ?_, fun hn t₁ t₂ t₃ ht => splits_of_le hn ht⟩
  by_contra hn
  obtain ⟨b₁, b₂, hsplit⟩ := h 0 0 n (by omega)
  exact not_splits_zero (by omega) hlt b₁ b₂ 0 n hsplit

/-! ### The target -/

/-- On an input the target accepts, the assertion on the lengths holds and the run goes on
with operands that tile the input. -/
def SplitTiles (o : Openssl) (g : Gcrypt) (data : List UInt8) : Prop :=
  ∃ b₁ b₂, data[0]? = some b₁ ∧ data[1]? = some b₂ ∧
    let l := lengths (UInt64.ofNat data.length) (b₁.toUInt32 + 1) (b₂.toUInt32 + 1)
    l.Exact (data.length - 2) b₁ b₂ ∧ l.l1 + l.l2 + l.l3 = UInt64.ofNat data.length - 2 ∧
      llvmFuzzerTestOneInput o g data = compareResults o g (operands data l) ∧
      (operands data l).Tile l data

theorem splitTiles (o : Openssl) (g : Gcrypt) {data : List UInt8} (hlen : 5 ≤ data.length)
    (hlt : data.length < 2 ^ 31) : SplitTiles o g data := by
  obtain ⟨n, hn⟩ : ∃ n, n + 2 = data.length := ⟨data.length - 2, by omega⟩
  have hfirst := List.getElem?_eq_getElem (by omega : 0 < data.length)
  have hsecond := List.getElem?_eq_getElem (by omega : 1 < data.length)
  refine ⟨data[0], data[1], hfirst, hsecond, ?_⟩
  generalize data[0] = b₁ at hfirst
  generalize data[1] = b₂ at hsecond
  have hexact := lengths_exact (n := n) (by omega) b₁ b₂
  rw [hn] at hexact
  have htwo : data.length - 2 = n := by omega
  rw [htwo]
  exact ⟨hexact, lengths_sum .., llvmFuzzerTestOneInput_operands o g hlen (by omega) hfirst hsecond,
    operands_tile hexact hn hlt⟩

/-- **The operands tile the input**, whatever the header, and the header reaches every
split of the payload exactly if it has at most 255 bytes. -/
theorem split_tiles (o : Openssl) (g : Gcrypt) :
    (∀ data : List UInt8, 5 ≤ data.length → data.length < 2 ^ 31 → SplitTiles o g data) ∧
    ∀ n, 3 ≤ n → n + 2 < 2 ^ 31 →
      ((∀ t₁ t₂ t₃, t₁ + t₂ + t₃ = n → ∃ b₁ b₂, Splits n b₁ b₂ t₁ t₂ t₃) ↔ n ≤ 255) :=
  ⟨fun _ hlen hlt => splitTiles o g hlen hlt, fun _ _ hlt => all_splits_iff hlt⟩

/-- Three bytes are split into one for each operand, or any other way. -/
theorem sample_split :
    SplitTiles sampleOpenssl sampleGcrypt [85, 127, 7, 3, 2] ∧
      ((∀ t₁ t₂ t₃, t₁ + t₂ + t₃ = 3 → ∃ b₁ b₂, Splits 3 b₁ b₂ t₁ t₂ t₃) ↔ 3 ≤ 255) :=
  have h := split_tiles sampleOpenssl sampleGcrypt
  ⟨h.1 _ (by decide) (by decide), h.2 3 (by decide) (by decide)⟩

end FuzzerTestSuite.Modexp
