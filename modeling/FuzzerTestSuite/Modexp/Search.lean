import FuzzerTestSuite.Modexp.Split

/-! What the target can find.

A failure of the assertion shows two libraries that disagree on one modular exponentiation.
Conversely, every disagreement small enough is shown by some input: the header reaches
every split of a payload under 256 bytes, so the three numbers can be laid end to end
behind the two header bytes that cut them apart again (`search_complete`). The libraries
are parameters; beyond how they print, all that is used is that they read an operand
as a big-endian number. -/
namespace FuzzerTestSuite.Modexp
open Library Library.Hexadecimal

/-! ### Numbers as operands -/

/-- OpenSSL reads the bytes it is given as a number, highest byte first. -/
def Openssl.ReadsBytes (o : Openssl) : Prop :=
  ∀ (s : List UInt8) (len : Int32), 0 ≤ len.toInt → len.toInt ≤ s.length →
    o.bnBin2bn s len = beNat (s.take len.toInt.toNat)

/-- So does libgcrypt. -/
def Gcrypt.ReadsBytes (g : Gcrypt) : Prop :=
  ∀ (s : List UInt8) (len : UInt64), len.toNat ≤ s.length → g.gcryMpiScan s len = beNat (s.take len.toNat)

/-- How many bytes a number takes. -/
def byteLength (n : Nat) : Nat := (beBytes n).length

theorem beNat_lt (bs : List UInt8) : beNat bs < 256 ^ bs.length := by
  rw [← List.length_reverse]
  exact Bytes.leNat_lt bs.reverse

/-- No bytes that hold the number are fewer. -/
theorem byteLength_beNat_le (bs : List UInt8) : byteLength (beNat bs) ≤ bs.length := by
  rw [byteLength, beBytes, List.length_reverse, List.length_map, Nat.digits_length_le_iff (by decide)]
  exact beNat_lt bs

theorem byteLength_pos {n : Nat} (h : n ≠ 0) : 0 < byteLength n := by
  rw [byteLength, List.length_pos_iff]
  intro hnil
  have hvalue := beNat_beBytes n
  rw [hnil] at hvalue
  exact h hvalue.symm

/-- A canonical print is a lone zero exactly for zero. -/
theorem canonical_zeroDigit {n : Nat} {s : List UInt8} (h : Canonical n s) : s = [zeroDigit] ↔ n = 0 := by
  constructor
  · intro hs
    exact Canonical.inj (hs ▸ h) (.inl ⟨rfl, rfl⟩)
  · intro hn
    exact Canonical.unique (hn ▸ h) (.inl ⟨rfl, rfl⟩)

/-! ### What a run compares -/

theorem sizeOf_intOf {len : UInt64} (h : len.toNat < 2 ^ 31) : (sizeOf (intOf len)).toNat = len.toNat := by
  have hlow : len.toUInt32.toNat = len.toNat := by
    rw [UInt64.toNat_toUInt32, Nat.mod_eq_of_lt (by omega)]
  have hmsb : len.toUInt32.toBitVec.msb = false := by
    rw [BitVec.msb_eq_false_iff_two_mul_lt, UInt32.toNat_toBitVec, hlow]
    omega
  show (len.toUInt32.toBitVec.signExtend 64).toNat = len.toNat
  rw [BitVec.signExtend_eq_setWidth_of_msb_false hmsb, BitVec.toNat_setWidth, UInt32.toNat_toBitVec, hlow]
  omega

section Runs
variable {o : Openssl} {g : Gcrypt}

/-- Both libraries read the same number from an operand inside its buffer. -/
theorem reads_operand (ho : o.ReadsBytes) (hg : g.ReadsBytes) {bs : List UInt8} {len : UInt64}
    (hlen : len.toNat ≤ bs.length) (hlt : bs.length < 2 ^ 31) :
    o.bnBin2bn bs (intOf len) = beNat (bs.take (intOf len).toInt.toNat) ∧
      g.gcryMpiScan bs (sizeOf (intOf len)) = beNat (bs.take (intOf len).toInt.toNat) := by
  have hint : (intOf len).toInt = len.toNat := intOf_toInt (by omega)
  have hsize := @sizeOf_intOf len (by omega)
  constructor
  · exact ho bs (intOf len) (by omega) (by omega)
  · rw [hg bs (sizeOf (intOf len)) (by omega), hsize, hint, Int.toNat_natCast]

/-- The two libraries' results on the operands, as functions of the numbers they hold. -/
theorem results_of_tile (ho : o.ReadsBytes) (hg : g.ReadsBytes) {data : List UInt8} {l : Lengths}
    (htile : (operands data l).Tile l data) (hlt : data.length < 2 ^ 31) :
    let x := operands data l
    (bntest o x).a = o.bnBn2hex (beNat x.a) ∧ (bntest o x).c = o.bnBn2hex (beNat x.c) ∧
      o.result x = o.bnModExp (beNat x.b) (beNat x.c) (beNat x.a) ∧
      g.result x = g.gcryMpiPowm (beNat x.b) (beNat x.c) (beNat x.a) := by
  intro x
  have hbounds := htile.inBounds
  have hdrop (n : Nat) : (data.drop n).length = data.length - n := List.length_drop
  have ha : o.bnBin2bn x.a_raw x.a_len = beNat x.a ∧ g.gcryMpiScan x.a_raw (sizeOf x.a_len) = beNat x.a :=
    @reads_operand o g ho hg (data.drop 2) _ (by rw [hdrop]; omega) (by rw [hdrop]; omega)
  have hb : o.bnBin2bn x.b_raw x.b_len = beNat x.b ∧ g.gcryMpiScan x.b_raw (sizeOf x.b_len) = beNat x.b :=
    @reads_operand o g ho hg (data.drop (2 + l.l1.toNat)) _ (by rw [hdrop]; omega) (by rw [hdrop]; omega)
  have hc : o.bnBin2bn x.c_raw x.c_len = beNat x.c ∧ g.gcryMpiScan x.c_raw (sizeOf x.c_len) = beNat x.c :=
    @reads_operand o g ho hg (data.drop (2 + l.l1.toNat + l.l2.toNat)) _ (by rw [hdrop]; omega)
      (by rw [hdrop]; omega)
  refine ⟨congrArg o.bnBn2hex ha.1, congrArg o.bnBn2hex hc.1, ?_, ?_⟩
  · rw [Openssl.result, hb.1, hc.1, ha.1]
  · rw [Gcrypt.result, hb.2, hc.2, ha.2]

/-- The assertion on the results fails on the input. -/
def Fails (o : Openssl) (g : Gcrypt) (data : List UInt8) : Prop :=
  ∃ x, llvmFuzzerTestOneInput o g data = some (.compared x false)

/-- The libraries disagree on `b ^ c` modulo `a`, and the target does not skip the operands. -/
def Disagree (o : Openssl) (g : Gcrypt) (a b c : Nat) : Prop :=
  a ≠ 0 ∧ c ≠ 0 ∧ o.bnModExp b c a ≠ g.gcryMpiPowm b c a

/-- The assertion fails exactly if the libraries disagree on the numbers the operands hold. -/
theorem fails_iff (hprint : o.PrintsCanonical) (hprint' : g.PrintsHex) (ho : o.ReadsBytes) (hg : g.ReadsBytes)
    {data : List UInt8} {l : Lengths}
    (hrun : llvmFuzzerTestOneInput o g data = compareResults o g (operands data l))
    (htile : (operands data l).Tile l data) (hlt : data.length < 2 ^ 31) :
    Fails o g data ↔
      Disagree o g (beNat (operands data l).a) (beNat (operands data l).b) (beNat (operands data l).c) := by
  obtain ⟨ha, hc, hres, hres'⟩ := results_of_tile ho hg htile hlt
  have hskip : Skips o (operands data l) ↔ beNat (operands data l).a = 0 ∨ beNat (operands data l).c = 0 := by
    rw [Skips, ha, hc, canonical_zeroDigit (hprint _), canonical_zeroDigit (hprint _)]
  unfold Fails Disagree
  rw [hrun, ← hres, ← hres', ← and_assoc, ← not_or, ← hskip]
  generalize operands data l = x
  by_cases h : Skips o x
  · rw [compareResults_skipped h]
    refine iff_of_false (fun hfail => ?_) (fun hnot => hnot.1 h)
    obtain ⟨_, he⟩ := hfail
    cases he
  · rw [compareResults_compared hprint hprint' h]
    constructor
    · intro hfail
      obtain ⟨y, hy⟩ := hfail
      refine ⟨h, fun hsame => ?_⟩
      rw [decide_eq_true hsame] at hy
      cases hy
    · intro hdiff
      exact ⟨x, by rw [decide_eq_false hdiff.2]⟩

/-- Three operands end to end behind the header that cuts them apart. -/
theorem exists_input (o : Openssl) (g : Gcrypt) {as bs cs : List UInt8}
    (hlow : 3 ≤ as.length + bs.length + cs.length) (hhigh : as.length + bs.length + cs.length ≤ 255) :
    ∃ data l, data.length = as.length + bs.length + cs.length + 2 ∧
      llvmFuzzerTestOneInput o g data = compareResults o g (operands data l) ∧
      (operands data l).Tile l data ∧
      (operands data l).a = as ∧ (operands data l).b = bs ∧ (operands data l).c = cs := by
  obtain ⟨b₁, b₂, hsplit⟩ := splits_of_le hhigh rfl
  have hlen : (b₁ :: b₂ :: (as ++ (bs ++ cs))).length = as.length + bs.length + cs.length + 2 := by
    simp only [List.length_cons, List.length_append]
    omega
  obtain ⟨c₁, c₂, hfirst, hsecond, -, -, hrun, htile⟩ :=
    @splitTiles o g (b₁ :: b₂ :: (as ++ (bs ++ cs))) (by omega) (by omega)
  obtain rfl : b₁ = c₁ := Option.some.inj hfirst
  obtain rfl : b₂ = c₂ := Option.some.inj hsecond
  rw [Splits, ← hlen] at hsplit
  generalize hdata : b₁ :: b₂ :: (as ++ (bs ++ cs)) = data at hlen hrun htile hsplit
  generalize lengths (UInt64.ofNat data.length) (b₁.toUInt32 + 1) (b₂.toUInt32 + 1) = l at hrun htile hsplit
  obtain ⟨hl₁, hl₂, hl₃⟩ := hsplit
  have htail : data.drop 2 = as ++ (bs ++ cs) := by
    rw [← hdata]
    rfl
  refine ⟨data, l, hlen, hrun, htile, ?_, ?_, ?_⟩
  · rw [htile.a, hl₁, htail, List.take_left' rfl]
  · rw [htile.b, hl₁, hl₂, ← List.drop_drop, htail, List.drop_left' rfl, List.take_left' rfl]
  · rw [htile.c, hl₁, hl₂, hl₃, ← List.drop_drop, ← List.drop_drop, htail, List.drop_left' rfl,
      List.drop_left' rfl, List.take_of_length_le (Nat.le_refl _)]

/-- **An input of at most 257 bytes makes the assertion fail exactly if the libraries disagree on
numbers of at most 255 bytes together.** -/
theorem search_complete (hprint : o.PrintsCanonical) (hprint' : g.PrintsHex) (ho : o.ReadsBytes)
    (hg : g.ReadsBytes) :
    (∃ data : List UInt8, data.length ≤ 257 ∧ Fails o g data) ↔
      ∃ a b c, byteLength a + byteLength b + byteLength c ≤ 255 ∧ Disagree o g a b c := by
  constructor
  · intro h
    obtain ⟨data, hlen, hfail⟩ := h
    have hlong : 5 ≤ data.length := by
      by_contra hshort
      obtain ⟨x, hx⟩ := hfail
      rw [llvmFuzzerTestOneInput_short o g (Nat.not_le.mp hshort)] at hx
      cases hx
    obtain ⟨b₁, b₂, -, -, -, -, hrun, htile⟩ := splitTiles o g hlong (by omega)
    generalize lengths (UInt64.ofNat data.length) (b₁.toUInt32 + 1) (b₂.toUInt32 + 1) = l at hrun htile
    refine ⟨_, _, _, ?_, (fails_iff hprint hprint' ho hg hrun htile (by omega)).mp hfail⟩
    have hcover := congrArg List.length htile.cover
    rw [List.length_append, List.length_append, List.length_drop] at hcover
    have ha := byteLength_beNat_le (operands data l).a
    have hb := byteLength_beNat_le (operands data l).b
    have hc := byteLength_beNat_le (operands data l).c
    omega
  · intro h
    obtain ⟨a, b, c, hlen, hdis⟩ := h
    have ha := byteLength_pos hdis.1
    have hc := byteLength_pos hdis.2.1
    -- a number of too few bytes is written with zeros in front
    let as := List.replicate (3 - (byteLength a + byteLength b + byteLength c)) 0 ++ beBytes a
    have has : as.length = 3 - (byteLength a + byteLength b + byteLength c) + byteLength a := by
      rw [List.length_append, List.length_replicate, byteLength]
    have hb' : (beBytes b).length = byteLength b := rfl
    have hc' : (beBytes c).length = byteLength c := rfl
    obtain ⟨data, l, hdata, hrun, htile, hopA, hopB, hopC⟩ :=
      @exists_input o g as (beBytes b) (beBytes c) (by omega) (by omega)
    refine ⟨data, by omega, (fails_iff hprint hprint' ho hg hrun htile (by omega)).mpr ?_⟩
    rw [hopA, hopB, hopC, beNat_zeros, beNat_beBytes, beNat_beBytes, beNat_beBytes]
    exact hdis

end Runs

/-- A library that makes one of everything modulo one. -/
def moduloOneGcrypt : Gcrypt where
  gcryMpiScan := sampleGcrypt.gcryMpiScan
  gcryMpiPowm b e m := if m = 1 then 1 else b ^ e % m
  gcryMpiAprint := sampleGcrypt.gcryMpiAprint

theorem moduloOne_found : ∃ data : List UInt8, data.length ≤ 257 ∧ Fails sampleOpenssl moduloOneGcrypt data := by
  have hdis : Disagree sampleOpenssl moduloOneGcrypt 1 0 1 := ⟨by decide, by decide, by decide⟩
  have hone : byteLength 1 ≤ 1 := byteLength_beNat_le [1]
  have hzero : byteLength 0 ≤ 0 := byteLength_beNat_le []
  exact (search_complete (o := sampleOpenssl) (g := moduloOneGcrypt) canonical_canonicalHex
    sampleGcrypt_printsHex (fun _ _ _ _ => rfl) (fun _ _ _ => rfl)).mpr ⟨1, 0, 1, by omega, hdis⟩

end FuzzerTestSuite.Modexp
