import FuzzerTestSuite.Modexp.GcryToString

/-! The fuzz target that compares two libraries' modular exponentiation.

It splits its input into three operands, has each library raise the second to the
third modulo the first, and asserts that the printed results agree. Both libraries
are parameters, restricted only in how they print. From five bytes on the target compares
their results on the operands cut out of the input, unless OpenSSL prints the first or the last
as zero, and the assertion fails exactly if the libraries computed different numbers
(`oracle_exact`): after `gcrytostring` equal strings mean equal numbers. -/
namespace FuzzerTestSuite.Modexp
open Library Library.Hexadecimal Library.WhileLoop

/-! ### The libraries -/

/-- OpenSSL's big numbers. The bytes of an operand are those at a pointer, with a length. -/
structure Openssl where
  bnBin2bn : List UInt8 → Int32 → Nat
  /-- `BN_mod_exp(r, a, p, m, ctx)` -/
  bnModExp : Nat → Nat → Nat → Nat
  bnBn2hex : Nat → List UInt8

/-- libgcrypt's. A print is a buffer and the size it is reported with. -/
structure Gcrypt where
  gcryMpiScan : List UInt8 → UInt64 → Nat
  /-- `gcry_mpi_powm(w, b, e, m)` -/
  gcryMpiPowm : Nat → Nat → Nat → Nat
  gcryMpiAprint : Nat → List UInt8 × Nat

/-- OpenSSL prints a number canonically. -/
def Openssl.PrintsCanonical (o : Openssl) : Prop := ∀ n, Canonical n (o.bnBn2hex n)

/-- libgcrypt prints a number with any number of zero pairs in front, and counts the NUL. -/
def Gcrypt.PrintsHex (g : Gcrypt) : Prop :=
  ∀ n, ∃ s, Prints n s ∧ g.gcryMpiAprint n = (s ++ [0], s.length + 1)

/-! ### The tests -/

/-- The strings of `struct big_results`. -/
structure BigResults where
  a : List UInt8
  b : List UInt8
  c : List UInt8
  exptmod : List UInt8
deriving DecidableEq, Repr

/-- The arguments both tests are called with. -/
structure Operands where
  a_raw : List UInt8
  a_len : Int32
  b_raw : List UInt8
  b_len : Int32
  c_raw : List UInt8
  c_len : Int32
deriving DecidableEq

def Gcrypt.toString (g : Gcrypt) (n : Nat) : Option (List UInt8) := do
  let (a, i) := g.gcryMpiAprint n
  let b ← gcrytostring a i
  some b.str

/-- An `int` passed as `size_t`. -/
def sizeOf (len : Int32) : UInt64 := len.toInt64.toUInt64

def gcrytest (g : Gcrypt) (x : Operands) : Option BigResults := do
  let a := g.gcryMpiScan x.a_raw (sizeOf x.a_len)
  let resA ← g.toString a
  let b := g.gcryMpiScan x.b_raw (sizeOf x.b_len)
  let resB ← g.toString b
  let c := g.gcryMpiScan x.c_raw (sizeOf x.c_len)
  let resC ← g.toString c
  let res1 := g.gcryMpiPowm b c a
  let exptmod ← g.toString res1
  some ⟨resA, resB, resC, exptmod⟩

def bntest (o : Openssl) (x : Operands) : BigResults :=
  let a := o.bnBin2bn x.a_raw x.a_len
  let b := o.bnBin2bn x.b_raw x.b_len
  let c := o.bnBin2bn x.c_raw x.c_len
  let res1 := o.bnModExp b c a
  ⟨o.bnBn2hex a, o.bnBn2hex b, o.bnBn2hex c, o.bnBn2hex res1⟩

/-! ### The target -/

/-- `l1`, `l2` and `l3`, in `size_t` arithmetic. -/
structure Lengths where
  l1 : UInt64
  l2 : UInt64
  l3 : UInt64
deriving DecidableEq

def lengths (len : UInt64) (divi1 divi2 : UInt32) : Lengths :=
  let l1 := (len - 2) * divi1.toUInt64 / 256
  let l2 := (len - 2 - l1) * divi2.toUInt64 / 256
  ⟨l1, l2, len - 2 - l1 - l2⟩

/-- A `size_t` passed as `int`. -/
def intOf (len : UInt64) : Int32 := len.toUInt32.toInt32

def operands (data : List UInt8) (l : Lengths) : Operands where
  a_raw := data.drop 2
  a_len := intOf l.l1
  b_raw := data.drop (2 + l.l1.toNat)
  b_len := intOf l.l2
  c_raw := data.drop (2 + l.l1.toNat + l.l2.toNat)
  c_len := intOf l.l3

/-- How a run ends. `splitFailed` is the first assertion; `compared` is the second, which
fails unless the strings are equal. -/
inductive Outcome where
  | tooShort
  | splitFailed
  | skipped (x : Operands)
  | compared (x : Operands) (equal : Bool)
deriving DecidableEq

/-- From the split on: both tests and the comparison. -/
def compareResults (o : Openssl) (g : Gcrypt) (x : Operands) : Option Outcome :=
  let openssl := bntest o x
  if openssl.a = [zeroDigit] ∨ openssl.c = [zeroDigit] then some (.skipped x)
  else do
    let gcrypt ← gcrytest g x
    some (.compared x (openssl.exptmod = gcrypt.exptmod))

def llvmFuzzerTestOneInput (o : Openssl) (g : Gcrypt) (data : List UInt8) : Option Outcome :=
  let len := UInt64.ofNat data.length
  if len < 5 then some .tooShort
  else do
    let divi1 ← data[0]?
    let divi2 ← data[1]?
    let l := lengths len (divi1.toUInt32 + 1) (divi2.toUInt32 + 1)
    if l.l1 + l.l2 + l.l3 ≠ len - 2 then some .splitFailed
    else compareResults o g (operands data l)

/-! ### The oracle -/

/-- The number OpenSSL computes. -/
def Openssl.result (o : Openssl) (x : Operands) : Nat :=
  o.bnModExp (o.bnBin2bn x.b_raw x.b_len) (o.bnBin2bn x.c_raw x.c_len) (o.bnBin2bn x.a_raw x.a_len)

/-- The number libgcrypt computes. -/
def Gcrypt.result (g : Gcrypt) (x : Operands) : Nat :=
  g.gcryMpiPowm (g.gcryMpiScan x.b_raw (sizeOf x.b_len)) (g.gcryMpiScan x.c_raw (sizeOf x.c_len))
    (g.gcryMpiScan x.a_raw (sizeOf x.a_len))

section Oracle
variable {o : Openssl} {g : Gcrypt}

theorem Gcrypt.toString_canonical (hg : g.PrintsHex) (n : Nat) :
    ∃ t, g.toString n = some t ∧ Canonical n t := by
  obtain ⟨s, hs, hprint⟩ := hg n
  refine ⟨canonicalHex n, ?_, canonical_canonicalHex n⟩
  simp only [Gcrypt.toString, hprint, gcrytostring_prints hs (canonical_canonicalHex n),
    Option.bind_eq_bind, Option.bind_some]

/-- Every string of libgcrypt's is there, and the result's is the canonical one. -/
theorem gcrytest_result (hg : g.PrintsHex) (x : Operands) :
    ∃ res, gcrytest g x = some res ∧ Canonical (g.result x) res.exptmod := by
  obtain ⟨ta, ha, -⟩ := Gcrypt.toString_canonical hg (g.gcryMpiScan x.a_raw (sizeOf x.a_len))
  obtain ⟨tb, hb, -⟩ := Gcrypt.toString_canonical hg (g.gcryMpiScan x.b_raw (sizeOf x.b_len))
  obtain ⟨tc, hc, -⟩ := Gcrypt.toString_canonical hg (g.gcryMpiScan x.c_raw (sizeOf x.c_len))
  obtain ⟨t, ht, hcanon⟩ := Gcrypt.toString_canonical hg (g.result x)
  rw [Gcrypt.result] at ht
  refine ⟨⟨ta, tb, tc, t⟩, ?_, hcanon⟩
  simp only [gcrytest, ha, hb, hc, ht, Option.bind_eq_bind, Option.bind_some]

/-- Canonical strings are equal exactly if the numbers are. -/
theorem canonical_eq_iff {n m : Nat} {s t : List UInt8} (hs : Canonical n s) (ht : Canonical m t) :
    s = t ↔ n = m := by
  constructor
  · intro he
    rw [← he] at ht
    exact hs.inj ht
  · intro he
    rw [← he] at ht
    exact hs.unique ht

/-- OpenSSL prints the modulus or the exponent as zero, where the target stops. -/
def Skips (o : Openssl) (x : Operands) : Prop :=
  (bntest o x).a = [zeroDigit] ∨ (bntest o x).c = [zeroDigit]

theorem compareResults_skipped {x : Operands} (h : Skips o x) :
    compareResults o g x = some (.skipped x) := if_pos h

/-- A comparison is of the libraries' numbers. -/
theorem compareResults_compared (ho : o.PrintsCanonical) (hg : g.PrintsHex) {x : Operands}
    (h : ¬Skips o x) : compareResults o g x = some (.compared x (o.result x = g.result x)) := by
  obtain ⟨res, hres, hcanon⟩ := gcrytest_result hg x
  have heq : (bntest o x).exptmod = res.exptmod ↔ o.result x = g.result x :=
    canonical_eq_iff (ho (o.result x)) hcanon
  rw [Skips] at h
  simp only [compareResults, if_neg h, hres, Option.bind_eq_bind, Option.bind_some, heq]

theorem short_iff {n : Nat} (h : n < 2 ^ 64) : UInt64.ofNat n < 5 ↔ n < 5 := by
  rw [UInt64.lt_iff_toNat_lt, UInt64.toNat_ofNat', Nat.mod_eq_of_lt h]
  rfl

/-- The first assertion holds by the arithmetic of `size_t`. -/
theorem lengths_sum (len : UInt64) (divi1 divi2 : UInt32) :
    (lengths len divi1 divi2).l1 + (lengths len divi1 divi2).l2 + (lengths len divi1 divi2).l3 = len - 2 := by
  simp only [lengths]
  grind

theorem llvmFuzzerTestOneInput_short (o : Openssl) (g : Gcrypt) {data : List UInt8} (h : data.length < 5) :
    llvmFuzzerTestOneInput o g data = some .tooShort := if_pos ((short_iff (by omega)).mpr h)

/-- From five bytes on the run goes on with the operands that the first two cut out. -/
theorem llvmFuzzerTestOneInput_operands (o : Openssl) (g : Gcrypt) {data : List UInt8} {b₁ b₂ : UInt8}
    (hlen : 5 ≤ data.length) (hlt : data.length < 2 ^ 64) (hfirst : data[0]? = some b₁)
    (hsecond : data[1]? = some b₂) :
    llvmFuzzerTestOneInput o g data =
      compareResults o g
        (operands data (lengths (UInt64.ofNat data.length) (b₁.toUInt32 + 1) (b₂.toUInt32 + 1))) := by
  have hshort : ¬UInt64.ofNat data.length < 5 := mt (short_iff hlt).mp (Nat.not_lt.mpr hlen)
  simp only [llvmFuzzerTestOneInput, if_neg hshort, hfirst, hsecond, Option.bind_eq_bind,
    Option.bind_some, lengths_sum, ne_eq, not_true_eq_false, if_false]

/-- **The oracle is exact.** Of every print libgcrypt may give, `gcrytostring` makes the
string OpenSSL prints for the number, in a buffer of its size, without looking past the
last digit. On an input of five bytes or more, cut into operands by its first two, the target
stops if OpenSSL prints the first or the last operand as zero; otherwise it compares, and the
assertion fails exactly if the libraries' results on these operands differ. -/
theorem oracle_exact (ho : o.PrintsCanonical) (hg : g.PrintsHex) :
    (∀ n s, Prints n s →
      gcrytostring (s ++ [0]) (s.length + 1) = some ⟨(o.bnBn2hex n).length + 1, o.bnBn2hex n⟩ ∧
      ∀ j, Visits (scanPass (s ++ [0]) (s.length + 1)) 0 j → j < s.length) ∧
    (∀ data : List UInt8, data.length < 5 → llvmFuzzerTestOneInput o g data = some .tooShort) ∧
    ∀ (data : List UInt8) b₁ b₂, 5 ≤ data.length → data.length < 2 ^ 64 →
      data[0]? = some b₁ → data[1]? = some b₂ →
      let x := operands data (lengths (UInt64.ofNat data.length) (b₁.toUInt32 + 1) (b₂.toUInt32 + 1))
      (Skips o x → llvmFuzzerTestOneInput o g data = some (.skipped x)) ∧
        (¬Skips o x → ∃ equal, llvmFuzzerTestOneInput o g data = some (.compared x equal) ∧
          (equal = false ↔ o.result x ≠ g.result x)) := by
  refine ⟨?_, fun data hlen => llvmFuzzerTestOneInput_short o g hlen, ?_⟩
  · intro n s hs
    refine ⟨gcrytostring_prints hs (ho n), fun j hj => ?_⟩
    have hlen : 2 ≤ s.length := by
      obtain ⟨bs, hne, -, rfl⟩ := hs
      have := List.length_pos_of_ne_nil hne
      rw [hex_length]
      omega
    have := scan_index (by omega) hj
    omega
  · intro data b₁ b₂ hlen hlt hfirst hsecond x
    rw [llvmFuzzerTestOneInput_operands o g hlen hlt hfirst hsecond]
    refine ⟨compareResults_skipped, fun hcompare => ⟨_, compareResults_compared ho hg hcompare, ?_⟩⟩
    rw [decide_eq_false_iff_not]

end Oracle

/-! ### Sample libraries -/

/-- Both compute with the numbers their operands' bytes hold. -/
def sampleOpenssl : Openssl where
  bnBin2bn s len := beNat (s.take len.toInt.toNat)
  bnModExp a p m := a ^ p % m
  bnBn2hex := canonicalHex

/-- A zero byte goes before a first byte with its top bit set, and stands alone for zero. -/
def padded (n : Nat) : List UInt8 :=
  match beBytes n with
  | [] => [0]
  | b :: bs => if 128 ≤ b then 0 :: b :: bs else b :: bs

def sampleGcrypt : Gcrypt where
  gcryMpiScan s len := beNat (s.take len.toNat)
  gcryMpiPowm b e m := b ^ e % m
  gcryMpiAprint n := (hex (padded n) ++ [0], (hex (padded n)).length + 1)

theorem sampleGcrypt_printsHex : sampleGcrypt.PrintsHex := by
  intro n
  refine ⟨hex (padded n), ⟨padded n, ?_, ?_, rfl⟩, rfl⟩
  · unfold padded
    split
    · exact List.cons_ne_nil _ _
    · split <;> exact List.cons_ne_nil _ _
  · have hvalue := beNat_beBytes n
    unfold padded
    split
    · rename_i hbytes
      rw [hbytes] at hvalue
      exact hvalue
    · rename_i b bs hbytes
      rw [hbytes] at hvalue
      split
      · rw [beNat_zero_cons]
        exact hvalue
      · exact hvalue

/-- 3 ^ 2 modulo 7, by both. -/
theorem sample_oracle :
    ¬Skips sampleOpenssl ⟨[7, 3, 2], 1, [3, 2], 1, [2], 1⟩ ∧
      ∃ equal, llvmFuzzerTestOneInput sampleOpenssl sampleGcrypt [85, 127, 7, 3, 2] =
          some (.compared ⟨[7, 3, 2], 1, [3, 2], 1, [2], 1⟩ equal) ∧
        (equal = false ↔ sampleOpenssl.result ⟨[7, 3, 2], 1, [3, 2], 1, [2], 1⟩ ≠
          sampleGcrypt.result ⟨[7, 3, 2], 1, [3, 2], 1, [2], 1⟩) := by
  have hskips : ¬Skips sampleOpenssl ⟨[7, 3, 2], 1, [3, 2], 1, [2], 1⟩ := by
    unfold Skips
    decide +kernel
  obtain ⟨-, -, hruns⟩ :=
    oracle_exact (o := sampleOpenssl) canonical_canonicalHex sampleGcrypt_printsHex
  exact ⟨hskips, (hruns [85, 127, 7, 3, 2] 85 127 (by decide) (by decide) rfl rfl).2 hskips⟩

end FuzzerTestSuite.Modexp
