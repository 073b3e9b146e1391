import FuzzerTestSuite.Library.Bytes
import FuzzerTestSuite.Library.WhileLoop

/-! zlib as `PngMutator` calls it, and the retry loops around it.

zlib is outside the repository: `Zlib` is whatever is linked, restricted only in
that a call writes inside the buffer it is given. What a theorem relies on beyond
that is said by `Encodes`, `Decodes` and `RefusesEmpty`.

`Compress` and `Uncompress` are one loop (`retry`) that doubles the destination
until zlib stops answering `Z_BUF_ERROR` or the size reaches `kMaxBuffer`. From a
positive size it always ends; from size zero doubling changes nothing, and it
ends only if the first call does not answer `Z_BUF_ERROR` (`retry_isSome_iff`). -/
namespace FuzzerTestSuite.Png
open Library Library.Bytes Library.WhileLoop

/-- `std::vector<uint8_t>`. -/
abbrev V := List UInt8

/-! ### The library's interface -/

/-- The return codes the harness tells apart: `Z_OK`, `Z_BUF_ERROR`, any other. -/
inductive ZCode where
  | ok | bufError | error
deriving DecidableEq, Repr

/-- What a call leaves: its return code, the destination, and the length it reports. -/
structure ZOutcome where
  res : ZCode
  dest : V
  len : Nat

/-- A call with its source fixed, as a function of the destination. -/
structure ZCall where
  run : V → ZOutcome
  size : ∀ dest, (run dest).dest.length = dest.length
  fits : ∀ dest, (run dest).res = .ok → (run dest).len ≤ dest.length

structure Zlib where
  compress : V → ZCall
  uncompress : V → ZCall
  crc32 : UInt32 → V → UInt32

/-- The call's whole result is `out`: it succeeds on every destination that holds
it, and answers `Z_BUF_ERROR` on every other with any room. How it fails on an empty
one, which for a vector is a null pointer, is left open. -/
structure ZCall.Yields (c : ZCall) (out : V) : Prop where
  ok : ∀ dest, out.length ≤ dest.length →
    (c.run dest).res = .ok ∧ (c.run dest).len = out.length ∧ (c.run dest).dest.take out.length = out
  short : ∀ dest, dest ≠ [] → dest.length < out.length → (c.run dest).res = .bufError
  empty : out ≠ [] → (c.run []).res ≠ .ok

section Yields
variable {c : ZCall} {out : V}

/-- A call with a whole result gives nothing else. -/
theorem ZCall.Yields.of_ok (hc : c.Yields out) {dest : V} (h : (c.run dest).res = .ok) :
    (c.run dest).dest.take (c.run dest).len = out := by
  by_cases hfit : out.length ≤ dest.length
  · obtain ⟨-, hlen, hout⟩ := hc.ok dest hfit
    rw [hlen, hout]
  · by_cases hdest : dest = []
    · rw [hdest] at h hfit
      exact absurd h (hc.empty (List.ne_nil_of_length_pos (Nat.not_le.mp hfit)))
    · rw [hc.short dest hdest (by omega)] at h
      cases h

theorem ZCall.Yields.bufError_iff (hc : c.Yields out) {dest : V} (hdest : dest ≠ []) :
    (c.run dest).res = .bufError ↔ dest.length < out.length := by
  refine ⟨fun h => ?_, hc.short dest hdest⟩
  by_contra hfit
  rw [(hc.ok dest (by omega)).1] at h
  cases h

theorem ZCall.Yields.not_error (hc : c.Yields out) {dest : V} (hdest : dest ≠ []) :
    (c.run dest).res ≠ .error := by
  intro h
  by_cases hfit : out.length ≤ dest.length
  · rw [(hc.ok dest hfit).1] at h
    cases h
  · rw [hc.short dest hdest (by omega)] at h
    cases h

end Yields

/-- `deflate v` is the encoding of `v`: what `compress` writes and `uncompress` undoes. -/
structure Encodes (z : Zlib) (deflate : V → V) : Prop where
  compress : ∀ v, (z.compress v).Yields (deflate v)
  uncompress : ∀ v, (z.uncompress (deflate v)).Yields v
  /-- A zlib stream has a header and a checksum. -/
  ne_nil : ∀ v, deflate v ≠ []

/-- `inflate c` is the content of `c`, if `c` is a zlib stream: what `uncompress`
writes, and no success otherwise. -/
structure Decodes (z : Zlib) (inflate : V → Option V) : Prop where
  stream : ∀ c d, inflate c = some d → (z.uncompress c).Yields d
  other : ∀ c, inflate c = none → ∀ dest, ((z.uncompress c).run dest).res ≠ .ok

/-- zlib asks for no more room where there are no bytes and no room: it answers
`Z_STREAM_ERROR` to the null destination, and `Z_DATA_ERROR` to the incomplete stream. -/
structure RefusesEmpty (z : Zlib) : Prop where
  compress : ((z.compress []).run []).res ≠ .bufError
  uncompress : ((z.uncompress []).run []).res ≠ .bufError

/-! ### The retry loops -/

def kMaxBuffer : Nat := 2 ^ 28

/-- One pass: `sz` is the size to try, `v` the vector the call fills. -/
def retryPass (c : ZCall) : Nat × V → Option (Pass (Nat × V) V)
  | (sz, v) =>
    if sz < kMaxBuffer then
      let v := resize v sz
      let out := c.run v
      match out.res with
      | .bufError => some (.again (sz * 2, out.dest))
      | .error => some (.done [])
      | .ok => some (.done (resize out.dest out.len))
    else some (.done v)

/-- Passes enough to double any positive size past `kMaxBuffer`. -/
def retryPasses : Nat := 29

/-- `for (size_t sz = start; sz < kMaxBuffer; sz *= 2)`; `none` if it goes on for ever
(`retry_eq_some_iff`). Sizes of vectors that exist are too small to wrap. -/
def retry (c : ZCall) (start : Nat) : Option V := run (retryPass c) retryPasses (start, [])

def uncompress (z : Zlib) (compressed : V) : Option V :=
  retry (z.uncompress compressed) (compressed.length * 4)

def compress (z : Zlib) (uncompressed : V) : Option V :=
  retry (z.compress uncompressed) uncompressed.length

theorem resize_ne_nil (v : V) {sz : Nat} (h : sz ≠ 0) : resize v sz ≠ [] := by
  apply List.ne_nil_of_length_pos
  rw [resize_length]
  omega

section Retry
variable {c : ZCall}

theorem retryPass_limit {sz : Nat} (h : kMaxBuffer ≤ sz) (v : V) :
    retryPass c (sz, v) = some (.done v) := by
  rw [retryPass, if_neg (by omega)]

theorem retryPass_bufError {sz : Nat} (h : sz < kMaxBuffer) {v : V}
    (hres : (c.run (resize v sz)).res = .bufError) :
    retryPass c (sz, v) = some (.again (sz * 2, (c.run (resize v sz)).dest)) := by
  simp only [retryPass, if_pos h, hres]

theorem retryPass_error {sz : Nat} (h : sz < kMaxBuffer) {v : V}
    (hres : (c.run (resize v sz)).res = .error) : retryPass c (sz, v) = some (.done []) := by
  simp only [retryPass, if_pos h, hres]

theorem retryPass_ok {sz : Nat} (h : sz < kMaxBuffer) {v : V}
    (hres : (c.run (resize v sz)).res = .ok) :
    retryPass c (sz, v) =
      some (.done ((c.run (resize v sz)).dest.take (c.run (resize v sz)).len)) := by
  have hfits := c.fits _ hres
  simp only [retryPass, if_pos h, hres]
  rw [resize_le (by rw [c.size]; exact hfits)]

/-- A size that `n` doublings bring to the limit leaves the loop within `n + 1` passes. -/
theorem retry_passes (n : Nat) {sz : Nat} (h : kMaxBuffer ≤ sz * 2 ^ n) (v : V) :
    (run (retryPass c) (n + 1) (sz, v)).isSome := by
  induction n generalizing sz v with
  | zero =>
    rw [Nat.pow_zero, Nat.mul_one] at h
    rw [run_done (retryPass_limit h v)]
    rfl
  | succ n ih =>
    by_cases hlt : sz < kMaxBuffer
    · cases hres : (c.run (resize v sz)).res with
      | bufError =>
        rw [run_again (retryPass_bufError hlt hres)]
        apply ih
        rw [Nat.mul_assoc, ← Nat.pow_succ']
        exact h
      | error =>
        rw [run_done (retryPass_error hlt hres)]
        rfl
      | ok =>
        rw [run_done (retryPass_ok hlt hres)]
        rfl
    · rw [run_done (retryPass_limit (by omega) v)]
      rfl

theorem retry_pos {start : Nat} (h : 0 < start) : (retry c start).isSome := by
  apply retry_passes 28
  unfold kMaxBuffer
  omega

/-- From size zero, a first `Z_BUF_ERROR` leads back to size zero. -/
theorem retry_zero_never (h : (c.run []).res = .bufError) (n : Nat) :
    run (retryPass c) n (0, []) = none := by
  refine run_never (fun s => s = (0, [])) ?_ n rfl
  intro s hs
  subst hs
  have hdest : (c.run []).dest = [] := List.eq_nil_of_length_eq_zero (c.size [])
  exact ⟨_, retryPass_bufError (v := []) (by decide) h, Prod.ext rfl hdest⟩

/-- From size zero, any other first answer ends the loop with nothing. -/
theorem retry_zero (h : (c.run []).res ≠ .bufError) : retry c 0 = some [] := by
  cases hres : (c.run []).res with
  | bufError => exact absurd hres h
  | error => exact run_done (retryPass_error (v := []) (by decide) hres) _
  | ok =>
    have hlen : (c.run []).len = 0 := Nat.le_zero.mp (c.fits [] hres)
    have hpass : retryPass c (0, []) = some (.done ((c.run []).dest.take (c.run []).len)) :=
      retryPass_ok (by decide) hres
    rw [hlen, List.take_zero] at hpass
    exact run_done hpass _

/-- The loop ends from a positive size, and from zero unless the first call asks for more. -/
def RetryEnds (c : ZCall) (start : Nat) : Prop := 0 < start ∨ (c.run []).res ≠ .bufError

theorem retry_isSome_iff (start : Nat) : (retry c start).isSome ↔ RetryEnds c start := by
  constructor
  · intro h
    by_cases hs : 0 < start
    · exact .inl hs
    · right
      intro hbuf
      obtain rfl : start = 0 := by omega
      rw [retry, retry_zero_never hbuf] at h
      cases h
  · intro h
    rcases h with hpos | hne
    · exact retry_pos hpos
    · by_cases hs : 0 < start
      · exact retry_pos hs
      · obtain rfl : start = 0 := by omega
        rw [retry_zero hne]
        rfl

/-- `retry` is the unbounded loop: its passes are enough whenever any number is. -/
theorem retry_eq_some_iff {start : Nat} {r : V} :
    retry c start = some r ↔ ∃ n, run (retryPass c) n (start, []) = some r := by
  refine ⟨fun h => ⟨_, h⟩, fun ⟨n, hn⟩ => ?_⟩
  have hends : RetryEnds c start := by
    by_contra hnot
    rw [RetryEnds, not_or, not_not] at hnot
    obtain rfl : start = 0 := by omega
    rw [retry_zero_never hnot.2] at hn
    cases hn
  obtain ⟨r', hr'⟩ := Option.isSome_iff_exists.mp ((retry_isSome_iff start).mpr hends)
  rw [hr', run_unique hr' hn]

/-- What every `Z_BUF_ERROR` preserves, and each of the three exits turns into `Q`, the
result has. -/
theorem retry_invariant (I : Nat → V → Prop) (Q : V → Prop)
    (hbuf : ∀ sz v, I sz v → sz < kMaxBuffer → (c.run (resize v sz)).res = .bufError →
      I (sz * 2) (c.run (resize v sz)).dest)
    (herror : ∀ sz v, I sz v → sz < kMaxBuffer → (c.run (resize v sz)).res = .error → Q [])
    (hok : ∀ sz v, I sz v → sz < kMaxBuffer → (c.run (resize v sz)).res = .ok →
      Q ((c.run (resize v sz)).dest.take (c.run (resize v sz)).len))
    (hlimit : ∀ sz v, I sz v → kMaxBuffer ≤ sz → Q v)
    {start : Nat} {r : V} (hstart : I start []) (h : retry c start = some r) : Q r := by
  refine run_invariant (fun s => I s.1 s.2) Q ?_ ?_ hstart h
  all_goals
    intro s t hs hpass
    obtain ⟨sz, v⟩ := s
    by_cases hlt : sz < kMaxBuffer
    · cases hres : (c.run (resize v sz)).res with
      | bufError =>
        rw [retryPass_bufError hlt hres] at hpass
        cases hpass
        all_goals exact hbuf sz v hs hlt hres
      | error =>
        rw [retryPass_error hlt hres] at hpass
        cases hpass
        all_goals exact herror sz v hs hlt hres
      | ok =>
        rw [retryPass_ok hlt hres] at hpass
        cases hpass
        all_goals exact hok sz v hs hlt hres
    · rw [retryPass_limit (Nat.not_lt.mp hlt)] at hpass
      cases hpass
      all_goals exact hlimit sz _ hs (Nat.not_lt.mp hlt)

theorem retry_dest_length (v : V) (sz : Nat) : (c.run (resize v sz)).dest.length = sz := by
  rw [c.size, resize_length]

/-- Whatever the loop returns is shorter than the limit. -/
theorem retry_length {start : Nat} {r : V} (h : retry c start = some r) : r.length < kMaxBuffer := by
  refine retry_invariant (fun _ v => v.length < kMaxBuffer) (fun r => r.length < kMaxBuffer)
    ?_ ?_ ?_ ?_ (Nat.two_pow_pos 28) h
  · intro sz v _ hlt _
    rwa [retry_dest_length]
  · intro sz v _ _ _
    exact Nat.two_pow_pos 28
  · intro sz v _ hlt _
    exact Nat.lt_of_le_of_lt (List.length_take_le' ..) (lt_of_eq_of_lt (retry_dest_length v sz) hlt)
  · intro sz v hv _
    exact hv

/-- A whole result that some doubling of the start makes room for is returned. -/
theorem retry_yields {out : V} (hc : c.Yields out) {start : Nat} (k : Nat)
    (hroom : out.length ≤ start * 2 ^ k) (hlimit : start * 2 ^ k < kMaxBuffer) :
    retry c start = some out := by
  suffices ∀ (k sz : Nat) (v : V), out.length ≤ sz * 2 ^ k → sz * 2 ^ k < kMaxBuffer →
      run (retryPass c) (k + 1) (sz, v) = some out from
    retry_eq_some_iff.mpr ⟨_, this k start [] hroom hlimit⟩
  intro k
  induction k with
  | zero =>
    intro sz v hroom hlimit
    rw [Nat.pow_zero, Nat.mul_one] at hroom hlimit
    obtain ⟨hres, hlen, hout⟩ := hc.ok (resize v sz) (by rw [resize_length]; exact hroom)
    rw [run_done (retryPass_ok hlimit hres), hlen, hout]
  | succ k ih =>
    intro sz v hroom hlimit
    have hdouble : sz * 2 ^ (k + 1) = sz * 2 * 2 ^ k := by rw [Nat.pow_succ', Nat.mul_assoc]
    have hlt : sz < kMaxBuffer :=
      Nat.lt_of_le_of_lt (Nat.le_mul_of_pos_right sz (Nat.two_pow_pos _)) hlimit
    by_cases hfit : out.length ≤ sz
    · obtain ⟨hres, hlen, hout⟩ := hc.ok (resize v sz) (by rw [resize_length]; exact hfit)
      rw [run_done (retryPass_ok hlt hres), hlen, hout]
    · have hpos : sz ≠ 0 := by
        intro hzero
        rw [hzero, Nat.zero_mul] at hroom
        omega
      have hres := hc.short (resize v sz) (resize_ne_nil v hpos) (by rw [resize_length]; omega)
      rw [run_again (retryPass_bufError hlt hres)]
      rw [hdouble] at hroom hlimit
      exact ih _ _ hroom hlimit

/-- Doubling overshoots by less than the double. -/
theorem exists_doubling {start : Nat} (h : 0 < start) (n : Nat) :
    ∃ k, n ≤ start * 2 ^ k ∧ (k = 0 ∨ start * 2 ^ k < 2 * n) := by
  have hreach : ∃ k, n ≤ start * 2 ^ k :=
    ⟨n, Nat.le_trans (Nat.le_of_lt Nat.lt_two_pow_self) (Nat.le_mul_of_pos_left _ h)⟩
  refine ⟨Nat.find hreach, Nat.find_spec hreach, ?_⟩
  cases hk : Nat.find hreach with
  | zero => exact .inl rfl
  | succ k =>
    have hbefore : ¬n ≤ start * 2 ^ k := Nat.find_min hreach (by omega)
    right
    rw [Nat.pow_succ, ← Nat.mul_assoc]
    omega

/-- A whole result of at most half the limit is returned from any positive start. -/
theorem retry_yields_half {out : V} (hc : c.Yields out) {start : Nat} (hpos : 0 < start)
    (hstart : start < kMaxBuffer) (hout : 2 * out.length ≤ kMaxBuffer) :
    retry c start = some out := by
  obtain ⟨k, hroom, rfl | hlimit⟩ := exists_doubling hpos out.length
  · exact retry_yields hc 0 hroom (by rwa [Nat.pow_zero, Nat.mul_one])
  · exact retry_yields hc k hroom (by omega)

/-- From a positive size the result of a call with a whole result is that result, or the
leftover buffer of the last size tried, which is at least half the limit. -/
theorem retry_yields_cases {out : V} (hc : c.Yields out) {start : Nat} (hpos : 0 < start)
    (hstart : start < kMaxBuffer) {r : V} (h : retry c start = some r) :
    r = out ∨ kMaxBuffer ≤ 2 * r.length := by
  refine retry_invariant (fun sz v => 0 < sz ∧ (sz < kMaxBuffer ∨ kMaxBuffer ≤ 2 * v.length))
    (fun r => r = out ∨ kMaxBuffer ≤ 2 * r.length) ?_ ?_ ?_ ?_ ⟨hpos, .inl hstart⟩ h
  · intro sz v hv _ _
    rw [retry_dest_length]
    omega
  · intro sz v hv _ hres
    exact absurd hres (hc.not_error (resize_ne_nil v (Nat.ne_of_gt hv.1)))
  · intro sz v _ _ hres
    exact .inl (hc.of_ok hres)
  · intro sz v hv hlimit
    exact .inr (hv.2.resolve_left (Nat.not_lt.mpr hlimit))

end Retry

end FuzzerTestSuite.Png
