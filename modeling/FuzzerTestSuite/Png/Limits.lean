import FuzzerTestSuite.Png.RoundTrip

/-! How the retry loops of `Compress` and `Uncompress` end.

They end from every vector but an empty one, and from that unless zlib asks for more
room than none (`retry_loops_end_iff`, `retry_loops_end`). What they
return depends on whether one of the sizes they try is enough (`Room`): if none is,
the loop runs into its limit and returns the last buffer it gave to zlib
(`retry_gives_up`), so that the result is exact or empty only with room
(`exact_or_empty_iff`). Vectors under 2 ^ 27 bytes with encodings under 2 ^ 26
always have it, in both directions (`compress_uncompress`). -/
namespace FuzzerTestSuite.Png
open Library Library.Bytes Library.WhileLoop

/-! ### Ending -/

/-- Of any number of passes, one is the last if the loop is not stuck at size zero. -/
theorem retryPass_ends_iff (c : ZCall) (start : Nat) :
    (∃ n r, run (retryPass c) n (start, []) = some r) ↔ RetryEnds c start := by
  rw [← retry_isSome_iff, Option.isSome_iff_exists]
  refine ⟨fun ⟨n, r, h⟩ => ⟨r, retry_eq_some_iff.mpr ⟨n, h⟩⟩, fun ⟨r, h⟩ => ?_⟩
  obtain ⟨n, hn⟩ := retry_eq_some_iff.mp h
  exact ⟨n, r, hn⟩

/-- **Both loops end from a non-empty vector, and from an empty one exactly if zlib's
first call does not answer `Z_BUF_ERROR`.** -/
theorem retry_loops_end_iff (z : Zlib) :
    (∀ v : V, (∃ n r, run (retryPass (z.compress v)) n (v.length, []) = some r) ↔
      v ≠ [] ∨ ((z.compress v).run []).res ≠ .bufError) ∧
    ∀ c : V, (∃ n r, run (retryPass (z.uncompress c)) n (c.length * 4, []) = some r) ↔
      c ≠ [] ∨ ((z.uncompress c).run []).res ≠ .bufError := by
  constructor
  · intro v
    rw [retryPass_ends_iff, RetryEnds, List.length_pos_iff]
  · intro c
    have hpos : 0 < c.length * 4 ↔ c ≠ [] := by
      rw [← List.length_pos_iff]
      omega
    rw [retryPass_ends_iff, RetryEnds, hpos]

/-- **With a zlib that asks for no room where there is nothing, both loops end from every vector.** -/
theorem retry_loops_end {z : Zlib} (hempty : RefusesEmpty z) :
    (∀ v : V, ∃ n r, run (retryPass (z.compress v)) n (v.length, []) = some r) ∧
    ∀ c : V, ∃ n r, run (retryPass (z.uncompress c)) n (c.length * 4, []) = some r := by
  obtain ⟨hcompress, huncompress⟩ := retry_loops_end_iff z
  constructor
  · intro v
    rw [hcompress, or_iff_not_imp_left, not_not]
    intro hv
    rw [hv]
    exact hempty.compress
  · intro c
    rw [huncompress, or_iff_not_imp_left, not_not]
    intro hc
    rw [hc]
    exact hempty.uncompress

theorem star_loops_end :
    (∀ v : V, ∃ n r, run (retryPass (starZlib.compress v)) n (v.length, []) = some r) ∧
    ∀ c : V, ∃ n r, run (retryPass (starZlib.uncompress c)) n (c.length * 4, []) = some r :=
  retry_loops_end starZlib_refusesEmpty

/-- A zlib that asks for more room at every destination too small, an empty one too. -/
def askingZlib : Zlib := {starZlib with compress := fun v => callFor .bufError (starDeflate v)}

/-- With it, no number of passes of `Compress` is enough for the empty vector. -/
theorem compress_nil_never :
    (∀ v dest, ((askingZlib.compress v).run dest).res = .bufError ↔ dest.length < (starDeflate v).length) ∧
      ¬∃ n r, run (retryPass (askingZlib.compress [])) n (([] : V).length, []) = some r := by
  constructor
  · intro v dest
    by_cases hfit : (starDeflate v).length ≤ dest.length
    · simp [askingZlib, callFor, hfit]
    · simp [askingZlib, callFor, hfit, Nat.not_le.mp hfit]
  · intro h
    obtain ⟨n, r, hr⟩ := h
    rw [List.length_nil, retry_zero_never (by decide) n] at hr
    cases hr

/-! ### Room -/

/-- What a call answers depends on how long its destination is, not on what it holds. -/
def ZCall.WriteOnly (c : ZCall) : Prop :=
  ∀ dest dest', dest.length = dest'.length → (c.run dest).res = (c.run dest').res

/-- The call does not ask for more than `n` bytes. -/
def ZCall.Enough (c : ZCall) (n : Nat) : Prop := (c.run (List.replicate n 0)).res ≠ .bufError

/-- What zlib has written and reported in a successful call. -/
def ZCall.Writes (c : ZCall) (r : V) : Prop :=
  ∃ dest, (c.run dest).res = .ok ∧ r = (c.run dest).dest.take (c.run dest).len

/-- One of the sizes the loop tries is enough, or it does not call zlib with room to
write at all. -/
def Room (enough : Nat → Prop) (start : Nat) : Prop :=
  start = 0 ∨ kMaxBuffer ≤ start ∨ ∃ k, start * 2 ^ k < kMaxBuffer ∧ enough (start * 2 ^ k)

section Yields
variable {c : ZCall} {out : V}

theorem ZCall.Yields.unique {out' : V} (hc : c.Yields out) (hc' : c.Yields out') : out = out' := by
  have hok := (hc.ok out (Nat.le_refl _)).1
  exact (hc.of_ok hok).symm.trans (hc'.of_ok hok)

theorem ZCall.Yields.enough_iff (hc : c.Yields out) {n : Nat} (hn : n ≠ 0) :
    c.Enough n ↔ out.length ≤ n := by
  have hdest : List.replicate n (0 : UInt8) ≠ [] := mt (List.replicate_eq_nil_iff (0 : UInt8)).mp hn
  rw [ZCall.Enough, ne_eq, hc.bufError_iff hdest, List.length_replicate, Nat.not_lt]

/-- So both kinds of room are one, as no size tried is zero. -/
theorem ZCall.Yields.room_iff (hc : c.Yields out) (start : Nat) :
    Room c.Enough start ↔ Room (out.length ≤ ·) start := by
  by_cases hzero : start = 0
  · exact ⟨fun _ => .inl hzero, fun _ => .inl hzero⟩
  · have hsame (k : Nat) : c.Enough (start * 2 ^ k) ↔ out.length ≤ start * 2 ^ k :=
      hc.enough_iff (Nat.mul_ne_zero hzero (Nat.two_pow_pos k).ne')
    simp only [Room, hsame]

theorem ZCall.Yields.writeOnly (hc : c.Yields out) : c.WriteOnly := by
  intro dest dest' hlen
  by_cases hfit : out.length ≤ dest.length
  · rw [(hc.ok dest hfit).1, (hc.ok dest' (by omega)).1]
  · by_cases hdest : dest = []
    · rw [hdest, List.length_nil, eq_comm, List.length_eq_zero_iff] at hlen
      rw [hdest, hlen]
    · have hdest' : dest' ≠ [] := by
        apply List.ne_nil_of_length_pos
        rw [← hlen]
        exact List.length_pos_of_ne_nil hdest
      rw [hc.short dest hdest (by omega), hc.short dest' hdest' (by omega)]

end Yields

section Retry
variable {c : ZCall} {start : Nat} {r : V}

theorem ZCall.WriteOnly.enough_iff (hw : c.WriteOnly) (v : V) (sz : Nat) :
    (c.run (resize v sz)).res ≠ .bufError ↔ c.Enough sz := by
  rw [ZCall.Enough, hw (resize v sz) (List.replicate sz 0) (by rw [resize_length, List.length_replicate])]

/-- Without room the loop returns the last buffer it has tried. -/
theorem retry_gives_up (hw : c.WriteOnly) (h : ¬Room c.Enough start) (hr : retry c start = some r) :
    ∃ k, r.length = start * 2 ^ k := by
  rw [Room, not_or, not_or, not_exists] at h
  obtain ⟨-, hstart, hnever⟩ := h
  have hbuf (k : Nat) (hlt : start * 2 ^ k < kMaxBuffer) (v : V) :
      (c.run (resize v (start * 2 ^ k))).res = .bufError := by
    have hnot := mt (hw.enough_iff v _).mp fun henough => hnever k ⟨hlt, henough⟩
    exact not_not.mp hnot
  -- every buffer after the first is half as long as the size to try next
  refine retry_invariant
    (fun sz v => ∃ k, sz = start * 2 ^ k ∧ (k = 0 ∨ v.length * 2 = sz)) (fun r => ∃ k, r.length = start * 2 ^ k)
    ?_ ?_ ?_ ?_ ⟨0, (Nat.mul_one start).symm, .inl rfl⟩ hr
  · intro sz v hv _ _
    obtain ⟨k, rfl, -⟩ := hv
    refine ⟨k + 1, by rw [Nat.pow_succ, Nat.mul_assoc], .inr ?_⟩
    rw [retry_dest_length]
  · intro sz v hv hlt herror
    obtain ⟨k, rfl, -⟩ := hv
    rw [hbuf k hlt v] at herror
    cases herror
  · intro sz v hv hlt hok
    obtain ⟨k, rfl, -⟩ := hv
    rw [hbuf k hlt v] at hok
    cases hok
  · intro sz v hv hlimit
    obtain ⟨k, rfl, hlen⟩ := hv
    cases k with
    | zero =>
      rw [Nat.pow_zero, Nat.mul_one] at hlimit
      exact absurd hlimit hstart
    | succ k =>
      refine ⟨k, ?_⟩
      rw [Nat.pow_succ, ← Nat.mul_assoc] at hlen
      omega

/-- With room it returns what zlib has written, or nothing. -/
theorem retry_room (hw : c.WriteOnly) (h : Room c.Enough start) (hr : retry c start = some r) :
    r = [] ∨ c.Writes r := by
  rcases h with rfl | hstart | ⟨k, hlimit, henough⟩
  · left
    rcases (retry_isSome_iff 0).mp (by rw [hr]; rfl) with hpos | hne
    · exact absurd hpos (Nat.lt_irrefl 0)
    · rw [retry_zero hne] at hr
      exact (Option.some.inj hr).symm
  · left
    rw [retry, retryPasses, run_done (retryPass_limit hstart [])] at hr
    exact (Option.some.inj hr).symm
  -- no size before the one that is enough reaches the limit
  · refine retry_invariant (fun sz _ => ∃ j, j ≤ k ∧ sz = start * 2 ^ j) (fun r => r = [] ∨ c.Writes r)
      ?_ ?_ ?_ ?_ ⟨0, Nat.zero_le k, (Nat.mul_one start).symm⟩ hr
    · intro sz v hv _ hres
      obtain ⟨j, hjk, rfl⟩ := hv
      refine ⟨j + 1, Nat.lt_of_le_of_ne hjk ?_, by rw [Nat.pow_succ, Nat.mul_assoc]⟩
      intro hj
      subst hj
      exact (hw.enough_iff v _).mpr henough hres
    · intro sz v _ _ _
      exact .inl rfl
    · intro sz v _ _ hres
      exact .inr ⟨_, hres, rfl⟩
    · intro sz v hv hbig
      obtain ⟨j, hjk, rfl⟩ := hv
      have hle : start * 2 ^ j ≤ start * 2 ^ k :=
        Nat.mul_le_mul_left start (Nat.pow_le_pow_right (by decide) hjk)
      omega

/-- The leftover buffer is not empty, and not long enough for anything. -/
theorem retry_stale (hw : c.WriteOnly) (h : ¬Room c.Enough start) (hr : retry c start = some r) :
    r ≠ [] ∧ ¬c.Enough r.length := by
  obtain ⟨k, hlen⟩ := retry_gives_up hw h hr
  rw [Room, not_or, not_or, not_exists] at h
  obtain ⟨hzero, -, hnever⟩ := h
  refine ⟨List.ne_nil_of_length_pos ?_, fun henough => ?_⟩
  · rw [hlen]
    exact Nat.mul_pos (Nat.pos_of_ne_zero hzero) (Nat.two_pow_pos k)
  · have hlt := retry_length hr
    rw [hlen] at henough hlt
    exact hnever k ⟨hlt, henough⟩

/-- A call with a whole result is answered with it, or with nothing, exactly if there is room. -/
theorem retry_exact_iff {out : V} (hc : c.Yields out) (hr : retry c start = some r) :
    r = [] ∨ r = out ↔ Room (out.length ≤ ·) start := by
  rw [← hc.room_iff]
  constructor
  · intro h
    by_contra hnone
    obtain ⟨hne, hshort⟩ := retry_stale hc.writeOnly hnone hr
    rcases h with hnil | rfl
    · exact hne hnil
    · have hlen := List.length_pos_of_ne_nil hne
      exact hshort ((hc.enough_iff (Nat.ne_of_gt hlen)).mpr (Nat.le_refl _))
  · intro h
    rcases retry_room hc.writeOnly h hr with hnil | ⟨dest, hok, rfl⟩
    · exact .inl hnil
    · exact .inr (hc.of_ok hok)

/-- A call that never succeeds is answered with nothing exactly if there is room. -/
theorem retry_empty_iff (hw : c.WriteOnly) (hno : ∀ dest, (c.run dest).res ≠ .ok)
    (hr : retry c start = some r) : r = [] ↔ Room c.Enough start := by
  constructor
  · intro h
    by_contra hnone
    exact (retry_stale hw hnone hr).1 h
  · intro h
    rcases retry_room hw h hr with hnil | ⟨dest, hok, -⟩
    · exact hnil
    · exact absurd hok (hno dest)

end Retry

/-! ### Exact or empty -/

/-- `Uncompress` has returned nothing, or the full content of the stream. -/
def UncompressExact (inflate : V → Option V) (c r : V) : Prop := r = [] ∨ inflate c = some r

/-- `Compress` has returned nothing, or the complete stream for the vector. -/
def CompressExact (deflate : V → V) (inflate : V → Option V) (v r : V) : Prop :=
  r = [] ∨ r = deflate v ∧ inflate r = some v

section Exact
variable {z : Zlib} {deflate : V → V} {inflate : V → Option V}

/-- What `compress` writes is a stream with the content it was given. -/
theorem Decodes.inflate_deflate (hd : Decodes z inflate) (hz : Encodes z deflate) (v : V) :
    inflate (deflate v) = some v := by
  cases h : inflate (deflate v) with
  | none => exact absurd ((hz.uncompress v).ok v (Nat.le_refl _)).1 (hd.other _ h v)
  | some d => rw [(hd.stream _ d h).unique (hz.uncompress v)]

/-- **What the loops return is exact or empty exactly if they have room**: of the sizes they
try one holds the result, or, where there is none, one is enough for zlib to say so. -/
theorem exact_or_empty_iff (hz : Encodes z deflate) (hd : Decodes z inflate)
    (hw : ∀ c, (z.uncompress c).WriteOnly) :
    (∀ c d r, inflate c = some d → uncompress z c = some r →
      (UncompressExact inflate c r ↔ Room (d.length ≤ ·) (c.length * 4))) ∧
    (∀ c r, inflate c = none → uncompress z c = some r →
      (UncompressExact inflate c r ↔ Room (z.uncompress c).Enough (c.length * 4))) ∧
    ∀ v r, compress z v = some r →
      (CompressExact deflate inflate v r ↔ Room ((deflate v).length ≤ ·) v.length) := by
  refine ⟨fun c d r hc hr => ?_, fun c r hc hr => ?_, fun v r hr => ?_⟩
  · have hsame : some d = some r ↔ r = d := by rw [Option.some_inj, eq_comm]
    rw [UncompressExact, hc, hsame]
    exact retry_exact_iff (hd.stream c d hc) hr
  · have hnever : ¬inflate c = some r := by
      rw [hc]
      exact (Option.some_ne_none r).symm
    rw [UncompressExact, or_iff_left hnever]
    exact retry_empty_iff (hw c) (hd.other c hc) hr
  · have hsame : r = deflate v ∧ inflate r = some v ↔ r = deflate v := by
      refine and_iff_left_of_imp fun h => ?_
      rw [h]
      exact hd.inflate_deflate hz v
    rw [CompressExact, hsame]
    exact retry_exact_iff (hz.compress v) hr

/-- **A vector within the limits is deflated and inflated again.** -/
theorem compress_uncompress (hz : Encodes z deflate) {v : V} (hne : v ≠ []) (hv : v.length < 2 ^ 27)
    (hlen : (deflate v).length < 2 ^ 26) :
    (∃ k, (deflate v).length ≤ v.length * 2 ^ k ∧ v.length * 2 ^ k < kMaxBuffer) ∧
    (∃ k, v.length ≤ (deflate v).length * 4 * 2 ^ k ∧ (deflate v).length * 4 * 2 ^ k < kMaxBuffer) ∧
    ∃ c, compress z v = some c ∧ c = deflate v ∧ uncompress z c = some v := by
  have hpos := List.length_pos_of_ne_nil hne
  have hpos' := List.length_pos_of_ne_nil (hz.ne_nil v)
  refine ⟨?_, ?_, deflate v, ?_, rfl, ?_⟩
  · obtain ⟨k, hroom, rfl | hlimit⟩ := exists_doubling hpos (deflate v).length
    · exact ⟨0, hroom, by unfold kMaxBuffer; omega⟩
    · exact ⟨k, hroom, by unfold kMaxBuffer; omega⟩
  · obtain ⟨k, hroom, rfl | hlimit⟩ := exists_doubling (Nat.mul_pos hpos' (by decide : 0 < 4)) v.length
    · exact ⟨0, hroom, by unfold kMaxBuffer; omega⟩
    · exact ⟨k, hroom, by unfold kMaxBuffer; omega⟩
  · exact compress_encodes hz hne (by unfold kMaxBuffer; omega) (by unfold kMaxBuffer; omega)
  · exact uncompress_encodes hz (by unfold kMaxBuffer; omega) (by unfold kMaxBuffer; omega)

end Exact

theorem zlibOf_writeOnly (deflate : V → V) (inflate : V → Option V) (c : V) :
    ((zlibOf deflate inflate).uncompress c).WriteOnly := by
  intro dest dest' hlen
  cases h : inflate c with
  | none => simp only [zlibOf, h, failingCall]
  | some d =>
    simp only [zlibOf, h]
    exact (exactCall_yields d).writeOnly _ _ hlen

theorem star_compress_uncompress :
    ∃ c, compress starZlib starContent = some c ∧ c = starStream ∧ uncompress starZlib c = some starContent :=
  have hz : Encodes starZlib starDeflate := sampleZlib_encodes rfl
  (compress_uncompress hz (v := starContent) (by decide) (by decide) (by decide)).2.2

/-- The byte, its stream, and a byte that is no stream. -/
theorem star_exact_or_empty :
    (UncompressExact starInflate starStream starContent ↔ Room (starContent.length ≤ ·) 36) ∧
    (UncompressExact starInflate starContent [] ↔ Room (starZlib.uncompress starContent).Enough 4) ∧
    (CompressExact starDeflate starInflate starContent starStream ↔
      Room (starStream.length ≤ ·) starContent.length) :=
  have hz : Encodes starZlib starDeflate := sampleZlib_encodes rfl
  have hd : Decodes starZlib starInflate := zlibOf_decodes
  have h := exact_or_empty_iff hz hd (zlibOf_writeOnly _ _)
  ⟨h.1 starStream starContent starContent (by decide) (by decide +kernel),
    h.2.1 starContent [] (by decide) (by decide +kernel),
    h.2.2 starContent starStream (by decide +kernel)⟩

/-! ### A stream without room -/

/-- More bytes than the loop ever makes room for. -/
def giantContent : V := List.replicate (2 ^ 28 + 193) 0

/-- A zlib stream of them: one block, in which each zero byte stands for 1032 of the content. -/
def giantStream : V :=
  [0x78, 0x9c, 0xed, 0xc1, 0x31, 0x01, 0x00, 0x00, 0x00, 0xc2, 0xa0, 0xf5, 0x4f, 0x6d, 0x08, 0x5f, 0xa0] ++
    List.replicate 260112 0 ++ [0x4e, 0x03, 0xf0, 0xc1, 0x00, 0x01]

theorem giantStream_length : giantStream.length = 260135 := by
  suffices ∀ a b : V, a.length = 17 → b.length = 6 →
      (a ++ List.replicate 260112 0 ++ b).length = 260135 from this _ _ rfl rfl
  intro a b ha hb
  rw [List.length_append, List.length_append, List.length_replicate, ha, hb]

def giantZlib : Zlib := sampleZlib giantContent giantStream

def giantInflate : V → Option V := sampleInflate giantContent giantStream

/-- `Uncompress` returns a buffer of 2 ^ 27 bytes or more that zlib has said is too small for the
content. -/
theorem giantStream_stale :
    Encodes giantZlib (sampleDeflate giantContent giantStream) ∧ Decodes giantZlib giantInflate ∧
      (∀ c, (giantZlib.uncompress c).WriteOnly) ∧
      ∃ r, uncompress giantZlib giantStream = some r ∧ ¬UncompressExact giantInflate giantStream r := by
  have hd : Decodes giantZlib giantInflate := zlibOf_decodes
  refine ⟨sampleZlib_encodes rfl, hd, zlibOf_writeOnly _ _, ?_⟩
  have hcontent : giantContent.length = 2 ^ 28 + 193 := List.length_replicate
  have hinflate : giantInflate giantStream = some giantContent := by
    rw [giantInflate, sampleInflate, if_pos rfl]
  have hends : (uncompress giantZlib giantStream).isSome := retry_pos (by rw [giantStream_length]; decide)
  obtain ⟨r, hr⟩ := Option.isSome_iff_exists.mp hends
  refine ⟨r, hr, fun hexact => ?_⟩
  have hlimit := retry_length hr
  have hcases := retry_yields_cases (hd.stream _ _ hinflate) (by rw [giantStream_length]; decide)
    (by rw [giantStream_length]; decide) hr
  rcases hexact with rfl | hfull
  · rcases hcases with hnil | hbig
    · rw [← hnil] at hcontent
      exact absurd hcontent (by decide)
    · exact absurd hbig (by decide)
  · rw [hinflate] at hfull
    rw [← Option.some.inj hfull, hcontent] at hlimit
    exact absurd hlimit (by decide)

end FuzzerTestSuite.Png
