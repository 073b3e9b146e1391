import FuzzerTestSuite.Png.RoundTrip

/-! The reader on what the writer writes.

The reader stops at a length over 2 ^ 20; the writer has no such limit. Merging and
inflating IDAT and deflating a profile anew can each make a payload longer than the
chunks it was read from, and then the file's tail is lost (`accepted_iff`). -/
namespace FuzzerTestSuite.Png
open Library Library.Bytes Library.Partial

/-! ### Accepted states -/

/-- The reader gets to the terminator of what `Serialize` writes, by every chunk written. -/
def Accepted (z : Zlib) (p : PngMutator) : Prop :=
  ∃ out cs, serialize z p = some out ∧ p.chunks_.mapM (written z) = some cs ∧
    ∃ ihdr s parse, readHeader ⟨out, false⟩ = some (ihdr, s) ∧
      readChunks z s = some (.iend, parse) ∧ (scan s).2 = cs

/-- A chunk whose payload is written within the reader's limit. -/
def Fits (deflate : V → V) (ch : Chunk) : Prop :=
  if ch.type = type "iCCP" then (compressed deflate ch.v).length + 3 ≤ 2 ^ 20 else ch.v.length ≤ 2 ^ 20

/-- The chunk loop ends on a stream if the loops on its profiles end. -/
theorem readChunks_isSome (z : Zlib) (s : IStream) :
    (readChunks z s).isSome ↔ ProfilesEnd z (scan s).2 := by
  have hfold : ((scan s).2.foldlM (absorb z) ⟨[], none⟩).isSome ↔
      ((merge (scan s).2).mapM (decodeChunk z .oversized)).isSome := by
    rw [← inflateIdat_fold]
    cases (scan s).2.foldlM (absorb z) ⟨[], none⟩ <;> rfl
  rw [readChunks_eq, Option.isSome_map, hfold, mapM_decodeChunk_isSome]
  exact ⟨fun h => h.profiles, fun h => ⟨h, fun hne => absurd rfl hne⟩⟩

/-- What is accepted was written within the limit. -/
theorem Accepted.length {z : Zlib} {p : PngMutator} (h : Accepted z p) :
    ∃ cs, p.chunks_.mapM (written z) = some cs ∧ ∀ c ∈ cs, c.v.length ≤ 2 ^ 20 := by
  obtain ⟨-, cs, -, hcs, -, s, -, -, -, rfl⟩ := h
  exact ⟨_, hcs, scan_length s⟩

section Encoding
variable {z : Zlib} {deflate : V → V}

/-- `Compress` returns something short exactly if the encoding is short, and then returns it. -/
theorem compress_short (hz : Encodes z deflate) {v e : V} (hv : v.length < kMaxBuffer)
    (h : compress z v = some e)
    (hlen : e.length + 3 ≤ 2 ^ 20 ∨ (compressed deflate v).length + 3 ≤ 2 ^ 20) :
    e = compressed deflate v := by
  by_cases hnil : v = []
  -- from size zero the loop ends with nothing, if it ends
  · rw [hnil] at h
    have hends : CompressEnds z [] := (compress_isSome z []).mp (by rw [h]; rfl)
    have hres := hends.resolve_left (Nat.lt_irrefl 0)
    rw [compressed, if_pos hnil]
    exact Option.some.inj (h.symm.trans (retry_zero hres))
  · rw [compressed, if_neg hnil] at hlen ⊢
    rcases hlen with hlen | hlen
    · rcases retry_yields_cases (hz.compress v) (List.length_pos_of_ne_nil hnil) hv h with heq | hbig
      · exact heq
      · simp only [kMaxBuffer] at hbig
        omega
    · have := compress_encodes hz hnil hv (by unfold kMaxBuffer; omega)
      rw [this] at h
      exact (Option.some.inj h).symm

/-- A chunk is written within the limit exactly if it fits. -/
theorem written_fits (hz : Encodes z deflate) {ch c : Chunk}
    (hv : ch.type = type "iCCP" → ch.v.length < kMaxBuffer) (h : written z ch = some c) :
    c.v.length ≤ 2 ^ 20 ↔ Fits deflate ch := by
  by_cases ht : ch.type = type "iCCP"
  · rw [written_iccp ht] at h
    obtain ⟨e, he, rfl⟩ := Option.map_eq_some_iff.mp h
    have hlength : ([0x78, 0, 0] ++ e : V).length = e.length + 3 := by
      simp only [List.length_append, List.length_cons, List.length_nil]
      omega
    rw [Fits, if_pos ht, hlength]
    constructor
    · intro hlen
      rw [← compress_short hz (hv ht) he (.inl hlen)]
      exact hlen
    · intro hlen
      rw [compress_short hz (hv ht) he (.inr hlen)]
      exact hlen
  · rw [written_other ht] at h
    cases h
    rw [Fits, if_neg ht]

/-- The loops on a profile `Serialize` has deflated end. -/
theorem profileEnds_written (hz : Encodes z deflate) {t : UInt32} {v : V} (hempty : v = [] → RefusesEmpty z)
    (hlen : (compressed deflate v).length + 3 ≤ 2 ^ 20) :
    ProfileEnds z ⟨t, [0x78, 0, 0] ++ compressed deflate v⟩ := by
  by_cases hnil : v = []
  · exact ⟨(hempty hnil).uncompressEnds _, fun w _ => (hempty hnil).compressEnds w⟩
  · rw [compressed, if_neg hnil] at hlen ⊢
    have hpos := List.length_pos_of_ne_nil (hz.ne_nil v)
    constructor
    · rw [skipName_written]
      exact .inl (by omega)
    · intro w hw
      rw [skipName_written] at hw
      refine .inl (List.length_pos_of_ne_nil ?_)
      intro hw'
      rw [hw'] at hw
      rcases retry_yields_cases (hz.uncompress v) (by omega) (by unfold kMaxBuffer; omega) hw with heq | hbig
      · exact hnil heq.symm
      · exact absurd hbig (by decide)

/-- Where a state holds an empty profile, zlib refuses to make anything of nothing. -/
def EmptyProfilesEnd (z : Zlib) (p : PngMutator) : Prop :=
  ∀ ch ∈ p.chunks_, ch.type = type "iCCP" → ch.v = [] → RefusesEmpty z

/-- **A parsed state is accepted exactly if every chunk fits.** -/
theorem accepted_iff_fits (hz : Encodes z deflate) {bytes : V} {p : PngMutator}
    (hp : pngMutator z bytes = some p) (hempty : EmptyProfilesEnd z p) :
    Accepted z p ↔ ∀ ch ∈ p.chunks_, Fits deflate ch := by
  have hchunks := pngMutator_chunks hp
  have hprofile : ∀ ch ∈ p.chunks_, ch.type = type "iCCP" → ch.v.length < kMaxBuffer :=
    fun ch hch ht =>
      have ⟨_, _, hdec⟩ := mem_of_mapM hchunks ch hch
      retry_length (decodeChunk_iccp hdec ht).1
  constructor
  · intro h ch hch
    obtain ⟨cs, hcs, hlen⟩ := h.length
    obtain ⟨c, hc, hw⟩ := mem_mapM hcs ch hch
    exact (written_fits hz (hprofile ch hch) hw).mp (hlen c hc)
  · intro hfit
    have hsome : (p.chunks_.mapM (written z)).isSome := mapM_isSome.mpr fun ch hch =>
      let ⟨_, _, hdec⟩ := mem_of_mapM hchunks ch hch
      written_isSome hdec
    obtain ⟨cs, hcs⟩ := Option.isSome_iff_exists.mp hsome
    have hread : Readable (serializedFile z p.ihdr_ cs).cs := by
      rw [serializedFile_cs]
      intro c hc
      obtain ⟨ch, hch, hw⟩ := mem_of_mapM hcs c hc
      exact ⟨written_type hw ▸ parsed_no_iend ⟨bytes, hp⟩ ch hch,
        (written_fits hz (hprofile ch hch) hw).mpr (hfit ch hch)⟩
    have hscan : scan ⟨(serializedFile z p.ihdr_ cs).body, false⟩ = (.iend, cs) := by
      rw [scan_body _ hread, serializedFile_cs]
    have hends : ProfilesEnd z (scan ⟨(serializedFile z p.ihdr_ cs).body, false⟩).2 := by
      rw [hscan]
      intro c hc ht
      obtain ⟨ch, hch, hw⟩ := mem_of_mapM hcs c hc
      have htch : ch.type = type "iCCP" := (written_type hw).symm.trans ht
      have hf := hfit ch hch
      rw [Fits, if_pos htch] at hf
      rw [written_iccp htch] at hw
      obtain ⟨e, he, rfl⟩ := Option.map_eq_some_iff.mp hw
      rw [compress_short hz (hprofile ch hch htch) he (.inr hf)]
      exact profileEnds_written hz (hempty ch hch htch) hf
    obtain ⟨⟨exit, parse⟩, hparse⟩ := Option.isSome_iff_exists.mp ((readChunks_isSome z _).mpr hends)
    have hexit : exit = .iend := by
      rw [readChunks_eq, hscan] at hparse
      obtain ⟨_, -, he⟩ := Option.map_eq_some_iff.mp hparse
      exact (congrArg Prod.fst he).symm
    subst hexit
    exact ⟨_, cs, by rw [serialize_eq, hcs]; rfl, hcs, p.ihdr_, _, parse, readHeader_bytes _, hparse,
      by rw [hscan]⟩

/-! ### Accepted inputs -/

/-- What a merged chunk must keep to, before it is decoded: IDAT data as the constructor
leaves it, and the encoding of an inflated profile, are within the reader's limit. -/
def DecodedFits (z : Zlib) (deflate : V → V) (exit : Exit) (c : Chunk) : Prop :=
  if isIdat c then
    if exit = .oversized then c.v.length ≤ 2 ^ 20
    else ∀ d, uncompress z c.v = some d → d.length ≤ 2 ^ 20
  else if c.type = type "iCCP" then
    ∀ v, uncompress z (skipName c.v) = some v → (compressed deflate v).length + 3 ≤ 2 ^ 20
  else c.v.length ≤ 2 ^ 20

/-- What a stream must keep to. -/
def SizesFit (z : Zlib) (deflate : V → V) (bytes : V) : Prop :=
  ∀ c ∈ merge (scanBytes bytes).2, DecodedFits z deflate (scanBytes bytes).1 c

theorem decodedFits_iff {exit : Exit} {c ch : Chunk} (h : decodeChunk z exit c = some ch) :
    Fits deflate ch ↔ DecodedFits z deflate exit c := by
  have htype := decodeChunk_type h
  cases hidat : isIdat c with
  | true =>
    have hne : ch.type ≠ type "iCCP" := by
      rw [htype]
      exact idat_ne_iccp ((isIdat_iff c).mp hidat)
    rw [Fits, if_neg hne, DecodedFits, if_pos hidat]
    rw [decodeChunk, if_pos hidat] at h
    by_cases hexit : exit = .oversized
    · rw [if_pos hexit] at h
      cases h
      rw [if_pos hexit]
    · rw [if_neg hexit] at h
      obtain ⟨d, hd, rfl⟩ := Option.map_eq_some_iff.mp h
      rw [if_neg hexit, hd]
      exact ⟨fun hlen d' hd' => Option.some.inj hd' ▸ hlen, fun hall => hall d rfl⟩
  | false =>
    rw [Fits, htype, DecodedFits, hidat, if_neg Bool.false_ne_true]
    rw [decodeChunk_notIdat z exit hidat] at h
    have hspec := (keepChunk_spec h).2
    by_cases ht : c.type = type "iCCP"
    · rw [if_pos ht] at hspec
      rw [if_pos ht, if_pos ht, hspec]
      exact ⟨fun hlen v hv => Option.some.inj hv ▸ hlen, fun hall => hall ch.v rfl⟩
    · rw [if_neg ht] at hspec
      rw [if_neg ht, if_neg ht, hspec]

/-- **The reader gets to the end of what is written for a parsed stream exactly if the
stream's inflated IDAT data and re-encoded profiles are within its limit.** -/
theorem accepted_iff (hz : Encodes z deflate) {bytes : V} {p : PngMutator}
    (hp : pngMutator z bytes = some p) (hempty : EmptyProfilesEnd z p) :
    Accepted z p ↔ SizesFit z deflate bytes := by
  have hchunks := pngMutator_chunks hp
  rw [accepted_iff_fits hz hp hempty]
  constructor
  · intro hfit c hc
    obtain ⟨ch, hch, hdec⟩ := mem_mapM hchunks c hc
    exact (decodedFits_iff hdec).mp (hfit ch hch)
  · intro hsizes ch hch
    obtain ⟨c, hc, hdec⟩ := mem_of_mapM hchunks ch hch
    exact (decodedFits_iff hdec).mpr (hsizes c hc)

end Encoding

theorem starIdat_accepted_iff :
    ∃ p, pngMutator starZlib (oneChunk starIdat).bytes = some p ∧
      (Accepted starZlib p ↔ SizesFit starZlib starDeflate (oneChunk starIdat).bytes) :=
  have hp : pngMutator starZlib (oneChunk starIdat).bytes =
      some ⟨Ihdr.zero, [⟨type "IDAT", starContent⟩]⟩ := by decide +kernel
  ⟨_, hp, accepted_iff (sampleZlib_encodes rfl) hp fun _ _ _ _ => starZlib_refusesEmpty⟩

/-! ### An input that is not -/

/-- One byte more than the limit. -/
def longContent : V := List.replicate (2 ^ 20 + 1) 0

/-- What zlib's `compress` makes of it. -/
def longStream : V :=
  [0x78, 0x9c, 0xed, 0xc1, 0x31, 0x01, 0x00, 0x00, 0x00, 0xc2, 0xa0, 0xf5, 0x4f, 0x6d, 0x08, 0x5f, 0xa0] ++
    List.replicate 1016 0 ++ [0x4e, 0x03, 0x00, 0xf1, 0x00, 0x01]

def longZlib : Zlib := sampleZlib longContent longStream

/-- The file with one IDAT chunk, parsed. -/
theorem pngMutator_oneIdat {z : Zlib} {v d : V} (hv : v.length ≤ 2 ^ 20) (hd : uncompress z v = some d) :
    pngMutator z (oneChunk ⟨type "IDAT", v⟩).bytes = some ⟨Ihdr.zero, [⟨type "IDAT", d⟩]⟩ := by
  have hcs : (oneChunk ⟨type "IDAT", v⟩).cs = [⟨type "IDAT", v⟩] := rfl
  have hidat : isIdat ⟨type "IDAT", v⟩ = true := (isIdat_iff _).mpr rfl
  have hmerge : merge [⟨type "IDAT", v⟩] = [⟨type "IDAT", v⟩] := by
    have hnil : ∀ c ∈ ([] : List Chunk), isIdat c = false := fun c hc => by cases hc
    simpa [idatData] using merge_split hnil hidat []
  have hread : Readable (oneChunk ⟨type "IDAT", v⟩).cs := by
    rw [hcs]
    intro c hc
    rw [List.mem_singleton.mp hc]
    exact ⟨by show type "IDAT" ≠ type "IEND"; decide, hv⟩
  have hdec : decodeChunk z .iend ⟨type "IDAT", v⟩ = some ⟨type "IDAT", d⟩ := by
    rw [decodeChunk, if_pos hidat, if_neg (by decide), hd]
    rfl
  rw [pngMutator_bytes z _ hread, hcs, hmerge, mapM_singleton hdec]
  rfl

/-- A file of just over a thousand bytes, and its image is one byte too long. -/
theorem longStream_not_accepted :
    Encodes longZlib (sampleDeflate longContent longStream) ∧
      ∃ p, pngMutator longZlib (oneChunk ⟨type "IDAT", longStream⟩).bytes = some p ∧
        ¬Accepted longZlib p := by
  have hz : Encodes longZlib (sampleDeflate longContent longStream) := sampleZlib_encodes rfl
  have hlen : longStream.length = 1039 := by
    simp only [longStream, List.length_append, List.length_replicate, List.length_cons, List.length_nil]
  have hcontent : longContent.length = 2 ^ 20 + 1 := List.length_replicate
  have hdeflate : sampleDeflate longContent longStream longContent = longStream := if_pos rfl
  have hu : uncompress longZlib longStream = some longContent := by
    have := uncompress_encodes (v := longContent) hz (by rw [hdeflate, hlen]; decide) (by rw [hcontent]; decide)
    rwa [hdeflate] at this
  have hp := pngMutator_oneIdat (by rw [hlen]; decide) hu
  refine ⟨hz, _, hp, ?_⟩
  intro h
  obtain ⟨cs, hcs, hle⟩ := h.length
  have hw : written longZlib ⟨type "IDAT", longContent⟩ = some ⟨type "IDAT", longContent⟩ :=
    written_other (idat_ne_iccp rfl)
  obtain ⟨c, hc, hwc⟩ := mem_mapM hcs _ (List.mem_singleton.mpr rfl)
  rw [hw] at hwc
  cases hwc
  have := hle _ hc
  rw [hcontent] at this
  exact absurd this (by decide)

end FuzzerTestSuite.Png
