import FuzzerTestSuite.Png.Invariants

/-! Writing a state and reading it back.

Chunks are written and read one by one, so each round trip comes down to one chunk.
A state without IDAT chunk, with payloads within the reader's limits, is read back as
it was (`decode_encode`). A file that is parsed and written back keeps every plain
chunk, but its IDAT data is written as it is held, inflated: what stands in the file
is a stream with the same content only if the content is a stream of itself
(`preserved_iff`). -/
namespace FuzzerTestSuite.Png
open Library Library.Bytes Library.Partial

/-! ### Writing chunks -/

section Written
variable {z : Zlib}

theorem written_iccp {ch : Chunk} (h : ch.type = type "iCCP") :
    written z ch = (compress z ch.v).map fun e => {ch with v := [0x78, 0, 0] ++ e} := if_pos h

theorem written_other {ch : Chunk} (h : ch.type ≠ type "iCCP") : written z ch = some ch := if_neg h

/-- A name of printable bytes is skipped, with two zeros after it, whatever follows. -/
theorem skipName_printable {name : V} (h : ∀ b ∈ name, isprint b = true) (e : V) :
    skipName (name ++ [0, 0] ++ e) = e := by
  have hdrop : (name ++ [0, 0] ++ e).dropWhile isprint = [0, 0] ++ e := by
    rw [List.append_assoc, List.dropWhile_append_of_pos h]
    rfl
  rw [skipName, hdrop]
  rfl

/-- So is the name `Serialize` writes. -/
theorem skipName_written (e : V) : skipName ([0x78, 0, 0] ++ e) = e :=
  have hname : ∀ b ∈ ([0x78] : V), isprint b = true := by
    intro b hb
    rw [List.mem_singleton.mp hb]
    decide
  skipName_printable hname e

/-- A length under 2 ^ 32 stays under it when it is written. -/
theorem written_length {ch c : Chunk} (h : written z ch = some c) (hlen : ch.v.length < 2 ^ 32) :
    c.v.length < 2 ^ 32 := by
  by_cases ht : ch.type = type "iCCP"
  · rw [written_iccp ht] at h
    obtain ⟨e, he, rfl⟩ := Option.map_eq_some_iff.mp h
    have := retry_length he
    simp only [kMaxBuffer] at this
    simp only [List.length_append, List.length_cons, List.length_nil]
    omega
  · rw [written_other ht] at h
    cases h
    exact hlen

/-- `Serialize` returns on what the constructor made: it deflated each profile before. -/
theorem written_isSome {exit : Exit} {c ch : Chunk} (h : decodeChunk z exit c = some ch) :
    (written z ch).isSome := by
  by_cases ht : ch.type = type "iCCP"
  · rw [written_iccp ht, Option.isSome_map]
    exact (decodeChunk_iccp h ht).2
  · rw [written_other ht]
    rfl

end Written

/-! ### Decode undoes encode -/

/-- What `Compress` makes of a vector within its limits: its encoding, but nothing of nothing. -/
def compressed (deflate : V → V) (v : V) : V := if v = [] then [] else deflate v

/-- A profile that `Compress` and `Uncompress` bring back, in a chunk within the reader's limit.
For the empty one that rests with zlib. -/
structure ProfileStorable (z : Zlib) (deflate : V → V) (v : V) : Prop where
  empty : v = [] → RefusesEmpty z
  length : v.length < 2 ^ 27
  encoded : v ≠ [] → (deflate v).length ≤ 2 ^ 20 - 3

/-- A chunk that is read back as it is written. -/
structure Storable (z : Zlib) (deflate : V → V) (ch : Chunk) : Prop where
  notIdat : ch.type ≠ type "IDAT"
  plain : ch.type ≠ type "iCCP" → ch.v.length ≤ 2 ^ 20
  profile : ch.type = type "iCCP" → ProfileStorable z deflate ch.v

section Encoding
variable {z : Zlib} {deflate : V → V}

/-- `Compress` finds the encoding, if it is not too long. -/
theorem compress_encodes (hz : Encodes z deflate) {v : V} (hne : v ≠ []) (hv : v.length < kMaxBuffer)
    (hlen : 2 * (deflate v).length ≤ kMaxBuffer) : compress z v = some (deflate v) :=
  retry_yields_half (hz.compress v) (List.length_pos_of_ne_nil hne) hv hlen

/-- `Uncompress` finds the content of an encoding, if neither is too long. -/
theorem uncompress_encodes (hz : Encodes z deflate) {v : V}
    (hlen : (deflate v).length * 4 < kMaxBuffer) (hv : 2 * v.length ≤ kMaxBuffer) :
    uncompress z (deflate v) = some v := by
  have hpos := List.length_pos_of_ne_nil (hz.ne_nil v)
  exact retry_yields_half (hz.uncompress v) (by omega) hlen hv

/-- A profile within the limits is compressed as expected, and uncompressed again. -/
theorem ProfileStorable.inverse (hz : Encodes z deflate) {v : V} (h : ProfileStorable z deflate v) :
    compress z v = some (compressed deflate v) ∧ uncompress z (compressed deflate v) = some v ∧
      (compressed deflate v).length ≤ 2 ^ 20 - 3 := by
  by_cases hnil : v = []
  · have hempty := h.empty hnil
    rw [compressed, if_pos hnil, hnil]
    exact ⟨hempty.compress_nil, hempty.uncompress_nil, Nat.zero_le _⟩
  · have hlen := h.length
    have henc := h.encoded hnil
    rw [compressed, if_neg hnil]
    refine ⟨compress_encodes hz hnil ?_ ?_, uncompress_encodes hz ?_ ?_, henc⟩
    all_goals
      unfold kMaxBuffer
      omega

theorem storable_written (hz : Encodes z deflate) {ch : Chunk} (h : Storable z deflate ch) :
    ∃ c, written z ch = some c ∧ c.v.length ≤ 2 ^ 20 ∧ decodeChunk z .iend c = some ch := by
  have hidat : isIdat ch = false := decide_eq_false h.notIdat
  by_cases ht : ch.type = type "iCCP"
  · obtain ⟨hc, hu, hlen⟩ := (h.profile ht).inverse hz
    refine ⟨{ch with v := [0x78, 0, 0] ++ compressed deflate ch.v}, ?_, ?_, ?_⟩
    · rw [written_iccp ht, hc]
      rfl
    · simp only [List.length_append, List.length_cons, List.length_nil]
      omega
    · have hidat' : isIdat {ch with v := [0x78, 0, 0] ++ compressed deflate ch.v} = false := hidat
      rw [decodeChunk_notIdat z .iend hidat', keepChunk, if_pos ht]
      simp only [skipName_written, hu, hc, Option.bind_eq_bind, Option.bind_some]
  · refine ⟨ch, written_other ht, h.plain ht, ?_⟩
    rw [decodeChunk_notIdat z .iend hidat, keepChunk, if_neg ht]

/-- A state of a run that can be stored is read back from what is written for it. -/
theorem pngMutator_serialize (hz : Encodes z deflate) {sh : Shuffle} {p : PngMutator}
    (hreach : ReachableAny z sh p) (hp : ∀ ch ∈ p.chunks_, Storable z deflate ch) {out : V}
    (hout : serialize z p = some out) : pngMutator z out = some p := by
  obtain ⟨cs, hcs, hback⟩ := mapM_inverse fun ch hch =>
    let ⟨c, hw, _, hdec⟩ := storable_written hz (hp ch hch)
    ⟨c, hw, hdec⟩
  rw [serialize_eq, hcs] at hout
  cases hout
  have hwritten : ∀ c ∈ cs, (c.type ≠ type "IEND" ∧ c.v.length ≤ 2 ^ 20) ∧ isIdat c = false := by
    intro c hc
    obtain ⟨ch, hch, hw⟩ := mem_of_mapM hcs c hc
    obtain ⟨c', hw', hlen, -⟩ := storable_written hz (hp ch hch)
    rw [hw] at hw'
    cases hw'
    have ht := written_type hw
    exact ⟨⟨ht ▸ chunks_no_iend hreach ch hch, hlen⟩, decide_eq_false (ht ▸ (hp ch hch).notIdat)⟩
  have hread : Readable (serializedFile z p.ihdr_ cs).cs := by
    rw [serializedFile_cs]
    exact fun c hc => (hwritten c hc).1
  rw [pngMutator_bytes z _ hread, serializedFile_cs, merge_none fun c hc => (hwritten c hc).2, hback]
  rfl

/-- **Of a state of a run without IDAT chunk and with payloads within the limits, the
constructor makes the same state again from what `Serialize` writes.** -/
theorem decode_encode (hz : Encodes z deflate) {sh : Shuffle} {p : PngMutator}
    (h : ReachableAny z sh p) (hp : ∀ ch ∈ p.chunks_, Storable z deflate ch) :
    ∃ out, serialize z p = some out ∧ pngMutator z out = some p := by
  have hsome : (p.chunks_.mapM (written z)).isSome := mapM_isSome.mpr fun ch hch => by
    obtain ⟨c, hw, -⟩ := storable_written hz (hp ch hch)
    rw [hw]
    rfl
  obtain ⟨cs, hcs⟩ := Option.isSome_iff_exists.mp hsome
  have hout : serialize z p = some (serializedFile z p.ihdr_ cs).bytes := by
    rw [serialize_eq, hcs]
    rfl
  exact ⟨_, hout, pngMutator_serialize hz h hp hout⟩

end Encoding

/-- An iCCP chunk that holds a profile of one byte. -/
def starProfile : Chunk := ⟨type "iCCP", [0x78, 0, 0] ++ starStream⟩

theorem starProfile_decode_encode :
    ∃ out, serialize starZlib ⟨Ihdr.zero, [⟨type "iCCP", starContent⟩]⟩ = some out ∧
      pngMutator starZlib out = some ⟨Ihdr.zero, [⟨type "iCCP", starContent⟩]⟩ := by
  have hparsed : Parsed starZlib ⟨Ihdr.zero, [⟨type "iCCP", starContent⟩]⟩ :=
    ⟨(oneChunk starProfile).bytes, by decide +kernel⟩
  have hreach : ReachableAny starZlib idShuffle ⟨Ihdr.zero, [⟨type "iCCP", starContent⟩]⟩ :=
    .init ⟨hparsed, trivial⟩
  refine decode_encode (sampleZlib_encodes rfl) hreach ?_
  intro ch hch
  rw [List.mem_singleton.mp hch]
  exact ⟨by decide, fun h => absurd rfl h, fun _ => ⟨fun h => absurd h (by decide), by decide, by decide⟩⟩

/-! ### What a file keeps -/

/-- A chunk that is neither inflated nor deflated on its way. -/
def isPlain (c : Chunk) : Bool := c.type ≠ type "IDAT" && c.type ≠ type "iCCP"

theorem isPlain_iff {c : Chunk} :
    isPlain c = true ↔ c.type ≠ type "IDAT" ∧ c.type ≠ type "iCCP" := by
  rw [isPlain, Bool.and_eq_true, decide_eq_true_iff, decide_eq_true_iff]

theorem isPlain_notIdat {c : Chunk} (h : isPlain c = true) : isIdat c = false :=
  decide_eq_false (isPlain_iff.mp h).1

theorem isPlain_idat {c : Chunk} (h : isIdat c = true) : isPlain c = false := by
  rw [Bool.eq_false_iff]
  intro hp
  rw [isPlain_notIdat hp] at h
  cases h

/-- Merging leaves the plain chunks alone. -/
theorem merge_filter_isPlain (cs : List Chunk) : (merge cs).filter isPlain = cs.filter isPlain := by
  rcases idat_split cs with hnone | ⟨pre, i, post, rfl, hi, hpre⟩
  · rw [merge_none hnone]
  · have hi' : isIdat {i with v := i.v ++ idatData post} = true := hi
    have hpost : (post.filter (!isIdat ·)).filter isPlain = post.filter isPlain := by
      rw [List.filter_filter]
      apply List.filter_congr
      intro c _
      cases hc : isPlain c with
      | true => rw [isPlain_notIdat hc]; rfl
      | false => rfl
    rw [merge_split hpre hi, List.filter_append, List.filter_append,
      List.filter_cons_of_neg (by simp [isPlain_idat hi']),
      List.filter_cons_of_neg (by simp [isPlain_idat hi]), hpost]

/-- Merging leaves one IDAT chunk, with all IDAT data. -/
theorem merge_filter_isIdat {cs : List Chunk} (h : ∃ c ∈ cs, c.type = type "IDAT") :
    (merge cs).filter isIdat = [⟨type "IDAT", idatData cs⟩] := by
  rcases idat_split cs with hnone | ⟨pre, i, post, rfl, hi, hpre⟩
  · obtain ⟨c, hc, ht⟩ := h
    have := hnone c hc
    rw [(isIdat_iff c).mpr ht] at this
    cases this
  · have hnot {l : List Chunk} (hl : ∀ c ∈ l, isIdat c = false) : l.filter isIdat = [] :=
      List.filter_eq_nil_iff.mpr fun c hc => by simp [hl c hc]
    have hi' : isIdat {i with v := i.v ++ idatData post} = true := hi
    rw [merge_split hpre hi, List.filter_append, hnot hpre, List.filter_cons_of_pos hi',
      hnot (filter_notIdat post), idatData_append, idatData_none hpre, idatData_cons hi,
      ← (isIdat_iff i).mp hi]
    rfl

section Preserving
variable {z : Zlib} {inflate : V → Option V}

/-- What `Serialize` writes for the parsed file is a file again, with the same IHDR, the
same plain chunks, and IDAT data that inflates to `d`. -/
def Preserved (z : Zlib) (inflate : V → Option V) (f : PngFile) (d : V) : Prop :=
  ∃ p out, pngMutator z f.bytes = some p ∧ serialize z p = some out ∧
    ∃ g : PngFile, g.bytes = out ∧ Framed g.cs ∧ g.ihdr = f.ihdr ∧
      inflate (idatData g.cs) = some d ∧ g.cs.filter isPlain = f.cs.filter isPlain

/-- Classes of chunks by type are kept by both directions. -/
theorem isIdat_eq {a b : Chunk} (h : b.type = a.type) : isIdat b = isIdat a := by
  rw [isIdat, isIdat, h]

theorem isPlain_eq {a b : Chunk} (h : b.type = a.type) : isPlain b = isPlain a := by
  rw [isPlain, isPlain, h]

theorem decodeChunk_isPlain {exit : Exit} {c : Chunk} (h : isPlain c = true) :
    decodeChunk z exit c = some c := by
  rw [decodeChunk_notIdat z exit (isPlain_notIdat h), keepChunk, if_neg (isPlain_iff.mp h).2]

/-- A payload the constructor keeps is a loop's result, or it stands in the file as it is. -/
theorem decodeChunk_length {exit : Exit} {c ch : Chunk} (h : decodeChunk z exit c = some ch) :
    ch.v.length < kMaxBuffer ∨ ch = c ∧ (isIdat c = true → exit = .oversized) := by
  unfold decodeChunk at h
  split at h
  · split at h
    · rename_i hexit
      cases h
      exact .inr ⟨rfl, fun _ => hexit⟩
    · obtain ⟨v, hv, rfl⟩ := Option.map_eq_some_iff.mp h
      exact .inl (retry_length hv)
  · rename_i hidat
    have hspec := (keepChunk_spec h).2
    split at hspec
    · exact .inl (retry_length hspec)
    · exact .inr ⟨hspec, fun hc => absurd hc hidat⟩

/-- The IDAT data of a list whose one IDAT chunk is known. -/
theorem idatData_of_filter {cs : List Chunk} {c : Chunk} (h : cs.filter isIdat = [c]) :
    idatData cs = c.v := by
  rw [idatData, h]
  exact List.append_nil c.v

/-- What `Serialize` writes for a parsed file, part by part. -/
theorem written_of_parsed {f : PngFile} (hread : Readable f.cs) {p : PngMutator}
    (hp : pngMutator z f.bytes = some p) :
    ∃ cs, serialize z p = some (serializedFile z f.ihdr cs).bytes ∧ Framed cs ∧
      cs.filter isPlain = f.cs.filter isPlain ∧
      ∀ d, (∃ c ∈ f.cs, c.type = type "IDAT") → uncompress z (idatData f.cs) = some d → idatData cs = d := by
  have hiend := parsed_no_iend ⟨f.bytes, hp⟩
  rw [pngMutator_bytes z f hread] at hp
  obtain ⟨chs, hchs, rfl⟩ := Option.map_eq_some_iff.mp hp
  have hsome : (chs.mapM (written z)).isSome := mapM_isSome.mpr fun ch hch =>
    let ⟨_, _, hdec⟩ := mem_of_mapM hchs ch hch
    written_isSome hdec
  obtain ⟨cs, hcs⟩ := Option.isSome_iff_exists.mp hsome
  refine ⟨cs, by rw [serialize_eq, hcs]; rfl, ?_, ?_, ?_⟩
  · intro c hc
    obtain ⟨ch, hch, hw⟩ := mem_of_mapM hcs c hc
    refine ⟨written_type hw ▸ hiend ch hch, written_length hw ?_⟩
    obtain ⟨c₀, hc₀, hdec⟩ := mem_of_mapM hchs ch hch
    rcases decodeChunk_length hdec with hlt | ⟨rfl, hexit⟩
    · exact Nat.lt_trans hlt (by decide)
    · have hnot : isIdat ch = false := by
        cases hidat : isIdat ch with
        | false => rfl
        | true => cases hexit hidat
      exact Nat.lt_of_le_of_lt (hread ch ((mem_merge_notIdat hnot).mp hc₀)).2 (by decide)
  · rw [filter_mapM (fun _ _ h => isPlain_eq (written_type h))
      (fun _ h => written_other (isPlain_iff.mp h).2) hcs,
      filter_mapM (fun _ _ h => isPlain_eq (decodeChunk_type h)) (fun _ => decodeChunk_isPlain) hchs,
      merge_filter_isPlain]
  · intro d hidat hd
    have hchs' := mapM_filter (fun _ _ h => isIdat_eq (decodeChunk_type h)) hchs
    have hcs' := mapM_filter (fun _ _ h => isIdat_eq (written_type h)) hcs
    have hdec : decodeChunk z .iend ⟨type "IDAT", idatData f.cs⟩ = some ⟨type "IDAT", d⟩ := by
      have hidat' : isIdat ⟨type "IDAT", idatData f.cs⟩ = true := (isIdat_iff _).mpr rfl
      rw [decodeChunk, if_pos hidat', if_neg (by decide), hd]
      rfl
    have hw : written z ⟨type "IDAT", d⟩ = some ⟨type "IDAT", d⟩ := written_other (idat_ne_iccp rfl)
    rw [merge_filter_isIdat hidat] at hchs'
    rw [← Option.some.inj ((mapM_singleton hdec).symm.trans hchs')] at hcs'
    exact idatData_of_filter (Option.some.inj ((mapM_singleton hw).symm.trans hcs')).symm

/-- In a preserved file the IDAT data inflates to itself: it was written inflated. -/
theorem preserved_stream {f : PngFile} (hread : Readable f.cs) (hidat : ∃ c ∈ f.cs, c.type = type "IDAT")
    {d : V} (hd : uncompress z (idatData f.cs) = some d) (h : Preserved z inflate f d) :
    inflate d = some d := by
  obtain ⟨p, out, hp, hout, g, hg, hframed, -, hinflate, -⟩ := h
  obtain ⟨cs, hcs, hframed', -, hdata⟩ := written_of_parsed hread hp
  rw [hcs] at hout
  cases hout
  rw [← serializedFile_cs z f.ihdr cs] at hframed'
  have hsame := (bytes_determine hframed hframed' hg).2
  rw [hsame, serializedFile_cs, hdata d hidat hd] at hinflate
  exact hinflate

/-- **A file with IDAT data that inflates to `d` is preserved exactly if `d` inflates to
itself and the loops on the file's profiles end.** -/
theorem preserved_iff (hz : Decodes z inflate) {f : PngFile} (hread : Readable f.cs)
    (hidat : ∃ c ∈ f.cs, c.type = type "IDAT") {d : V} (hd : inflate (idatData f.cs) = some d)
    {k : Nat} (hroom : d.length ≤ (idatData f.cs).length * 4 * 2 ^ k)
    (hlimit : (idatData f.cs).length * 4 * 2 ^ k < kMaxBuffer) :
    Preserved z inflate f d ↔ inflate d = some d ∧ ProfilesEnd z f.cs := by
  have hu : uncompress z (idatData f.cs) = some d := retry_yields (hz.stream _ _ hd) k hroom hlimit
  constructor
  · intro h
    refine ⟨preserved_stream hread hidat hu h, ?_⟩
    obtain ⟨p, -, hp, -⟩ := h
    exact ((pngMutator_isSome z f hread).mp (by rw [hp]; rfl)).profiles
  · intro h
    obtain ⟨hself, hprofiles⟩ := h
    have hends : LoopsEnd z f.cs := ⟨hprofiles, fun _ => (uncompress_isSome z _).mp (by rw [hu]; rfl)⟩
    obtain ⟨p, hp⟩ := Option.isSome_iff_exists.mp ((pngMutator_isSome z f hread).mpr hends)
    obtain ⟨cs, hcs, hframed, hplain, hdata⟩ := written_of_parsed hread hp
    refine ⟨p, _, hp, hcs, serializedFile z f.ihdr cs, rfl, ?_, rfl, ?_, ?_⟩
    · rw [serializedFile_cs]
      exact hframed
    · rw [serializedFile_cs, hdata d hidat hu]
      exact hself
    · rw [serializedFile_cs]
      exact hplain

end Preserving

theorem starIdat_preserved_iff :
    Preserved starZlib starInflate (oneChunk starIdat) starContent ↔
      starInflate starContent = some starContent ∧ ProfilesEnd starZlib (oneChunk starIdat).cs :=
  preserved_iff zlibOf_decodes (by decide) ⟨starIdat, List.mem_singleton.mpr rfl, rfl⟩ (by decide)
    (k := 0) (by decide) (by decide)

/-- The byte is written where its stream stood. -/
theorem starIdat_not_preserved :
    Encodes starZlib starDeflate ∧ Decodes starZlib starInflate ∧ Readable (oneChunk starIdat).cs ∧
      starInflate (idatData (oneChunk starIdat).cs) = some starContent ∧
      ¬Preserved starZlib starInflate (oneChunk starIdat) starContent := by
  have hread : Readable (oneChunk starIdat).cs := by decide
  refine ⟨sampleZlib_encodes rfl, zlibOf_decodes, hread, by decide, ?_⟩
  intro h
  have hu : uncompress starZlib (idatData (oneChunk starIdat).cs) = some starContent := by
    decide +kernel
  have hself := preserved_stream hread ⟨starIdat, List.mem_singleton.mpr rfl, rfl⟩ hu h
  revert hself
  decide

end FuzzerTestSuite.Png
