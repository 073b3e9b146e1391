import FuzzerTestSuite.Library.Partial
import FuzzerTestSuite.Png.Container
import FuzzerTestSuite.Png.SampleZlib

/-! The parser against a reference decoding.

The reference says what each chunk of a file is to become, with no loop and no
index. On every file of readable chunks the parser computes it, provided its retry
loops end (`parses_reference_iff`). A loop that starts from size zero, as `Compress`
does for a profile that inflates to nothing, ends if zlib does not answer
`Z_BUF_ERROR` to an empty destination: with that of zlib, all files are parsed
(`parses_reference`).

On a stream that is not a file the chunks read are those of `scanBytes`. Whether the
IDAT chunk then holds inflated data depends on how the loop was left
(`idat_inflated_iff`): `return` leaves it deflated. -/
namespace FuzzerTestSuite.Png
open Library Library.Bytes Library.Partial

/-! ### The reference -/

/-- What a merged chunk is decoded to: IDAT data is inflated, an iCCP profile is
inflated after its name, anything else is kept. -/
def Decoded (z : Zlib) (c ch : Chunk) : Prop :=
  ch.type = c.type ∧
    if c.type = type "IDAT" then uncompress z c.v = some ch.v
    else if c.type = type "iCCP" then uncompress z (skipName c.v) = some ch.v
    else ch.v = c.v

/-- Later IDAT chunks removed, the first with all IDAT data, each chunk decoded in its place. -/
def ReferenceDecoding (z : Zlib) (cs chs : List Chunk) : Prop :=
  List.Forall₂ (Decoded z) (merge cs) chs

/-! ### When the retry loops end -/

def UncompressEnds (z : Zlib) (c : V) : Prop := RetryEnds (z.uncompress c) (c.length * 4)

def CompressEnds (z : Zlib) (v : V) : Prop := RetryEnds (z.compress v) v.length

/-- Both loops the constructor runs on an iCCP chunk end. -/
structure ProfileEnds (z : Zlib) (c : Chunk) : Prop where
  uncompress : UncompressEnds z (skipName c.v)
  compress : ∀ v, Png.uncompress z (skipName c.v) = some v → CompressEnds z v

def ProfilesEnd (z : Zlib) (cs : List Chunk) : Prop := ∀ c ∈ cs, c.type = type "iCCP" → ProfileEnds z c

/-- All loops the constructor runs on a list of chunks end. -/
structure LoopsEnd (z : Zlib) (cs : List Chunk) : Prop where
  profiles : ProfilesEnd z cs
  idat : (∃ c ∈ cs, c.type = type "IDAT") → UncompressEnds z (idatData cs)

/-- All loops the constructor runs on them if its chunk loop is left in a given way: `return`
skips the last. -/
structure LoopsEndBy (z : Zlib) (exit : Exit) (cs : List Chunk) : Prop where
  profiles : ProfilesEnd z cs
  idat : exit ≠ .oversized → (∃ c ∈ cs, c.type = type "IDAT") → UncompressEnds z (idatData cs)

theorem loopsEndBy_iff (z : Zlib) {exit : Exit} (hexit : exit ≠ .oversized) (cs : List Chunk) :
    LoopsEndBy z exit cs ↔ LoopsEnd z cs :=
  ⟨fun h => ⟨h.profiles, h.idat hexit⟩, fun h => ⟨h.profiles, fun _ => h.idat⟩⟩

theorem uncompress_isSome (z : Zlib) (c : V) : (uncompress z c).isSome ↔ UncompressEnds z c :=
  retry_isSome_iff _

theorem compress_isSome (z : Zlib) (v : V) : (compress z v).isSome ↔ CompressEnds z v :=
  retry_isSome_iff _

section RefusesEmpty
variable {z : Zlib}

theorem RefusesEmpty.compressEnds (h : RefusesEmpty z) (v : V) : CompressEnds z v := by
  cases v with
  | nil => exact .inr h.compress
  | cons b v => exact .inl (Nat.zero_lt_succ _)

theorem RefusesEmpty.uncompressEnds (h : RefusesEmpty z) (c : V) : UncompressEnds z c := by
  cases c with
  | nil => exact .inr h.uncompress
  | cons b c => exact .inl (Nat.mul_pos (Nat.zero_lt_succ _) (by decide))

theorem RefusesEmpty.loopsEndBy (h : RefusesEmpty z) (exit : Exit) (cs : List Chunk) :
    LoopsEndBy z exit cs where
  profiles _ _ _ := ⟨h.uncompressEnds _, fun v _ => h.compressEnds v⟩
  idat _ _ := h.uncompressEnds _

/-- Nothing is made of nothing, in both directions. -/
theorem RefusesEmpty.compress_nil (h : RefusesEmpty z) : Png.compress z [] = some [] := retry_zero h.compress

theorem RefusesEmpty.uncompress_nil (h : RefusesEmpty z) : Png.uncompress z [] = some [] :=
  retry_zero h.uncompress

end RefusesEmpty

theorem isIdat_iff (c : Chunk) : isIdat c = true ↔ c.type = type "IDAT" := decide_eq_true_iff

theorem idat_ne_iccp {c : Chunk} (h : c.type = type "IDAT") : c.type ≠ type "iCCP" := by
  rw [h]
  decide

theorem isIdat_iccp {c : Chunk} (h : c.type = type "iCCP") : isIdat c = false := by
  rw [isIdat, h]
  decide

/-! ### One chunk -/

section Chunks
variable {z : Zlib}

theorem keepChunk_isSome (c : Chunk) :
    (keepChunk z c).isSome ↔ (c.type = type "iCCP" → ProfileEnds z c) := by
  unfold keepChunk
  split
  · rename_i ht
    constructor
    · intro h _
      cases hu : uncompress z (skipName c.v) with
      | none => rw [hu] at h; cases h
      | some v =>
        refine ⟨(uncompress_isSome z _).mp (by rw [hu]; rfl), fun w hw => ?_⟩
        rw [hu] at hw
        cases hw
        apply (compress_isSome z v).mp
        cases hc : compress z v with
        | none => simp [hu, hc] at h
        | some e => rfl
    · intro h
      obtain ⟨hu, hc⟩ := h ht
      obtain ⟨v, hv⟩ := Option.isSome_iff_exists.mp ((uncompress_isSome z _).mpr hu)
      obtain ⟨e, he⟩ := Option.isSome_iff_exists.mp ((compress_isSome z v).mpr (hc v hv))
      simp [hv, he]
  · rename_i ht
    exact ⟨fun _ h => absurd h ht, fun _ => rfl⟩

theorem keepChunk_spec {c ch : Chunk} (h : keepChunk z c = some ch) :
    ch.type = c.type ∧
      if c.type = type "iCCP" then uncompress z (skipName c.v) = some ch.v else ch = c := by
  unfold keepChunk at h
  split at h
  · rename_i ht
    rw [if_pos ht]
    cases hu : uncompress z (skipName c.v) with
    | none => rw [hu] at h; cases h
    | some v =>
      cases hc : compress z v with
      | none => simp [hu, hc] at h
      | some e =>
        simp only [hu, hc, Option.bind_eq_bind, Option.bind_some, Option.some.injEq] at h
        subst h
        exact ⟨rfl, rfl⟩
  · rename_i ht
    rw [if_neg ht]
    cases h
    exact ⟨rfl, rfl⟩

theorem decodeChunk_type {exit : Exit} {c ch : Chunk} (h : decodeChunk z exit c = some ch) :
    ch.type = c.type := by
  unfold decodeChunk at h
  split at h
  · split at h
    · cases h
      rfl
    · obtain ⟨v, -, rfl⟩ := Option.map_eq_some_iff.mp h
      rfl
  · exact (keepChunk_spec h).1

/-- A profile kept is the inflated one, and the constructor has deflated it again. -/
theorem decodeChunk_iccp {exit : Exit} {c ch : Chunk} (h : decodeChunk z exit c = some ch)
    (ht : ch.type = type "iCCP") :
    uncompress z (skipName c.v) = some ch.v ∧ (compress z ch.v).isSome := by
  have htc : c.type = type "iCCP" := (decodeChunk_type h).symm.trans ht
  rw [decodeChunk_notIdat z exit (isIdat_iccp htc)] at h
  have hends := (keepChunk_isSome c).mp (by rw [h]; rfl) htc
  have hspec := (keepChunk_spec h).2
  rw [if_pos htc] at hspec
  exact ⟨hspec, (compress_isSome z ch.v).mpr (hends.compress _ hspec)⟩

/-- Unless the loop was left by `return`, a chunk is decoded as the reference says. -/
theorem decodeChunk_decoded {exit : Exit} (hexit : exit ≠ .oversized) {c ch : Chunk}
    (h : decodeChunk z exit c = some ch) : Decoded z c ch := by
  refine ⟨decodeChunk_type h, ?_⟩
  unfold decodeChunk at h
  split at h
  · rename_i hidat
    rw [if_pos ((isIdat_iff c).mp hidat)]
    obtain ⟨v, hv, rfl⟩ := Option.map_eq_some_iff.mp h
    exact hv
  · rename_i hidat
    rw [if_neg (by rwa [isIdat_iff] at hidat)]
    obtain ⟨-, hspec⟩ := keepChunk_spec h
    split at hspec
    · rename_i ht
      rw [if_pos ht]
      exact hspec
    · rename_i ht
      rw [if_neg ht, hspec]

theorem decodeChunk_isSome (exit : Exit) (c : Chunk) :
    (decodeChunk z exit c).isSome ↔
      (exit ≠ .oversized → c.type = type "IDAT" → UncompressEnds z c.v) ∧
        (c.type = type "iCCP" → ProfileEnds z c) := by
  unfold decodeChunk
  split
  · rename_i hidat
    have ht := (isIdat_iff c).mp hidat
    have hprofile : c.type = type "iCCP" → ProfileEnds z c := fun hc => absurd hc (idat_ne_iccp ht)
    split
    · rename_i hexit
      exact ⟨fun _ => ⟨fun hne => absurd hexit hne, hprofile⟩, fun _ => rfl⟩
    · rename_i hexit
      rw [Option.isSome_map, uncompress_isSome]
      exact ⟨fun h => ⟨fun _ _ => h, hprofile⟩, fun h => h.1 hexit ht⟩
  · rename_i hidat
    have ht : c.type ≠ type "IDAT" := by rwa [isIdat_iff] at hidat
    rw [keepChunk_isSome]
    exact ⟨fun h => ⟨fun _ hc => absurd hc ht, h⟩, fun h => h.2⟩

end Chunks

/-! ### The merged list -/

/-- A merged chunk other than IDAT is a chunk of the list, and the other way round. -/
theorem mem_merge_notIdat {cs : List Chunk} {c : Chunk} (hc : isIdat c = false) :
    c ∈ merge cs ↔ c ∈ cs := by
  rcases idat_split cs with hnone | ⟨pre, i, post, rfl, hi, hpre⟩
  · rw [merge_none hnone]
  · have hne : c ≠ i := by
      intro he
      rw [he, hi] at hc
      cases hc
    have hne' : c ≠ {i with v := i.v ++ idatData post} := by
      intro he
      have hi' : isIdat {i with v := i.v ++ idatData post} = true := hi
      rw [← he, hc] at hi'
      cases hi'
    rw [merge_split hpre hi]
    simp only [List.mem_append, List.mem_cons, hne, hne', false_or, List.mem_filter, hc, Bool.not_false,
      and_true]

/-- The merged IDAT chunk, if there is one, holds all IDAT data. -/
theorem mem_merge_idat {cs : List Chunk} {c : Chunk} (hc : isIdat c = true) (hmem : c ∈ merge cs) :
    c.v = idatData cs ∧ ∃ i ∈ cs, isIdat i = true := by
  rcases idat_split cs with hnone | ⟨pre, i, post, rfl, hi, hpre⟩
  · rw [merge_none hnone] at hmem
    rw [hnone c hmem] at hc
    cases hc
  · have hdata : idatData (pre ++ i :: post) = i.v ++ idatData post := by
      rw [idatData_append, idatData_none hpre, idatData_cons hi, List.nil_append]
    refine ⟨?_, i, List.mem_append_right pre (List.mem_cons_self ..), hi⟩
    rw [merge_split hpre hi] at hmem
    rw [hdata]
    rcases List.mem_append.mp hmem with hp | hp
    · rw [hpre c hp] at hc
      cases hc
    · rcases List.mem_cons.mp hp with rfl | hp
      · rfl
      · rw [filter_notIdat post c hp] at hc
        cases hc

theorem exists_merge_idat {cs : List Chunk} (h : ∃ c ∈ cs, isIdat c = true) :
    ∃ c ∈ merge cs, isIdat c = true := by
  rcases idat_split cs with hnone | ⟨pre, i, post, rfl, hi, hpre⟩
  · obtain ⟨c, hc, hidat⟩ := h
    rw [hnone c hc] at hidat
    cases hidat
  · rw [merge_split hpre hi]
    exact ⟨_, List.mem_append_right pre (List.mem_cons_self ..), hi⟩

/-- The parser returns from a list of chunks exactly if its loops end. -/
theorem mapM_decodeChunk_isSome (z : Zlib) (exit : Exit) (cs : List Chunk) :
    ((merge cs).mapM (decodeChunk z exit)).isSome ↔ LoopsEndBy z exit cs := by
  rw [mapM_isSome]
  constructor
  · intro h
    refine ⟨fun c hc ht => ?_, fun hexit hidat => ?_⟩
    · have hmem := (mem_merge_notIdat (isIdat_iccp ht)).mpr hc
      exact ((decodeChunk_isSome exit c).mp (h c hmem)).2 ht
    · obtain ⟨c, hc, ht⟩ := hidat
      obtain ⟨i, hi, hidat⟩ := exists_merge_idat ⟨c, hc, (isIdat_iff c).mpr ht⟩
      rw [← (mem_merge_idat hidat hi).1]
      exact ((decodeChunk_isSome exit i).mp (h i hi)).1 hexit ((isIdat_iff i).mp hidat)
  · intro h c hc
    rw [decodeChunk_isSome]
    constructor
    · intro hexit ht
      have hidat := (isIdat_iff c).mpr ht
      obtain ⟨hv, i, hi, hidat'⟩ := mem_merge_idat hidat hc
      rw [hv]
      exact h.idat hexit ⟨i, hi, (isIdat_iff i).mp hidat'⟩
    · intro ht
      exact h.profiles c ((mem_merge_notIdat (isIdat_iccp ht)).mp hc) ht

/-! ### Files -/

/-- The constructor returns on the file, with its IHDR and the reference decoding of its chunks. -/
def ParsesReference (z : Zlib) (f : PngFile) : Prop :=
  ∃ p, pngMutator z f.bytes = some p ∧ p.ihdr_ = f.ihdr ∧ ReferenceDecoding z f.cs p.chunks_

theorem pngMutator_isSome (z : Zlib) (f : PngFile) (h : Readable f.cs) :
    (pngMutator z f.bytes).isSome ↔ LoopsEnd z f.cs := by
  rw [pngMutator_bytes z f h, Option.isSome_map, mapM_decodeChunk_isSome, loopsEndBy_iff z (by decide)]

/-- Whenever the constructor returns on a file, it returns the reference decoding. -/
theorem pngMutator_reference {z : Zlib} {f : PngFile} (h : Readable f.cs) {p : PngMutator}
    (hp : pngMutator z f.bytes = some p) : p.ihdr_ = f.ihdr ∧ ReferenceDecoding z f.cs p.chunks_ := by
  rw [pngMutator_bytes z f h] at hp
  obtain ⟨chs, hchs, rfl⟩ := Option.map_eq_some_iff.mp hp
  exact ⟨rfl, (mapM_eq_some.mp hchs).imp fun _ _ => decodeChunk_decoded (by decide)⟩

/-- **On a file of readable chunks the constructor returns the reference decoding
exactly if its retry loops end.** -/
theorem parses_reference_iff (z : Zlib) (f : PngFile) (h : Readable f.cs) :
    ParsesReference z f ↔ LoopsEnd z f.cs := by
  constructor
  · intro h'
    obtain ⟨p, hp, -⟩ := h'
    exact (pngMutator_isSome z f h).mp (by rw [hp]; rfl)
  · intro hends
    obtain ⟨p, hp⟩ := Option.isSome_iff_exists.mp ((pngMutator_isSome z f h).mpr hends)
    exact ⟨p, hp, pngMutator_reference h hp⟩

/-- **With a zlib that asks for no room where there is nothing, the constructor returns the
reference decoding of every file of readable chunks.** -/
theorem parses_reference {z : Zlib} (hempty : RefusesEmpty z) (f : PngFile) (h : Readable f.cs) :
    ParsesReference z f := by
  rw [parses_reference_iff z f h, ← loopsEndBy_iff z (by decide : Exit.iend ≠ .oversized)]
  exact hempty.loopsEndBy .iend f.cs

/-- A file with one chunk. -/
def oneChunk (c : Chunk) : PngFile where
  magic := header
  magic_size := header_length
  ihdr := Ihdr.zero
  ihdrCrc := chunkCrc ⟨type "IHDR", Ihdr.zero.1⟩
  chunks := [⟨c, chunkCrc c⟩]
  iendLen := 0
  tail := beBytes (chunkCrc ⟨type "IEND", []⟩)

/-- An IDAT chunk that holds a stream of one byte. -/
def starIdat : Chunk := ⟨type "IDAT", starStream⟩

/-- An iCCP chunk with a name and no profile. -/
def emptyProfile : Chunk := ⟨type "iCCP", [0x78, 0, 0]⟩

/-- `Uncompress` of no bytes is empty, and so is what `Compress` makes of that. -/
theorem emptyProfile_parses :
    pngMutator starZlib (oneChunk emptyProfile).bytes = some ⟨Ihdr.zero, [⟨type "iCCP", []⟩]⟩ ∧
      ParsesReference starZlib (oneChunk emptyProfile) :=
  ⟨by decide +kernel, parses_reference starZlib_refusesEmpty (oneChunk emptyProfile) (by decide)⟩

/-! ### Streams -/

/-- The chunks the constructor reads of a stream, and how its loop is left; no chunks
where the header stops it. -/
def scanBytes (bytes : V) : Exit × List Chunk :=
  match readHeader ⟨bytes, false⟩ with
  | none => (.endOfStream, [])
  | some (_, s) => scan s

/-- Whatever the stream, the constructor returns exactly if its loops on the chunks read end. -/
theorem pngMutator_isSome_iff (z : Zlib) (bytes : V) :
    (pngMutator z bytes).isSome ↔ LoopsEndBy z (scanBytes bytes).1 (scanBytes bytes).2 := by
  rw [← mapM_decodeChunk_isSome, pngMutator_eq]
  unfold scanBytes
  cases readHeader ⟨bytes, false⟩ with
  | none => exact ⟨fun _ => rfl, fun _ => rfl⟩
  | some r => rw [Option.isSome_map]

/-- With such a zlib, the constructor returns on every stream. -/
theorem RefusesEmpty.pngMutator_isSome {z : Zlib} (h : RefusesEmpty z) (bytes : V) :
    (pngMutator z bytes).isSome :=
  (pngMutator_isSome_iff z bytes).mpr (h.loopsEndBy _ _)

/-- Whatever the stream, the chunks kept are those read, merged and decoded. -/
theorem pngMutator_chunks {z : Zlib} {bytes : V} {p : PngMutator} (h : pngMutator z bytes = some p) :
    (merge (scanBytes bytes).2).mapM (decodeChunk z (scanBytes bytes).1) = some p.chunks_ := by
  rw [pngMutator_eq] at h
  unfold scanBytes
  cases hr : readHeader ⟨bytes, false⟩ with
  | none =>
    rw [hr] at h
    cases h
    rfl
  | some r =>
    rw [hr] at h
    obtain ⟨chs, hchs, rfl⟩ := Option.map_eq_some_iff.mp h
    exact hchs

/-- Every IDAT chunk kept holds the inflated concatenation of the IDAT payloads read. -/
def IdatInflated (z : Zlib) (bytes : V) (p : PngMutator) : Prop :=
  ∀ ch ∈ p.chunks_, ch.type = type "IDAT" → uncompress z (idatData (scanBytes bytes).2) = some ch.v

/-- **The IDAT data is inflated exactly if the loop was not left by `return`, or had read
no IDAT by then, or had read data that inflates to itself.** -/
theorem idat_inflated_iff {z : Zlib} {bytes : V} {p : PngMutator} (h : pngMutator z bytes = some p) :
    IdatInflated z bytes p ↔
      ((scanBytes bytes).1 = .oversized → (∃ c ∈ (scanBytes bytes).2, c.type = type "IDAT") →
        uncompress z (idatData (scanBytes bytes).2) = some (idatData (scanBytes bytes).2)) := by
  have hchunks := pngMutator_chunks h
  constructor
  · intro hinfl hexit hidat
    obtain ⟨c, hc, ht⟩ := hidat
    obtain ⟨i, hi, hidat⟩ := exists_merge_idat ⟨c, hc, (isIdat_iff c).mpr ht⟩
    obtain ⟨ch, hch, hdec⟩ := mem_mapM hchunks i hi
    rw [decodeChunk, if_pos hidat, if_pos hexit] at hdec
    cases hdec
    have := hinfl i hch ((isIdat_iff i).mp hidat)
    rw [(mem_merge_idat hidat hi).1] at this
    exact this
  · intro hcond ch hch ht
    obtain ⟨i, hi, hdec⟩ := mem_of_mapM hchunks ch hch
    have hidat : isIdat i = true := (isIdat_iff i).mpr ((decodeChunk_type hdec).symm.trans ht)
    obtain ⟨hv, c, hc, hidat'⟩ := mem_merge_idat hidat hi
    rw [decodeChunk, if_pos hidat, hv] at hdec
    split at hdec
    · rename_i hexit
      cases hdec
      rw [hv]
      exact hcond hexit ⟨c, hc, (isIdat_iff c).mp hidat'⟩
    · obtain ⟨v, hu, rfl⟩ := Option.map_eq_some_iff.mp hdec
      exact hu

/-- A stream whose second chunk claims more than the limit. -/
def oversizedAfterIdat : V :=
  header ++ (FileChunk.mk ⟨type "IHDR", Ihdr.zero.1⟩ 0).bytes ++ (FileChunk.mk starIdat 0).bytes ++
    beBytes 0x00100001 ++ wordBytes (type "tEXt")

theorem oversizedAfterIdat_parses :
    pngMutator starZlib oversizedAfterIdat = some ⟨Ihdr.zero, [starIdat]⟩ ∧
      (IdatInflated starZlib oversizedAfterIdat ⟨Ihdr.zero, [starIdat]⟩ ↔
        ((scanBytes oversizedAfterIdat).1 = .oversized →
          (∃ c ∈ (scanBytes oversizedAfterIdat).2, c.type = type "IDAT") →
          uncompress starZlib (idatData (scanBytes oversizedAfterIdat).2) =
            some (idatData (scanBytes oversizedAfterIdat).2))) :=
  have h : pngMutator starZlib oversizedAfterIdat = some ⟨Ihdr.zero, [starIdat]⟩ := by decide +kernel
  ⟨h, idat_inflated_iff h⟩

/-- The constructor returns, and its IDAT chunk holds the stream, not the byte. -/
theorem oversizedAfterIdat_deflated :
    ∃ p, pngMutator starZlib oversizedAfterIdat = some p ∧ ¬IdatInflated starZlib oversizedAfterIdat p := by
  refine ⟨⟨Ihdr.zero, [starIdat]⟩, by decide +kernel, ?_⟩
  intro h
  have hinfl := h starIdat (List.mem_cons_self ..) rfl
  have hstar : uncompress starZlib (idatData (scanBytes oversizedAfterIdat).2) = some starContent := by
    decide +kernel
  rw [hstar] at hinfl
  exact absurd hinfl (by decide)

end FuzzerTestSuite.Png
