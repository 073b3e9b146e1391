import FuzzerTestSuite.Png.RoundTrip

/-! Which color profiles the constructor finds.

An iCCP chunk starts with a name in Latin-1. The constructor skips what `isprint`
accepts of it, which in the C locale is ASCII: it stops at the first byte above, and
hands zlib the rest of the name in place of a stream. The profile is found exactly
if the name is ASCII and the reader gets to the chunk (`profile_decoded_iff`); under
another name an empty one is left in its place (`latin_profile_lost`). -/
namespace FuzzerTestSuite.Png
open Library Library.Bytes Library.Partial Library.WhileLoop

/-! ### Names -/

/-- The bytes a keyword may have: the printable ones of Latin-1. -/
def KeywordByte (b : UInt8) : Prop := 32 ≤ b ∧ b ≤ 126 ∨ 161 ≤ b

/-- An iCCP chunk: a name, its end, the compression method, and the profile as a stream. -/
def iccpChunk (name stream : V) : Chunk := ⟨type "iCCP", name ++ [0, 0] ++ stream⟩

theorem isprint_keyword {b : UInt8} (h : KeywordByte b) : isprint b = true ↔ b ≤ 126 := by
  rw [isprint, Bool.and_eq_true, decide_eq_true_iff, decide_eq_true_iff]
  refine ⟨fun h => h.2, fun hle => ⟨?_, hle⟩⟩
  rcases h with ⟨hlow, -⟩ | hhigh
  · exact hlow
  · exact absurd (UInt8.le_trans hhigh hle) (by decide)

theorem skipZero_ne {b : UInt8} (h : b ≠ 0) (v : V) : skipZero (b :: v) = b :: v := by
  unfold skipZero
  split
  · rename_i heq
    exact absurd (List.cons.inj heq).1 h
  · rfl

/-- Of a name with a byte above ASCII something is left, and the zeros after it. -/
theorem skipName_latin {name : V} (hname : ∀ b ∈ name, KeywordByte b) (hhigh : ¬∀ b ∈ name, b ≤ 126)
    (stream : V) : ∃ b v, skipName (name ++ [0, 0] ++ stream) = b :: v ∧ 161 ≤ b ∧ v ≠ [] := by
  suffices ∃ b v, (name ++ ([0, 0] ++ stream)).dropWhile isprint = b :: v ∧ 161 ≤ b ∧ v ≠ [] by
    obtain ⟨b, v, hdrop, hb, hv⟩ := this
    have hzero : b ≠ 0 := by
      intro h
      rw [h] at hb
      exact absurd hb (by decide)
    refine ⟨b, v, ?_, hb, hv⟩
    rw [skipName, List.append_assoc, hdrop, skipZero_ne hzero, skipZero_ne hzero]
  induction name with
  | nil => exact absurd (fun b hb => by cases hb) hhigh
  | cons b name ih =>
    obtain ⟨hb, hrest⟩ := List.forall_mem_cons.mp hname
    by_cases hascii : b ≤ 126
    · have hhigh' : ¬∀ b ∈ name, b ≤ 126 := fun h => hhigh (List.forall_mem_cons.mpr ⟨hascii, h⟩)
      obtain ⟨b', v, hdrop, hb'⟩ := ih hrest hhigh'
      refine ⟨b', v, ?_, hb'⟩
      rw [List.cons_append, List.dropWhile_cons_of_pos ((isprint_keyword hb).mpr hascii), hdrop]
    · refine ⟨b, name ++ ([0, 0] ++ stream), ?_, ?_, by simp⟩
      · rw [List.cons_append, List.dropWhile_cons_of_neg (mt (isprint_keyword hb).mp hascii)]
      · exact hb.resolve_left fun h => hascii h.2

theorem skipName_length_le (v : V) : (skipName v).length ≤ v.length := by
  have hzero (v : V) : (skipZero v).length ≤ v.length := by
    unfold skipZero
    split
    · exact Nat.le_succ _
    · exact Nat.le_refl _
  exact Nat.le_trans (hzero _) (Nat.le_trans (hzero _) (List.dropWhile_suffix _).length_le)

/-! ### One chunk -/

/-- zlib answers neither `Z_OK` nor `Z_BUF_ERROR` to a source whose first byte is not that of a
stream: it names another method, or a window too large. -/
def RejectsHeader (z : Zlib) : Prop :=
  ∀ b v, 0x78 < b → v ≠ [] → ∀ dest, dest ≠ [] → ((z.uncompress (b :: v)).run dest).res = .error

section Chunks
variable {z : Zlib} {deflate : V → V} {name p : V}

/-- A profile under an ASCII name is inflated. -/
theorem keepChunk_ascii (hz : Encodes z deflate) (hname : ∀ b ∈ name, KeywordByte b)
    (hascii : ∀ b ∈ name, b ≤ 126) (hp : p ≠ []) {k : Nat}
    (hroom : p.length ≤ (deflate p).length * 4 * 2 ^ k) (hlimit : (deflate p).length * 4 * 2 ^ k < kMaxBuffer) :
    keepChunk z (iccpChunk name (deflate p)) = some ⟨type "iCCP", p⟩ := by
  have hskip : skipName (name ++ [0, 0] ++ deflate p) = deflate p :=
    skipName_printable (fun b hb => (isprint_keyword (hname b hb)).mpr (hascii b hb)) _
  have hu : uncompress z (deflate p) = some p := retry_yields (hz.uncompress p) k hroom hlimit
  have hc : (compress z p).isSome := retry_pos (List.length_pos_of_ne_nil hp)
  obtain ⟨e, he⟩ := Option.isSome_iff_exists.mp hc
  simp only [keepChunk, iccpChunk, if_true, hskip, hu, he, Option.bind_eq_bind, Option.bind_some]

/-- Under any other name `Uncompress` fails, and an empty profile is left. -/
theorem keepChunk_latin (hempty : RefusesEmpty z) (hheader : RejectsHeader z)
    (hname : ∀ b ∈ name, KeywordByte b) (hhigh : ¬∀ b ∈ name, b ≤ 126) {stream : V}
    (hlen : (iccpChunk name stream).v.length ≤ 2 ^ 20) :
    keepChunk z (iccpChunk name stream) = some ⟨type "iCCP", []⟩ := by
  obtain ⟨b, v, hskip, hb, hv⟩ := skipName_latin hname hhigh stream
  have hstart : (skipName (name ++ [0, 0] ++ stream)).length ≤ 2 ^ 20 :=
    Nat.le_trans (skipName_length_le _) hlen
  have hdest : resize [] ((b :: v).length * 4) ≠ [] := resize_ne_nil [] (by simp)
  have hhead : 0x78 < b := UInt8.lt_of_lt_of_le (by decide) hb
  rw [hskip] at hstart
  have hu : uncompress z (b :: v) = some [] :=
    run_done (retryPass_error (by unfold kMaxBuffer; omega) (hheader b v hhead hv _ hdest)) _
  simp only [keepChunk, iccpChunk, if_true, hskip, hu, hempty.compress_nil, Option.bind_eq_bind,
    Option.bind_some]

end Chunks

/-! ### One chunk among others -/

section Reading
variable {f : PngFile} {pre post : List FileChunk} {c : FileChunk}

/-- The reader gets to a chunk by chunks within the limit. -/
theorem scanBytes_reaches (hf : f.chunks = pre ++ c :: post)
    (hread : Readable ((pre ++ [c]).map (·.chunk))) :
    ∃ cs, (scanBytes f.bytes).2 = pre.map (·.chunk) ++ c.chunk :: cs := by
  have hsplit : pre ++ c :: post = (pre ++ [c]) ++ post := by rw [List.append_assoc, List.singleton_append]
  rw [scanBytes_bytes, PngFile.body, hf, hsplit, List.flatMap_append, List.append_assoc, scan_readable hread,
    List.map_append, List.append_assoc]
  exact ⟨_, rfl⟩

/-- A chunk over the limit ends the reading, at the latest with the chunk itself. -/
theorem scanBytes_stops (hframed : Framed f.cs) (hf : f.chunks = pre ++ c :: post)
    (hnot : ¬Readable ((pre ++ [c]).map (·.chunk))) :
    ∃ rest, pre.map (·.chunk) = (scanBytes f.bytes).2 ++ rest := by
  have hsplit : pre ++ c :: post = (pre ++ [c]) ++ post := by rw [List.append_assoc, List.singleton_append]
  rw [PngFile.cs, hf, hsplit] at hframed
  have hstart : Framed ((pre ++ [c]).map (·.chunk)) := by
    intro d hd
    apply hframed
    rw [List.map_append]
    exact List.mem_append_left _ hd
  rcases readable_split hstart with hread | ⟨a, big, b, hab, ha, hbig⟩
  · exact absurd hread hnot
  · have hlen : a.length ≤ pre.length := by
      have := congrArg List.length hab
      simp only [List.length_append, List.length_cons, List.length_nil] at this
      omega
    have htake : pre.take a.length = a := by
      have := congrArg (List.take a.length) hab
      rwa [List.take_append_of_le_length hlen, List.take_left' rfl] at this
    rw [hab, List.append_assoc, List.cons_append] at hframed
    refine ⟨(pre.drop a.length).map (·.chunk), ?_⟩
    rw [scanBytes_bytes, PngFile.body, hf, hsplit, hab, List.append_assoc, List.cons_append,
      scan_oversized hframed ha hbig, ← List.map_append]
    conv => lhs; rw [← List.take_append_drop a.length pre, htake]

/-- It is kept in its place: after what the chunks before it are merged to. -/
theorem parsed_at {z : Zlib} {q : PngMutator} (hq : pngMutator z f.bytes = some q)
    (hf : f.chunks = pre ++ c :: post) (hread : Readable ((pre ++ [c]).map (·.chunk)))
    (hidat : isIdat c.chunk = false) :
    q.chunks_[(merge (pre.map (·.chunk))).length]? = keepChunk z c.chunk := by
  obtain ⟨cs, hcs⟩ := scanBytes_reaches hf hread
  have hplace := merge_getElem? (pre.map (·.chunk)) cs hidat
  rw [← hcs] at hplace
  obtain ⟨ch, hdec, hget⟩ := mapM_getElem? (pngMutator_chunks hq) hplace
  rw [hget, ← hdec, decodeChunk_notIdat z _ hidat]

/-- There is nothing in the place of a chunk that is not read. -/
theorem parsed_at_none {z : Zlib} {q : PngMutator} (hq : pngMutator z f.bytes = some q)
    (hframed : Framed f.cs) (hf : f.chunks = pre ++ c :: post)
    (hnot : ¬Readable ((pre ++ [c]).map (·.chunk))) :
    q.chunks_[(merge (pre.map (·.chunk))).length]? = none := by
  obtain ⟨rest, hrest⟩ := scanBytes_stops hframed hf hnot
  have hlen := (mapM_eq_some.mp (pngMutator_chunks hq)).length_eq
  have hmerge := merge_length_append (scanBytes f.bytes).2 rest
  rw [← hrest] at hmerge
  exact List.getElem?_eq_none (by omega)

end Reading

/-- The constructor returns, and the chunk it leaves at an index is the profile. -/
def ProfileDecoded (z : Zlib) (f : PngFile) (i : Nat) (p : V) : Prop :=
  ∃ q, pngMutator z f.bytes = some q ∧ q.chunks_[i]? = some ⟨type "iCCP", p⟩

section Decoded
variable {z : Zlib} {deflate : V → V} {name p : V} {f : PngFile} {pre post : List FileChunk} {c : FileChunk}

/-- **A profile under a name that is not ASCII is lost**: the chunk left in its place is empty. -/
theorem latin_profile_lost (hempty : RefusesEmpty z) (hheader : RejectsHeader z)
    (hname : ∀ b ∈ name, KeywordByte b) (hhigh : ¬∀ b ∈ name, b ≤ 126) {stream : V}
    (hf : f.chunks = pre ++ c :: post) (hc : c.chunk = iccpChunk name stream)
    (hread : Readable ((pre ++ [c]).map (·.chunk))) :
    ProfileDecoded z f (merge (pre.map (·.chunk))).length [] := by
  have hidat : isIdat c.chunk = false := isIdat_iccp (by rw [hc]; rfl)
  have hlen := (hread c.chunk (by rw [List.map_append]; exact List.mem_append_right _ (.head _))).2
  rw [hc] at hlen
  obtain ⟨q, hq⟩ := Option.isSome_iff_exists.mp (hempty.pngMutator_isSome f.bytes)
  refine ⟨q, hq, (parsed_at hq hf hread hidat).trans ?_⟩
  rw [hc]
  exact keepChunk_latin hempty hheader hname hhigh hlen

/-- **The profile in an iCCP chunk of a file is decoded in its place exactly if its name is
ASCII, and the chunk and those before it are within the reader's limit.** -/
theorem profile_decoded_iff (hz : Encodes z deflate) (hempty : RefusesEmpty z) (hheader : RejectsHeader z)
    (hname : ∀ b ∈ name, KeywordByte b) (hp : p ≠ []) {k : Nat}
    (hroom : p.length ≤ (deflate p).length * 4 * 2 ^ k) (hlimit : (deflate p).length * 4 * 2 ^ k < kMaxBuffer)
    (hframed : Framed f.cs) (hf : f.chunks = pre ++ c :: post) (hc : c.chunk = iccpChunk name (deflate p)) :
    ProfileDecoded z f (merge (pre.map (·.chunk))).length p ↔
      (∀ b ∈ name, b ≤ 126) ∧ Readable ((pre ++ [c]).map (·.chunk)) := by
  constructor
  · intro h
    obtain ⟨q, hq, hget⟩ := h
    have hread : Readable ((pre ++ [c]).map (·.chunk)) := by
      by_contra hnot
      rw [parsed_at_none hq hframed hf hnot] at hget
      cases hget
    refine ⟨?_, hread⟩
    by_contra hhigh
    obtain ⟨q', hq', hget'⟩ := latin_profile_lost hempty hheader hname hhigh hf hc hread
    rw [hq] at hq'
    cases hq'
    rw [hget] at hget'
    exact hp (congrArg Chunk.v (Option.some.inj hget'))
  · intro h
    obtain ⟨hascii, hread⟩ := h
    have hidat : isIdat c.chunk = false := isIdat_iccp (by rw [hc]; rfl)
    have hkeep := keepChunk_ascii hz hname hascii hp hroom hlimit
    rw [← hc] at hkeep
    obtain ⟨q, hq⟩ := Option.isSome_iff_exists.mp (hempty.pngMutator_isSome f.bytes)
    exact ⟨q, hq, (parsed_at hq hf hread hidat).trans hkeep⟩

end Decoded

theorem starZlib_rejectsHeader : RejectsHeader starZlib := by
  intro b v hb _ dest _
  have hnot : ∀ v', stored v' ≠ b :: v := by
    intro v' he
    have hhead : (0x78 : UInt8) = b := congrArg (·.headD 0) he
    rw [← hhead] at hb
    exact absurd hb (by decide)
  have hstream : b :: v ≠ starStream := by
    intro he
    rw [(List.cons.inj he).1] at hb
    exact absurd hb (by decide)
  have hnone : sampleInflate starContent starStream (b :: v) = none := by
    rw [sampleInflate, if_neg hstream, unstored, if_neg (hnot _)]
  simp only [starZlib, sampleZlib, zlibOf, hnone, failingCall]

/-- The name `x`. -/
theorem asciiProfile_decoded_iff :
    ProfileDecoded starZlib (oneChunk (iccpChunk [0x78] starStream)) 0 starContent ↔
      (∀ b ∈ ([0x78] : V), b ≤ 126) ∧ Readable [iccpChunk [0x78] starStream] := by
  have hname : ∀ b ∈ ([0x78] : V), KeywordByte b := by
    intro b hb
    rw [List.mem_singleton.mp hb]
    exact .inl (by decide)
  have hframed : Framed (oneChunk (iccpChunk [0x78] starStream)).cs := by
    intro c hc
    rw [List.mem_singleton.mp hc]
    decide
  have hz : Encodes starZlib starDeflate := sampleZlib_encodes rfl
  have hf : (oneChunk (iccpChunk [0x78] starStream)).chunks =
      [] ++ ⟨iccpChunk [0x78] starStream, chunkCrc (iccpChunk [0x78] starStream)⟩ :: [] := rfl
  exact profile_decoded_iff (p := starContent) hz starZlib_refusesEmpty starZlib_rejectsHeader hname
    (by decide) (k := 0) (by decide) (by decide) hframed hf rfl

/-- The name `é`: the profile left is empty. -/
theorem latinProfile_not_decoded :
    Encodes starZlib starDeflate ∧ RefusesEmpty starZlib ∧ RejectsHeader starZlib ∧
      (∀ b ∈ ([0xe9] : V), KeywordByte b) ∧
      (oneChunk (iccpChunk [0xe9] (starDeflate starContent))).WellFormed ∧
      pngMutator starZlib (oneChunk (iccpChunk [0xe9] (starDeflate starContent))).bytes =
        some ⟨Ihdr.zero, [⟨type "iCCP", []⟩]⟩ ∧
      ¬ProfileDecoded starZlib (oneChunk (iccpChunk [0xe9] (starDeflate starContent))) 0 starContent := by
  have hparse : pngMutator starZlib (oneChunk (iccpChunk [0xe9] (starDeflate starContent))).bytes =
      some ⟨Ihdr.zero, [⟨type "iCCP", []⟩]⟩ := by decide +kernel
  refine ⟨sampleZlib_encodes rfl, starZlib_refusesEmpty, starZlib_rejectsHeader, ?_, ?_, hparse, ?_⟩
  · intro b hb
    rw [List.mem_singleton.mp hb]
    exact .inr (by decide)
  · refine ⟨rfl, rfl, ?_, ?_, rfl, rfl⟩
    · intro c hc
      rw [List.mem_singleton.mp hc]
      decide
    · intro c hc
      rw [List.mem_singleton.mp hc]
  · intro h
    obtain ⟨q, hq, hget⟩ := h
    rw [hparse] at hq
    cases hq
    exact absurd hget (by decide)

end FuzzerTestSuite.Png
