import FuzzerTestSuite.Png.RoundTrip

/-! What the constructor reads of a stream that may end anywhere.

The loop's condition is tested before a chunk is read, and a stream that has just
been read to its end still passes it. Whatever the length fields claim, the loop is
linear in the stream (`parse_linear`): only its last pass can ask for more than is
there. But that last pass makes a chunk of zeros out of a header that is not there,
or only in part (`no_phantom_iff`). -/
namespace FuzzerTestSuite.Png
open Library Library.Bytes Library.WhileLoop Library.Partial

/-! ### The loop's cost -/

/-- What a pass adds to the count of the body's runs. -/
def entered (t : IStream × Parse) : Nat := if t.1.fail then 0 else 1

/-- What it allocates for a payload, before it is inflated. -/
def allocated (t : IStream × Parse) : Nat :=
  if t.1.fail then 0
  else
    match readChunk t.1 with
    | .chunk c _ => c.v.length
    | _ => 0

/-- A cost over the first passes of the chunk loop. The loop is not reached where the
constructor returns before it. -/
def loopCost (z : Zlib) (cost : IStream × Parse → Nat) (passes : Nat) (bytes : V) : Nat :=
  match readHeader ⟨bytes, false⟩ with
  | none => 0
  | some (_, s) => ((trace (chunkPass z) passes (s, ⟨[], none⟩)).map cost).sum

/-- Runs of the body a stream of `n` bytes allows: none without a header, one for every
twelve bytes after it, and one more. -/
def maxRuns (n : Nat) : Nat := if n < 33 then 0 else (n - 33) / 12 + 1

theorem trace_entered (z : Zlib) (n : Nat) (t : IStream × Parse) :
    ((trace (chunkPass z) n t).map entered).sum ≤ t.1.chunkBudget := by
  refine trace_cost entered (fun t => t.1.chunkBudget) ?_ ?_ n t
  · intro t
    unfold entered IStream.chunkBudget
    split <;> omega
  · intro t t' h
    obtain ⟨hf, c, hr⟩ := chunkPass_again h
    have := readChunk_chunkBudget hf hr
    rwa [entered, hf, if_neg Bool.false_ne_true]

theorem trace_allocated (z : Zlib) (n : Nat) (t : IStream × Parse) :
    ((trace (chunkPass z) n t).map allocated).sum ≤ t.1.byteBudget := by
  refine trace_cost allocated (fun t => t.1.byteBudget) ?_ ?_ n t
  · intro t
    unfold allocated IStream.byteBudget
    split
    · exact Nat.le_refl _
    · split
      · rename_i hr
        exact Nat.le_trans (readChunk_chunk hr).2.1 (Nat.le_add_left ..)
      · exact Nat.zero_le _
  · intro t t' h
    obtain ⟨hf, c, hr⟩ := chunkPass_again h
    have := readChunk_byteBudget hf hr
    simp only [allocated, hf, hr, Bool.false_eq_true, if_false]
    exact this

theorem scanBytes_count (bytes : V) : (scanBytes bytes).2.length ≤ maxRuns bytes.length := by
  unfold scanBytes
  split
  · exact Nat.zero_le _
  · rename_i ihdr s hread
    exact Nat.le_trans (scan_count s) (readHeader_takes hread).budgets.1

theorem parsed_count {z : Zlib} {bytes : V} {p : PngMutator} (h : pngMutator z bytes = some p) :
    p.chunks_.length ≤ maxRuns bytes.length := by
  have hlen := (mapM_eq_some.mp (pngMutator_chunks h)).length_eq
  have hmerge := merge_length_le (scanBytes bytes).2
  have hcount := scanBytes_count bytes
  omega

/-- **The chunk loop is linear in the stream**: in the number of its runs and of the chunks
they leave, and in the payload bytes they allocate. -/
theorem parse_linear (z : Zlib) (bytes : V) :
    (∀ passes, loopCost z entered passes bytes ≤ maxRuns bytes.length ∧
      loopCost z allocated passes bytes ≤ bytes.length + 2 ^ 20 - 33) ∧
    ∀ p, pngMutator z bytes = some p → p.chunks_.length ≤ maxRuns bytes.length := by
  refine ⟨fun passes => ?_, fun p => parsed_count⟩
  unfold loopCost
  cases hread : readHeader ⟨bytes, false⟩ with
  | none => exact ⟨Nat.zero_le _, Nat.zero_le _⟩
  | some r =>
    obtain ⟨ihdr, s⟩ := r
    obtain ⟨hcount, hbytes⟩ := (readHeader_takes hread).budgets
    exact ⟨Nat.le_trans (trace_entered z passes _) hcount,
      Nat.le_trans (trace_allocated z passes _) hbytes⟩

/-! ### Headers -/

/-- The length and the type in a stream's first eight bytes, of which there may be fewer. -/
def lengthField (rest : V) : Nat := (bswap32 (word (rest.take 4))).toNat

def typeField (rest : V) : UInt32 := word ((rest.drop 4).take 4)

/-- The chunk these announce, with zeros for what is missing of its payload. -/
def chunkAt (rest : V) : Chunk :=
  ⟨typeField rest, overwrite (List.replicate (lengthField rest) 0) ((rest.drop 8).take (lengthField rest))⟩

/-- Chunks that follow one another from the start of a stream, each with its whole header in it. -/
inductive Present : V → List Chunk → Prop where
  | nil (rest : V) : Present rest []
  | cons {rest : V} {cs : List Chunk} : 8 ≤ rest.length →
      Present (rest.drop (12 + lengthField rest)) cs → Present rest (chunkAt rest :: cs)

theorem chunkAt_length (rest : V) : (chunkAt rest).v.length = lengthField rest := by
  rw [chunkAt, overwrite_length, List.length_replicate]

/-- After the length, the type is read from what is left. -/
theorem read4_type (rest : V) :
    read4 ⟨rest.drop 4, decide (rest.length < 4)⟩ =
      (typeField rest, ⟨rest.drop 8, decide (rest.length < 8)⟩) := by
  by_cases h : rest.length < 4
  · have hnone : rest.drop 4 = [] := List.drop_eq_nil_of_le (by omega)
    have hnone' : rest.drop 8 = [] := List.drop_eq_nil_of_le (by omega)
    rw [decide_eq_true h, decide_eq_true (by omega), read4_fail, typeField, hnone, hnone']
    rfl
  · have hshort : (rest.length - 4 < 4) ↔ rest.length < 8 := by omega
    rw [decide_eq_false h, read4_eq, List.drop_drop, List.length_drop, decide_eq_decide.mpr hshort]
    rfl

/-- What a pass does is decided by the two fields. -/
theorem readChunk_fields (rest : V) :
    ∃ s', readChunk ⟨rest, false⟩ =
      if typeField rest = type "IEND" then .iend
      else if 2 ^ 20 < lengthField rest then .oversized
      else .chunk (chunkAt rest) s' := by
  have hlen : readInteger ⟨rest, false⟩ =
      (bswap32 (word (rest.take 4)), ⟨rest.drop 4, decide (rest.length < 4)⟩) := by
    rw [readInteger, read4_eq]
  have hpayload : (IStream.read ⟨rest.drop 8, decide (rest.length < 8)⟩ (lengthField rest)).1 =
      (rest.drop 8).take (lengthField rest) := by
    by_cases h : rest.length < 8
    · rw [decide_eq_true h, List.drop_eq_nil_of_le (by omega), List.take_nil]
      rfl
    · rw [decide_eq_false h, IStream.read_eq]
  refine ⟨(read4 (IStream.readInto ⟨rest.drop 8, decide (rest.length < 8)⟩
    (List.replicate (lengthField rest) 0)).2).2, ?_⟩
  rw [chunkAt, ← hpayload]
  simp only [readChunk, hlen, read4_type, IStream.readInto, List.length_replicate]
  rfl

/-- The type of a chunk that is not there has no fourth byte. -/
theorem typeField_short {rest : V} (h : rest.length < 8) : (typeField rest).toNat < 2 ^ 24 := by
  have hlen : ((rest.drop 4).take 4).length ≤ 3 := by
    rw [List.length_take, List.length_drop]
    omega
  have hlt := leNat_lt ((rest.drop 4).take 4)
  have hpow : 256 ^ ((rest.drop 4).take 4).length ≤ 256 ^ 3 := Nat.pow_le_pow_right (by decide) hlen
  rw [typeField, word, UInt32.toNat_ofNat']
  exact Nat.lt_of_le_of_lt (Nat.mod_le ..) (by omega)

/-- Such a type is none the constructor knows. -/
theorem typeField_ne {rest : V} (h : rest.length < 8) {tagname : String}
    (htag : 2 ^ 24 ≤ (type tagname).toNat) : typeField rest ≠ type tagname := by
  intro he
  have := typeField_short h
  rw [he] at this
  omega

/-- A chunk that is all there is a chunk of a file. -/
theorem fileChunk_split {rest : V} (h : 12 + lengthField rest ≤ rest.length) :
    ∃ (c : FileChunk) (rest' : V), rest = c.bytes ++ rest' ∧ c.chunk.type = typeField rest ∧
      c.chunk.v.length = lengthField rest ∧ rest' = rest.drop (12 + lengthField rest) := by
  generalize hn : lengthField rest = n at h
  obtain ⟨a, ra, rfl, ha, hra⟩ := exists_append (n := 4) (l := rest) (by omega)
  obtain ⟨b, rb, rfl, hb, hrb⟩ := exists_append (n := 4) (l := ra) (by omega)
  obtain ⟨v, rv, rfl, hv, hrv⟩ := exists_append (n := n) (l := rb) (by omega)
  obtain ⟨d, rest', rfl, hd, -⟩ := exists_append (n := 4) (l := rv) (by omega)
  have hlen : beBytes (UInt32.ofNat n) = a := by
    rw [← hn, lengthField, List.take_left' ha, UInt32.ofNat_toNat, beBytes_bswap32 ha]
  have htype : typeField (a ++ (b ++ (v ++ (d ++ rest')))) = word b := by
    rw [typeField, List.drop_left' ha, List.take_left' hb]
  refine ⟨⟨⟨word b, v⟩, bswap32 (word d)⟩, rest', ?_, htype.symm, hv, ?_⟩
  · rw [FileChunk.bytes_append, hv, hlen, wordBytes_word hb, beBytes_bswap32 hd]
  · have hall : (a ++ (b ++ (v ++ d))).length = 12 + n := by
      simp only [List.length_append]
      omega
    have hdrop : (a ++ (b ++ (v ++ d)) ++ rest').drop (12 + n) = rest' := List.drop_left' hall
    simp only [List.append_assoc] at hdrop
    exact hdrop.symm

/-! ### Phantom chunks -/

/-- Whole chunks the constructor reads one by one, and then the start of a header: fewer than
eight bytes, whose length field, with zeros for what is missing, is within the limit. -/
def CutFrom (rest : V) : Prop :=
  ∃ (cs : List FileChunk) (stub : V), Readable (cs.map (·.chunk)) ∧
    rest = cs.flatMap FileChunk.bytes ++ stub ∧ stub.length < 8 ∧ lengthField stub ≤ 2 ^ 20

/-- A stream with a whole IHDR that ends so. -/
def CutInHeader (bytes : V) : Prop :=
  ∃ (magic : V) (ihdr : Ihdr) (crc : UInt32) (rest : V), magic.length = 8 ∧
    bytes = magic ++ ((FileChunk.mk ⟨type "IHDR", ihdr.1⟩ crc).bytes ++ rest) ∧ CutFrom rest

/-- Every element of `chunks_` stems from a chunk with its whole header in the stream, where the
chunk before it ended: they are those chunks, merged and decoded. -/
def NoPhantom (z : Zlib) (bytes : V) (p : PngMutator) : Prop :=
  ∃ cs exit, Present (bytes.drop 33) cs ∧ (merge cs).mapM (decodeChunk z exit) = some p.chunks_

theorem scan_fail {s : IStream} (h : s.fail = true) : scan s = (.endOfStream, []) := by
  rw [scan_eq, if_pos h]

/-- A terminator, or a length over the limit, ends the reading. -/
theorem scan_stops {rest : V} (h : typeField rest = type "IEND" ∨ 2 ^ 20 < lengthField rest) :
    (scan ⟨rest, false⟩).2 = [] := by
  obtain ⟨s', hread⟩ := readChunk_fields rest
  rw [scan_eq, hread]
  by_cases hend : typeField rest = type "IEND"
  · rw [if_pos hend]
    rfl
  · rw [if_neg hend, if_pos (h.resolve_left hend)]
    rfl

section Announced
variable {rest : V} (htype : typeField rest ≠ type "IEND") (hlen : lengthField rest ≤ 2 ^ 20)
include htype hlen

/-- A chunk that is all there is read, and the reading goes on after it. -/
theorem scan_whole (h : 12 + lengthField rest ≤ rest.length) :
    (scan ⟨rest, false⟩).2 =
      chunkAt rest :: (scan ⟨rest.drop (12 + lengthField rest), false⟩).2 := by
  obtain ⟨s', hread⟩ := readChunk_fields rest
  rw [if_neg htype, if_neg (Nat.not_lt.mpr hlen)] at hread
  obtain ⟨c, rest', hrest, hctype, hclen, hdrop⟩ := fileChunk_split h
  have hbytes := readChunk_bytes c (hctype ▸ htype) (hclen ▸ hlen) rest'
  rw [← hrest, hread, ChunkRead.chunk.injEq] at hbytes
  rw [scan_eq, hread, hbytes.2, hdrop]
  rfl

/-- One that is not is read too, and is the last. -/
theorem scan_short (h : ¬12 + lengthField rest ≤ rest.length) :
    (scan ⟨rest, false⟩).2 = [chunkAt rest] := by
  obtain ⟨s', hread⟩ := readChunk_fields rest
  rw [if_neg htype, if_neg (Nat.not_lt.mpr hlen)] at hread
  have hfail : s'.fail = true := by
    rcases (readChunk_chunk hread).2.2 with hfail | ⟨-, hn, -⟩
    · exact hfail
    · rw [chunkAt_length] at hn
      exact absurd hn h
  rw [scan_eq, hread]
  simp only [Bool.false_eq_true, if_false, scan_fail hfail]

end Announced

/-- What ends in a header still does with a whole chunk before it. -/
theorem CutFrom.cons {c : FileChunk} (hc : Readable [c.chunk]) {rest : V} (h : CutFrom rest) :
    CutFrom (c.bytes ++ rest) := by
  obtain ⟨cs, stub, hcs, rfl, hstub⟩ := h
  refine ⟨c :: cs, stub, ?_, ?_, hstub⟩
  · exact List.forall_mem_cons.mpr ⟨hc c.chunk (.head _), hcs⟩
  · rw [List.flatMap_cons, List.append_assoc]

/-- A stream's chunks are all there, or the stream ends in a header. -/
theorem present_or_cut (rest : V) : Present rest (scan ⟨rest, false⟩).2 ∨ CutFrom rest := by
  induction hn : rest.length using Nat.strong_induction_on generalizing rest with
  | _ n ih =>
    by_cases hstop : typeField rest = type "IEND" ∨ 2 ^ 20 < lengthField rest
    · rw [scan_stops hstop]
      exact .inl (.nil rest)
    rw [not_or, Nat.not_lt] at hstop
    obtain ⟨htype, hlen⟩ := hstop
    by_cases hheader : rest.length < 8
    · exact .inr ⟨[], rest, by decide, rfl, hheader, hlen⟩
    by_cases hfull : 12 + lengthField rest ≤ rest.length
    · have hleft : (rest.drop (12 + lengthField rest)).length < n := by
        rw [List.length_drop]
        omega
      rw [scan_whole htype hlen hfull]
      rcases ih _ hleft _ rfl with hpresent | hcut
      · exact .inl (.cons (Nat.not_lt.mp hheader) hpresent)
      · obtain ⟨c, rest', hrest, hctype, hclen, rfl⟩ := fileChunk_split hfull
        have hc : Readable [c.chunk] :=
          List.forall_mem_singleton.mpr ⟨hctype ▸ htype, hclen ▸ hlen⟩
        right
        rw [hrest]
        exact hcut.cons hc
    · rw [scan_short htype hlen hfull]
      exact .inl (.cons (Nat.not_lt.mp hheader) (.nil _))

/-- Of a stream that ends in a header one chunk more is read than there is. -/
theorem scan_cut {cs : List FileChunk} {stub : V} (hread : Readable (cs.map (·.chunk)))
    (hshort : stub.length < 8) (hlen : lengthField stub ≤ 2 ^ 20) :
    ∃ c, (scan ⟨cs.flatMap FileChunk.bytes ++ stub, false⟩).2 = cs.map (·.chunk) ++ [c] ∧
      isPlain c = true := by
  have hiend : typeField stub ≠ type "IEND" := typeField_ne hshort (by decide)
  have hidat : typeField stub ≠ type "IDAT" := typeField_ne hshort (by decide)
  have hiccp : typeField stub ≠ type "iCCP" := typeField_ne hshort (by decide)
  refine ⟨chunkAt stub, ?_, isPlain_iff.mpr ⟨hidat, hiccp⟩⟩
  rw [scan_readable hread, scan_short hiend hlen (by omega)]

/-- The fields of a whole chunk, and what comes after it. -/
theorem fields_bytes (c : FileChunk) (hlen : c.chunk.v.length < 2 ^ 32) (b : V) :
    lengthField (c.bytes ++ b) = c.chunk.v.length ∧ typeField (c.bytes ++ b) = c.chunk.type ∧
      (c.bytes ++ b).drop (12 + c.chunk.v.length) = b := by
  refine ⟨?_, ?_, ?_⟩
  · have hword : word (beBytes (UInt32.ofNat c.chunk.v.length)) = bswap32 (UInt32.ofNat c.chunk.v.length) := rfl
    rw [FileChunk.bytes_append, lengthField, List.take_left' (beBytes_length _), hword, bswap32_bswap32,
      ofNat_length hlen]
  · rw [FileChunk.bytes_append, typeField, List.drop_left' (beBytes_length _),
      List.take_left' (wordBytes_length _), word_wordBytes]
  · apply List.drop_left'
    simp only [FileChunk.bytes, List.length_append, beBytes_length, wordBytes_length]
    omega

/-- The whole headers of such a stream are those of its whole chunks. -/
theorem present_cut {cs : List FileChunk} {stub : V} (hread : Readable (cs.map (·.chunk)))
    (hshort : stub.length < 8) {cs' : List Chunk}
    (h : Present (cs.flatMap FileChunk.bytes ++ stub) cs') :
    cs'.countP isPlain ≤ (cs.map (·.chunk)).countP isPlain := by
  induction cs generalizing cs' with
  | nil =>
    cases h with
    | nil _ => exact Nat.le_refl _
    | cons hlen _ =>
      rw [List.flatMap_nil, List.nil_append] at hlen
      omega
  | cons c cs ih =>
    obtain ⟨⟨-, hc⟩, hcs⟩ := List.forall_mem_cons.mp hread
    cases h with
    | nil _ => exact Nat.zero_le _
    | cons _ hrest =>
      rw [List.flatMap_cons, List.append_assoc] at hrest ⊢
      generalize hb : cs.flatMap FileChunk.bytes ++ stub = b at hrest ⊢
      obtain ⟨hlen, htype, hdrop⟩ := fields_bytes c (Nat.lt_of_le_of_lt hc (by decide)) b
      rw [hlen, hdrop, ← hb] at hrest
      have hplain : isPlain (chunkAt (c.bytes ++ b)) = isPlain c.chunk := isPlain_eq htype
      have := ih hcs hrest
      rw [List.map_cons, List.countP_cons, List.countP_cons, hplain]
      omega

/-- Merging and decoding keep every plain chunk. -/
theorem decoded_countP {z : Zlib} {exit : Exit} {cs chs : List Chunk}
    (h : (merge cs).mapM (decodeChunk z exit) = some chs) : chs.countP isPlain = cs.countP isPlain := by
  have htypes (l : List Chunk) : l.countP isPlain =
      (l.map (·.type)).countP fun t => t ≠ type "IDAT" && t ≠ type "iCCP" := by
    rw [List.countP_map]
    rfl
  have hkept := mapM_map_eq (fun _ _ => decodeChunk_type) h
  rw [htypes, hkept, ← htypes, List.countP_eq_length_filter, merge_filter_isPlain,
    List.countP_eq_length_filter]

/-- Behind the magic value stands the header of IHDR, or the constructor returns. -/
theorem readHeader_fields {magic rest : V} (hmagic : magic.length = 8) {ihdr : Ihdr} {s : IStream}
    (h : readHeader ⟨magic ++ rest, false⟩ = some (ihdr, s)) :
    lengthField rest = 13 ∧ typeField rest = type "IHDR" := by
  obtain ⟨a, b, rfl, ha, hb⟩ := exists_append (n := 4) (l := magic) (by omega)
  simp only [readHeader, readInteger, List.append_assoc, read4_exact ha,
    read4_exact (by omega : b.length = 4), read4_eq, read4_type] at h
  split at h
  · cases h
  · rename_i hlength
    split at h
    · cases h
    · rename_i htype
      refine ⟨?_, not_not.mp htype⟩
      rw [lengthField, not_not.mp hlength]
      rfl

/-- A header the constructor goes on from has failed, or was all there. -/
theorem readHeader_split {bytes : V} {ihdr : Ihdr} {s : IStream}
    (h : readHeader ⟨bytes, false⟩ = some (ihdr, s)) :
    s.fail = true ∨ s = ⟨bytes.drop 33, false⟩ ∧ ∃ (magic : V) (crc : UInt32), magic.length = 8 ∧
      bytes = magic ++ ((FileChunk.mk ⟨type "IHDR", ihdr.1⟩ crc).bytes ++ s.rest) := by
  by_cases hlen : bytes.length < 33
  · left
    rcases readHeader_takes h with hfail | ⟨-, hn, -⟩
    · exact hfail
    · exact absurd hn (Nat.not_le.mpr hlen)
  · right
    obtain ⟨magic, rest, rfl, hmagic, hrest⟩ := exists_append (n := 8) (l := bytes) (by omega)
    obtain ⟨hlength, htype⟩ := readHeader_fields hmagic h
    obtain ⟨⟨⟨t, v⟩, crc⟩, rest', rfl, ht, hv, -⟩ :=
      fileChunk_split (by omega : 12 + lengthField rest ≤ rest.length)
    dsimp only at ht hv
    rw [hlength] at hv
    rw [htype] at ht
    subst ht
    rw [readHeader_framed hmagic ⟨v, hv⟩ crc rest'] at h
    cases h
    have hall : (magic ++ (FileChunk.mk ⟨type "IHDR", v⟩ crc).bytes).length = 33 := by
      simp only [FileChunk.bytes, List.length_append, beBytes_length, wordBytes_length]
      omega
    have hdrop : (magic ++ (FileChunk.mk ⟨type "IHDR", v⟩ crc).bytes ++ rest').drop 33 = rest' :=
      List.drop_left' hall
    rw [List.append_assoc] at hdrop
    exact ⟨by rw [hdrop], magic, crc, hmagic, rfl⟩

/-- **The constructor makes no phantom chunk exactly if the stream does not end in a header**
whose length field, as far as it goes, is within the limit. -/
theorem no_phantom_iff {z : Zlib} {bytes : V} {p : PngMutator} (h : pngMutator z bytes = some p) :
    NoPhantom z bytes p ↔ ¬CutInHeader bytes := by
  have hdecoded := pngMutator_chunks h
  constructor
  · intro hno hcut
    obtain ⟨cs', _, hpresent, hchunks⟩ := hno
    obtain ⟨magic, ihdr, crc, rest, hmagic, rfl, cs, stub, hread, rfl, hshort, hlen⟩ := hcut
    have hheader := readHeader_framed hmagic ihdr crc (cs.flatMap FileChunk.bytes ++ stub)
    rcases readHeader_split hheader with hfail | ⟨hdrop, -⟩
    · cases hfail
    rw [IStream.mk.injEq, eq_comm] at hdrop
    rw [hdrop.1] at hpresent
    -- one plain chunk more is read than has a header
    obtain ⟨c, hscan, hplain⟩ := scan_cut hread hshort hlen
    have hread' := decoded_countP hdecoded
    rw [scanBytes, hheader] at hread'
    dsimp only at hread'
    rw [hscan, List.countP_append, List.countP_singleton, if_pos hplain] at hread'
    have hthere := decoded_countP hchunks
    have := present_cut hread hshort hpresent
    omega
  · intro hnot
    unfold scanBytes at hdecoded
    cases hheader : readHeader ⟨bytes, false⟩ with
    | none =>
      rw [hheader] at hdecoded
      exact ⟨[], _, .nil _, hdecoded⟩
    | some r =>
      obtain ⟨ihdr, s⟩ := r
      rw [hheader] at hdecoded
      dsimp only at hdecoded
      rcases readHeader_split hheader with hfail | ⟨rfl, magic, crc, hmagic, hbytes⟩
      · rw [scan_fail hfail] at hdecoded
        exact ⟨[], _, .nil _, hdecoded⟩
      · rcases present_or_cut (bytes.drop 33) with hpresent | hcut
        · exact ⟨_, _, hpresent, hdecoded⟩
        · exact absurd ⟨magic, ihdr, crc, _, hmagic, hbytes, hcut⟩ hnot

/-- A whole file. -/
theorem starIdat_no_phantom_iff :
    ∃ p, pngMutator starZlib (oneChunk starIdat).bytes = some p ∧
      (NoPhantom starZlib (oneChunk starIdat).bytes p ↔ ¬CutInHeader (oneChunk starIdat).bytes) :=
  have h : pngMutator starZlib (oneChunk starIdat).bytes =
      some ⟨Ihdr.zero, [⟨type "IDAT", starContent⟩]⟩ := by decide +kernel
  ⟨_, h, no_phantom_iff h⟩

/-- A signature and IHDR, and nothing after its checksum. -/
def headerOnly : V :=
  header ++ (FileChunk.mk ⟨type "IHDR", Ihdr.zero.1⟩ (chunkCrc ⟨type "IHDR", Ihdr.zero.1⟩)).bytes

/-- The constructor makes an empty chunk of type zero. -/
theorem headerOnly_phantom :
    pngMutator starZlib headerOnly = some ⟨Ihdr.zero, [⟨0, []⟩]⟩ ∧
      ¬NoPhantom starZlib headerOnly ⟨Ihdr.zero, [⟨0, []⟩]⟩ := by
  refine ⟨by decide +kernel, fun h => ?_⟩
  obtain ⟨cs, exit, hpresent, hchunks⟩ := h
  have hend : headerOnly.drop 33 = [] := by decide
  rw [hend] at hpresent
  cases hpresent with
  | nil _ => cases hchunks
  | cons hlen _ => exact absurd hlen (by decide)

end FuzzerTestSuite.Png
