import FuzzerTestSuite.Library.Crc32
import FuzzerTestSuite.Png.Merge
import FuzzerTestSuite.Png.Serializer

/-! PNG files as containers of chunks.

`PngFile` is what a file is made of, `bytes` how it stands on disk, and
`WellFormed` what a strict reader asks of it. The parser reads the chunks of a
file back as they are up to the first that is longer than its limit
(`scan_readable`, `scan_oversized`), and what `Serialize` writes is a file
(`serialize_eq`) that is well formed as soon as no chunk has the terminator's
type and every payload has a length (`serializedFile_wellFormed`). -/
namespace FuzzerTestSuite.Png
open Library Library.Bytes

/-! ### Files -/

/-- A word, high byte first. -/
def beBytes (w : UInt32) : V := (wordBytes w).reverse

@[simp] theorem beBytes_length (w : UInt32) : (beBytes w).length = 4 := by
  rw [beBytes, List.length_reverse, wordBytes_length]

theorem beBytes_bswap32 {bs : V} (h : bs.length = 4) : beBytes (bswap32 (word bs)) = bs := by
  rw [beBytes, wordBytes_bswap32, List.reverse_reverse, wordBytes_word h]

/-- A chunk in a file has a checksum field, right or wrong. -/
structure FileChunk where
  chunk : Chunk
  crc : UInt32

def FileChunk.bytes (c : FileChunk) : V :=
  beBytes (UInt32.ofNat c.chunk.v.length) ++ wordBytes c.chunk.type ++ c.chunk.v ++ beBytes c.crc

/-- Eight bytes of magic, IHDR, chunks, and a terminator's length and type followed by
anything. -/
structure PngFile where
  magic : V
  magic_size : magic.length = 8
  ihdr : Ihdr
  ihdrCrc : UInt32
  chunks : List FileChunk
  iendLen : UInt32
  tail : V

/-- The type and payload of each chunk. -/
def PngFile.cs (f : PngFile) : List Chunk := f.chunks.map (·.chunk)

/-- Everything from the first chunk on. -/
def PngFile.body (f : PngFile) : V :=
  f.chunks.flatMap FileChunk.bytes ++ (beBytes f.iendLen ++ (wordBytes (type "IEND") ++ f.tail))

def PngFile.bytes (f : PngFile) : V :=
  f.magic ++ ((FileChunk.mk ⟨type "IHDR", f.ihdr.1⟩ f.ihdrCrc).bytes ++ f.body)

/-- CRC-32 over the type and the payload. -/
def chunkCrc (c : Chunk) : UInt32 := Crc32.checksum (wordBytes c.type ++ c.v)

/-- Chunks that can be told apart in a file: no terminator among them, every length in its field. -/
def Framed (cs : List Chunk) : Prop := ∀ c ∈ cs, c.type ≠ type "IEND" ∧ c.v.length < 2 ^ 32

/-- What a strict reader asks: the signature, every length and checksum right, and one
empty IEND, last. -/
structure PngFile.WellFormed (f : PngFile) : Prop where
  magic : f.magic = header
  ihdrCrc : f.ihdrCrc = chunkCrc ⟨type "IHDR", f.ihdr.1⟩
  framed : Framed f.cs
  crc : ∀ c ∈ f.chunks, c.crc = chunkCrc c.chunk
  iendLen : f.iendLen = 0
  iendCrc : f.tail = beBytes (chunkCrc ⟨Png.type "IEND", []⟩)

/-- What the parser asks of a chunk to go on to the next. -/
def Readable (cs : List Chunk) : Prop := ∀ c ∈ cs, c.type ≠ type "IEND" ∧ c.v.length ≤ 2 ^ 20

instance (cs : List Chunk) : Decidable (Readable cs) :=
  inferInstanceAs (Decidable (∀ c ∈ cs, c.type ≠ type "IEND" ∧ c.v.length ≤ 2 ^ 20))

/-! ### Reading a file -/

section Reading

theorem readInteger_be (w : UInt32) (b : V) : readInteger ⟨beBytes w ++ b, false⟩ = (w, ⟨b, false⟩) :=
  readInteger_exact w b

theorem read4_word (w : UInt32) (b : V) : read4 ⟨wordBytes w ++ b, false⟩ = (w, ⟨b, false⟩) := by
  rw [read4_exact (wordBytes_length w), word_wordBytes]

theorem ofNat_length {n : Nat} (h : n < 2 ^ 32) : (UInt32.ofNat n).toNat = n := by
  rw [UInt32.toNat_ofNat', Nat.mod_eq_of_lt h]

theorem FileChunk.bytes_append (c : FileChunk) (b : V) :
    c.bytes ++ b = beBytes (UInt32.ofNat c.chunk.v.length) ++
      (wordBytes c.chunk.type ++ (c.chunk.v ++ (beBytes c.crc ++ b))) := by
  simp only [FileChunk.bytes, List.append_assoc]

theorem readChunk_bytes (c : FileChunk) (htype : c.chunk.type ≠ type "IEND")
    (hlen : c.chunk.v.length ≤ 2 ^ 20) (b : V) :
    readChunk ⟨c.bytes ++ b, false⟩ = .chunk c.chunk ⟨b, false⟩ := by
  have hn : (UInt32.ofNat c.chunk.v.length).toNat = c.chunk.v.length := ofNat_length (by omega)
  rw [FileChunk.bytes_append]
  simp only [readChunk, readInteger_be, read4_word, if_neg htype, hn, if_neg (Nat.not_lt.mpr hlen)]
  rw [IStream.readInto_exact (by rw [List.length_replicate]), read4_exact (beBytes_length _)]

/-- A length over the limit ends the reading. -/
theorem readChunk_oversized (c : FileChunk) (htype : c.chunk.type ≠ type "IEND")
    (hlen : 2 ^ 20 < c.chunk.v.length) (hlt : c.chunk.v.length < 2 ^ 32) (b : V) :
    readChunk ⟨c.bytes ++ b, false⟩ = .oversized := by
  rw [FileChunk.bytes_append]
  simp only [readChunk, readInteger_be, read4_word, if_neg htype, ofNat_length hlt, if_pos hlen]

theorem readChunk_iend (len : UInt32) (b : V) :
    readChunk ⟨beBytes len ++ (wordBytes (type "IEND") ++ b), false⟩ = .iend := by
  simp only [readChunk, readInteger_be, read4_word, if_true]

/-- Chunks within the limit are read back one by one. -/
theorem scan_readable {cs : List FileChunk} (h : Readable (cs.map (·.chunk))) (b : V) :
    scan ⟨cs.flatMap FileChunk.bytes ++ b, false⟩ =
      ((scan ⟨b, false⟩).1, cs.map (·.chunk) ++ (scan ⟨b, false⟩).2) := by
  induction cs with
  | nil => rfl
  | cons c cs ih =>
    obtain ⟨⟨htype, hlen⟩, hcs⟩ := List.forall_mem_cons.mp h
    rw [List.flatMap_cons, List.append_assoc, scan_eq, readChunk_bytes c htype hlen]
    simp only [Bool.false_eq_true, if_false, ih hcs, List.map_cons, List.cons_append]

theorem scan_iend (len : UInt32) (b : V) :
    scan ⟨beBytes len ++ (wordBytes (type "IEND") ++ b), false⟩ = (.iend, []) := by
  rw [scan_eq, readChunk_iend]
  rfl

/-- The file's body, read in full. -/
theorem scan_body (f : PngFile) (h : Readable f.cs) : scan ⟨f.body, false⟩ = (.iend, f.cs) := by
  rw [PngFile.body, scan_readable h, scan_iend, List.append_nil]
  rfl

/-- Chunks are all within the limit, or there is a first that is not. -/
theorem readable_split {cs : List FileChunk} (hframed : Framed (cs.map (·.chunk))) :
    Readable (cs.map (·.chunk)) ∨ ∃ pre big post, cs = pre ++ big :: post ∧
      Readable (pre.map (·.chunk)) ∧ 2 ^ 20 < big.chunk.v.length := by
  induction cs with
  | nil => exact .inl (fun c hc => by cases hc)
  | cons c cs ih =>
    obtain ⟨⟨ht, -⟩, hcs⟩ := List.forall_mem_cons.mp hframed
    by_cases hc : c.chunk.v.length ≤ 2 ^ 20
    · rcases ih hcs with hread | ⟨pre, big, post, rfl, hpre, hbig⟩
      · exact .inl (List.forall_mem_cons.mpr ⟨⟨ht, hc⟩, hread⟩)
      · exact .inr ⟨c :: pre, big, post, rfl, List.forall_mem_cons.mpr ⟨⟨ht, hc⟩, hpre⟩, hbig⟩
    · exact .inr ⟨[], c, cs, rfl, by decide, Nat.not_le.mp hc⟩

/-- The first chunk over the limit ends the reading. -/
theorem scan_oversized {pre : List FileChunk} {big : FileChunk} {post : List FileChunk}
    (hframed : Framed ((pre ++ big :: post).map (·.chunk))) (hpre : Readable (pre.map (·.chunk)))
    (hbig : 2 ^ 20 < big.chunk.v.length) (b : V) :
    scan ⟨(pre ++ big :: post).flatMap FileChunk.bytes ++ b, false⟩ = (.oversized, pre.map (·.chunk)) := by
  have hmem : big.chunk ∈ (pre ++ big :: post).map (·.chunk) :=
    List.mem_map_of_mem (List.mem_append_right pre (List.mem_cons_self ..))
  obtain ⟨ht, hl⟩ := hframed _ hmem
  have hend : scan ⟨big.bytes ++ (post.flatMap FileChunk.bytes ++ b), false⟩ = (.oversized, []) := by
    rw [scan_eq, readChunk_oversized big ht hbig hl]
    rfl
  rw [List.flatMap_append, List.flatMap_cons, List.append_assoc, List.append_assoc, scan_readable hpre,
    hend, List.append_nil]

/-- A whole header is read, whatever comes after it. -/
theorem readHeader_framed {magic : V} (hmagic : magic.length = 8) (ihdr : Ihdr) (crc : UInt32) (rest : V) :
    readHeader ⟨magic ++ ((FileChunk.mk ⟨type "IHDR", ihdr.1⟩ crc).bytes ++ rest), false⟩ =
      some (ihdr, ⟨rest, false⟩) := by
  obtain ⟨a, b, rfl, ha, hb⟩ : ∃ a b : V, magic = a ++ b ∧ a.length = 4 ∧ b.length = 4 := by
    refine ⟨magic.take 4, magic.drop 4, (List.take_append_drop 4 magic).symm, ?_, ?_⟩
    · rw [List.length_take, hmagic]
      rfl
    · rw [List.length_drop, hmagic]
  have hihdr : Ihdr.zero.store ihdr.1 = ihdr :=
    Subtype.ext (overwrite_full (ihdr.2.trans Ihdr.zero.2.symm))
  have hlen : UInt32.ofNat ihdr.1.length = 13 := by
    rw [ihdr.2]
    rfl
  rw [FileChunk.bytes_append, List.append_assoc]
  simp only [readHeader, read4_exact ha, read4_exact hb, hlen, readInteger_be, read4_word,
    IStream.read_exact ihdr.2, read4_exact (beBytes_length _), hihdr, ne_eq, not_true_eq_false,
    if_false]

theorem readHeader_bytes (f : PngFile) :
    readHeader ⟨f.bytes, false⟩ = some (f.ihdr, ⟨f.body, false⟩) :=
  readHeader_framed f.magic_size f.ihdr f.ihdrCrc f.body

/-- Two fields that stand at the same place are the same. -/
private theorem fields_determined {n n' t t' : UInt32} {b b' : V}
    (h : beBytes n ++ (wordBytes t ++ b) = beBytes n' ++ (wordBytes t' ++ b')) :
    n = n' ∧ t = t' ∧ b = b' := by
  have hint := congrArg (fun s => readInteger ⟨s, false⟩) h
  simp only [readInteger_be, Prod.mk.injEq, IStream.mk.injEq, and_true] at hint
  have hword := congrArg (fun s => read4 ⟨s, false⟩) hint.2
  simp only [read4_word, Prod.mk.injEq, IStream.mk.injEq, and_true] at hword
  exact ⟨hint.1, hword⟩

/-- The chunks before a terminator are determined by the bytes. -/
private theorem chunks_determined {cs cs' : List FileChunk} (h : Framed (cs.map (·.chunk)))
    (h' : Framed (cs'.map (·.chunk))) {len len' : UInt32} {b b' : V}
    (he : cs.flatMap FileChunk.bytes ++ (beBytes len ++ (wordBytes (type "IEND") ++ b)) =
      cs'.flatMap FileChunk.bytes ++ (beBytes len' ++ (wordBytes (type "IEND") ++ b'))) :
    cs.map (·.chunk) = cs'.map (·.chunk) := by
  induction cs generalizing cs' with
  | nil =>
    cases cs' with
    | nil => rfl
    | cons c' cs' =>
      rw [List.flatMap_nil, List.nil_append, List.flatMap_cons, List.append_assoc,
        FileChunk.bytes_append] at he
      obtain ⟨-, htype, -⟩ := fields_determined he
      exact absurd htype.symm (h' _ (List.mem_cons_self ..)).1
  | cons c cs ih =>
    obtain ⟨⟨ht, hl⟩, hcs⟩ := List.forall_mem_cons.mp h
    rw [List.flatMap_cons, List.append_assoc, FileChunk.bytes_append] at he
    cases cs' with
    | nil =>
      rw [List.flatMap_nil, List.nil_append] at he
      exact absurd (fields_determined he).2.1 ht
    | cons c' cs' =>
      obtain ⟨⟨-, hl'⟩, hcs'⟩ := List.forall_mem_cons.mp h'
      rw [List.flatMap_cons, List.append_assoc, FileChunk.bytes_append] at he
      obtain ⟨hlen, htype, hrest⟩ := fields_determined he
      have hlen' : c.chunk.v.length = c'.chunk.v.length := by
        rw [← ofNat_length hl, hlen, ofNat_length hl']
      obtain ⟨hv, hrest⟩ := List.append_inj hrest hlen'
      obtain ⟨-, hrest⟩ := List.append_inj hrest (by rw [beBytes_length, beBytes_length])
      have hchunk : c.chunk = c'.chunk := by
        cases hc : c.chunk
        cases hc' : c'.chunk
        simp only [hc, hc'] at htype hv
        rw [htype, hv]
      rw [List.map_cons, List.map_cons, hchunk, ih hcs hcs' hrest]

/-- **A file's bytes determine its IHDR and its chunks.** -/
theorem bytes_determine {f g : PngFile} (hf : Framed f.cs) (hg : Framed g.cs)
    (h : f.bytes = g.bytes) : f.ihdr = g.ihdr ∧ f.cs = g.cs := by
  have hread := readHeader_bytes f
  rw [h, readHeader_bytes] at hread
  simp only [Option.some.injEq, Prod.mk.injEq, IStream.mk.injEq, and_true] at hread
  exact ⟨hread.1.symm, chunks_determined hf hg hread.2.symm⟩

/-- **A file of readable chunks is parsed as the merge of its chunks, inflated.** -/
theorem pngMutator_bytes (z : Zlib) (f : PngFile) (h : Readable f.cs) :
    pngMutator z f.bytes =
      ((merge f.cs).mapM (decodeChunk z .iend)).map fun chunks => ⟨f.ihdr, chunks⟩ := by
  rw [pngMutator_eq, readHeader_bytes]
  simp only [scan_body f h]

end Reading

/-! ### Writing a file -/

section Writing
variable (z : Zlib)

/-- The chunk that stands in the file for a chunk of the list. -/
def written (ch : Chunk) : Option Chunk :=
  if ch.type = type "iCCP" then
    (compress z ch.v).map fun compressed => {ch with v := [0x78, 0, 0] ++ compressed}
  else some ch

/-- The checksum `WriteChunk` computes. -/
def crcField (c : Chunk) : UInt32 :=
  if c.v.length ≠ 0 then z.crc32 (z.crc32 0 (wordBytes c.type)) c.v
  else z.crc32 0 (wordBytes c.type)

def fileChunk (c : Chunk) : FileChunk := ⟨c, crcField z c⟩

/-- The file with the given chunks as `Serialize` lays it out. -/
def serializedFile (ihdr : Ihdr) (cs : List Chunk) : PngFile where
  magic := header
  magic_size := header_length
  ihdr := ihdr
  ihdrCrc := crcField z ⟨type "IHDR", ihdr.1⟩
  chunks := cs.map (fileChunk z)
  iendLen := 0
  tail := beBytes (crcField z ⟨type "IEND", []⟩)

@[simp] theorem serializedFile_cs (ihdr : Ihdr) (cs : List Chunk) :
    (serializedFile z ihdr cs).cs = cs := by
  simp only [PngFile.cs, serializedFile, List.map_map]
  exact List.map_id cs

theorem writeInt_eq (x : UInt32) : writeInt x = beBytes x := wordBytes_bswap32 x

theorem writeChunk_eq (t : UInt32) (v : V) :
    writeChunk z (wordBytes t) v false = some (fileChunk z ⟨t, v⟩).bytes := by
  simp only [writeChunk, writeInt_eq]
  rfl

theorem serializeChunk_eq (ch : Chunk) :
    serializeChunk z ch = (written z ch).map fun c => (fileChunk z c).bytes := by
  rw [serializeChunk, written]
  split
  · cases compress z ch.v with
    | none => rfl
    | some e => exact writeChunk_eq z ch.type ([0x78, 0, 0] ++ e)
  · exact writeChunk_eq z ch.type ch.v

theorem mapM_serializeChunk (chs : List Chunk) :
    chs.mapM (serializeChunk z) =
      (chs.mapM (written z)).map fun cs => cs.map fun c => (fileChunk z c).bytes := by
  induction chs with
  | nil => rfl
  | cons ch chs ih =>
    rw [List.mapM_cons, List.mapM_cons, ih, serializeChunk_eq]
    cases written z ch with
    | none => rfl
    | some c =>
      cases chs.mapM (written z) with
      | none => rfl
      | some cs => rfl

/-- **`Serialize` writes a file**: one chunk for each chunk of the list. -/
theorem serialize_eq (p : PngMutator) :
    serialize z p = (p.chunks_.mapM (written z)).map fun cs => (serializedFile z p.ihdr_ cs).bytes := by
  rw [serialize, writeChunk_eq, writeChunk_eq, mapM_serializeChunk]
  cases p.chunks_.mapM (written z) with
  | none => rfl
  | some cs =>
    have hbody : (cs.map fun c => (fileChunk z c).bytes).flatten =
        (cs.map (fileChunk z)).flatMap FileChunk.bytes := by
      rw [List.flatMap_def, List.map_map]
      rfl
    have hiend : (fileChunk z ⟨type "IEND", []⟩).bytes =
        beBytes 0 ++ (wordBytes (type "IEND") ++ beBytes (crcField z ⟨type "IEND", []⟩)) := by
      simp only [FileChunk.bytes, fileChunk, List.append_nil, List.append_assoc]
      rfl
    simp only [Option.bind_eq_bind, Option.bind_some, Option.map_some, hbody, hiend,
      List.append_assoc]
    rfl

/-- zlib's `crc32` continues a CRC-32. -/
def ComputesCrc (z : Zlib) : Prop := ∀ crc bs, z.crc32 crc bs = Crc32.update crc bs

variable {z}

theorem crcField_eq (h : ComputesCrc z) (c : Chunk) : crcField z c = chunkCrc c := by
  rw [crcField, chunkCrc, Crc32.checksum, Crc32.update_append]
  simp only [h _ _]
  split
  · rfl
  · rename_i hv
    have hnil : c.v = [] := List.eq_nil_of_length_eq_zero (by simpa using hv)
    rw [hnil, Crc32.update_nil]

theorem serializedFile_wellFormed (h : ComputesCrc z) (ihdr : Ihdr) {cs : List Chunk}
    (hframed : Framed cs) : (serializedFile z ihdr cs).WellFormed where
  magic := rfl
  ihdrCrc := crcField_eq h _
  framed := by rw [serializedFile_cs]; exact hframed
  crc := by
    intro c hc
    obtain ⟨c', -, rfl⟩ := List.mem_map.mp hc
    exact crcField_eq h c'
  iendLen := rfl
  iendCrc := congrArg beBytes (crcField_eq h _)

end Writing

end FuzzerTestSuite.Png
