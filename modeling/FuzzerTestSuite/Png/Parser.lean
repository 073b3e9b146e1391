import FuzzerTestSuite.Library.Checked
import FuzzerTestSuite.Png.Zlib

/-! The constructor `PngMutator::PngMutator(std::istream &in)`.

It reads the stream chunk by chunk, keeps every chunk's payload, merges the IDAT
payloads into the first IDAT chunk, inflates each iCCP profile as it is read and
the merged IDAT after the loop. `none` is a constructor that never returns. -/
namespace FuzzerTestSuite.Png
open Library Library.Bytes Library.Checked Library.WhileLoop

/-! ### The object -/

structure Chunk where
  type : UInt32
  v : V
deriving DecidableEq, Repr

/-- The vector `ihdr_`: resized to 13 at construction, and never again. -/
abbrev Ihdr := {v : V // v.length = 13}

structure PngMutator where
  ihdr_ : Ihdr
  chunks_ : List Chunk
deriving DecidableEq

/-- The tag's four bytes as the word the host reads them as. -/
def type (tagname : String) : UInt32 := word (tagname.toList.map fun c => UInt8.ofNat c.toNat)

def Ihdr.zero : Ihdr := ⟨List.replicate 13 0, rfl⟩

def Ihdr.store (ihdr : Ihdr) (bs : V) : Ihdr :=
  ⟨overwrite ihdr.1 bs, (overwrite_length ihdr.1 bs).trans ihdr.2⟩

/-! ### The stream -/

/-- `std::istream`: what is left to read, and the flag `while (in)` tests. -/
structure IStream where
  rest : V
  fail : Bool
deriving DecidableEq, Repr

/-- `in.read(s, n)`: the bytes stored at `s`. A short read stores what there is and
sets the flag; once it is set nothing is read. -/
def IStream.read (s : IStream) (n : Nat) : V × IStream :=
  if s.fail then ([], s)
  else if n ≤ s.rest.length then (s.rest.take n, ⟨s.rest.drop n, false⟩)
  else (s.rest, ⟨[], true⟩)

/-- Fill a vector, from its start. -/
def IStream.readInto (s : IStream) (buf : V) : V × IStream :=
  (overwrite buf (s.read buf.length).1, (s.read buf.length).2)

def read4 (s : IStream) : UInt32 × IStream :=
  (word (s.readInto (wordBytes 0)).1, (s.readInto (wordBytes 0)).2)

def readInteger (s : IStream) : UInt32 × IStream := (bswap32 (read4 s).1, (read4 s).2)

/-! ### The chunk loop -/

/-- `isprint` in the C locale. -/
def isprint (b : UInt8) : Bool := 32 ≤ b && b ≤ 126

/-- `if (it < v.end() && !*it) it++`. -/
def skipZero : V → V
  | 0 :: v => v
  | v => v

/-- What is left of an iCCP payload after the profile's name and up to two zeros. -/
def skipName (v : V) : V := skipZero (skipZero (v.dropWhile isprint))

/-- What the top half of a pass finds: the terminator, a length over the limit, or a
chunk and the stream after it. -/
inductive ChunkRead where
  | iend
  | oversized
  | chunk (c : Chunk) (s : IStream)

/-- Length, type, payload and checksum. The payload is as long as the length field
says, whatever the stream still holds. -/
def readChunk (s : IStream) : ChunkRead :=
  let (len, s) := readInteger s
  let (t, s) := read4 s
  if t = type "IEND" then .iend
  else if 2 ^ 20 < len.toNat then .oversized
  else
    let (v, s) := s.readInto (List.replicate len.toNat 0)
    let (_, s) := read4 s
    .chunk ⟨t, v⟩ s

/-- The loop's variables besides the stream; `none` is `idat_idx == -1`. -/
structure Parse where
  chunks_ : List Chunk
  idat_idx : Option Nat
deriving DecidableEq

/-- The bottom half of a pass: where the chunk's payload goes. -/
def absorb (z : Zlib) (p : Parse) (c : Chunk) : Option Parse :=
  if c.type = type "IDAT" then
    match p.idat_idx with
    | some i => do
      let chunks ← modifyAt? p.chunks_ i fun ch => {ch with v := ch.v ++ c.v}
      some {p with chunks_ := chunks}
    | none => some ⟨p.chunks_ ++ [c], some p.chunks_.length⟩
  else if c.type = type "iCCP" then do
    let uncompressed ← uncompress z (skipName c.v)
    let _ ← compress z uncompressed
    some {p with chunks_ := p.chunks_ ++ [⟨c.type, uncompressed⟩]}
  else some {p with chunks_ := p.chunks_ ++ [c]}

/-- How the loop is left: by its condition, by `break`, or by `return`. -/
inductive Exit where
  | endOfStream | iend | oversized
deriving DecidableEq, Repr

def chunkPass (z : Zlib) : IStream × Parse → Option (Pass (IStream × Parse) (Exit × Parse))
  | (s, p) =>
    if s.fail then some (.done (.endOfStream, p))
    else
      match readChunk s with
      | .iend => some (.done (.iend, p))
      | .oversized => some (.done (.oversized, p))
      | .chunk c s' => (absorb z p c).map fun p' => .again (s', p')

/-- Each pass but the last takes bytes from the stream, so this many are enough. -/
def IStream.passes (s : IStream) : Nat := s.rest.length + 2

def readChunks (z : Zlib) (s : IStream) : Option (Exit × Parse) :=
  run (chunkPass z) s.passes (s, ⟨[], none⟩)

/-! ### The constructor -/

/-- The magic value, skipped, and IHDR; `none` where the constructor returns early. -/
def readHeader (s : IStream) : Option (Ihdr × IStream) :=
  let (_, s) := read4 s
  let (_, s) := read4 s
  let (len, s) := readInteger s
  if len ≠ 13 then none
  else
    let (t, s) := read4 s
    if t ≠ type "IHDR" then none
    else
      let (bs, s) := s.read 13
      let (_, s) := read4 s
      some (Ihdr.zero.store bs, s)

/-- The step after the loop, which `return` inside the loop skips. -/
def inflateIdat (z : Zlib) : Exit × Parse → Option (List Chunk)
  | (.oversized, p) => some p.chunks_
  | (_, p) =>
    match p.idat_idx with
    | none => some p.chunks_
    | some i => do
      let ch ← p.chunks_[i]?
      let uncompressed ← uncompress z ch.v
      modifyAt? p.chunks_ i fun ch => {ch with v := uncompressed}

def pngMutator (z : Zlib) (bytes : V) : Option PngMutator :=
  match readHeader ⟨bytes, false⟩ with
  | none => some ⟨Ihdr.zero, []⟩
  | some (ihdr, s) => do
    let left ← readChunks z s
    let chunks ← inflateIdat z left
    some ⟨ihdr, chunks⟩

/-! ### What the reads do -/

theorem IStream.read_exact {a b : V} {n : Nat} (h : a.length = n) :
    IStream.read ⟨a ++ b, false⟩ n = (a, ⟨b, false⟩) := by
  subst h
  simp [IStream.read]

theorem IStream.readInto_exact {a b buf : V} (h : a.length = buf.length) :
    IStream.readInto ⟨a ++ b, false⟩ buf = (a, ⟨b, false⟩) := by
  rw [IStream.readInto, IStream.read_exact h, overwrite_full h]

theorem read4_exact {a b : V} (h : a.length = 4) :
    read4 ⟨a ++ b, false⟩ = (word a, ⟨b, false⟩) := by
  rw [read4, IStream.readInto_exact (by simp [h])]

theorem readInteger_exact (w : UInt32) (b : V) :
    readInteger ⟨(wordBytes w).reverse ++ b, false⟩ = (w, ⟨b, false⟩) := by
  rw [readInteger, read4_exact (by simp), ← bswap32, bswap32_bswap32]

/-- A read takes what there is, and fails if that is too little. -/
theorem IStream.read_eq (rest : V) (n : Nat) :
    IStream.read ⟨rest, false⟩ n = (rest.take n, ⟨rest.drop n, decide (rest.length < n)⟩) := by
  by_cases h : n ≤ rest.length
  · rw [decide_eq_false (by omega)]
    simp only [IStream.read, Bool.false_eq_true, if_false, if_pos h]
  · have hle : rest.length ≤ n := by omega
    rw [decide_eq_true (by omega), List.take_of_length_le hle, List.drop_eq_nil_of_le hle]
    simp only [IStream.read, Bool.false_eq_true, if_false, if_neg h]

theorem read4_eq (rest : V) :
    read4 ⟨rest, false⟩ = (word (rest.take 4), ⟨rest.drop 4, decide (rest.length < 4)⟩) := by
  have hle : (rest.take 4).length ≤ 4 := List.length_take_le ..
  rw [read4, IStream.readInto, wordBytes_length, IStream.read_eq, word_overwrite hle]

/-- Nothing is read after a failed read. -/
theorem read4_fail (rest : V) : read4 ⟨rest, true⟩ = (0, ⟨rest, true⟩) := rfl

/-- After some reads the flag is set, or exactly `n` bytes are gone. -/
def IStream.Takes (s s' : IStream) (n : Nat) : Prop :=
  s'.fail = true ∨ s.fail = false ∧ n ≤ s.rest.length ∧ s' = ⟨s.rest.drop n, false⟩

theorem IStream.read_takes (s : IStream) (n : Nat) : s.Takes (s.read n).2 n := by
  unfold IStream.Takes IStream.read
  split
  · exact .inl ‹_›
  · split
    · exact .inr ⟨by simpa using ‹¬s.fail = true›, ‹_›, rfl⟩
    · exact .inl rfl

theorem IStream.Takes.trans {s t u : IStream} {a b : Nat} (h : s.Takes t a) (h' : t.Takes u b) :
    s.Takes u (a + b) := by
  rcases h' with hfail | ⟨ht, hb, rfl⟩
  · exact .inl hfail
  · rcases h with hfail | ⟨hs, ha, rfl⟩
    · rw [hfail] at ht
      cases ht
    · rw [List.length_drop] at hb
      refine .inr ⟨hs, by omega, ?_⟩
      rw [List.drop_drop]

theorem IStream.Takes.length {s s' : IStream} {n : Nat} (h : s.Takes s' n) :
    s'.fail = true ∨ s'.fail = false ∧ s'.rest.length + n = s.rest.length := by
  rcases h with hfail | ⟨-, hn, rfl⟩
  · exact .inl hfail
  · refine .inr ⟨rfl, ?_⟩
    rw [List.length_drop]
    omega

theorem read4_takes (s : IStream) : s.Takes (read4 s).2 4 := s.read_takes 4

theorem readInteger_takes (s : IStream) : s.Takes (readInteger s).2 4 := s.read_takes 4

end FuzzerTestSuite.Png
