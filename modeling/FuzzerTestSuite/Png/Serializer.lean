import FuzzerTestSuite.Png.Parser

/-! `PngMutator::Serialize(std::ostream &out)`, as the bytes it writes.

Only iCCP payloads are deflated on the way out. `WriteChunk` can deflate what it is
given, but no call asks it to: an IDAT payload is written as it is held. -/
namespace FuzzerTestSuite.Png
open Library.Bytes

def writeInt (x : UInt32) : V := wordBytes (bswap32 x)

/-- A chunk is written as length, type, data, checksum of type and data. -/
def writeChunk (z : Zlib) (type chunk : V) (compress : Bool) : Option V := do
  let v ← if compress then Png.compress z chunk else some chunk
  let len := UInt32.ofNat v.length
  let crc := z.crc32 0 type
  let crc := if v.length ≠ 0 then z.crc32 crc v else crc
  some (writeInt len ++ type ++ v ++ writeInt crc)

/-- The loop body of `Serialize`: an iCCP profile gets the name `x` and is deflated. -/
def serializeChunk (z : Zlib) (ch : Chunk) : Option V :=
  if ch.type = type "iCCP" then do
    let compressed ← compress z ch.v
    writeChunk z (wordBytes ch.type) ([0x78, 0, 0] ++ compressed) false
  else writeChunk z (wordBytes ch.type) ch.v false

/-- The magic value. -/
def header : V := [0x89, 0x50, 0x4e, 0x47, 0x0d, 0x0a, 0x1a, 0x0a]

theorem header_length : header.length = 8 := rfl

def serialize (z : Zlib) (p : PngMutator) : Option V := do
  let ihdr ← writeChunk z (wordBytes (type "IHDR")) p.ihdr_.1 false
  let chunks ← p.chunks_.mapM (serializeChunk z)
  let iend ← writeChunk z (wordBytes (type "IEND")) [] false
  some (header ++ ihdr ++ chunks.flatten ++ iend)

end FuzzerTestSuite.Png
