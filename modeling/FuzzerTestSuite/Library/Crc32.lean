import Mathlib.Data.UInt

/-! CRC-32, the cyclic redundancy check of the reflected polynomial `0xEDB88320`.

`update` continues a check over more bytes: checking two pieces one after the
other is checking them joined (`update_append`). -/
namespace Library.Crc32

/-- One bit through the shift register. -/
def shiftBit (c : UInt32) : UInt32 :=
  if c &&& 1 = 1 then (c >>> 1) ^^^ 0xEDB88320 else c >>> 1

/-- One byte through the shift register, low bit first. -/
def feed (c : UInt32) (b : UInt8) : UInt32 := shiftBit^[8] (c ^^^ b.toUInt32)

/-- Continue the check `c` over the bytes `bs`. -/
def update (c : UInt32) (bs : List UInt8) : UInt32 := ~~~bs.foldl feed (~~~c)

/-- The check of a byte string. -/
def checksum (bs : List UInt8) : UInt32 := update 0 bs

example : checksum [0x49, 0x45, 0x4E, 0x44] = 0xAE426082 := by decide +kernel

theorem update_nil (c : UInt32) : update c [] = c := UInt32.not_not

theorem update_append (c : UInt32) (a b : List UInt8) : update c (a ++ b) = update (update c a) b := by
  simp only [update, List.foldl_append, UInt32.not_not]

end Library.Crc32
