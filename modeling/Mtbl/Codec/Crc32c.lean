import Mtbl.Codec.Compression

/-! CRC-32C bit by bit, the function that the table-driven and the hardware versions compute, and a
codec that compresses nothing. -/
namespace Mtbl

/-- One bit of the reflected Castagnoli polynomial. -/
def crc32cBit (crc : UInt32) : UInt32 :=
  if crc &&& 1 = 1 then (crc >>> 1) ^^^ 0x82F63B78 else crc >>> 1

def crc32cByte (crc : UInt32) (b : UInt8) : UInt32 := crc32cBit^[8] (crc ^^^ b.toUInt32)

def mtblCrc32c (buf : Bytes) : UInt32 := ~~~ (buf.foldl crc32cByte 0xFFFFFFFF)

example : mtblCrc32c [0x66,0x6f,0x6f] = 0xcfc4ae1d := by decide +kernel

/-- No compression library, so that only uncompressed files can be written and read. -/
def storingCodec : Codec where
  compressSnappy _ := none
  compressZlib _ _ := none
  compressLz4 _ := none
  compressLz4hc _ _ := none
  compressZstd _ _ := none
  decompressSnappy _ := none
  decompressZlib _ := none
  decompressLz4 _ := none
  decompressZstd _ := none
  crc32c := mtblCrc32c
  front _ := ⟨0,[]⟩

end Mtbl
