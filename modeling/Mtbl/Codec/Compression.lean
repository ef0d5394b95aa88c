import Mtbl.Bytes.Compare

/-! Compression by type. The per-library functions behind the dispatch are a parameter: what they
return for an input, or `none` where they fail. So are the checksum and where a block's bytes lie in
memory. -/
namespace Mtbl

inductive CompressionType
  | none
  | snappy
  | zlib
  | lz4
  | lz4hc
  | zstd
  deriving DecidableEq, Repr

/-- The value of the enumerator, as the trailer stores it. -/
def CompressionType.code : CompressionType → ℕ
  | .none => 0
  | .snappy => 1
  | .zlib => 2
  | .lz4 => 3
  | .lz4hc => 4
  | .zstd => 5

theorem CompressionType.code_lt (t : CompressionType) : t.code < 6 := by
  cases t <;> simp [CompressionType.code]

def defaultCompressionLevel : ℤ := -10000
def zDefaultCompression : ℤ := -1

/-- The functions `_mtbl_compress_*` and `_mtbl_decompress_*`, `mtbl_crc32c`, and the memory in front of
the bytes of a block: of a mapped block the file before it, of a decompressed one the heap. -/
structure Codec where
  compressSnappy : Bytes → Option Bytes
  compressZlib : Bytes → ℤ → Option Bytes
  compressLz4 : Bytes → Option Bytes
  compressLz4hc : Bytes → ℤ → Option Bytes
  compressZstd : Bytes → ℤ → Option Bytes
  decompressSnappy : Bytes → Option Bytes
  decompressZlib : Bytes → Option Bytes
  decompressLz4 : Bytes → Option Bytes
  decompressZstd : Bytes → Option Bytes
  crc32c : Bytes → UInt32
  front : Bytes → Front

def mtblCompress (codec : Codec) (compressionType : CompressionType) (input : Bytes) :
    Option Bytes :=
  match compressionType with
  | .none => none
  | .snappy => codec.compressSnappy input
  | .zlib => codec.compressZlib input zDefaultCompression
  | .lz4 => codec.compressLz4 input
  | .lz4hc => codec.compressLz4hc input 9
  | .zstd => codec.compressZstd input 9

def mtblCompressLevel (codec : Codec) (compressionType : CompressionType) (compressionLevel : ℤ)
    (input : Bytes) : Option Bytes :=
  match compressionType with
  | .none => none
  | .snappy => codec.compressSnappy input
  | .zlib => codec.compressZlib input compressionLevel
  | .lz4 => codec.compressLz4 input
  | .lz4hc => codec.compressLz4hc input compressionLevel
  | .zstd => codec.compressZstd input compressionLevel

/-- LZ4 and LZ4HC use the same decompressor. The type comes from the trailer, so it may be any
number. -/
def mtblDecompress (codec : Codec) (compressionType : ℕ) (input : Bytes) : Option Bytes :=
  match compressionType with
  | 1 => codec.decompressSnappy input
  | 2 => codec.decompressZlib input
  | 3 => codec.decompressLz4 input
  | 4 => codec.decompressLz4 input
  | 5 => codec.decompressZstd input
  | _ => none

end Mtbl
