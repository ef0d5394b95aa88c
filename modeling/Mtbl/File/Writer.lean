import Mtbl.Block.Builder
import Mtbl.Codec.Compression
import Mtbl.File.Metadata

/-! The writer. The file behind the descriptor is the bytes up to its offset; writes go to its end
and succeed. Handing a finished block on is a step of its own, because with a thread pool the block
is compressed and written elsewhere. -/
namespace Mtbl
open CRun

structure WriterOptions where
  compressionType : CompressionType
  compressionLevel : ℤ
  blockSize : ℕ
  blockRestartInterval : ℕ
  deriving DecidableEq, Repr

structure Writer where
  file : Bytes
  m : Metadata
  data : BlockBuilder
  index : BlockBuilder
  opt : WriterOptions
  lastKey : Bytes
  lastOffset : ℕ
  closed : Bool
  pendingOffset : ℕ
  deriving DecidableEq, Repr

structure DataBlock where
  compType : CompressionType
  compLevel : ℤ
  data : Bytes
  lastKey : Bytes
  crc : UInt32
  deriving DecidableEq, Repr

def minBlockSize : ℕ := 1024

def mtblWriterOptionsInit : WriterOptions := ⟨.zlib,defaultCompressionLevel,8192,16⟩

def mtblWriterOptionsSetCompression (opt : WriterOptions) (t : CompressionType) : WriterOptions :=
  { opt with compressionType := t }

def mtblWriterOptionsSetCompressionLevel (opt : WriterOptions) (level : ℤ) : WriterOptions :=
  { opt with compressionLevel := level }

def mtblWriterOptionsSetBlockSize (opt : WriterOptions) (blockSize : ℕ) : WriterOptions :=
  { opt with blockSize := if blockSize < minBlockSize then minBlockSize else blockSize }

def mtblWriterOptionsSetBlockRestartInterval (opt : WriterOptions) (interval : ℕ) :
    WriterOptions := { opt with blockRestartInterval := interval }

/-- Writing starts from the current offset, behind bytes the caller may have reserved. -/
def mtblWriterInitFd (file : Bytes) (opt : Option WriterOptions) : Writer :=
  let opt := opt.getD mtblWriterOptionsInit
  { file := file
    m := ⟨.formatV2,0,opt.blockSize,opt.compressionType.code,0,0,0,0,0,0⟩
    data := blockBuilderInit opt.blockRestartInterval
    index := blockBuilderInit opt.blockRestartInterval
    opt := opt
    lastKey := []
    lastOffset := file.length
    closed := false
    pendingOffset := file.length }

def writeAll (file buf : Bytes) : Run Bytes := do
  check (0 < buf.length)
  return file++buf

/-- Length, checksum, contents; also the number of bytes written. -/
def mtblWriterWriteBlock (file : Bytes) (b : DataBlock) : Run (Bytes × ℕ) := do
  let len := mtblVarintEncode64 b.data.length
  let file ← writeAll file len
  let file ← writeAll file (mtblFixedEncode32 b.crc.toNat)
  let file ← writeAll file b.data
  return (file,len.length+4+b.data.length)

/-- The compressed contents, or `none` where the assertion on the result fails. -/
def compressedData (codec : Codec) (compType : CompressionType) (compLevel : ℤ) (data : Bytes) :
    Option Bytes :=
  if compType = .none then some data
  else if compLevel = defaultCompressionLevel then mtblCompress codec compType data
  else mtblCompressLevel codec compType compLevel data

def mtblWriterCompressBlock (codec : Codec) (b : DataBlock) : Run DataBlock :=
  match compressedData codec b.compType b.compLevel b.data with
  | none => .error .assertion
  | some data => .ok { b with data := data, crc := codec.crc32c data }

def mtblWriterWriteDataBlock (w : Writer) (b : DataBlock) : Run Writer := do
  let (file,bytesWritten) ← mtblWriterWriteBlock w.file b
  let index ← blockBuilderAdd w.index b.lastKey (mtblVarintEncode64 w.pendingOffset)
  return { w with
    file := file
    lastOffset := w.pendingOffset
    pendingOffset := w.pendingOffset+bytesWritten
    m := { w.m with bytesDataBlocks := w.m.bytesDataBlocks+bytesWritten
                    countDataBlocks := w.m.countDataBlocks+1 }
    index := index }

/-- `_mtbl_writer_flush` up to its branch on the pool: the finished block, unless it is empty. -/
def detachBlock (w : Writer) : Run (Writer × Option DataBlock) := do
  check (w.closed = false)
  check (w.m.fileVersion = .formatV2)
  if blockBuilderEmpty w.data then
    return (w,none)
  let (data,contents) := blockBuilderFinish w.data
  return ({ w with data := blockBuilderReset data },
    some ⟨w.opt.compressionType,w.opt.compressionLevel,contents,w.lastKey,0⟩)

/-- The branch without a pool. -/
def emitBlock (codec : Codec) (w : Writer) : Option DataBlock → Run Writer
  | none => .ok w
  | some b => do
    let b ← mtblWriterCompressBlock codec b
    mtblWriterWriteDataBlock w b

def mtblWriterFlush (codec : Codec) (w : Writer) : Run Writer := do
  let (w,b) ← detachBlock w
  emitBlock codec w b

/-- Keys are accepted in strictly ascending order only. -/
def outOfOrder (w : Writer) (key : Bytes) : Bool :=
  decide (w.m.countEntries > 0) && !decide (bytesCompare key w.lastKey > 0)

/-- The flush in `mtbl_writer_add`, up to the branch on the pool. -/
def makeRoom (w : Writer) (key val : Bytes) : Run (Writer × Option DataBlock) :=
  let estimatedBlockSize :=
    blockBuilderCurrentSizeEstimate w.data+(3*5+key.length+val.length)
  if estimatedBlockSize ≥ w.opt.blockSize then do
    let lastKey ← bytesShortestSeparator w.lastKey key
    detachBlock { w with lastKey := lastKey }
  else .ok (w,none)

def acceptEntry (w : Writer) (key val : Bytes) : Run Writer := do
  let data ← blockBuilderAdd w.data key val
  return { w with
    lastKey := key
    m := { w.m with countEntries := w.m.countEntries+1
                    bytesKeys := w.m.bytesKeys+key.length
                    bytesValues := w.m.bytesValues+val.length }
    data := data }

def mtblWriterAdd (codec : Codec) (w : Writer) (key val : Bytes) : Run (Writer × Bool) := do
  check (w.closed = false)
  if outOfOrder w key then
    return (w,false)
  let (w,b) ← makeRoom w key val
  let w ← emitBlock codec w b
  let w ← acceptEntry w key val
  return (w,true)

/-- `_mtbl_writer_finish` behind the flush: the index block, uncompressed, and the trailer. -/
def writeIndex (codec : Codec) (w : Writer) : Run Writer := do
  check (w.closed = false)
  let (index,contents) := blockBuilderFinish w.index
  let (file,bytesWritten) ←
    mtblWriterWriteBlock w.file ⟨.none,0,contents,[],codec.crc32c contents⟩
  let m := { w.m with indexBlockOffset := w.pendingOffset, bytesIndexBlock := bytesWritten }
  let file ← writeAll file (metadataWrite m)
  return { w with
    file := file
    m := m
    closed := true
    lastOffset := w.pendingOffset
    pendingOffset := w.pendingOffset+bytesWritten
    index := blockBuilderReset index }

def mtblWriterFinish (codec : Codec) (w : Writer) : Run Writer := do
  let w ← mtblWriterFlush codec w
  writeIndex codec w

/-- The file as it is left behind. -/
def mtblWriterDestroy (codec : Codec) (w : Writer) : Run Bytes :=
  if w.closed then .ok w.file
  else do
    let w ← mtblWriterFinish codec w
    return w.file

/-- A sequence of adds, with the result of each. -/
def writerAdds (codec : Codec) (w : Writer) : List Entry → Run (Writer × List Bool)
  | [] => .ok (w,[])
  | e::es => do
    let (w,res) ← mtblWriterAdd codec w e.key e.val
    let (w,results) ← writerAdds codec w es
    return (w,res::results)

end Mtbl
