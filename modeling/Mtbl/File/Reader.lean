import Mtbl.Block.Iter
import Mtbl.Codec.Compression
import Mtbl.File.Metadata

/-! The reader and its iterators. The mapped file is a byte string; a read behind its end is a
fault. NULL is `none`. -/
namespace Mtbl
open CRun

structure ReaderOptions where
  verifyChecksums : Bool
  deriving DecidableEq, Repr

structure Reader where
  m : Metadata
  data : Bytes
  opt : ReaderOptions
  index : Block
  deriving DecidableEq, Repr

inductive ReaderIterType
  | iter
  | get
  | getPrefix
  | getRange
  deriving DecidableEq, Repr

structure ReaderIter where
  r : Reader
  blockOffset : ℕ
  b : Option Block
  bi : Option BlockIter
  indexIter : BlockIter
  k : Bytes
  first : Bool
  valid : Bool
  itType : ReaderIterType
  deriving DecidableEq, Repr

/-- The length in front of a block, and the bytes it takes: 32-bit in the first format, a varint in
the second. -/
def blockLength (version : FileVersion) (data : Bytes) : Run (ℕ × ℕ) :=
  match version with
  | .formatV1 => do
    let n ← mtblFixedDecode32 data
    return (4,n)
  | .formatV2 => mtblVarintDecode64 data

def verifyChecksum (codec : Codec) (opt : ReaderOptions) (data : Bytes) (pos len : ℕ) :
    Run Unit :=
  if opt.verifyChecksums then do
    let crc ← mtblFixedDecode32 (data.drop pos)
    let contents ← readSlice data (pos+4) len
    check (crc = (codec.crc32c contents).toNat)
  else .ok ()

def minBlockLength (version : FileVersion) : ℕ :=
  match version with
  | .formatV1 => 16
  | .formatV2 => 13

def mtblReaderInitFd (codec : Codec) (file : Bytes) (opt : ReaderOptions) :
    Run (Option Reader) := do
  if file.length < mtblMetadataSize then
    return none
  match ← metadataRead (file.drop (file.length-mtblMetadataSize)) with
  | none => return none
  | some m =>
    let offset := m.indexBlockOffset
    let blockEnd := (offset+mtblMetadataSize+minBlockLength m.fileVersion)%2^64
    if blockEnd > file.length ∨ blockEnd < offset then
      return none
    let (indexLenLen,indexLen) ← blockLength m.fileVersion (file.drop offset)
    verifyChecksum codec opt file (offset+indexLenLen) indexLen
    let index ← blockInit (codec.front (file.drop (offset+indexLenLen+4)))
      (file.drop (offset+indexLenLen+4)) indexLen
    return some ⟨m,file,opt,index⟩

/-- The contents of a block: in place, or decompressed into a buffer of their own. -/
def blockContents (codec : Codec) (r : Reader) (pos len : ℕ) : Run (Bytes × ℕ) :=
  if r.m.compressionAlgorithm = CompressionType.none.code then .ok (r.data.drop pos,len)
  else do
    let raw ← readSlice r.data pos len
    -- the algorithm is passed as an enumerator, of 32 bits
    match mtblDecompress codec (r.m.compressionAlgorithm%2^32) raw with
    | none => .error .assertion
    | some contents => return (contents,contents.length)

def getBlock (codec : Codec) (r : Reader) (offset : ℕ) : Run Block := do
  check (offset < r.data.length)
  let (lenLen,len) ← blockLength r.m.fileVersion (r.data.drop offset)
  verifyChecksum codec r.opt r.data (offset+lenLen) len
  let (contents,size) ← blockContents codec r (offset+lenLen+4) len
  blockInit (codec.front contents) contents size

/-- The offset stored under the index cursor, or `none` where the cursor is invalid. -/
def indexOffset (indexIter : BlockIter) : Run (Option ℕ) :=
  if blockIterValid indexIter then do
    let (_,offset) ← mtblVarintDecode64 (indexIter.data.drop indexIter.val)
    return some offset
  else .ok none

def getBlockAtIndex (codec : Codec) (r : Reader) (indexIter : BlockIter) : Run (Option Block) := do
  match ← indexOffset indexIter with
  | none => return none
  | some offset =>
    let b ← getBlock codec r offset
    return some b

def readerIter (codec : Codec) (r : Reader) : Run (Option ReaderIter) := do
  let indexIter ← blockIterInit r.index
  let indexIter ← blockIterSeekToFirst indexIter
  match ← getBlockAtIndex codec r indexIter with
  | none => return none
  | some b =>
    let bi ← blockIterInit b
    let bi ← blockIterSeekToFirst bi
    return some ⟨r,0,some b,some bi,indexIter,[],true,true,.iter⟩

def readerIterInit (codec : Codec) (r : Reader) (key k : Bytes) (itType : ReaderIterType) :
    Run (Option ReaderIter) := do
  let indexIter ← blockIterInit r.index
  let indexIter ← blockIterSeek indexIter key
  match ← getBlockAtIndex codec r indexIter with
  | none => return none
  | some b =>
    let bi ← blockIterInit b
    let bi ← blockIterSeek bi key
    return some ⟨r,0,some b,some bi,indexIter,k,true,true,itType⟩

def readerGet (codec : Codec) (r : Reader) (key : Bytes) : Run (Option ReaderIter) :=
  readerIterInit codec r key key .get

def readerGetPrefix (codec : Codec) (r : Reader) (key : Bytes) : Run (Option ReaderIter) :=
  readerIterInit codec r key key .getPrefix

def readerGetRange (codec : Codec) (r : Reader) (key0 key1 : Bytes) : Run (Option ReaderIter) :=
  readerIterInit codec r key0 key1 .getRange

def needsIndexSeek (it : ReaderIter) (seekKey : Bytes) : Run Bool :=
  if it.first ∨ it.b = none then .ok true
  else match it.bi with
    | none => .error .nullDeref
    | some bi =>
      match blockIterGet bi with
      | none => .ok true
      | some e =>
        if bytesCompare e.key seekKey > 0 then .ok true
        else match blockIterGet it.indexIter with
          | none => .ok true
          | some e => .ok (decide (bytesCompare e.key seekKey < 0))

/-- The index part of `reader_iter_seek`. -/
def seekIndex (it : ReaderIter) (key : Bytes) : Run BlockIter := do
  let needed ← needsIndexSeek it key
  if needed then blockIterSeek it.indexIter key else .ok it.indexIter

/-- The block at the offset, unless it is the one already decoded. -/
def loadBlock (codec : Codec) (it : ReaderIter) (newOffset : ℕ) : Run ReaderIter :=
  if it.b = none ∨ it.blockOffset ≠ newOffset then do
    let b ← getBlock codec it.r newOffset
    let bi ← blockIterInit b
    return { it with blockOffset := newOffset, b := some b, bi := some bi }
  else .ok it

def readerIterSeek (codec : Codec) (it : ReaderIter) (key : Bytes) : Run (Bool × ReaderIter) := do
  let indexIter ← seekIndex it key
  let it := { it with indexIter := indexIter }
  match ← indexOffset it.indexIter with
  | none =>
    -- after the last key
    return (true,{ it with valid := false })
  | some newOffset =>
    let it ← loadBlock codec it newOffset
    match it.bi with
    | none => .error .nullDeref
    | some bi =>
      let bi ← blockIterSeek bi key
      return (true,{ it with bi := some bi, first := true, valid := true })

/-- Whether the entry is one the iterator was made for. -/
def selects (itType : ReaderIterType) (k key : Bytes) : Bool :=
  match itType with
  | .iter => true
  | .get => decide (bytesCompare key k = 0)
  | .getPrefix => decide (k.length ≤ key.length ∧ memcmp k key k.length = 0)
  | .getRange => !decide (bytesCompare key k > 0)

/-- `block_iter_next`, except before the first entry. -/
def moveInBlock (first : Bool) (bi : BlockIter) : Run BlockIter :=
  if first then .ok bi
  else do
    let (bi,_) ← blockIterNext bi
    return bi

def stepInBlock (it : ReaderIter) : Run (ReaderIter × Option Entry) :=
  match it.bi with
  | none => .error .nullDeref
  | some bi => do
    let bi ← moveInBlock it.first bi
    return ({ it with bi := some bi, first := false },blockIterGet bi)

/-- The first entry of the block under the index cursor. -/
def enterBlock (codec : Codec) (it : ReaderIter) : Run (ReaderIter × Option Entry) := do
  match ← getBlockAtIndex codec it.r it.indexIter with
  | none => .error .nullDeref
  | some b =>
    let bi ← blockIterInit b
    let bi ← blockIterSeekToFirst bi
    return ({ it with b := some b, bi := some bi },blockIterGet bi)

/-- On to the next block. The old one is freed first. -/
def stepAcross (codec : Codec) (it : ReaderIter) : Run (ReaderIter × Option Entry) := do
  let (indexIter,more) ← blockIterNext it.indexIter
  let it := { it with b := none, bi := none, indexIter := indexIter, valid := false }
  if more then enterBlock codec it else return (it,none)

/-- The next entry, before it is held against the selection. -/
def advance (codec : Codec) (it : ReaderIter) : Run (ReaderIter × Option Entry) := do
  let (it,e) ← stepInBlock it
  match e with
  | some e => return (it,some e)
  | none => stepAcross codec it

def readerIterNext (codec : Codec) (it : ReaderIter) : Run (Option Entry × ReaderIter) := do
  if it.valid = false then
    return (none,it)
  let (it,e) ← advance codec it
  match e with
  | none => return (none,{ it with valid := false })
  | some e =>
    let valid := selects it.itType it.k e.key
    return (if valid then some e else none,{ it with valid := valid })

end Mtbl
