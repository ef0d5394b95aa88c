import Mtbl.Codec.Fixed

/-! The 512-byte trailer: nine 64-bit fields, zero padding and the magic number, which also says the
format version. -/
namespace Mtbl
open CRun

inductive FileVersion
  | formatV1
  | formatV2
  deriving DecidableEq, Repr

structure Metadata where
  fileVersion : FileVersion
  indexBlockOffset : ℕ
  dataBlockSize : ℕ
  compressionAlgorithm : ℕ
  countEntries : ℕ
  countDataBlocks : ℕ
  bytesDataBlocks : ℕ
  bytesIndexBlock : ℕ
  bytesKeys : ℕ
  bytesValues : ℕ
  deriving DecidableEq, Repr

def mtblMagicV1 : ℕ := 0x77846676
def mtblMagic : ℕ := 0x4D54424C
def mtblMetadataSize : ℕ := 512

def metadataFields (m : Metadata) : List ℕ :=
  [m.indexBlockOffset,m.dataBlockSize,m.compressionAlgorithm,m.countEntries,m.countDataBlocks,
    m.bytesDataBlocks,m.bytesIndexBlock,m.bytesKeys,m.bytesValues]

def metadataWrite (m : Metadata) : Bytes :=
  let p := (metadataFields m).flatMap mtblFixedEncode64
  p++List.replicate (mtblMetadataSize-p.length-4) 0++mtblFixedEncode32 mtblMagic

def metadataRead (buf : Bytes) : Run (Option Metadata) := do
  let magic ← mtblFixedDecode32 (buf.drop (mtblMetadataSize-4))
  let version := if magic = mtblMagicV1 then some FileVersion.formatV1
    else if magic = mtblMagic then some FileVersion.formatV2 else none
  match version with
  | none => return none
  | some v =>
    let indexBlockOffset ← mtblFixedDecode64 buf
    let dataBlockSize ← mtblFixedDecode64 (buf.drop 8)
    let compressionAlgorithm ← mtblFixedDecode64 (buf.drop 16)
    let countEntries ← mtblFixedDecode64 (buf.drop 24)
    let countDataBlocks ← mtblFixedDecode64 (buf.drop 32)
    let bytesDataBlocks ← mtblFixedDecode64 (buf.drop 40)
    let bytesIndexBlock ← mtblFixedDecode64 (buf.drop 48)
    let bytesKeys ← mtblFixedDecode64 (buf.drop 56)
    let bytesValues ← mtblFixedDecode64 (buf.drop 64)
    return some ⟨v,indexBlockOffset,dataBlockSize,compressionAlgorithm,countEntries,
      countDataBlocks,bytesDataBlocks,bytesIndexBlock,bytesKeys,bytesValues⟩

/-- Every counter as the 64-bit field stores it. -/
def Metadata.stored (m : Metadata) : Metadata where
  fileVersion := .formatV2
  indexBlockOffset := m.indexBlockOffset%2^64
  dataBlockSize := m.dataBlockSize%2^64
  compressionAlgorithm := m.compressionAlgorithm%2^64
  countEntries := m.countEntries%2^64
  countDataBlocks := m.countDataBlocks%2^64
  bytesDataBlocks := m.bytesDataBlocks%2^64
  bytesIndexBlock := m.bytesIndexBlock%2^64
  bytesKeys := m.bytesKeys%2^64
  bytesValues := m.bytesValues%2^64

theorem metadataFields_bytes_length (m : Metadata) :
    ((metadataFields m).flatMap mtblFixedEncode64).length = 72 :=
  flatMap_length _ 8 mtblFixedEncode64_length _

@[simp] theorem metadataWrite_length (m : Metadata) :
    (metadataWrite m).length = mtblMetadataSize := by
  simp only [metadataWrite,List.length_append,List.length_replicate,metadataFields_bytes_length,
    mtblFixedEncode32_length,mtblMetadataSize]

/-- Field `i` of the trailer, read back. -/
theorem metadataFields_read (m : Metadata) (tail : Bytes) {i v : ℕ}
    (hi : (metadataFields m)[i]? = some v) :
    mtblFixedDecode64 (((metadataFields m).flatMap mtblFixedEncode64++tail).drop (i*8)) =
      .ok (v%2^64) := by
  obtain ⟨rest,hrest⟩ := flatMap_drop mtblFixedEncode64 8 mtblFixedEncode64_length _ hi
  have hlt := (List.getElem?_eq_some_iff.mp hi).1
  have hlen := flatMap_length mtblFixedEncode64 8 mtblFixedEncode64_length (metadataFields m)
  rw [List.drop_append_of_le_length (by omega),hrest,List.append_assoc,mtblFixedDecode64_encode64]

theorem metadataRead_write (m : Metadata) (rest : Bytes) :
    metadataRead (metadataWrite m++rest) = .ok (some m.stored) := by
  have hmagic : mtblFixedDecode32 ((metadataWrite m++rest).drop (mtblMetadataSize-4)) =
      .ok mtblMagic := by
    have hpre : ((metadataFields m).flatMap mtblFixedEncode64++List.replicate
        (mtblMetadataSize-((metadataFields m).flatMap mtblFixedEncode64).length-4) 0).length =
        mtblMetadataSize-4 := by
      simp only [List.length_append,List.length_replicate,metadataFields_bytes_length,
        mtblMetadataSize]
    simp only [metadataWrite]
    rw [← hpre,List.append_assoc,List.drop_left,mtblFixedDecode32_encode32]
    rfl
  obtain ⟨tail,htail⟩ : ∃ tail, metadataWrite m++rest =
      (metadataFields m).flatMap mtblFixedEncode64++tail :=
    ⟨_,by simp only [metadataWrite,List.append_assoc]; rfl⟩
  have hread := fun i v => metadataFields_read m tail (i := i) (v := v)
  unfold metadataRead
  rw [hmagic,ok_bind,htail]
  have h0 := hread 0 _ rfl
  have h1 := hread 1 _ rfl
  have h2 := hread 2 _ rfl
  have h3 := hread 3 _ rfl
  have h4 := hread 4 _ rfl
  have h5 := hread 5 _ rfl
  have h6 := hread 6 _ rfl
  have h7 := hread 7 _ rfl
  have h8 := hread 8 _ rfl
  simp only [Nat.zero_mul,List.drop_zero] at h0
  simp only [h0,h1,h2,h3,h4,h5,h6,h7,h8,ok_bind]
  rfl

end Mtbl
