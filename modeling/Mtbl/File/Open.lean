import Mtbl.Block.Accepted
import Mtbl.Codec.Crc32c
import Mtbl.File.Reader

/-! Opening a file of arbitrary bytes. `mtbl_reader_init_fd` checks that the trailer leaves room for
a smallest index block, but not that the length stored in front of the index block fits into the
room that is there. -/
namespace Mtbl
open CRun

/-- The trailer is present, with a known magic number, and says that the index block starts far
enough in front of it. -/
def TrailerAdmits (file : Bytes) (m : Metadata) : Prop :=
  mtblMetadataSize ≤ file.length ∧
    metadataRead (file.drop (file.length-mtblMetadataSize)) = .ok (some m) ∧
    m.indexBlockOffset+mtblMetadataSize+minBlockLength m.fileVersion ≤ file.length

/-- The length that is stored at the index block's offset is that of no block at all or of eight
bytes at least, and the block it spells ends in front of the trailer. -/
def IndexFits (file : Bytes) (m : Metadata) : Prop :=
  ∃ lenLen len, blockLength m.fileVersion (file.drop m.indexBlockOffset) = .ok (lenLen,len) ∧
    (len < 4 ∨ 8 ≤ len) ∧ m.indexBlockOffset+lenLen+4+len+mtblMetadataSize ≤ file.length

/-- The file is refused, or opened with its index block between the stored offset and the trailer.
Runs that fail an assertion or read behind the end of the file return neither. -/
def OpensSafely (codec : Codec) (file : Bytes) (opt : ReaderOptions) : Prop :=
  mtblReaderInitFd codec file opt = .ok none ∨
    ∃ r lenLen len, mtblReaderInitFd codec file opt = .ok (some r) ∧
      blockLength r.m.fileVersion (file.drop r.m.indexBlockOffset) = .ok (lenLen,len) ∧
      r.index.data = file.drop (r.m.indexBlockOffset+lenLen+4) ∧ r.index.size ≤ len ∧
      r.m.indexBlockOffset+lenLen+4+len+mtblMetadataSize ≤ file.length

/-! ### The trailer -/

theorem fixedDecode64_ok {bs : Bytes} (h : 8 ≤ bs.length) :
    ∃ v, mtblFixedDecode64 bs = .ok v ∧ v < 2^64 := leValue_ok h

/-- The whole trailer can be read; the fields are 64-bit. -/
theorem metadataRead_ok {buf : Bytes} (h : mtblMetadataSize ≤ buf.length) :
    ∃ o, metadataRead buf = .ok o ∧ ∀ m ∈ o, m.indexBlockOffset < 2^64 := by
  have hsize : mtblMetadataSize = 512 := rfl
  obtain ⟨magic,hmagic,-⟩ := @leValue_ok 4 (buf.drop (mtblMetadataSize-4))
    (by rw [List.length_drop]; omega)
  unfold metadataRead
  rw [show mtblFixedDecode32 (buf.drop (mtblMetadataSize-4)) = _ from hmagic,ok_bind]
  generalize (if magic = mtblMagicV1 then some FileVersion.formatV1
    else if magic = mtblMagic then some FileVersion.formatV2 else none) = version
  cases version with
  | none => exact ⟨none,rfl,fun m hm => by cases hm⟩
  | some v =>
    obtain ⟨v0,h0,hlt⟩ := @fixedDecode64_ok buf (by omega)
    obtain ⟨v1,h1,-⟩ := @fixedDecode64_ok (buf.drop 8) (by rw [List.length_drop]; omega)
    obtain ⟨v2,h2,-⟩ := @fixedDecode64_ok (buf.drop 16) (by rw [List.length_drop]; omega)
    obtain ⟨v3,h3,-⟩ := @fixedDecode64_ok (buf.drop 24) (by rw [List.length_drop]; omega)
    obtain ⟨v4,h4,-⟩ := @fixedDecode64_ok (buf.drop 32) (by rw [List.length_drop]; omega)
    obtain ⟨v5,h5,-⟩ := @fixedDecode64_ok (buf.drop 40) (by rw [List.length_drop]; omega)
    obtain ⟨v6,h6,-⟩ := @fixedDecode64_ok (buf.drop 48) (by rw [List.length_drop]; omega)
    obtain ⟨v7,h7,-⟩ := @fixedDecode64_ok (buf.drop 56) (by rw [List.length_drop]; omega)
    obtain ⟨v8,h8,-⟩ := @fixedDecode64_ok (buf.drop 64) (by rw [List.length_drop]; omega)
    refine ⟨_,by simp only [h0,h1,h2,h3,h4,h5,h6,h7,h8,ok_bind]; rfl,?_⟩
    intro m hm
    obtain rfl := Option.some.inj hm
    exact hlt

/-- The 64-bit sum of the check either does not wrap or falls below the offset. -/
theorem blockEnd_iff {offset room length : ℕ} (hoffset : offset < 2^64) (hroom : room < 2^32)
    (hlength : length < 2^64) :
    (¬ ((offset+room)%2^64 > length ∨ (offset+room)%2^64 < offset)) ↔ offset+room ≤ length := by
  omega

/-! ### The length in front of the index block -/

/-- Ten bytes are enough for any 64-bit varint. -/
theorem varintDecodeLoop_ok {maxShift : ℕ} (k : ℕ) (data : Bytes) (shift len val : ℕ)
    (hk : maxShift ≤ shift+7*k) (hlen : k ≤ data.length) :
    ∃ r, varintDecodeLoop maxShift data shift len val = .ok r := by
  induction k generalizing data shift len val with
  | zero =>
    cases data with
    | nil => exact ⟨_,by rw [varintDecodeLoop,if_neg (by omega)]⟩
    | cons b data => exact ⟨_,by rw [varintDecodeLoop,if_neg (by omega)]⟩
  | succ k ih =>
    cases data with
    | nil => simp at hlen
    | cons b data =>
      rw [varintDecodeLoop]
      simp only
      split_ifs with hshift hcont
      · exact ⟨_,rfl⟩
      · exact ih data (shift+7) (len+1) _ (by omega) (by simpa using hlen)
      · exact ⟨_,rfl⟩

theorem blockLength_ok {version : FileVersion} {data : Bytes} (h : 10 ≤ data.length) :
    ∃ lenLen len, blockLength version data = .ok (lenLen,len) := by
  cases version with
  | formatV1 =>
    obtain ⟨v,hv,-⟩ := @leValue_ok 4 data (by omega)
    exact ⟨4,v,by rw [blockLength,show mtblFixedDecode32 data = _ from hv]; rfl⟩
  | formatV2 =>
    obtain ⟨⟨n,v⟩,hr⟩ := @varintDecodeLoop_ok 64 10 data 0 0 0 (by omega) h
    exact ⟨n,v,hr⟩

/-! ### The index block -/

/-- A block of four to seven bytes fails the assertion in `num_restarts`. -/
theorem blockInit_ok_iff {front : Front} {data : Bytes} {size : ℕ} (h : size ≤ data.length) :
    (∃ B, blockInit front data size = .ok B) ↔ size < 4 ∨ 8 ≤ size := by
  unfold blockInit
  by_cases hsmall : size < 4
  · rw [if_pos hsmall]
    exact iff_of_true ⟨_,rfl⟩ (.inl hsmall)
  · rw [if_neg hsmall]
    by_cases hsize : 8 ≤ size
    · obtain ⟨n,hn,-⟩ := @leValue_ok 4 (data.drop (size-4))
        (by rw [List.length_drop]; omega)
      refine iff_of_true ?_ (.inr hsize)
      simp only [numRestarts]
      rw [check_of (by omega),ok_bind,show mtblFixedDecode32 (data.drop (size-4)) = _ from hn,
        ok_bind]
      split_ifs <;> exact ⟨_,rfl⟩
    · refine iff_of_false ?_ (by omega)
      rintro ⟨B,hB⟩
      obtain ⟨n,hn,-⟩ := bind_eq_ok.mp hB
      have := (numRestarts_lt hn).1
      simp only at this
      omega

theorem blockInit_fields {front : Front} {data : Bytes} {size : ℕ} {B : Block}
    (h : blockInit front data size = .ok B) :
    B.data = data ∧ B.size ≤ size := by
  unfold blockInit at h
  split_ifs at h with hsmall
  · obtain rfl := Except.ok.inj h
    exact ⟨rfl,Nat.zero_le _⟩
  · obtain ⟨n,-,h⟩ := bind_eq_ok.mp h
    split_ifs at h
    all_goals
      obtain rfl := Except.ok.inj h
      exact ⟨rfl,by simp only; omega⟩

/-! ### Opening -/

section
variable {codec : Codec} {file : Bytes} {opt : ReaderOptions}

/-- What the function does with the trailer: it refuses the file or goes on to the index block. -/
theorem mtblReaderInitFd_trailer (hlength : file.length < 2^63) (hopt : opt.verifyChecksums = false) :
    ((∀ m, ¬ TrailerAdmits file m) ∧ mtblReaderInitFd codec file opt = .ok none) ∨
      ∃ m, TrailerAdmits file m ∧ mtblReaderInitFd codec file opt = (do
        let l ← blockLength m.fileVersion (file.drop m.indexBlockOffset)
        let index ← blockInit (codec.front (file.drop (m.indexBlockOffset+l.1+4)))
          (file.drop (m.indexBlockOffset+l.1+4)) l.2
        return some ⟨m,file,opt,index⟩) := by
  unfold mtblReaderInitFd
  by_cases hsize : file.length < mtblMetadataSize
  · rw [if_pos hsize]
    exact .inl ⟨fun m hm => absurd hm.1 (by omega),rfl⟩
  rw [if_neg hsize]
  obtain ⟨o,hread,hoffset⟩ := @metadataRead_ok
    (file.drop (file.length-mtblMetadataSize)) (by rw [List.length_drop]; omega)
  rw [hread,ok_bind]
  cases o with
  | none =>
    refine .inl ⟨fun m hm => ?_,rfl⟩
    cases hread.symm.trans hm.2.1
  | some m =>
    have hroom : mtblMetadataSize+minBlockLength m.fileVersion < 2^32 := by
      cases m.fileVersion <;> simp [mtblMetadataSize,minBlockLength]
    have hend := blockEnd_iff (hoffset m rfl) hroom (show file.length < 2^64 by omega)
    rw [← Nat.add_assoc] at hend
    simp only
    by_cases hfits : m.indexBlockOffset+mtblMetadataSize+minBlockLength m.fileVersion ≤ file.length
    · rw [if_neg (hend.mpr hfits)]
      refine .inr ⟨m,⟨by omega,hread,hfits⟩,?_⟩
      simp only [verifyChecksum,hopt,Bool.false_eq_true,if_false,ok_bind]
    · rw [if_pos (not_not.mp (fun h => hfits (hend.mp h)))]
      refine .inl ⟨fun m' hm => hfits ?_,rfl⟩
      obtain rfl := Option.some.inj (Except.ok.inj (hread.symm.trans hm.2.1))
      exact hm.2.2

/-- With checksums off, opening is safe exactly if the index block of every trailer that is
admitted fits. A file is smaller than 2^63 bytes. -/
theorem opens_safely_iff (codec : Codec) (file : Bytes) (hlength : file.length < 2^63)
    (opt : ReaderOptions) (hopt : opt.verifyChecksums = false) :
    OpensSafely codec file opt ↔ ∀ m, TrailerAdmits file m → IndexFits file m := by
  rcases @mtblReaderInitFd_trailer codec _ _ hlength hopt with
    ⟨hnone,hrun⟩ | ⟨m,hm,hrun⟩
  · exact iff_of_true (.inl hrun) (fun m hm => absurd hm (hnone m))
  have hunique : ∀ m', TrailerAdmits file m' → m' = m := fun m' hm' =>
    Option.some.inj (Except.ok.inj (hm'.2.1.symm.trans hm.2.1))
  have hroom : 13 ≤ minBlockLength m.fileVersion := by
    cases m.fileVersion <;> simp [minBlockLength]
  obtain ⟨lenLen,len,hlen⟩ := @blockLength_ok m.fileVersion
    (file.drop m.indexBlockOffset) (by
      have := hm.2.2
      have hsize : mtblMetadataSize = 512 := rfl
      rw [List.length_drop]
      omega)
  rw [hlen,ok_bind] at hrun
  constructor
  · intro hsafe m' hm'
    obtain rfl := hunique m' hm'
    rcases hsafe with hnull | ⟨r,lenLen',len',hsome,hlen',-,-,hinside⟩
    · rw [hrun] at hnull
      obtain ⟨B,-,hB⟩ := bind_eq_ok.mp hnull
      cases hB
    · rw [hrun] at hsome
      obtain ⟨B,hinit,hB⟩ := bind_eq_ok.mp hsome
      obtain rfl := Option.some.inj (Except.ok.inj hB)
      obtain ⟨rfl,rfl⟩ := Prod.mk.inj (Except.ok.inj (hlen.symm.trans hlen'))
      refine ⟨lenLen,len,hlen,(blockInit_ok_iff ?_).mp ⟨B,hinit⟩,hinside⟩
      rw [List.length_drop]
      simp only at hinside
      omega
  · intro hfits
    obtain ⟨lenLen',len',hlen',hshort,hinside⟩ := hfits m hm
    obtain ⟨rfl,rfl⟩ := Prod.mk.inj (Except.ok.inj (hlen.symm.trans hlen'))
    obtain ⟨B,hinit⟩ := (@blockInit_ok_iff (codec.front (file.drop (m.indexBlockOffset+lenLen+4)))
      (file.drop (m.indexBlockOffset+lenLen+4)) len
      (by rw [List.length_drop]; omega)).mpr hshort
    obtain ⟨hdata,hsize⟩ := blockInit_fields hinit
    refine .inr ⟨⟨m,file,opt,B⟩,lenLen,len,?_,hlen,hdata,hsize,hinside⟩
    simp only [hrun,hinit,ok_bind,pure_eq_ok]

end

/-! ### Runs on given files -/

/-- Thirteen bytes, and a trailer that says the index block starts at offset 0. -/
def indexFile (index : Bytes) : Bytes :=
  index++metadataWrite ⟨.formatV2,0,8192,0,0,0,0,index.length,0,0⟩

theorem indexFile_trailer {index : Bytes} {m : Metadata} (h : TrailerAdmits (indexFile index) m) :
    m = (⟨.formatV2,0,8192,0,0,0,0,index.length%2^64,0,0⟩ : Metadata) := by
  have hread := h.2.1
  have hdrop : (indexFile index).drop ((indexFile index).length-mtblMetadataSize) =
      metadataWrite ⟨.formatV2,0,8192,0,0,0,0,index.length,0,0⟩++[] := by
    rw [indexFile,List.length_append,metadataWrite_length,Nat.add_sub_cancel,List.drop_left,
      List.append_nil]
  rw [hdrop,metadataRead_write] at hread
  exact (Option.some.inj (Except.ok.inj hread)).symm

/-- A file without data blocks, its index block with one restart point. -/
theorem opens_safely_smallest :
    OpensSafely storingCodec (indexFile [8,0,0,0,0,0,0,0,0,1,0,0,0]) ⟨false⟩ := by
  refine (opens_safely_iff storingCodec _ (by decide +kernel) ⟨false⟩ rfl).mpr (fun m hm => ?_)
  obtain rfl := indexFile_trailer hm
  exact ⟨1,8,by decide +kernel,.inr le_rfl,by decide +kernel⟩

/-- The stored length 16383 makes `block_init` read behind the end of the file, the stored length 4
makes it fail an assertion. -/
theorem opens_safely_fails :
    ¬ OpensSafely storingCodec (indexFile [255,127,0,0,0,0,0,0,0,0,0,0,0]) ⟨false⟩ ∧
    ¬ OpensSafely storingCodec (indexFile [4,0,0,0,0,0,0,0,0,0,0,0,0]) ⟨false⟩ := by
  have hbehind : mtblReaderInitFd storingCodec
      (indexFile [255,127,0,0,0,0,0,0,0,0,0,0,0]) ⟨false⟩ = .error .outOfBounds := by
    decide +kernel
  have hassert : mtblReaderInitFd storingCodec
      (indexFile [4,0,0,0,0,0,0,0,0,0,0,0,0]) ⟨false⟩ = .error .assertion := by decide +kernel
  constructor
  · rintro (h | ⟨r,lenLen,len,h,-⟩)
    · cases hbehind.symm.trans h
    · cases hbehind.symm.trans h
  · rintro (h | ⟨r,lenLen,len,h,-⟩)
    · cases hassert.symm.trans h
    · cases hassert.symm.trans h

end Mtbl
