import Mtbl.File.Frame
import Mtbl.File.Open
import Mtbl.Lib.Loop

/-! `mtbl_verify`: the walk over the data blocks that the trailer announces. Offset and total
advance by the lengths read from the data, in 64 bits; the blocks are counted by one field of the
trailer and the bytes by another. -/
namespace Mtbl
open CRun

/-- The variables of the loop in `verify_data_blocks`. -/
structure VerifyState where
  block : ℕ
  offset : ℕ
  bytesConsumed : ℕ
  deriving DecidableEq, Repr

def VerifyState.start : VerifyState := ⟨1,0,0⟩

/-- The length in front of the block, the bytes it takes and the bytes consumed up to the end of the
block, or `none` where the bounds check fails. -/
def verifyLength (version : FileVersion) (data : Bytes) (bytesDataBlocks : ℕ) (s : VerifyState) :
    Run (Option (ℕ × ℕ × ℕ)) := do
  let (lenLen,len) ← blockLength version (data.drop s.offset)
  let consumed := (s.bytesConsumed+(lenLen+4))%2^64
  let consumed := (consumed+len)%2^64
  if consumed > bytesDataBlocks then
    return none
  return some (lenLen,len,consumed)

def verifyRound (codec : Codec) (version : FileVersion) (data : Bytes)
    (bytesDataBlocks countDataBlocks : ℕ) (s : VerifyState) : Run (VerifyState ⊕ Bool) := do
  if s.block > countDataBlocks then
    return .inr true
  match ← verifyLength version data bytesDataBlocks s with
  | none => return .inr false
  | some (lenLen,len,consumed) =>
    let blockCrc ← mtblFixedDecode32 (data.drop (s.offset+lenLen))
    let rawContents ← readSlice data (s.offset+lenLen+4) len
    if blockCrc ≠ (codec.crc32c rawContents).toNat then
      return .inr false
    return .inl ⟨(s.block+1)%2^64,((s.offset+(lenLen+4))%2^64+len)%2^64,consumed⟩

/-- `mmap` is the mapped data from the file offset on, or `none` where the mapping fails. -/
def verifyDataBlocks (codec : Codec) (version : FileVersion) (mmap : Option Bytes)
    (bytesDataBlocks countDataBlocks fuel : ℕ) : Run Bool :=
  if bytesDataBlocks = 0 ∧ countDataBlocks = 0 then .ok true
  else match mmap with
    | none => .ok false
    | some data => loop (verifyRound codec version data bytesDataBlocks countDataBlocks) fuel .start

/-- A mapping of no bytes fails. -/
def verifyFile (codec : Codec) (file : Bytes) (fuel : ℕ) : Run Bool := do
  match ← mtblReaderInitFd codec file ⟨true⟩ with
  | none => return false
  | some r =>
    let bytesDataBlocks := r.m.bytesDataBlocks
    let dataOffset := (r.m.indexBlockOffset+2^64-bytesDataBlocks)%2^64
    let lenMmapData := (dataOffset+bytesDataBlocks)%2^64
    verifyDataBlocks codec r.m.fileVersion
      (if lenMmapData = 0 then none else some (file.drop dataOffset))
      bytesDataBlocks r.m.countDataBlocks fuel

/-! ### Framed blocks -/

/-- A length, the checksum of the contents and the contents, from the offset on. -/
structure FrameAt (codec : Codec) (version : FileVersion) (data : Bytes) (offset lenLen len : ℕ) :
    Prop where
  length : blockLength version (data.drop offset) = .ok (lenLen,len)
  lenLen_pos : 0 < lenLen
  crc : mtblFixedDecode32 (data.drop (offset+lenLen)) =
    .ok (codec.crc32c ((data.drop (offset+lenLen+4)).take len)).toNat
  inside : offset+lenLen+4+len ≤ data.length

/-- The first `n` framed blocks, end to end, end at the offset. -/
inductive FramedBlocks (codec : Codec) (version : FileVersion) (data : Bytes) : ℕ → ℕ → Prop
  | nil : FramedBlocks codec version data 0 0
  | snoc {n offset lenLen len : ℕ} (blocks : FramedBlocks codec version data n offset)
      (frame : FrameAt codec version data offset lenLen len) :
      FramedBlocks codec version data (n+1) (offset+lenLen+4+len)

/-- At every block that the loop comes to, the contents it goes on to read end inside the data
region. -/
def BodiesInside (codec : Codec) (version : FileVersion) (data : Bytes)
    (bytesDataBlocks countDataBlocks : ℕ) : Prop :=
  ∀ s, Rounds (verifyRound codec version data bytesDataBlocks countDataBlocks) .start s →
    s.block ≤ countDataBlocks → ∀ lenLen len consumed,
      verifyLength version data bytesDataBlocks s = .ok (some (lenLen,len,consumed)) →
      s.offset+lenLen+4+len ≤ bytesDataBlocks

/-- What the verifier is for: it reads no contents outside the data region, and where it accepts,
the region is that many framed blocks and nothing else. -/
def VerifiesSoundly (codec : Codec) (version : FileVersion) (data : Bytes)
    (bytesDataBlocks countDataBlocks : ℕ) : Prop :=
  BodiesInside codec version data bytesDataBlocks countDataBlocks ∧
    ((∃ fuel, verifyDataBlocks codec version (some data) bytesDataBlocks countDataBlocks fuel =
      .ok true) → FramedBlocks codec version data countDataBlocks bytesDataBlocks)

/-- Behind the framed blocks at the front of the region, no announced block has a length that
takes the 64-bit sum past its end and back into the region. -/
def NoLengthWraps (codec : Codec) (version : FileVersion) (data : Bytes)
    (bytesDataBlocks countDataBlocks : ℕ) : Prop :=
  ∀ n < countDataBlocks, ∀ offset ≤ bytesDataBlocks, FramedBlocks codec version data n offset →
    ∀ lenLen len, blockLength version (data.drop offset) = .ok (lenLen,len) →
      (offset+lenLen+4+len)%2^64 ≤ bytesDataBlocks → offset+lenLen+4+len < 2^64

/-- Where the announced number of framed blocks lies at the front of the region, the announced
number of bytes is theirs. -/
def CountsAgree (codec : Codec) (version : FileVersion) (data : Bytes)
    (bytesDataBlocks countDataBlocks : ℕ) : Prop :=
  ∀ offset ≤ bytesDataBlocks, FramedBlocks codec version data countDataBlocks offset →
    offset = bytesDataBlocks

/-! ### The length in front of a block -/

/-- The length is a 64-bit number. It is read from at least one byte that is there, unless the bytes
are no length at all: then the next ones are all continued. -/
theorem blockLength_eq {version : FileVersion} {data : Bytes} {lenLen len : ℕ}
    (h : blockLength version data = .ok (lenLen,len)) :
    lenLen ≤ data.length ∧ len < 2^64 ∧ (lenLen = 0 → len = 0 ∧ Continued 10 data) := by
  cases version with
  | formatV1 =>
    obtain ⟨v,hv,h⟩ := bind_eq_ok.mp h
    obtain ⟨rfl,rfl⟩ := Prod.mk.inj (Except.ok.inj h)
    have := leValue_lt hv
    exact ⟨this.2,by omega,fun h => by omega⟩
  | formatV2 =>
    have hrun : varintDecodeLoop 64 data 0 0 0 = .ok (lenLen,len) := h
    have hle := varintDecodeLoop_le hrun (Nat.two_pow_pos 64)
    refine ⟨by simpa using hle.1,hle.2,fun hzero => ?_⟩
    rcases varintDecodeLoop_bounded 10 data 0 0 0 (by omega : 64 ≤ 0+7*10) (by omega) with
      ⟨hcont,hgiven⟩ | ⟨-,hpos⟩
    · rw [hgiven] at hrun
      obtain ⟨-,rfl⟩ := Prod.mk.inj (Except.ok.inj hrun)
      exact ⟨rfl,hcont⟩
    · have := (hpos _ hrun).1
      omega

/-- Continued bytes do not spell zero. -/
theorem fixedDecode32_continued {data : Bytes} {v : ℕ} (h : Continued 10 data)
    (hv : mtblFixedDecode32 data = .ok v) : v ≠ 0 := by
  cases data with
  | nil => cases hv
  | cons b data =>
    have hb := (continued_cons.mp h).1
    obtain ⟨w,-,hw⟩ := bind_eq_ok.mp hv
    obtain rfl := Except.ok.inj hw
    omega

section
variable {codec : Codec} {version : FileVersion} {data : Bytes}
  {bytesDataBlocks countDataBlocks n offset lenLen len : ℕ}

theorem FramedBlocks.le (h : FramedBlocks codec version data n offset) :
    5*n ≤ offset ∧ offset ≤ data.length := by
  induction h with
  | nil => simp
  | snoc blocks frame ih =>
    have hpos := frame.lenLen_pos
    have hinside := frame.inside
    omega

/-- Lengths leave no choice where a block ends. -/
theorem FramedBlocks.unique {offset' : ℕ} (h : FramedBlocks codec version data n offset)
    (h' : FramedBlocks codec version data n offset') : offset = offset' := by
  induction h generalizing offset' with
  | nil =>
    cases h'
    rfl
  | snoc blocks frame ih =>
    cases h' with
    | snoc blocks' frame' =>
      obtain rfl := ih blocks'
      obtain ⟨rfl,rfl⟩ := Prod.mk.inj (Except.ok.inj (frame.length.symm.trans frame'.length))
      rfl

/-! ### The rounds -/

/-- At the head of every round both sums are where the blocks so far end. -/
def VerifyState.at (n offset : ℕ) : VerifyState := ⟨n+1,offset,offset⟩

/-- The bounds check on the next block, in one sum. -/
theorem verifyLength_at (hlen : blockLength version (data.drop offset) = .ok (lenLen,len)) :
    verifyLength version data bytesDataBlocks (.at n offset) =
      .ok (if (offset+lenLen+4+len)%2^64 > bytesDataBlocks then none
        else some (lenLen,len,(offset+lenLen+4+len)%2^64)) := by
  have hsum : ((offset+(lenLen+4))%2^64+len)%2^64 = (offset+lenLen+4+len)%2^64 := by omega
  simp only [verifyLength,VerifyState.at,hlen,ok_bind,hsum]
  split_ifs <;> rfl

/-- A round behind the length of the next block. -/
theorem verifyRound_at (hn : n < countDataBlocks)
    (hlen : blockLength version (data.drop offset) = .ok (lenLen,len)) :
    verifyRound codec version data bytesDataBlocks countDataBlocks (.at n offset) =
      if (offset+lenLen+4+len)%2^64 > bytesDataBlocks then .ok (.inr false)
      else do
        let blockCrc ← mtblFixedDecode32 (data.drop (offset+lenLen))
        let rawContents ← readSlice data (offset+lenLen+4) len
        if blockCrc ≠ (codec.crc32c rawContents).toNat then
          return .inr false
        return .inl ⟨(n+1+1)%2^64,(offset+lenLen+4+len)%2^64,(offset+lenLen+4+len)%2^64⟩ := by
  have hblock : ¬ (VerifyState.at n offset).block > countDataBlocks := not_lt.mpr hn
  have hsum : ((offset+(lenLen+4))%2^64+len)%2^64 = (offset+lenLen+4+len)%2^64 := by omega
  rw [verifyRound,if_neg hblock,verifyLength_at hlen]
  split_ifs
  · rfl
  · simp only [VerifyState.at,ok_bind,hsum]

/-- A round over a frame that ends inside the region. -/
theorem verifyRound_frame (hdata : data.length < 2^63) (hn : n < countDataBlocks)
    (hblocks : FramedBlocks codec version data n offset)
    (hframe : FrameAt codec version data offset lenLen len)
    (hend : offset+lenLen+4+len ≤ bytesDataBlocks) :
    Continues (verifyRound codec version data bytesDataBlocks countDataBlocks) (.at n offset)
      (.at (n+1) (offset+lenLen+4+len)) := by
  have hinside := hframe.inside
  have hle := hblocks.le
  have hsum : (offset+lenLen+4+len)%2^64 = offset+lenLen+4+len := Nat.mod_eq_of_lt (by omega)
  have hcount : (n+1+1)%2^64 = n+1+1 := Nat.mod_eq_of_lt (by omega)
  rw [Continues,verifyRound_at hn hframe.length,hsum,hcount,if_neg (not_lt.mpr hend),hframe.crc,
    ok_bind,readSlice,if_pos hinside,ok_bind,if_neg (not_not.mpr rfl)]
  rfl

/-- A round that goes on has found a frame. Its contents have been read, so no sum has wrapped. -/
theorem verifyRound_continues (hdata : data.length < 2^63) (hcrc : codec.crc32c [] = 0)
    (hblocks : FramedBlocks codec version data n offset) {s : VerifyState}
    (h : Continues (verifyRound codec version data bytesDataBlocks countDataBlocks)
      (.at n offset) s) :
    n < countDataBlocks ∧ ∃ lenLen len, FrameAt codec version data offset lenLen len ∧
      offset+lenLen+4+len ≤ bytesDataBlocks ∧ s = .at (n+1) (offset+lenLen+4+len) := by
  have hle := hblocks.le
  by_cases hn : (VerifyState.at n offset).block > countDataBlocks
  · rw [Continues,verifyRound,if_pos hn] at h
    cases h
  have hlt : n < countDataBlocks := not_lt.mp hn
  refine ⟨hlt,?_⟩
  cases hlen : blockLength version (data.drop offset) with
  | error e =>
    rw [Continues,verifyRound,if_neg hn,verifyLength,show (VerifyState.at n offset).offset = offset
      from rfl,hlen] at h
    cases h
  | ok l =>
    obtain ⟨lenLen,len⟩ := l
    rw [Continues,verifyRound_at hlt hlen] at h
    split_ifs at h with hend
    · cases h
    obtain ⟨blockCrc,hblock,h⟩ := bind_eq_ok.mp h
    obtain ⟨contents,hread,hrest⟩ := bind_eq_ok.mp h
    rw [readSlice] at hread
    split_ifs at hread with hinside
    obtain rfl := Except.ok.inj hread
    split_ifs at hrest with hne
    · cases hrest
    rw [not_not] at hne
    rw [hne] at hblock
    have hsum : (offset+lenLen+4+len)%2^64 = offset+lenLen+4+len := Nat.mod_eq_of_lt (by omega)
    have hcount : (n+1+1)%2^64 = n+1+1 := Nat.mod_eq_of_lt (by omega)
    rw [hsum,hcount] at hrest
    rw [hsum] at hend
    refine ⟨lenLen,len,⟨hlen,?_,hblock,hinside⟩,not_lt.mp hend,
      (Sum.inl.inj (Except.ok.inj hrest)).symm⟩
    -- four continued bytes are not the checksum of no contents
    apply Nat.pos_of_ne_zero
    rintro rfl
    obtain ⟨rfl,hcont⟩ := (blockLength_eq hlen).2.2 rfl
    rw [List.take_zero,hcrc,Nat.add_zero] at hblock
    exact fixedDecode32_continued hcont hblock rfl

/-- The loop comes to the end of any framed blocks that end inside the region. -/
theorem verify_reaches (hdata : data.length < 2^63) (hn : n ≤ countDataBlocks)
    (hend : offset ≤ bytesDataBlocks) (hblocks : FramedBlocks codec version data n offset) :
    Rounds (verifyRound codec version data bytesDataBlocks countDataBlocks) .start
      (.at n offset) := by
  induction hblocks with
  | nil => exact .refl
  | snoc blocks frame ih =>
    exact (ih (by omega) (by omega)).tail (verifyRound_frame hdata hn blocks frame hend)

/-- The loop comes nowhere else. -/
theorem verify_rounds (hdata : data.length < 2^63) (hcrc : codec.crc32c [] = 0)
    {s : VerifyState} :
    Rounds (verifyRound codec version data bytesDataBlocks countDataBlocks) .start s ↔
      ∃ n offset, s = .at n offset ∧ n ≤ countDataBlocks ∧ offset ≤ bytesDataBlocks ∧
        FramedBlocks codec version data n offset := by
  constructor
  · intro h
    refine h.invariant (P := fun s => ∃ n offset, s = .at n offset ∧ n ≤ countDataBlocks ∧
      offset ≤ bytesDataBlocks ∧ FramedBlocks codec version data n offset)
      ⟨0,0,rfl,Nat.zero_le _,Nat.zero_le _,.nil⟩ ?_
    rintro t t' ⟨n,offset,rfl,-,-,hblocks⟩ hcont
    obtain ⟨hn,lenLen,len,hframe,hend,rfl⟩ := verifyRound_continues hdata hcrc hblocks hcont
    exact ⟨n+1,_,rfl,hn,hend,hblocks.snoc hframe⟩
  · rintro ⟨n,offset,rfl,hn,hend,hblocks⟩
    exact verify_reaches hdata hn hend hblocks

/-- Only the end of the count leaves the loop with success. -/
theorem verifyRound_true {s : VerifyState} :
    verifyRound codec version data bytesDataBlocks countDataBlocks s = .ok (.inr true) ↔
      countDataBlocks < s.block := by
  constructor
  · intro h
    by_contra hblock
    rw [verifyRound,if_neg (by omega)] at h
    obtain ⟨l,-,h⟩ := bind_eq_ok.mp h
    cases l with
    | none => cases h
    | some l =>
      obtain ⟨blockCrc,-,h⟩ := bind_eq_ok.mp h
      obtain ⟨contents,-,h⟩ := bind_eq_ok.mp h
      split_ifs at h <;> cases h
  · intro h
    rw [verifyRound,if_pos h]
    rfl

/-- The loop accepts exactly if the announced number of framed blocks ends inside the region. -/
theorem verifyDataBlocks_accepts (hdata : data.length < 2^63) (hcrc : codec.crc32c [] = 0) :
    (∃ fuel, verifyDataBlocks codec version (some data) bytesDataBlocks countDataBlocks fuel =
      .ok true) ↔ ∃ offset ≤ bytesDataBlocks,
        FramedBlocks codec version data countDataBlocks offset := by
  by_cases hzero : bytesDataBlocks = 0 ∧ countDataBlocks = 0
  · obtain ⟨rfl,rfl⟩ := hzero
    exact iff_of_true ⟨0,rfl⟩ ⟨0,le_rfl,.nil⟩
  simp only [verifyDataBlocks,if_neg hzero,loop_returns,verify_rounds hdata hcrc,verifyRound_true]
  constructor
  · rintro ⟨t,⟨n,offset,rfl,hn,hend,hblocks⟩,hcount⟩
    have hle : countDataBlocks ≤ n := Nat.le_of_lt_succ hcount
    obtain rfl := hle.antisymm hn
    exact ⟨offset,hend,hblocks⟩
  · rintro ⟨offset,hend,hblocks⟩
    exact ⟨_,⟨_,_,rfl,le_rfl,hend,hblocks⟩,Nat.lt_succ_self _⟩

/-- No contents outside the region are read exactly if no length wraps. -/
theorem bodiesInside_iff (hbytes : bytesDataBlocks < 2^64) (hdata : data.length < 2^63)
    (hcrc : codec.crc32c [] = 0) :
    BodiesInside codec version data bytesDataBlocks countDataBlocks ↔
      NoLengthWraps codec version data bytesDataBlocks countDataBlocks := by
  constructor
  · intro h n hn offset hoffset hblocks lenLen len hlen hsum
    have hrounds := (@verify_rounds _ _ _ _ countDataBlocks hdata hcrc _).mpr
      ⟨n,offset,rfl,hn.le,hoffset,hblocks⟩
    have hat := @verifyLength_at _ _ bytesDataBlocks n _ _ _ hlen
    rw [if_neg (not_lt.mpr hsum)] at hat
    exact (h _ hrounds hn _ _ _ hat).trans_lt hbytes
  · intro h s hrounds hblock lenLen len consumed hlength
    obtain ⟨n,offset,rfl,-,hoffset,hblocks⟩ := (verify_rounds hdata hcrc).mp hrounds
    cases hlen : blockLength version (data.drop offset) with
    | error e =>
      rw [verifyLength,show (VerifyState.at n offset).offset = offset from rfl,hlen] at hlength
      cases hlength
    | ok l =>
      obtain ⟨lenLen',len'⟩ := l
      rw [verifyLength_at hlen] at hlength
      split_ifs at hlength with hsum
      · cases hlength
      obtain ⟨rfl,h'⟩ := Prod.mk.inj (Option.some.inj (Except.ok.inj hlength))
      obtain ⟨rfl,-⟩ := Prod.mk.inj h'
      have hlt := h n hblock offset hoffset hblocks _ _ hlen (not_lt.mp hsum)
      rw [Nat.mod_eq_of_lt hlt] at hsum
      exact not_lt.mp hsum

end

/-- The verifier is sound on exactly the data whose lengths do not wrap and whose two counts agree.
The counts are 64-bit numbers, a file is smaller than 2^63 bytes, and the checksum of no bytes is
0. -/
theorem verifies_soundly_iff (codec : Codec) (hcrc : codec.crc32c [] = 0) (version : FileVersion)
    (data : Bytes) (hdata : data.length < 2^63) (bytesDataBlocks countDataBlocks : ℕ)
    (hbytes : bytesDataBlocks < 2^64) :
    VerifiesSoundly codec version data bytesDataBlocks countDataBlocks ↔
      NoLengthWraps codec version data bytesDataBlocks countDataBlocks ∧
        CountsAgree codec version data bytesDataBlocks countDataBlocks := by
  rw [VerifiesSoundly,bodiesInside_iff hbytes hdata hcrc,verifyDataBlocks_accepts hdata hcrc]
  apply and_congr_right'
  constructor
  · intro h offset hoffset hblocks
    exact hblocks.unique (h ⟨offset,hoffset,hblocks⟩)
  · rintro h ⟨offset,hoffset,hblocks⟩
    obtain rfl := h offset hoffset hblocks
    exact hblocks

/-- One block of one byte. -/
theorem verifies_soundly_one :
    VerifiesSoundly storingCodec .formatV2 (frame storingCodec [7]) 6 1 := by
  have hlen : blockLength .formatV2 (frame storingCodec [7]) = .ok (1,1) := by decide +kernel
  have hframe : FramedBlocks storingCodec .formatV2 (frame storingCodec [7]) 1 6 :=
    .snoc .nil ⟨hlen,by decide,by decide +kernel,by decide +kernel⟩
  refine (verifies_soundly_iff storingCodec (by decide) .formatV2 _ (by decide +kernel) 6 1
    (by decide)).mpr ⟨?_,fun offset _ h => h.unique hframe⟩
  intro n hn offset _ hblocks lenLen len h _
  obtain rfl : n = 0 := Nat.lt_one_iff.mp hn
  obtain rfl : 0 = offset := FramedBlocks.nil.unique hblocks
  obtain ⟨rfl,rfl⟩ := Prod.mk.inj (Except.ok.inj (hlen.symm.trans h))
  decide

/-- A file whose trailer announces one byte of data and no blocks. -/
def strayByteFile : Bytes :=
  0::frame storingCodec [0,0,0,0,1,0,0,0]++metadataWrite ⟨.formatV2,1,8192,0,0,0,1,13,0,0⟩

/-- No block is looked at, and the byte is accepted all the same. The length 2^64-14 passes the
bounds check, as its block ends where it starts. -/
theorem verifies_soundly_fails :
    (verifyFile storingCodec strayByteFile 1 = .ok true ∧
      ¬ VerifiesSoundly storingCodec .formatV2 strayByteFile 1 0) ∧
    ¬ VerifiesSoundly storingCodec .formatV2 (mtblVarintEncode64 (2^64-14)++[0,0,0,0]) 14 1 := by
  refine ⟨⟨by decide +kernel,?_⟩,?_⟩
  · rintro ⟨-,h⟩
    have hblocks := h ⟨1,by decide +kernel⟩
    cases hblocks
  · rintro ⟨h,-⟩
    have hinside := h .start .refl (by decide) 10 (2^64-14) 0 (by decide +kernel)
    revert hinside
    decide

end Mtbl
