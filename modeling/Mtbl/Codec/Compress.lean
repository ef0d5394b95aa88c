import Mtbl.Codec.Inflate
import Mtbl.Lib.Writes

/-! The compressors over the functions of the compression libraries, and the way back. Whether the
decompressor gives the input again is a question of sizes: each pair of functions has limits of its
own, and the limits of the two are not the same. -/
namespace Mtbl
open CRun Writes

/-- What `deflate` leaves under `Z_FINISH`. -/
structure Deflated where
  streamEnd : Bool
  availIn : ℕ
  out : Bytes

/-- The allocator and the libraries. The compressors are given the input and the room for their
output; those of LZ4 return no bytes where they fail. -/
structure CompressLibs where
  allocates : ℕ → Bool
  lz4CompressBound : ℕ → ℕ
  lz4CompressDefault : Bytes → ℕ → Bytes
  lz4CompressHc : Bytes → ℕ → ℤ → Bytes
  zstdMinCLevel : ℤ
  zstdMaxCLevel : ℤ
  zstdCompressBound : ℕ → ℕ
  zstdCompress : Bytes → ℕ → ℤ → ℕ × Bytes
  zstdIsError : ℕ → Bool
  snappyMaxCompressedLength : ℕ → ℕ
  snappyCompress : Bytes → ℕ → Option Bytes
  deflateInit : ℤ → Bool
  deflate : ℤ → Bytes → ℕ → Deflated
  deflateEnd : Deflated → Bool

section
variable (libs : CompressLibs)

/-- What the two LZ4 compressors have in common: the block behind the 32-bit size of the input. -/
def compressLz4 (compress : ℕ → Bytes) (input : Bytes) : Run (Option Bytes) := do
  if input.length > intMax then
    return none
  let lz4Size := libs.lz4CompressBound input.length
  check (libs.allocates (lz4Size+4) = true)
  let lz4Bytes := compress lz4Size
  if lz4Bytes.length = 0 then
    return none
  return some (mtblFixedEncode32 input.length++lz4Bytes)

def mtblCompressLz4 (input : Bytes) : Run (Option Bytes) :=
  compressLz4 libs (libs.lz4CompressDefault input) input

def lz4hcLevel (compressionLevel : ℤ) : ℤ := if compressionLevel < 0 then 0 else compressionLevel

def mtblCompressLz4hc (input : Bytes) (compressionLevel : ℤ) : Run (Option Bytes) :=
  compressLz4 libs (fun lz4Size => libs.lz4CompressHc input lz4Size (lz4hcLevel compressionLevel))
    input

def zstdLevel (compressionLevel : ℤ) : ℤ :=
  if compressionLevel < libs.zstdMinCLevel then libs.zstdMinCLevel
  else if compressionLevel > libs.zstdMaxCLevel then libs.zstdMaxCLevel
  else compressionLevel

/-- The room for the frame, twice the bound where an `int` holds that. -/
def zstdRoom (inputSize : ℕ) : ℕ :=
  let zstdSize := libs.zstdCompressBound inputSize
  if zstdSize < intMax/2 then zstdSize*2 else zstdSize

def mtblCompressZstd (input : Bytes) (compressionLevel : ℤ) : Run (Option Bytes) := do
  if input.length > intMax then
    return none
  let zstdSize := zstdRoom libs input.length
  check (libs.allocates zstdSize = true)
  let ret := libs.zstdCompress input zstdSize (zstdLevel libs compressionLevel)
  if libs.zstdIsError ret.1 then
    return none
  return some ret.2

def mtblCompressSnappy (input : Bytes) : Run (Option Bytes) := do
  let outputSize := libs.snappyMaxCompressedLength input.length
  check (libs.allocates outputSize = true)
  return libs.snappyCompress input outputSize

def zlibLevel (compressionLevel : ℤ) : ℤ :=
  if compressionLevel < zDefaultCompression then 0
  else if compressionLevel > 9 then 9
  else compressionLevel

/-- The buffer is twice the input. Both lengths of the stream are 32 bits wide. -/
def mtblCompressZlib (input : Bytes) (compressionLevel : ℤ) : Run (Option Bytes) := do
  let outputSize := 2*input.length%2^64
  check (libs.allocates outputSize = true)
  check (libs.deflateInit (zlibLevel compressionLevel) = true)
  let zs := libs.deflate (zlibLevel compressionLevel) (input.take (input.length%2^32))
    (outputSize%2^32)
  check (zs.streamEnd = true)
  check (zs.availIn = 0)
  if libs.deflateEnd zs then
    return some zs.out
  return none

/-- `mtbl_compress`. -/
def mtblCompressInto (compressionType : CompressionType) (input : Bytes) : Run (Option Bytes) :=
  match compressionType with
  | .none => .ok none
  | .snappy => mtblCompressSnappy libs input
  | .zlib => mtblCompressZlib libs input zDefaultCompression
  | .lz4 => mtblCompressLz4 libs input
  | .lz4hc => mtblCompressLz4hc libs input 9
  | .zstd => mtblCompressZstd libs input 9

/-- `mtbl_compress_level`. -/
def mtblCompressLevelInto (compressionType : CompressionType) (compressionLevel : ℤ)
    (input : Bytes) : Run (Option Bytes) :=
  match compressionType with
  | .none => .ok none
  | .snappy => mtblCompressSnappy libs input
  | .zlib => mtblCompressZlib libs input compressionLevel
  | .lz4 => mtblCompressLz4 libs input
  | .lz4hc => mtblCompressLz4hc libs input compressionLevel
  | .zstd => mtblCompressZstd libs input compressionLevel

end

/-! ### What a compressed block is -/

/-- The contracts of the encoders: what they return is a block, a frame or a stream of their input. -/
structure EncoderContracts (libs : CompressLibs) (decoders : DecompressLibs)
    (lz4Block zstdFrame : Bytes → Option Bytes) (stream : Bytes → ZStream) : Prop where
  lz4 : ∀ src cap, libs.lz4CompressDefault src cap ≠ [] →
    lz4Block (libs.lz4CompressDefault src cap) = some src
  lz4hc : ∀ src cap level, libs.lz4CompressHc src cap level ≠ [] →
    lz4Block (libs.lz4CompressHc src cap level) = some src
  zstd : ∀ src cap level, libs.zstdIsError (libs.zstdCompress src cap level).1 = false →
    zstdFrame (libs.zstdCompress src cap level).2 = some src ∧
      decoders.zstdGetFrameContentSize (libs.zstdCompress src cap level).2 = src.length
  snappy : ∀ src cap z, libs.snappyCompress src cap = some z →
    decoders.snappyUncompressedLength z = some src.length ∧
      decoders.snappyUncompress z src.length = some (src.length,src)
  deflate : ∀ level src room, (libs.deflate level src room).streamEnd = true →
    (libs.deflate level src room).out.length ≤ room ∧
      stream (libs.deflate level src room).out =
        .complete (libs.deflate level src room).out.length src

/-- One of the two functions has made `z` of the input. -/
def CompressedTo (libs : CompressLibs) (compressionType : CompressionType) (input z : Bytes) : Prop :=
  mtblCompressInto libs compressionType input = .ok (some z) ∨
    ∃ level, mtblCompressLevelInto libs compressionType level input = .ok (some z)

/-- The buffer of the decompressor begins with these bytes, and their number is reported. -/
def Decompressed.Holds (d : Decompressed) (out : Bytes) : Prop :=
  d.outputSize = out.length ∧ Fills d.written out

def DecompressesTo (libs : DecompressLibs) (compressionType : ℕ) (z out : Bytes) : Prop :=
  ∃ fuel d, mtblDecompressInto libs fuel compressionType z = .ok (some d) ∧ d.Holds out

/-- The sizes for which the decompressor gives the input again. -/
def Recoverable (input z : Bytes) : CompressionType → Prop
  | .none => False
  | .snappy => True
  | .zlib => input.length < 2^32 ∧
      (zlibGuess z.length < 2^32 ∨ input.length ≤ zlibGuess z.length%2^32)
  | .lz4 => z.length ≤ intMax
  | .lz4hc => z.length ≤ intMax
  | .zstd => 0 < input.length ∧ z.length ≤ intMax

section
variable {libs : CompressLibs} {decoders : DecompressLibs}
  {lz4Block zstdFrame : Bytes → Option Bytes} {stream : Bytes → ZStream} {input z : Bytes}

theorem holds_single {out : Bytes} : (⟨out.length,[(0,out)]⟩ : Decompressed).Holds out :=
  ⟨rfl,fills_single out⟩

theorem compressLz4_made {compress : ℕ → Bytes}
    (hmade : compressLz4 libs compress input = .ok (some z)) : input.length ≤ intMax ∧
      ∃ cap, compress cap ≠ [] ∧ z = mtblFixedEncode32 input.length++compress cap := by
  unfold compressLz4 at hmade
  split_ifs at hmade with hlong
  · cases hmade
  obtain ⟨_,-,hmade⟩ := bind_eq_ok.mp hmade
  simp only at hmade
  split_ifs at hmade with hnone
  · cases hmade
  obtain rfl := Option.some.inj (Except.ok.inj hmade)
  exact ⟨not_lt.mp hlong,_,fun hnil => hnone (by rw [hnil]; rfl),rfl⟩

/-- The prefix says how much the block holds. -/
theorem decompressLz4_iff (hd : DecoderContracts decoders lz4Block zstdFrame)
    (halloc : ∀ size, decoders.allocates size = true) {block : Bytes}
    (hblock : lz4Block block = some input) (hshort : input.length ≤ intMax)
    (hz : z = mtblFixedEncode32 input.length++block) :
    (∃ d, mtblDecompressLz4 decoders z = .ok (some d) ∧ d.Holds input) ↔ z.length ≤ intMax := by
  have hfour : 4 ≤ z.length := by
    rw [hz,List.length_append,mtblFixedEncode32,leBytes_length]
    omega
  have hsize : mtblFixedDecode32 z = .ok input.length := by
    rw [hz,mtblFixedDecode32,mtblFixedEncode32,leValue_leBytes,Nat.mod_eq_of_lt]
    unfold intMax at hshort
    norm_num
    omega
  have hrest : z.drop 4 = block := by
    rw [hz,List.drop_left' (by rw [mtblFixedEncode32,leBytes_length])]
  constructor
  · rintro ⟨d,hrun,-⟩
    by_contra hlong
    rw [mtblDecompressLz4,if_pos (.inl (not_le.mp hlong))] at hrun
    cases hrun
  · intro hfits
    have hret := hd.lz4_ok block (asInt input.length) input hblock (by rw [asInt_of_le hshort])
    refine ⟨_,?_,holds_single⟩
    have hgo : ¬ (z.length > intMax ∨ z.length < 4) := by omega
    simp only [mtblDecompressLz4,if_neg hgo,hsize,ok_bind,check_of (halloc _),hrest,hret]
    rw [if_neg (by omega)]
    rfl

theorem compressZstd_made (hc : EncoderContracts libs decoders lz4Block zstdFrame stream) {level : ℤ}
    (hmade : mtblCompressZstd libs input level = .ok (some z)) :
    zstdFrame z = some input ∧ decoders.zstdGetFrameContentSize z = input.length := by
  unfold mtblCompressZstd at hmade
  by_cases hlong : input.length > intMax
  · rw [if_pos hlong] at hmade
    cases hmade
  rw [if_neg hlong] at hmade
  obtain ⟨_,-,hmade⟩ := bind_eq_ok.mp hmade
  simp only at hmade
  split_ifs at hmade with herr
  · cases hmade
  obtain rfl := Option.some.inj (Except.ok.inj hmade)
  exact hc.zstd _ _ _ (Bool.eq_false_iff.mpr herr)

theorem decompressZstd_iff (hd : DecoderContracts decoders lz4Block zstdFrame)
    (halloc : ∀ size, decoders.allocates size = true) (hframe : zstdFrame z = some input)
    (hsize : decoders.zstdGetFrameContentSize z = input.length) :
    (∃ d, mtblDecompressZstd decoders z = .ok (some d) ∧ d.Holds input) ↔
      0 < input.length ∧ z.length ≤ intMax := by
  constructor
  · rintro ⟨d,hrun,-⟩
    unfold mtblDecompressZstd at hrun
    by_cases hlong : z.length > intMax
    · rw [if_pos hlong] at hrun
      cases hrun
    by_cases hnone : decoders.zstdGetFrameContentSize z ≤ 0
    · simp only [if_neg hlong,if_pos hnone] at hrun
      cases hrun
    rw [hsize] at hnone
    exact ⟨not_le.mp hnone,not_lt.mp hlong⟩
  · rintro ⟨hpos,hfits⟩
    obtain ⟨hret,herr⟩ := hd.zstd_ok z input.length input hframe le_rfl
    refine ⟨_,?_,holds_single⟩
    simp only [mtblDecompressZstd,if_neg (not_lt.mpr hfits),hsize,if_neg (not_le.mpr hpos),
      check_of (halloc _),ok_bind,hret,herr]
    rfl

theorem decompressSnappy_holds (halloc : ∀ size, decoders.allocates size = true)
    (hlength : decoders.snappyUncompressedLength z = some input.length)
    (huncompress : decoders.snappyUncompress z input.length = some (input.length,input)) :
    ∃ d, mtblDecompressSnappy decoders z = .ok (some d) ∧ d.Holds input := by
  refine ⟨_,?_,holds_single⟩
  simp only [mtblDecompressSnappy,hlength,check_of (halloc _),ok_bind,huncompress,pure_eq_ok]

/-! ### The stream and its buffer -/

variable {out : Bytes} {n : ℕ}

/-- As long as the buffer is below 4 GiB it has just the size of what has been put out. -/
theorem outputRoom_doubles (hguess : zlibGuess n < 2^32) {j : ℕ} (hlt : outputRoom n (j+1) < 2^32) :
    outputRoom n (j+1) = zlibGuess n*2^j ∧ outputSizeAt n j = zlibGuess n*2^j := by
  induction j with
  | zero =>
    have hsize : outputSizeAt n 0 = zlibGuess n := by
      rw [outputSizeAt,pow_zero,Nat.mul_one,Nat.mod_eq_of_lt (by omega)]
    rw [outputRoom_succ,outputSpace,Nat.mod_eq_of_lt hguess,pow_zero,Nat.mul_one]
    exact ⟨by simp [outputRoom],hsize⟩
  | succ j ih =>
    have hmono := outputRoom_mono n (show j+1 ≤ j+1+1 by omega)
    obtain ⟨hroom,hsize⟩ := ih (hmono.trans_lt hlt)
    have hspace : outputSpace n (j+1) = zlibGuess n*2^j := by
      rw [outputSpace,hsize,Nat.mod_eq_of_lt (by omega)]
    have hdouble : outputRoom n (j+1+1) = zlibGuess n*2^(j+1) := by
      rw [outputRoom_succ,hroom,hspace,pow_succ]
      ring
    exact ⟨hdouble,by rw [outputSizeAt,Nat.mod_eq_of_lt (by omega)]⟩

/-- Before the 32 bits run out there is room for whatever they can count. -/
theorem outputRoom_large (hn : n < 2^32) (hguess : zlibGuess n < 2^32) :
    2^32 ≤ outputRoom n 23 := by
  by_contra hlt
  have hroom : outputRoom n 23 = zlibGuess n*2^22 :=
    (@outputRoom_doubles n hguess 22 (not_le.mp hlt)).1
  have hpos : 1024 ≤ zlibGuess n := by
    simp only [zlibGuess]
    omega
  omega

/-- The state before call `j`, with what has been put out in one piece at the front. -/
structure InOnePiece (n : ℕ) (out : Bytes) (j : ℕ) (s : ZlibState) : Prop extends AtCall n j s where
  nextOut : s.nextOut = outputRoom n j
  fills : Fills s.written (out.take (outputRoom n j))

theorem InOnePiece.next {j : ℕ} {s : ZlibState} (h : InOnePiece n out j s)
    (hguess : zlibGuess n < 2^32) (hshort : out.length < 2^32)
    (hlt : outputRoom n (j+1) < out.length) :
    InOnePiece n out (j+1) ⟨s.outputSize*2%2^64,s.outputSize,s.outputSize%2^32,outputRoom n (j+1),
      s.written++[(s.nextOut,(out.drop (outputRoom n j)).take (outputSpace n j))]⟩ where
  toAtCall := h.toAtCall.next (outputRoom_succ n j) _
  nextOut := by
    obtain ⟨hroom,hsize⟩ := outputRoom_doubles hguess (hlt.trans hshort)
    simp only [h.outputSize,hsize,hroom]
  fills := by
    have hle : outputRoom n j ≤ out.length := (outputRoom_mono n (Nat.le_succ j)).trans hlt.le
    have hlen : (out.take (outputRoom n j)).length = outputRoom n j := List.length_take_of_le hle
    have happend := @Fills.append _ _ _ ((out.drop (outputRoom n j)).take (outputSpace n j)) h.fills
    rw [hlen,← List.take_add] at happend
    rw [h.nextOut,outputRoom_succ]
    exact happend

theorem zlibLoop_in_one_piece (hi : InflateContract decoders.inflate stream)
    (halloc : ∀ size, decoders.allocates size = true) {len : ℕ} (hstream : stream z = .complete len out)
    (hguess : zlibGuess n < 2^32) (hshort : out.length < 2^32) {fuel j : ℕ} {s : ZlibState}
    (hs : InOnePiece n out j s) (hk : outputRoom n j ≤ out.length) {d : Decompressed}
    (hrun : zlibLoop decoders z fuel s = .ok d) : d.Holds out := by
  induction fuel generalizing j s with
  | zero => cases hrun
  | succ fuel ih =>
    rw [zlibLoop_complete_call hi halloc hstream hs.toAtCall hk] at hrun
    split_ifs at hrun with hend
    · obtain rfl := Except.ok.inj hrun
      have happend := @Fills.append _ _ _ (out.drop (outputRoom n j)) hs.fills
      rw [List.length_take_of_le hk,List.take_append_drop] at happend
      exact ⟨rfl,hs.nextOut ▸ happend⟩
    · exact ih (hs.next hguess hshort (not_le.mp hend)) (not_le.mp hend).le hrun

theorem zlibLoop_outputSize (hi : InflateContract decoders.inflate stream)
    (halloc : ∀ size, decoders.allocates size = true) {len : ℕ} (hstream : stream z = .complete len out)
    {fuel j : ℕ} {s : ZlibState} (hs : AtCall n j s) (hk : outputRoom n j ≤ out.length)
    {d : Decompressed} (hrun : zlibLoop decoders z fuel s = .ok d) : d.outputSize = out.length := by
  induction fuel generalizing j s with
  | zero => cases hrun
  | succ fuel ih =>
    rw [zlibLoop_complete_call hi halloc hstream hs hk] at hrun
    split_ifs at hrun with hend
    · obtain rfl := Except.ok.inj hrun
      rfl
    · exact ih (hs.next (outputRoom_succ n j) _) (not_le.mp hend).le hrun

/-- A buffer of 4 GiB or more grows beyond what the first call has put out, and the second call writes
behind it. -/
theorem nextOut_beyond (hn : n < 2^32) (hguess : 2^32 ≤ zlibGuess n) (j : ℕ) :
    2^32 ≤ outputSizeAt n j ∨ outputSpace n (j+1) = 0 := by
  by_cases hj : 22 ≤ j
  · exact .inr (outputSpace_eq_zero (by omega))
  · left
    have hupper : zlibGuess n ≤ 2^35 := by
      simp only [zlibGuess]
      omega
    have hpow : 2^j ≤ 2^21 := Nat.pow_le_pow_right (by norm_num) (by omega)
    have hpos : 1 ≤ 2^j := Nat.one_le_two_pow
    have hprod : zlibGuess n*2^j ≤ 2^35*2^21 := Nat.mul_le_mul hupper hpow
    rw [outputSizeAt,Nat.mod_eq_of_lt (by omega)]
    nlinarith

/-- Behind the first call's room there is a hole. -/
theorem zlibLoop_hole (hi : InflateContract decoders.inflate stream)
    (halloc : ∀ size, decoders.allocates size = true) {len : ℕ} (hstream : stream z = .complete len out)
    (hn : n < 2^32) (hguess : 2^32 ≤ zlibGuess n) {i : ℕ} (hi32 : i < 2^32) {fuel j : ℕ}
    {s : ZlibState} (hs : AtCall n (j+1) s) (hk : outputRoom n (j+1) ≤ out.length)
    (hnext : s.nextOut = outputSizeAt n j)
    (hhole : ∀ p ∈ s.written, i < p.1 ∨ p.1+p.2.length ≤ i) {d : Decompressed}
    (hrun : zlibLoop decoders z fuel s = .ok d) : ∀ p ∈ d.written, i < p.1 ∨ p.1+p.2.length ≤ i := by
  induction fuel generalizing j s with
  | zero => cases hrun
  | succ fuel ih =>
    rw [zlibLoop_complete_call hi halloc hstream hs hk] at hrun
    have hnew : ∀ more : Bytes, more.length ≤ outputSpace n (j+1) →
        ∀ p ∈ s.written++[(s.nextOut,more)], i < p.1 ∨ p.1+p.2.length ≤ i := by
      intro more hmore p hp
      rcases List.mem_append.mp hp with hp | hp
      · exact hhole p hp
      · rw [List.mem_singleton.mp hp,hnext]
        rcases nextOut_beyond hn hguess j with hbeyond | hzero
        · exact .inl (hi32.trans_le hbeyond)
        · have := lt_or_ge i (outputSizeAt n j)
          simp only
          omega
    split_ifs at hrun with hend
    · obtain rfl := Except.ok.inj hrun
      apply hnew
      rw [List.length_drop]
      rw [outputRoom_succ n (j+1)] at hend
      omega
    · refine ih (hs.next (outputRoom_succ n (j+1)) _) (not_le.mp hend).le hs.outputSize ?_ hrun
      apply hnew
      rw [List.length_take]
      exact Nat.min_le_left _ _

theorem compressZlib_made (hc : EncoderContracts libs decoders lz4Block zstdFrame stream) {level : ℤ}
    (hmade : mtblCompressZlib libs input level = .ok (some z)) :
    z.length < 2^32 ∧ stream z = .complete z.length (input.take (input.length%2^32)) := by
  unfold mtblCompressZlib at hmade
  obtain ⟨_,-,hmade⟩ := bind_eq_ok.mp hmade
  obtain ⟨_,-,hmade⟩ := bind_eq_ok.mp hmade
  obtain ⟨_,hend,hmade⟩ := bind_eq_ok.mp hmade
  obtain ⟨_,-,hmade⟩ := bind_eq_ok.mp hmade
  obtain ⟨hroom,hstream⟩ := hc.deflate _ _ _ (check_eq_ok.mp hend)
  split_ifs at hmade
  · obtain rfl := Option.some.inj (Except.ok.inj hmade)
    exact ⟨hroom.trans_lt (Nat.mod_lt _ (by norm_num)),hstream⟩
  · cases hmade

theorem outputRoom_one (n : ℕ) : outputRoom n 1 = zlibGuess n%2^32 := by
  rw [outputRoom_succ]
  exact Nat.zero_add _

theorem mtblDecompressZlib_iff (halloc : ∀ size, decoders.allocates size = true)
    (hz : z.length < 2^32) (fuel : ℕ) (d : Decompressed) :
    mtblDecompressZlib decoders fuel z = .ok (some d) ↔
      zlibLoop decoders z fuel ⟨zlibGuess z.length,0,zlibGuess z.length%2^32,0,[]⟩ = .ok d := by
  simp only [mtblDecompressZlib,check_of (halloc _),ok_bind,Nat.mod_eq_of_lt hz,List.take_length,
    pure_eq_ok,bind_eq_ok,Except.ok.injEq,Option.some.injEq,exists_eq_right]

/-- The first call fills its room, and the byte behind that is never written. -/
theorem zlibLoop_not_filled (hi : InflateContract decoders.inflate stream)
    (halloc : ∀ size, decoders.allocates size = true) (hz : z.length < 2^32) {len : ℕ}
    (hstream : stream z = .complete len out) (hshort : out.length < 2^32)
    (hguess : 2^32 ≤ zlibGuess z.length) (hlt : zlibGuess z.length%2^32 < out.length) {fuel : ℕ}
    {d : Decompressed} (hrun : zlibLoop decoders z fuel
      ⟨zlibGuess z.length,0,zlibGuess z.length%2^32,0,[]⟩ = .ok d) : ¬ Fills d.written out := by
  have hroom : outputRoom z.length 1 < out.length := by rwa [outputRoom_one]
  cases fuel with
  | zero => cases hrun
  | succ fuel =>
    rw [zlibLoop_complete_call hi halloc hstream (atCall_zero z.length) (Nat.zero_le _),
      Nat.zero_add,if_neg (not_le.mpr hroom)] at hrun
    apply not_fills hlt
    refine zlibLoop_hole hi halloc hstream hz hguess (hlt.trans hshort) (j := 0)
      ((atCall_zero z.length).next (outputRoom_succ z.length 0) _) hroom.le ?_ ?_ hrun
    · exact (atCall_zero z.length).outputSize
    · intro p hp
      rw [List.nil_append] at hp
      rw [List.mem_singleton.mp hp]
      right
      simp only [List.length_take,List.length_drop,outputSpace]
      omega

/-- A stream that the first call takes whole, or for which the buffer grows in one piece: 23 calls are
enough. -/
theorem zlibLoop_holds (hi : InflateContract decoders.inflate stream)
    (halloc : ∀ size, decoders.allocates size = true) (hz : z.length < 2^32) {len : ℕ}
    (hstream : stream z = .complete len out) (hshort : out.length < 2^32)
    (hcases : zlibGuess z.length < 2^32 ∨ out.length ≤ zlibGuess z.length%2^32) {fuel : ℕ}
    (hfuel : 23 ≤ fuel) :
    ∃ d, zlibLoop decoders z fuel ⟨zlibGuess z.length,0,zlibGuess z.length%2^32,0,[]⟩ = .ok d ∧
      d.Holds out := by
  have hzero : outputRoom z.length 0 ≤ out.length := Nat.zero_le _
  obtain ⟨calls,rfl⟩ := Nat.exists_eq_add_of_le' ((show 1 ≤ 23 by norm_num).trans hfuel)
  rcases hcases with hguess | hle
  · have hroom : out.length ≤ outputRoom z.length (0+(calls+1)) := by
      rw [Nat.zero_add]
      exact (hshort.le.trans (outputRoom_large hz hguess)).trans (outputRoom_mono _ hfuel)
    obtain ⟨d,hrun⟩ := zlibLoop_returns hi halloc hstream (atCall_zero z.length) hzero hroom
    refine ⟨d,hrun,zlibLoop_in_one_piece hi halloc hstream hguess hshort (j := 0) ?_ hzero hrun⟩
    exact ⟨atCall_zero z.length,rfl,Fills.nil _⟩
  · have hfirst := zlibLoop_complete_call hi halloc hstream (atCall_zero z.length) hzero calls
    rw [Nat.zero_add,if_pos (by rwa [outputRoom_one])] at hfirst
    exact ⟨_,hfirst,rfl,fills_single out⟩

theorem decompressZlib_iff (hi : InflateContract decoders.inflate stream)
    (halloc : ∀ size, decoders.allocates size = true) (hz : z.length < 2^32)
    (hstream : stream z = .complete z.length (input.take (input.length%2^32))) :
    (∃ fuel d, mtblDecompressZlib decoders fuel z = .ok (some d) ∧ d.Holds input) ↔
      input.length < 2^32 ∧ (zlibGuess z.length < 2^32 ∨ input.length ≤ zlibGuess z.length%2^32) := by
  simp only [mtblDecompressZlib_iff halloc hz]
  constructor
  · rintro ⟨fuel,d,hrun,hsize,hfills⟩
    have hlen := zlibLoop_outputSize hi halloc hstream (atCall_zero z.length) (Nat.zero_le _) hrun
    rw [hsize,List.length_take] at hlen
    have hmod := Nat.mod_lt input.length (show 0 < 2^32 by norm_num)
    have hshort : input.length < 2^32 := by omega
    rw [Nat.mod_eq_of_lt hshort,List.take_length] at hstream
    refine ⟨hshort,?_⟩
    by_contra hnot
    push Not at hnot
    exact zlibLoop_not_filled hi halloc hz hstream hshort hnot.1 hnot.2 hrun hfills
  · rintro ⟨hshort,hcases⟩
    rw [Nat.mod_eq_of_lt hshort,List.take_length] at hstream
    exact ⟨23,zlibLoop_holds hi halloc hz hstream hshort hcases le_rfl⟩

theorem recovers_iff (hc : EncoderContracts libs decoders lz4Block zstdFrame stream)
    (hd : DecoderContracts decoders lz4Block zstdFrame)
    (hi : InflateContract decoders.inflate stream) (halloc : ∀ size, decoders.allocates size = true)
    {compressionType : CompressionType} {level : ℤ}
    (hmade : mtblCompressLevelInto libs compressionType level input = .ok (some z)) :
    DecompressesTo decoders compressionType.code z input ↔ Recoverable input z compressionType := by
  have hconst : ∀ {p : Decompressed → Prop}, (∃ _ : ℕ, ∃ d, p d) ↔ ∃ d, p d :=
    fun {p} => ⟨fun ⟨_,d,hd⟩ => ⟨d,hd⟩,fun ⟨d,hd⟩ => ⟨0,d,hd⟩⟩
  cases compressionType with
  | none => cases hmade
  | snappy =>
    obtain ⟨_,-,hsnappy⟩ := bind_eq_ok.mp hmade
    obtain ⟨hlength,huncompress⟩ := hc.snappy _ _ _ (Except.ok.inj hsnappy)
    exact iff_of_true ⟨0,decompressSnappy_holds halloc hlength huncompress⟩ trivial
  | zlib =>
    obtain ⟨hz,hstream⟩ := compressZlib_made hc hmade
    exact decompressZlib_iff hi halloc hz hstream
  | lz4 =>
    obtain ⟨hshort,cap,hne,hz⟩ := compressLz4_made hmade
    exact hconst.trans (decompressLz4_iff hd halloc (hc.lz4 _ _ hne) hshort hz)
  | lz4hc =>
    unfold mtblCompressLevelInto mtblCompressLz4hc at hmade
    obtain ⟨hshort,cap,hne,hz⟩ := compressLz4_made hmade
    exact hconst.trans (decompressLz4_iff hd halloc (hc.lz4hc _ _ _ hne) hshort hz)
  | zstd =>
    obtain ⟨hframe,hsize⟩ := compressZstd_made hc hmade
    exact hconst.trans (decompressZstd_iff hd halloc hframe hsize)

/-- `mtbl_compress` is `mtbl_compress_level` at a level of its own. -/
theorem mtblCompressInto_level (libs : CompressLibs) (compressionType : CompressionType) :
    ∃ level, ∀ input, mtblCompressInto libs compressionType input =
      mtblCompressLevelInto libs compressionType level input := by
  cases compressionType with
  | none => exact ⟨0,fun _ => rfl⟩
  | snappy => exact ⟨0,fun _ => rfl⟩
  | zlib => exact ⟨zDefaultCompression,fun _ => rfl⟩
  | lz4 => exact ⟨0,fun _ => rfl⟩
  | lz4hc => exact ⟨9,fun _ => rfl⟩
  | zstd => exact ⟨9,fun _ => rfl⟩

theorem CompressedTo.level {compressionType : CompressionType}
    (h : CompressedTo libs compressionType input z) :
    ∃ level, mtblCompressLevelInto libs compressionType level input = .ok (some z) := by
  rcases h with h | h
  · obtain ⟨level,hlevel⟩ := mtblCompressInto_level libs compressionType
    exact ⟨level,(hlevel input).symm.trans h⟩
  · exact h

/-- Fuel for 23 calls is as good as any. -/
theorem decompressesTo_within (hc : EncoderContracts libs decoders lz4Block zstdFrame stream)
    (hd : DecoderContracts decoders lz4Block zstdFrame)
    (hi : InflateContract decoders.inflate stream) (halloc : ∀ size, decoders.allocates size = true)
    {compressionType : CompressionType} (hmade : CompressedTo libs compressionType input z) {fuel : ℕ}
    (hfuel : 23 ≤ fuel) :
    (∃ d, mtblDecompressInto decoders fuel compressionType.code z = .ok (some d) ∧ d.Holds input) ↔
      Recoverable input z compressionType := by
  obtain ⟨level,hlevel⟩ := hmade.level
  have hiff := recovers_iff hc hd hi halloc hlevel
  refine ⟨fun ⟨d,hrun,hholds⟩ => hiff.mp ⟨fuel,d,hrun,hholds⟩,fun hrec => ?_⟩
  cases compressionType with
  | none => exact hrec.elim
  | zlib =>
    obtain ⟨hz,hstream⟩ := compressZlib_made hc hlevel
    obtain ⟨hshort,hcases⟩ := hrec
    rw [Nat.mod_eq_of_lt hshort,List.take_length] at hstream
    obtain ⟨d,hrun,hholds⟩ := zlibLoop_holds hi halloc hz hstream hshort hcases hfuel
    exact ⟨d,(mtblDecompressZlib_iff halloc hz fuel d).mpr hrun,hholds⟩
  | snappy | lz4 | lz4hc | zstd =>
    obtain ⟨_,d,hrun,hholds⟩ := hiff.mpr hrec
    exact ⟨d,hrun,hholds⟩

end

/-- What compression has made of an input is decompressed to it exactly if the sizes are within the
limits of the decompressor and of the 32 bits in which zlib counts. -/
theorem compressed_recovers_iff (libs : CompressLibs) (decoders : DecompressLibs)
    (lz4Block zstdFrame : Bytes → Option Bytes) (stream : Bytes → ZStream)
    (hc : EncoderContracts libs decoders lz4Block zstdFrame stream)
    (hd : DecoderContracts decoders lz4Block zstdFrame)
    (hi : InflateContract decoders.inflate stream) (halloc : ∀ size, decoders.allocates size = true)
    (compressionType : CompressionType) (input z : Bytes)
    (hmade : CompressedTo libs compressionType input z) :
    DecompressesTo decoders compressionType.code z input ↔ Recoverable input z compressionType := by
  obtain ⟨level,hlevel⟩ := hmade.level
  exact recovers_iff hc hd hi halloc hlevel

/-- LZ4 on short inputs without repetitions, and no other library. -/
def literalCompressLibs : CompressLibs where
  allocates _ := true
  lz4CompressBound n := n+n/255+16
  lz4CompressDefault src cap :=
    if src.length < 15 ∧ src.length < cap then .ofNat (16*src.length)::src else []
  lz4CompressHc _ _ _ := []
  zstdMinCLevel := 1
  zstdMaxCLevel := 22
  zstdCompressBound n := n+n/256+64
  zstdCompress _ _ _ := (2^64-1,[])
  zstdIsError _ := true
  snappyMaxCompressedLength n := 32+n+n/6
  snappyCompress _ _ := none
  deflateInit _ := true
  deflate _ _ _ := ⟨false,0,[]⟩
  deflateEnd _ := false

theorem literalCompressLibs_contracts : EncoderContracts literalCompressLibs letterLibs literalBlock
    (fun _ => none) letterStream where
  lz4 src cap hne := by
    simp only [literalCompressLibs] at hne ⊢
    split_ifs at hne ⊢ with hshort
    · have htoken : (UInt8.ofNat (16*src.length)).toNat = 16*src.length := by
        rw [UInt8.toNat_ofNat',Nat.mod_eq_of_lt (by omega)]
      rw [literalBlock,if_pos ⟨hshort.1,htoken⟩]
    · exact absurd rfl hne
  lz4hc _ _ _ hne := absurd rfl hne
  zstd _ _ _ herr := by cases herr
  snappy _ _ _ hsome := by cases hsome
  deflate _ _ _ hend := by cases hend

theorem letterLibs_decodes : DecoderContracts letterLibs literalBlock (fun _ => none) where
  lz4_ok := literalLibs_contracts.lz4_ok
  lz4_error := literalLibs_contracts.lz4_error
  zstd_ok := literalLibs_contracts.zstd_ok
  zstd_error := literalLibs_contracts.zstd_error
  snappy := literalLibs_contracts.snappy

/-- Two literals, behind the prefix that counts them. -/
theorem compressed_recovers_literal :
    CompressedTo literalCompressLibs .lz4 [97,98] [2,0,0,0,32,97,98] ∧
      DecompressesTo letterLibs 3 [2,0,0,0,32,97,98] [97,98] := by
  have hmade : CompressedTo literalCompressLibs .lz4 [97,98] [2,0,0,0,32,97,98] := .inl (by decide)
  exact ⟨hmade,(compressed_recovers_iff literalCompressLibs letterLibs literalBlock (fun _ => none)
    letterStream literalCompressLibs_contracts letterLibs_decodes letterLibs_contract (fun _ => rfl) .lz4
    [97,98] [2,0,0,0,32,97,98] hmade).mpr (show 7 ≤ intMax by decide)⟩

end Mtbl
