import Mtbl.Codec.Compression
import Mtbl.Codec.Fixed

/-! The decompressors over the functions of the compression libraries: where each takes the output
size from that it reports. -/
namespace Mtbl
open CRun

def intMax : ℕ := 2^31-1

/-- The return codes of `inflate` under `Z_FINISH`. -/
inductive ZRet
  | streamEnd
  | bufError
  | dataError
  deriving DecidableEq, Repr

/-- The allocator and the libraries. A decoder returns its result with the bytes that it writes;
`inflate` is given the input that the stream was set up with, the bytes it has put out so far and the
room for more. -/
structure DecompressLibs where
  allocates : ℕ → Bool
  lz4DecompressSafe : Bytes → ℤ → ℤ × Bytes
  zstdGetFrameContentSize : Bytes → ℕ
  zstdDecompress : Bytes → ℕ → ℕ × Bytes
  zstdIsError : ℕ → Bool
  snappyUncompressedLength : Bytes → Option ℕ
  snappyUncompress : Bytes → ℕ → Option (ℕ × Bytes)
  inflate : Bytes → ℕ → ℕ → ZRet × Bytes

/-- What a decompressor leaves: the size it reports, and the writes to its buffer with their
offsets. -/
structure Decompressed where
  outputSize : ℕ
  written : List (ℕ × Bytes)
  deriving DecidableEq, Repr

def Decompressed.bytesWritten (d : Decompressed) : ℕ := (d.written.map (fun p => p.2.length)).sum

/-- A number passed where the library takes an `int`. -/
def asInt (v : ℕ) : ℤ := (v : ℤ).bmod (2^32)

section
variable (libs : DecompressLibs)

/-- The size is the prefix of the input. -/
def mtblDecompressLz4 (input : Bytes) : Run (Option Decompressed) := do
  if input.length > intMax ∨ input.length < 4 then
    return none
  let outputSize ← mtblFixedDecode32 input
  check (libs.allocates outputSize = true)
  let ret := libs.lz4DecompressSafe (input.drop 4) (asInt outputSize)
  if ret.1 < 0 then
    return none
  return some ⟨outputSize,[(0,ret.2)]⟩

/-- The size is the content size in the frame's header. -/
def mtblDecompressZstd (input : Bytes) : Run (Option Decompressed) := do
  if input.length > intMax then
    return none
  let outputSize := libs.zstdGetFrameContentSize input
  if outputSize ≤ 0 then
    return none
  check (libs.allocates outputSize = true)
  let ret := libs.zstdDecompress input outputSize
  if libs.zstdIsError ret.1 then
    return none
  return some ⟨outputSize,[(0,ret.2)]⟩

/-- The size is the one that `snappy_uncompress` reports. -/
def mtblDecompressSnappy (input : Bytes) : Run (Option Decompressed) :=
  match libs.snappyUncompressedLength input with
  | none => .ok none
  | some outputSize => do
    check (libs.allocates outputSize = true)
    match libs.snappyUncompress input outputSize with
    | none => return none
    | some ret => return some ⟨ret.1,[(0,ret.2)]⟩

/-- The stream and the buffer between two calls of `inflate`. -/
structure ZlibState where
  outputSize : ℕ
  nextOut : ℕ
  availOut : ℕ
  totalOut : ℕ
  written : List (ℕ × Bytes)

/-- The loop over `inflate`, which doubles the buffer on `Z_BUF_ERROR`. -/
def zlibLoop (offered : Bytes) : ℕ → ZlibState → Run Decompressed
  | 0,_ => .error .fuel
  | fuel+1,s => do
    let ret := libs.inflate offered s.totalOut s.availOut
    check (ret.1 = .streamEnd ∨ ret.1 = .bufError)
    let totalOut := s.totalOut+ret.2.length
    let written := s.written++[(s.nextOut,ret.2)]
    if ret.1 = .streamEnd then
      return ⟨totalOut,written⟩
    check (libs.allocates (s.outputSize*2%2^64) = true)
    zlibLoop offered fuel ⟨s.outputSize*2%2^64,s.outputSize,s.outputSize%2^32,totalOut,written⟩

/-- Four times the input, and up to the next kilobyte. -/
def zlibGuess (inputSize : ℕ) : ℕ :=
  let guess := 4*inputSize%2^64
  (guess-guess%1024+1024)%2^64

/-- The size is what `inflate` has put out. Both lengths of the stream are 32 bits wide. -/
def mtblDecompressZlib (fuel : ℕ) (input : Bytes) : Run (Option Decompressed) := do
  let outputSize := zlibGuess input.length
  check (libs.allocates outputSize = true)
  let d ← zlibLoop libs (input.take (input.length%2^32)) fuel
    ⟨outputSize,0,outputSize%2^32,0,[]⟩
  return some d

/-- `mtbl_decompress`, with fuel for zlib. -/
def mtblDecompressInto (fuel compressionType : ℕ) (input : Bytes) : Run (Option Decompressed) :=
  match compressionType with
  | 1 => mtblDecompressSnappy libs input
  | 2 => mtblDecompressZlib libs fuel input
  | 3 => mtblDecompressLz4 libs input
  | 4 => mtblDecompressLz4 libs input
  | 5 => mtblDecompressZstd libs input
  | _ => .ok none

end

/-! ### The size reported and the bytes written -/

/-- The contracts of the decoders, over what a block or a frame holds: with enough room they write
it and return its length, without they fail. -/
structure DecoderContracts (libs : DecompressLibs) (lz4Block zstdFrame : Bytes → Option Bytes) :
    Prop where
  lz4_ok : ∀ src (cap : ℤ) out, lz4Block src = some out → (out.length : ℤ) ≤ cap →
    libs.lz4DecompressSafe src cap = ((out.length : ℤ),out)
  lz4_error : ∀ src (cap : ℤ), (∀ out, lz4Block src = some out → cap < (out.length : ℤ)) →
    (libs.lz4DecompressSafe src cap).1 < 0
  zstd_ok : ∀ src cap out, zstdFrame src = some out → out.length ≤ cap →
    libs.zstdDecompress src cap = (out.length,out) ∧ libs.zstdIsError out.length = false
  zstd_error : ∀ src cap, (∀ out, zstdFrame src = some out → cap < out.length) →
    libs.zstdIsError (libs.zstdDecompress src cap).1 = true
  snappy : ∀ src cap ret, libs.snappyUncompress src cap = some ret → ret.1 = ret.2.length

/-- Whenever decompression succeeds, it reports the number of bytes written. -/
def ReportsWritten (libs : DecompressLibs) (compressionType : ℕ) (input : Bytes) : Prop :=
  ∀ fuel d, mtblDecompressInto libs fuel compressionType input = .ok (some d) →
    d.outputSize = d.bytesWritten

/-- An LZ4 block behind a prefix that is larger than what it holds, or a zstd frame with such a content
size, for which there is memory. -/
def Overstated (libs : DecompressLibs) (lz4Block zstdFrame : Bytes → Option Bytes)
    (compressionType : ℕ) (input : Bytes) : Prop :=
  ((compressionType = 3 ∨ compressionType = 4) ∧ input.length ≤ intMax ∧
    ∃ size out, mtblFixedDecode32 input = .ok size ∧ size ≤ intMax ∧ libs.allocates size = true ∧
      lz4Block (input.drop 4) = some out ∧ out.length < size) ∨
  (compressionType = 5 ∧ input.length ≤ intMax ∧
    libs.allocates (libs.zstdGetFrameContentSize input) = true ∧
    ∃ out, zstdFrame input = some out ∧ out.length < libs.zstdGetFrameContentSize input)

section
variable {libs : DecompressLibs} {lz4Block zstdFrame : Bytes → Option Bytes} {input : Bytes}

theorem zlibLoop_reports {offered : Bytes} {fuel : ℕ} {s : ZlibState} {d : Decompressed}
    (hcount : s.totalOut = (s.written.map (fun p => p.2.length)).sum)
    (hrun : zlibLoop libs offered fuel s = .ok d) : d.outputSize = d.bytesWritten := by
  induction fuel generalizing s with
  | zero => cases hrun
  | succ fuel ih =>
    rw [zlibLoop] at hrun
    obtain ⟨-,-,hrun⟩ := bind_eq_ok.mp hrun
    have hnext : s.totalOut+(libs.inflate offered s.totalOut s.availOut).2.length =
        ((s.written++[(s.nextOut,(libs.inflate offered s.totalOut s.availOut).2)]).map
          (fun p => p.2.length)).sum := by
      simp [hcount]
    split_ifs at hrun
    · obtain rfl := Except.ok.inj hrun
      exact hnext
    · obtain ⟨-,-,hrun⟩ := bind_eq_ok.mp hrun
      exact ih hnext hrun

theorem asInt_nonneg_iff {v : ℕ} (hv : v < 2^32) : 0 ≤ asInt v ↔ v ≤ intMax := by
  unfold asInt intMax
  rw [Int.bmod_def]
  split_ifs <;> omega

theorem asInt_of_le {v : ℕ} (hv : v ≤ intMax) : asInt v = v := by
  unfold intMax at hv
  unfold asInt
  rw [Int.bmod_def]
  split_ifs <;> omega

theorem mtblDecompressLz4_reports (h : DecoderContracts libs lz4Block zstdFrame) :
    (∀ d, mtblDecompressLz4 libs input = .ok (some d) → d.outputSize = d.bytesWritten) ↔
      ¬ (input.length ≤ intMax ∧ ∃ size out, mtblFixedDecode32 input = .ok size ∧ size ≤ intMax ∧
        libs.allocates size = true ∧ lz4Block (input.drop 4) = some out ∧ out.length < size) := by
  constructor
  · rintro hall ⟨hlen,size,out,hsize,hmax,halloc,hblock,hlt⟩
    have hfour : ¬ (input.length > intMax ∨ input.length < 4) := by
      intro hor
      have hshort := hor.resolve_left (by omega)
      rw [mtblFixedDecode32,leValue_short hshort] at hsize
      cases hsize
    have hret := h.lz4_ok (input.drop 4) (asInt size) out hblock (by rw [asInt_of_le hmax]; omega)
    have hrun : mtblDecompressLz4 libs input = .ok (some ⟨size,[(0,out)]⟩) := by
      simp only [mtblDecompressLz4,if_neg hfour,hsize,ok_bind,check_of halloc,hret]
      rw [if_neg (by omega)]
      rfl
    have heq := hall _ hrun
    simp only [Decompressed.bytesWritten,List.map_cons,List.map_nil,List.sum_cons,List.sum_nil]
      at heq
    omega
  · intro hnot d hrun
    unfold mtblDecompressLz4 at hrun
    split_ifs at hrun with hbad
    · cases hrun
    obtain ⟨size,hsize,hrun⟩ := bind_eq_ok.mp hrun
    obtain ⟨_,halloc,hrun⟩ := bind_eq_ok.mp hrun
    simp only at hrun
    split_ifs at hrun with hret
    · cases hrun
    obtain rfl := Option.some.inj (Except.ok.inj hrun)
    have hlt32 : size < 2^32 := by
      obtain ⟨v,hv,hlt⟩ := @leValue_ok 4 input (by omega)
      obtain rfl := Except.ok.inj (hv.symm.trans hsize)
      norm_num at hlt ⊢
      exact hlt
    obtain ⟨out,hblock,hle⟩ : ∃ out, lz4Block (input.drop 4) = some out ∧
        (out.length : ℤ) ≤ asInt size := by
      by_contra hnone
      refine hret (h.lz4_error (input.drop 4) (asInt size) (fun out hout => ?_))
      exact not_le.mp (fun hle => hnone ⟨out,hout,hle⟩)
    have hmax := (asInt_nonneg_iff hlt32).mp (by omega)
    rw [h.lz4_ok _ _ out hblock hle]
    rw [asInt_of_le hmax] at hle
    have hge : ¬ out.length < size := fun hlt =>
      hnot ⟨by omega,size,out,hsize,hmax,check_eq_ok.mp halloc,hblock,hlt⟩
    simp only [Decompressed.bytesWritten,List.map_cons,List.map_nil,List.sum_cons,List.sum_nil]
    omega

theorem mtblDecompressZstd_reports (h : DecoderContracts libs lz4Block zstdFrame) :
    (∀ d, mtblDecompressZstd libs input = .ok (some d) → d.outputSize = d.bytesWritten) ↔
      ¬ (input.length ≤ intMax ∧ libs.allocates (libs.zstdGetFrameContentSize input) = true ∧
        ∃ out, zstdFrame input = some out ∧ out.length < libs.zstdGetFrameContentSize input) := by
  constructor
  · rintro hall ⟨hlen,halloc,out,hframe,hlt⟩
    obtain ⟨hret,herr⟩ := h.zstd_ok input _ out hframe hlt.le
    have hrun : mtblDecompressZstd libs input =
        .ok (some ⟨libs.zstdGetFrameContentSize input,[(0,out)]⟩) := by
      simp only [mtblDecompressZstd,if_neg (not_lt.mpr hlen),check_of halloc,ok_bind,hret,herr]
      rw [if_neg (by omega)]
      rfl
    have heq := hall _ hrun
    simp only [Decompressed.bytesWritten,List.map_cons,List.map_nil,List.sum_cons,List.sum_nil]
      at heq
    omega
  · intro hnot d hrun
    unfold mtblDecompressZstd at hrun
    by_cases hbad : input.length > intMax
    · rw [if_pos hbad] at hrun
      cases hrun
    by_cases hzero : libs.zstdGetFrameContentSize input ≤ 0
    · simp only [if_neg hbad,if_pos hzero] at hrun
      cases hrun
    simp only [if_neg hbad,if_neg hzero] at hrun
    obtain ⟨_,halloc,hrun⟩ := bind_eq_ok.mp hrun
    split_ifs at hrun with herr
    · cases hrun
    obtain rfl := Option.some.inj (Except.ok.inj hrun)
    obtain ⟨out,hframe,hle⟩ : ∃ out, zstdFrame input = some out ∧
        out.length ≤ libs.zstdGetFrameContentSize input := by
      by_contra hnone
      push Not at hnone
      exact herr (h.zstd_error _ _ hnone)
    rw [(h.zstd_ok _ _ out hframe hle).1]
    have hge : ¬ out.length < libs.zstdGetFrameContentSize input := fun hlt =>
      hnot ⟨by omega,check_eq_ok.mp halloc,out,hframe,hlt⟩
    simp only [Decompressed.bytesWritten,List.map_cons,List.map_nil,List.sum_cons,List.sum_nil]
    omega

theorem mtblDecompressSnappy_reports (h : DecoderContracts libs lz4Block zstdFrame)
    {d : Decompressed} (hrun : mtblDecompressSnappy libs input = .ok (some d)) :
    d.outputSize = d.bytesWritten := by
  unfold mtblDecompressSnappy at hrun
  split at hrun
  · cases hrun
  obtain ⟨-,-,hrun⟩ := bind_eq_ok.mp hrun
  split at hrun
  · cases hrun
  next ret hret =>
    obtain rfl := Option.some.inj (Except.ok.inj hrun)
    simp only [Decompressed.bytesWritten,List.map_cons,List.map_nil,List.sum_cons,List.sum_nil]
    exact h.snappy _ _ ret hret

theorem mtblDecompressZlib_reports {fuel : ℕ} {d : Decompressed}
    (hrun : mtblDecompressZlib libs fuel input = .ok (some d)) : d.outputSize = d.bytesWritten := by
  unfold mtblDecompressZlib at hrun
  obtain ⟨-,-,hrun⟩ := bind_eq_ok.mp hrun
  obtain ⟨d',hloop,hrun⟩ := bind_eq_ok.mp hrun
  obtain rfl := Option.some.inj (Except.ok.inj hrun)
  exact zlibLoop_reports rfl hloop

/-- Decompression reports the bytes it wrote exactly if the input does not overstate its length. -/
theorem decompress_reports_iff (libs : DecompressLibs) (lz4Block zstdFrame : Bytes → Option Bytes)
    (h : DecoderContracts libs lz4Block zstdFrame) (compressionType : ℕ) (input : Bytes) :
    ReportsWritten libs compressionType input ↔
      ¬ Overstated libs lz4Block zstdFrame compressionType input := by
  unfold ReportsWritten Overstated mtblDecompressInto
  match compressionType with
  | 0 => simp
  | 1 => simpa using fun d => @mtblDecompressSnappy_reports _ _ _ input h d
  | 2 => simpa using fun fuel d => @mtblDecompressZlib_reports libs input fuel d
  | 3 => simpa using mtblDecompressLz4_reports h
  | 4 => simpa using mtblDecompressLz4_reports h
  | 5 => simpa using mtblDecompressZstd_reports h
  | n+6 => simp

end

/-- An LZ4 block of up to fourteen literals. -/
def literalBlock : Bytes → Option Bytes
  | [] => none
  | token::literals =>
    if literals.length < 15 ∧ token.toNat = 16*literals.length then some literals else none

/-- Libraries that decode such blocks and nothing else. -/
def literalLibs : DecompressLibs where
  allocates _ := true
  lz4DecompressSafe src cap :=
    match literalBlock src with
    | none => (-1,[])
    | some out => if (out.length : ℤ) ≤ cap then (out.length,out) else (-1,[])
  zstdGetFrameContentSize _ := 2^64-2
  zstdDecompress _ _ := (2^64-1,[])
  zstdIsError _ := true
  snappyUncompressedLength _ := none
  snappyUncompress _ _ := none
  inflate _ _ _ := (.dataError,[])

theorem literalLibs_contracts : DecoderContracts literalLibs literalBlock (fun _ => none) where
  lz4_ok src cap out hblock hle := by
    simp only [literalLibs,hblock,if_pos hle]
  lz4_error src cap hshort := by
    cases hblock : literalBlock src with
    | none => simp [literalLibs,hblock]
    | some out => simp [literalLibs,hblock,not_le.mpr (hshort out hblock)]
  zstd_ok _ _ _ hframe _ := by cases hframe
  zstd_error _ _ _ := rfl
  snappy _ _ _ hsome := by cases hsome

/-- One literal behind a prefix of one. -/
theorem decompress_reports_literal : ReportsWritten literalLibs 3 [1,0,0,0,16,97] := by
  refine (decompress_reports_iff literalLibs literalBlock _ literalLibs_contracts 3 _).mpr ?_
  rintro (⟨-,-,size,out,hsize,-,-,hblock,hlt⟩ | ⟨h,-⟩)
  · obtain rfl := Except.ok.inj ((show mtblFixedDecode32 [1,0,0,0,16,97] = .ok 1 from rfl).symm.trans
      hsize)
    obtain rfl := Option.some.inj ((show literalBlock [16,97] = some [97] from rfl).symm.trans hblock)
    exact absurd hlt (by decide)
  · cases h

/-- One literal behind a prefix of a hundred. -/
theorem decompress_reports_fails :
    DecoderContracts literalLibs literalBlock (fun _ => none) ∧
    mtblDecompressInto literalLibs 0 3 [100,0,0,0,16,97] = .ok (some ⟨100,[(0,[97])]⟩) ∧
    ¬ ReportsWritten literalLibs 3 [100,0,0,0,16,97] := by
  have hrun : mtblDecompressInto literalLibs 0 3 [100,0,0,0,16,97] =
      .ok (some ⟨100,[(0,[97])]⟩) := by decide +kernel
  exact ⟨literalLibs_contracts,hrun,fun h => absurd (h 0 _ hrun) (by decide)⟩

end Mtbl
