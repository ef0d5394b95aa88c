import Mtbl.Codec.Decompress

/-! The loop of `_mtbl_decompress_zlib`. It doubles its buffer on `Z_BUF_ERROR`, which stands for
missing room as well as for missing input, asserts that there is no other error and never reports one. -/
namespace Mtbl
open CRun

/-- What the bytes offered to `inflate` hold: a stream that ends after `length` bytes, the beginning
of one, or corrupt data; each with what can be put out. -/
inductive ZStream
  | complete (length : ℕ) (out : Bytes)
  | truncated (out : Bytes)
  | corrupt (out : Bytes)

/-- `inflate` with `Z_FINISH`, when `k` bytes have been put out and there is room for more. -/
structure InflateContract (inflate : Bytes → ℕ → ℕ → ZRet × Bytes) (stream : Bytes → ZStream) :
    Prop where
  complete : ∀ src n out k room, stream src = .complete n out → k ≤ out.length →
    inflate src k room =
      (if out.length ≤ k+room then .streamEnd else .bufError,(out.drop k).take room)
  truncated : ∀ src out k room, stream src = .truncated out → k ≤ out.length →
    inflate src k room = (.bufError,(out.drop k).take room)
  corrupt : ∀ src out k room, stream src = .corrupt out → k ≤ out.length →
    (inflate src k room).1 ≠ .streamEnd ∧ (inflate src k room).2 = (out.drop k).take room
  corrupt_error : ∀ src out k room, stream src = .corrupt out → k ≤ out.length →
    out.length < k+room → (inflate src k room).1 = .dataError
  /-- What is left of a stream that is cut short is the beginning of one. -/
  cut : ∀ src n out m, stream src = .complete n out → m < n →
    ∃ out', stream (src.take m) = .truncated out'

def OneStream (stream : Bytes → ZStream) (input : Bytes) : Prop :=
  ∃ out, stream input = .complete input.length out

/-- The loop ends, no assertion fails, and what is not one complete stream is refused. -/
def ZlibEnds (libs : DecompressLibs) (stream : Bytes → ZStream) (input : Bytes) : Prop :=
  ∃ fuel res, mtblDecompressZlib libs fuel input = .ok res ∧ (¬ OneStream stream input → res = none)

/-- The size of the buffer after some doublings. -/
def outputSizeAt (n j : ℕ) : ℕ := zlibGuess n*2^j%2^64

/-- The room that a call of `inflate` is given. -/
def outputSpace (n : ℕ) : ℕ → ℕ
  | 0 => zlibGuess n%2^32
  | j+1 => outputSizeAt n j%2^32

/-- The room that the first calls are given. -/
def outputRoom (n j : ℕ) : ℕ := ((List.range j).map (outputSpace n)).sum

section
variable {libs : DecompressLibs} {stream : Bytes → ZStream} {offered out : Bytes} {n : ℕ}

theorem outputRoom_succ (n j : ℕ) : outputRoom n (j+1) = outputRoom n j+outputSpace n j := by
  simp [outputRoom,List.range_succ]

theorem outputRoom_mono (n : ℕ) : Monotone (outputRoom n) := by
  apply monotone_nat_of_le_succ
  intro j
  rw [outputRoom_succ]
  exact Nat.le_add_right _ _

theorem zlibGuess_dvd (n : ℕ) : 1024 ∣ zlibGuess n := by
  simp only [zlibGuess]
  omega

/-- The doublings shift the buffer's size out of the 32 bits of `avail_out`. -/
theorem outputSpace_eq_zero {j : ℕ} (hj : 23 ≤ j) : outputSpace n j = 0 := by
  obtain ⟨i,rfl⟩ : ∃ i, j = 22+i+1 := ⟨j-23,by omega⟩
  obtain ⟨m,hm⟩ := zlibGuess_dvd n
  have hsplit : zlibGuess n*2^(22+i) = 2^32*(m*2^i) := by
    rw [hm,pow_add]
    ring
  have hdvd : 2^32 ∣ zlibGuess n*2^(22+i)%2^64 := by
    rw [hsplit]
    exact (Nat.dvd_mod_iff (pow_dvd_pow 2 (by omega))).mpr (Nat.dvd_mul_right _ _)
  exact Nat.mod_eq_zero_of_dvd hdvd

theorem outputRoom_le (n j : ℕ) : outputRoom n j ≤ outputRoom n 23 := by
  rcases Nat.le_total j 23 with hj | hj
  · exact outputRoom_mono n hj
  · induction j, hj using Nat.le_induction with
    | base => exact le_refl _
    | succ j hj ih =>
      rw [outputRoom_succ,outputSpace_eq_zero hj]
      exact ih

/-- The state before call `j`, when every call so far has filled its room. -/
structure AtCall (n j : ℕ) (s : ZlibState) : Prop where
  outputSize : s.outputSize = outputSizeAt n j
  availOut : s.availOut = outputSpace n j
  totalOut : s.totalOut = outputRoom n j

theorem AtCall.next {j : ℕ} {s : ZlibState} (h : AtCall n j s) {totalOut : ℕ}
    (htotal : totalOut = outputRoom n j+outputSpace n j) (written : List (ℕ × Bytes)) :
    AtCall n (j+1) ⟨s.outputSize*2%2^64,s.outputSize,s.outputSize%2^32,totalOut,written⟩ where
  outputSize := by
    simp only [h.outputSize,outputSizeAt,pow_succ]
    rw [Nat.mod_mul_mod,Nat.mul_assoc]
  availOut := by
    simp only [h.outputSize]
    rfl
  totalOut := by rw [htotal,outputRoom_succ]

theorem zlibLoop_step (offered : Bytes) (fuel : ℕ) (s : ZlibState) {ret : ZRet × Bytes}
    (hret : libs.inflate offered s.totalOut s.availOut = ret)
    (halloc : ∀ size, libs.allocates size = true) : zlibLoop libs offered (fuel+1) s =
      match ret.1 with
      | .streamEnd => .ok ⟨s.totalOut+ret.2.length,s.written++[(s.nextOut,ret.2)]⟩
      | .dataError => .error .assertion
      | .bufError => zlibLoop libs offered fuel ⟨s.outputSize*2%2^64,s.outputSize,s.outputSize%2^32,
          s.totalOut+ret.2.length,s.written++[(s.nextOut,ret.2)]⟩ := by
  rw [zlibLoop,hret,check_of (halloc _)]
  cases ret.1 with
  | streamEnd => simp
  | bufError => simp
  | dataError => simp [check]

/-- The beginning of a stream keeps the loop going for ever. -/
theorem zlibLoop_truncated (h : InflateContract libs.inflate stream)
    (halloc : ∀ size, libs.allocates size = true) (hstream : stream offered = .truncated out)
    (fuel : ℕ) {s : ZlibState} (hk : s.totalOut ≤ out.length) :
    zlibLoop libs offered fuel s = .error .fuel := by
  induction fuel generalizing s with
  | zero => rfl
  | succ fuel ih =>
    rw [zlibLoop_step offered fuel s (h.truncated offered out _ s.availOut hstream hk) halloc]
    apply ih
    simp only [List.length_take,List.length_drop]
    omega

/-- A complete stream: the call ends it, or fills its room and another one follows. -/
theorem zlibLoop_complete_call (h : InflateContract libs.inflate stream)
    (halloc : ∀ size, libs.allocates size = true) {len : ℕ}
    (hstream : stream offered = .complete len out) {j : ℕ} {s : ZlibState} (hs : AtCall n j s)
    (hk : outputRoom n j ≤ out.length) (fuel : ℕ) : zlibLoop libs offered (fuel+1) s =
      if out.length ≤ outputRoom n (j+1) then
        .ok ⟨out.length,s.written++[(s.nextOut,out.drop (outputRoom n j))]⟩
      else zlibLoop libs offered fuel ⟨s.outputSize*2%2^64,s.outputSize,s.outputSize%2^32,
        outputRoom n (j+1),s.written++[(s.nextOut,(out.drop (outputRoom n j)).take
          (outputSpace n j))]⟩ := by
  have hret := h.complete offered len out s.totalOut s.availOut hstream (hs.totalOut ▸ hk)
  rw [zlibLoop_step offered fuel s hret halloc,hs.totalOut,hs.availOut,outputRoom_succ]
  by_cases hend : out.length ≤ outputRoom n j+outputSpace n j
  · rw [if_pos hend,if_pos hend,List.take_of_length_le (by rw [List.length_drop]; omega)]
    simp only [List.length_drop,Nat.add_sub_cancel' hk]
  · have hlen : ((out.drop (outputRoom n j)).take (outputSpace n j)).length = outputSpace n j := by
      rw [List.length_take,List.length_drop]
      omega
    rw [if_neg hend,if_neg hend]
    simp only [hlen]

theorem zlibLoop_complete_step (h : InflateContract libs.inflate stream)
    (halloc : ∀ size, libs.allocates size = true) {len : ℕ}
    (hstream : stream offered = .complete len out) {j : ℕ} {s : ZlibState} (hs : AtCall n j s)
    (hk : outputRoom n j ≤ out.length) :
    (out.length ≤ outputRoom n (j+1) ∧ ∃ d, ∀ fuel, zlibLoop libs offered (fuel+1) s = .ok d) ∨
    (outputRoom n (j+1) < out.length ∧ ∃ s', AtCall n (j+1) s' ∧
      ∀ fuel, zlibLoop libs offered (fuel+1) s = zlibLoop libs offered fuel s') := by
  have hcall := zlibLoop_complete_call h halloc hstream hs hk
  by_cases hend : out.length ≤ outputRoom n (j+1)
  · exact .inl ⟨hend,_,fun fuel => (hcall fuel).trans (if_pos hend)⟩
  · exact .inr ⟨not_le.mp hend,_,hs.next (outputRoom_succ n j) _,
      fun fuel => (hcall fuel).trans (if_neg hend)⟩

/-- The loop ends within as many calls as there is room for. -/
theorem zlibLoop_returns (h : InflateContract libs.inflate stream)
    (halloc : ∀ size, libs.allocates size = true) {len : ℕ}
    (hstream : stream offered = .complete len out) {j fuel : ℕ} {s : ZlibState} (hs : AtCall n j s)
    (hk : outputRoom n j ≤ out.length) (hroom : out.length ≤ outputRoom n (j+(fuel+1))) :
    ∃ d, zlibLoop libs offered (fuel+1) s = .ok d := by
  induction fuel generalizing j s with
  | zero =>
    obtain ⟨-,d,hd⟩ | ⟨hlt,-⟩ := zlibLoop_complete_step h halloc hstream hs hk
    · exact ⟨d,hd 0⟩
    · exact absurd hroom (not_le.mpr hlt)
  | succ fuel ih =>
    obtain ⟨-,d,hd⟩ | ⟨hlt,s',hs',hrun⟩ := zlibLoop_complete_step h halloc hstream hs hk
    · exact ⟨d,hd (fuel+1)⟩
    · rw [hrun]
      apply ih hs' hlt.le
      rwa [Nat.add_assoc,Nat.add_comm 1]

theorem zlibLoop_complete (h : InflateContract libs.inflate stream)
    (halloc : ∀ size, libs.allocates size = true) {len : ℕ}
    (hstream : stream offered = .complete len out) {j : ℕ} {s : ZlibState} (hs : AtCall n j s)
    (hk : outputRoom n j ≤ out.length) :
    (∃ fuel d, zlibLoop libs offered fuel s = .ok d) ↔ out.length ≤ outputRoom n 23 := by
  constructor
  · rintro ⟨fuel,d,hrun⟩
    induction fuel generalizing j s with
    | zero => cases hrun
    | succ fuel ih =>
      rcases zlibLoop_complete_step h halloc hstream hs hk with ⟨hend,-⟩ | ⟨hlt,s',hs',hrun'⟩
      · exact hend.trans (outputRoom_le n _)
      · exact ih hs' hlt.le (hrun' fuel ▸ hrun)
  · intro hle
    -- the loop has room for the whole stream before it is given none
    have hmono := outputRoom_mono n (show 23 ≤ j+23 by omega)
    exact ⟨23,zlibLoop_returns h halloc hstream hs hk (hle.trans hmono)⟩

/-- Decompression never reports a failure. -/
theorem mtblDecompressZlib_some {fuel : ℕ} {input : Bytes} {res : Option Decompressed}
    (hrun : mtblDecompressZlib libs fuel input = .ok res) : ∃ d,
      zlibLoop libs (input.take (input.length%2^32)) fuel
        ⟨zlibGuess input.length,0,zlibGuess input.length%2^32,0,[]⟩ = .ok d ∧ res = some d := by
  obtain ⟨_,-,hrun⟩ := bind_eq_ok.mp hrun
  obtain ⟨d,hloop,hrun⟩ := bind_eq_ok.mp hrun
  exact ⟨d,hloop,(Except.ok.inj hrun).symm⟩

theorem atCall_zero (n : ℕ) : AtCall n 0 ⟨zlibGuess n,0,zlibGuess n%2^32,0,[]⟩ where
  outputSize := by
    have hlt : zlibGuess n < 2^64 := Nat.mod_lt _ (Nat.two_pow_pos 64)
    rw [outputSizeAt,pow_zero,Nat.mul_one]
    exact (Nat.mod_eq_of_lt hlt).symm
  availOut := rfl
  totalOut := rfl

end

/-- Decompression ends, and refuses what is not one stream, exactly if the input is one complete
stream of less than 4 GiB for which the buffer grows large enough while `avail_out` can count it. -/
theorem decompress_zlib_ends_iff (libs : DecompressLibs) (stream : Bytes → ZStream)
    (h : InflateContract libs.inflate stream) (halloc : ∀ size, libs.allocates size = true)
    (input : Bytes) : ZlibEnds libs stream input ↔
      input.length < 2^32 ∧ ∃ out, stream input = .complete input.length out ∧
        out.length ≤ outputRoom input.length 23 := by
  constructor
  · rintro ⟨fuel,res,hrun,hrefuse⟩
    obtain ⟨d,hloop,rfl⟩ := mtblDecompressZlib_some hrun
    obtain ⟨out,hstream⟩ : OneStream stream input := by
      by_contra hnot
      cases hrefuse hnot
    by_cases hlen : input.length < 2^32
    · rw [Nat.mod_eq_of_lt hlen,List.take_length] at hloop
      exact ⟨hlen,out,hstream,(zlibLoop_complete h halloc hstream (atCall_zero _)
        (Nat.zero_le _)).mp ⟨fuel,d,hloop⟩⟩
    · -- the 32 bits of `avail_in` cut the stream short
      have hcut := (Nat.mod_lt input.length (Nat.two_pow_pos 32)).trans_le (not_lt.mp hlen)
      obtain ⟨out',hpart⟩ := h.cut input _ out _ hstream hcut
      rw [zlibLoop_truncated h halloc hpart fuel (Nat.zero_le _)] at hloop
      cases hloop
  · rintro ⟨hlen,out,hstream,hroom⟩
    obtain ⟨fuel,d,hloop⟩ := (zlibLoop_complete h halloc hstream (atCall_zero input.length)
      (Nat.zero_le _)).mpr hroom
    refine ⟨fuel,some d,?_,fun hnot => absurd ⟨out,hstream⟩ hnot⟩
    simp only [mtblDecompressZlib,check_of (halloc _),ok_bind,Nat.mod_eq_of_lt hlen,
      List.take_length,hloop,pure_eq_ok]

/-- An `inflate` for streams of which it is known what they hold. -/
def inflateOf (stream : Bytes → ZStream) (src : Bytes) (k room : ℕ) : ZRet × Bytes :=
  match stream src with
  | .complete _ out =>
    (if out.length ≤ k+room then .streamEnd else .bufError,(out.drop k).take room)
  | .truncated out => (.bufError,(out.drop k).take room)
  | .corrupt out =>
    (if out.length < k+room then .dataError else .bufError,(out.drop k).take room)

theorem inflateOf_contract (hcut : ∀ src n out m, stream src = .complete n out → m < n →
    ∃ out', stream (src.take m) = .truncated out') :
    InflateContract (inflateOf stream) stream where
  complete src n out k room hstream _ := by simp only [inflateOf,hstream]
  truncated src out k room hstream _ := by simp only [inflateOf,hstream]
  corrupt src out k room hstream _ := by
    simp only [inflateOf,hstream]
    split_ifs <;> simp
  corrupt_error src out k room hstream _ hroom := by
    simp only [inflateOf,hstream]
    exact if_pos hroom
  cut := hcut

/-- The zlib stream of the letter a. -/
def letterZlib : Bytes := [0x78,0x9c,0x4b,0x04,0,0,0x62,0,0x62]

/-- The letter is complete after four bytes of the stream. -/
def letterRead (src : Bytes) : Bytes := if letterZlib.take 4 <+: src then [97] else []

/-- This stream and nothing else. -/
def letterStream (src : Bytes) : ZStream :=
  if letterZlib <+: src then .complete 9 [97]
  else if src <+: letterZlib then .truncated (letterRead src)
  else .corrupt (letterRead src)

def letterLibs : DecompressLibs := { literalLibs with inflate := inflateOf letterStream }

theorem letterStream_cut {src out : Bytes} {n m : ℕ} (hstream : letterStream src = .complete n out)
    (hm : m < n) : letterStream (src.take m) = .truncated (letterRead (src.take m)) := by
  unfold letterStream at hstream
  split_ifs at hstream with hfull
  obtain ⟨rfl,-⟩ := ZStream.complete.inj hstream
  have hshort : ¬ letterZlib <+: src.take m := by
    intro hpre
    have hle := hpre.length_le
    rw [List.length_take] at hle
    simp only [letterZlib,List.length_cons,List.length_nil] at hle
    omega
  have hpart : src.take m <+: letterZlib := by
    obtain ⟨rest,rfl⟩ := hfull
    rw [List.take_append_of_le_length hm.le]
    exact List.take_prefix m letterZlib
  rw [letterStream,if_neg hshort,if_pos hpart]

theorem letterLibs_contract : InflateContract letterLibs.inflate letterStream :=
  inflateOf_contract (fun _ _ _ _ hstream hm => ⟨_,letterStream_cut hstream hm⟩)

/-- A letter is decompressed. -/
theorem decompress_zlib_ends_letter : ZlibEnds letterLibs letterStream letterZlib ∧
    mtblDecompressZlib letterLibs 1 letterZlib = .ok (some ⟨1,[(0,[97])]⟩) :=
  ⟨(decompress_zlib_ends_iff letterLibs letterStream letterLibs_contract (fun _ => rfl)
    letterZlib).mpr ⟨by decide,[97],rfl,by decide⟩,by decide⟩

/-- Its first two bytes keep the loop going for ever, and two other bytes stop the program. -/
theorem decompress_zlib_ends_fails : InflateContract letterLibs.inflate letterStream ∧
    (∀ fuel, mtblDecompressZlib letterLibs fuel [0x78,0x9c] = .error .fuel) ∧
    (∀ fuel, mtblDecompressZlib letterLibs (fuel+1) [0xff,0xff] = .error .assertion) ∧
    ¬ ZlibEnds letterLibs letterStream [0x78,0x9c] := by
  have hloops : ∀ fuel, mtblDecompressZlib letterLibs fuel [0x78,0x9c] = .error .fuel := by
    intro fuel
    have hloop := @zlibLoop_truncated letterLibs letterStream [0x78,0x9c] [] letterLibs_contract
      (fun _ => rfl) rfl fuel ⟨zlibGuess 2,0,zlibGuess 2%2^32,0,[]⟩ (Nat.zero_le _)
    exact congrArg (fun x : Run Decompressed => x >>= fun d => pure (some d)) hloop
  refine ⟨letterLibs_contract,hloops,fun fuel => rfl,?_⟩
  rintro ⟨fuel,res,hrun,-⟩
  rw [hloops] at hrun
  cases hrun

end Mtbl
