import Mtbl.Codec.Crc32c
import Mtbl.File.Written

/-! How large a data block gets. Before an entry is added the writer allows fifteen bytes for its three
varints. At a restart point four more bytes go into the restart array, but the first varint is a zero
and takes one byte, so the allowance covers both. -/
namespace Mtbl
open CRun

/-! ### The size estimate -/

/-- The estimate is exact. -/
theorem blockBuilderCurrentSizeEstimate_eq (b : BlockBuilder) :
    blockBuilderCurrentSizeEstimate b = (blockBuilderFinish b).2.length := by
  rw [blockBuilderFinish_length,blockBuilderCurrentSizeEstimate,restartWidth]
  split_ifs <;> omega

theorem encodeEntry_length_le {shared : ℕ} {e : Entry} (hsmall : e.Small)
    (hshared : shared ≤ e.key.length) :
    (encodeEntry shared e).length ≤ 15+e.key.length+e.val.length := by
  obtain ⟨hk,hv⟩ := hsmall
  have hheader := (headerBytes_length (a := shared) (b := e.key.length-shared) (by omega) (by omega)
    hv).2
  rw [encodeEntry_length]
  omega

/-- Nothing shared takes one byte to say. -/
theorem encodeEntry_zero_length_le {e : Entry} (hsmall : e.Small) :
    (encodeEntry 0 e).length ≤ 11+e.key.length+e.val.length := by
  obtain ⟨hk,hv⟩ := hsmall
  have hzero : (mtblVarintEncode32 0).length = 1 := by decide
  have hkey := (mtblVarintEncode32_length (v := e.key.length-0) (by omega)).2
  have hval := (mtblVarintEncode32_length hv).2
  rw [encodeEntry_length]
  simp only [headerBytes,List.length_append]
  omega

/-- An entry adds no more to a block with 32-bit restarts than the writer allows for. -/
theorem blockBuilderAdd_estimate {b b' : BlockBuilder} {key val : Bytes}
    (hsmall : Entry.Small ⟨key,val⟩) (hadd : blockBuilderAdd b key val = .ok b')
    (hregion : b'.buf.length ≤ uint32Max) :
    blockBuilderCurrentSizeEstimate b' ≤
      blockBuilderCurrentSizeEstimate b+(3*5+key.length+val.length) := by
  unfold blockBuilderAdd at hadd
  obtain ⟨-,-,hadd⟩ := bind_eq_ok.mp hadd
  obtain ⟨-,-,hadd⟩ := bind_eq_ok.mp hadd
  simp only [blockBuilderCurrentSizeEstimate]
  split_ifs at hadd with hc
  · obtain rfl := Except.ok.inj hadd
    have hlen := @encodeEntry_length_le (diffIndex b.lastKey key) _ hsmall
      (diffIndex_le_right _ _)
    simp only [List.length_append] at hregion hlen ⊢
    rw [if_neg (by omega),if_neg (by omega)]
    omega
  · obtain rfl := Except.ok.inj hadd
    have hlen := encodeEntry_zero_length_le hsmall
    simp only [List.length_append,List.length_singleton] at hregion hlen ⊢
    rw [if_neg (by omega),if_neg (by omega)]
    omega

/-! ### The adding thread -/

/-- What a block that is handed on leaves alone, wherever and whenever it is compressed and written. -/
structure SameFront (w w' : Writer) : Prop where
  data : w'.data = w.data
  opt : w'.opt = w.opt
  lastKey : w'.lastKey = w.lastKey
  closed : w'.closed = w.closed

theorem emitBlock_sameFront {codec : Codec} {w w' : Writer} {b : Option DataBlock}
    (hemit : emitBlock codec w b = .ok w') : SameFront w w' := by
  cases b with
  | none =>
    obtain rfl := Except.ok.inj hemit
    exact ⟨rfl,rfl,rfl,rfl⟩
  | some b =>
    obtain ⟨raw,-,hemit⟩ := bind_eq_ok.mp hemit
    obtain ⟨⟨file,n⟩,-,hemit⟩ := bind_eq_ok.mp hemit
    obtain ⟨index,-,hemit⟩ := bind_eq_ok.mp hemit
    obtain rfl := Except.ok.inj hemit
    exact ⟨rfl,rfl,rfl,rfl⟩

/-- The states of a writer between the calls of the thread that adds to it. -/
inductive AddingThread (opt : WriterOptions) : Writer → Prop
  | init (file : Bytes) : AddingThread opt (mtblWriterInitFd file (some opt))
  | add {w w1 w2 w3 : Writer} {key val : Bytes} {b : Option DataBlock}
      (before : AddingThread opt w) (small : Entry.Small ⟨key,val⟩)
      (room : makeRoom w key val = .ok (w1,b)) (handed : SameFront w1 w2)
      (accept : acceptEntry w2 key val = .ok w3) : AddingThread opt w3
  | elsewhere {w w' : Writer} (before : AddingThread opt w) (handed : SameFront w w') :
      AddingThread opt w'

/-- The data builder of a writer with these options, and what its size is bounded by. -/
structure Sized (opt : WriterOptions) (w : Writer) (held : List Entry) : Prop where
  opt_eq : w.opt = opt
  interval : w.data.blockRestartInterval = opt.blockRestartInterval
  builds : Builds w.data held
  bound : 2 ≤ held.length → w.data.buf.length ≤ uint32Max →
    blockBuilderCurrentSizeEstimate w.data < opt.blockSize

section
variable {opt : WriterOptions} {w w' : Writer} {held : List Entry}

theorem Sized.handed (h : Sized opt w held) (hsame : SameFront w w') : Sized opt w' held where
  opt_eq := hsame.opt.trans h.opt_eq
  interval := by rw [hsame.data,h.interval]
  builds := hsame.data ▸ h.builds
  bound := hsame.data ▸ h.bound

/-- What a flush leaves behind, with the block it hands on. -/
theorem detachBlock_eq {b : Option DataBlock} (hdetach : detachBlock w = .ok (w',b)) :
    (blockBuilderEmpty w.data = true ∧ w' = w ∧ b = none) ∨
    (blockBuilderEmpty w.data = false ∧
      w' = { w with data := blockBuilderReset (blockBuilderFinish w.data).1 } ∧
      b = some ⟨w.opt.compressionType,w.opt.compressionLevel,(blockBuilderFinish w.data).2,
        w.lastKey,0⟩) := by
  unfold detachBlock at hdetach
  obtain ⟨-,-,hdetach⟩ := bind_eq_ok.mp hdetach
  obtain ⟨-,-,hdetach⟩ := bind_eq_ok.mp hdetach
  cases hempty : blockBuilderEmpty w.data with
  | true =>
    rw [hempty] at hdetach
    obtain ⟨rfl,rfl⟩ := Prod.mk.inj (Except.ok.inj hdetach)
    exact .inl ⟨rfl,rfl,rfl⟩
  | false =>
    rw [hempty] at hdetach
    obtain ⟨rfl,rfl⟩ := Prod.mk.inj (Except.ok.inj hdetach)
    exact .inr ⟨rfl,rfl,rfl⟩

/-- Before an entry is added there is room for it, or no other entry in the block. -/
theorem Sized.makeRoom (h : Sized opt w held) {key val : Bytes} {b : Option DataBlock}
    (hroom : makeRoom w key val = .ok (w',b)) : ∃ held', Sized opt w' held' ∧
      (1 ≤ held'.length → blockBuilderCurrentSizeEstimate w'.data+
        (3*5+key.length+val.length) < opt.blockSize) := by
  simp only [Mtbl.makeRoom] at hroom
  split_ifs at hroom with hfull
  · obtain ⟨sep,-,hdetach⟩ := bind_eq_ok.mp hroom
    rcases detachBlock_eq hdetach with ⟨hempty,rfl,-⟩ | ⟨-,rfl,-⟩
    · obtain rfl := h.builds.empty_iff.mp hempty
      exact ⟨[],⟨h.opt_eq,h.interval,h.builds,h.bound⟩,fun hpos => absurd hpos (by decide)⟩
    · refine ⟨[],⟨h.opt_eq,h.interval,.reset _,fun hpos => absurd hpos (by decide)⟩,
        fun hpos => absurd hpos (by decide)⟩
  · obtain ⟨rfl,rfl⟩ := Prod.mk.inj (Except.ok.inj hroom)
    rw [h.opt_eq,not_le] at hfull
    exact ⟨held,h,fun _ => hfull⟩

theorem AddingThread.sized (hinterval : 1 ≤ opt.blockRestartInterval) (hw : AddingThread opt w) :
    ∃ held, Sized opt w held := by
  induction hw with
  | init file => exact ⟨[],rfl,rfl,.init _,fun hpos => absurd hpos (by decide)⟩
  | elsewhere _ hsame ih =>
    obtain ⟨held,h⟩ := ih
    exact ⟨held,h.handed hsame⟩
  | @add w w1 w2 w3 key val b _ hsmall hroom hsame haccept ih =>
    obtain ⟨held,h⟩ := ih
    obtain ⟨held1,h1,hfits⟩ := h.makeRoom hroom
    have h2 := h1.handed hsame
    rw [← hsame.data] at hfits
    unfold acceptEntry at haccept
    obtain ⟨data,hadd,haccept⟩ := bind_eq_ok.mp haccept
    obtain rfl := Except.ok.inj haccept
    obtain ⟨data',hadd',hbuilds,hsameInterval⟩ := h2.builds.add (h2.interval ▸ hinterval) hsmall
    obtain rfl := Except.ok.inj (hadd.symm.trans hadd')
    refine ⟨held1++[⟨key,val⟩],h2.opt_eq,hsameInterval.trans h2.interval,hbuilds,
      fun htwo hregion => ?_⟩
    rw [List.length_append,List.length_singleton] at htwo
    exact (blockBuilderAdd_estimate hsmall hadd hregion).trans_lt (hfits (by omega))

/-- The writer without a pool is one of these. -/
theorem writerAdds_addingThread {codec : Codec} {es : List Entry} {results : List Bool}
    (hw : AddingThread opt w) (hsmall : ∀ e ∈ es, e.Small)
    (hadds : writerAdds codec w es = .ok (w',results)) : AddingThread opt w' := by
  induction es generalizing w results with
  | nil =>
    obtain ⟨rfl,-⟩ := Prod.mk.inj (Except.ok.inj hadds)
    exact hw
  | cons e es ih =>
    obtain ⟨⟨w1,res⟩,hadd,hadds⟩ := bind_eq_ok.mp hadds
    obtain ⟨⟨w2,results'⟩,hrest,hadds⟩ := bind_eq_ok.mp hadds
    obtain ⟨rfl,-⟩ := Prod.mk.inj (Except.ok.inj hadds)
    refine ih ?_ (fun x hx => hsmall x (List.mem_cons_of_mem e hx)) hrest
    unfold mtblWriterAdd at hadd
    obtain ⟨-,-,hadd⟩ := bind_eq_ok.mp hadd
    split_ifs at hadd with horder
    · obtain ⟨rfl,-⟩ := Prod.mk.inj (Except.ok.inj hadd)
      exact hw
    · obtain ⟨⟨w3,b⟩,hroom,hadd⟩ := bind_eq_ok.mp hadd
      obtain ⟨w4,hemit,hadd⟩ := bind_eq_ok.mp hadd
      obtain ⟨w5,haccept,hadd⟩ := bind_eq_ok.mp hadd
      obtain ⟨rfl,-⟩ := Prod.mk.inj (Except.ok.inj hadd)
      exact .add hw (hsmall e List.mem_cons_self) hroom (emitBlock_sameFront hemit) haccept

/-- A block that is handed on is the finished data builder. -/
theorem flushed_data {b : DataBlock} (hflush : detachBlock w = .ok (w',some b) ∨
    ∃ key val, makeRoom w key val = .ok (w',some b)) : b.data = (blockBuilderFinish w.data).2 := by
  have hdetach : ∀ {w1 : Writer}, w1.data = w.data → detachBlock w1 = .ok (w',some b) →
      b.data = (blockBuilderFinish w.data).2 := by
    intro w1 hsame h
    rcases detachBlock_eq h with ⟨-,-,hnone⟩ | ⟨-,-,hsome⟩
    · cases hnone
    · rw [Option.some.inj hsome,hsame]
  rcases hflush with h | ⟨key,val,h⟩
  · exact hdetach rfl h
  · simp only [makeRoom] at h
    split_ifs at h
    · obtain ⟨sep,-,h⟩ := bind_eq_ok.mp h
      exact @hdetach { w with lastKey := sep } rfl h
    · cases (Prod.mk.inj (Except.ok.inj h)).2

/-- The estimate is the size of the finished block, and a data block of two entries or more, with a
region that 32-bit restart points reach, stays below the block size. -/
theorem data_block_size :
    (∀ b, blockBuilderCurrentSizeEstimate b = (blockBuilderFinish b).2.length) ∧
    ∀ (opt : WriterOptions), 1 ≤ opt.blockRestartInterval → ∀ (w w' : Writer) (b : DataBlock),
      AddingThread opt w → (detachBlock w = .ok (w',some b) ∨
        ∃ key val, makeRoom w key val = .ok (w',some b)) →
      ∃ held, DecodesTo b.data w.data.buf.length 0 [] held ∧
        (2 ≤ held.length → w.data.buf.length ≤ uint32Max → b.data.length < opt.blockSize) := by
  refine ⟨blockBuilderCurrentSizeEstimate_eq,fun opt hinterval w w' b hw hflush => ?_⟩
  obtain ⟨held,h⟩ := hw.sized hinterval
  rw [flushed_data hflush]
  refine ⟨held,h.builds.decodesTo,fun htwo hregion => ?_⟩
  rw [← blockBuilderCurrentSizeEstimate_eq]
  exact h.bound htwo hregion

/-- Two entries of a writer with blocks of 1024 bytes. -/
theorem data_block_size_two : ∃ held,
    DecodesTo [0,1,1,97,1,0,1,1,98,2,0,0,0,0,5,0,0,0,2,0,0,0] 10 0 [] held ∧
      (2 ≤ held.length → (10 : ℕ) ≤ uint32Max → (22 : ℕ) < 1024) := by
  have hw : AddingThread ⟨.none,0,1024,1⟩ _ := @writerAdds_addingThread _ _ _ storingCodec
    [⟨[97],[1]⟩,⟨[98],[2]⟩] _ (.init []) (by decide) rfl
  exact data_block_size.2 _ (by decide) _ _ _ hw (.inl rfl)

end

end Mtbl
