import Mtbl.Codec.Checksum
import Mtbl.File.Trailer

/-! A file damaged after it was written: the contents of some data blocks have changed, their lengths
and checksums and everything else have not. The verifier accepts the file exactly if nothing has
changed. -/
namespace Mtbl
open CRun

/-- The frame of a block whose contents have become `stored`. -/
def storedFrame (codec : Codec) (raw stored : Bytes) : Bytes :=
  mtblVarintEncode64 raw.length++mtblFixedEncode32 (codec.crc32c raw).toNat++stored

def storedFrames (codec : Codec) (stored : FileBlock → Bytes) (blocks : List FileBlock) : Bytes :=
  blocks.flatMap (fun b => storedFrame codec b.raw (stored b))

/-- Each block is as it was written, or damaged. -/
def MayDamage (stored : FileBlock → Bytes) (blocks : List FileBlock) : Prop :=
  ∀ b ∈ blocks, stored b = b.raw ∨ Damage b.raw (stored b)

section
variable {codec : Codec} {stored : FileBlock → Bytes} {blocks front back : List FileBlock}
  {b : FileBlock}

theorem MayDamage.length_eq (h : MayDamage stored blocks) (hb : b ∈ blocks) :
    (stored b).length = b.raw.length := by
  rcases h b hb with heq | hdamage
  · rw [heq]
  · exact hdamage.length_eq.symm

/-- Damaged contents do not have the checksum in front of them. -/
theorem MayDamage.crc_ne (h : MayDamage stored blocks) (hcrc : codec.crc32c = mtblCrc32c)
    (hb : b ∈ blocks) (hne : stored b ≠ b.raw) :
    codec.crc32c b.raw ≠ codec.crc32c (stored b) := by
  rw [hcrc]
  exact mtblCrc32c_detects ((h b hb).resolve_left hne)

theorem storedFrames_append (front back : List FileBlock) :
    storedFrames codec stored (front++back) =
      storedFrames codec stored front++storedFrames codec stored back := List.flatMap_append

theorem storedFrames_cons (b : FileBlock) (back : List FileBlock) :
    storedFrames codec stored (b::back) =
      storedFrame codec b.raw (stored b)++storedFrames codec stored back := List.flatMap_cons

theorem storedFrames_intact (h : ∀ b ∈ blocks, stored b = b.raw) :
    storedFrames codec stored blocks = framesBytes codec blocks := by
  apply List.flatMap_congr
  intro b hb
  rw [storedFrame,h b hb]
  rfl

theorem storedFrame_length {raw stored : Bytes} (h : stored.length = raw.length) :
    (storedFrame codec raw stored).length = (frame codec raw).length := by
  simp only [storedFrame,frame,List.length_append,h]

theorem storedFrames_length (h : ∀ b ∈ blocks, (stored b).length = b.raw.length) :
    (storedFrames codec stored blocks).length = (framesBytes codec blocks).length := by
  rw [storedFrames,framesBytes,List.length_flatMap,List.length_flatMap]
  congr 1
  exact List.map_congr_left (fun b hb => storedFrame_length (h b hb))

/-- The first damaged block, if there is one. -/
theorem exists_first_damaged (h : ¬ ∀ b ∈ blocks, stored b = b.raw) :
    ∃ front b back, blocks = front++b::back ∧ (∀ a ∈ front, stored a = a.raw) ∧
      stored b ≠ b.raw := by
  induction blocks with
  | nil => exact absurd (fun b hb => by cases hb) h
  | cons c blocks ih =>
    by_cases hc : stored c = c.raw
    · have hrest : ¬ ∀ b ∈ blocks, stored b = b.raw := by
        intro hall
        exact h (List.forall_mem_cons.mpr ⟨hc,hall⟩)
      obtain ⟨front,b,back,rfl,hfront,hb⟩ := ih hrest
      exact ⟨c::front,b,back,rfl,List.forall_mem_cons.mpr ⟨hc,hfront⟩,hb⟩
    · exact ⟨[],c,blocks,rfl,by simp,hc⟩

/-! ### A frame with other contents -/

section
variable {data rest raw contents : Bytes} {offset : ℕ}

theorem blockLength_storedFrame (hraw : raw.length < 2^64) :
    blockLength .formatV2 (storedFrame codec raw contents++rest) =
      .ok ((mtblVarintEncode64 raw.length).length,raw.length) := by
  simp only [blockLength,storedFrame,List.append_assoc]
  exact mtblVarintDecode64_encode64 hraw _

theorem storedFrame_crc (hdata : data.drop offset = storedFrame codec raw contents++rest) :
    mtblFixedDecode32 (data.drop (offset+(mtblVarintEncode64 raw.length).length)) =
      .ok (codec.crc32c raw).toNat := by
  have hmod : (codec.crc32c raw).toNat%2^32 = (codec.crc32c raw).toNat :=
    Nat.mod_eq_of_lt (codec.crc32c raw).toNat_lt
  rw [← List.drop_drop,hdata,storedFrame,List.append_assoc,List.append_assoc,List.drop_left,
    mtblFixedDecode32_encode32,hmod]

theorem storedFrame_contents (hdata : data.drop offset = storedFrame codec raw contents++rest)
    (hlen : contents.length = raw.length) :
    readSlice data (offset+(mtblVarintEncode64 raw.length).length+4) raw.length = .ok contents := by
  have hdrop : data.drop (offset+(mtblVarintEncode64 raw.length).length+4) = contents++rest := by
    rw [← List.drop_drop,← List.drop_drop,hdata,storedFrame,List.append_assoc,List.append_assoc,
      List.drop_left,← mtblFixedEncode32_length (codec.crc32c raw).toNat,List.drop_left]
  have hsize := congrArg List.length hdata
  have hpos := (mtblVarintEncode64_length raw.length).1
  simp only [storedFrame,List.length_append,List.length_drop,mtblFixedEncode32_length] at hsize
  have hread := readSlice_of_drop hdrop (by omega)
  rwa [hlen] at hread

/-- The round that comes to the damaged block leaves the loop. -/
theorem verifyRound_damaged {bytesDataBlocks countDataBlocks n : ℕ}
    (hdata : data.drop offset = storedFrame codec raw contents++rest)
    (hlen : contents.length = raw.length) (hcrc : codec.crc32c raw ≠ codec.crc32c contents)
    (hn : n < countDataBlocks)
    (hend : offset+(mtblVarintEncode64 raw.length).length+4+raw.length ≤ bytesDataBlocks)
    (hsize : bytesDataBlocks < 2^64) :
    verifyRound codec .formatV2 data bytesDataBlocks countDataBlocks (.at n offset) =
      .ok (.inr false) := by
  have hlength : blockLength .formatV2 (data.drop offset) =
      .ok ((mtblVarintEncode64 raw.length).length,raw.length) := by
    rw [hdata,blockLength_storedFrame (by omega)]
  have hne : (codec.crc32c raw).toNat ≠ (codec.crc32c contents).toNat :=
    fun heq => hcrc (UInt32.toNat_inj.mp heq)
  rw [verifyRound_at hn hlength,Nat.mod_eq_of_lt (by omega),if_neg (not_lt.mpr hend),
    storedFrame_crc hdata,ok_bind,storedFrame_contents hdata hlen,ok_bind,if_pos hne]
  rfl

end

/-! ### The verifier -/

/-- The walk over blocks of which one is the first that is damaged. -/
theorem verify_damaged {rest : Bytes} (hfront : ∀ a ∈ front, stored a = a.raw)
    (hlen : (stored b).length = b.raw.length)
    (hcrc : codec.crc32c b.raw ≠ codec.crc32c (stored b))
    (hsize : (storedFrames codec stored (front++b::back)++rest).length < 2^63) {fuel : ℕ}
    (hfuel : front.length < fuel) :
    loop (verifyRound codec .formatV2 (storedFrames codec stored (front++b::back)++rest)
      (storedFrames codec stored (front++b::back)).length (front++b::back).length) fuel .start =
        .ok false := by
  have hframes : storedFrames codec stored (front++b::back) = framesBytes codec front++
      (storedFrame codec b.raw (stored b)++storedFrames codec stored back) := by
    rw [storedFrames_append,storedFrames_intact hfront,storedFrames_cons]
  have hbytes := congrArg List.length hframes
  have hb := frame_length codec b.raw
  simp only [List.length_append,storedFrame_length hlen,hb] at hbytes hsize
  have hdata : storedFrames codec stored (front++b::back)++rest = framesBytes codec front++
      (storedFrame codec b.raw (stored b)++(storedFrames codec stored back++rest)) := by
    rw [hframes,List.append_assoc,List.append_assoc]
  have hcount : (front++b::back).length = front.length+(back.length+1) := by
    rw [List.length_append,List.length_cons]
  refine loop_after (t := fun i => VerifyState.at i (blockStart codec front i)) front.length ?_ ?_ hfuel
  · intro i hi
    have ha : front[i]? = some front[i] := List.getElem?_eq_getElem hi
    have hend := @blockStart_le codec front (i+1)
    rw [blockStart_succ ha] at hend
    have hfrontSize : (framesBytes codec front).length < 2^63 := by omega
    rw [hdata]
    simp only [blockStart_succ ha]
    refine verifyRound_frame ?_ (by omega) (framedBlocks_frames hfrontSize _ hi.le)
      (frameAt_block hfrontSize _ ha) (by omega)
    rw [← hdata,List.length_append]
    exact hsize
  · have hstart : blockStart codec front front.length = (framesBytes codec front).length := by
      rw [blockStart,List.take_length]
    have hdrop : (storedFrames codec stored (front++b::back)++rest).drop
        (blockStart codec front front.length) =
          storedFrame codec b.raw (stored b)++(storedFrames codec stored back++rest) := by
      rw [hdata,hstart,List.drop_left]
    exact verifyRound_damaged hdrop hlen hcrc (by omega) (by omega) (by omega)

/-! ### The whole file -/

/-- A file as the writer laid it out, with these bytes for its data blocks. -/
theorem Laid.verifyFile_eq {pre region : Bytes} {opt : WriterOptions} {w : Writer}
    {acc : List Entry} (h : Laid codec pre opt w blocks [] acc)
    (hregion : region.length = (framesBytes codec blocks).length) {rest : Bytes}
    (hrest : rest = frame codec (blockBuilderFinish w.index).2++
      metadataWrite (finalMetadata codec w))
    (hsize : (pre++(region++rest)).length < 2^63) (fuel : ℕ) :
    verifyFile codec (pre++(region++rest)) fuel =
      if region.length = 0 ∧ blocks.length = 0 then .ok true
      else loop (verifyRound codec .formatV2 (region++rest) region.length blocks.length) fuel
        .start := by
  have hblocks := @blocks_length_le codec blocks
  have hoffset : (finalMetadata codec w).indexBlockOffset = pre.length+region.length := by
    rw [hregion,← List.length_append,← h.file,← h.pending]
    rfl
  have hlen : (pre++(region++rest)).length = pre.length+region.length+rest.length := by
    simp only [List.length_append,Nat.add_assoc]
  have hpos : 0 < rest.length := by
    rw [hrest,List.length_append,metadataWrite_length]
    exact Nat.lt_of_lt_of_le (by decide : 0 < mtblMetadataSize) (Nat.le_add_left _ _)
  obtain ⟨B,hinit⟩ := (@blockInit_ok_iff (codec.front _) ((blockBuilderFinish w.index).2++
    metadataWrite (finalMetadata codec w)) (blockBuilderFinish w.index).2.length
    (by rw [List.length_append]; omega)).mpr (.inr h.index.finish_length)
  have hopen := @mtblReaderInitFd_frame codec (pre++(region++rest)) (finalMetadata codec w)
    (pre++region) _ _ ⟨true⟩ (by rw [hrest,List.append_assoc]) (by rw [hoffset,List.length_append])
    h.index.finish_length hsize hinit
  have hread : (finalMetadata codec w).stored.indexBlockOffset = pre.length+region.length := by
    rw [Metadata.stored,hoffset]
    exact Nat.mod_eq_of_lt (by omega)
  have hbytes : (finalMetadata codec w).stored.bytesDataBlocks = region.length := by
    rw [hregion,← h.bytesDataBlocks]
    exact Nat.mod_eq_of_lt (h.bytesDataBlocks.trans_lt (by omega))
  have hcount : (finalMetadata codec w).stored.countDataBlocks = blocks.length := by
    rw [← h.countDataBlocks]
    exact Nat.mod_eq_of_lt (h.countDataBlocks.trans_lt (by omega))
  have hstart : (pre.length+region.length+2^64-region.length)%2^64 = pre.length := by omega
  have hmap : (pre.length+region.length)%2^64 = pre.length+region.length :=
    Nat.mod_eq_of_lt (by omega)
  rw [verifyFile,hopen,ok_bind]
  simp only [hread,hbytes,hcount,hstart,hmap,List.drop_left]
  rw [verifyDataBlocks.eq_def]
  split_ifs with hzero hnone
  · rfl
  · have hnil : blocks.length = 0 := by omega
    exact absurd ⟨by omega,hnil⟩ hzero
  · rfl

/-- The verifier accepts the file, damaged or not, exactly if it is not damaged. -/
theorem Laid.verifyFile_stored {pre : Bytes} {opt : WriterOptions} {w : Writer}
    {acc : List Entry} (h : Laid codec pre opt w blocks [] acc) (hcrc : codec.crc32c = mtblCrc32c)
    (hstored : MayDamage stored blocks) {rest : Bytes}
    (hrest : rest = frame codec (blockBuilderFinish w.index).2++
      metadataWrite (finalMetadata codec w))
    (hsize : (pre++(framesBytes codec blocks++rest)).length < 2^63) {fuel : ℕ}
    (hfuel : blocks.length < fuel) :
    verifyFile codec (pre++(storedFrames codec stored blocks++rest)) fuel =
      .ok (decide (∀ b ∈ blocks, stored b = b.raw)) := by
  have hregion := @storedFrames_length codec _ _ (fun b hb => hstored.length_eq hb)
  have hsize' : (pre++(storedFrames codec stored blocks++rest)).length < 2^63 := by
    simp only [List.length_append,hregion] at hsize ⊢
    exact hsize
  have hdata : (storedFrames codec stored blocks++rest).length < 2^63 := by
    rw [List.length_append] at hsize'
    omega
  rw [h.verifyFile_eq hregion hrest hsize']
  by_cases hintact : ∀ b ∈ blocks, stored b = b.raw
  · rw [decide_eq_true hintact]
    split_ifs with hzero
    · rfl
    · rw [storedFrames_intact hintact] at hdata ⊢
      exact verifyWritten_accepts hdata fuel (Nat.zero_le _) (by omega)
  · obtain ⟨front,b,back,rfl,hfront,hb⟩ := exists_first_damaged hintact
    have hmem : b ∈ front++b::back := List.mem_append_right _ List.mem_cons_self
    have hcount : (front++b::back).length = front.length+(back.length+1) := by
      rw [List.length_append,List.length_cons]
    rw [decide_eq_false hintact,if_neg (by omega)]
    exact verify_damaged hfront (hstored.length_eq hmem) (hstored.crc_ne hcrc hmem hb) hdata
      (by omega)

end

/-- The verifier finds every damage to the data blocks of every file that the writer leaves, and
complains about nothing else. -/
theorem verifyFile_detects (codec : Codec) (hcrc : codec.crc32c = mtblCrc32c) (pre : Bytes)
    (opt : WriterOptions) (hinterval : 1 ≤ opt.blockRestartInterval) (adds : List Entry)
    (hsmall : ∀ e ∈ adds, e.Small)
    (hcompress : WriterCompresses codec (mtblWriterInitFd pre (some opt)) adds) :
    ∃ w file, writerAdds codec (mtblWriterInitFd pre (some opt)) adds =
        .ok (w,addResults none adds) ∧
      mtblWriterDestroy codec w = .ok file ∧
      (file.length < 2^63 → ∃ blocks index trailer m,
        LaidOut codec pre opt (acceptedEntries none adds) file blocks index trailer m ∧
        ∀ stored, MayDamage stored blocks → ∀ fuel > blocks.length,
          verifyFile codec (pre++(storedFrames codec stored blocks++
            (frame codec index++trailer))) fuel = .ok (decide (∀ b ∈ blocks, stored b = b.raw))) := by
  obtain ⟨w,blocks,cur,hrun,hw,hkey,hend⟩ :=
    (Laid.init codec pre opt hinterval).adds adds (RemembersKey.init pre opt) hsmall hcompress
  obtain ⟨w1,b,w2,blocks',hdetach,hemit,hw2⟩ := hw.flush hkey hend
  obtain ⟨w3,hwrite,hfile⟩ := writeIndex_spec codec hw2.unclosed
  refine ⟨w,w3.file,hrun,?_,fun hsize => ?_⟩
  · simp [mtblWriterDestroy,hw.unclosed,mtblWriterFinish,mtblWriterFlush,hdetach,hemit,hwrite]
  · have hlaid := hw2.laidOut hfile hsize
    refine ⟨blocks',_,_,_,hlaid,fun stored hstored fuel hfuel => ?_⟩
    exact hw2.verifyFile_stored hcrc hstored rfl (by rw [← hlaid.layout]; exact hsize) hfuel

/-- Two entries in one block, behind a reserved byte. -/
theorem verifyFile_detects_two : ∃ blocks index trailer,
    fileEntries blocks = [⟨[1],[2]⟩,⟨[1,0],[]⟩] ∧
      ∀ stored, MayDamage stored blocks → ∀ fuel > blocks.length,
        verifyFile storingCodec ([7]++(storedFrames storingCodec stored blocks++
          (frame storingCodec index++trailer))) fuel =
            .ok (decide (∀ b ∈ blocks, stored b = b.raw)) := by
  obtain ⟨w,file,hrun,hdestroy,hlaid⟩ := verifyFile_detects storingCodec rfl [7] plainOptions
    (by decide) [⟨[1],[2]⟩,⟨[1],[3]⟩,⟨[1,0],[]⟩] (by decide) (by decide +kernel)
  have hsize : ∀ p, writerAdds storingCodec (mtblWriterInitFd [7] (some plainOptions))
      [⟨[1],[2]⟩,⟨[1],[3]⟩,⟨[1,0],[]⟩] = .ok p → ∀ f, mtblWriterDestroy storingCodec p.1 = .ok f →
      f.length < 2^63 := by decide +kernel
  obtain ⟨blocks,index,trailer,m,hlayout,hdetect⟩ := hlaid (hsize _ hrun _ hdestroy)
  exact ⟨blocks,index,trailer,hlayout.entries,hdetect⟩

end Mtbl
