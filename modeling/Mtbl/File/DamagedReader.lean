import Mtbl.File.Damage
import Mtbl.File.SeekLaw
import Mtbl.Lib.Checked

/-! Reading a damaged file. A reader that verifies checksums stops on an assertion in a damaged block,
and until then its iterators answer as on the file that was written. -/
namespace Mtbl
open CRun Cursor

section
variable {codec : Codec} {r : Reader} {blocks : List FileBlock}

/-- A full iterator follows the plain cursor over the entries that were written, or stops. -/
theorem readerOps_checked (h : HoldsWithin True codec r blocks) :
    RefinesChecked Entry.key (fileEntries blocks) (readerOps codec) (keepsCurrent codec)
      (fun it rem => it.r = r ∧ it.itType = .iter ∧ Tracks codec blocks it rem) where
  next := by
    rintro it rem ⟨hr,htype,ht⟩ -
    apply (within_true.mp (readerIterNext_within (hr ▸ h) ht)).imp
    rintro ⟨e,it'⟩ ⟨he,hsame,rem',ht',hrest⟩
    rw [selected_iter htype] at he hrest
    rw [selected_iter htype] at hrest
    exact ⟨he,hsame.r.trans hr,hsame.itType.trans htype,hrest ▸ ht'⟩
  seek := by
    rintro it rem key ⟨hr,htype,ht⟩ hcur
    apply (within_true.mp (readerIterSeek_within (hr ▸ h) ht key hcur)).imp
    rintro p ⟨hok,hsame,ht'⟩
    exact ⟨hok,hsame.r.trans hr,hsame.itType.trans htype,ht'⟩

end

/-! ### The damaged file -/

section
variable {codec : Codec} {stored : FileBlock → Bytes} {r : Reader} {raw contents rest : Bytes}
  {offset : ℕ}

/-- With verification the damaged block fails the assertion. -/
theorem getBlock_damaged (hversion : r.m.fileVersion = .formatV2)
    (hverify : r.opt.verifyChecksums = true)
    (hdata : r.data.drop offset = storedFrame codec raw contents++rest)
    (hlen : contents.length = raw.length) (hraw : raw.length < 2^64)
    (hcrc : codec.crc32c raw ≠ codec.crc32c contents) :
    getBlock codec r offset = .error .assertion := by
  have hsize := congrArg List.length hdata
  have hpos := (mtblVarintEncode64_length raw.length).1
  simp only [storedFrame,List.length_append,List.length_drop,mtblFixedEncode32_length] at hsize
  have hne : (codec.crc32c raw).toNat ≠ (codec.crc32c contents).toNat :=
    fun heq => hcrc (UInt32.toNat_inj.mp heq)
  have hfail : verifyChecksum codec r.opt r.data
      (offset+(mtblVarintEncode64 raw.length).length) raw.length = .error .assertion := by
    rw [verifyChecksum,if_pos hverify,storedFrame_crc hdata,ok_bind,
      storedFrame_contents hdata hlen,ok_bind,check,if_neg hne]
  rw [getBlock,check_of (by omega),ok_bind,hversion,hdata,blockLength_storedFrame hraw,ok_bind]
  simp only [hfail,error_bind]

/-- Where the block lies, as it is now. -/
theorem OffsetsFrom.storedAt {pre : Bytes} {blocks : List FileBlock} {b : FileBlock}
    (h : OffsetsFrom codec pre.length blocks) (hstored : MayDamage stored blocks) (hb : b ∈ blocks)
    (post : Bytes) :
    ∃ rest, (pre++(storedFrames codec stored blocks++post)).drop b.offset =
      storedFrame codec b.raw (stored b)++rest := by
  obtain ⟨i,hi⟩ := List.getElem?_of_mem hb
  obtain ⟨hlt,rfl⟩ := List.getElem?_eq_some_iff.mp hi
  have hfront : (storedFrames codec stored (blocks.take i)).length = blockStart codec blocks i :=
    storedFrames_length (fun c hc => hstored.length_eq (List.mem_of_mem_take hc))
  have hsplit : storedFrames codec stored blocks = storedFrames codec stored (blocks.take i)++
      (storedFrame codec blocks[i].raw (stored blocks[i])++
        storedFrames codec stored (blocks.drop (i+1))) := by
    rw [← storedFrames_cons,← storedFrames_append,List.getElem_cons_drop,List.take_append_drop]
  refine ⟨storedFrames codec stored (blocks.drop (i+1))++post,?_⟩
  rw [h.start hi,← List.drop_drop,List.drop_left,hsplit,← hfront,List.append_assoc,List.drop_left,
    List.append_assoc]

end

/-- A file in which blocks may be damaged, opened with verification. An intact block shows its
entries, a damaged one stops the reader, and a full iterator answers every run of calls as on the
file that was written or stops on the assertion. -/
def ReadsChecked (codec : Codec) (stored : FileBlock → Bytes) (file : Bytes)
    (blocks : List FileBlock) : Prop :=
  ∃ r, mtblReaderInitFd codec file ⟨true⟩ = .ok (some r) ∧
    (∀ b ∈ blocks, stored b = b.raw → ∃ B bi i, getBlock codec r b.offset = .ok B ∧
      blockIterInit B = .ok bi ∧ Shows bi b.entries i) ∧
    (∀ b ∈ blocks, stored b ≠ b.raw → getBlock codec r b.offset = .error .assertion) ∧
    (blocks ≠ [] → Checked (readerIter codec r) (fun c => ∃ it, c = some it ∧
      ∀ calls, (readerOps codec).Guarded (keepsCurrent codec) it calls →
        Checked ((readerOps codec).calls it calls) (fun p =>
          p.1 = (plainCalls Entry.key (fileEntries blocks) (fileEntries blocks) calls).1)))

theorem Finished.readsChecked {codec : Codec} {t : CompressionType} {pre file : Bytes}
    {blocks : List FileBlock} {m : Metadata} {index : BlockBuilder}
    (h : Finished codec t pre file blocks m index) (hcrc : codec.crc32c = mtblCrc32c)
    {stored : FileBlock → Bytes} (hstored : MayDamage stored blocks) :
    ReadsChecked codec stored (pre++(storedFrames codec stored blocks++
      (frame codec (blockBuilderFinish index).2++metadataWrite m))) blocks := by
  have hregion := @storedFrames_length codec _ _ (fun b hb => hstored.length_eq hb)
  have hsize := h.size
  have hlen := congrArg List.length h.layout
  have hbuf := blockBuilderFinish_length index
  simp only [List.length_append,metadataWrite_length,frame_length] at hlen
  obtain ⟨B,-,hinit,-,-⟩ := h.index.finish (codec.front _) (metadataWrite m) h.indexRestarts (by omega)
  -- the same index is found in the file as it was and in the file as it is
  have hopen := @mtblReaderInitFd_frame codec _ _ _ _ _ ⟨true⟩
    (by rw [h.layout,← List.append_assoc]) (by rw [h.indexOffset,List.length_append])
    h.index.finish_length hsize hinit
  have hopen' := @mtblReaderInitFd_frame codec (pre++(storedFrames codec stored blocks++
    (frame codec (blockBuilderFinish index).2++metadataWrite m))) m
    (pre++storedFrames codec stored blocks) _ _ ⟨true⟩ (by rw [List.append_assoc])
    (by rw [h.indexOffset,List.length_append,hregion]) h.index.finish_length
    (by simp only [List.length_append,hregion,metadataWrite_length,frame_length]; omega) hinit
  obtain ⟨r,hopen0,hholds⟩ := mtblReaderInitFd_spec h ⟨true⟩
  obtain rfl := Option.some.inj (Except.ok.inj (hopen.symm.trans hopen0))
  have halg : m.compressionAlgorithm%2^64 = t.code := by
    have := t.code_lt
    rw [h.algorithm,Nat.mod_eq_of_lt (by omega)]
  have hintact : ∀ b ∈ blocks, stored b = b.raw → ∃ B' bi i,
      getBlock codec ⟨m.stored,pre++(storedFrames codec stored blocks++
        (frame codec (blockBuilderFinish index).2++metadataWrite m)),⟨true⟩,B⟩ b.offset = .ok B' ∧
      blockIterInit B' = .ok bi ∧ Shows bi b.entries i := by
    intro b hb heq
    obtain ⟨rest,hrest⟩ := h.offsets.storedAt hstored hb
      (frame codec (blockBuilderFinish index).2++metadataWrite m)
    have hraw := framesBytes_raw_le codec hb
    rw [heq] at hrest
    exact getBlock_frame rfl halg hrest (by omega) (h.decodes b hb)
  have hdamaged : ∀ b ∈ blocks, stored b ≠ b.raw →
      getBlock codec ⟨m.stored,pre++(storedFrames codec stored blocks++
        (frame codec (blockBuilderFinish index).2++metadataWrite m)),⟨true⟩,B⟩ b.offset =
          .error .assertion := by
    intro b hb hne
    obtain ⟨rest,hrest⟩ := h.offsets.storedAt hstored hb
      (frame codec (blockBuilderFinish index).2++metadataWrite m)
    have hraw := framesBytes_raw_le codec hb
    exact getBlock_damaged rfl rfl hrest (hstored.length_eq hb) (by omega)
      (hstored.crc_ne hcrc hb hne)
  refine ⟨_,hopen',hintact,hdamaged,fun hne => ?_⟩
  have hload : HoldsWithin True codec ⟨m.stored,pre++(storedFrames codec stored blocks++
      (frame codec (blockBuilderFinish index).2++metadataWrite m)),⟨true⟩,B⟩ blocks := by
    refine ⟨hholds.index,fun b hb => ?_,hholds.offset_lt,hholds.ordered⟩
    by_cases heq : stored b = b.raw
    · obtain ⟨B',bi,i,hget,hshow⟩ := hintact b hb heq
      exact .inr ⟨B',hget,bi,i,hshow⟩
    · exact .inl ⟨trivial,hdamaged b hb heq⟩
  apply (within_true.mp (readerIter_within hload hne)).imp
  rintro c ⟨it,rfl,hr,htype,ht⟩
  exact ⟨it,rfl,fun calls hkeeps =>
    (readerOps_checked hload).calls ⟨hr,htype,ht⟩ calls hkeeps⟩

/-- Whatever happens to the contents of the blocks of a file that the writer left, a verifying reader
returns nothing that was not written. -/
theorem damaged_reads {codec : Codec} (hcrc : codec.crc32c = mtblCrc32c) {file : Bytes}
    {es : List Entry} (h : Produced codec file es) :
    ∃ pre blocks rest, file = pre++(framesBytes codec blocks++rest) ∧ fileEntries blocks = es ∧
      ∀ stored, MayDamage stored blocks →
        ReadsChecked codec stored (pre++(storedFrames codec stored blocks++rest)) blocks := by
  obtain ⟨t,pre,blocks,m,ib,hfin,hentries⟩ := h.finished
  exact ⟨pre,blocks,_,hfin.layout,hentries,fun stored hstored => hfin.readsChecked hcrc hstored⟩

/-- Two entries in one block. -/
theorem damaged_reads_two : ∃ pre blocks rest, fileEntries blocks = [⟨[1],[2]⟩,⟨[1,0],[]⟩] ∧
    ∀ stored, MayDamage stored blocks → ReadsChecked storingCodec stored
      (pre++(storedFrames storingCodec stored blocks++rest)) blocks := by
  obtain ⟨file,hfile⟩ := exists_produced storingCodec [7] plainOptions
    [⟨[1],[2]⟩,⟨[1],[3]⟩,⟨[1,0],[]⟩] (by decide) (by decide) (by decide +kernel)
  obtain ⟨pre,blocks,rest,-,hentries,hreads⟩ := damaged_reads rfl hfile
  exact ⟨pre,blocks,rest,hentries,hreads⟩

end Mtbl
