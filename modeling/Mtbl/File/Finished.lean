import Mtbl.File.Written
import Mtbl.File.ReaderSeek

/-! The finished file: the data blocks end to end, the index block and the trailer. A reader opened on
it holds exactly the blocks that the writer's invariant names. -/
namespace Mtbl
open CRun Cursor

/-- A file that the writer leaves behind `pre`, with these data blocks. -/
structure Finished (codec : Codec) (t : CompressionType) (pre file : Bytes)
    (blocks : List FileBlock) (m : Metadata) (ib : BlockBuilder) : Prop where
  layout : file = pre++(framesBytes codec blocks++
    (frame codec (blockBuilderFinish ib).2++metadataWrite m))
  indexOffset : m.indexBlockOffset = pre.length+(framesBytes codec blocks).length
  algorithm : m.compressionAlgorithm = t.code
  index : Builds ib (indexEntries blocks)
  indexRestarts : ib.restarts.length < 2^31
  offsets : OffsetsFrom codec pre.length blocks
  decodes : ∀ b ∈ blocks, Decodes codec t b.raw b.entries
  ordered : Ordered blocks
  size : file.length < 2^63

section
variable {codec : Codec} {pre : Bytes} {w : Writer} {blocks : List FileBlock}
  {cur acc : List Entry}

/-- The last flush, for any state that the adds leave. -/
theorem lastFlush_spec (h : Written codec pre w blocks cur) (ha : Accepted w blocks cur acc)
    (hfit : w.Fits codec) (htakes : w.TakesIndex) :
    ∃ w' blocks', mtblWriterFlush codec w = .ok w' ∧ Written codec pre w' blocks' [] ∧
      fileEntries blocks' = acc := by
  by_cases hcur : cur = []
  · subst hcur
    exact ⟨w,blocks,flush_empty h,h,by simpa using ha.entries⟩
  · have hempty : blockBuilderEmpty w.data = false := by
      rw [Bool.eq_false_iff]
      exact fun he => hcur (h.data.empty_iff.mp he)
    obtain ⟨w',raw,hflush,hw',-,-⟩ := flush_spec h hcur hfit
      (fun e he => ha.le_last e (by rw [← ha.entries]; simp [he])) (htakes hempty)
    refine ⟨w',_,hflush,hw',?_⟩
    simpa only [fileEntries,List.flatMap_append,List.flatMap_singleton] using ha.entries

/-- The trailer the writer leaves. -/
def finalMetadata (codec : Codec) (w : Writer) : Metadata :=
  { w.m with indexBlockOffset := w.pendingOffset,
             bytesIndexBlock := (frame codec (blockBuilderFinish w.index).2).length }

theorem writeIndex_spec (codec : Codec) (h : w.closed = false) :
    ∃ w', writeIndex codec w = .ok w' ∧ w'.file = w.file++
      (frame codec (blockBuilderFinish w.index).2++metadataWrite (finalMetadata codec w)) := by
  have hlen := blockBuilderFinish_length w.index
  have hwrite := mtblWriterWriteBlock_spec codec w.file ⟨.none,0,(blockBuilderFinish w.index).2,[],
    codec.crc32c (blockBuilderFinish w.index).2⟩ (by simp only; omega) rfl
  have htrailer : 0 < (metadataWrite (finalMetadata codec w)).length := by
    rw [metadataWrite_length]
    exact Nat.zero_lt_succ _
  refine ⟨{ w with
    file := w.file++frame codec (blockBuilderFinish w.index).2++
      metadataWrite (finalMetadata codec w)
    m := finalMetadata codec w
    closed := true
    lastOffset := w.pendingOffset
    pendingOffset := w.pendingOffset+(frame codec (blockBuilderFinish w.index).2).length
    index := blockBuilderReset (blockBuilderFinish w.index).1 },?_,?_⟩
  · simp only [finalMetadata] at htrailer
    simp only [writeIndex,check_of h,ok_bind,hwrite,writeAll,check_of htrailer,
      pure_eq_ok,finalMetadata]
  · simp only [List.append_assoc]

/-- Destroying the writer leaves a finished file with the accepted entries. -/
theorem mtblWriterDestroy_spec (h : Written codec pre w blocks cur)
    (ha : Accepted w blocks cur acc) (hfits : WriterFits codec w [])
    (htakes : WriterTakes codec w []) :
    ∃ file t blocks' m index, mtblWriterDestroy codec w = .ok file ∧
      Finished codec t pre file blocks' m index ∧ fileEntries blocks' = acc := by
  obtain ⟨hfit,hindex,hsize⟩ := hfits
  obtain ⟨w1,blocks',hflush,hw1,hentries⟩ := lastFlush_spec h ha hfit htakes
  obtain ⟨w2,hwrite,hfile⟩ := writeIndex_spec codec hw1.unclosed
  have hdestroy : mtblWriterDestroy codec w = .ok w2.file := by
    simp [mtblWriterDestroy,h.unclosed,mtblWriterFinish,hflush,hwrite]
  refine ⟨w2.file,w1.opt.compressionType,blocks',finalMetadata codec w1,w1.index,hdestroy,?_,
    hentries⟩
  exact {
    layout := by rw [hfile,hw1.file,List.append_assoc]
    indexOffset := by rw [← List.length_append,← hw1.file,← hw1.pending]; rfl
    algorithm := hw1.algorithm
    index := hw1.index
    indexRestarts := hindex w1 hflush
    offsets := hw1.offsets
    decodes := hw1.decodes
    ordered := hw1.ordered
    size := hsize w2.file hdestroy }

end

section
variable {codec : Codec} {t : CompressionType} {pre file : Bytes} {blocks : List FileBlock}
  {m : Metadata} {index : BlockBuilder}

theorem framesBytes_raw_le (codec : Codec) {b : FileBlock} (hb : b ∈ blocks) :
    b.raw.length ≤ (framesBytes codec blocks).length := by
  induction blocks with
  | nil => simp at hb
  | cons c blocks ih =>
    rw [framesBytes,List.flatMap_cons,List.length_append]
    rcases List.mem_cons.mp hb with rfl | hb
    · rw [frame_length]
      omega
    · exact (ih hb).trans (Nat.le_add_left _ _)

/-- A file whose trailer names the frame in front of it opens, with or without verification. -/
theorem mtblReaderInitFd_frame {pre contents : Bytes} {B : Block} (opt : ReaderOptions)
    (hfile : file = pre++(frame codec contents++metadataWrite m))
    (hoffset : m.indexBlockOffset = pre.length) (hcontents : 8 ≤ contents.length)
    (hsize : file.length < 2^63)
    (hinit : blockInit (codec.front (contents++metadataWrite m)) (contents++metadataWrite m)
      contents.length = .ok B) :
    mtblReaderInitFd codec file opt = .ok (some ⟨m.stored,file,opt,B⟩) := by
  have hframe := frame_length codec contents
  have hvar := (mtblVarintEncode64_length contents.length).1
  have hlen : file.length =
      m.indexBlockOffset+((frame codec contents).length+mtblMetadataSize) := by
    rw [hfile,hoffset]
    simp only [List.length_append,metadataWrite_length]
  have hmeta : mtblMetadataSize = 512 := rfl
  have htrailer : file.drop (file.length-mtblMetadataSize) = metadataWrite m++[] := by
    have hpos : file.length-mtblMetadataSize = (pre++frame codec contents).length := by
      rw [hlen,hoffset,List.length_append]
      omega
    rw [hpos,List.append_nil,hfile,← List.append_assoc,List.drop_left]
  have hindexDrop : file.drop m.indexBlockOffset = frame codec contents++metadataWrite m := by
    rw [hoffset,hfile,List.drop_left]
  have hstored : m.indexBlockOffset%2^64 = m.indexBlockOffset := Nat.mod_eq_of_lt (by omega)
  have hend : (m.indexBlockOffset+mtblMetadataSize+13)%2^64 =
      m.indexBlockOffset+mtblMetadataSize+13 := Nat.mod_eq_of_lt (by omega)
  unfold mtblReaderInitFd
  rw [if_neg (by omega),htrailer,metadataRead_write,ok_bind]
  simp only [Metadata.stored,minBlockLength,hstored,hend]
  rw [if_neg (by omega),hindexDrop,blockLength_frame (by omega),ok_bind]
  simp only [verifyChecksum_frame opt hindexDrop,frame_drop hindexDrop,hinit,ok_bind]
  rfl

/-- Even an empty block holds a restart point and the count of them. -/
theorem Builds.finish_length {b : BlockBuilder} {es : List Entry} (h : Builds b es) :
    8 ≤ (blockBuilderFinish b).2.length := by
  have hfinish := blockBuilderFinish_length b
  have hrestarts : 0 < b.restarts.length := by
    obtain ⟨slots,rs,-,hb⟩ := h
    rw [hb.restarts,List.length_map]
    exact (List.getElem?_eq_some_iff.mp hb.first).1
  have hwidth : 4 ≤ restartWidth b.buf.length := by unfold restartWidth; split_ifs <;> omega
  have hmul : 4 ≤ b.restarts.length*restartWidth b.buf.length :=
    hwidth.trans (Nat.le_mul_of_pos_left _ hrestarts)
  omega

/-- Opening a finished file succeeds, with or without verification, and finds its blocks. -/
theorem mtblReaderInitFd_spec (h : Finished codec t pre file blocks m index)
    (opt : ReaderOptions) :
    ∃ r, mtblReaderInitFd codec file opt = .ok (some r) ∧ Holds codec r blocks := by
  have hsize := h.size
  have hlen := congrArg List.length h.layout
  simp only [List.length_append,metadataWrite_length,frame_length] at hlen
  have hbuf := blockBuilderFinish_length index
  obtain ⟨B,bi,hinit,hiter,hshow⟩ := h.index.finish (codec.front _) (metadataWrite m) h.indexRestarts (by omega)
  have hopen := @mtblReaderInitFd_frame codec _ _ _ _ _ opt
    (by rw [h.layout,← List.append_assoc]) (by rw [h.indexOffset,List.length_append])
    h.index.finish_length hsize hinit
  have halg : m.compressionAlgorithm%2^64 = t.code := by
    have := t.code_lt
    rw [h.algorithm,Nat.mod_eq_of_lt (by omega)]
  refine ⟨⟨m.stored,file,opt,B⟩,hopen,?_⟩
  exact {
    index := ⟨bi,_,hiter,hshow⟩
    load := by
      intro b hb
      obtain ⟨rest,hrest⟩ := h.offsets.split hb rfl
        (frame codec (blockBuilderFinish index).2++metadataWrite m)
      rw [← h.layout] at hrest
      have hraw := framesBytes_raw_le codec hb
      exact getBlock_frame rfl halg hrest (by omega) (h.decodes b hb)
    offset_lt := by
      intro b hb
      have hlt := h.offsets.lt hb
      omega
    ordered := h.ordered }

end

end Mtbl
