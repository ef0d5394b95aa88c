import Mtbl.File.RoundTrip
import Mtbl.File.Verify

/-! What the trailer says about the file. Offsets and counters are advanced in different functions of
the writer; they agree with the bytes written whatever the entries are, as long as compression
succeeds. Nothing is assumed about decompression. -/
namespace Mtbl
open CRun

/-! ### Compression that succeeds -/

/-- The assertions on the compressed data hold. -/
def DataBlock.Compresses (codec : Codec) (b : DataBlock) : Prop :=
  ∃ raw ∈ compressedData codec b.compType b.compLevel b.data, 0 < raw.length

/-- Every block that the adds, and then the end of the file, hand on is compressed successfully. -/
def WriterCompresses (codec : Codec) (w : Writer) : List Entry → Prop
  | [] => ∀ p, detachBlock w = .ok p → ∀ b ∈ p.2, b.Compresses codec
  | e::es =>
    (outOfOrder w e.key = false →
      ∀ p, makeRoom w e.key e.val = .ok p → ∀ b ∈ p.2, b.Compresses codec) ∧
    ∀ p, mtblWriterAdd codec w e.key e.val = .ok p → WriterCompresses codec p.1 es

instance (codec : Codec) (b : DataBlock) : Decidable (b.Compresses codec) :=
  inferInstanceAs (Decidable (∃ _ ∈ _, _))

instance decidableWriterCompresses (codec : Codec) : ∀ (es : List Entry) (w : Writer),
    Decidable (WriterCompresses codec w es)
  | [],_ => by
    unfold WriterCompresses
    infer_instance
  | e::es,w =>
    have := decidableWriterCompresses codec es
    by
      unfold WriterCompresses
      infer_instance

/-! ### The invariant -/

def keyBytes (es : List Entry) : ℕ := (es.map (fun e => e.key.length)).sum

def valueBytes (es : List Entry) : ℕ := (es.map (fun e => e.val.length)).sum

/-- The stored bytes are the compressed contents of a block built from these entries. -/
def CompressedFrom (codec : Codec) (opt : WriterOptions) (b : FileBlock) : Prop :=
  ∃ d, Builds d b.entries ∧
    b.raw ∈ compressedData codec opt.compressionType opt.compressionLevel (blockBuilderFinish d).2

/-- The file behind `pre` is `blocks` end to end, the index and the counters are theirs, and the
accepted entries `acc` are those in the blocks and those in the making. -/
structure Laid (codec : Codec) (pre : Bytes) (opt : WriterOptions) (w : Writer)
    (blocks : List FileBlock) (cur acc : List Entry) : Prop where
  opt_eq : w.opt = opt
  file : w.file = pre++framesBytes codec blocks
  pending : w.pendingOffset = w.file.length
  offsets : OffsetsFrom codec pre.length blocks
  contents : ∀ b ∈ blocks, CompressedFrom codec opt b
  data : Builds w.data cur
  index : Builds w.index (indexEntries blocks)
  dataInterval : 0 < w.data.blockRestartInterval
  indexInterval : 0 < w.index.blockRestartInterval
  unclosed : w.closed = false
  version : w.m.fileVersion = .formatV2
  entries : fileEntries blocks++cur = acc
  countDataBlocks : w.m.countDataBlocks = blocks.length
  bytesDataBlocks : w.m.bytesDataBlocks = (framesBytes codec blocks).length
  countEntries : w.m.countEntries = acc.length
  bytesKeys : w.m.bytesKeys = keyBytes acc
  bytesValues : w.m.bytesValues = valueBytes acc

/-- Between two adds the writer remembers the last accepted key. -/
structure RemembersKey (w : Writer) (acc : List Entry) : Prop where
  first : acc = [] → w.lastKey = []
  last : acc ≠ [] → lastAccepted acc = some w.lastKey
  small : w.lastKey.length < 2^32

section
variable {codec : Codec} {pre : Bytes} {opt : WriterOptions} {w : Writer}
  {blocks : List FileBlock} {cur acc : List Entry}

theorem Laid.init (codec : Codec) (pre : Bytes) (opt : WriterOptions)
    (hinterval : 0 < opt.blockRestartInterval) :
    Laid codec pre opt (mtblWriterInitFd pre (some opt)) [] [] [] where
  opt_eq := rfl
  file := (List.append_nil pre).symm
  pending := rfl
  offsets := trivial
  contents := by simp
  data := .init _
  index := .init _
  dataInterval := hinterval
  indexInterval := hinterval
  unclosed := rfl
  version := rfl
  entries := rfl
  countDataBlocks := rfl
  bytesDataBlocks := rfl
  countEntries := rfl
  bytesKeys := rfl
  bytesValues := rfl

theorem RemembersKey.init (pre : Bytes) (opt : WriterOptions) :
    RemembersKey (mtblWriterInitFd pre (some opt)) [] where
  first := fun _ => rfl
  last := fun h => absurd rfl h
  small := Nat.two_pow_pos 32

theorem Laid.setLastKey (h : Laid codec pre opt w blocks cur acc) (lastKey : Bytes) :
    Laid codec pre opt { w with lastKey := lastKey } blocks cur acc := { h with }

/-- The block in the making, if there is one, goes to the end of the file. -/
theorem Laid.flush (h : Laid codec pre opt w blocks cur acc) (hlen : w.lastKey.length < 2^32)
    (hcompress : ∀ p, detachBlock w = .ok p → ∀ b ∈ p.2, b.Compresses codec) :
    ∃ w1 b w' blocks', detachBlock w = .ok (w1,b) ∧ emitBlock codec w1 b = .ok w' ∧
      Laid codec pre opt w' blocks' [] acc := by
  cases hempty : blockBuilderEmpty w.data with
  | true =>
    obtain rfl := h.data.empty_iff.mp hempty
    refine ⟨w,none,w,blocks,?_,rfl,h⟩
    simp [detachBlock,check_of h.unclosed,check_of h.version,hempty]
  | false =>
    have hdetach := detachBlock_block h.unclosed h.version hempty
    obtain ⟨raw,hraw,hpos⟩ := hcompress _ hdetach _ rfl
    obtain ⟨index,hadd,hindex,hinterval⟩ := h.index.add h.indexInterval
      (show Entry.Small ⟨w.lastKey,mtblVarintEncode64 w.pendingOffset⟩ from
        ⟨hlen,(mtblVarintEncode64_length _).2.trans_lt (by omega)⟩)
    refine ⟨_,_,_,blocks++[⟨cur,w.lastKey,w.pendingOffset,raw⟩],hdetach,
      emitBlock_block hraw hpos hadd,?_⟩
    have hframes : framesBytes codec (blocks++[⟨cur,w.lastKey,w.pendingOffset,raw⟩]) =
        framesBytes codec blocks++frame codec raw := by
      simp only [framesBytes,List.flatMap_append,List.flatMap_singleton]
    exact { h with
      file := by simp only [hframes,h.file,List.append_assoc]
      pending := by simp only [h.pending,List.length_append]
      offsets := h.offsets.append (by simp only [h.pending,h.file,List.length_append])
      contents := by
        intro b hb
        rcases List.mem_append.mp hb with hb | hb
        · exact h.contents b hb
        · rw [List.mem_singleton.mp hb,← h.opt_eq]
          exact ⟨w.data,h.data,hraw⟩
      data := .reset _
      index := by
        rw [indexEntries,List.map_append]
        exact hindex
      indexInterval := hinterval ▸ h.indexInterval
      entries := by
        simpa only [fileEntries,List.flatMap_append,List.flatMap_singleton,List.append_nil]
          using h.entries
      countDataBlocks := by
        simp only [h.countDataBlocks,List.length_append,List.length_singleton]
      bytesDataBlocks := by simp only [hframes,h.bytesDataBlocks,List.length_append] }

/-- An entry goes to the block in the making and to the counters. -/
theorem Laid.accept (h : Laid codec pre opt w blocks cur acc) {e : Entry} (hsmall : e.Small) :
    ∃ w', acceptEntry w e.key e.val = .ok w' ∧
      Laid codec pre opt w' blocks (cur++[e]) (acc++[e]) ∧ RemembersKey w' (acc++[e]) := by
  obtain ⟨data,hadd,hdata,hinterval⟩ :=
    h.data.add h.dataInterval (show Entry.Small ⟨e.key,e.val⟩ from hsmall)
  refine ⟨_,by simp only [acceptEntry,hadd,ok_bind,pure_eq_ok]; rfl,?_,?_⟩
  · exact { h with
      data := hdata
      dataInterval := hinterval ▸ h.dataInterval
      entries := by rw [← List.append_assoc,h.entries]
      countEntries := by simp only [h.countEntries,List.length_append,List.length_singleton]
      bytesKeys := by simp [h.bytesKeys,keyBytes]
      bytesValues := by simp [h.bytesValues,valueBytes] }
  · exact ⟨fun hnil => by simp at hnil,fun _ => by simp [lastAccepted],hsmall.1⟩

/-! ### Adding -/

theorem Laid.makeRoom (h : Laid codec pre opt w blocks cur acc) (hkey : RemembersKey w acc)
    {key : Bytes} (val : Bytes) (habove : acc ≠ [] → w.lastKey < key)
    (hcompress : ∀ p, Mtbl.makeRoom w key val = .ok p → ∀ b ∈ p.2, b.Compresses codec) :
    ∃ w1 b w' blocks' cur', Mtbl.makeRoom w key val = .ok (w1,b) ∧
      emitBlock codec w1 b = .ok w' ∧ Laid codec pre opt w' blocks' cur' acc := by
  obtain ⟨s,hsep,hlen⟩ : ∃ s, bytesShortestSeparator w.lastKey key = .ok s ∧
      s.length < 2^32 := by
    by_cases hacc : acc = []
    · rw [hkey.first hacc]
      exact ⟨[],bytesShortestSeparator_nil key,Nat.two_pow_pos 32⟩
    · obtain ⟨s,hsep,-,-,hlen⟩ := bytesShortestSeparator_spec (habove hacc)
      exact ⟨s,hsep,hlen.trans_lt hkey.small⟩
  simp only [Mtbl.makeRoom] at hcompress ⊢
  split_ifs at hcompress ⊢
  · simp only [hsep,ok_bind] at hcompress ⊢
    obtain ⟨w1,b,w',blocks',hdetach,hemit,hw'⟩ := (h.setLastKey s).flush hlen hcompress
    exact ⟨w1,b,w',blocks',[],hdetach,hemit,hw'⟩
  · exact ⟨w,none,w,blocks,cur,rfl,rfl,h⟩

theorem Laid.add (h : Laid codec pre opt w blocks cur acc) (hkey : RemembersKey w acc) {e : Entry}
    (hsmall : e.Small) (hcompress : outOfOrder w e.key = false →
      ∀ p, Mtbl.makeRoom w e.key e.val = .ok p → ∀ b ∈ p.2, b.Compresses codec) :
    (accepts (lastAccepted acc) e.key = false → mtblWriterAdd codec w e.key e.val = .ok (w,false)) ∧
    (accepts (lastAccepted acc) e.key = true → ∃ w' blocks' cur',
      mtblWriterAdd codec w e.key e.val = .ok (w',true) ∧
      Laid codec pre opt w' blocks' cur' (acc++[e]) ∧ RemembersKey w' (acc++[e])) := by
  have horder := outOfOrder_eq h.countEntries hkey.last e.key
  constructor
  · intro hacc
    rw [hacc] at horder
    simp [mtblWriterAdd,check_of h.unclosed,horder]
  · intro hacc
    rw [hacc] at horder
    have habove : acc ≠ [] → w.lastKey < e.key := by
      intro hne
      rw [hkey.last hne] at hacc
      simpa [accepts] using hacc
    obtain ⟨w1,b,w2,blocks',cur',hroom,hemit,hw2⟩ :=
      h.makeRoom hkey e.val habove (hcompress horder)
    obtain ⟨w3,haccept,hw3,hkey3⟩ := hw2.accept hsmall
    refine ⟨w3,blocks',cur'++[e],?_,hw3,hkey3⟩
    simp [mtblWriterAdd,check_of h.unclosed,horder,hroom,hemit,haccept]

/-- The invariant holds behind every sequence of adds. -/
theorem Laid.adds (adds : List Entry) (h : Laid codec pre opt w blocks cur acc)
    (hkey : RemembersKey w acc) (hsmall : ∀ e ∈ adds, e.Small)
    (hcompress : WriterCompresses codec w adds) :
    ∃ w' blocks' cur', writerAdds codec w adds = .ok (w',addResults (lastAccepted acc) adds) ∧
      Laid codec pre opt w' blocks' cur' (acc++acceptedEntries (lastAccepted acc) adds) ∧
      w'.lastKey.length < 2^32 ∧ WriterCompresses codec w' [] := by
  induction adds generalizing w blocks cur acc with
  | nil => exact ⟨w,blocks,cur,rfl,by simpa [acceptedEntries] using h,hkey.small,hcompress⟩
  | cons e adds ih =>
    obtain ⟨hcompress,hrest⟩ := hcompress
    obtain ⟨hreject,haccept⟩ := h.add hkey (hsmall e (List.mem_cons_self ..)) hcompress
    have hsmall' : ∀ a ∈ adds, a.Small := fun a hmem => hsmall a (List.mem_cons_of_mem _ hmem)
    cases hacc : accepts (lastAccepted acc) e.key with
    | false =>
      have hadd := hreject hacc
      obtain ⟨w',blocks',cur',hrun,hw',hend⟩ := ih h hkey hsmall' (hrest _ hadd)
      refine ⟨w',blocks',cur',?_,?_,hend⟩
      · simp [writerAdds,hadd,hrun,addResults,hacc]
      · simpa [acceptedEntries,hacc] using hw'
    | true =>
      obtain ⟨w1,blocks1,cur1,hadd,hw1,hkey1⟩ := haccept hacc
      obtain ⟨w',blocks',cur',hrun,hw',hend⟩ := ih hw1 hkey1 hsmall' (hrest _ hadd)
      have hlast : lastAccepted (acc++[e]) = some e.key := by simp [lastAccepted]
      rw [hlast] at hrun hw'
      refine ⟨w',blocks',cur',?_,?_,hend⟩
      · simp [writerAdds,hadd,hrun,addResults,hacc]
      · simpa [acceptedEntries,hacc] using hw'

end

/-! ### The verifier's walk -/

section
variable {codec : Codec} {data rest raw : Bytes} {offset : ℕ} {blocks : List FileBlock}

theorem frameAt_frame (hdata : data.drop offset = frame codec raw++rest)
    (hraw : raw.length < 2^64) :
    FrameAt codec .formatV2 data offset (mtblVarintEncode64 raw.length).length raw.length where
  length := by rw [hdata,blockLength_frame hraw]
  lenLen_pos := (mtblVarintEncode64_length raw.length).1
  crc := by
    have hcrc : data.drop (offset+(mtblVarintEncode64 raw.length).length) =
        mtblFixedEncode32 (codec.crc32c raw).toNat++(raw++rest) := by
      rw [← List.drop_drop,hdata,frame,List.append_assoc,List.append_assoc,List.drop_left]
    have hmod : (codec.crc32c raw).toNat%2^32 = (codec.crc32c raw).toNat :=
      Nat.mod_eq_of_lt (codec.crc32c raw).toNat_lt
    rw [hcrc,mtblFixedDecode32_encode32,hmod,frame_drop hdata,List.take_left]
  inside := by
    have hlen := congrArg List.length hdata
    have hpos := (mtblVarintEncode64_length raw.length).1
    rw [List.length_append,frame_length,List.length_drop] at hlen
    omega

/-- Where the `i`-th block starts, counted from the first. -/
def blockStart (codec : Codec) (blocks : List FileBlock) (i : ℕ) : ℕ :=
  (framesBytes codec (blocks.take i)).length

theorem framesBytes_split {i : ℕ} {b : FileBlock} (h : blocks[i]? = some b) :
    framesBytes codec blocks = framesBytes codec (blocks.take i)++
      (frame codec b.raw++framesBytes codec (blocks.drop (i+1))) := by
  obtain ⟨hi,rfl⟩ := List.getElem?_eq_some_iff.mp h
  have hsplit : blocks = blocks.take i++blocks[i]::blocks.drop (i+1) := by
    rw [List.getElem_cons_drop,List.take_append_drop]
  conv_lhs => rw [hsplit]
  simp only [framesBytes,List.flatMap_append,List.flatMap_cons]

theorem blockStart_le (i : ℕ) : blockStart codec blocks i ≤ (framesBytes codec blocks).length := by
  have hsplit : framesBytes codec blocks =
      framesBytes codec (blocks.take i)++framesBytes codec (blocks.drop i) := by
    rw [framesBytes,framesBytes,framesBytes,← List.flatMap_append,List.take_append_drop]
  rw [hsplit,List.length_append,blockStart]
  omega

theorem blockStart_succ {i : ℕ} {b : FileBlock} (h : blocks[i]? = some b) :
    blockStart codec blocks (i+1) = blockStart codec blocks i+
      (mtblVarintEncode64 b.raw.length).length+4+b.raw.length := by
  simp only [blockStart,List.take_add_one,h,Option.toList_some,framesBytes,List.flatMap_append,
    List.flatMap_singleton,List.length_append,frame_length]
  omega

theorem frameAt_block (hsize : (framesBytes codec blocks).length < 2^63) (rest : Bytes) {i : ℕ}
    {b : FileBlock} (hb : blocks[i]? = some b) :
    FrameAt codec .formatV2 (framesBytes codec blocks++rest) (blockStart codec blocks i)
      (mtblVarintEncode64 b.raw.length).length b.raw.length := by
  have hraw := framesBytes_raw_le codec (List.mem_of_getElem? hb)
  have hdrop : (framesBytes codec blocks++rest).drop (blockStart codec blocks i) =
      frame codec b.raw++(framesBytes codec (blocks.drop (i+1))++rest) := by
    rw [framesBytes_split hb,List.append_assoc,blockStart,List.drop_left,List.append_assoc]
  exact frameAt_frame hdrop (by omega)

/-- The written blocks are framed blocks. -/
theorem framedBlocks_frames (hsize : (framesBytes codec blocks).length < 2^63) (rest : Bytes)
    {i : ℕ} (hi : i ≤ blocks.length) :
    FramedBlocks codec .formatV2 (framesBytes codec blocks++rest) i
      (blockStart codec blocks i) := by
  induction i with
  | zero => exact .nil
  | succ i ih =>
    have hb : blocks[i]? = some blocks[i] := List.getElem?_eq_getElem (by omega)
    rw [blockStart_succ hb]
    exact (ih (by omega)).snoc (frameAt_block hsize rest hb)

/-- The loop of the verifier over the written blocks, with more bytes behind them. -/
abbrev verifyWritten (codec : Codec) (blocks : List FileBlock) (rest : Bytes) :
    VerifyState → Run (VerifyState ⊕ Bool) :=
  verifyRound codec .formatV2 (framesBytes codec blocks++rest) (framesBytes codec blocks).length
    blocks.length

theorem verifyWritten_step (hsize : (framesBytes codec blocks++rest).length < 2^63) {i : ℕ}
    (hi : i < blocks.length) :
    Continues (verifyWritten codec blocks rest) (.at i (blockStart codec blocks i))
      (.at (i+1) (blockStart codec blocks (i+1))) := by
  have hframes : (framesBytes codec blocks).length < 2^63 := by
    rw [List.length_append] at hsize
    omega
  have hb : blocks[i]? = some blocks[i] := List.getElem?_eq_getElem hi
  have hend := @blockStart_le codec blocks (i+1)
  rw [blockStart_succ hb] at hend ⊢
  exact verifyRound_frame hsize hi (framedBlocks_frames hframes rest hi.le)
    (frameAt_block hframes rest hb) hend

theorem verifyWritten_end : verifyWritten codec blocks rest
    (.at blocks.length (blockStart codec blocks blocks.length)) = .ok (.inr true) :=
  verifyRound_true.mpr (Nat.lt_succ_self _)

/-- The walk comes to the start of every written block, then to the end of the last, and to nothing
else. -/
theorem verifyWritten_visits (hsize : (framesBytes codec blocks++rest).length < 2^63)
    {s : VerifyState} :
    Rounds (verifyWritten codec blocks rest) .start s ↔
      ∃ i ≤ blocks.length, s = .at i (blockStart codec blocks i) := by
  constructor
  · intro h
    refine h.invariant (P := fun s => ∃ i ≤ blocks.length, s = .at i (blockStart codec blocks i))
      ⟨0,Nat.zero_le _,rfl⟩ ?_
    rintro t t' ⟨i,hi,rfl⟩ hcont
    rcases hi.lt_or_eq with hlt | rfl
    · exact ⟨i+1,hlt,hcont.unique (verifyWritten_step hsize hlt)⟩
    · rw [Continues,verifyWritten_end] at hcont
      cases hcont
  · rintro ⟨i,hi,rfl⟩
    induction i with
    | zero => exact .refl
    | succ i ih => exact (ih (by omega)).tail (verifyWritten_step hsize hi)

/-- The walk accepts after one round for each block. -/
theorem verifyWritten_accepts (hsize : (framesBytes codec blocks++rest).length < 2^63) (fuel : ℕ)
    {i : ℕ} (hi : i ≤ blocks.length) (hfuel : blocks.length < i+fuel) :
    loop (verifyWritten codec blocks rest) fuel (.at i (blockStart codec blocks i)) =
      .ok true := by
  induction fuel generalizing i with
  | zero => omega
  | succ fuel ih =>
    rcases hi.lt_or_eq with hlt | rfl
    · rw [loop_continues (verifyWritten_step hsize hlt)]
      exact ih hlt (by omega)
    · rw [loop,verifyWritten_end]
      rfl

end

/-! ### The finished file -/

/-- The file is `pre`, the data blocks end to end, the index block and a trailer; the blocks hold
the accepted entries. The index entries, the trailer's counters and the verifier's walk agree with
them. The counters are 64-bit numbers. -/
structure LaidOut (codec : Codec) (pre : Bytes) (opt : WriterOptions) (acc : List Entry)
    (file : Bytes) (blocks : List FileBlock) (index trailer : Bytes) (m : Metadata) : Prop where
  layout : file = pre++(framesBytes codec blocks++(frame codec index++trailer))
  trailer_size : trailer.length = mtblMetadataSize
  entries : fileEntries blocks = acc
  contents : ∀ b ∈ blocks, CompressedFrom codec opt b
  offsets : ∀ (i : ℕ) (b : FileBlock), blocks[i]? = some b → b.offset = pre.length+blockStart codec blocks i
  indexed : ∃ (limit : ℕ) (es : List Entry), DecodesTo index limit 0 [] es ∧ es.length = blocks.length ∧
    ∀ (i : ℕ) (e : Entry) (b : FileBlock), es[i]? = some e → blocks[i]? = some b →
      ∃ n, mtblVarintDecode64 e.val = .ok (n,b.offset)
  read : metadataRead trailer = .ok (some m)
  indexBlockOffset : m.indexBlockOffset = pre.length+(framesBytes codec blocks).length
  countEntries : m.countEntries = acc.length%2^64
  bytesKeys : m.bytesKeys = keyBytes acc%2^64
  bytesValues : m.bytesValues = valueBytes acc%2^64
  countDataBlocks : m.countDataBlocks = blocks.length
  bytesDataBlocks : m.bytesDataBlocks = m.indexBlockOffset-pre.length
  bytesIndexBlock : m.bytesIndexBlock = (frame codec index).length
  visits : ∀ s, Rounds (verifyRound codec m.fileVersion
      (file.drop (m.indexBlockOffset-m.bytesDataBlocks)) m.bytesDataBlocks m.countDataBlocks)
      .start s ↔ ∃ i ≤ blocks.length, s = .at i (blockStart codec blocks i)
  accepts : ∀ fuel > blocks.length, verifyFile codec file fuel = .ok true

section
variable {codec : Codec} {pre : Bytes} {opt : WriterOptions} {w : Writer}
  {blocks : List FileBlock} {acc : List Entry}

theorem OffsetsFrom.start {p i : ℕ} {b : FileBlock} (h : OffsetsFrom codec p blocks)
    (hb : blocks[i]? = some b) : b.offset = p+blockStart codec blocks i := by
  induction blocks generalizing p i with
  | nil => simp at hb
  | cons c blocks ih =>
    obtain ⟨hc,hrest⟩ := h
    cases i with
    | zero =>
      obtain rfl : c = b := by simpa using hb
      exact hc
    | succ i =>
      rw [ih hrest (by simpa using hb),blockStart,blockStart,List.take_succ_cons,framesBytes,
        framesBytes,List.flatMap_cons,List.length_append,Nat.add_assoc]

/-- Every frame takes five bytes at least. -/
theorem blocks_length_le : 5*blocks.length ≤ (framesBytes codec blocks).length := by
  induction blocks with
  | nil => exact Nat.zero_le _
  | cons b blocks ih =>
    have hpos := (mtblVarintEncode64_length b.raw.length).1
    rw [framesBytes,List.flatMap_cons,List.length_append,frame_length,List.length_cons]
    rw [framesBytes] at ih
    omega

/-- What a flushed writer leaves behind the index and the trailer. -/
theorem Laid.laidOut (h : Laid codec pre opt w blocks [] acc) {file : Bytes}
    (hfile : file = w.file++(frame codec (blockBuilderFinish w.index).2++
      metadataWrite (finalMetadata codec w))) (hsize : file.length < 2^63) :
    LaidOut codec pre opt acc file blocks (blockBuilderFinish w.index).2
      (metadataWrite (finalMetadata codec w)) (finalMetadata codec w).stored := by
  have hlayout : file = pre++(framesBytes codec blocks++
      (frame codec (blockBuilderFinish w.index).2++metadataWrite (finalMetadata codec w))) := by
    rw [hfile,h.file,List.append_assoc]
  have hlen := congrArg List.length hlayout
  simp only [List.length_append] at hlen
  have hblocks := @blocks_length_le codec blocks
  have hoffset : (finalMetadata codec w).indexBlockOffset =
      pre.length+(framesBytes codec blocks).length := by
    rw [← List.length_append,← h.file,← h.pending]
    rfl
  have hread : (finalMetadata codec w).stored.indexBlockOffset =
      pre.length+(framesBytes codec blocks).length := by
    rw [Metadata.stored,hoffset]
    exact Nat.mod_eq_of_lt (by omega)
  have hbytes : (finalMetadata codec w).stored.bytesDataBlocks =
      (framesBytes codec blocks).length := by
    rw [← h.bytesDataBlocks]
    exact Nat.mod_eq_of_lt (h.bytesDataBlocks.trans_lt (by omega))
  have hcount : (finalMetadata codec w).stored.countDataBlocks = blocks.length := by
    rw [← h.countDataBlocks]
    exact Nat.mod_eq_of_lt (h.countDataBlocks.trans_lt (by omega))
  have hdrop : file.drop pre.length = framesBytes codec blocks++
      (frame codec (blockBuilderFinish w.index).2++metadataWrite (finalMetadata codec w)) := by
    rw [hlayout,List.drop_left]
  have hdata : (framesBytes codec blocks++(frame codec (blockBuilderFinish w.index).2++
      metadataWrite (finalMetadata codec w))).length < 2^63 := by
    simp only [List.length_append]
    omega
  exact {
    layout := hlayout
    trailer_size := metadataWrite_length _
    entries := by rw [← h.entries,List.append_nil]
    contents := h.contents
    offsets := fun i b hb => h.offsets.start hb
    indexed := by
      refine ⟨_,_,h.index.decodesTo,by rw [indexEntries,List.length_map],?_⟩
      intro i e b he hb
      rw [indexEntries_getElem?,hb] at he
      obtain rfl := Option.some.inj he
      have hlt := h.offsets.lt (List.mem_of_getElem? hb)
      have hdecode := mtblVarintDecode64_encode64 (show b.offset < 2^64 by omega) []
      rw [List.append_nil] at hdecode
      exact ⟨_,hdecode⟩
    read := by
      have hmeta := metadataRead_write (finalMetadata codec w) []
      rwa [List.append_nil] at hmeta
    indexBlockOffset := hread
    countEntries := by rw [← h.countEntries]; rfl
    bytesKeys := by rw [← h.bytesKeys]; rfl
    bytesValues := by rw [← h.bytesValues]; rfl
    countDataBlocks := hcount
    bytesDataBlocks := by rw [hread,hbytes,Nat.add_sub_cancel_left]
    bytesIndexBlock := Nat.mod_eq_of_lt (show (frame codec _).length < 2^64 by omega)
    visits := by
      intro s
      rw [hread,hbytes,hcount,Nat.add_sub_cancel,hdrop]
      exact verifyWritten_visits hdata
    accepts := by
      intro fuel hfuel
      obtain ⟨B,hinit⟩ := (@blockInit_ok_iff (codec.front _) ((blockBuilderFinish w.index).2++
        metadataWrite (finalMetadata codec w)) (blockBuilderFinish w.index).2.length
        (by rw [List.length_append]; omega)).mpr (.inr h.index.finish_length)
      have hopen := @mtblReaderInitFd_frame codec _ _ _ _ _ ⟨true⟩ hfile
        (by rw [hoffset,h.file,List.length_append]) h.index.finish_length hsize hinit
      have hstart : (pre.length+(framesBytes codec blocks).length+2^64-
          (framesBytes codec blocks).length)%2^64 = pre.length := by omega
      have hmap : (pre.length+(framesBytes codec blocks).length)%2^64 =
          pre.length+(framesBytes codec blocks).length := Nat.mod_eq_of_lt (by omega)
      rw [verifyFile,hopen,ok_bind]
      simp only [hread,hbytes,hcount,hstart,hmap,hdrop]
      by_cases hzero : (framesBytes codec blocks).length = 0 ∧ blocks.length = 0
      · rw [verifyDataBlocks.eq_def,if_pos hzero]
      · rw [verifyDataBlocks.eq_def,if_neg hzero,if_neg (by omega)]
        exact verifyWritten_accepts hdata fuel (Nat.zero_le _) (by omega) }

end

end Mtbl
