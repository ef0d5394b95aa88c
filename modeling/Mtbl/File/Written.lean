import Mtbl.File.Frame

/-! The writer's invariant: the file holds the finished data blocks end to end, the index builder
their separators and offsets, and the data builder the entries added since. It holds through every
sequence of adds as long as sizes stay representable and the codec takes back what it packs. -/
namespace Mtbl
open CRun Cursor

/-! ### Which entries are accepted -/

/-- A key is accepted first, or above the last accepted one. -/
def accepts (last : Option Bytes) (key : Bytes) : Bool :=
  match last with
  | none => true
  | some l => decide (l < key)

def acceptedEntries (last : Option Bytes) : List Entry → List Entry
  | [] => []
  | e::es =>
    if accepts last e.key then e::acceptedEntries (some e.key) es else acceptedEntries last es

def addResults (last : Option Bytes) : List Entry → List Bool
  | [] => []
  | e::es =>
    if accepts last e.key then true::addResults (some e.key) es else false::addResults last es

/-! ### What has to be representable -/

/-- Compression succeeds on the contents with a non-empty result, and decompression inverts it. -/
def Packs (codec : Codec) (opt : WriterOptions) (contents : Bytes) : Prop :=
  ∃ raw ∈ compressedData codec opt.compressionType opt.compressionLevel contents,
    0 < raw.length ∧ Unpacks codec opt.compressionType raw contents

/-- The data block in the making can be finished: fewer than `2^31` restart points, a size that
fits the address space, contents that the codec takes back. -/
structure Writer.Fits (codec : Codec) (w : Writer) : Prop where
  restarts : w.data.restarts.length < 2^31
  size : w.data.buf.length < 2^63
  packs : blockBuilderEmpty w.data = false → Packs codec w.opt (blockBuilderFinish w.data).2

/-- The same for every state that the adds pass through, and for the index and the file at the
end. -/
def WriterFits (codec : Codec) (w : Writer) : List Entry → Prop
  | [] => w.Fits codec ∧
      (∀ w', mtblWriterFlush codec w = .ok w' → w'.index.restarts.length < 2^31) ∧
      ∀ file, mtblWriterDestroy codec w = .ok file → file.length < 2^63
  | e::es => w.Fits codec ∧
      ∀ p, mtblWriterAdd codec w e.key e.val = .ok p → WriterFits codec p.1 es

instance (codec : Codec) (t : CompressionType) (raw contents : Bytes) :
    Decidable (Unpacks codec t raw contents) := by
  unfold Unpacks
  infer_instance

instance (codec : Codec) (opt : WriterOptions) (contents : Bytes) :
    Decidable (Packs codec opt contents) := by
  unfold Packs
  infer_instance

instance (codec : Codec) (w : Writer) : Decidable (w.Fits codec) :=
  decidable_of_iff (w.data.restarts.length < 2^31 ∧ w.data.buf.length < 2^63 ∧
    (blockBuilderEmpty w.data = false → Packs codec w.opt (blockBuilderFinish w.data).2))
    ⟨fun ⟨h1,h2,h3⟩ => ⟨h1,h2,h3⟩,fun ⟨h1,h2,h3⟩ => ⟨h1,h2,h3⟩⟩

instance decidableWriterFits (codec : Codec) : ∀ (es : List Entry) (w : Writer),
    Decidable (WriterFits codec w es)
  | [],_ => by
    unfold WriterFits
    infer_instance
  | e::es,w =>
    have := decidableWriterFits codec es
    by
      unfold WriterFits
      infer_instance

/-- The lengths of the index entry of the block in the making fit. -/
def Writer.TakesIndex (w : Writer) : Prop :=
  blockBuilderEmpty w.data = false → w.index.Takes ⟨w.lastKey,mtblVarintEncode64 w.pendingOffset⟩

/-- The lengths of every entry that the adds and the last flush give to a block builder fit. -/
def WriterTakes (codec : Codec) (w : Writer) : List Entry → Prop
  | [] => w.TakesIndex
  | e::es => (outOfOrder w e.key = false → ∀ w1 b, makeRoom w e.key e.val = .ok (w1,b) →
        (b.isSome → ∀ sep, bytesShortestSeparator w.lastKey e.key = .ok sep →
          w.index.Takes ⟨sep,mtblVarintEncode64 w.pendingOffset⟩) ∧ w1.data.Takes e) ∧
      ∀ p, mtblWriterAdd codec w e.key e.val = .ok p → WriterTakes codec p.1 es

theorem WriterFits.fits {codec : Codec} {w : Writer} {es : List Entry}
    (h : WriterFits codec w es) : w.Fits codec := by cases es <;> exact h.1

/-! ### The invariant -/

structure Written (codec : Codec) (pre : Bytes) (w : Writer) (blocks : List FileBlock)
    (cur : List Entry) : Prop where
  file : w.file = pre++framesBytes codec blocks
  pending : w.pendingOffset = w.file.length
  offsets : OffsetsFrom codec pre.length blocks
  decodes : ∀ b ∈ blocks, Decodes codec w.opt.compressionType b.raw b.entries
  data : Builds w.data cur
  index : Builds w.index (indexEntries blocks)
  dataInterval : 0 < w.data.blockRestartInterval
  indexInterval : 0 < w.index.blockRestartInterval
  ordered : Ordered blocks
  below : ∀ b ∈ blocks, ∀ e ∈ cur, b.sep < e.key
  ascending : Ascending (fileEntries blocks++cur)
  unclosed : w.closed = false
  version : w.m.fileVersion = .formatV2
  algorithm : w.m.compressionAlgorithm = w.opt.compressionType.code

theorem Written.init (codec : Codec) (pre : Bytes) (opt : WriterOptions)
    (hinterval : 0 < opt.blockRestartInterval) :
    Written codec pre (mtblWriterInitFd pre (some opt)) [] [] where
  file := (List.append_nil pre).symm
  pending := rfl
  offsets := trivial
  decodes := by simp
  data := .init _
  index := .init _
  dataInterval := hinterval
  indexInterval := hinterval
  ordered := ⟨by simp,List.Pairwise.nil,by simp,List.Pairwise.nil⟩
  below := by simp
  ascending := List.Pairwise.nil
  unclosed := rfl
  version := rfl
  algorithm := rfl

section
variable {codec : Codec} {pre : Bytes} {w : Writer} {blocks : List FileBlock} {cur : List Entry}

/-- The separator in the writer does not take part in the invariant. -/
theorem Written.setLastKey (h : Written codec pre w blocks cur) (lastKey : Bytes) :
    Written codec pre { w with lastKey := lastKey } blocks cur := { h with }

theorem Ordered.append (h : Ordered blocks) {b : FileBlock} (hne : b.entries ≠ [])
    (hasc : Ascending (fileEntries blocks++b.entries)) (hsep : ∀ e ∈ b.entries, e.key ≤ b.sep)
    (hbelow : ∀ a ∈ blocks, ∀ e ∈ b.entries, a.sep < e.key) : Ordered (blocks++[b]) where
  nonempty c hc := by
    rcases List.mem_append.mp hc with hc | hc
    · exact h.nonempty c hc
    · rw [List.mem_singleton.mp hc]
      exact hne
  ascending := by
    simpa only [fileEntries,List.flatMap_append,List.flatMap_singleton] using hasc
  le_sep c hc := by
    rcases List.mem_append.mp hc with hc | hc
    · exact h.le_sep c hc
    · rw [List.mem_singleton.mp hc]
      exact hsep
  sep_lt := by
    refine List.pairwise_append.mpr ⟨h.sep_lt,List.pairwise_singleton _ _,?_⟩
    intro a ha c hc
    rw [List.mem_singleton.mp hc]
    exact hbelow a ha

theorem detachBlock_block (hunclosed : w.closed = false) (hversion : w.m.fileVersion = .formatV2)
    (hempty : blockBuilderEmpty w.data = false) :
    detachBlock w = .ok ({ w with data := blockBuilderReset (blockBuilderFinish w.data).1 },
      some ⟨w.opt.compressionType,w.opt.compressionLevel,(blockBuilderFinish w.data).2,
        w.lastKey,0⟩) := by
  simp only [detachBlock,check_of hunclosed,check_of hversion,ok_bind,hempty,Bool.false_eq_true,
    if_false,pure_eq_ok]

/-- A block that compresses goes to the end of the file, its separator and offset to the index. -/
theorem emitBlock_block {contents raw lastKey : Bytes} {index : BlockBuilder} {crc : UInt32}
    (hcomp : compressedData codec w.opt.compressionType w.opt.compressionLevel contents = some raw)
    (hpos : 0 < raw.length)
    (hadd : blockBuilderAdd w.index lastKey (mtblVarintEncode64 w.pendingOffset) = .ok index) :
    emitBlock codec w
        (some ⟨w.opt.compressionType,w.opt.compressionLevel,contents,lastKey,crc⟩) =
      .ok { w with
        file := w.file++frame codec raw
        lastOffset := w.pendingOffset
        pendingOffset := w.pendingOffset+(frame codec raw).length
        m := { w.m with bytesDataBlocks := w.m.bytesDataBlocks+(frame codec raw).length
                        countDataBlocks := w.m.countDataBlocks+1 }
        index := index } := by
  have hwrite := mtblWriterWriteBlock_spec codec w.file
    ⟨w.opt.compressionType,w.opt.compressionLevel,raw,lastKey,codec.crc32c raw⟩ hpos rfl
  simp only [emitBlock,mtblWriterCompressBlock,hcomp,ok_bind,mtblWriterWriteDataBlock,hwrite,hadd,
    pure_eq_ok]

/-- Flushing turns the entries in the making into a block of the file. -/
theorem flush_spec (h : Written codec pre w blocks cur) (hne : cur ≠ []) (hfit : w.Fits codec)
    (hkey : ∀ e ∈ cur, e.key ≤ w.lastKey)
    (htakes : w.index.Takes ⟨w.lastKey,mtblVarintEncode64 w.pendingOffset⟩) :
    ∃ w' raw, mtblWriterFlush codec w = .ok w' ∧
      Written codec pre w' (blocks++[⟨cur,w.lastKey,w.pendingOffset,raw⟩]) [] ∧
      w'.lastKey = w.lastKey ∧ w'.m.countEntries = w.m.countEntries ∧
      w'.data = blockBuilderReset (blockBuilderFinish w.data).1 := by
  have hempty : blockBuilderEmpty w.data = false := by
    rw [Bool.eq_false_iff]
    exact fun he => hne (h.data.empty_iff.mp he)
  obtain ⟨raw,hmem,hpos,hunpack⟩ := hfit.packs hempty
  have hcomp := Option.mem_def.mp hmem
  obtain ⟨index,hadd,hindex,hinterval⟩ := h.index.takes h.indexInterval htakes
  refine ⟨{ w with
    data := blockBuilderReset (blockBuilderFinish w.data).1
    file := w.file++frame codec raw
    lastOffset := w.pendingOffset
    pendingOffset := w.pendingOffset+(frame codec raw).length
    m := { w.m with bytesDataBlocks := w.m.bytesDataBlocks+(frame codec raw).length
                    countDataBlocks := w.m.countDataBlocks+1 }
    index := index },raw,?_,?_,rfl,rfl,rfl⟩
  · rw [mtblWriterFlush,detachBlock_block h.unclosed h.version hempty,ok_bind]
    exact emitBlock_block hcomp hpos hadd
  · exact {
      file := by
        simp only [h.file,framesBytes,List.flatMap_append,List.flatMap_singleton,
          List.append_assoc]
      pending := by simp only [h.pending,List.length_append]
      offsets := h.offsets.append (by simp only [h.pending,h.file,List.length_append])
      decodes := by
        intro b hb
        rcases List.mem_append.mp hb with hb | hb
        · exact h.decodes b hb
        · rw [List.mem_singleton.mp hb]
          refine ⟨_,hunpack,fun front tail => ?_⟩
          obtain ⟨B,bi,hinit,hiter,hshow⟩ := h.data.finish front tail hfit.restarts hfit.size
          exact ⟨B,bi,_,hinit,hiter,hshow⟩
      data := .reset _
      index := by
        rw [indexEntries,List.map_append]
        exact hindex
      dataInterval := h.dataInterval
      indexInterval := hinterval ▸ h.indexInterval
      ordered := h.ordered.append hne h.ascending hkey h.below
      below := by simp
      ascending := by
        simpa only [fileEntries,List.flatMap_append,List.flatMap_singleton,List.append_nil]
          using h.ascending
      unclosed := h.unclosed
      version := h.version
      algorithm := h.algorithm }

theorem flush_empty (h : Written codec pre w blocks []) : mtblWriterFlush codec w = .ok w := by
  have hempty : blockBuilderEmpty w.data = true := h.data.empty_iff.mpr rfl
  simp [mtblWriterFlush,detachBlock,check_of h.unclosed,check_of h.version,hempty,emitBlock]

/-- Adding an entry above everything so far. -/
theorem acceptEntry_spec (h : Written codec pre w blocks cur) {key val : Bytes}
    (htakes : w.data.Takes ⟨key,val⟩) (habove : ∀ e ∈ fileEntries blocks++cur, e.key < key)
    (hsep : ∀ b ∈ blocks, b.sep < key) :
    ∃ w', acceptEntry w key val = .ok w' ∧ Written codec pre w' blocks (cur++[⟨key,val⟩]) ∧
      w'.lastKey = key ∧ w'.m.countEntries = w.m.countEntries+1 := by
  obtain ⟨data,hadd,hdata,hinterval⟩ := h.data.takes h.dataInterval htakes
  refine ⟨_,by simp only [acceptEntry,hadd,ok_bind,pure_eq_ok]; rfl,?_,rfl,rfl⟩
  exact { h with
    data := hdata
    dataInterval := hinterval ▸ h.dataInterval
    below := by
      intro b hb e he
      rcases List.mem_append.mp he with he | he
      · exact h.below b hb e he
      · rw [List.mem_singleton.mp he]
        exact hsep b hb
    ascending := by
      rw [← List.append_assoc]
      refine List.pairwise_append.mpr ⟨h.ascending,List.pairwise_singleton _ _,?_⟩
      intro a ha b hb
      rw [List.mem_singleton.mp hb]
      exact habove a ha }

/-! ### Adding -/

/-- What the adds so far have left: the accepted entries, in the file or in the making. -/
structure Accepted (w : Writer) (blocks : List FileBlock) (cur acc : List Entry) : Prop where
  entries : fileEntries blocks++cur = acc
  count : w.m.countEntries = acc.length
  first : acc = [] → w.lastKey = []
  last : acc ≠ [] → acc.getLast?.map Entry.key = some w.lastKey
  le_last : ∀ e ∈ acc, e.key ≤ w.lastKey
  sep_lt : ∀ b ∈ blocks, b.sep < w.lastKey
  cur_empty : cur = [] → blocks = []

theorem Accepted.init {pre : Bytes} {opt : WriterOptions} :
    Accepted (mtblWriterInitFd pre (some opt)) [] [] [] where
  entries := rfl
  count := rfl
  first := fun _ => rfl
  last := fun h => absurd rfl h
  le_last := by simp
  sep_lt := by simp
  cur_empty := fun _ => rfl

/-- The key of the last accepted entry. -/
def lastAccepted (acc : List Entry) : Option Bytes := acc.getLast?.map Entry.key

/-- Keys are compared with the last accepted one, except before the first. -/
theorem outOfOrder_eq {acc : List Entry} (hcount : w.m.countEntries = acc.length)
    (hlast : acc ≠ [] → lastAccepted acc = some w.lastKey) (key : Bytes) :
    outOfOrder w key = !accepts (lastAccepted acc) key := by
  unfold outOfOrder
  rw [hcount]
  rcases List.eq_nil_or_concat acc with rfl | ⟨es,e,rfl⟩
  · rfl
  · rw [hlast (by simp)]
    simp [accepts]

theorem Accepted.outOfOrder {acc : List Entry} (h : Accepted w blocks cur acc) (key : Bytes) :
    outOfOrder w key = !accepts (lastAccepted acc) key := outOfOrder_eq h.count h.last key

/-- Room is made, if at all, by flushing with the last key shortened to a separator. -/
theorem makeRoom_spec (h : Written codec pre w blocks cur) {acc : List Entry}
    (ha : Accepted w blocks cur acc) (hfit : w.Fits codec) {key : Bytes} (val : Bytes)
    (hkey : acc ≠ [] → w.lastKey < key)
    (hindex : ∀ w1 b, makeRoom w key val = .ok (w1,b) → b.isSome →
      ∀ sep, bytesShortestSeparator w.lastKey key = .ok sep →
        w.index.Takes ⟨sep,mtblVarintEncode64 w.pendingOffset⟩) :
    ∃ w1 b w' blocks' cur', makeRoom w key val = .ok (w1,b) ∧ emitBlock codec w1 b = .ok w' ∧
      w'.data = w1.data ∧ Written codec pre w' blocks' cur' ∧ fileEntries blocks'++cur' = acc ∧
      w'.m.countEntries = w.m.countEntries ∧ (∀ b ∈ blocks', b.sep < key) := by
  have hacc_of_cur : cur ≠ [] → acc ≠ [] := by
    intro hcur hacc
    exact hcur (List.append_eq_nil_iff.mp (ha.entries.trans hacc)).2
  simp only [makeRoom] at hindex ⊢
  split_ifs at hindex ⊢ with hroom
  · by_cases hcur : cur = []
    · -- nothing to flush: this is the first add
      have hblocks := ha.cur_empty hcur
      subst hcur hblocks
      have hnil := ha.first ha.entries.symm
      have hempty : blockBuilderEmpty w.data = true := h.data.empty_iff.mpr rfl
      have hsep : bytesShortestSeparator w.lastKey key = .ok [] := by
        rw [hnil]
        exact bytesShortestSeparator_nil key
      refine ⟨{ w with lastKey := [] },none,{ w with lastKey := [] },[],[],?_,rfl,rfl,
        h.setLastKey [],ha.entries,rfl,by simp⟩
      simp [hsep,detachBlock,check_of h.unclosed,check_of h.version,hempty]
    · have hacc := hacc_of_cur hcur
      obtain ⟨s,hsep,hle,hlt,hlen⟩ := bytesShortestSeparator_spec (hkey hacc)
      have hempty : blockBuilderEmpty w.data = false := by
        rw [Bool.eq_false_iff]
        exact fun he => hcur (h.data.empty_iff.mp he)
      have hdetach : detachBlock { w with lastKey := s } = .ok _ :=
        detachBlock_block (h.setLastKey s).unclosed (h.setLastKey s).version hempty
      have htakes := hindex _ _ (by rw [hsep,ok_bind,hdetach]) rfl s hsep
      obtain ⟨w',raw,hflush,hw',hlast,hcount,hdata⟩ := flush_spec (h.setLastKey s) hcur
        ⟨hfit.restarts,hfit.size,hfit.packs⟩
        (fun e he => (ha.le_last e (by rw [← ha.entries]; simp [he])).trans hle) htakes
      rw [mtblWriterFlush,hdetach,ok_bind] at hflush
      refine ⟨_,_,w',_,[],by simp only [hsep,ok_bind,hdetach],hflush,hdata,hw',?_,hcount,?_⟩
      · simpa only [fileEntries,List.flatMap_append,List.flatMap_singleton,List.append_nil]
          using ha.entries
      · intro b hb
        rcases List.mem_append.mp hb with hb | hb
        · exact (ha.sep_lt b hb).trans (hkey hacc)
        · rw [List.mem_singleton.mp hb]
          exact hlt
  · refine ⟨w,none,w,blocks,cur,rfl,rfl,rfl,h,ha.entries,rfl,fun b hb => ?_⟩
    have hcur : cur ≠ [] := fun hcur => by simp [ha.cur_empty hcur] at hb
    exact (ha.sep_lt b hb).trans (hkey (hacc_of_cur hcur))

/-- An add is accepted exactly if its key is first or above the last accepted one. -/
theorem mtblWriterAdd_spec (h : Written codec pre w blocks cur) {acc : List Entry}
    (ha : Accepted w blocks cur acc) (hfit : w.Fits codec) {e : Entry}
    (htakes : outOfOrder w e.key = false → ∀ w1 b, makeRoom w e.key e.val = .ok (w1,b) →
      (b.isSome → ∀ sep, bytesShortestSeparator w.lastKey e.key = .ok sep →
        w.index.Takes ⟨sep,mtblVarintEncode64 w.pendingOffset⟩) ∧ w1.data.Takes e) :
    (accepts (lastAccepted acc) e.key = false → mtblWriterAdd codec w e.key e.val = .ok (w,false)) ∧
    (accepts (lastAccepted acc) e.key = true → ∃ w' blocks' cur',
      mtblWriterAdd codec w e.key e.val = .ok (w',true) ∧ Written codec pre w' blocks' cur' ∧
      Accepted w' blocks' cur' (acc++[e])) := by
  have horder := ha.outOfOrder e.key
  constructor
  · intro hacc
    rw [hacc] at horder
    simp [mtblWriterAdd,check_of h.unclosed,horder]
  · intro hacc
    rw [hacc] at horder
    have hkey : acc ≠ [] → w.lastKey < e.key := by
      intro hne
      rw [lastAccepted,ha.last hne] at hacc
      simpa [accepts] using hacc
    obtain ⟨w1,b,w2,blocks',cur',hroom,hemit,hdata,hw2,hentries,hcount,hsep⟩ :=
      makeRoom_spec h ha hfit e.val hkey (fun w1 b hroom => (htakes horder w1 b hroom).1)
    have habove : ∀ a ∈ acc, a.key < e.key := fun a hmem =>
      (ha.le_last a hmem).trans_lt (hkey (List.ne_nil_of_mem hmem))
    obtain ⟨w3,haccept,hw3,hlast,hcount'⟩ :=
      acceptEntry_spec hw2 (hdata ▸ (htakes horder w1 b hroom).2) (by rwa [hentries]) hsep
    refine ⟨w3,blocks',cur'++[e],?_,hw3,?_⟩
    · simp [mtblWriterAdd,check_of h.unclosed,horder,hroom,hemit,haccept]
    · exact {
        entries := by rw [← List.append_assoc,hentries]
        count := by rw [hcount',hcount,ha.count,List.length_append,List.length_singleton]
        first := fun hnil => by simp at hnil
        last := fun _ => by simp [hlast]
        le_last := by
          intro a hmem
          rw [hlast]
          rcases List.mem_append.mp hmem with hmem | hmem
          · exact (habove a hmem).le
          · rw [List.mem_singleton.mp hmem]
        sep_lt := by rwa [hlast]
        cur_empty := fun hnil => by simp at hnil }

/-- Every sequence of adds runs through, answers as specified and keeps the invariant. -/
theorem writerAdds_spec (adds : List Entry) (h : Written codec pre w blocks cur) {acc : List Entry}
    (ha : Accepted w blocks cur acc) (htakes : WriterTakes codec w adds)
    (hfits : WriterFits codec w adds) :
    ∃ w' blocks' cur',
      writerAdds codec w adds = .ok (w',addResults (lastAccepted acc) adds) ∧
      Written codec pre w' blocks' cur' ∧
      Accepted w' blocks' cur' (acc++acceptedEntries (lastAccepted acc) adds) ∧
      WriterFits codec w' [] ∧ WriterTakes codec w' [] := by
  induction adds generalizing w blocks cur acc with
  | nil => exact ⟨w,blocks,cur,rfl,h,by simpa [acceptedEntries] using ha,hfits,htakes⟩
  | cons e adds ih =>
    obtain ⟨hreject,haccept⟩ :=
      mtblWriterAdd_spec h ha hfits.fits htakes.1
    cases hacc : accepts (lastAccepted acc) e.key with
    | false =>
      have hadd := hreject hacc
      obtain ⟨w',blocks',cur',hrun,hw',ha',hend⟩ := ih h ha (htakes.2 _ hadd) (hfits.2 _ hadd)
      refine ⟨w',blocks',cur',?_,hw',?_,hend⟩
      · simp [writerAdds,hadd,hrun,addResults,hacc]
      · simpa [acceptedEntries,hacc] using ha'
    | true =>
      obtain ⟨w1,blocks1,cur1,hadd,hw1,ha1⟩ := haccept hacc
      obtain ⟨w',blocks',cur',hrun,hw',ha',hend⟩ := ih hw1 ha1 (htakes.2 _ hadd) (hfits.2 _ hadd)
      have hlast : lastAccepted (acc++[e]) = some e.key := by simp [lastAccepted]
      rw [hlast] at hrun ha'
      refine ⟨w',blocks',cur',?_,hw',?_,hend⟩
      · simp [writerAdds,hadd,hrun,addResults,hacc]
      · simpa [acceptedEntries,hacc] using ha'

/-- Adding remembers the new key, or the old one where the key is refused. -/
theorem mtblWriterAdd_lastKey {key val : Bytes} {p : Writer × Bool}
    (hadd : mtblWriterAdd codec w key val = .ok p) :
    p.1.lastKey = w.lastKey ∨ p.1.lastKey = key := by
  unfold mtblWriterAdd at hadd
  obtain ⟨-,-,hadd⟩ := bind_eq_ok.mp hadd
  split_ifs at hadd
  · obtain rfl := Except.ok.inj hadd
    exact .inl rfl
  · obtain ⟨⟨w1,b⟩,-,hadd⟩ := bind_eq_ok.mp hadd
    obtain ⟨w2,-,hadd⟩ := bind_eq_ok.mp hadd
    obtain ⟨w3,haccept,hadd⟩ := bind_eq_ok.mp hadd
    obtain ⟨data,-,haccept⟩ := bind_eq_ok.mp haccept
    obtain rfl := Except.ok.inj haccept
    obtain rfl := Except.ok.inj hadd
    exact .inr rfl

/-- Keys and values below `2^32` bytes fit wherever they go. -/
theorem writerTakes_of_small {adds : List Entry} (hlast : w.lastKey.length < 2^32)
    (hsmall : ∀ e ∈ adds, e.Small) : WriterTakes codec w adds := by
  have hindex : ∀ {w : Writer} {key : Bytes}, key.length < 2^32 →
      w.index.Takes ⟨key,mtblVarintEncode64 w.pendingOffset⟩ := fun hkey =>
    Entry.Small.takes ⟨hkey,(mtblVarintEncode64_length _).2.trans_lt (by omega)⟩ _
  induction adds generalizing w with
  | nil => exact fun _ => hindex hlast
  | cons e adds ih =>
    have he := hsmall e List.mem_cons_self
    refine ⟨fun _ w1 b _ => ⟨fun _ sep hsep => ?_,he.takes _⟩,fun p hadd => ?_⟩
    · exact hindex ((bytesShortestSeparator_length hsep).trans_lt hlast)
    · refine ih ?_ (fun x hx => hsmall x (List.mem_cons_of_mem e hx))
      rcases mtblWriterAdd_lastKey hadd with hkey | hkey
      · rwa [hkey]
      · rw [hkey]
        exact he.1

end

end Mtbl
