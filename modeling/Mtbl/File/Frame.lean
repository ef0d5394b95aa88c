import Mtbl.File.Blocks
import Mtbl.File.Writer

/-! How a block lies in the file: its length, its checksum and its contents, written by
`_mtbl_writer_write_block` and read back by `get_block`. -/
namespace Mtbl
open CRun Cursor

def frame (codec : Codec) (raw : Bytes) : Bytes :=
  mtblVarintEncode64 raw.length++mtblFixedEncode32 (codec.crc32c raw).toNat++raw

def framesBytes (codec : Codec) (blocks : List FileBlock) : Bytes :=
  blocks.flatMap (fun b => frame codec b.raw)

/-- The bytes that decode to the contents under the file's compression. -/
def Unpacks (codec : Codec) (t : CompressionType) (raw contents : Bytes) : Prop :=
  if t = .none then raw = contents else mtblDecompress codec t.code raw = some contents

/-- The stored bytes are those of a block with these entries, whatever lies behind it in memory. -/
def Decodes (codec : Codec) (t : CompressionType) (raw : Bytes) (es : List Entry) : Prop :=
  ∃ contents, Unpacks codec t raw contents ∧ ∀ front tail, ∃ B bi i,
    blockInit front (contents++tail) contents.length = .ok B ∧ blockIterInit B = .ok bi ∧ Shows bi es i

theorem frame_length (codec : Codec) (raw : Bytes) :
    (frame codec raw).length = (mtblVarintEncode64 raw.length).length+4+raw.length := by
  simp [frame,Nat.add_assoc]

/-- Writing a block appends its frame. -/
theorem mtblWriterWriteBlock_spec (codec : Codec) (file : Bytes) (b : DataBlock)
    (hdata : 0 < b.data.length) (hcrc : b.crc = codec.crc32c b.data) :
    mtblWriterWriteBlock file b =
      .ok (file++frame codec b.data,(frame codec b.data).length) := by
  have hvar : 0 < (mtblVarintEncode64 b.data.length).length :=
    (mtblVarintEncode64_length b.data.length).1
  rw [frame_length]
  simp only [mtblWriterWriteBlock,writeAll,check_of hvar,check_of hdata,ok_bind,pure_eq_ok,
    mtblFixedEncode32_length,check_of (show 0 < 4 by omega),hcrc,frame,List.append_assoc]

section
variable {codec : Codec} {data : Bytes} {offset : ℕ} {raw rest : Bytes}

theorem blockLength_frame (hraw : raw.length < 2^64) :
    blockLength .formatV2 (frame codec raw++rest) =
      .ok ((mtblVarintEncode64 raw.length).length,raw.length) := by
  simp only [blockLength,frame,List.append_assoc]
  exact mtblVarintDecode64_encode64 hraw _

theorem frame_drop (hdata : data.drop offset = frame codec raw++rest) :
    data.drop (offset+(mtblVarintEncode64 raw.length).length+4) = raw++rest := by
  rw [← List.drop_drop,← List.drop_drop,hdata,frame,List.append_assoc,List.append_assoc,
    List.drop_left,← mtblFixedEncode32_length (codec.crc32c raw).toNat,List.drop_left]

theorem readSlice_of_drop {p : ℕ} (h : data.drop p = raw++rest) (hp : p ≤ data.length) :
    readSlice data p raw.length = .ok raw := by
  have hlen := congrArg List.length h
  rw [List.length_drop,List.length_append] at hlen
  rw [readSlice,if_pos (by omega),h,List.take_left]

/-- The stored checksum is that of the contents. -/
theorem verifyChecksum_frame (opt : ReaderOptions) (hdata : data.drop offset = frame codec raw++rest) :
    verifyChecksum codec opt data (offset+(mtblVarintEncode64 raw.length).length) raw.length =
      .ok () := by
  unfold verifyChecksum
  split_ifs
  · have hcrc : data.drop (offset+(mtblVarintEncode64 raw.length).length) =
        mtblFixedEncode32 (codec.crc32c raw).toNat++(raw++rest) := by
      rw [← List.drop_drop,hdata,frame,List.append_assoc,List.append_assoc,List.drop_left]
    have hslice : readSlice data (offset+(mtblVarintEncode64 raw.length).length+4) raw.length =
        .ok raw := by
      have hlen := congrArg List.length hdata
      rw [List.length_append,frame_length,List.length_drop] at hlen
      have hpos := (mtblVarintEncode64_length raw.length).1
      exact readSlice_of_drop (frame_drop hdata) (by omega)
    have hmod : (codec.crc32c raw).toNat%2^32 = (codec.crc32c raw).toNat :=
      Nat.mod_eq_of_lt (codec.crc32c raw).toNat_lt
    rw [hcrc,mtblFixedDecode32_encode32,hmod,ok_bind,hslice,ok_bind,check_of rfl]
  · rfl

/-- `get_block` finds the entries of the frame at the offset. -/
theorem getBlock_frame {r : Reader} {t : CompressionType} {es : List Entry}
    (hversion : r.m.fileVersion = .formatV2) (halg : r.m.compressionAlgorithm = t.code)
    (hdata : r.data.drop offset = frame codec raw++rest) (hraw : raw.length < 2^64)
    (hdec : Decodes codec t raw es) :
    ∃ B bi i, getBlock codec r offset = .ok B ∧ blockIterInit B = .ok bi ∧ Shows bi es i := by
  obtain ⟨contents,hunpack,hopen⟩ := hdec
  have hlen := congrArg List.length hdata
  rw [List.length_append,frame_length,List.length_drop] at hlen
  have hpos := (mtblVarintEncode64_length raw.length).1
  have hget : getBlock codec r offset =
      blockContents codec r (offset+(mtblVarintEncode64 raw.length).length+4) raw.length >>=
        fun c => blockInit (codec.front c.1) c.1 c.2 := by
    rw [getBlock,check_of (by omega),ok_bind,hversion,hdata,blockLength_frame hraw,ok_bind]
    simp only [verifyChecksum_frame r.opt hdata,ok_bind]
  have hdrop := frame_drop hdata
  by_cases ht : t = .none
  · subst ht
    rw [Unpacks,if_pos rfl] at hunpack
    subst hunpack
    obtain ⟨B,bi,i,hinit,hiter,hshow⟩ := hopen _ rest
    refine ⟨B,bi,i,?_,hiter,hshow⟩
    rw [hget,blockContents,if_pos halg,ok_bind,hdrop]
    exact hinit
  · rw [Unpacks,if_neg ht] at hunpack
    obtain ⟨B,bi,i,hinit,hiter,hshow⟩ := hopen _ []
    rw [List.append_nil] at hinit
    have hcode : t.code ≠ CompressionType.none.code := by
      cases t <;> simp [CompressionType.code] at ht ⊢
    refine ⟨B,bi,i,?_,hiter,hshow⟩
    rw [hget,blockContents,halg,if_neg hcode,readSlice_of_drop hdrop (by omega),ok_bind,
      Nat.mod_eq_of_lt (t.code_lt.trans (by norm_num)),hunpack]
    exact hinit

end

/-! ### Blocks end to end -/

/-- Each block starts where the one before it ends. -/
def OffsetsFrom (codec : Codec) : ℕ → List FileBlock → Prop
  | _,[] => True
  | p,b::blocks => b.offset = p ∧ OffsetsFrom codec (p+(frame codec b.raw).length) blocks

theorem OffsetsFrom.append {codec : Codec} {p : ℕ} {blocks : List FileBlock} {b : FileBlock}
    (h : OffsetsFrom codec p blocks) (hb : b.offset = p+(framesBytes codec blocks).length) :
    OffsetsFrom codec p (blocks++[b]) := by
  induction blocks generalizing p with
  | nil => exact ⟨by simpa [framesBytes] using hb,trivial⟩
  | cons c blocks ih =>
    obtain ⟨hc,hrest⟩ := h
    refine ⟨hc,ih hrest ?_⟩
    rw [hb,framesBytes,List.flatMap_cons,List.length_append,← Nat.add_assoc]
    rfl

/-- The block's frame lies at its offset. -/
theorem OffsetsFrom.split {codec : Codec} {p : ℕ} {blocks : List FileBlock} {b : FileBlock}
    (h : OffsetsFrom codec p blocks) (hb : b ∈ blocks) {pre : Bytes} (hpre : pre.length = p)
    (post : Bytes) :
    ∃ rest, (pre++(framesBytes codec blocks++post)).drop b.offset =
      frame codec b.raw++rest := by
  induction blocks generalizing p pre with
  | nil => simp at hb
  | cons c blocks ih =>
    obtain ⟨hc,hrest⟩ := h
    rcases List.mem_cons.mp hb with rfl | hb
    · refine ⟨framesBytes codec blocks++post,?_⟩
      rw [hc,← hpre,List.drop_left,framesBytes,List.flatMap_cons,List.append_assoc]
      rfl
    · obtain ⟨rest,hrest'⟩ := ih hrest hb
        (show (pre++frame codec c.raw).length = _ by rw [List.length_append,hpre])
      refine ⟨rest,?_⟩
      rw [← hrest',framesBytes,List.flatMap_cons]
      simp only [List.append_assoc]
      rfl

theorem OffsetsFrom.lt {codec : Codec} {p : ℕ} {blocks : List FileBlock} {b : FileBlock}
    (h : OffsetsFrom codec p blocks) (hb : b ∈ blocks) :
    b.offset < p+(framesBytes codec blocks).length := by
  induction blocks generalizing p with
  | nil => simp at hb
  | cons c blocks ih =>
    obtain ⟨hc,hrest⟩ := h
    have hlen : (framesBytes codec (c::blocks)).length =
        (frame codec c.raw).length+(framesBytes codec blocks).length := by
      rw [framesBytes,List.flatMap_cons,List.length_append]
      rfl
    have hframe := frame_length codec c.raw
    rcases List.mem_cons.mp hb with rfl | hb
    · omega
    · have := ih hrest hb
      omega

theorem OffsetsFrom.le {codec : Codec} {p : ℕ} {blocks : List FileBlock} {b : FileBlock}
    (h : OffsetsFrom codec p blocks) (hb : b ∈ blocks) : p ≤ b.offset := by
  induction blocks generalizing p with
  | nil => cases hb
  | cons c blocks ih =>
    obtain ⟨hc,hrest⟩ := h
    rcases List.mem_cons.mp hb with rfl | hb
    · exact hc.ge
    · exact (Nat.le_add_right _ _).trans (ih hrest hb)

/-- No two blocks start at the same offset. -/
theorem OffsetsFrom.ascending {codec : Codec} {p : ℕ} {blocks : List FileBlock}
    (h : OffsetsFrom codec p blocks) : blocks.Pairwise (fun a b => a.offset < b.offset) := by
  induction blocks generalizing p with
  | nil => exact List.Pairwise.nil
  | cons c blocks ih =>
    obtain ⟨hc,hrest⟩ := h
    refine List.pairwise_cons.mpr ⟨fun b hb => ?_,ih hrest⟩
    have hle := hrest.le hb
    have hframe := frame_length codec c.raw
    omega

end Mtbl
