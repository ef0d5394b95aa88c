import Mtbl.Codec.Compress
import Mtbl.File.Source

/-! Files over the compression libraries. The functions that the writer and the reader call are the
wrappers around these, so that what has to hold of a block is a matter of its sizes. -/
namespace Mtbl
open CRun Writes Cursor

/-- The bytes of the buffer that are reported, if all of them were written. -/
def Decompressed.output (d : Decompressed) : Option Bytes :=
  items d.written d.outputSize

/-- A run that fails an assertion returns nothing, and neither does one that reports failure: the
writer and the reader assert success. -/
def succeeded {α : Type} : Run (Option α) → Option α
  | .ok res => res
  | .error _ => none

section
variable (libs : CompressLibs) (decoders : DecompressLibs) (fuel : ℕ) (front : Bytes → Front)

/-- The wrappers, for a writer and a reader that are linked with the libraries. -/
def libraryCodec : Codec where
  compressSnappy input := succeeded (mtblCompressSnappy libs input)
  compressZlib input level := succeeded (mtblCompressZlib libs input level)
  compressLz4 input := succeeded (mtblCompressLz4 libs input)
  compressLz4hc input level := succeeded (mtblCompressLz4hc libs input level)
  compressZstd input level := succeeded (mtblCompressZstd libs input level)
  decompressSnappy z := (succeeded (mtblDecompressSnappy decoders z)).bind Decompressed.output
  decompressZlib z := (succeeded (mtblDecompressZlib decoders fuel z)).bind Decompressed.output
  decompressLz4 z := (succeeded (mtblDecompressLz4 decoders z)).bind Decompressed.output
  decompressZstd z := (succeeded (mtblDecompressZstd decoders z)).bind Decompressed.output
  crc32c := mtblCrc32c
  front := front

theorem mtblCompress_library (compressionType : CompressionType) (input : Bytes) :
    mtblCompress (libraryCodec libs decoders fuel front) compressionType input =
      succeeded (mtblCompressInto libs compressionType input) := by
  cases compressionType <;> rfl

theorem mtblCompressLevel_library (compressionType : CompressionType) (level : ℤ) (input : Bytes) :
    mtblCompressLevel (libraryCodec libs decoders fuel front) compressionType level input =
      succeeded (mtblCompressLevelInto libs compressionType level input) := by
  cases compressionType <;> rfl

theorem mtblDecompress_library (compressionType : CompressionType) (z : Bytes) :
    mtblDecompress (libraryCodec libs decoders fuel front) compressionType.code z =
      (succeeded (mtblDecompressInto decoders fuel compressionType.code z)).bind
        Decompressed.output := by
  cases compressionType <;> rfl

end

theorem succeeded_eq_some {α : Type} {x : Run (Option α)} {a : α} :
    succeeded x = some a ↔ x = .ok (some a) := by
  cases x with
  | ok res => simp [succeeded]
  | error e => simp [succeeded]

theorem Decompressed.output_eq_some {d : Decompressed} {out : Bytes} :
    d.output = some out ↔ d.Holds out := items_eq_some

/-! ### The limits of a file -/

/-- The contents are compressed to a non-empty result, with sizes within the limits of the
decompressor. -/
def Recovers (codec : Codec) (opt : WriterOptions) (contents : Bytes) : Prop :=
  ∃ raw ∈ compressedData codec opt.compressionType opt.compressionLevel contents,
    0 < raw.length ∧ (opt.compressionType ≠ .none → Recoverable contents raw opt.compressionType)

structure Writer.Within (codec : Codec) (w : Writer) : Prop where
  restarts : w.data.restarts.length < 2^31
  size : w.data.buf.length < 2^63
  recovers : blockBuilderEmpty w.data = false → Recovers codec w.opt (blockBuilderFinish w.data).2

/-- Every data block that the adds finish, the index and the file are within the limits. -/
def WriterWithin (codec : Codec) (w : Writer) : List Entry → Prop
  | [] => w.Within codec ∧
      (∀ w', mtblWriterFlush codec w = .ok w' → w'.index.restarts.length < 2^31) ∧
      ∀ file, mtblWriterDestroy codec w = .ok file → file.length < 2^63
  | e::es => w.Within codec ∧
      ∀ p, mtblWriterAdd codec w e.key e.val = .ok p → WriterWithin codec p.1 es

section
variable {libs : CompressLibs} {decoders : DecompressLibs} {lz4Block zstdFrame : Bytes → Option Bytes}
  {stream : Bytes → ZStream} {fuel : ℕ} {front : Bytes → Front}

theorem compressedTo_library {opt : WriterOptions} {contents raw : Bytes}
    (hne : opt.compressionType ≠ .none)
    (hraw : raw ∈ compressedData (libraryCodec libs decoders fuel front) opt.compressionType
      opt.compressionLevel contents) : CompressedTo libs opt.compressionType contents raw := by
  rw [compressedData,if_neg hne] at hraw
  split_ifs at hraw
  · rw [mtblCompress_library] at hraw
    exact .inl (succeeded_eq_some.mp hraw)
  · rw [mtblCompressLevel_library] at hraw
    exact .inr ⟨opt.compressionLevel,succeeded_eq_some.mp hraw⟩

theorem unpacks_library_iff {t : CompressionType} (hne : t ≠ .none) {raw contents : Bytes} :
    Unpacks (libraryCodec libs decoders fuel front) t raw contents ↔
      ∃ d, mtblDecompressInto decoders fuel t.code raw = .ok (some d) ∧ d.Holds contents := by
  simp only [Unpacks,if_neg hne,mtblDecompress_library,Option.bind_eq_some_iff,succeeded_eq_some,
    Decompressed.output_eq_some]

variable (hc : EncoderContracts libs decoders lz4Block zstdFrame stream)
  (hd : DecoderContracts decoders lz4Block zstdFrame)
  (hi : InflateContract decoders.inflate stream) (halloc : ∀ size, decoders.allocates size = true)
  (hfuel : 23 ≤ fuel)
include hc hd hi halloc hfuel

theorem packs_library_iff (opt : WriterOptions) (contents : Bytes) :
    Packs (libraryCodec libs decoders fuel front) opt contents ↔
      Recovers (libraryCodec libs decoders fuel front) opt contents := by
  refine exists_congr fun raw => and_congr_right fun hraw => and_congr_right fun _ => ?_
  by_cases hnone : opt.compressionType = .none
  · have hsame : raw = contents := by
      rw [compressedData,if_pos hnone] at hraw
      exact (Option.some.inj hraw).symm
    exact iff_of_true (by rw [Unpacks,if_pos hnone,hsame]) (absurd hnone)
  · have hmade := compressedTo_library hnone hraw
    rw [unpacks_library_iff hnone,decompressesTo_within hc hd hi halloc hmade hfuel,
      forall_prop_of_true hnone]

theorem within_library_iff (w : Writer) :
    w.Fits (libraryCodec libs decoders fuel front) ↔ w.Within (libraryCodec libs decoders fuel front) := by
  have hpacks := @packs_library_iff _ _ _ _ _ _ front hc hd hi halloc hfuel w.opt
    (blockBuilderFinish w.data).2
  constructor
  · rintro ⟨hrestarts,hsize,h⟩
    exact ⟨hrestarts,hsize,fun hne => hpacks.mp (h hne)⟩
  · rintro ⟨hrestarts,hsize,h⟩
    exact ⟨hrestarts,hsize,fun hne => hpacks.mpr (h hne)⟩

/-- What has to hold of a file with the libraries is a matter of sizes. -/
theorem writerFits_library_iff (adds : List Entry) (w : Writer) :
    WriterFits (libraryCodec libs decoders fuel front) w adds ↔
      WriterWithin (libraryCodec libs decoders fuel front) w adds := by
  induction adds generalizing w with
  | nil => exact and_congr_left' (within_library_iff hc hd hi halloc hfuel w)
  | cons e adds ih =>
    exact and_congr (within_library_iff hc hd hi halloc hfuel w)
      (forall_congr' fun p => imp_congr_right fun _ => ih p.1)

end

instance (contents raw : Bytes) (t : CompressionType) : Decidable (Recoverable contents raw t) := by
  cases t <;> unfold Recoverable <;> infer_instance

instance (codec : Codec) (opt : WriterOptions) (contents : Bytes) :
    Decidable (Recovers codec opt contents) := by
  unfold Recovers
  infer_instance

instance (codec : Codec) (w : Writer) : Decidable (w.Within codec) :=
  decidable_of_iff (w.data.restarts.length < 2^31 ∧ w.data.buf.length < 2^63 ∧
    (blockBuilderEmpty w.data = false → Recovers codec w.opt (blockBuilderFinish w.data).2))
    ⟨fun ⟨h1,h2,h3⟩ => ⟨h1,h2,h3⟩,fun ⟨h1,h2,h3⟩ => ⟨h1,h2,h3⟩⟩

instance decidableWriterWithin (codec : Codec) : ∀ (es : List Entry) (w : Writer),
    Decidable (WriterWithin codec w es)
  | [],_ => by
    unfold WriterWithin
    infer_instance
  | e::es,w =>
    have := decidableWriterWithin codec es
    by
      unfold WriterWithin
      infer_instance

/-- A file over the libraries is written and read back if no block, nor the file, goes beyond the
limits of the decompressor. -/
theorem compressed_round_trip (libs : CompressLibs) (decoders : DecompressLibs)
    (lz4Block zstdFrame : Bytes → Option Bytes) (stream : Bytes → ZStream)
    (hc : EncoderContracts libs decoders lz4Block zstdFrame stream)
    (hd : DecoderContracts decoders lz4Block zstdFrame)
    (hi : InflateContract decoders.inflate stream) (halloc : ∀ size, decoders.allocates size = true)
    (fuel : ℕ) (hfuel : 23 ≤ fuel) (front : Bytes → Front) (pre : Bytes) (opt : WriterOptions)
    (hinterval : 1 ≤ opt.blockRestartInterval) (adds : List Entry) (hsmall : ∀ e ∈ adds, e.Small)
    (hwithin : WriterWithin (libraryCodec libs decoders fuel front)
      (mtblWriterInitFd pre (some opt)) adds)
    (ropt : ReaderOptions) :
    ∃ w file r,
      writerAdds (libraryCodec libs decoders fuel front) (mtblWriterInitFd pre (some opt)) adds =
        .ok (w,addResults none adds) ∧
      mtblWriterDestroy (libraryCodec libs decoders fuel front) w = .ok file ∧
      mtblReaderInitFd (libraryCodec libs decoders fuel front) file ropt = .ok (some r) ∧
      (mtblReaderSource (libraryCodec libs decoders fuel front) r).Holds
        (readerOps (libraryCodec libs decoders fuel front)) (acceptedEntries none adds) := by
  have hfits := (writerFits_library_iff hc hd hi halloc hfuel adds _).mpr hwithin
  obtain ⟨w,file,t,blocks,m,ib,hrun,hdestroy,hfin,hentries⟩ := writer_runs hinterval hsmall hfits
  obtain ⟨r,hopen,hholds⟩ := mtblReaderInitFd_spec hfin ropt
  rw [← hentries]
  exact ⟨w,file,r,hrun,hdestroy,hopen,mtblReaderSource_holds hholds⟩

/-- The LZ4 library of literals. -/
def literalsCodec : Codec := libraryCodec literalCompressLibs letterLibs 23 (fun _ => ⟨0,[]⟩)

/-- One LZ4 block of literals. -/
theorem compressed_round_trip_one : ∃ w file r,
    writerAdds literalsCodec (mtblWriterInitFd [] (some ⟨.lz4,0,1024,1⟩)) [⟨[1],[2]⟩] =
      .ok (w,[true]) ∧
    mtblWriterDestroy literalsCodec w = .ok file ∧
    mtblReaderInitFd literalsCodec file ⟨true⟩ = .ok (some r) ∧
    (mtblReaderSource literalsCodec r).Holds (readerOps literalsCodec) [⟨[1],[2]⟩] :=
  compressed_round_trip literalCompressLibs letterLibs literalBlock (fun _ => none) letterStream
    literalCompressLibs_contracts letterLibs_decodes letterLibs_contract (fun _ => rfl) 23 le_rfl
    (fun _ => ⟨0,[]⟩) [] ⟨.lz4,0,1024,1⟩ (by decide) [⟨[1],[2]⟩] (by decide) (by decide +kernel) ⟨true⟩

end Mtbl
