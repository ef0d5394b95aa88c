import Mtbl.Merge.Tool
import Mtbl.Sort.Sorted

/-! The sorter with its files: the chunks are written by `mtbl_writer` with Snappy and opened again,
and the sorted output goes to a file of the user's. What is in that file depends on what was added
alone, not on the memory, the thread pool, the order in which chunks are done, or how `qsort` orders
equal keys. -/
namespace Mtbl
open CRun Cursor FoldOp

/-! ### The chunk files -/

/-- The options of a chunk's writer. -/
def chunkOptions : WriterOptions := mtblWriterOptionsSetCompression mtblWriterOptionsInit .snappy

/-- A new temporary file to which these entries are added, opened. -/
def openChunk (codec : Codec) (es : List Entry) : Run (Option Reader) := do
  let (w,_) ← writerAdds codec (mtblWriterInitFd [] (some chunkOptions)) es
  let file ← mtblWriterDestroy codec w
  mtblReaderInitFd codec file ⟨false⟩

/-- `mtbl_reader_source` of no reader. -/
def noSource : Source ReaderIter :=
  ⟨.error .assertion,fun _ => .error .assertion,fun _ => .error .assertion,
    fun _ _ => .error .assertion⟩

/-- The sorter over files, with the C library's `qsort` and the scheduler. -/
def fileEnv (codec : Codec) (qsort : List Entry → List Entry)
    (collect : List (List Entry) → List (List Entry)) : SorterEnv ReaderIter where
  qsort := qsort
  chunkSource es :=
    match openChunk codec es with
    | .ok (some r) => mtblReaderSource codec r
    | _ => noSource
  collect := collect

/-- Additions, `mtbl_sorter_write` into a writer on a new file, and the end of that writer. -/
def sortFile (codec : Codec) (env : SorterEnv ReaderIter) (opt : SorterOptions)
    (wopt : WriterOptions) (fuel : ℕ) (adds : List Entry) : Run (Bool × Bytes) := do
  let (_,s) ← sorterAdds env (mtblSorterInit opt) adds
  let (res,w) ← mtblSorterWrite (readerOps codec) env (writerAdd codec) fuel s
    (mtblWriterInitFd [] (some wopt))
  let file ← mtblWriterDestroy codec w
  return (res,file)

section
variable {codec : Codec} {es : List Entry} {qsort : List Entry → List Entry}
  {collect : List (List Entry) → List (List Entry)}

/-- A chunk that fits is read back. -/
theorem openChunk_holds (hasc : es.Pairwise (fun a b => a.key < b.key))
    (hsmall : ∀ e ∈ es, e.Small)
    (hfits : WriterFits codec (mtblWriterInitFd [] (some chunkOptions)) es) :
    Source.Holds (readerOps codec) ((fileEnv codec qsort collect).chunkSource es) es := by
  obtain ⟨hentries,-⟩ := @acceptedEntries_ascending es none (fun l hl => by cases hl) hasc
  obtain ⟨w,file,-,-,-,-,hrun,hdestroy,-,-⟩ := writer_runs (by decide) hsmall hfits
  have hproduced := Produced.mk [] chunkOptions es w _ file (by decide) hsmall hfits hrun hdestroy
  rw [hentries] at hproduced
  obtain ⟨r,hopen,hholds⟩ := hproduced.source ⟨false⟩
  have hchunk : openChunk codec es = .ok (some r) := by
    simp only [openChunk,hrun,ok_bind,hdestroy,hopen]
  simpa only [fileEnv,hchunk] using hholds

end

/-- Some merge of these entries exists. -/
theorem exists_merged {es : List Entry} (g : Bytes → Bytes → Bytes → Bytes) (hkeys : ∀ e ∈ es, e.key ≠ []) :
    ∃ out, Merged g none es out := by
  obtain ⟨hperm,hsorted⟩ := insertionEnv_qsort es
  obtain ⟨out,-,hfolded⟩ := exists_returned hsorted (fun e he => hkeys e (hperm.mem_iff.mp he))
    (fun e he => foldValues_isSome g he)
  exact ⟨out,hfolded.merged hperm hsorted (fun d hd => by cases hd)⟩

/-! ### The sorted file -/

section
variable {σ : Type} {I : Ops σ Entry Bytes} {env : SorterEnv σ} {s s' : Sorter σ}
  {adds : List Entry} {results : List Bool}

theorem sorterAdds_iterating (hrun : sorterAdds env s adds = .ok (results,s')) :
    s'.iterating = s.iterating := by
  induction adds generalizing s results with
  | nil =>
    obtain ⟨-,rfl⟩ := Prod.mk.inj (Except.ok.inj hrun)
    rfl
  | cons e adds ih =>
    obtain ⟨⟨res,s1⟩,hadd,hrun⟩ := bind_eq_ok.mp hrun
    obtain ⟨⟨results1,s2⟩,hadds,hpure⟩ := bind_eq_ok.mp hrun
    obtain ⟨-,rfl⟩ := Prod.mk.inj (Except.ok.inj hpure)
    apply (ih hadds).trans
    rcases mtblSorterAdd_cases (ω := Unit) hadd with
      ⟨-,-,rfl⟩ | ⟨-,n,⟨-,rfl⟩ | ⟨-,hflush⟩⟩
    · rfl
    · rfl
    · obtain ⟨-,⟨-,-,rfl⟩ | ⟨-,r,-,-,rfl⟩⟩ := mtblSorterFlush_cases hflush
      · rfl
      · rfl

end

/-- What `mtbl_sorter_write` copies is what the iterator gives. -/
theorem sortFile_eq {codec : Codec} {env : SorterEnv ReaderIter} {opt : SorterOptions}
    {wopt : WriterOptions} {fuel : ℕ} {adds out : List Entry} {w : Writer} {file : Bytes}
    (hgives : Gives (mergerIterOps (readerOps codec) fuel)
      (sortAll (readerOps codec) env opt adds) out) (hfuel : out.length < fuel)
    (hsome : sortAll (readerOps codec) env opt adds ≠ .ok none)
    (hadds : addAll (writerAdd codec) (mtblWriterInitFd [] (some wopt)) out = .ok (true,w))
    (hdestroy : mtblWriterDestroy codec w = .ok file) :
    sortFile codec env opt wopt fuel adds = .ok (true,file) := by
  obtain ⟨it,hrun,henum⟩ := hgives
  cases it with
  | none => exact absurd hrun hsome
  | some it =>
    obtain ⟨⟨results,s⟩,hresults,hrest⟩ := bind_eq_ok.mp hrun
    obtain ⟨⟨it',s'⟩,hiter,hpure⟩ := bind_eq_ok.mp hrest
    obtain rfl : it' = some it := Except.ok.inj hpure
    have hgo : ¬ s.iterating = true := by simp [sorterAdds_iterating hresults,mtblSorterInit]
    have hcopy := @copyLoop_enumerates _ _ _ (writerAdd codec) it out (enumerates_some henum)
      (mtblWriterInitFd [] (some wopt)) fuel hfuel
    have hwrite : mtblSorterWrite (readerOps codec) env (writerAdd codec) fuel s
        (mtblWriterInitFd [] (some wopt)) = .ok (true,w) := by
      rw [mtblSorterWrite,if_neg hgo,hiter]
      exact hcopy.trans hadds
    simp only [sortFile,hresults,ok_bind,hwrite,hdestroy,pure_eq_ok]

/-- Adding entries and writing the sorted output. However the additions fall into batches, whatever
the threads, with each chunk in a file of its own, the output file is one and the same: that of a
writer to which the merge of the additions is added. -/
theorem sortFile_same (codec : Codec) (g : Bytes → Bytes → Bytes → Bytes)
    (hassoc : ∀ k, Std.Associative (g k)) (hcomm : ∀ k, Std.Commutative (g k)) (adds : List Entry)
    (hkeys : ∀ e ∈ adds, e.key ≠ []) (hsmall : ∀ e ∈ adds, e.Small) (hfit : MergesFit g adds)
    (wopt : WriterOptions) (hinterval : 1 ≤ wopt.blockRestartInterval) :
    ∃ out, Merged g none adds out ∧
      (WriterFits codec (mtblWriterInitFd [] (some wopt)) out → ∃ file, Produced codec file out ∧
        ∀ qsort collect maxMemory pool, (∀ l, (qsort l).Perm l ∧ KeySorted (qsort l)) →
          (∀ jobs, (collect jobs).Perm jobs) →
          (∀ batch ∈ batches maxMemory adds, batch.length < 2^32 ∧ ∀ es, Merged g none batch es →
            WriterFits codec (mtblWriterInitFd [] (some chunkOptions)) es) →
          ∃ n, ∀ fuel ≥ n, sortFile codec (fileEnv codec qsort collect)
            ⟨maxMemory,some (alwaysMerges g),pool⟩ wopt fuel adds = .ok (true,file)) := by
  obtain ⟨out,hout⟩ := exists_merged g hkeys
  refine ⟨out,hout,fun hfits => ?_⟩
  obtain ⟨w,file,hadds,hdestroy,hproduced⟩ := exists_written wopt hinterval hout.ascending
    (hout.small hsmall hfit) hfits
  refine ⟨file,hproduced,fun qsort collect maxMemory pool hqsort hcollect hbatches => ?_⟩
  have hchunks : ∀ batch ∈ batches maxMemory adds, ∀ es, Merged g none batch es →
      Source.Holds (readerOps codec) ((fileEnv codec qsort collect).chunkSource es) es := by
    intro batch hmem es hes
    have hsub := batch_sublist hmem
    exact openChunk_holds hes.ascending
      (hes.small (fun e he => hsmall e (hsub.subset he)) (hfit.sublist hsub))
      ((hbatches batch hmem).2 es hes)
  obtain ⟨sources,ess,hrun,hsources,hesskeys,hmerge⟩ := @sortAll_merges _ _
    (fileEnv codec qsort collect) g maxMemory pool adds hqsort hcollect hchunks hassoc hcomm hkeys
    hsmall hfit (fun batch hmem => (hbatches batch hmem).1)
  obtain ⟨out',hout',n,hgives⟩ := mergerIter_givesMerged (I := readerOps codec)
    (m := ⟨sources,some (alwaysMerges g),none⟩) hsources hesskeys rfl
  obtain rfl : out = out' := hout.unique (hmerge out' hout')
  obtain ⟨it,taken,hiter,-⟩ := mergerIter_takes (m := ⟨sources,some (alwaysMerges g),none⟩)
    (takeOrder_key _) (steps_enumerates (mtblIterNext (readerOps codec)))
    (sourcesGive_iter hsources)
  refine ⟨max n (out.length+1),fun fuel hfuel => ?_⟩
  have hgives' := hgives fuel (le_of_max_le_left hfuel)
  rw [← hrun] at hgives' hiter
  refine sortFile_eq hgives' (le_of_max_le_right hfuel) ?_ hadds hdestroy
  rw [hiter]
  exact fun hnone => by cases hnone

/-- Snappy on short inputs without repetitions: the length and one literal. -/
def literalCodec : Codec := { storingCodec with
  compressSnappy := fun input =>
    if 0 < input.length ∧ input.length ≤ 60 then
      some (.ofNat input.length::.ofNat (4*(input.length-1))::input)
    else none
  decompressSnappy := fun raw =>
    match raw with
    | n::tag::input =>
      if input.length = n.toNat ∧ tag = .ofNat (4*(input.length-1)) then some input else none
    | _ => none }

theorem merged_singleton (g : Bytes → Bytes → Bytes → Bytes) (e : Entry) :
    Merged g none [e] [e] where
  ascending := List.pairwise_singleton ..
  keys _ := Iff.rfl
  value x hx := by
    obtain rfl := List.mem_singleton.mp hx
    refine ⟨x.val,[],?_,rfl,fun d hd => (by cases hd)⟩
    simp [valuesOf]

theorem merged_same_key {k v w : Bytes} (g : Bytes → Bytes → Bytes → Bytes) :
    Merged g none [⟨k,v⟩,⟨k,w⟩] [⟨k,g k v w⟩] where
  ascending := List.pairwise_singleton ..
  keys _ := by simp
  value x hx := by
    obtain rfl := List.mem_singleton.mp hx
    refine ⟨v,[w],?_,rfl,fun d hd => (by cases hd)⟩
    simp [valuesOf]

/-- Two values of one key: with a chunk for each, or with one chunk for both that a thread writes. -/
theorem sortFile_same_two : ∃ file n, Produced literalCodec file [⟨[1],[7]⟩] ∧ ∀ fuel ≥ n,
    sortFile literalCodec (fileEnv literalCodec insertionEnv.qsort id)
      ⟨18,some (alwaysMerges keepGreater),false⟩ plainOptions fuel [⟨[1],[1]⟩,⟨[1],[7]⟩] =
        .ok (true,file) ∧
    sortFile literalCodec (fileEnv literalCodec insertionEnv.qsort List.reverse)
      ⟨2^30,some (alwaysMerges keepGreater),true⟩ plainOptions fuel [⟨[1],[1]⟩,⟨[1],[7]⟩] =
        .ok (true,file) := by
  have hassoc : ∀ k, Std.Associative (keepGreater k) := fun _ => ⟨max_assoc⟩
  have hcomm : ∀ k, Std.Commutative (keepGreater k) := fun _ => ⟨max_comm⟩
  have hsmall : ∀ e ∈ [(⟨[1],[1]⟩ : Entry),⟨[1],[7]⟩], e.Small := by decide
  have hboth : Merged keepGreater none [⟨[1],[1]⟩,⟨[1],[7]⟩] [⟨[1],[7]⟩] :=
    merged_same_key keepGreater
  obtain ⟨out,hout,hsame⟩ := sortFile_same literalCodec keepGreater hassoc hcomm
    [⟨[1],[1]⟩,⟨[1],[7]⟩] (by decide) hsmall (mergesFit_greater hsmall) plainOptions (by decide)
  obtain rfl := hboth.unique hout
  obtain ⟨file,hproduced,hfile⟩ := hsame (by decide +kernel)
  obtain ⟨n,hn⟩ := hfile insertionEnv.qsort id 18 false insertionEnv_qsort (fun jobs => .refl jobs)
    (by
      have hbatches : batches 18 [⟨[1],[1]⟩,⟨[1],[7]⟩] = [[⟨[1],[1]⟩],[⟨[1],[7]⟩]] := by decide
      rw [hbatches]
      intro batch hmem
      obtain rfl | rfl : batch = [⟨[1],[1]⟩] ∨ batch = [⟨[1],[7]⟩] := by simpa using hmem
      · refine ⟨by decide,fun es hes => ?_⟩
        rw [← (merged_singleton keepGreater _).unique hes]
        decide +kernel
      · refine ⟨by decide,fun es hes => ?_⟩
        rw [← (merged_singleton keepGreater _).unique hes]
        decide +kernel)
  obtain ⟨m,hm⟩ := hfile insertionEnv.qsort List.reverse (2^30) true insertionEnv_qsort
    (fun jobs => List.reverse_perm jobs) (by
      have hbatches : batches (2^30) [⟨[1],[1]⟩,⟨[1],[7]⟩] = [[⟨[1],[1]⟩,⟨[1],[7]⟩]] := by decide
      rw [hbatches]
      intro batch hmem
      obtain rfl := List.mem_singleton.mp hmem
      refine ⟨by decide,fun es hes => ?_⟩
      rw [← hboth.unique hes]
      decide +kernel)
  exact ⟨file,max n m,hproduced,fun fuel hfuel =>
    ⟨hn fuel (le_of_max_le_left hfuel),hm fuel (le_of_max_le_right hfuel)⟩⟩

end Mtbl
