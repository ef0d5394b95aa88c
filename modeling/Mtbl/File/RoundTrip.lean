import Mtbl.Codec.Crc32c
import Mtbl.File.Finished

/-! Writing and reading back. -/
namespace Mtbl
open CRun Cursor

section
variable {codec : Codec} {r : Reader} {blocks : List FileBlock}

/-- The iterator belongs to the reader and returns the entries in `out`. -/
def Returns (codec : Codec) (r : Reader) (blocks : List FileBlock) (it : ReaderIter)
    (out : List Entry) : Prop :=
  it.r = r ∧ ∃ rem, Tracks codec blocks it rem ∧ selected it rem = out

theorem selected_congr {it it' : ReaderIter} (h : SameQuery it it') (rem : List Entry) :
    selected it' rem = selected it rem := by
  simp only [selected,h.itType,h.k]

theorem returns_steps (h : Holds codec r blocks) :
    Steps (readerIterNext codec) (Returns codec r blocks) := by
  intro it out hret
  obtain ⟨hr,rem,ht,rfl⟩ := hret
  obtain ⟨it',rem',hnext,hsame,ht',hrest⟩ := readerIterNext_spec h hr ht
  exact ⟨it',hnext,hsame.r.trans hr,rem',ht',by rw [selected_congr hsame,hrest]⟩

theorem Returns.enumerates (h : Holds codec r blocks) {it : ReaderIter} {out : List Entry}
    (hret : Returns codec r blocks it out) : Enumerates (readerIterNext codec) it out :=
  enumerates_of_step (returns_steps h) hret

theorem selected_iter {it : ReaderIter} (h : it.itType = .iter) (rem : List Entry) :
    selected it rem = rem := by
  induction rem with
  | nil => rfl
  | cons e rem ih =>
    rw [selected,List.takeWhile_cons_of_pos (by rw [h]; rfl)]
    exact congrArg _ ih

/-- A full iterator returns all entries; over no entries it is NULL. -/
theorem readerIter_returns (h : Holds codec r blocks) :
    (fileEntries blocks = [] → readerIter codec r = .ok none) ∧
      (fileEntries blocks ≠ [] → ∃ it, readerIter codec r = .ok (some it) ∧
        Enumerates (readerIterNext codec) it (fileEntries blocks)) := by
  obtain ⟨hempty,hsome⟩ := readerIter_spec h
  refine ⟨fun hnil => hempty (h.ordered.blocks_eq_nil hnil),fun hne => ?_⟩
  obtain ⟨it,hiter,hr,htype,ht⟩ := hsome (fun hnil => hne (by rw [hnil]; rfl))
  exact ⟨it,hiter,Returns.enumerates h ⟨hr,_,ht,selected_iter htype _⟩⟩

end

/-- The file is one that the writer leaves: from some starting offset, with some options, after some
adds. `es` are the entries it accepted. -/
inductive Produced (codec : Codec) : Bytes → List Entry → Prop
  | mk (pre : Bytes) (opt : WriterOptions) (adds : List Entry) (w : Writer) (results : List Bool)
      (file : Bytes) (interval : 1 ≤ opt.blockRestartInterval) (small : ∀ e ∈ adds, e.Small)
      (fits : WriterFits codec (mtblWriterInitFd pre (some opt)) adds)
      (run : writerAdds codec (mtblWriterInitFd pre (some opt)) adds = .ok (w,results))
      (destroy : mtblWriterDestroy codec w = .ok file) :
      Produced codec file (acceptedEntries none adds)

/-- The writer runs through, and the file it leaves is finished. -/
theorem writer_runs_of_takes {codec : Codec} {pre : Bytes} {opt : WriterOptions}
    (hinterval : 1 ≤ opt.blockRestartInterval) {adds : List Entry}
    (htakes : WriterTakes codec (mtblWriterInitFd pre (some opt)) adds)
    (hfits : WriterFits codec (mtblWriterInitFd pre (some opt)) adds) :
    ∃ w file t blocks m ib,
      writerAdds codec (mtblWriterInitFd pre (some opt)) adds = .ok (w,addResults none adds) ∧
      mtblWriterDestroy codec w = .ok file ∧ Finished codec t pre file blocks m ib ∧
      fileEntries blocks = acceptedEntries none adds := by
  obtain ⟨w,blocks,cur,hrun,hw,ha,hlast,hlastTakes⟩ := writerAdds_spec adds
    (Written.init codec pre opt hinterval) Accepted.init htakes hfits
  obtain ⟨file,t,blocks',m,ib,hdestroy,hfin,hentries⟩ :=
    mtblWriterDestroy_spec hw ha hlast hlastTakes
  exact ⟨w,file,t,blocks',m,ib,hrun,hdestroy,hfin,hentries⟩

theorem writer_runs {codec : Codec} {pre : Bytes} {opt : WriterOptions}
    (hinterval : 1 ≤ opt.blockRestartInterval) {adds : List Entry} (hsmall : ∀ e ∈ adds, e.Small)
    (hfits : WriterFits codec (mtblWriterInitFd pre (some opt)) adds) :
    ∃ w file t blocks m ib,
      writerAdds codec (mtblWriterInitFd pre (some opt)) adds = .ok (w,addResults none adds) ∧
      mtblWriterDestroy codec w = .ok file ∧ Finished codec t pre file blocks m ib ∧
      fileEntries blocks = acceptedEntries none adds :=
  writer_runs_of_takes hinterval (writerTakes_of_small (Nat.two_pow_pos 32) hsmall) hfits

theorem exists_produced (codec : Codec) (pre : Bytes) (opt : WriterOptions) (adds : List Entry)
    (hinterval : 1 ≤ opt.blockRestartInterval) (hsmall : ∀ e ∈ adds, e.Small)
    (hfits : WriterFits codec (mtblWriterInitFd pre (some opt)) adds) :
    ∃ file, Produced codec file (acceptedEntries none adds) := by
  obtain ⟨w,file,-,-,-,-,hrun,hdestroy,-,-⟩ := writer_runs hinterval hsmall hfits
  exact ⟨file,.mk pre opt adds w _ file hinterval hsmall hfits hrun hdestroy⟩

theorem Produced.finished {codec : Codec} {file : Bytes} {es : List Entry}
    (h : Produced codec file es) :
    ∃ t pre blocks m ib, Finished codec t pre file blocks m ib ∧ fileEntries blocks = es := by
  cases h with
  | mk pre opt adds w results file interval small fits run destroy =>
    obtain ⟨w',file',t,blocks,m,ib,hrun,hdestroy,hfin,hentries⟩ :=
      writer_runs interval small fits
    obtain ⟨rfl,rfl⟩ := Prod.mk.inj (Except.ok.inj (run.symm.trans hrun))
    obtain rfl := Except.ok.inj (destroy.symm.trans hdestroy)
    exact ⟨t,pre,blocks,m,ib,hfin,hentries⟩

/-- Every reader on a produced file opens and holds its entries. -/
theorem Produced.holds {codec : Codec} {file : Bytes} {es : List Entry}
    (h : Produced codec file es) (ropt : ReaderOptions) :
    ∃ r blocks, mtblReaderInitFd codec file ropt = .ok (some r) ∧ Holds codec r blocks ∧
      fileEntries blocks = es := by
  obtain ⟨t,pre,blocks,m,ib,hfin,hentries⟩ := h.finished
  obtain ⟨r,hopen,hholds⟩ := mtblReaderInitFd_spec hfin ropt
  exact ⟨r,blocks,hopen,hholds,hentries⟩

/-- Written entries come back: in order, each once, then failure for ever. -/
theorem write_read_round_trip (codec : Codec) (pre : Bytes) (opt : WriterOptions)
    (hinterval : 1 ≤ opt.blockRestartInterval) (adds : List Entry) (hsmall : ∀ e ∈ adds, e.Small)
    (hfits : WriterFits codec (mtblWriterInitFd pre (some opt)) adds) (ropt : ReaderOptions) :
    ∃ w file r,
      writerAdds codec (mtblWriterInitFd pre (some opt)) adds = .ok (w,addResults none adds) ∧
      mtblWriterDestroy codec w = .ok file ∧
      mtblReaderInitFd codec file ropt = .ok (some r) ∧
      (acceptedEntries none adds = [] → readerIter codec r = .ok none) ∧
      (acceptedEntries none adds ≠ [] → ∃ it, readerIter codec r = .ok (some it) ∧
        Enumerates (readerIterNext codec) it (acceptedEntries none adds)) := by
  obtain ⟨w,file,t,blocks,m,ib,hrun,hdestroy,hfin,hentries⟩ :=
    writer_runs hinterval hsmall hfits
  obtain ⟨r,hopen,hholds⟩ := mtblReaderInitFd_spec hfin ropt
  rw [← hentries]
  exact ⟨w,file,r,hrun,hdestroy,hopen,readerIter_returns hholds⟩

/-- No compression, the smallest blocks, a restart at every entry. -/
def plainOptions : WriterOptions := ⟨.none,0,1024,1⟩

/-- Two entries and a refused one, behind a reserved byte. -/
theorem write_read_round_trip_two : ∃ w file r it,
    writerAdds storingCodec (mtblWriterInitFd [7] (some plainOptions))
      [⟨[1],[2]⟩,⟨[1],[3]⟩,⟨[1,0],[]⟩] = .ok (w,[true,false,true]) ∧
    mtblWriterDestroy storingCodec w = .ok file ∧
    mtblReaderInitFd storingCodec file ⟨true⟩ = .ok (some r) ∧
    readerIter storingCodec r = .ok (some it) ∧
    Enumerates (readerIterNext storingCodec) it [⟨[1],[2]⟩,⟨[1,0],[]⟩] := by
  obtain ⟨w,file,r,hrun,hdestroy,hopen,-,hsome⟩ := write_read_round_trip storingCodec [7]
    plainOptions (by decide) [⟨[1],[2]⟩,⟨[1],[3]⟩,⟨[1,0],[]⟩] (by decide) (by decide +kernel) ⟨true⟩
  obtain ⟨it,hiter,henum⟩ := hsome (by decide)
  exact ⟨w,file,r,it,hrun,hdestroy,hopen,hiter,henum⟩

end Mtbl
