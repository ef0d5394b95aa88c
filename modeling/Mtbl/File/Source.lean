import Mtbl.File.Query
import Mtbl.File.SeekLaw
import Mtbl.Merge.Iter

/-! A reader as a source. -/
namespace Mtbl
open CRun Cursor

/-- `mtbl_reader_source`. -/
def mtblReaderSource (codec : Codec) (r : Reader) : Source ReaderIter :=
  ⟨readerIter codec r,readerGet codec r,readerGetPrefix codec r,readerGetRange codec r⟩

theorem QueryReturns.gives {codec : Codec} {query : Run (Option ReaderIter)} {es : List Entry}
    (h : QueryReturns codec query es) : Gives (readerOps codec) query es := by
  rcases h with ⟨hnone,rfl⟩ | ⟨it,hsome,henum⟩
  · exact gives_none hnone
  · exact gives_some hsome henum

theorem mtblReaderSource_holds {codec : Codec} {r : Reader} {blocks : List FileBlock}
    (h : Holds codec r blocks) :
    (mtblReaderSource codec r).Holds (readerOps codec) (fileEntries blocks) where
  ascending := h.ordered.ascending
  iter := by
    obtain ⟨hempty,hsome⟩ := readerIter_returns h
    by_cases hnil : fileEntries blocks = []
    · rw [hnil]
      exact gives_none (hempty hnil)
    · obtain ⟨it,hiter,henum⟩ := hsome hnil
      exact gives_some hiter henum
  get k := (readerGet_returns h k).gives
  getPrefix p := (readerGetPrefix_returns h p).gives
  getRange k0 k1 := (readerGetRange_returns h k0 k1).gives

/-- A reader on a produced file is a source of its entries. -/
theorem Produced.source {codec : Codec} {file : Bytes} {es : List Entry}
    (h : Produced codec file es) (ropt : ReaderOptions) :
    ∃ r, mtblReaderInitFd codec file ropt = .ok (some r) ∧
      (mtblReaderSource codec r).Holds (readerOps codec) es := by
  obtain ⟨r,blocks,hopen,hholds,rfl⟩ := h.holds ropt
  exact ⟨r,hopen,mtblReaderSource_holds hholds⟩

/-- A source of given entries, written to a new file with the plain options and opened. -/
theorem exists_source (codec : Codec) (adds : List Entry) (hsmall : ∀ e ∈ adds, e.Small)
    (hfits : WriterFits codec (mtblWriterInitFd [] (some plainOptions)) adds) :
    ∃ file r, Produced codec file (acceptedEntries none adds) ∧
      mtblReaderInitFd codec file ⟨true⟩ = .ok (some r) ∧
      (mtblReaderSource codec r).Holds (readerOps codec) (acceptedEntries none adds) := by
  obtain ⟨file,hproduced⟩ := exists_produced codec [] plainOptions adds (by decide) hsmall hfits
  obtain ⟨r,hopen,hsource⟩ := hproduced.source ⟨true⟩
  exact ⟨file,r,hproduced,hopen,hsource⟩

end Mtbl
