import Mtbl.File.RoundTrip

/-! Seeking a full iterator. The iterator follows the plain cursor as long as no seek finds a stale
cache. `reader_iter_next` steps into the next block without recording its offset, so a seek back to
the block at the recorded offset takes the cached block for it. -/
namespace Mtbl
open CRun Cursor

def readerOps (codec : Codec) : Ops ReaderIter Entry Bytes where
  next := readerIterNext codec
  seek := readerIterSeek codec

/-- The condition on the state before a call: a seek that keeps the cached block keeps the right
one. -/
def keepsCurrent (codec : Codec) (it : ReaderIter) : Call Bytes → Prop
  | .next => True
  | .seek key => CacheCurrent codec it key

instance (codec : Codec) (it : ReaderIter) : ∀ c, Decidable (keepsCurrent codec it c)
  | .next => isTrue trivial
  | .seek key => inferInstanceAs (Decidable (CacheCurrent codec it key))

/-- A full iterator follows the plain cursor over the file's entries. -/
theorem readerOps_refines {codec : Codec} {r : Reader} {blocks : List FileBlock}
    (h : Holds codec r blocks) :
    Refines Entry.key (fileEntries blocks) (readerOps codec) (keepsCurrent codec)
      (fun it rem => it.r = r ∧ it.itType = .iter ∧ Tracks codec blocks it rem) where
  next := by
    rintro it rem ⟨hr,htype,ht⟩ -
    obtain ⟨it',rem',hnext,hsame,ht',hrest⟩ := readerIterNext_spec h hr ht
    rw [selected_iter htype] at hnext hrest
    rw [selected_iter htype] at hrest
    exact ⟨it',hnext,hsame.r.trans hr,hsame.itType.trans htype,hrest ▸ ht'⟩
  seek := by
    rintro it rem key ⟨hr,htype,ht⟩ hcur
    obtain ⟨it',hseek,hsame,ht'⟩ := readerIterSeek_spec h hr ht key hcur
    exact ⟨it',hseek,hsame.r.trans hr,hsame.itType.trans htype,ht'⟩

/-- In every run of a full iterator whose seeks all meet the condition, each answer is that of the
plain cursor: after a seek the entries at or after its key, in order, each once, then failure. -/
theorem reader_seek_law {codec : Codec} {file : Bytes} {es : List Entry}
    (h : Produced codec file es) {ropt : ReaderOptions} {r : Reader}
    (hopen : mtblReaderInitFd codec file ropt = .ok (some r)) {it : ReaderIter}
    (hiter : readerIter codec r = .ok (some it)) (calls : List (Call Bytes))
    (hkeeps : (readerOps codec).Guarded (keepsCurrent codec) it calls) :
    ∃ it', (readerOps codec).calls it calls = .ok ((plainCalls Entry.key es es calls).1,it') := by
  obtain ⟨r',blocks,hopen',hholds,rfl⟩ := h.holds ropt
  obtain rfl := Option.some.inj (Except.ok.inj (hopen.symm.trans hopen'))
  obtain ⟨hempty,hsome⟩ := readerIter_spec hholds
  have hne : blocks ≠ [] := by
    intro hnil
    rw [hempty hnil] at hiter
    cases hiter
  obtain ⟨it0,hiter0,hr,htype,ht⟩ := hsome hne
  obtain rfl := Option.some.inj (Except.ok.inj (hiter.symm.trans hiter0))
  obtain ⟨it',hcalls,-⟩ := (readerOps_refines hholds).calls ⟨hr,htype,ht⟩ calls hkeeps
  exact ⟨it',hcalls⟩

/-! ### Runs on given adds -/

/-- Writes the adds to a new file, opens it and makes a full iterator. -/
def openSession (codec : Codec) (opt : WriterOptions) (adds : List Entry) (ropt : ReaderOptions) :
    Run (Option (Bytes × Reader × ReaderIter)) := do
  let (w,_) ← writerAdds codec (mtblWriterInitFd [] (some opt)) adds
  let file ← mtblWriterDestroy codec w
  match ← mtblReaderInitFd codec file ropt with
  | none => return none
  | some r =>
    let it ← readerIter codec r
    return it.map (fun it => (file,r,it))

/-- What the calls answer in such a session. -/
def session (codec : Codec) (opt : WriterOptions) (adds : List Entry) (ropt : ReaderOptions)
    (calls : List (Call Bytes)) : Run (Option (List (Answer Entry))) := do
  match ← openSession codec opt adds ropt with
  | none => return none
  | some (_,_,it) =>
    let (answers,_) ← (readerOps codec).calls it calls
    return some answers

/-- A session that opens reads a produced file. -/
theorem openSession_eq_some {codec : Codec} {opt : WriterOptions} {adds : List Entry}
    {ropt : ReaderOptions} {s : Bytes × Reader × ReaderIter}
    (hopen : openSession codec opt adds ropt = .ok (some s))
    (hinterval : 1 ≤ opt.blockRestartInterval) (hsmall : ∀ e ∈ adds, e.Small)
    (hfits : WriterFits codec (mtblWriterInitFd [] (some opt)) adds) :
    Produced codec s.1 (acceptedEntries none adds) ∧
      mtblReaderInitFd codec s.1 ropt = .ok (some s.2.1) ∧
      readerIter codec s.2.1 = .ok (some s.2.2) := by
  obtain ⟨⟨w,res⟩,hrun,hopen⟩ := bind_eq_ok.mp hopen
  obtain ⟨file,hdestroy,hopen⟩ := bind_eq_ok.mp hopen
  obtain ⟨ropen,hinit,hopen⟩ := bind_eq_ok.mp hopen
  cases ropen with
  | none => cases hopen
  | some r =>
    obtain ⟨rit,hiter,hopen⟩ := bind_eq_ok.mp hopen
    obtain ⟨it,rfl,rfl⟩ := Option.map_eq_some_iff.mp (Except.ok.inj hopen)
    exact ⟨.mk [] opt adds w res file hinterval hsmall hfits hrun hdestroy,hinit,hiter⟩

theorem session_eq_some {codec : Codec} {opt : WriterOptions} {adds : List Entry}
    {ropt : ReaderOptions} {calls : List (Call Bytes)} {answers : List (Answer Entry)}
    (hsession : session codec opt adds ropt calls = .ok (some answers)) :
    ∃ s it', openSession codec opt adds ropt = .ok (some s) ∧
      (readerOps codec).calls s.2.2 calls = .ok (answers,it') := by
  obtain ⟨sopen,hopen,hsession⟩ := bind_eq_ok.mp hsession
  cases sopen with
  | none => cases hsession
  | some s =>
    obtain ⟨⟨as,it'⟩,hcalls,hsession⟩ := bind_eq_ok.mp hsession
    obtain rfl := Option.some.inj (Except.ok.inj hsession)
    exact ⟨s,it',hopen,hcalls⟩

/-- A first block with the key `a` alone, and a second with the key `b`. -/
def twoBlocks : List Entry := [⟨[97],List.replicate 1010 0⟩,⟨[98],[]⟩]

/-- From the second block back to the first. -/
def seekBack : List (Call Bytes) := [.next,.next,.seek [97],.next]

/-- After the seek back to `a` the iterator returns `b`. -/
theorem reader_seek_law_fails :
    ¬ ∀ (codec : Codec) (file : Bytes) (es : List Entry) (ropt : ReaderOptions) (r : Reader)
      (it : ReaderIter) (calls : List (Call Bytes)), Produced codec file es →
      mtblReaderInitFd codec file ropt = .ok (some r) → readerIter codec r = .ok (some it) →
      ∃ it', (readerOps codec).calls it calls =
        .ok ((plainCalls Entry.key es es calls).1,it') := by
  intro hlaw
  have hsession : session storingCodec plainOptions twoBlocks ⟨false⟩ seekBack =
      .ok (some [.entry ⟨[97],List.replicate 1010 0⟩,.entry ⟨[98],[]⟩,.success,
        .entry ⟨[98],[]⟩]) := by decide +kernel
  obtain ⟨s,it',hopen,hcalls⟩ := session_eq_some hsession
  obtain ⟨hproduced,hinit,hiter⟩ :=
    openSession_eq_some hopen (by decide) (by decide +kernel) (by decide +kernel)
  obtain ⟨it'',hplain⟩ := hlaw _ _ _ _ _ _ seekBack hproduced hinit hiter
  have hanswers := (Prod.mk.inj (Except.ok.inj (hcalls.symm.trans hplain))).1
  exact absurd hanswers (by decide +kernel)

/-- From the second block back within it and on to the end. -/
theorem reader_seek_law_forward : ∃ s it',
    openSession storingCodec plainOptions twoBlocks ⟨false⟩ = .ok (some s) ∧
    (readerOps storingCodec).calls s.2.2 [.next,.next,.seek [98],.next,.seek [99],.next] =
      .ok ([.entry ⟨[97],List.replicate 1010 0⟩,.entry ⟨[98],[]⟩,.success,.entry ⟨[98],[]⟩,
        .success,.failure],it') := by
  have hkeeps : ∀ o, openSession storingCodec plainOptions twoBlocks ⟨false⟩ = .ok o → ∀ s ∈ o,
      (readerOps storingCodec).Guarded (keepsCurrent storingCodec) s.2.2
        [.next,.next,.seek [98],.next,.seek [99],.next] := by decide +kernel
  have hopens : (session storingCodec plainOptions twoBlocks ⟨false⟩ []) = .ok (some []) := by
    decide +kernel
  obtain ⟨s,-,hopen,-⟩ := session_eq_some hopens
  obtain ⟨hproduced,hinit,hiter⟩ :=
    openSession_eq_some hopen (by decide) (by decide +kernel) (by decide +kernel)
  obtain ⟨it',hcalls⟩ := reader_seek_law hproduced hinit hiter
    [.next,.next,.seek [98],.next,.seek [99],.next] (hkeeps _ hopen s rfl)
  refine ⟨s,it',hopen,?_⟩
  rw [hcalls]
  congr 2

end Mtbl
