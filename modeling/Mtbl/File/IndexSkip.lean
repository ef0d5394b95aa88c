import Mathlib.Data.List.TakeWhile
import Mtbl.File.SeekLaw

/-! When `reader_iter_seek` leaves the index alone. A stale cache lets the cached block run ahead of the
index cursor, never behind it: the recorded `block_offset` is of no later block than the cached one.
That is what the shortcut needs. -/
namespace Mtbl
open CRun Cursor

/-- Neither the index cursor nor the block at the recorded offset is behind the cached block, unless the
index cursor is at the end. -/
structure Drifts (codec : Codec) (r : Reader) (blocks : List FileBlock) (it : ReaderIter) (j : ℕ) :
    Prop where
  reader : it.r = r
  index : Shows it.indexIter (indexEntries blocks) j
  loaded : it.valid = true → it.b ≠ none ∧ j < blocks.length
  cached : it.b ≠ none → ∃ k b i bi, blocks[k]? = some b ∧ it.bi = some bi ∧
    Shows bi b.entries i ∧ (j ≤ k ∨ j = blocks.length) ∧
    ∀ m c, blocks[m]? = some c → c.offset = it.blockOffset → m ≤ j ∧ m ≤ k

section
variable {codec : Codec} {r : Reader} {blocks : List FileBlock} {it : ReaderIter} {j : ℕ}

theorem Drifts.stop (h : Drifts codec r blocks it j) :
    Drifts codec r blocks { it with valid := false } j where
  reader := h.reader
  index := h.index
  loaded hv := by cases hv
  cached := h.cached

theorem offset_injective (hoffsets : blocks.Pairwise (fun a b => a.offset < b.offset)) {i j : ℕ}
    {a b : FileBlock} (ha : blocks[i]? = some a) (hb : blocks[j]? = some b)
    (hab : a.offset = b.offset) : i = j := by
  obtain ⟨hi,rfl⟩ := List.getElem?_eq_some_iff.mp ha
  obtain ⟨hj,rfl⟩ := List.getElem?_eq_some_iff.mp hb
  have hlt := List.pairwise_iff_getElem.mp hoffsets
  rcases Nat.lt_trichotomy i j with hij | hij | hij
  · exact absurd hab (hlt i j hi hj hij).ne
  · exact hij
  · exact absurd hab (hlt j i hj hi hij).ne'

/-! ### Stepping -/

/-- On to the next block, which is under the index cursor from then on. -/
theorem stepAcross_drifts (h : Holds codec r blocks) (hr : it.r = r) (hj : j < blocks.length)
    (hidx : Shows it.indexIter (indexEntries blocks) j)
    (hrecorded : ∀ m c, blocks[m]? = some c → c.offset = it.blockOffset → m ≤ j) :
    ∃ it' e j', stepAcross codec it = .ok (it',e) ∧
      Drifts codec r blocks { it' with valid := e.isSome } j' := by
  obtain ⟨ii,hnext,hidx'⟩ := hidx.next
  rw [show (indexEntries blocks).length = blocks.length from List.length_map _] at hnext hidx'
  rw [min_eq_left (show j+1 ≤ blocks.length by omega)] at hidx'
  rcases Nat.lt_or_ge (j+1) blocks.length with hlt | hge
  · have hb : blocks[j+1]? = some blocks[j+1] := List.getElem?_eq_getElem hlt
    generalize blocks[j+1] = b at hb
    obtain ⟨B,bi,i,hat,hget,hinit,hshow⟩ := getBlockAtIndex_spec h hidx' hb
    obtain ⟨bi',hfirst,hshow'⟩ := hshow.seekToFirst
    refine ⟨{ it with b := some B, bi := some bi', indexIter := ii, valid := false },
      b.entries.head?,j+1,?_,?_⟩
    · simp [stepAcross,hnext,hlt,enterBlock,hr,hat,hinit,hfirst,hshow'.get,List.head?_eq_getElem?]
    · exact {
        reader := hr
        index := hidx'
        loaded := fun _ => ⟨Option.some_ne_none B,hlt⟩
        cached := fun _ => ⟨j+1,b,0,bi',hb,rfl,hshow',.inl le_rfl,fun m c hc ho => by
          have := hrecorded m c hc ho
          omega⟩ }
  · refine ⟨{ it with b := none, bi := none, indexIter := ii, valid := false },none,j+1,?_,?_⟩
    · simp [stepAcross,hnext,show ¬ j+1 < blocks.length by omega]
    · exact ⟨hr,hidx',fun hv => (by cases hv),fun hne => absurd rfl hne⟩

theorem moveInBlock_shows {bi : BlockIter} {es : List Entry} {i : ℕ} (first : Bool)
    (h : Shows bi es i) : ∃ bi' i', moveInBlock first bi = .ok bi' ∧ Shows bi' es i' := by
  cases first with
  | true => exact ⟨bi,i,rfl,h⟩
  | false =>
    obtain ⟨bi',hrun,hshow⟩ := h.next
    exact ⟨bi',_,by simp [moveInBlock,hrun],hshow⟩

theorem advance_drifts (h : Holds codec r blocks) (hd : Drifts codec r blocks it j)
    (hvalid : it.valid = true) : ∃ it' e j', advance codec it = .ok (it',e) ∧
      Drifts codec r blocks { it' with valid := e.isSome } j' := by
  obtain ⟨hne,hj⟩ := hd.loaded hvalid
  obtain ⟨k,b,i,bi,hb,hbi,hshow,hbehind,hrecorded⟩ := hd.cached hne
  obtain ⟨bi',i',hmove,hshow'⟩ := moveInBlock_shows it.first hshow
  have hstep : stepInBlock it = .ok ({ it with bi := some bi', first := false },b.entries[i']?) := by
    simp [stepInBlock,hbi,hmove,hshow'.get]
  cases he : b.entries[i']? with
  | none =>
    obtain ⟨it',e,j',hacross,hd'⟩ := @stepAcross_drifts codec r blocks
      { it with bi := some bi', first := false } j h hd.reader hj hd.index
      (fun m c hc ho => (hrecorded m c hc ho).1)
    exact ⟨it',e,j',by simp [advance,hstep,he,hacross],hd'⟩
  | some e =>
    refine ⟨{ it with bi := some bi', first := false },some e,j,by simp [advance,hstep,he],?_⟩
    exact ⟨hd.reader,hd.index,fun _ => ⟨hne,hj⟩,
      fun _ => ⟨k,b,i',bi',hb,rfl,hshow',hbehind,hrecorded⟩⟩

theorem readerIterNext_drifts (h : Holds codec r blocks) (hd : Drifts codec r blocks it j) :
    ∃ e it' j', readerIterNext codec it = .ok (e,it') ∧ Drifts codec r blocks it' j' := by
  cases hvalid : it.valid with
  | false => exact ⟨none,it,j,by simp [readerIterNext,hvalid],hd⟩
  | true =>
    obtain ⟨it',e,j',hadv,hd'⟩ := advance_drifts h hd hvalid
    cases e with
    | none =>
      exact ⟨none,{ it' with valid := false },j',by simp [readerIterNext,hvalid,hadv],hd'⟩
    | some e =>
      cases hsel : selects it'.itType it'.k e.key with
      | true =>
        exact ⟨some e,{ it' with valid := true },j',by simp [readerIterNext,hvalid,hadv,hsel],hd'⟩
      | false =>
        exact ⟨none,{ it' with valid := false },j',by simp [readerIterNext,hvalid,hadv,hsel],hd'.stop⟩

/-! ### Seeking -/

theorem Drifts.needsIndexSeek (h : Holds codec r blocks) (hd : Drifts codec r blocks it j)
    (key : Bytes) :
    ∃ needed, Mtbl.needsIndexSeek it key = .ok needed ∧ (needed = false →
      (indexEntries blocks).drop j = seekList Entry.key (indexEntries blocks) key) := by
  apply needsIndexSeek_of_behind h.within hd.index
  intro hne
  obtain ⟨k,b,i,bi,hb,hbi,hshow,hbehind,-⟩ := hd.cached hne
  exact ⟨k,b,i,bi,hb,hbi,hshow,hbehind⟩

/-- The index part of a seek ends where the index seek would, whether or not it is made. -/
theorem Drifts.seekIndex (h : Holds codec r blocks) (hd : Drifts codec r blocks it j) (key : Bytes) :
    ∃ ii j', Mtbl.seekIndex it key = .ok ii ∧ Shows ii (indexEntries blocks) j' ∧
      (indexEntries blocks).drop j' = seekList Entry.key (indexEntries blocks) key := by
  obtain ⟨needed,hneeds,hskip⟩ := hd.needsIndexSeek h key
  unfold Mtbl.seekIndex
  rw [hneeds,ok_bind]
  cases needed with
  | false => exact ⟨it.indexIter,j,rfl,hd.index,hskip rfl⟩
  | true =>
    obtain ⟨ii,j',hseek,hidx',hdrop⟩ := hd.index.seek h.ordered.index_ascending key
    exact ⟨ii,j',hseek,hidx',hdrop⟩

theorem readerIterSeek_drifts (h : Holds codec r blocks)
    (hoffsets : blocks.Pairwise (fun a b => a.offset < b.offset)) (hd : Drifts codec r blocks it j)
    (key : Bytes) :
    ∃ it' j', readerIterSeek codec it key = .ok (true,it') ∧ Drifts codec r blocks it' j' := by
  obtain ⟨ii,j',hseek,hidx,-⟩ := hd.seekIndex h key
  have hoffset := indexOffset_spec h.offset_lt hidx
  have hr := hd.reader
  cases hb : blocks[j']? with
  | none =>
    rw [hb] at hoffset
    have hend : j' = blocks.length := by
      have h1 := List.getElem?_eq_none_iff.mp hb
      have h2 := hidx.le
      rw [indexEntries,List.length_map] at h2
      omega
    refine ⟨{ it with indexIter := ii, valid := false },j',?_,hr,hidx,fun hv => (by cases hv),
      fun hne => ?_⟩
    · simp [readerIterSeek,hseek,hoffset]
    · obtain ⟨k,c,i,bi,hc,hbi,hshow,-,hrecorded⟩ := hd.cached hne
      refine ⟨k,c,i,bi,hc,hbi,hshow,.inr hend,fun m c hc ho => ⟨?_,(hrecorded m c hc ho).2⟩⟩
      have hm := (List.getElem?_eq_some_iff.mp hc).1
      omega
  | some b =>
    rw [hb] at hoffset
    have hj' := (List.getElem?_eq_some_iff.mp hb).1
    have hmem := List.mem_of_getElem? hb
    have hsame : ∀ m c, blocks[m]? = some c → c.offset = b.offset → m = j' :=
      fun m c hc ho => offset_injective hoffsets hc hb ho
    by_cases hload : it.b = none ∨ it.blockOffset ≠ b.offset
    · obtain ⟨B,bi,i,hget,hinit,hshow⟩ := h.load b hmem
      obtain ⟨bi',p,hseekb,hshow',-⟩ := hshow.seek (h.ordered.entries_ascending hmem) key
      refine ⟨⟨it.r,b.offset,some B,some bi',ii,it.k,true,true,it.itType⟩,j',?_,hr,hidx,
        fun _ => ⟨Option.some_ne_none B,hj'⟩,
        fun _ => ⟨j',b,p,bi',hb,rfl,hshow',.inl le_rfl,fun m c hc ho => ?_⟩⟩
      · simp [readerIterSeek,hseek,hoffset,loadBlock,hload,hr,hget,hinit,hseekb]
      · have := hsame m c hc ho
        omega
    · -- the cached block is taken for the one at the recorded offset, and is no earlier
      obtain ⟨hne,hrec⟩ := not_or.mp hload
      rw [not_not] at hrec
      obtain ⟨k,c,i,bi,hc,hbi,hshow,-,hrecorded⟩ := hd.cached hne
      obtain ⟨-,hjk⟩ := hrecorded j' b hb hrec.symm
      obtain ⟨bi',p,hseekb,hshow',-⟩ :=
        hshow.seek (h.ordered.entries_ascending (List.mem_of_getElem? hc)) key
      refine ⟨{ it with indexIter := ii, bi := some bi', first := true, valid := true },j',?_,hr,hidx,
        fun _ => ⟨hne,hj'⟩,fun _ => ⟨k,c,p,bi',hc,rfl,hshow',.inl hjk,fun m a ha ho => ?_⟩⟩
      · simp [readerIterSeek,hseek,hoffset,loadBlock,hload,hbi,hseekb]
      · have := hsame m a ha (ho.trans hrec)
        omega

/-! ### Opening -/

theorem drifts_opened
    (hoffsets : blocks.Pairwise (fun a b => a.offset < b.offset)) {B : Block} {ii bi : BlockIter}
    {b : FileBlock} {i : ℕ} (hidx : Shows ii (indexEntries blocks) j) (hb : blocks[j]? = some b)
    (hshow : Shows bi b.entries i) (k : Bytes) (itType : ReaderIterType) :
    Drifts codec r blocks ⟨r,0,some B,some bi,ii,k,true,true,itType⟩ j where
  reader := rfl
  index := hidx
  loaded := fun _ => ⟨Option.some_ne_none B,(List.getElem?_eq_some_iff.mp hb).1⟩
  cached := fun _ => by
    refine ⟨j,b,i,bi,hb,rfl,hshow,.inl le_rfl,fun m c hc ho => ?_⟩
    -- only the first block can start at offset 0
    have hm : m = 0 := by
      by_contra hpos
      obtain ⟨hmlt,rfl⟩ := List.getElem?_eq_some_iff.mp hc
      have hlt := List.pairwise_iff_getElem.mp hoffsets 0 m (by omega) hmlt (by omega)
      simp only at ho
      omega
    omega

theorem readerIter_drifts (h : Holds codec r blocks)
    (hoffsets : blocks.Pairwise (fun a b => a.offset < b.offset))
    (hiter : readerIter codec r = .ok (some it)) : ∃ j, Drifts codec r blocks it j := by
  obtain ⟨ii,i,hinit,hidx⟩ := h.index
  obtain ⟨ii',hfirst,hidx'⟩ := hidx.seekToFirst
  rcases Nat.eq_zero_or_pos blocks.length with hnil | hpos
  · rw [List.length_eq_zero_iff] at hnil
    subst hnil
    simp [readerIter,hinit,hfirst,getBlockAtIndex_end h hidx'] at hiter
  · have hb : blocks[0]? = some blocks[0] := List.getElem?_eq_getElem hpos
    obtain ⟨B,bi,p,hat,-,hinitb,hshow⟩ := getBlockAtIndex_spec h hidx' hb
    obtain ⟨bi',hfirstb,hshow'⟩ := hshow.seekToFirst
    simp only [readerIter,hinit,hfirst,hat,hinitb,hfirstb,ok_bind,pure_eq_ok,Except.ok.injEq,
      Option.some.injEq] at hiter
    subst hiter
    exact ⟨0,drifts_opened hoffsets hidx' hb hshow' [] .iter⟩

theorem readerIterInit_drifts (h : Holds codec r blocks)
    (hoffsets : blocks.Pairwise (fun a b => a.offset < b.offset)) {key k : Bytes}
    {itType : ReaderIterType} (hiter : readerIterInit codec r key k itType = .ok (some it)) :
    ∃ j, Drifts codec r blocks it j := by
  obtain ⟨ii,i,hinit,hidx⟩ := h.index
  obtain ⟨ii',j,hseek,hidx',-⟩ := hidx.seek h.ordered.index_ascending key
  have hle := hidx'.le
  rw [indexEntries,List.length_map] at hle
  rcases Nat.lt_or_ge j blocks.length with hlt | hge
  · have hb : blocks[j]? = some blocks[j] := List.getElem?_eq_getElem hlt
    have hmem : blocks[j] ∈ blocks := List.getElem_mem hlt
    generalize blocks[j] = b at hb hmem
    obtain ⟨B,bi,p,hat,-,hinitb,hshow⟩ := getBlockAtIndex_spec h hidx' hb
    obtain ⟨bi',q,hseekb,hshow',-⟩ := hshow.seek (h.ordered.entries_ascending hmem) key
    simp only [readerIterInit,hinit,hseek,hat,hinitb,hseekb,ok_bind,pure_eq_ok,Except.ok.injEq,
      Option.some.injEq] at hiter
    subst hiter
    exact ⟨j,drifts_opened hoffsets hidx' hb hshow' k itType⟩
  · obtain rfl : j = blocks.length := le_antisymm hle hge
    simp [readerIterInit,hinit,hseek,getBlockAtIndex_end h hidx'] at hiter

/-- In whatever state any calls leave an iterator. -/
theorem calls_drifts (h : Holds codec r blocks)
    (hoffsets : blocks.Pairwise (fun a b => a.offset < b.offset)) (hd : Drifts codec r blocks it j)
    (calls : List (Call Bytes)) :
    ∃ answers it' j', (readerOps codec).calls it calls = .ok (answers,it') ∧
      Drifts codec r blocks it' j' := by
  obtain ⟨answers,it',hcalls,⟨j',hd'⟩,-⟩ := (readerOps codec).calls_all
    (fun s => ∃ j, Drifts codec r blocks s j) (fun _ => True) (fun _ => True)
    (by
      rintro s (_ | key) ⟨i,hs⟩ -
      · obtain ⟨e,s',i',hnext,hs'⟩ := readerIterNext_drifts h hs
        exact ⟨.ofNext e,s',by simp [Ops.call,readerOps,hnext],⟨i',hs'⟩,trivial⟩
      · obtain ⟨s',i',hseek,hs'⟩ := readerIterSeek_drifts h hoffsets hs key
        exact ⟨.ofSeek true,s',by simp [Ops.call,readerOps,hseek],⟨i',hs'⟩,trivial⟩)
    ⟨j,hd⟩ calls (fun _ _ => trivial)
  exact ⟨answers,it',j',hcalls,hd'⟩

/-- The cursor that a seek leaves is on the first separator at or after the key. -/
theorem Shows.at_first {ii : BlockIter} {es : List Entry} (hshow : Shows ii es j) {key : Bytes}
    (hdrop : es.drop j = seekList Entry.key es key) :
    blockIterGet ii = es.find? (fun e => key ≤ e.key) := by
  rw [hshow.get,← List.head?_drop,hdrop,seekList,List.find?_eq_head?_dropWhile_not]
  apply congrArg (fun p => (es.dropWhile p).head?)
  funext e
  simp [← not_le]

end

/-- The iterators that a reader gives out. -/
def Opens (codec : Codec) (r : Reader) (it : ReaderIter) : Prop :=
  readerIter codec r = .ok (some it) ∨
    ∃ key k itType, readerIterInit codec r key k itType = .ok (some it)

/-- Any calls run through, and in the state they leave the index seek is skipped for a key only if it
would not move the index cursor, which is on the first separator at or after that key. A seek goes to
the same offset with and without the shortcut. -/
theorem index_seek_skipped {codec : Codec} {file : Bytes} {es : List Entry}
    (h : Produced codec file es) {ropt : ReaderOptions} {r : Reader}
    (hopen : mtblReaderInitFd codec file ropt = .ok (some r)) :
    ∃ blocks, Holds codec r blocks ∧ fileEntries blocks = es ∧
      ∀ it, Opens codec r it → ∀ calls, ∃ answers it',
        (readerOps codec).calls it calls = .ok (answers,it') ∧
        ∀ key, ∃ needed ii ii' offset, needsIndexSeek it' key = .ok needed ∧
          blockIterSeek it'.indexIter key = .ok ii ∧ seekIndex it' key = .ok ii' ∧
          indexOffset ii = .ok offset ∧ indexOffset ii' = .ok offset ∧
          blockIterGet ii = (indexEntries blocks).find? (fun e => key ≤ e.key) ∧
          (needed = false → blockIterGet it'.indexIter = blockIterGet ii) := by
  obtain ⟨t,pre,blocks,m,ib,hfin,hentries⟩ := h.finished
  obtain ⟨r',hopen',hholds⟩ := mtblReaderInitFd_spec hfin ropt
  obtain rfl := Option.some.inj (Except.ok.inj (hopen.symm.trans hopen'))
  have hoffsets := hfin.offsets.ascending
  refine ⟨blocks,hholds,hentries,fun it hit calls => ?_⟩
  obtain ⟨j0,hd0⟩ : ∃ j, Drifts codec r blocks it j := by
    rcases hit with hiter | ⟨key,k,itType,hiter⟩
    · exact readerIter_drifts hholds hoffsets hiter
    · exact readerIterInit_drifts hholds hoffsets hiter
  obtain ⟨answers,it',j,hcalls,hd⟩ := calls_drifts hholds hoffsets hd0 calls
  refine ⟨answers,it',hcalls,fun key => ?_⟩
  obtain ⟨needed,hneeds,hskip⟩ := hd.needsIndexSeek hholds key
  obtain ⟨ii,i,hseek,hidx,hdrop⟩ := hd.index.seek hholds.ordered.index_ascending key
  obtain ⟨ii',i',hseek',hidx',hdrop'⟩ := hd.seekIndex hholds key
  have hii' : i' = i := by
    have hlen := congrArg List.length (hdrop'.trans hdrop.symm)
    rw [List.length_drop,List.length_drop] at hlen
    have := hidx.le
    have := hidx'.le
    omega
  subst hii'
  refine ⟨needed,ii,ii',_,hneeds,hseek,hseek',indexOffset_spec hholds.offset_lt hidx,
    indexOffset_spec hholds.offset_lt hidx',hidx.at_first hdrop,fun hf => ?_⟩
  rw [hd.index.at_first (hskip hf),hidx.at_first hdrop]

/-- After a seek back that found a stale cache. -/
theorem index_seek_skipped_stale : ∃ s it',
    openSession storingCodec plainOptions twoBlocks ⟨false⟩ = .ok (some s) ∧
    (readerOps storingCodec).calls s.2.2 seekBack = .ok ([.entry ⟨[97],List.replicate 1010 0⟩,
      .entry ⟨[98],[]⟩,.success,.entry ⟨[98],[]⟩],it') ∧
    ∀ key, needsIndexSeek it' key = .ok false → ∃ ii, blockIterSeek it'.indexIter key = .ok ii ∧
      blockIterGet it'.indexIter = blockIterGet ii := by
  have hsession : session storingCodec plainOptions twoBlocks ⟨false⟩ seekBack =
      .ok (some [.entry ⟨[97],List.replicate 1010 0⟩,.entry ⟨[98],[]⟩,.success,
        .entry ⟨[98],[]⟩]) := by decide +kernel
  obtain ⟨s,it',hopen,hcalls⟩ := session_eq_some hsession
  obtain ⟨hproduced,hinit,hiter⟩ :=
    openSession_eq_some hopen (by decide) (by decide +kernel) (by decide +kernel)
  obtain ⟨blocks,-,-,hsound⟩ := index_seek_skipped hproduced hinit
  obtain ⟨answers,it'',hcalls',hkeys⟩ := hsound s.2.2 (.inl hiter) seekBack
  obtain ⟨-,rfl⟩ := Prod.mk.inj (Except.ok.inj (hcalls.symm.trans hcalls'))
  refine ⟨s,it',hopen,hcalls,fun key hneeds => ?_⟩
  obtain ⟨needed,ii,-,-,hneeds',hseek,-,-,-,-,hskip⟩ := hkeys key
  obtain rfl := Except.ok.inj (hneeds.symm.trans hneeds')
  exact ⟨ii,hseek,hskip rfl⟩

end Mtbl
