import Mtbl.File.ReaderCursor

/-! Opening and seeking a reader iterator. Skipping the index seek is always sound. Keeping the
cached block is sound when the cached block is the one at the recorded `blockOffset`. -/
namespace Mtbl
open CRun Cursor

/-- The offset that a lookup of the key in the index finds, from a new index cursor. -/
def selectedOffset (r : Reader) (key : Bytes) : Run (Option ℕ) := do
  let indexIter ← blockIterInit r.index
  let indexIter ← blockIterSeek indexIter key
  indexOffset indexIter

/-- If a block is cached and the key belongs to the block that starts at the recorded offset, then
the cached block is that one. -/
def CacheCurrent (codec : Codec) (it : ReaderIter) (key : Bytes) : Prop :=
  ∀ B ∈ it.b, selectedOffset it.r key = .ok (some it.blockOffset) →
    getBlock codec it.r it.blockOffset = .ok B

instance (codec : Codec) (it : ReaderIter) (key : Bytes) : Decidable (CacheCurrent codec it key) := by
  unfold CacheCurrent
  infer_instance

section
variable {codec : Codec} {r : Reader} {blocks : List FileBlock} {it : ReaderIter}
  {rem : List Entry} {mayStop : Prop}

theorem Tracks.index (ht : Tracks codec blocks it rem) :
    ∃ j, Shows it.indexIter (indexEntries blocks) j := by
  cases ht with
  | live j i b block caches index valid inside => exact ⟨j,index⟩
  | parked j k i b block caches index valid near => exact ⟨j,index⟩
  | freed j block index valid => exact ⟨j,index⟩

/-- A cached block is a block of the file, under the index cursor unless that is at the end. -/
theorem Tracks.cached (ht : Tracks codec blocks it rem) {B : Block} (hB : it.b = some B) :
    ∃ j k i b, blocks[k]? = some b ∧ Caches codec it b i ∧
      Shows it.indexIter (indexEntries blocks) j ∧ (j = k ∨ j = blocks.length) := by
  cases ht with
  | live j i b block caches index valid inside => exact ⟨j,j,i,b,block,caches,index,.inl rfl⟩
  | parked j k i b block caches index valid near => exact ⟨j,k,i,b,block,caches,index,near⟩
  | freed j block index valid =>
    rw [block] at hB
    cases hB

/-- Where the index seek is skipped, the index cursor is already where the seek would put it. The cached
block need only be no earlier than the one under the index cursor. -/
theorem needsIndexSeek_of_behind (h : HoldsWithin mayStop codec r blocks) {j : ℕ}
    (hidx : Shows it.indexIter (indexEntries blocks) j)
    (hcached : it.b ≠ none → ∃ k b i bi, blocks[k]? = some b ∧ it.bi = some bi ∧
      Shows bi b.entries i ∧ (j ≤ k ∨ j = blocks.length)) (key : Bytes) :
    ∃ needed, needsIndexSeek it key = .ok needed ∧ (needed = false →
      (indexEntries blocks).drop j = seekList Entry.key (indexEntries blocks) key) := by
  unfold needsIndexSeek
  split_ifs with hskip
  · exact ⟨true,rfl,fun hf => by cases hf⟩
  · rw [not_or] at hskip
    obtain ⟨k,b,i,bi,hb,hbi,hcur,hbehind⟩ := hcached hskip.2
    simp only [hbi,hcur.get,hidx.get,bytesCompare_pos,bytesCompare_neg]
    cases he : b.entries[i]? with
    | none => exact ⟨true,rfl,fun hf => by cases hf⟩
    | some e =>
      simp only
      split_ifs with hlt
      · exact ⟨true,rfl,fun hf => by cases hf⟩
      · cases hie : (indexEntries blocks)[j]? with
        | none => exact ⟨true,rfl,fun hf => by cases hf⟩
        | some ie =>
          refine ⟨_,rfl,fun hf => ?_⟩
          have hjlt := (List.getElem?_eq_some_iff.mp hie).1
          have hlen : (indexEntries blocks).length = blocks.length := List.length_map _
          have hjk : j ≤ k := by rcases hbehind with hjk | hend <;> omega
          apply drop_eq_seekList hjlt.le
          · intro q ie' hq hie'
            rw [indexEntries_getElem?] at hie'
            obtain ⟨c,hc,rfl⟩ := Option.map_eq_some_iff.mp hie'
            have hsep := h.ordered.sep_lt_entry hc hb (hq.trans_le hjk) (List.mem_of_getElem? he)
            exact hsep.trans_le (not_lt.mp hlt)
          · intro ie' hie'
            obtain rfl : ie = ie' := Option.some.inj (hie.symm.trans hie')
            simpa using hf

theorem needsIndexSeek_spec (h : HoldsWithin mayStop codec r blocks)
    (ht : Tracks codec blocks it rem) (key : Bytes) :
    ∃ needed, needsIndexSeek it key = .ok needed ∧ (needed = false →
      ∃ j, Shows it.indexIter (indexEntries blocks) j ∧
        (indexEntries blocks).drop j = seekList Entry.key (indexEntries blocks) key) := by
  by_cases hB : it.b = none
  · exact ⟨true,if_pos (.inr hB),fun hf => by cases hf⟩
  · obtain ⟨B,hB⟩ := Option.ne_none_iff_exists'.mp hB
    obtain ⟨j,k,i,b,hb,⟨-,⟨bi,hbi,hcur⟩⟩,hidx,hnear⟩ := ht.cached hB
    obtain ⟨needed,hneeds,hskip⟩ := needsIndexSeek_of_behind h hidx
      (fun _ => ⟨k,b,i,bi,hb,hbi,hcur,hnear.imp le_of_eq id⟩) key
    exact ⟨needed,hneeds,fun hf => ⟨j,hidx,hskip hf⟩⟩

theorem seekIndex_spec (h : HoldsWithin mayStop codec r blocks) (ht : Tracks codec blocks it rem)
    (key : Bytes) :
    ∃ ii j, seekIndex it key = .ok ii ∧ Shows ii (indexEntries blocks) j ∧
      (indexEntries blocks).drop j = seekList Entry.key (indexEntries blocks) key := by
  obtain ⟨needed,hneeds,hskip⟩ := needsIndexSeek_spec h ht key
  unfold seekIndex
  rw [hneeds,ok_bind]
  cases needed with
  | false =>
    obtain ⟨j,hidx,hdrop⟩ := hskip rfl
    exact ⟨it.indexIter,j,rfl,hidx,hdrop⟩
  | true =>
    obtain ⟨j,hidx⟩ := ht.index
    obtain ⟨ii,j',hseek,hidx',hdrop⟩ := hidx.seek h.ordered.index_ascending key
    exact ⟨ii,j',hseek,hidx',hdrop⟩

/-- The lookup from scratch finds the same block as any other. -/
theorem selectedOffset_spec (h : HoldsWithin mayStop codec r blocks) {key : Bytes} {j : ℕ}
    (hdrop : (indexEntries blocks).drop j = seekList Entry.key (indexEntries blocks) key) {b : FileBlock}
    (hb : blocks[j]? = some b) : selectedOffset r key = .ok (some b.offset) := by
  obtain ⟨ii,i,hinit,hidx⟩ := h.index
  obtain ⟨ii',j',hseek,hidx',hdrop'⟩ := hidx.seek h.ordered.index_ascending key
  have hj : j' = j := by
    have hlen := congrArg List.length (hdrop'.trans hdrop.symm)
    rw [List.length_drop,List.length_drop,indexEntries,List.length_map] at hlen
    have hle := hidx'.le
    rw [indexEntries,List.length_map] at hle
    have := (List.getElem?_eq_some_iff.mp hb).1
    omega
  subst hj
  rw [selectedOffset,hinit,ok_bind,hseek,ok_bind,indexOffset_spec h.offset_lt hidx',hb]
  rfl

/-- After loading, the cache holds the block at the offset, whether or not it did before. -/
theorem loadBlock_within (h : HoldsWithin mayStop codec it.r blocks)
    (ht : Tracks codec blocks it rem) {j : ℕ} {b : FileBlock} (hb : blocks[j]? = some b)
    (hcur : ∀ B, it.b = some B → it.blockOffset = b.offset →
      getBlock codec it.r b.offset = .ok B) (indexIter : BlockIter) :
    Within mayStop (loadBlock codec { it with indexIter := indexIter } b.offset) (fun it' => ∃ i,
      Caches codec it' b i ∧ SameQuery it it' ∧ it'.indexIter = indexIter) := by
  have hload := h.load b (List.mem_of_getElem? hb)
  unfold loadBlock
  split_ifs with hneeded
  · rcases hload with ⟨hmay,hstop⟩ | ⟨B,hget,bi,i,hinit,hshow⟩
    · exact .inl ⟨hmay,by simp only [hstop,error_bind]⟩
    · refine .inr ⟨{ it with
        indexIter := indexIter
        blockOffset := b.offset
        b := some B
        bi := some bi },?_,i,⟨⟨B,rfl,hget⟩,⟨bi,rfl,hshow⟩⟩,⟨rfl,rfl,rfl⟩,rfl⟩
      simp only [hget,ok_bind,hinit,pure_eq_ok]
  · rw [not_or,not_not] at hneeded
    obtain ⟨B,hB⟩ := Option.ne_none_iff_exists'.mp hneeded.1
    obtain ⟨-,k,i',c,hc,⟨⟨B',hB',hgetc⟩,⟨bi',hbi',hshow'⟩⟩,-,-⟩ := ht.cached hB
    obtain rfl : B = B' := Option.some.inj (hB.symm.trans hB')
    have hgetb := hcur B hB hneeded.2
    -- the cached block is at the offset, so it has the entries stored there
    obtain ⟨bi,i,hinit,hshow⟩ := hload.of_ok hgetb
    obtain ⟨bi0,i0,hinit0,hshow0⟩ := (h.load c (List.mem_of_getElem? hc)).of_ok hgetc
    obtain rfl : bi = bi0 := Except.ok.inj (hinit.symm.trans hinit0)
    rw [hshow0.unique hshow] at hshow'
    exact .ok ⟨i',⟨⟨B,hB,hgetb⟩,⟨bi',hbi',hshow'⟩⟩,⟨rfl,rfl,rfl⟩,rfl⟩

/-- Whatever happened before, a seek leaves the entries at or after the key, provided that the
cached block is the one at the recorded offset if the key belongs there. -/
theorem readerIterSeek_within (h : HoldsWithin mayStop codec it.r blocks)
    (ht : Tracks codec blocks it rem) (key : Bytes) (hcur : CacheCurrent codec it key) :
    Within mayStop (readerIterSeek codec it key) (fun p => p.1 = true ∧ SameQuery it p.2 ∧
      Tracks codec blocks p.2 (seekList Entry.key (fileEntries blocks) key)) := by
  obtain ⟨ii,j,hseek,hidx,hdrop⟩ := seekIndex_spec h ht key
  have hoffset := indexOffset_spec h.offset_lt hidx
  rw [h.ordered.seek hdrop]
  cases hb : blocks[j]? with
  | none =>
    rw [hb] at hoffset
    refine .inr ⟨(true,{ it with indexIter := ii, valid := false }),?_,rfl,⟨rfl,rfl,rfl⟩,?_⟩
    · simp [readerIterSeek,hseek,hoffset]
    · have hend : j = blocks.length := by
        have h1 := List.getElem?_eq_none_iff.mp hb
        have h2 := hidx.le
        rw [indexEntries,List.length_map] at h2
        omega
      rcases Option.eq_none_or_eq_some it.b with hB | ⟨B,hB⟩
      · exact .freed j hB hidx rfl
      · obtain ⟨-,k,i,c,hc,hcaches,-,-⟩ := ht.cached hB
        exact .parked j k i c hc (hcaches.fields rfl rfl rfl) hidx rfl (.inr hend)
  | some b =>
    rw [hb] at hoffset
    have hselected := selectedOffset_spec h hdrop hb
    have hloads := loadBlock_within h ht hb (by
      intro B hB ho
      have hg := hcur B hB (by rw [hselected,ho])
      rwa [ho] at hg) ii
    rw [readerIterSeek,hseek,ok_bind]
    simp only [hoffset,ok_bind,Option.map_some]
    apply hloads.bind
    rintro it1 ⟨i,⟨hblock,⟨bi,hbi,hshow⟩⟩,hsame,hii⟩
    obtain ⟨bi',p,hseekb,hshow',hp⟩ :=
      hshow.seek (h.ordered.entries_ascending (List.mem_of_getElem? hb)) key
    refine .inr ⟨(true,{ it1 with bi := some bi', first := true, valid := true }),?_,rfl,
      ⟨hsame.r,hsame.itType,hsame.k⟩,?_⟩
    · simp [hbi,hseekb]
    · simp only [← hp]
      exact .live j p b hb ⟨hblock,⟨bi',rfl,hshow'⟩⟩ (by rw [← hii] at hidx; exact hidx) rfl
        (fun hf => by cases hf)

theorem readerIterSeek_spec (h : Holds codec r blocks) (hr : it.r = r)
    (ht : Tracks codec blocks it rem) (key : Bytes) (hcur : CacheCurrent codec it key) :
    ∃ it', readerIterSeek codec it key = .ok (true,it') ∧ SameQuery it it' ∧
      Tracks codec blocks it' (seekList Entry.key (fileEntries blocks) key) := by
  obtain ⟨⟨ok,it'⟩,hseek,rfl,hsame,ht'⟩ :=
    within_false.mp (readerIterSeek_within (hr ▸ h.within) ht key hcur)
  exact ⟨it',hseek,hsame,ht'⟩

/-! ### Opening -/

/-- A new iterator over a file with entries is before the first of them. -/
theorem readerIter_within (h : HoldsWithin mayStop codec r blocks) (hne : blocks ≠ []) :
    Within mayStop (readerIter codec r) (fun c => ∃ it, c = some it ∧ it.r = r ∧
      it.itType = .iter ∧ Tracks codec blocks it (fileEntries blocks)) := by
  obtain ⟨ii,i,hinit,hidx⟩ := h.index
  obtain ⟨ii',hfirst,hidx'⟩ := hidx.seekToFirst
  have hpos : 0 < blocks.length := List.length_pos_iff.mpr hne
  have hb : blocks[0]? = some blocks[0] := List.getElem?_eq_getElem hpos
  generalize blocks[0] = b at hb
  rw [readerIter,hinit,ok_bind,hfirst,ok_bind]
  apply (getBlockAtIndex_within h hidx' hb).bind
  rintro c ⟨B,bi,p,rfl,hget,hinitb,hshow⟩
  obtain ⟨bi',hfirstb,hshow'⟩ := hshow.seekToFirst
  refine .inr ⟨some ⟨r,0,some B,some bi',ii',[],true,true,.iter⟩,?_,_,rfl,rfl,rfl,?_⟩
  · simp [hinitb,hfirstb]
  · have hdrop := fileEntries_drop hb
    rw [List.drop_zero] at hdrop
    rw [hdrop]
    exact .live 0 0 b hb ⟨⟨B,rfl,hget⟩,⟨bi',rfl,hshow'⟩⟩ hidx' rfl (fun hf => by cases hf)

theorem readerIter_spec (h : Holds codec r blocks) :
    (blocks = [] → readerIter codec r = .ok none) ∧
    (blocks ≠ [] → ∃ it, readerIter codec r = .ok (some it) ∧ it.r = r ∧ it.itType = .iter ∧
      Tracks codec blocks it (fileEntries blocks)) := by
  constructor
  · rintro rfl
    obtain ⟨ii,i,hinit,hidx⟩ := h.index
    obtain ⟨ii',hfirst,hidx'⟩ := hidx.seekToFirst
    simp [readerIter,hinit,hfirst,getBlockAtIndex_end h hidx']
  · intro hne
    obtain ⟨-,hiter,it,rfl,hit⟩ := within_false.mp (readerIter_within h.within hne)
    exact ⟨it,hiter,hit⟩

/-- A query starts at the first key at or after its key; without one there is no iterator. -/
theorem readerIterInit_spec (h : Holds codec r blocks) (key k : Bytes)
    (itType : ReaderIterType) :
    (readerIterInit codec r key k itType = .ok none ∧
      seekList Entry.key (fileEntries blocks) key = []) ∨
    (∃ it, readerIterInit codec r key k itType = .ok (some it) ∧ it.r = r ∧
      it.itType = itType ∧ it.k = k ∧
      Tracks codec blocks it (seekList Entry.key (fileEntries blocks) key)) := by
  obtain ⟨ii,i,hinit,hidx⟩ := h.index
  obtain ⟨ii',j,hseek,hidx',hdrop⟩ := hidx.seek h.ordered.index_ascending key
  rw [h.ordered.seek hdrop]
  cases hb : blocks[j]? with
  | none =>
    left
    have hend : j = blocks.length := by
      have h1 := List.getElem?_eq_none_iff.mp hb
      have h2 := hidx'.le
      rw [indexEntries,List.length_map] at h2
      omega
    rw [hend] at hidx'
    exact ⟨by simp [readerIterInit,hinit,hseek,getBlockAtIndex_end h hidx'],rfl⟩
  | some b =>
    right
    obtain ⟨B,bi,p,hat,hget,hinitb,hshow⟩ := getBlockAtIndex_spec h hidx' hb
    obtain ⟨bi',q,hseekb,hshow',hq⟩ :=
      hshow.seek (h.ordered.entries_ascending (List.mem_of_getElem? hb)) key
    refine ⟨⟨r,0,some B,some bi',ii',k,true,true,itType⟩,?_,rfl,rfl,rfl,?_⟩
    · simp [readerIterInit,hinit,hseek,hat,hinitb,hseekb]
    · simp only [← hq]
      exact .live j q b hb ⟨⟨B,rfl,hget⟩,⟨bi',rfl,hshow'⟩⟩ hidx' rfl (fun hf => by cases hf)

end

end Mtbl
