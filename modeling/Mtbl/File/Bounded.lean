import Mtbl.File.Query
import Mtbl.File.SeekLaw

/-! Iterators with a selection under seeks. Between two seeks an iterator returns only entries at or
after the last target, even where a stale cache makes it skip some of them. An entry is returned
only if it passes the check of its query, which for a range looks at the upper end alone. -/
namespace Mtbl
open CRun Cursor

/-- Whatever block is cached, what the iterator still returns is at or after `t`. -/
structure ComesAfter (codec : Codec) (r : Reader) (blocks : List FileBlock) (t : Bytes)
    (it : ReaderIter) : Prop where
  reader : it.r = r
  index : ∃ j, Shows it.indexIter (indexEntries blocks) j ∧
    ∀ e ∈ fileEntries (blocks.drop (j+1)), t ≤ e.key
  cached : it.b ≠ none → ∃ b ∈ blocks, ∃ i, (∃ bi, it.bi = some bi ∧ Shows bi b.entries i) ∧
    (it.valid = true → ∀ e ∈ b.entries.drop i, t ≤ e.key)
  loaded : it.valid = true → it.b ≠ none

section
variable {codec : Codec} {r : Reader} {blocks : List FileBlock} {t : Bytes} {it : ReaderIter}

/-- Stopping on an entry that is not selected keeps the place. -/
theorem ComesAfter.stop (h : ComesAfter codec r blocks t it) :
    ComesAfter codec r blocks t { it with valid := false } where
  reader := h.reader
  index := h.index
  cached hb := by
    obtain ⟨b,hmem,i,hbi,-⟩ := h.cached hb
    exact ⟨b,hmem,i,hbi,fun hv => by cases hv⟩
  loaded hv := by cases hv

theorem mem_fileEntries {b : FileBlock} {e : Entry} (hb : b ∈ blocks) (he : e ∈ b.entries) :
    e ∈ fileEntries blocks := List.mem_flatMap.mpr ⟨b,hb,he⟩

theorem enterBlock_after (h : Holds codec r blocks) (hr : it.r = r) {j : ℕ} {b : FileBlock}
    (hb : blocks[j]? = some b) (hidx : Shows it.indexIter (indexEntries blocks) j)
    (hafter : ∀ e ∈ fileEntries (blocks.drop j), t ≤ e.key) :
    ∃ it', enterBlock codec it = .ok (it',b.entries.head?) ∧ SameQuery it it' ∧
      ComesAfter codec r blocks t { it' with valid := true } := by
  obtain ⟨B,bi,i,hat,hget,hinit,hshow⟩ := getBlockAtIndex_spec h hidx hb
  obtain ⟨bi',hseek,hshow'⟩ := hshow.seekToFirst
  rw [fileEntries_drop hb] at hafter
  refine ⟨{ it with b := some B, bi := some bi' },?_,⟨rfl,rfl,rfl⟩,?_⟩
  · simp [enterBlock,hr,hat,hinit,hseek,hshow'.get,List.head?_eq_getElem?]
  · constructor
    · exact hr
    · exact ⟨j,hidx,fun e he => hafter e (List.mem_append_right _ he)⟩
    · intro _
      refine ⟨b,List.mem_of_getElem? hb,0,⟨bi',rfl,hshow'⟩,fun _ e he => ?_⟩
      exact hafter e (List.mem_append_left _ he)
    · simp

theorem stepAcross_after (h : Holds codec r blocks) (hw : ComesAfter codec r blocks t it) :
    ∃ it' e, stepAcross codec it = .ok (it',e) ∧ SameQuery it it' ∧
      ComesAfter codec r blocks t { it' with valid := e.isSome } ∧
      ∀ x ∈ e, x ∈ fileEntries blocks ∧ t ≤ x.key := by
  obtain ⟨j,hidx,hafter⟩ := hw.index
  obtain ⟨ii,hnext,hidx'⟩ := hidx.next
  rw [show (indexEntries blocks).length = blocks.length from List.length_map _] at hnext hidx'
  rcases Nat.lt_or_ge (j+1) blocks.length with hlt | hge
  · rw [min_eq_left hlt.le] at hidx'
    have hb : blocks[j+1]? = some blocks[j+1] := List.getElem?_eq_getElem hlt
    generalize blocks[j+1] = b at hb
    have hmem := List.mem_of_getElem? hb
    obtain ⟨it',henter,hsame,hw'⟩ := @enterBlock_after _ _ _ _
      { it with b := none, bi := none, indexIter := ii, valid := false } h hw.reader _ _ hb
      hidx' hafter
    rw [fileEntries_drop hb] at hafter
    obtain ⟨e,es,hes⟩ := List.exists_cons_of_ne_nil (h.ordered.nonempty b hmem)
    refine ⟨it',some e,?_,⟨hsame.r,hsame.itType,hsame.k⟩,hw',?_⟩
    · rw [hes,List.head?_cons] at henter
      simp [stepAcross,hnext,hlt,henter]
    · intro x hx
      obtain rfl := Option.some.inj hx
      have hin : e ∈ b.entries := by rw [hes]; exact List.mem_cons_self
      exact ⟨mem_fileEntries hmem hin,hafter e (List.mem_append_left _ hin)⟩
  · refine ⟨{ it with b := none, bi := none, indexIter := ii, valid := false },none,?_,⟨rfl,rfl,rfl⟩,
      ⟨hw.reader,⟨_,hidx',?_⟩,fun hb => absurd rfl hb,fun hv => by cases hv⟩,
      fun x hx => by cases hx⟩
    · simp [stepAcross,hnext,show ¬ j+1 < blocks.length by omega]
    · rw [min_eq_right hge,List.drop_eq_nil_of_le (by omega)]
      exact fun e he => by cases he

theorem moveInBlock_after {bi : BlockIter} {es : List Entry} {i : ℕ} (first : Bool)
    (h : Shows bi es i) (hafter : ∀ e ∈ es.drop i, t ≤ e.key) :
    ∃ bi' i', moveInBlock first bi = .ok bi' ∧ Shows bi' es i' ∧ ∀ e ∈ es.drop i', t ≤ e.key := by
  cases first with
  | true => exact ⟨bi,i,rfl,h,hafter⟩
  | false =>
    obtain ⟨bi',hrun,hshow⟩ := h.next
    refine ⟨bi',_,by simp [moveInBlock,hrun],hshow,fun e he => hafter e ?_⟩
    have hle : i ≤ min (i+1) es.length := le_min (Nat.le_succ i) h.le
    exact (List.drop_subset_drop_left es hle) he

theorem advance_after (h : Holds codec r blocks) (hw : ComesAfter codec r blocks t it)
    (hvalid : it.valid = true) :
    ∃ it' e, advance codec it = .ok (it',e) ∧ SameQuery it it' ∧
      ComesAfter codec r blocks t { it' with valid := e.isSome } ∧
      ∀ x ∈ e, x ∈ fileEntries blocks ∧ t ≤ x.key := by
  obtain ⟨b,hmem,i,⟨bi,hbi,hshow⟩,hafter⟩ := hw.cached (hw.loaded hvalid)
  obtain ⟨bi',i',hmove,hshow',hafter'⟩ := moveInBlock_after it.first hshow (hafter hvalid)
  have hstep : stepInBlock it = .ok ({ it with bi := some bi', first := false },b.entries[i']?) := by
    simp [stepInBlock,hbi,hmove,hshow'.get]
  cases he : b.entries[i']? with
  | none =>
    obtain ⟨it',e,hacross,hsame,hw',he'⟩ := @stepAcross_after _ _ _ _
      { it with bi := some bi', first := false } h ⟨hw.reader,hw.index,
        fun _ => ⟨b,hmem,i',⟨bi',rfl,hshow'⟩,fun _ => hafter'⟩,hw.loaded⟩
    exact ⟨it',e,by simp [advance,hstep,he,hacross],⟨hsame.r,hsame.itType,hsame.k⟩,hw',he'⟩
  | some e =>
    refine ⟨{ it with bi := some bi', first := false },some e,by simp [advance,hstep,he],
      ⟨rfl,rfl,rfl⟩,⟨hw.reader,hw.index,
        fun _ => ⟨b,hmem,i',⟨bi',rfl,hshow'⟩,fun _ => hafter'⟩,fun _ => hw.loaded hvalid⟩,?_⟩
    intro x hx
    obtain rfl := Option.some.inj hx
    refine ⟨mem_fileEntries hmem (List.mem_of_getElem? he),hafter' e ?_⟩
    have hhead : (b.entries.drop i')[0]? = some e := by rw [List.getElem?_drop,Nat.add_zero,he]
    exact List.mem_of_getElem? hhead

theorem readerIterNext_after (h : Holds codec r blocks) (hw : ComesAfter codec r blocks t it) :
    ∃ e it', readerIterNext codec it = .ok (e,it') ∧ SameQuery it it' ∧
      ComesAfter codec r blocks t it' ∧ ∀ x ∈ e, x ∈ fileEntries blocks ∧ t ≤ x.key ∧
        selects it.itType it.k x.key = true := by
  by_cases hvalid : it.valid = true
  · obtain ⟨it',e,hadv,hsame,hw',he⟩ := advance_after h hw hvalid
    cases e with
    | none =>
      refine ⟨none,{ it' with valid := false },?_,⟨hsame.r,hsame.itType,hsame.k⟩,hw',
        fun x hx => by cases hx⟩
      simp [readerIterNext,hvalid,hadv]
    | some e =>
      obtain ⟨hmem,hle⟩ := he e rfl
      cases hsel : selects it.itType it.k e.key with
      | true =>
        refine ⟨some e,{ it' with valid := true },?_,⟨hsame.r,hsame.itType,hsame.k⟩,hw',?_⟩
        · simp [readerIterNext,hvalid,hadv,hsame.itType,hsame.k,hsel]
        · intro x hx
          obtain rfl := Option.some.inj hx
          exact ⟨hmem,hle,hsel⟩
      | false =>
        refine ⟨none,{ it' with valid := false },?_,⟨hsame.r,hsame.itType,hsame.k⟩,hw'.stop,
          fun x hx => by cases hx⟩
        simp [readerIterNext,hvalid,hadv,hsame.itType,hsame.k,hsel]
  · have hfalse : it.valid = false := by simpa using hvalid
    exact ⟨none,it,by simp [readerIterNext,hfalse],⟨rfl,rfl,rfl⟩,hw,fun x hx => by cases hx⟩

/-- Wherever the index cursor is left, the blocks behind it come after the target. -/
theorem Ordered.after_index (h : Ordered blocks) {key : Bytes} {j : ℕ}
    (hat : ∀ b, blocks[j]? = some b → key ≤ b.sep) :
    ∀ e ∈ fileEntries (blocks.drop (j+1)), key ≤ e.key := by
  intro e he
  obtain ⟨c,hc,he⟩ := List.mem_flatMap.mp he
  obtain ⟨k,hk⟩ := List.getElem?_of_mem hc
  rw [List.getElem?_drop] at hk
  have hlt := (List.getElem?_eq_some_iff.mp hk).1
  have hb : blocks[j]? = some blocks[j] := List.getElem?_eq_getElem (by omega)
  exact (hat _ hb).trans (h.sep_lt_entry hb hk (by omega) he).le

theorem needsIndexSeek_after (hw : ComesAfter codec r blocks t it) (key : Bytes) :
    ∃ needed, needsIndexSeek it key = .ok needed ∧ (needed = false →
      ∃ j, Shows it.indexIter (indexEntries blocks) j ∧ ∀ b, blocks[j]? = some b → key ≤ b.sep) := by
  unfold needsIndexSeek
  split_ifs with hskip
  · exact ⟨true,rfl,fun hf => by cases hf⟩
  · rw [not_or] at hskip
    obtain ⟨b,-,i,⟨bi,hbi,hcur⟩,-⟩ := hw.cached hskip.2
    obtain ⟨j,hidx,-⟩ := hw.index
    simp only [hbi,hcur.get,hidx.get,bytesCompare_pos,bytesCompare_neg]
    cases he : b.entries[i]? with
    | none => exact ⟨true,rfl,fun hf => by cases hf⟩
    | some e =>
      simp only
      split_ifs with hlt
      · exact ⟨true,rfl,fun hf => by cases hf⟩
      · cases hie : (indexEntries blocks)[j]? with
        | none => exact ⟨true,rfl,fun hf => by cases hf⟩
        | some ie =>
          refine ⟨_,rfl,fun hf => ⟨j,hidx,fun c hc => ?_⟩⟩
          rw [indexEntries_getElem?,hc,Option.map_some] at hie
          obtain rfl := Option.some.inj hie
          exact not_lt.mp (of_decide_eq_false hf)

theorem seekIndex_after (h : Holds codec r blocks) (hw : ComesAfter codec r blocks t it)
    (key : Bytes) :
    ∃ ii j, seekIndex it key = .ok ii ∧ Shows ii (indexEntries blocks) j ∧
      ∀ b, blocks[j]? = some b → key ≤ b.sep := by
  obtain ⟨needed,hneeds,hskip⟩ := needsIndexSeek_after hw key
  unfold seekIndex
  rw [hneeds,ok_bind]
  cases needed with
  | false =>
    obtain ⟨j,hidx,hat⟩ := hskip rfl
    exact ⟨it.indexIter,j,rfl,hidx,hat⟩
  | true =>
    obtain ⟨j,hidx,-⟩ := hw.index
    obtain ⟨ii,j',hseek,hidx',hdrop⟩ := hidx.seek h.ordered.index_ascending key
    refine ⟨ii,j',hseek,hidx',fun b hb => ?_⟩
    exact seekList_head hdrop (e := b.indexEntry)
      (by rw [indexEntries_getElem?,hb,Option.map_some])

/-- The block that is searched is some block of the file. -/
theorem loadBlock_after (h : Holds codec r blocks) (hw : ComesAfter codec r blocks t it)
    {b : FileBlock} (hb : b ∈ blocks) (indexIter : BlockIter) :
    ∃ it' c bi i, loadBlock codec { it with indexIter := indexIter } b.offset = .ok it' ∧
      SameQuery it it' ∧ it'.indexIter = indexIter ∧ c ∈ blocks ∧ it'.b ≠ none ∧
      it'.bi = some bi ∧ Shows bi c.entries i := by
  obtain ⟨B,bi,i,hget,hinit,hshow⟩ := h.load b hb
  unfold loadBlock
  split_ifs with hload
  · refine ⟨{ it with indexIter := indexIter, blockOffset := b.offset, b := some B, bi := some bi },
      b,bi,i,?_,⟨rfl,rfl,rfl⟩,rfl,hb,by simp,rfl,hshow⟩
    simp only [hw.reader,hget,ok_bind,hinit,pure_eq_ok]
  · rw [not_or] at hload
    obtain ⟨c,hc,k,⟨bi',hbi',hshow'⟩,-⟩ := hw.cached hload.1
    exact ⟨{ it with indexIter := indexIter },c,bi',k,rfl,⟨rfl,rfl,rfl⟩,rfl,hc,hload.1,hbi',hshow'⟩

theorem seekList_le {es : List Entry} (hsort : Ascending es) {key : Bytes} {e : Entry}
    (he : e ∈ seekList Entry.key es key) : key ≤ e.key := by
  induction es with
  | nil => cases he
  | cons x es ih =>
    rw [Ascending,List.pairwise_cons] at hsort
    rw [seekList,List.dropWhile_cons] at he
    split_ifs at he with hx
    · exact ih hsort.2 he
    · have hle : key ≤ x.key := by simpa using hx
      rcases List.mem_cons.mp he with rfl | he
      · exact hle
      · exact hle.trans (hsort.1 e he).le

theorem readerIterSeek_after (h : Holds codec r blocks) (hw : ComesAfter codec r blocks t it)
    (key : Bytes) :
    ∃ it', readerIterSeek codec it key = .ok (true,it') ∧ SameQuery it it' ∧
      ComesAfter codec r blocks key it' := by
  obtain ⟨ii,j,hseek,hidx,hat⟩ := seekIndex_after h hw key
  have hoffset := indexOffset_spec h.offset_lt hidx
  have hafter := h.ordered.after_index hat
  cases hb : blocks[j]? with
  | none =>
    rw [hb] at hoffset
    refine ⟨{ it with indexIter := ii, valid := false },?_,⟨rfl,rfl,rfl⟩,hw.reader,⟨j,hidx,hafter⟩,
      fun hne => ?_,fun hv => by cases hv⟩
    · simp [readerIterSeek,hseek,hoffset]
    · obtain ⟨b,hmem,i,hbi,-⟩ := hw.cached hne
      exact ⟨b,hmem,i,hbi,fun hv => by cases hv⟩
  | some b =>
    rw [hb] at hoffset
    obtain ⟨it1,c,bi,i,hload,hsame,hii,hc,hne,hbi,hshow⟩ :=
      loadBlock_after h hw (List.mem_of_getElem? hb) ii
    obtain ⟨bi',p,hseekb,hshow',hp⟩ := hshow.seek (h.ordered.entries_ascending hc) key
    refine ⟨{ it1 with bi := some bi', first := true, valid := true },?_,
      ⟨hsame.r,hsame.itType,hsame.k⟩,hsame.r.trans hw.reader,⟨j,by rw [hii]; exact hidx,hafter⟩,
      fun _ => ⟨c,hc,p,⟨bi',rfl,hshow'⟩,fun _ e he => ?_⟩,fun _ => hne⟩
    · simp [readerIterSeek,hseek,hoffset,hload,hbi,hseekb]
    · rw [hp] at he
      exact seekList_le (h.ordered.entries_ascending hc) he

theorem readerIterInit_after (h : Holds codec r blocks) {key k : Bytes} {itType : ReaderIterType}
    (hit : readerIterInit codec r key k itType = .ok (some it)) :
    it.itType = itType ∧ it.k = k ∧ ComesAfter codec r blocks key it := by
  obtain ⟨ii,i,hinit,hidx⟩ := h.index
  obtain ⟨ii',j,hseek,hidx',hdrop⟩ := hidx.seek h.ordered.index_ascending key
  have hat : ∀ b, blocks[j]? = some b → key ≤ b.sep := fun b hb =>
    seekList_head hdrop (e := b.indexEntry) (by rw [indexEntries_getElem?,hb,Option.map_some])
  have hle := hidx'.le
  rw [indexEntries,List.length_map] at hle
  rcases Nat.lt_or_ge j blocks.length with hlt | hge
  · have hb : blocks[j]? = some blocks[j] := List.getElem?_eq_getElem hlt
    have hmem : blocks[j] ∈ blocks := List.getElem_mem hlt
    generalize blocks[j] = b at hb hmem
    obtain ⟨B,bi,p,hblock,hget,hinitb,hshow⟩ := getBlockAtIndex_spec h hidx' hb
    obtain ⟨bi',q,hseekb,hshow',hq⟩ := hshow.seek (h.ordered.entries_ascending hmem) key
    simp only [readerIterInit,hinit,hseek,hblock,hinitb,hseekb,ok_bind,pure_eq_ok,Except.ok.injEq,
      Option.some.injEq] at hit
    subst hit
    refine ⟨rfl,rfl,rfl,⟨j,hidx',h.ordered.after_index hat⟩,
      fun _ => ⟨b,hmem,q,⟨bi',rfl,hshow'⟩,fun _ e he => ?_⟩,by simp⟩
    rw [hq] at he
    exact seekList_le (h.ordered.entries_ascending hmem) he
  · obtain rfl : j = blocks.length := le_antisymm hle hge
    simp [readerIterInit,hinit,hseek,getBlockAtIndex_end h hidx'] at hit

/-- Over any calls with these seek targets the iterator returns only selected entries of the file at
or after its first key or some target. -/
theorem calls_after (h : Holds codec r blocks) {key k : Bytes} {itType : ReaderIterType}
    (hit : readerIterInit codec r key k itType = .ok (some it)) (calls : List (Call Bytes)) :
    ∃ answers it', (readerOps codec).calls it calls = .ok (answers,it') ∧
      ∀ e, .entry e ∈ answers → e ∈ fileEntries blocks ∧ selects itType k e.key = true ∧
        ∃ t, (t = key ∨ .seek t ∈ calls) ∧ t ≤ e.key := by
  obtain ⟨htype,hk,hw⟩ := readerIterInit_after h hit
  obtain ⟨answers,it',hcalls,-,hgood⟩ := (readerOps codec).calls_all
    (fun s => (s.itType = itType ∧ s.k = k) ∧
      ∃ t, (t = key ∨ .seek t ∈ calls) ∧ ComesAfter codec r blocks t s)
    (fun c => c ∈ calls)
    (fun a => ∀ e, a = .entry e → e ∈ fileEntries blocks ∧ selects itType k e.key = true ∧
      ∃ t, (t = key ∨ .seek t ∈ calls) ∧ t ≤ e.key)
    (by
      rintro s (_ | target) ⟨⟨hs,hsk⟩,t,ht,hw⟩ hc
      · obtain ⟨e,s',hnext,hsame,hw',he⟩ := readerIterNext_after h hw
        refine ⟨.ofNext e,s',?_,⟨⟨hsame.itType.trans hs,hsame.k.trans hsk⟩,t,ht,hw'⟩,?_⟩
        · simp [Ops.call,readerOps,hnext]
        · intro x hx
          cases e with
          | none => cases hx
          | some e =>
            obtain rfl := Answer.entry.inj hx
            obtain ⟨hmem,hle,hsel⟩ := he e rfl
            rw [hs,hsk] at hsel
            exact ⟨hmem,hsel,t,ht,hle⟩
      · obtain ⟨s',hseek,hsame,hw'⟩ := readerIterSeek_after h hw target
        refine ⟨.ofSeek true,s',?_,⟨⟨hsame.itType.trans hs,hsame.k.trans hsk⟩,target,.inr hc,hw'⟩,?_⟩
        · simp [Ops.call,readerOps,hseek]
        · intro x hx
          cases hx)
    ⟨⟨htype,hk⟩,key,.inl rfl,hw⟩ calls (fun _ hc => hc)
  exact ⟨answers,it',hcalls,fun e he => hgood _ he e rfl⟩

end

/-- Whatever is called, iterators for a key or a prefix return only entries they were made for. So
do iterators for a range, over all calls whose seeks have no stored key between the target and the
range's lower end. -/
theorem bounded_iterators {codec : Codec} {file : Bytes} {es : List Entry}
    (h : Produced codec file es) {ropt : ReaderOptions} {r : Reader}
    (hopen : mtblReaderInitFd codec file ropt = .ok (some r)) (calls : List (Call Bytes)) :
    (∀ k it, readerGet codec r k = .ok (some it) → ∃ answers it',
      (readerOps codec).calls it calls = .ok (answers,it') ∧
      ∀ e, .entry e ∈ answers → e.key = k) ∧
    (∀ p it, readerGetPrefix codec r p = .ok (some it) → ∃ answers it',
      (readerOps codec).calls it calls = .ok (answers,it') ∧
      ∀ e, .entry e ∈ answers → p <+: e.key) ∧
    (∀ k0 k1 it, readerGetRange codec r k0 k1 = .ok (some it) →
      (∀ t, .seek t ∈ calls → ∀ e ∈ es, t ≤ e.key → k0 ≤ e.key) → ∃ answers it',
      (readerOps codec).calls it calls = .ok (answers,it') ∧
      ∀ e, .entry e ∈ answers → k0 ≤ e.key ∧ e.key ≤ k1) := by
  obtain ⟨r',blocks,hopen',hholds,rfl⟩ := h.holds ropt
  obtain rfl := Option.some.inj (Except.ok.inj (hopen.symm.trans hopen'))
  refine ⟨fun k it hit => ?_,fun p it hit => ?_,fun k0 k1 it hit hseeks => ?_⟩
  · obtain ⟨answers,it',hcalls,hgood⟩ := calls_after hholds hit calls
    refine ⟨answers,it',hcalls,fun e he => ?_⟩
    have hsel := (hgood e he).2.1
    simpa [selects] using hsel
  · obtain ⟨answers,it',hcalls,hgood⟩ := calls_after hholds hit calls
    refine ⟨answers,it',hcalls,fun e he => ?_⟩
    have hsel := (hgood e he).2.1
    simp only [selects,memcmp_eq_zero_iff,decide_eq_true_eq] at hsel
    exact hsel
  · obtain ⟨answers,it',hcalls,hgood⟩ := calls_after hholds hit calls
    refine ⟨answers,it',hcalls,fun e he => ?_⟩
    obtain ⟨hmem,hsel,t,ht,hle⟩ := hgood e he
    simp only [selects,bytesCompare_pos,Bool.not_eq_true',decide_eq_false_iff_not,not_lt] at hsel
    rcases ht with rfl | ht
    · exact ⟨hle,hsel⟩
    · exact ⟨hseeks t ht e hmem hle,hsel⟩

/-! ### Runs on given adds -/

/-- Writes the adds, opens the file and makes the calls on a range iterator. -/
def rangeSession (codec : Codec) (adds : List Entry) (k0 k1 : Bytes) (calls : List (Call Bytes)) :
    Run (Option (List (Answer Entry))) := do
  let (w,_) ← writerAdds codec (mtblWriterInitFd [] (some plainOptions)) adds
  let file ← mtblWriterDestroy codec w
  match ← mtblReaderInitFd codec file ⟨false⟩ with
  | none => return none
  | some r =>
    match ← readerGetRange codec r k0 k1 with
    | none => return none
    | some it =>
      let (answers,_) ← (readerOps codec).calls it calls
      return some answers

theorem rangeSession_eq_some {codec : Codec} {adds : List Entry} {k0 k1 : Bytes}
    {calls : List (Call Bytes)} {answers : List (Answer Entry)}
    (hsession : rangeSession codec adds k0 k1 calls = .ok (some answers))
    (hsmall : ∀ e ∈ adds, e.Small)
    (hfits : WriterFits codec (mtblWriterInitFd [] (some plainOptions)) adds) :
    ∃ file r it it', Produced codec file (acceptedEntries none adds) ∧
      mtblReaderInitFd codec file ⟨false⟩ = .ok (some r) ∧
      readerGetRange codec r k0 k1 = .ok (some it) ∧
      (readerOps codec).calls it calls = .ok (answers,it') := by
  obtain ⟨⟨w,res⟩,hrun,h⟩ := bind_eq_ok.mp hsession
  obtain ⟨file,hdestroy,h⟩ := bind_eq_ok.mp h
  obtain ⟨o,hinit,h⟩ := bind_eq_ok.mp h
  cases o with
  | none => cases h
  | some r =>
    obtain ⟨o,hget,h⟩ := bind_eq_ok.mp h
    cases o with
    | none => cases h
    | some it =>
      obtain ⟨⟨answers,it'⟩,hcalls,h⟩ := bind_eq_ok.mp h
      obtain rfl := Option.some.inj (Except.ok.inj h)
      exact ⟨file,r,it,it',.mk [] plainOptions adds w res file (by decide) hsmall hfits hrun
        hdestroy,hinit,hget,hcalls⟩

/-- The keys `a`, `b` and `c`. -/
def threeKeys : List Entry := [⟨[97],[]⟩,⟨[98],[]⟩,⟨[99],[]⟩]

/-- In the range from `b` to `d`, with a seek to `c`. -/
theorem bounded_iterators_forward : ∃ file r it answers it',
    Produced storingCodec file threeKeys ∧
    mtblReaderInitFd storingCodec file ⟨false⟩ = .ok (some r) ∧
    readerGetRange storingCodec r [98] [100] = .ok (some it) ∧
    (readerOps storingCodec).calls it [.next,.seek [99],.next] = .ok (answers,it') ∧
    ∀ e, .entry e ∈ answers → [98] ≤ e.key ∧ e.key ≤ [100] := by
  have hsession : rangeSession storingCodec threeKeys [98] [100] [.next,.seek [99],.next] =
      .ok (some [.entry ⟨[98],[]⟩,.success,.entry ⟨[99],[]⟩]) := by decide +kernel
  obtain ⟨file,r,it,-,hproduced,hinit,hget,-⟩ :=
    rangeSession_eq_some hsession (by decide) (by decide +kernel)
  obtain ⟨answers,it',hcalls,hgood⟩ := (bounded_iterators hproduced hinit
    [.next,.seek [99],.next]).2.2 [98] [100] it hget (by
      intro t ht
      obtain rfl : t = [99] := by simpa using ht
      decide)
  exact ⟨file,r,it,answers,it',hproduced,hinit,hget,hcalls,hgood⟩

/-- In the range from `b` to `d`, a seek to `a` makes the iterator return `a`. -/
theorem bounded_iterators_fails :
    ¬ ∀ (codec : Codec) (file : Bytes) (es : List Entry) (ropt : ReaderOptions) (r : Reader)
      (it : ReaderIter) (k0 k1 : Bytes) (calls : List (Call Bytes)), Produced codec file es →
      mtblReaderInitFd codec file ropt = .ok (some r) →
      readerGetRange codec r k0 k1 = .ok (some it) →
      ∃ answers it', (readerOps codec).calls it calls = .ok (answers,it') ∧
        ∀ e, .entry e ∈ answers → k0 ≤ e.key ∧ e.key ≤ k1 := by
  intro hlaw
  have hsession : rangeSession storingCodec threeKeys [98] [100] [.seek [97],.next] =
      .ok (some [.success,.entry ⟨[97],[]⟩]) := by decide +kernel
  obtain ⟨file,r,it,it',hproduced,hinit,hget,hcalls⟩ :=
    rangeSession_eq_some hsession (by decide) (by decide +kernel)
  obtain ⟨answers,it'',hcalls',hgood⟩ :=
    hlaw _ _ _ _ _ _ [98] [100] [.seek [97],.next] hproduced hinit hget
  obtain ⟨rfl,rfl⟩ := Prod.mk.inj (Except.ok.inj (hcalls.symm.trans hcalls'))
  have hle := (hgood ⟨[97],[]⟩ (by simp)).1
  exact absurd hle (by decide)

end Mtbl
