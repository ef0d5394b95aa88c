import Mtbl.File.Threaded

/-! The assertions of `block_builder_add` under the writer's restart interval. With an interval of one
or more both builders keep them through every add, finish and reset. The setter also lets an interval
of zero through, and then a builder takes one key and aborts on the next. -/
namespace Mtbl
open CRun

/-- The assertions at the head of `block_builder_add`. -/
def BlockBuilder.Asserts (b : BlockBuilder) : Prop :=
  b.counter ≤ b.blockRestartInterval ∧ b.finished = false

/-- They hold at the calls that come next: of the data builder behind the flush, of the index builder
behind a block that has been compressed and written. -/
structure AssertionsHold (codec : Codec) (s : Writing) : Prop where
  data : ∀ e, s.pc = .adding e → s.w.data.Asserts
  index : ∀ b q b' p, s.handed = b::q → mtblWriterCompressBlock codec b = .ok b' →
    mtblWriterWriteBlock s.w.file b' = .ok p → s.w.index.Asserts

/-- They hold at every call of every run, whatever the compression libraries return. -/
def BuildersHold (opt : WriterOptions) (file : Bytes) (adds : List Entry) : Prop :=
  ∀ codec s, WritingRun codec (startWriting opt file adds) s → AssertionsHold codec s

section
variable {codec : Codec} {w w' : Writer} {s s' : Writing}

/-! ### An interval of one or more -/

theorem BlockBuilder.Ready.reset {b : BlockBuilder} (h : b.Ready) :
    (blockBuilderReset (blockBuilderFinish b).1).Ready := ⟨h.interval,Nat.zero_le _,rfl⟩

theorem BlockBuilder.Ready.asserts {b : BlockBuilder} (h : b.Ready) : b.Asserts :=
  ⟨h.counter_le,h.unfinished⟩

theorem BlockBuilder.Ready.add {b b' : BlockBuilder} (h : b.Ready) {key val : Bytes}
    (hadd : blockBuilderAdd b key val = .ok b') : b'.Ready := by
  obtain ⟨b'',hadd',h'⟩ := blockBuilderAdd_ready h key val
  rwa [Except.ok.inj (hadd.symm.trans hadd')]

theorem WritingStep.ready (hstep : WritingStep codec s s')
    (h : s.w.data.Ready ∧ s.w.index.Ready) : s'.w.data.Ready ∧ s'.w.index.Ready := by
  obtain ⟨hdata,hindex⟩ := h
  cases hstep with
  | refuse _ => exact ⟨hdata,hindex⟩
  | room _ hroom =>
    obtain ⟨⟨hsame,-⟩,⟨-,hkept⟩ | ⟨-,-,hreset⟩⟩ := makeRoom_eq hroom
    · exact ⟨hkept ▸ hdata,hsame ▸ hindex⟩
    · exact ⟨hreset ▸ hdata.reset,hsame ▸ hindex⟩
  | accept haccept =>
    obtain ⟨hadd,hsame,-,-⟩ := acceptEntry_eq haccept
    exact ⟨hdata.add hadd,hsame ▸ hindex⟩
  | flush hdetach =>
    rcases detachBlock_eq hdetach with ⟨-,rfl,-⟩ | ⟨-,rfl,-⟩
    · exact ⟨hdata,hindex⟩
    · exact ⟨hdata.reset,hindex⟩
  | write _ hwrite =>
    obtain ⟨hsame,-,hadd⟩ := mtblWriterWriteDataBlock_eq hwrite
    exact ⟨hsame.data ▸ hdata,hindex.add hadd⟩
  | close hclose =>
    obtain ⟨⟨hsame,-⟩,hreset⟩ := writeIndex_eq hclose
    exact ⟨hsame ▸ hdata,hreset ▸ hindex.reset⟩

theorem WritingRun.ready (hrun : WritingRun codec s s')
    (h : s.w.data.Ready ∧ s.w.index.Ready) : s'.w.data.Ready ∧ s'.w.index.Ready := by
  induction hrun with
  | start => exact h
  | step _ hstep ih => exact hstep.ready ih

/-! ### At most one key accepted -/

/-- A builder that has taken nothing since it was reset. -/
structure BlockBuilder.Unused (b : BlockBuilder) : Prop where
  buf : b.buf = []
  counter : b.counter = 0
  unfinished : b.finished = false

theorem BlockBuilder.Unused.asserts {b : BlockBuilder} (h : b.Unused) : b.Asserts :=
  ⟨h.counter.le.trans (Nat.zero_le _),h.unfinished⟩

theorem BlockBuilder.Unused.empty {b : BlockBuilder} (h : b.Unused) : blockBuilderEmpty b = true := by
  simp [blockBuilderEmpty,h.buf]

/-- The states of a writer that accepts one key at most: before it, with it, behind the last flush. -/
inductive Lone : Writing → Prop
  | before {w : Writer} {adds : List Entry} (data : w.data.Unused) (index : w.index.Unused)
      (count : w.m.countEntries = 0) (le : (acceptedEntries none adds).length ≤ 1) :
      Lone ⟨w,adds,.between,[]⟩
  | adding {w : Writer} {e : Entry} {adds : List Entry} (data : w.data.Unused)
      (index : w.index.Unused) (rest : acceptedEntries (some e.key) adds = []) :
      Lone ⟨w,adds,.adding e,[]⟩
  | added {w : Writer} {adds : List Entry} (index : w.index.Unused) (count : 0 < w.m.countEntries)
      (rest : acceptedEntries (some w.lastKey) adds = []) : Lone ⟨w,adds,.between,[]⟩
  | handed {w : Writer} {b : DataBlock} (index : w.index.Unused) : Lone ⟨w,[],.finishing,[b]⟩
  | written {w : Writer} {pc : AddingAt} (behind : pc = .finishing ∨ pc = .finished) :
      Lone ⟨w,[],pc,[]⟩

theorem outOfOrder_first (hcount : w.m.countEntries = 0) (key : Bytes) :
    outOfOrder w key = false := by simp [outOfOrder,hcount]

theorem outOfOrder_next (hcount : 0 < w.m.countEntries) (key : Bytes) :
    outOfOrder w key = !accepts (some w.lastKey) key := by simp [outOfOrder,hcount,accepts]

theorem Lone.step (h : Lone s) (hstep : WritingStep codec s s') : Lone s' := by
  cases h with
  | before hdata hindex hcount hle =>
    cases hstep with
    | @refuse _ e _ _ horder =>
      rw [outOfOrder_first hcount] at horder
      cases horder
    | @room w w' e es _ b _ hroom =>
      obtain ⟨⟨hsame,-⟩,⟨rfl,hkept⟩ | ⟨hempty,-,-⟩⟩ := makeRoom_eq hroom
      · have hrest : acceptedEntries (some e.key) es = [] := by
          simpa [acceptedEntries,accepts] using hle
        exact .adding (hkept ▸ hdata) (hsame ▸ hindex) hrest
      · rw [hdata.empty] at hempty
        cases hempty
    | flush hdetach =>
      rcases detachBlock_eq hdetach with ⟨-,-,rfl⟩ | ⟨hempty,-,-⟩
      · exact .written (.inl rfl)
      · rw [hdata.empty] at hempty
        cases hempty
  | adding hdata hindex hrest =>
    cases hstep with
    | accept haccept =>
      obtain ⟨-,hsame,hlast,hcount⟩ := acceptEntry_eq haccept
      exact .added (hsame ▸ hindex) (by omega) (hlast ▸ hrest)
  | added hindex hcount hrest =>
    cases hstep with
    | @refuse _ e es _ horder =>
      rw [outOfOrder_next hcount,Bool.not_eq_true'] at horder
      exact .added hindex hcount (by simpa [acceptedEntries,horder] using hrest)
    | @room w w' e es _ b horder hroom =>
      rw [outOfOrder_next hcount,Bool.not_eq_false'] at horder
      simp [acceptedEntries,horder] at hrest
    | flush hdetach =>
      rcases detachBlock_eq hdetach with ⟨-,-,rfl⟩ | ⟨-,rfl,rfl⟩
      · exact .written (.inl rfl)
      · exact .handed hindex
  | handed hindex =>
    cases hstep with
    | write _ _ => exact .written (.inl rfl)
  | written hbehind =>
    cases hstep with
    | accept _ => simp at hbehind
    | flush _ => simp at hbehind
    | close _ => exact .written (.inr rfl)

theorem WritingRun.lone (hrun : WritingRun codec s s') (h : Lone s) : Lone s' := by
  induction hrun with
  | start => exact h
  | step _ hstep ih => exact ih.step hstep

theorem Lone.assertionsHold (h : Lone s) : AssertionsHold codec s := by
  cases h with
  | before hdata hindex _ _ => exact ⟨fun _ _ => hdata.asserts,fun _ _ _ _ _ _ _ => hindex.asserts⟩
  | adding hdata hindex _ => exact ⟨fun _ _ => hdata.asserts,fun _ _ _ _ _ _ _ => hindex.asserts⟩
  | added hindex _ _ => exact ⟨fun _ h => (by cases h),fun _ _ _ _ _ _ _ => hindex.asserts⟩
  | handed hindex => exact ⟨fun _ h => (by cases h),fun _ _ _ _ _ _ _ => hindex.asserts⟩
  | written hbehind =>
    refine ⟨fun e he => ?_,fun _ _ _ _ h => (by cases h)⟩
    rcases hbehind with h | h
    · cases h.symm.trans he
    · cases h.symm.trans he

/-! ### An interval of zero and two keys -/

/-- Compression libraries that copy. -/
def copyingCodec : Codec where
  compressSnappy input := some input
  compressZlib input _ := some input
  compressLz4 input := some input
  compressLz4hc input _ := some input
  compressZstd input _ := some input
  decompressSnappy input := some input
  decompressZlib input := some input
  decompressLz4 input := some input
  decompressZstd input := some input
  crc32c _ := 0
  front _ := ⟨0,[]⟩

theorem compressedData_copying (t : CompressionType) (level : ℤ) (data : Bytes) :
    compressedData copyingCodec t level data = some data := by
  cases t <;> simp [compressedData,mtblCompress,mtblCompressLevel,copyingCodec]

/-- A builder with an interval of zero that has taken a key. -/
structure BlockBuilder.Spent (b : BlockBuilder) : Prop where
  interval : b.blockRestartInterval = 0
  counter : 0 < b.counter
  unfinished : b.finished = false

theorem BlockBuilder.Spent.not_asserts {b : BlockBuilder} (h : b.Spent) : ¬ b.Asserts := by
  intro hb
  have hle := hb.1
  rw [h.interval] at hle
  exact absurd h.counter (by omega)

/-- An unspent builder takes one key. -/
theorem blockBuilderAdd_spends {b : BlockBuilder} (hinterval : b.blockRestartInterval = 0)
    (hcounter : b.counter = 0) (hfinished : b.finished = false) (key val : Bytes) :
    ∃ b', blockBuilderAdd b key val = .ok b' ∧ b'.Spent := by
  unfold blockBuilderAdd
  rw [check_of (by omega),ok_bind,check_of hfinished,ok_bind,if_neg (by omega)]
  exact ⟨_,rfl,hinterval,Nat.one_pos,hfinished⟩

/-- A writer with an interval of zero, between two calls, whose data builder has taken a key. -/
structure Doomed (w : Writer) : Prop where
  unclosed : w.closed = false
  version : w.m.fileVersion = .formatV2
  count : 0 < w.m.countEntries
  data : w.data.Spent
  nonempty : blockBuilderEmpty w.data = false
  indexInterval : w.index.blockRestartInterval = 0
  indexFinished : w.index.finished = false

theorem makeRoom_ok (hunclosed : w.closed = false) (hversion : w.m.fileVersion = .formatV2)
    {key : Bytes} (hkey : w.lastKey = [] ∨ w.lastKey < key) (val : Bytes) :
    ∃ w' b, makeRoom w key val = .ok (w',b) := by
  obtain ⟨sep,hsep⟩ : ∃ sep, bytesShortestSeparator w.lastKey key = .ok sep := by
    rcases hkey with hnil | hlt
    · exact ⟨[],by rw [hnil,bytesShortestSeparator_nil]⟩
    · obtain ⟨sep,hsep,-⟩ := bytesShortestSeparator_spec hlt
      exact ⟨sep,hsep⟩
  simp only [makeRoom,hsep,ok_bind,detachBlock,check_of hunclosed,check_of hversion]
  split_ifs <;> exact ⟨_,_,rfl⟩

/-- An index builder that is spent meets the next block that has been written. -/
theorem spent_index {b : DataBlock} {q : List DataBlock} {es : List Entry} {pc : AddingAt}
    (hspent : w.index.Spent) (hpos : 0 < b.data.length) :
    ¬ AssertionsHold copyingCodec ⟨w,es,pc,b::q⟩ := by
  intro h
  have hcompress : mtblWriterCompressBlock copyingCodec b =
      .ok { b with data := b.data, crc := copyingCodec.crc32c b.data } := by
    simp only [mtblWriterCompressBlock,compressedData_copying]
  exact hspent.not_asserts (h.index b q _ _ rfl hcompress
    (mtblWriterWriteBlock_spec copyingCodec w.file _ hpos rfl))

theorem write_copying {b : DataBlock} (hpos : 0 < b.data.length) {index : BlockBuilder}
    (hadd : blockBuilderAdd w.index b.lastKey (mtblVarintEncode64 w.pendingOffset) = .ok index) :
    ∃ b' w', mtblWriterCompressBlock copyingCodec b = .ok b' ∧
      mtblWriterWriteDataBlock w b' = .ok w' ∧ w'.index = index := by
  have hcompress : mtblWriterCompressBlock copyingCodec b =
      .ok { b with data := b.data, crc := copyingCodec.crc32c b.data } := by
    simp only [mtblWriterCompressBlock,compressedData_copying]
  have hwrite := mtblWriterWriteBlock_spec copyingCodec w.file
    { b with data := b.data, crc := copyingCodec.crc32c b.data } hpos rfl
  exact ⟨_,_,hcompress,by simp only [mtblWriterWriteDataBlock,hwrite,ok_bind,hadd]; rfl,rfl⟩

theorem acceptEntry_of {key val : Bytes} {data : BlockBuilder}
    (hadd : blockBuilderAdd w.data key val = .ok data) : acceptEntry w key val = .ok { w with
      lastKey := key
      m := { w.m with countEntries := w.m.countEntries+1
                      bytesKeys := w.m.bytesKeys+key.length
                      bytesValues := w.m.bytesValues+val.length }
      data := data } := by
  simp only [acceptEntry,hadd,ok_bind,pure_eq_ok]

/-- The block is written, and the next key accepted. -/
theorem Doomed.goesOn {w1 : Writer} {b : DataBlock} {e : Entry} (h : Doomed w)
    (hroom : makeRoom w e.key e.val = .ok (w1,some b)) (hunused : w.index.counter = 0)
    (es : List Entry) : ∃ w', WritingRun copyingCodec ⟨w1,es,.adding e,[b]⟩ ⟨w',es,.between,[]⟩ ∧
      Doomed w' ∧ w'.index.Spent := by
  obtain ⟨⟨hindex,hm,hclosed⟩,⟨hnone,-⟩ | ⟨-,-,hreset⟩⟩ := makeRoom_eq hroom
  · cases hnone
  have hlength := blockBuilderFinish_length w.data
  have hdata := flushed_data (.inr ⟨_,_,hroom⟩)
  obtain ⟨index,hadd,hspent⟩ := blockBuilderAdd_spends (hindex ▸ h.indexInterval)
    (hindex ▸ hunused) (hindex ▸ h.indexFinished) b.lastKey (mtblVarintEncode64 w1.pendingOffset)
  obtain ⟨b',w2,hcompress,hwrite,rfl⟩ := write_copying (by rw [hdata]; omega) hadd
  obtain ⟨hfront,hm2,-⟩ := mtblWriterWriteDataBlock_eq hwrite
  have hdata2 : w2.data = blockBuilderReset (blockBuilderFinish w.data).1 := by
    rw [hfront.data,hreset]
  obtain ⟨data,hadd2,hspent2⟩ := @blockBuilderAdd_spends w2.data (by rw [hdata2]; exact h.data.interval)
    (by rw [hdata2]; rfl) (by rw [hdata2]; rfl) e.key e.val
  have haccept := acceptEntry_of hadd2
  refine ⟨_,(WritingStep.write hcompress hwrite).run.step (.accept haccept),?_,hspent⟩
  exact {
    unclosed := by rw [hfront.closed,hclosed,h.unclosed]
    version := by rw [hm2.2,hm,h.version]
    count := Nat.succ_pos _
    data := hspent2
    nonempty := blockBuilderAdd_nonempty hadd2
    indexInterval := hspent.interval
    indexFinished := hspent.unfinished }

theorem Doomed.violates {adds : List Entry} (h : Doomed w)
    (hmore : w.index.Spent ∨ acceptedEntries (some w.lastKey) adds ≠ []) :
    ∃ s, WritingRun copyingCodec ⟨w,adds,.between,[]⟩ s ∧ ¬ AssertionsHold copyingCodec s := by
  have hlength := blockBuilderFinish_length w.data
  induction adds generalizing w with
  | nil =>
    have hspent := hmore.resolve_right (fun hne => hne rfl)
    have hdetach := detachBlock_block h.unclosed h.version h.nonempty
    exact ⟨_,(WritingStep.flush hdetach).run,spent_index hspent (by simp only; omega)⟩
  | cons e es ih =>
    cases horder : outOfOrder w e.key with
    | true =>
      have haccept : accepts (some w.lastKey) e.key = false := by
        rwa [outOfOrder_next h.count,Bool.not_eq_true'] at horder
      rw [acceptedEntries,haccept] at hmore
      obtain ⟨s,hrun,hs⟩ := ih h hmore hlength
      exact ⟨s,(WritingStep.refuse horder).run.trans hrun,hs⟩
    | false =>
      have hlt : w.lastKey < e.key := by
        rw [outOfOrder_next h.count,Bool.not_eq_false'] at horder
        exact of_decide_eq_true horder
      obtain ⟨w1,b,hroom⟩ := makeRoom_ok h.unclosed h.version (.inr hlt) e.val
      have hfirst := (@WritingStep.room copyingCodec w w1 e es [] b horder hroom).run
      obtain ⟨⟨hindex,-⟩,⟨rfl,hkept⟩ | ⟨-,hsome,-⟩⟩ := makeRoom_eq hroom
      · exact ⟨_,hfirst,fun hs => h.data.not_asserts (hkept ▸ hs.data e rfl)⟩
      obtain ⟨b,rfl⟩ := Option.isSome_iff_exists.mp hsome
      by_cases hcounter : w.index.counter = 0
      · obtain ⟨w',hrun,h',hspent⟩ := h.goesOn hroom hcounter es
        obtain ⟨s,hrun',hs⟩ := ih h' (.inl hspent) (blockBuilderFinish_length w'.data)
        exact ⟨s,(hfirst.trans hrun).trans hrun',hs⟩
      · have hspent : w1.index.Spent := hindex ▸ ⟨h.indexInterval,Nat.pos_of_ne_zero hcounter,h.indexFinished⟩
        refine ⟨_,hfirst,spent_index hspent ?_⟩
        rw [flushed_data (.inr ⟨_,_,hroom⟩)]
        omega

/-- The first key is accepted whatever the interval. -/
theorem first_accepted {opt : WriterOptions} (hinterval : opt.blockRestartInterval = 0)
    (file : Bytes) (e : Entry) (es : List Entry) :
    ∃ w', WritingRun copyingCodec (startWriting opt file (e::es)) ⟨w',es,.between,[]⟩ ∧ Doomed w' ∧
      w'.lastKey = e.key := by
  have hempty : (mtblWriterInitFd file (some opt)).data.Unused := ⟨rfl,rfl,rfl⟩
  obtain ⟨w1,b,hroom⟩ := @makeRoom_ok (mtblWriterInitFd file (some opt)) rfl rfl e.key (.inl rfl) e.val
  obtain ⟨⟨hindex,hm,hclosed⟩,⟨rfl,hdata⟩ | ⟨hne,-,-⟩⟩ := makeRoom_eq hroom
  · obtain ⟨data,hadd,hspent⟩ := @blockBuilderAdd_spends w1.data (by rw [hdata]; exact hinterval)
      (by rw [hdata]; rfl) (by rw [hdata]; rfl) e.key e.val
    have hfirst : WritingStep copyingCodec (startWriting opt file (e::es)) ⟨w1,es,.adding e,[]⟩ := .room (outOfOrder_first rfl e.key) hroom
    refine ⟨_,hfirst.run.step (.accept (acceptEntry_of hadd)),?_,rfl⟩
    exact {
      unclosed := hclosed
      version := by simp only [hm]; rfl
      count := Nat.succ_pos _
      data := hspent
      nonempty := blockBuilderAdd_nonempty hadd
      indexInterval := by simp only [hindex]; exact hinterval
      indexFinished := by simp only [hindex]; rfl }
  · rw [hempty.empty] at hne
    cases hne

theorem second_violates {opt : WriterOptions} (hinterval : opt.blockRestartInterval = 0)
    {file : Bytes} {adds : List Entry} (htwo : 2 ≤ (acceptedEntries none adds).length) :
    ¬ BuildersHold opt file adds := by
  cases adds with
  | nil => simp [acceptedEntries] at htwo
  | cons e es =>
    have hmore : acceptedEntries (some e.key) es ≠ [] := by
      intro hnil
      simp [acceptedEntries,accepts,hnil] at htwo
    obtain ⟨w,hrun,hdoomed,hlast⟩ := first_accepted hinterval file e es
    obtain ⟨s,hrun',hs⟩ := hdoomed.violates (.inr (hlast ▸ hmore))
    exact fun hall => hs (hall _ s (hrun.trans hrun'))

end

/-- The assertions of `block_builder_add` hold in every run exactly if the interval that was set is
one or more or no more than one key is accepted. -/
theorem builders_hold_iff (opt : WriterOptions) (interval : ℕ) (file : Bytes) (adds : List Entry) :
    BuildersHold (mtblWriterOptionsSetBlockRestartInterval opt interval) file adds ↔
      1 ≤ interval ∨ (acceptedEntries none adds).length ≤ 1 := by
  constructor
  · intro h
    by_contra hnot
    push Not at hnot
    exact second_violates (Nat.lt_one_iff.mp hnot.1) hnot.2 h
  · rintro (hinterval | hle) codec s hrun
    · have hready := hrun.ready ⟨⟨hinterval,Nat.zero_le _,rfl⟩,⟨hinterval,Nat.zero_le _,rfl⟩⟩
      exact ⟨fun _ _ => hready.1.asserts,fun _ _ _ _ _ _ _ => hready.2.asserts⟩
    · exact (hrun.lone (.before ⟨rfl,rfl,rfl⟩ ⟨rfl,rfl,rfl⟩ rfl hle)).assertionsHold

/-- An interval of zero, as the setter lets it through: the second key stops the writer. -/
theorem builders_hold_fails :
    writerAdds copyingCodec (mtblWriterInitFd []
        (some (mtblWriterOptionsSetBlockRestartInterval mtblWriterOptionsInit 0)))
      [⟨[97],[]⟩,⟨[98],[]⟩] = .error .assertion ∧
    ¬ BuildersHold (mtblWriterOptionsSetBlockRestartInterval mtblWriterOptionsInit 0) []
      [⟨[97],[]⟩,⟨[98],[]⟩] :=
  ⟨by decide +kernel,second_violates rfl (by decide)⟩

end Mtbl
