import Mtbl.Block.Calls
import Mtbl.Codec.Crc32c
import Mtbl.File.Finished
import Mtbl.File.Threaded

/-! The index keys of a file separate its data blocks, whatever the lengths of its keys and values and
whichever thread writes the blocks. What a block holds is what was added to its builder. -/
namespace Mtbl
open CRun

/-! ### What was added to a builder -/

/-- The block that a builder finishes after these additions. -/
def Contains (opt : WriterOptions) (contents : Bytes) (es : List Entry) : Prop :=
  ∃ b, blockBuilderAdds (blockBuilderInit opt.blockRestartInterval) es = .ok b ∧
    contents = (blockBuilderFinish b).2

section
variable {b b' b'' : BlockBuilder} {es : List Entry}

theorem blockBuilderAdds_snoc (b : BlockBuilder) (es : List Entry) (e : Entry) :
    blockBuilderAdds b (es++[e]) =
      blockBuilderAdds b es >>= fun b' => blockBuilderAdd b' e.key e.val := by
  induction es generalizing b with
  | nil =>
    rw [List.nil_append,blockBuilderAdds,blockBuilderAdds,ok_bind]
    cases blockBuilderAdd b e.key e.val <;> rfl
  | cons x es ih =>
    rw [List.cons_append,blockBuilderAdds,blockBuilderAdds]
    cases blockBuilderAdd b x.key x.val with
    | error fault => rfl
    | ok b' => exact ih b'

theorem blockBuilderAdd_interval {key val : Bytes} (h : blockBuilderAdd b key val = .ok b') :
    b'.blockRestartInterval = b.blockRestartInterval := by
  obtain ⟨-,-,h⟩ := bind_eq_ok.mp h
  obtain ⟨-,-,h⟩ := bind_eq_ok.mp h
  split_ifs at h <;> obtain rfl := Except.ok.inj h <;> rfl

theorem blockBuilderAdds_interval (h : blockBuilderAdds b es = .ok b') :
    b'.blockRestartInterval = b.blockRestartInterval := by
  induction es generalizing b with
  | nil => rw [Except.ok.inj h]
  | cons e es ih =>
    obtain ⟨b1,hadd,h⟩ := bind_eq_ok.mp h
    exact (ih h).trans (blockBuilderAdd_interval hadd)

/-- A builder starts over where it began. -/
theorem blockBuilderAdds_reset {interval : ℕ}
    (h : blockBuilderAdds (blockBuilderInit interval) es = .ok b) :
    blockBuilderReset (blockBuilderFinish b).1 = blockBuilderInit interval := by
  have hinterval : b.blockRestartInterval = interval := blockBuilderAdds_interval h
  rw [← hinterval]
  rfl

theorem blockBuilderAdds_empty_iff {interval : ℕ}
    (h : blockBuilderAdds (blockBuilderInit interval) es = .ok b) :
    blockBuilderEmpty b = true ↔ es = [] := by
  induction es using List.reverseRecOn generalizing b with
  | nil =>
    obtain rfl := Except.ok.inj h
    exact iff_of_true rfl rfl
  | append_singleton es e _ =>
    rw [blockBuilderAdds_snoc] at h
    obtain ⟨b1,-,hadd⟩ := bind_eq_ok.mp h
    rw [blockBuilderAdd_nonempty hadd]
    simp

end

/-! ### The blocks of a run -/

/-- A finished block that waits to be written: the entries added to it and its index key. -/
structure KeyedBlock where
  entries : List Entry
  sep : Bytes

def FileBlock.keyed (b : FileBlock) : KeyedBlock := ⟨b.entries,b.sep⟩

/-- The entry that has been accepted and is not in a block yet. -/
def AddingAt.pending : AddingAt → List Entry
  | .adding e => [e]
  | _ => []

/-- All entries accepted so far. -/
def acceptedSoFar (written : List FileBlock) (waiting : List KeyedBlock) (cur : List Entry)
    (pc : AddingAt) : List Entry :=
  fileEntries written++(waiting.flatMap KeyedBlock.entries++(cur++pc.pending))

/-- Where the entries of the adds are: in the data blocks of the file, in those handed on, and in the
data builder. The index builder, and behind the trailer the index block, has one entry for each data
block of the file, with its offset. -/
structure Stored (codec : Codec) (opt : WriterOptions) (file : Bytes) (adds : List Entry)
    (s : Writing) (written : List FileBlock) (waiting : List KeyedBlock) (cur : List Entry) :
    Prop where
  accepted : acceptedSoFar written waiting cur s.pc++
    acceptedEntries (lastAccepted (acceptedSoFar written waiting cur s.pc)) s.adds =
      acceptedEntries none adds
  contents : ∀ b ∈ written, ∃ contents, Contains opt contents b.entries ∧
    compressedData codec opt.compressionType opt.compressionLevel contents = some b.raw
  offsets : OffsetsFrom codec file.length written
  handed : List.Forall₂ (fun b (k : KeyedBlock) => b.lastKey = k.sep ∧ Contains opt b.data k.entries)
    s.handed waiting
  data : blockBuilderAdds (blockBuilderInit opt.blockRestartInterval) cur = .ok s.w.data
  unfinished : s.pc ≠ .finished → s.w.file = file++framesBytes codec written ∧
    blockBuilderAdds (blockBuilderInit opt.blockRestartInterval) (indexEntries written) =
      .ok s.w.index
  finished : s.pc = .finished → waiting = [] ∧ cur = [] ∧ ∃ index m,
    Contains opt index (indexEntries written) ∧ s.w.file = file++(framesBytes codec written++
      (frame codec index++metadataWrite m))

/-- The entries of every data block, the one in the making last. -/
def blockEntries (written : List FileBlock) (waiting : List KeyedBlock) (cur : List Entry) :
    List (List Entry) :=
  written.map FileBlock.entries++(waiting.map KeyedBlock.entries++[cur])

/-! ### The invariant -/

/-- Where the next key can be: above these bounds, and above the last key if there is one. -/
def AddingAt.Above (w : Writer) (blocks : List KeyedBlock) (cur acc : List Entry) : AddingAt → Prop
  | .between => (∀ e ∈ cur, e.key ≤ w.lastKey) ∧ (∀ b ∈ blocks, b.sep < w.lastKey) ∧
      w.m.countEntries = acc.length ∧ (acc ≠ [] → lastAccepted acc = some w.lastKey) ∧
      (acc = [] → w.lastKey = [])
  | .adding e => (∀ x ∈ cur, x.key ≤ e.key) ∧ (∀ b ∈ blocks, b.sep < e.key) ∧
      w.m.countEntries+1 = acc.length
  | .finishing => cur = []
  | .finished => True

/-- Keys ascend through the blocks, and the key of each lies between it and the next. -/
structure Separated (blocks : List KeyedBlock) (cur : List Entry) : Prop where
  nonempty : ∀ b ∈ blocks, b.entries ≠ []
  le_sep : ∀ b ∈ blocks, ∀ e ∈ b.entries, e.key ≤ b.sep
  sep_lt : blocks.Pairwise (fun a b => ∀ e ∈ b.entries, a.sep < e.key)
  below : ∀ b ∈ blocks, ∀ e ∈ cur, b.sep < e.key

structure Keyed (codec : Codec) (opt : WriterOptions) (file : Bytes) (adds : List Entry)
    (s : Writing) (written : List FileBlock) (waiting : List KeyedBlock) (cur : List Entry) :
    Prop extends Stored codec opt file adds s written waiting cur where
  opt_eq : s.w.opt = opt
  compression : ∀ b ∈ s.handed, b.compType = opt.compressionType ∧ b.compLevel = opt.compressionLevel
  pendingOffset : s.pc ≠ .finished → s.w.pendingOffset = s.w.file.length
  separated : Separated (written.map FileBlock.keyed++waiting) cur
  above : s.pc.Above s.w (written.map FileBlock.keyed++waiting) cur
    (acceptedSoFar written waiting cur s.pc)

section
variable {codec : Codec} {opt : WriterOptions} {file : Bytes} {adds : List Entry} {w w' : Writer}
  {s s' : Writing} {written : List FileBlock} {waiting : List KeyedBlock} {blocks : List KeyedBlock}
  {cur : List Entry}

theorem Keyed.init (codec : Codec) (opt : WriterOptions) (file : Bytes) (adds : List Entry) :
    Keyed codec opt file adds (startWriting opt file adds) [] [] [] where
  accepted := rfl
  contents := by simp
  offsets := trivial
  handed := .nil
  data := rfl
  unfinished _ := ⟨(List.append_nil file).symm,rfl⟩
  finished h := by cases h
  opt_eq := rfl
  compression := by simp [startWriting]
  pendingOffset _ := rfl
  separated := ⟨by simp,by simp,.nil,by simp⟩
  above := ⟨by simp,by simp,rfl,fun h => absurd rfl h,fun _ => rfl⟩

/-- The entries in the making become a block under the key. -/
theorem Separated.finish (h : Separated blocks cur) (hne : cur ≠ []) {sep : Bytes}
    (hle : ∀ e ∈ cur, e.key ≤ sep) : Separated (blocks++[⟨cur,sep⟩]) [] where
  nonempty := by
    intro c hc
    rcases List.mem_append.mp hc with hc | hc
    · exact h.nonempty c hc
    · rw [List.mem_singleton.mp hc]
      exact hne
  le_sep := by
    intro c hc
    rcases List.mem_append.mp hc with hc | hc
    · exact h.le_sep c hc
    · rw [List.mem_singleton.mp hc]
      exact hle
  sep_lt := by
    refine List.pairwise_append.mpr ⟨h.sep_lt,List.pairwise_singleton _ _,?_⟩
    intro a ha c hc
    rw [List.mem_singleton.mp hc]
    exact h.below a ha
  below := by simp

theorem Separated.add (h : Separated blocks cur) {e : Entry} (hlt : ∀ b ∈ blocks, b.sep < e.key) :
    Separated blocks (cur++[e]) where
  nonempty := h.nonempty
  le_sep := h.le_sep
  sep_lt := h.sep_lt
  below := by
    intro b hb x hx
    rcases List.mem_append.mp hx with hx | hx
    · exact h.below b hb x hx
    · rw [List.mem_singleton.mp hx]
      exact hlt b hb

/-- What a flush does: it hands on what is in the making under the key, or there is nothing. -/
theorem Keyed.detach {q : List DataBlock} {es : List Entry} {sep : Bytes} {b : Option DataBlock}
    (h : Keyed codec opt file adds ⟨w,es,.between,q⟩ written waiting cur)
    (hle : ∀ e ∈ cur, e.key ≤ sep) (hdetach : detachBlock { w with lastKey := sep } = .ok (w',b)) :
    ∃ data waiting', w' = { w with lastKey := sep, data := data } ∧
      blockBuilderAdds (blockBuilderInit opt.blockRestartInterval) [] = .ok data ∧
      waiting'.flatMap KeyedBlock.entries = waiting.flatMap KeyedBlock.entries++cur ∧
      List.Forall₂ (fun b (k : KeyedBlock) => b.lastKey = k.sep ∧ Contains opt b.data k.entries)
        (q++b.toList) waiting' ∧
      (∀ b' ∈ q++b.toList,
        b'.compType = opt.compressionType ∧ b'.compLevel = opt.compressionLevel) ∧
      Separated (written.map FileBlock.keyed++waiting') [] ∧
      ∀ c ∈ written.map FileBlock.keyed++waiting',
        c ∈ written.map FileBlock.keyed++waiting ∨ cur ≠ [] ∧ c.sep = sep := by
  have hopt : w.opt = opt := h.opt_eq
  have hempty_iff := blockBuilderAdds_empty_iff h.data
  rcases detachBlock_eq hdetach with ⟨hempty,rfl,rfl⟩ | ⟨hempty,rfl,rfl⟩
  · obtain rfl := hempty_iff.mp hempty
    simp only [Option.toList_none,List.append_nil]
    exact ⟨w.data,waiting,rfl,h.data,rfl,h.handed,h.compression,h.separated,fun c hc => .inl hc⟩
  · have hne : cur ≠ [] := fun hnil => by
      have htrue := hempty_iff.mpr hnil
      exact absurd (htrue.symm.trans hempty) (by decide)
    refine ⟨_,waiting++[⟨cur,sep⟩],rfl,?_,?_,?_,?_,?_,?_⟩
    · exact congrArg Except.ok (blockBuilderAdds_reset h.data).symm
    · rw [List.flatMap_append,List.flatMap_singleton]
    · exact List.rel_append h.handed (.cons ⟨rfl,_,h.data,rfl⟩ .nil)
    · intro b' hb'
      rcases List.mem_append.mp hb' with hb' | hb'
      · exact h.compression b' hb'
      · rw [List.mem_singleton.mp hb']
        exact ⟨congrArg WriterOptions.compressionType hopt,
          congrArg WriterOptions.compressionLevel hopt⟩
    · rw [← List.append_assoc]
      exact h.separated.finish hne hle
    · intro c hc
      rw [← List.append_assoc] at hc
      rcases List.mem_append.mp hc with hc | hc
      · exact .inl hc
      · exact .inr ⟨hne,by rw [List.mem_singleton.mp hc]⟩

/-- Where the keys stand when a key arrives. -/
theorem Keyed.order {q : List DataBlock} {es : List Entry}
    (h : Keyed codec opt file adds ⟨w,es,.between,q⟩ written waiting cur) (key : Bytes) :
    outOfOrder w key = !accepts (lastAccepted (acceptedSoFar written waiting cur .between)) key :=
  outOfOrder_eq h.above.2.2.1 h.above.2.2.2.1 key

/-- A key in order is above the last one, or the first of all. -/
theorem Keyed.key_above {q : List DataBlock} {es : List Entry} {key : Bytes}
    (h : Keyed codec opt file adds ⟨w,es,.between,q⟩ written waiting cur)
    (horder : outOfOrder w key = false) :
    (written = [] ∧ waiting = [] ∧ cur = [] ∧ w.lastKey = []) ∨ w.lastKey < key := by
  obtain ⟨-,-,hcount,hlast,hfirst⟩ := h.above
  by_cases hacc : acceptedSoFar written waiting cur .between = []
  · left
    have hall := hacc
    simp only [acceptedSoFar,AddingAt.pending,List.append_eq_nil_iff,List.flatMap_eq_nil_iff,
      fileEntries] at hall
    obtain ⟨hwritten,hwaiting,hcur,-⟩ := hall
    refine ⟨List.eq_nil_iff_forall_not_mem.mpr fun b hb => ?_,
      List.eq_nil_iff_forall_not_mem.mpr fun k hk => ?_,hcur,hfirst hacc⟩
    · exact h.separated.nonempty b.keyed
        (List.mem_append_left _ (List.mem_map_of_mem hb)) (hwritten b hb)
    · exact h.separated.nonempty k (List.mem_append_right _ hk) (hwaiting k hk)
  · right
    rw [h.order key,hlast hacc] at horder
    simpa [accepts] using horder

theorem Keyed.refuse {q : List DataBlock} {e : Entry} {es : List Entry}
    (h : Keyed codec opt file adds ⟨w,e::es,.between,q⟩ written waiting cur)
    (horder : outOfOrder w e.key = true) :
    Keyed codec opt file adds ⟨w,es,.between,q⟩ written waiting cur := by
  have haccepted := h.accepted
  rw [h.order,Bool.not_eq_true'] at horder
  simp only [acceptedEntries,horder,Bool.false_eq_true,if_false] at haccepted
  exact { h with accepted := haccepted }

theorem acceptedSoFar_adding (written : List FileBlock) (waiting : List KeyedBlock)
    (cur : List Entry) (e : Entry) : acceptedSoFar written waiting cur (.adding e) =
      acceptedSoFar written waiting cur .between++[e] := by
  simp only [acceptedSoFar,AddingAt.pending,List.append_nil,List.append_assoc]

theorem lastAccepted_snoc (acc : List Entry) (e : Entry) : lastAccepted (acc++[e]) = some e.key := by
  simp [lastAccepted]

/-- The key is accepted, with room for it: what was in the data builder may have been handed on. -/
theorem Keyed.room {q : List DataBlock} {e : Entry} {es : List Entry} {b : Option DataBlock}
    (h : Keyed codec opt file adds ⟨w,e::es,.between,q⟩ written waiting cur)
    (horder : outOfOrder w e.key = false) (hroom : makeRoom w e.key e.val = .ok (w',b)) :
    ∃ waiting' cur',
      Keyed codec opt file adds ⟨w',es,.adding e,q++b.toList⟩ written waiting' cur' := by
  obtain ⟨hcur,hblocks,hcount,-⟩ := h.above
  have hkey := h.key_above horder
  -- the accepted entries, wherever they are now
  have haccepted : ∀ waiting' cur', acceptedSoFar written waiting' cur' .between =
      acceptedSoFar written waiting cur .between →
      acceptedSoFar written waiting' cur' (.adding e)++acceptedEntries
        (lastAccepted (acceptedSoFar written waiting' cur' (.adding e))) es =
      acceptedEntries none adds := by
    intro waiting' cur' hsame
    have haccepts : accepts (lastAccepted (acceptedSoFar written waiting cur .between)) e.key = true := by
      rwa [h.order,Bool.not_eq_false'] at horder
    have hall := h.accepted
    simp only [acceptedEntries,haccepts,if_true] at hall
    rw [acceptedSoFar_adding,hsame,lastAccepted_snoc,List.append_assoc]
    exact hall
  simp only [makeRoom] at hroom
  split_ifs at hroom
  · obtain ⟨sep,hsep,hdetach⟩ := bind_eq_ok.mp hroom
    have hbounds : (∀ x ∈ cur, x.key ≤ sep) ∧
        ((∀ c ∈ written.map FileBlock.keyed++waiting, c.sep < e.key) ∧
          (cur ≠ [] → sep < e.key)) := by
      rcases hkey with ⟨rfl,rfl,rfl,-⟩ | hlt
      · simp
      · obtain ⟨s,hs,hstart,hlimit,-⟩ := bytesShortestSeparator_spec hlt
        obtain rfl := Except.ok.inj (hs.symm.trans hsep)
        exact ⟨fun x hx => (hcur x hx).trans hstart,fun c hc => (hblocks c hc).trans hlt,
          fun _ => hlimit⟩
    obtain ⟨data,waiting',rfl,hdata,hentries,hhanded,hcompression,hseparated,hfrom⟩ :=
      h.detach hbounds.1 hdetach
    refine ⟨waiting',[],?_⟩
    have hsame : acceptedSoFar written waiting' [] .between =
        acceptedSoFar written waiting cur .between := by
      simp only [acceptedSoFar,hentries,AddingAt.pending,List.append_nil]
    exact {
      accepted := haccepted waiting' [] hsame
      contents := h.contents
      offsets := h.offsets
      handed := hhanded
      data := hdata
      unfinished := fun _ => h.unfinished (by simp)
      finished := fun hpc => by cases hpc
      opt_eq := h.opt_eq
      compression := hcompression
      pendingOffset := fun _ => h.pendingOffset (by simp)
      separated := hseparated
      above := by
        rw [acceptedSoFar_adding,hsame,AddingAt.Above,List.length_append,← hcount]
        refine ⟨by simp,fun c hc => ?_,rfl⟩
        rcases hfrom c hc with hc | ⟨hne,rfl⟩
        · exact hbounds.2.1 c hc
        · exact hbounds.2.2 hne }
  · obtain ⟨rfl,rfl⟩ := Prod.mk.inj (Except.ok.inj hroom)
    refine ⟨waiting,cur,?_⟩
    rw [Option.toList_none,List.append_nil]
    exact { h with
      accepted := haccepted waiting cur rfl
      unfinished := fun _ => h.unfinished (by simp)
      finished := fun hpc => by cases hpc
      pendingOffset := fun _ => h.pendingOffset (by simp)
      above := by
        rw [acceptedSoFar_adding,AddingAt.Above,List.length_append,← hcount]
        rcases hkey with ⟨rfl,rfl,rfl,-⟩ | hlt
        · simp
        · exact ⟨fun x hx => (hcur x hx).trans hlt.le,fun c hc => (hblocks c hc).trans hlt,rfl⟩ }

theorem Keyed.accept {q : List DataBlock} {e : Entry} {es : List Entry}
    (h : Keyed codec opt file adds ⟨w,es,.adding e,q⟩ written waiting cur)
    (haccept : acceptEntry w e.key e.val = .ok w') :
    Keyed codec opt file adds ⟨w',es,.between,q⟩ written waiting (cur++[e]) := by
  obtain ⟨hcur,hblocks,hcount⟩ := h.above
  obtain ⟨data,hadd,haccept⟩ := bind_eq_ok.mp haccept
  obtain rfl := Except.ok.inj haccept
  have hsame : acceptedSoFar written waiting (cur++[e]) .between =
      acceptedSoFar written waiting cur (.adding e) := by
    simp only [acceptedSoFar,AddingAt.pending,List.append_nil]
  exact {
    accepted := by
      rw [hsame]
      exact h.accepted
    contents := h.contents
    offsets := h.offsets
    handed := h.handed
    data := by
      rw [blockBuilderAdds_snoc,h.data,ok_bind,hadd]
    unfinished := fun _ => h.unfinished (by simp)
    finished := fun hpc => by cases hpc
    opt_eq := h.opt_eq
    compression := h.compression
    pendingOffset := fun _ => h.pendingOffset (by simp)
    separated := h.separated.add hblocks
    above := by
      rw [hsame]
      refine ⟨fun x hx => ?_,hblocks,hcount,fun _ => ?_,fun hnil => ?_⟩
      · rcases List.mem_append.mp hx with hx | hx
        · exact hcur x hx
        · exact (congrArg Entry.key (List.mem_singleton.mp hx)).le
      · rw [acceptedSoFar_adding,lastAccepted_snoc]
      · rw [hnil] at hcount
        cases hcount }

theorem Keyed.flush {q : List DataBlock} {b : Option DataBlock}
    (h : Keyed codec opt file adds ⟨w,[],.between,q⟩ written waiting cur)
    (hdetach : detachBlock w = .ok (w',b)) :
    ∃ waiting', Keyed codec opt file adds ⟨w',[],.finishing,q++b.toList⟩ written waiting' [] := by
  obtain ⟨data,waiting',rfl,hdata,hentries,hhanded,hcompression,hseparated,-⟩ :=
    @Keyed.detach _ _ _ _ _ _ _ _ _ _ _ w.lastKey _ h h.above.1 hdetach
  have hsame : acceptedSoFar written waiting' [] .finishing =
      acceptedSoFar written waiting cur .between := by
    simp only [acceptedSoFar,hentries,AddingAt.pending,List.append_nil]
  exact ⟨waiting',{
    accepted := by
      rw [hsame]
      exact h.accepted
    contents := h.contents
    offsets := h.offsets
    handed := hhanded
    data := hdata
    unfinished := fun _ => h.unfinished (by simp)
    finished := fun hpc => by cases hpc
    opt_eq := h.opt_eq
    compression := hcompression
    pendingOffset := fun _ => h.pendingOffset (by simp)
    separated := hseparated
    above := rfl }⟩

theorem mtblWriterCompressBlock_eq {b b' : DataBlock}
    (h : mtblWriterCompressBlock codec b = .ok b') :
    ∃ raw, compressedData codec b.compType b.compLevel b.data = some raw ∧
      b' = { b with data := raw, crc := codec.crc32c raw } := by
  unfold mtblWriterCompressBlock at h
  split at h
  · cases h
  · exact ⟨_,‹_›,(Except.ok.inj h).symm⟩

/-- A block that is written has contents, and its frame is behind the file. -/
theorem mtblWriterWriteBlock_eq {b : DataBlock} {r : Bytes × ℕ} (hcrc : b.crc = codec.crc32c b.data)
    (h : mtblWriterWriteBlock file b = .ok r) :
    r = (file++frame codec b.data,(frame codec b.data).length) := by
  have hdata : 0 < b.data.length := by
    obtain ⟨_,_,h⟩ := bind_eq_ok.mp h
    obtain ⟨_,_,h⟩ := bind_eq_ok.mp h
    obtain ⟨_,hwrite,-⟩ := bind_eq_ok.mp h
    obtain ⟨_,hcheck,-⟩ := bind_eq_ok.mp hwrite
    exact check_eq_ok.mp hcheck
  exact Except.ok.inj (h.symm.trans (mtblWriterWriteBlock_spec codec file b hdata hcrc))

theorem indexEntries_snoc (b : FileBlock) :
    indexEntries (written++[b]) = indexEntries written++[⟨b.sep,mtblVarintEncode64 b.offset⟩] := by
  rw [indexEntries,List.map_append]
  rfl

theorem framesBytes_snoc (b : FileBlock) :
    framesBytes codec (written++[b]) = framesBytes codec written++frame codec b.raw := by
  simp [framesBytes]

/-- The first of the blocks handed on is written to the file, and its key and offset are added to the
index builder. -/
theorem Keyed.write {es : List Entry} {pc : AddingAt} {q : List DataBlock} {b b' : DataBlock}
    (h : Keyed codec opt file adds ⟨w,es,pc,b::q⟩ written waiting cur)
    (hcompress : mtblWriterCompressBlock codec b = .ok b')
    (hwrite : mtblWriterWriteDataBlock w b' = .ok w') : ∃ written' waiting',
      Keyed codec opt file adds ⟨w',es,pc,q⟩ written' waiting' cur := by
  obtain ⟨k,waiting',⟨hsep,hcontents⟩,hhanded,rfl⟩ := List.forall₂_cons_left_iff.mp h.handed
  have hpc : pc ≠ .finished := fun hfinished => by
    obtain ⟨hnil,-⟩ := h.finished hfinished
    cases hnil
  obtain ⟨htype,hlevel⟩ := h.compression b (List.mem_cons_self ..)
  obtain ⟨hfile,hindex⟩ := h.unfinished hpc
  obtain ⟨raw,hraw,rfl⟩ := mtblWriterCompressBlock_eq hcompress
  obtain ⟨r,hframe,hwrite⟩ := bind_eq_ok.mp hwrite
  obtain rfl := @mtblWriterWriteBlock_eq codec w.file _ _ rfl hframe
  obtain ⟨index,hadd,hwrite⟩ := bind_eq_ok.mp hwrite
  obtain rfl := Except.ok.inj hwrite
  have hoffset : w.pendingOffset = w.file.length := h.pendingOffset hpc
  let block : FileBlock := ⟨k.entries,k.sep,w.pendingOffset,raw⟩
  have hkeyed : (written++[block]).map FileBlock.keyed++waiting' =
      written.map FileBlock.keyed++k::waiting' := by
    rw [List.map_append,List.append_assoc]
    rfl
  have hsame : acceptedSoFar (written++[block]) waiting' cur pc =
      acceptedSoFar written (k::waiting') cur pc := by
    simp only [acceptedSoFar,fileEntries,List.flatMap_append,List.flatMap_cons,List.flatMap_nil,
      List.append_nil,List.append_assoc,block]
  refine ⟨written++[block],waiting',{
    accepted := ?_
    contents := ?_
    offsets := ?_
    handed := hhanded
    data := h.data
    unfinished := fun _ => ⟨?_,?_⟩
    finished := fun hfinished => absurd hfinished hpc
    opt_eq := h.opt_eq
    compression := fun c hc => h.compression c (List.mem_cons_of_mem _ hc)
    pendingOffset := fun _ => ?_
    separated := ?_
    above := ?_ }⟩
  · rw [hsame]
    exact h.accepted
  · intro c hc
    rcases List.mem_append.mp hc with hc | hc
    · exact h.contents c hc
    · rw [List.mem_singleton.mp hc,← htype,← hlevel]
      exact ⟨b.data,hcontents,hraw⟩
  · refine h.offsets.append ?_
    rw [← List.length_append,← hfile]
    exact hoffset
  · rw [framesBytes_snoc,← List.append_assoc,← hfile]
  · rw [indexEntries_snoc,blockBuilderAdds_snoc,hindex,ok_bind,← hadd,hsep]
  · rw [List.length_append,hoffset]
  · rw [hkeyed]
    exact h.separated
  · rw [hsame,hkeyed]
    cases pc with
    | between => exact h.above
    | adding e => exact h.above
    | finishing => exact h.above
    | finished => trivial

/-- The index block and the trailer end the file. -/
theorem Keyed.close (h : Keyed codec opt file adds ⟨w,[],.finishing,[]⟩ written waiting cur)
    (hindex : writeIndex codec w = .ok w') :
    Keyed codec opt file adds ⟨w',[],.finished,[]⟩ written waiting cur := by
  obtain rfl := List.forall₂_nil_left_iff.mp h.handed
  obtain rfl : cur = [] := h.above
  obtain ⟨hfile,hbuilder⟩ := h.unfinished (by simp)
  have hfile : w.file = file++framesBytes codec written := hfile
  have hend : w'.file = file++(framesBytes codec written++
      (frame codec (blockBuilderFinish w.index).2++metadataWrite (finalMetadata codec w))) := by
    obtain ⟨_,hclosed,-⟩ := bind_eq_ok.mp hindex
    obtain ⟨w'',hspec,hw''⟩ := writeIndex_spec codec (check_eq_ok.mp hclosed)
    obtain rfl := Except.ok.inj (hindex.symm.trans hspec)
    rw [hw'',hfile,List.append_assoc]
  obtain ⟨⟨hdata,hopt⟩,-⟩ := writeIndex_eq hindex
  exact {
    accepted := h.accepted
    contents := h.contents
    offsets := h.offsets
    handed := .nil
    data := h.data.trans (congrArg Except.ok hdata.symm)
    unfinished := fun hpc => absurd rfl hpc
    finished := fun _ => ⟨rfl,rfl,_,_,⟨_,hbuilder,rfl⟩,hend⟩
    opt_eq := hopt.trans h.opt_eq
    compression := h.compression
    pendingOffset := fun hpc => absurd rfl hpc
    separated := h.separated
    above := trivial }

theorem Keyed.step (h : Keyed codec opt file adds s written waiting cur)
    (hstep : WritingStep codec s s') :
    ∃ written' waiting' cur', Keyed codec opt file adds s' written' waiting' cur' := by
  cases hstep with
  | refuse order => exact ⟨_,_,_,h.refuse order⟩
  | room order room => exact ⟨_,h.room order room⟩
  | accept accept => exact ⟨_,_,_,h.accept accept⟩
  | flush detach =>
    obtain ⟨waiting',h'⟩ := h.flush detach
    exact ⟨_,_,_,h'⟩
  | write compress write =>
    obtain ⟨written',waiting',h'⟩ := h.write compress write
    exact ⟨_,_,_,h'⟩
  | close index => exact ⟨_,_,_,h.close index⟩

theorem WritingRun.keyed (h : WritingRun codec (startWriting opt file adds) s) :
    ∃ written waiting cur, Keyed codec opt file adds s written waiting cur := by
  induction h with
  | start => exact ⟨_,_,_,.init codec opt file adds⟩
  | step _ hstep ih =>
    obtain ⟨_,_,_,h⟩ := ih
    exact h.step hstep

/-- Index keys ascend strictly. -/
theorem Separated.ascending (h : Separated blocks cur) :
    blocks.Pairwise (fun a b => a.sep < b.sep) := by
  refine h.sep_lt.imp_of_mem fun {a b} _ hb hlt => ?_
  obtain ⟨e,he⟩ := List.exists_mem_of_ne_nil _ (h.nonempty b hb)
  exact (hlt e he).trans_le (h.le_sep b hb e he)

/-- The key of a block is below the entries of the next, be it finished or not. -/
theorem Separated.lt_next (h : Separated blocks cur) {i : ℕ} {b : KeyedBlock}
    (hb : blocks[i]? = some b) {next : List Entry}
    (hnext : (blocks.map KeyedBlock.entries++[cur])[i+1]? = some next) :
    ∀ e ∈ next, b.sep < e.key := by
  obtain ⟨hi,hget⟩ := List.getElem?_eq_some_iff.mp hb
  by_cases hlast : i+1 < blocks.length
  · rw [List.getElem?_append_left (by rwa [List.length_map]),List.getElem?_map,
      List.getElem?_eq_getElem hlast] at hnext
    obtain rfl := Option.some.inj hnext
    rw [← hget]
    exact List.pairwise_iff_getElem.mp h.sep_lt i (i+1) hi hlast (Nat.lt_succ_self i)
  · have hlength : (blocks.map KeyedBlock.entries).length = i+1 := by
      rw [List.length_map]
      omega
    rw [List.getElem?_append_right hlength.le,hlength,Nat.sub_self,List.getElem?_cons_zero] at hnext
    obtain rfl := Option.some.inj hnext
    exact h.below b (List.mem_of_getElem? hb)

end

/-- The separator lies between its arguments and is no longer than the first. In every run of a
writer, with a pool or without, the index has an entry for every data block of the file, with its
offset. The keys of the index ascend strictly, and each is at least every key of its data block and
below every key of the block behind it, be that written, handed on or in the making. -/
theorem index_keys_separate :
    (∀ start limit, bytesCompare start limit < 0 → ∃ sep,
      bytesShortestSeparator start limit = .ok sep ∧ bytesCompare start sep ≤ 0 ∧
      bytesCompare sep limit < 0 ∧ sep.length ≤ start.length) ∧
    ∀ (codec : Codec) (opt : WriterOptions) (file : Bytes) (adds : List Entry) (s : Writing),
      WritingRun codec (startWriting opt file adds) s →
      ∃ written waiting cur, Stored codec opt file adds s written waiting cur ∧
        (written.map FileBlock.sep).Pairwise (fun a b => bytesCompare a b < 0) ∧
        ∀ (i : ℕ) b, written[i]? = some b →
          (∀ e ∈ b.entries, bytesCompare e.key b.sep ≤ 0) ∧
          ∀ next, (blockEntries written waiting cur)[i+1]? = some next →
            ∀ e ∈ next, bytesCompare b.sep e.key < 0 := by
  simp only [bytesCompare_neg,bytesCompare_nonpos]
  refine ⟨fun start limit => bytesShortestSeparator_spec,fun codec opt file adds s hrun => ?_⟩
  obtain ⟨written,waiting,cur,h⟩ := hrun.keyed
  refine ⟨written,waiting,cur,h.toStored,?_,fun i b hb => ⟨?_,fun next hnext => ?_⟩⟩
  · have hasc := (List.pairwise_append.mp h.separated.ascending).1
    rwa [List.pairwise_map] at hasc ⊢
  · exact h.separated.le_sep b.keyed
      (List.mem_append_left _ (List.mem_map_of_mem (List.mem_of_getElem? hb)))
  · have hkeyed : (written.map FileBlock.keyed++waiting)[i]? = some b.keyed := by
      have hi := (List.getElem?_eq_some_iff.mp hb).1
      rw [List.getElem?_append_left (by rwa [List.length_map]),List.getElem?_map,hb]
      rfl
    refine @Separated.lt_next _ _ h.separated i b.keyed hkeyed next ?_
    rw [← hnext,blockEntries,List.map_append,List.map_map,List.append_assoc]
    rfl

set_option maxRecDepth 20000 in
/-- Two entries in two blocks, and one that is refused between them. -/
theorem two_blocks_written : ∃ w1 w2, writerAdds storingCodec
      (mtblWriterInitFd [] (some ⟨.none,0,1,1⟩))
      [⟨[97,98,99],[1]⟩,⟨[97],[3]⟩,⟨[97,98,122],[2]⟩] = .ok (w1,[true,false,true]) ∧
    mtblWriterFinish storingCodec w1 = .ok w2 := ⟨_,_,rfl,rfl⟩

theorem index_keys_separate_two : (∃ sep, bytesShortestSeparator [97,98,99] [97,98,122] = .ok sep ∧
      bytesCompare [97,98,99] sep ≤ 0 ∧ bytesCompare sep [97,98,122] < 0 ∧ sep.length ≤ 3) ∧
    ∃ w1 w2, writerAdds storingCodec (mtblWriterInitFd [] (some ⟨.none,0,1,1⟩))
        [⟨[97,98,99],[1]⟩,⟨[97],[3]⟩,⟨[97,98,122],[2]⟩] = .ok (w1,[true,false,true]) ∧
      mtblWriterFinish storingCodec w1 = .ok w2 ∧
      ∃ written, Stored storingCodec ⟨.none,0,1,1⟩ []
          [⟨[97,98,99],[1]⟩,⟨[97],[3]⟩,⟨[97,98,122],[2]⟩] ⟨w2,[],.finished,[]⟩ written [] [] ∧
        (written.map FileBlock.sep).Pairwise (fun a b => bytesCompare a b < 0) := by
  obtain ⟨w1,w2,hadds,hfinish⟩ := two_blocks_written
  refine ⟨index_keys_separate.1 [97,98,99] [97,98,122] (by decide),w1,w2,hadds,hfinish,?_⟩
  obtain ⟨written,waiting,cur,hstored,hascending,-⟩ :=
    index_keys_separate.2 _ _ _ _ _ (mtblWriterFinish_run hadds hfinish)
  obtain ⟨rfl,rfl,-⟩ := hstored.finished rfl
  exact ⟨written,hstored,hascending⟩

end Mtbl
