import Mtbl.Block.Inside
import Mtbl.File.RoundTrip

/-! Lengths of more than 32 bits. The writer takes keys and values of any length; the builder stores the
low 32 bits of the three lengths in front of an entry and the reader goes by those. -/
namespace Mtbl
open CRun Cursor

/-! ### One entry -/

/-- `decode_entry` finds the low 32 bits of each length. -/
theorem decodeEntry_encodeEntry (pre : Bytes) (shared : ℕ) (e : Entry) :
    ∃ q, decodeEntry (pre++encodeEntry shared e) pre.length (pre++encodeEntry shared e).length =
      .ok (some (q,shared%2^32,(e.key.length-shared)%2^32,e.val.length%2^32)) := by
  have hpos := Nat.two_pow_pos 32
  have hk := Nat.mod_le (e.key.length-shared) (2^32)
  have hv := Nat.mod_le e.val.length (2^32)
  have hdec := decodeEntry_headerBytes pre (e.key.drop shared++e.val)
    (pre++encodeEntry shared e).length (Nat.mod_lt shared hpos)
    (Nat.mod_lt (e.key.length-shared) hpos) (Nat.mod_lt e.val.length hpos)
    (by rw [headerBytes_mod,List.length_append,encodeEntry_length]; omega)
  rw [headerBytes_mod,← encodeEntry_eq] at hdec
  exact ⟨_,hdec⟩

theorem DecodesTo.head {data key : Bytes} {limit p : ℕ} {e : Entry} {es : List Entry}
    (h : DecodesTo data limit p key (e::es)) :
    ∃ q shared nonShared valueLength,
      decodeEntry data p limit = .ok (some (q,shared,nonShared,valueLength)) ∧
      e.key = key.take shared++(data.drop q).take nonShared ∧
      e.val = (data.drop (q+nonShared)).take valueLength := by
  generalize hes : e::es = xs at h
  cases h with
  | done => cases hes
  | entry header shared_le key_eq val_eq rest =>
    obtain ⟨rfl,rfl⟩ := List.cons.inj hes
    exact ⟨_,_,_,_,header,key_eq,val_eq⟩

/-- Read at its own place, behind the key before it, an entry is itself exactly if its three lengths
fit. -/
theorem decodesTo_encodeEntry_iff (pre prev : Bytes) {shared : ℕ} {e : Entry}
    (hprev : shared ≤ prev.length) (hkey : shared ≤ e.key.length)
    (htake : prev.take shared = e.key.take shared) :
    DecodesTo (pre++encodeEntry shared e) (pre++encodeEntry shared e).length pre.length prev [e] ↔
      Slot.Fits ⟨shared,e⟩ := by
  constructor
  · intro h
    obtain ⟨q,s,u,v,header,key_eq,val_eq⟩ := h.head
    obtain ⟨q',hdec⟩ := decodeEntry_encodeEntry pre shared e
    rw [hdec] at header
    simp only [Except.ok.injEq,Option.some.injEq,Prod.mk.injEq] at header
    obtain ⟨rfl,rfl,rfl,rfl⟩ := header
    have hklen : e.key.length ≤ shared%2^32+(e.key.length-shared)%2^32 :=
      (congrArg List.length key_eq).trans_le (by
        rw [List.length_append]
        exact Nat.add_le_add (List.length_take_le _ _) (List.length_take_le _ _))
    have hvlen : e.val.length ≤ e.val.length%2^32 :=
      (congrArg List.length val_eq).trans_le (List.length_take_le _ _)
    have hs := Nat.mod_le shared (2^32)
    have hu := Nat.mod_le (e.key.length-shared) (2^32)
    have hslt := Nat.mod_lt shared (Nat.two_pow_pos 32)
    have hult := Nat.mod_lt (e.key.length-shared) (Nat.two_pow_pos 32)
    have hvlt := Nat.mod_lt e.val.length (Nat.two_pow_pos 32)
    exact ⟨show shared < 2^32 by omega,show e.key.length-shared < 2^32 by omega,
      show e.val.length < 2^32 by omega⟩
  · intro hfits
    have hslots := @decodesTo_slots [⟨shared,e⟩] prev ⟨hprev,hkey,htake,trivial⟩
      (fun s hs => by rw [List.mem_singleton.mp hs]; exact hfits) pre []
    simpa [regionBytes,Slot.bytes] using hslots

theorem BlockBuilder.sharedWith_prefix (b : BlockBuilder) (key : Bytes) :
    b.sharedWith key ≤ b.lastKey.length ∧
      b.lastKey.take (b.sharedWith key) = key.take (b.sharedWith key) := by
  unfold sharedWith
  split_ifs
  · exact ⟨diffIndex_le_left _ _,take_diffIndex _ _⟩
  · exact ⟨Nat.zero_le _,rfl⟩

/-- The entry that a builder appends is the one it was given exactly if it takes it. -/
theorem blockBuilderAdd_decodesTo_iff {b b' : BlockBuilder} {key val : Bytes}
    (hadd : blockBuilderAdd b key val = .ok b') :
    DecodesTo b'.buf b'.buf.length b.buf.length b.lastKey [⟨key,val⟩] ↔ b.Takes ⟨key,val⟩ := by
  obtain ⟨hle,htake⟩ := b.sharedWith_prefix key
  rw [(blockBuilderAdd_eq hadd).1]
  exact decodesTo_encodeEntry_iff b.buf b.lastKey hle (b.sharedWith_le key) htake

/-! ### What a reader can return -/

/-- The value under the cursor has a 32-bit length. -/
def BlockIter.Narrow (bi : BlockIter) : Prop := bi.valLen < 2^32

theorem BlockIter.Narrow.parse {bi bi' : BlockIter} (h : bi.Narrow) {more : Bool}
    (hparse : parseNextKey bi = .ok (bi',more)) : bi'.Narrow := by
  rcases parseNextKey_eq_ok hparse with ⟨-,rfl⟩ | ⟨-,hp⟩
  · exact h
  · obtain ⟨r,hdec,-,hlen,-⟩ := hp.decoded
    obtain ⟨r',rfl,hentry⟩ := decodeAt_eq_some hdec
    obtain ⟨-,hhead,-,-⟩ := decodeEntry_eq_some hentry
    exact hlen.trans_lt (headerAt_lengths hhead).2

theorem blockIterInit_narrow {B : Block} {bi : BlockIter} (h : blockIterInit B = .ok bi) :
    bi.Narrow := by
  obtain ⟨-,-,h⟩ := bind_eq_ok.mp h
  obtain ⟨n,-,h⟩ := bind_eq_ok.mp h
  obtain ⟨-,-,h⟩ := bind_eq_ok.mp h
  obtain rfl := Except.ok.inj h
  exact Nat.two_pow_pos 32

theorem blockIterSeekToFirst_narrow {bi bi' : BlockIter} (h : bi.Narrow)
    (hseek : blockIterSeekToFirst bi = .ok bi') : bi'.Narrow := by
  obtain ⟨b,hpoint,hseek⟩ := bind_eq_ok.mp hseek
  obtain ⟨⟨b',more⟩,hparse,hseek⟩ := bind_eq_ok.mp hseek
  obtain rfl := Except.ok.inj hseek
  obtain ⟨offset,-,hpoint⟩ := bind_eq_ok.mp hpoint
  obtain rfl := Except.ok.inj hpoint
  exact @BlockIter.Narrow.parse { bi with key := [], restartIndex := 0, next := offset } _ h _ hparse

theorem moveInBlock_narrow {bi bi' : BlockIter} (h : bi.Narrow) {first : Bool}
    (hmove : moveInBlock first bi = .ok bi') : bi'.Narrow := by
  unfold moveInBlock blockIterNext at hmove
  split_ifs at hmove with hfirst hvalid
  · obtain rfl := Except.ok.inj hmove
    exact h
  · obtain rfl := Except.ok.inj hmove
    exact h
  · obtain ⟨⟨b,more⟩,hnext,hmove⟩ := bind_eq_ok.mp hmove
    obtain rfl := Except.ok.inj hmove
    obtain ⟨⟨b',more'⟩,hparse,hnext⟩ := bind_eq_ok.mp hnext
    obtain ⟨rfl,-⟩ := Prod.mk.inj (Except.ok.inj hnext)
    exact h.parse hparse

theorem BlockIter.Narrow.get {bi : BlockIter} (h : bi.Narrow) {e : Entry}
    (hget : blockIterGet bi = some e) : e.val.length < 2^32 := by
  unfold blockIterGet at hget
  split_ifs at hget
  obtain rfl := Option.some.inj hget
  exact (List.length_take_le _ _).trans_lt h

/-- Every cursor in a data block stands on a value with a 32-bit length. -/
def ReaderIter.Narrow (it : ReaderIter) : Prop := ∀ bi, it.bi = some bi → bi.Narrow

theorem enterBlock_narrow {codec : Codec} {it it' : ReaderIter} {o : Option Entry}
    (henter : enterBlock codec it = .ok (it',o)) :
    it'.Narrow ∧ ∀ e, o = some e → e.val.length < 2^32 := by
  obtain ⟨B,-,henter⟩ := bind_eq_ok.mp henter
  cases B with
  | none => cases henter
  | some B =>
    obtain ⟨bi,hinit,henter⟩ := bind_eq_ok.mp henter
    obtain ⟨bi',hseek,henter⟩ := bind_eq_ok.mp henter
    obtain ⟨rfl,rfl⟩ := Prod.mk.inj (Except.ok.inj henter)
    have hbi := blockIterSeekToFirst_narrow (blockIterInit_narrow hinit) hseek
    refine ⟨fun b hb => ?_,fun e he => hbi.get he⟩
    obtain rfl := Option.some.inj hb
    exact hbi

theorem advance_narrow {codec : Codec} {it it' : ReaderIter} {o : Option Entry} (h : it.Narrow)
    (hadvance : advance codec it = .ok (it',o)) :
    it'.Narrow ∧ ∀ e, o = some e → e.val.length < 2^32 := by
  obtain ⟨⟨it1,o1⟩,hstep,hadvance⟩ := bind_eq_ok.mp hadvance
  unfold stepInBlock at hstep
  cases hbi : it.bi with
  | none =>
    rw [hbi] at hstep
    cases hstep
  | some bi =>
    rw [hbi] at hstep
    obtain ⟨bi',hmove,hstep⟩ := bind_eq_ok.mp hstep
    obtain ⟨rfl,rfl⟩ := Prod.mk.inj (Except.ok.inj hstep)
    have hnarrow := moveInBlock_narrow (h bi hbi) hmove
    cases hget : blockIterGet bi' with
    | some e =>
      rw [hget] at hadvance
      obtain ⟨rfl,rfl⟩ := Prod.mk.inj (Except.ok.inj hadvance)
      refine ⟨fun b hb => ?_,fun e' he => ?_⟩
      · obtain rfl := Option.some.inj hb
        exact hnarrow
      · obtain rfl := Option.some.inj he
        exact hnarrow.get hget
    | none =>
      rw [hget] at hadvance
      obtain ⟨⟨ii,more⟩,-,hadvance⟩ := bind_eq_ok.mp hadvance
      cases more with
      | true => exact enterBlock_narrow hadvance
      | false =>
        obtain ⟨rfl,rfl⟩ := Prod.mk.inj (Except.ok.inj hadvance)
        refine ⟨fun b hb => ?_,fun e he => ?_⟩
        · cases hb
        · cases he

theorem readerIterNext_narrow {codec : Codec} {it it' : ReaderIter} {o : Option Entry}
    (h : it.Narrow) (hnext : readerIterNext codec it = .ok (o,it')) :
    it'.Narrow ∧ ∀ e, o = some e → e.val.length < 2^32 := by
  unfold readerIterNext at hnext
  split_ifs at hnext with hvalid
  · obtain ⟨rfl,rfl⟩ := Prod.mk.inj (Except.ok.inj hnext)
    exact ⟨h,fun e he => by cases he⟩
  · obtain ⟨⟨it1,o1⟩,hadvance,hnext⟩ := bind_eq_ok.mp hnext
    obtain ⟨h1,hshort⟩ := advance_narrow h hadvance
    cases o1 with
    | none =>
      obtain ⟨rfl,rfl⟩ := Prod.mk.inj (Except.ok.inj hnext)
      exact ⟨h1,fun e he => by cases he⟩
    | some e1 =>
      obtain ⟨rfl,rfl⟩ := Prod.mk.inj (Except.ok.inj hnext)
      refine ⟨h1,fun e he => hshort e ?_⟩
      split_ifs at he
      exact he

theorem readerIter_narrow {codec : Codec} {r : Reader} {it : ReaderIter}
    (hiter : readerIter codec r = .ok (some it)) : it.Narrow := by
  obtain ⟨ii,-,hiter⟩ := bind_eq_ok.mp hiter
  obtain ⟨ii',-,hiter⟩ := bind_eq_ok.mp hiter
  obtain ⟨B,-,hiter⟩ := bind_eq_ok.mp hiter
  cases B with
  | none => cases hiter
  | some B =>
    obtain ⟨bi,hinit,hiter⟩ := bind_eq_ok.mp hiter
    obtain ⟨bi',hseek,hiter⟩ := bind_eq_ok.mp hiter
    obtain rfl := Option.some.inj (Except.ok.inj hiter)
    intro b hb
    obtain rfl := Option.some.inj hb
    exact blockIterSeekToFirst_narrow (blockIterInit_narrow hinit) hseek

/-- No scan returns a value of `2^32` bytes or more. -/
theorem nexts_narrow {codec : Codec} {n : ℕ} {it it' : ReaderIter} {answers : List (Option Entry)}
    (h : it.Narrow) (hrun : nexts (readerIterNext codec) n it = .ok (answers,it')) {e : Entry}
    (he : some e ∈ answers) : e.val.length < 2^32 := by
  induction n generalizing it answers with
  | zero =>
    obtain ⟨rfl,-⟩ := Prod.mk.inj (Except.ok.inj hrun)
    cases he
  | succ n ih =>
    obtain ⟨⟨o,it1⟩,hnext,hrun⟩ := bind_eq_ok.mp hrun
    obtain ⟨⟨os,it2⟩,hrest,hrun⟩ := bind_eq_ok.mp hrun
    obtain ⟨rfl,rfl⟩ := Prod.mk.inj (Except.ok.inj hrun)
    obtain ⟨h1,hshort⟩ := readerIterNext_narrow h hnext
    rcases List.mem_cons.mp he with he | he
    · exact hshort e he.symm
    · exact ih h1 hrest he

/-! ### The writer goes by no length -/

/-- The assertions of a writer without compression hold. -/
structure Writer.Ready (w : Writer) : Prop where
  unclosed : w.closed = false
  version : w.m.fileVersion = .formatV2
  plain : w.opt.compressionType = .none
  data : w.data.Ready
  index : w.index.Ready
  first : w.m.countEntries = 0 → w.lastKey = []

section
variable {codec : Codec} {w : Writer}

theorem Writer.Ready.init (pre : Bytes) {opt : WriterOptions} (hnone : opt.compressionType = .none)
    (hinterval : 1 ≤ opt.blockRestartInterval) : (mtblWriterInitFd pre (some opt)).Ready :=
  ⟨rfl,rfl,hnone,⟨hinterval,Nat.zero_le _,rfl⟩,⟨hinterval,Nat.zero_le _,rfl⟩,fun _ => rfl⟩

/-- Handing on what is in the making, under whatever separator. -/
theorem Writer.Ready.flush (h : w.Ready) (lastKey : Bytes)
    (hfirst : w.m.countEntries = 0 → lastKey = []) :
    ∃ w1 b w', detachBlock { w with lastKey := lastKey } = .ok (w1,b) ∧
      emitBlock codec w1 b = .ok w' ∧ w'.Ready := by
  cases hempty : blockBuilderEmpty w.data with
  | true =>
    refine ⟨{ w with lastKey := lastKey },none,{ w with lastKey := lastKey },?_,rfl,
      { h with first := hfirst }⟩
    simp only [detachBlock,check_of h.unclosed,check_of h.version,ok_bind,hempty,if_true,pure_eq_ok]
  | false =>
    have hfinish := blockBuilderFinish_length w.data
    obtain ⟨index,hadd,hindex⟩ := blockBuilderAdd_ready h.index lastKey
      (mtblVarintEncode64 w.pendingOffset)
    have hcomp : compressedData codec w.opt.compressionType w.opt.compressionLevel
        (blockBuilderFinish w.data).2 = some (blockBuilderFinish w.data).2 := if_pos h.plain
    refine ⟨_,_,_,@detachBlock_block { w with lastKey := lastKey } h.unclosed h.version hempty,
      @emitBlock_block codec { w with
        lastKey := lastKey, data := blockBuilderReset (blockBuilderFinish w.data).1 } _ _ _ _ _
        hcomp (by omega) hadd,?_⟩
    exact { h with
      data := ⟨h.data.interval,Nat.zero_le _,rfl⟩
      index := hindex
      first := hfirst }

theorem Writer.Ready.makeRoom (h : w.Ready) {key : Bytes} (horder : outOfOrder w key = false)
    (val : Bytes) : ∃ w1 b w', Mtbl.makeRoom w key val = .ok (w1,b) ∧
      emitBlock codec w1 b = .ok w' ∧ w'.Ready := by
  unfold Mtbl.makeRoom
  simp only
  split_ifs
  · obtain ⟨sep,hsep,hfirst⟩ : ∃ sep, bytesShortestSeparator w.lastKey key = .ok sep ∧
        (w.m.countEntries = 0 → sep = []) := by
      by_cases hzero : w.m.countEntries = 0
      · rw [h.first hzero]
        exact ⟨[],bytesShortestSeparator_nil key,fun _ => rfl⟩
      · have hlt : w.lastKey < key := by
          simpa [Mtbl.outOfOrder,Nat.pos_of_ne_zero hzero] using horder
        obtain ⟨sep,hsep,-⟩ := bytesShortestSeparator_spec hlt
        exact ⟨sep,hsep,fun h0 => absurd h0 hzero⟩
    rw [hsep]
    exact h.flush sep hfirst
  · exact ⟨w,none,w,rfl,rfl,h⟩

/-- A key in order is accepted, however long it and its value are. -/
theorem Writer.Ready.add (h : w.Ready) {key : Bytes} (horder : outOfOrder w key = false)
    (val : Bytes) : ∃ w', mtblWriterAdd codec w key val = .ok (w',true) ∧ w'.Ready := by
  obtain ⟨w1,b,w2,hroom,hemit,h2⟩ := @Writer.Ready.makeRoom codec w h key horder val
  obtain ⟨data,hadd,hdata⟩ := blockBuilderAdd_ready h2.data key val
  have haccept : ∃ w', acceptEntry w2 key val = .ok w' ∧ w'.Ready := by
    refine ⟨_,by simp only [acceptEntry,hadd,ok_bind]; rfl,?_⟩
    exact ⟨h2.unclosed,h2.version,h2.plain,hdata,h2.index,fun hzero => by simp at hzero⟩
  obtain ⟨w',haccept,h'⟩ := haccept
  refine ⟨w',?_,h'⟩
  simp only [mtblWriterAdd,check_of h.unclosed,ok_bind,horder,Bool.false_eq_true,if_false,hroom,
    hemit,haccept,pure_eq_ok]

theorem Writer.Ready.adds (h : w.Ready) (adds : List Entry) :
    ∃ w' results, writerAdds codec w adds = .ok (w',results) ∧ w'.Ready := by
  induction adds generalizing w with
  | nil => exact ⟨w,[],rfl,h⟩
  | cons e adds ih =>
    cases horder : outOfOrder w e.key with
    | true =>
      obtain ⟨w',results,hrun,h'⟩ := ih h
      refine ⟨w',false::results,?_,h'⟩
      simp only [writerAdds,mtblWriterAdd,check_of h.unclosed,ok_bind,horder,if_true,pure_eq_ok,
        hrun]
    | false =>
      obtain ⟨w1,hadd,h1⟩ := @Writer.Ready.add codec w h e.key horder e.val
      obtain ⟨w',results,hrun,h'⟩ := ih h1
      exact ⟨w',true::results,by simp only [writerAdds,hadd,ok_bind,hrun,pure_eq_ok],h'⟩

theorem Writer.Ready.destroy (h : w.Ready) : ∃ file, mtblWriterDestroy codec w = .ok file := by
  obtain ⟨w1,b,w2,hdetach,hemit,h2⟩ := @Writer.Ready.flush codec w h w.lastKey h.first
  obtain ⟨w3,hindex,-⟩ := writeIndex_spec codec h2.unclosed
  refine ⟨w3.file,?_⟩
  simp only [mtblWriterDestroy,h.unclosed,Bool.false_eq_true,if_false,mtblWriterFinish,
    mtblWriterFlush,hdetach,hemit,hindex,ok_bind,pure_eq_ok]

end

/-! ### Whole files -/

/-- A scan of the file returns the entry. -/
def ReadsBack (codec : Codec) (file : Bytes) (e : Entry) : Prop :=
  ∀ ropt, ∃ r it n answers it', mtblReaderInitFd codec file ropt = .ok (some r) ∧
    readerIter codec r = .ok (some it) ∧
    nexts (readerIterNext codec) n it = .ok (answers,it') ∧ some e ∈ answers

/-- Unless an assertion stops the writer, the entries it accepts are read back. -/
def KeepsLengths (codec : Codec) (pre : Bytes) (opt : WriterOptions) (adds : List Entry) : Prop :=
  ∀ (w : Writer) (results : List Bool) (file : Bytes),
    writerAdds codec (mtblWriterInitFd pre (some opt)) adds = .ok (w,results) →
    mtblWriterDestroy codec w = .ok file →
    ∀ (i : ℕ) (e : Entry), adds[i]? = some e → results[i]? = some true → ReadsBack codec file e

theorem mem_acceptedEntries {adds : List Entry} {last : Option Bytes} {i : ℕ} {e : Entry}
    (hadd : adds[i]? = some e) (hres : (addResults last adds)[i]? = some true) :
    e ∈ acceptedEntries last adds := by
  induction adds generalizing last i with
  | nil => simp at hadd
  | cons a adds ih =>
    unfold addResults at hres
    unfold acceptedEntries
    split_ifs at hres ⊢ with hacc
    · cases i with
      | zero =>
        obtain rfl : a = e := by simpa using hadd
        exact List.mem_cons_self
      | succ i => exact List.mem_cons_of_mem a (ih hadd hres)
    · cases i with
      | zero => simp at hres
      | succ i => exact ih hadd hres

theorem Enumerates.readsBack {codec : Codec} {file : Bytes} {es : List Entry}
    (h : ∀ ropt, ∃ r it, mtblReaderInitFd codec file ropt = .ok (some r) ∧
      readerIter codec r = .ok (some it) ∧ Enumerates (readerIterNext codec) it es)
    {e : Entry} (he : e ∈ es) : ReadsBack codec file e := by
  intro ropt
  obtain ⟨r,it,hopen,hiter,henum⟩ := h ropt
  obtain ⟨i,hi⟩ := List.getElem?_of_mem he
  obtain ⟨it',hrun⟩ := henum (i+1)
  refine ⟨r,it,i+1,_,it',hopen,hiter,hrun,?_⟩
  rw [← hi]
  exact List.mem_map_of_mem (List.mem_range.mpr (Nat.lt_succ_self i))

/-- A scan returns no value of `2^32` bytes or more, and so no entry that holds one. -/
theorem ReadsBack.short {codec : Codec} {file : Bytes} {e : Entry}
    (h : ReadsBack codec file e) : e.val.length < 2^32 := by
  obtain ⟨r,it,n,answers,it',-,hiter,hrun,he⟩ := h ⟨false⟩
  exact nexts_narrow (readerIter_narrow hiter) hrun he

/-- A value of `2^32` bytes is accepted and lost. -/
theorem no_silent_truncation_fails :
    ¬ KeepsLengths storingCodec [] plainOptions [⟨[97],List.replicate (2^32) 0⟩] := by
  have hlen : (List.replicate (2^32) (0 : UInt8)).length = 2^32 := List.length_replicate
  generalize List.replicate (2^32) (0 : UInt8) = val at hlen
  intro hkeeps
  obtain ⟨w,hadd,hw⟩ := @Writer.Ready.add storingCodec _
    (@Writer.Ready.init [] plainOptions rfl le_rfl) [97] rfl val
  obtain ⟨file,hdestroy⟩ := @Writer.Ready.destroy storingCodec w hw
  have hrun : writerAdds storingCodec (mtblWriterInitFd [] (some plainOptions)) [⟨[97],val⟩] =
      .ok (w,[true]) := by simp only [writerAdds,hadd,ok_bind,pure_eq_ok]
  have hshort := (hkeeps w [true] file hrun hdestroy 0 ⟨[97],val⟩ rfl rfl).short
  simp only at hshort
  omega

/-- Written entries come back whole if the lengths of all that is given to a block builder fit, in blocks
and a file that can be read at all; values have to fit for that. An entry is stored as it was given
exactly if its lengths fit. -/
theorem no_silent_truncation (codec : Codec) (pre : Bytes) (opt : WriterOptions)
    (hnone : opt.compressionType = .none) (hinterval : 1 ≤ opt.blockRestartInterval)
    (adds : List Entry) :
    (WriterTakes codec (mtblWriterInitFd pre (some opt)) adds →
      WriterFits codec (mtblWriterInitFd pre (some opt)) adds → KeepsLengths codec pre opt adds) ∧
    (KeepsLengths codec pre opt adds → ∀ (w : Writer) (results : List Bool),
      writerAdds codec (mtblWriterInitFd pre (some opt)) adds = .ok (w,results) →
      ∀ (i : ℕ) (e : Entry), adds[i]? = some e → results[i]? = some true → e.val.length < 2^32) ∧
    (∃ w results file, writerAdds codec (mtblWriterInitFd pre (some opt)) adds = .ok (w,results) ∧
      mtblWriterDestroy codec w = .ok file) ∧
    ∀ (b b' : BlockBuilder) (key val : Bytes), blockBuilderAdd b key val = .ok b' →
      (DecodesTo b'.buf b'.buf.length b.buf.length b.lastKey [⟨key,val⟩] ↔ b.Takes ⟨key,val⟩) := by
  have hready := Writer.Ready.init pre hnone hinterval
  obtain ⟨w0,results0,hrun0,hw0⟩ := @Writer.Ready.adds codec _ hready adds
  obtain ⟨file0,hdestroy0⟩ := @Writer.Ready.destroy codec w0 hw0
  refine ⟨fun htakes hfits w results file hrun hdestroy i e hadd hres => ?_,
    fun hkeeps w results hrun i e hadd hres => ?_,⟨w0,results0,file0,hrun0,hdestroy0⟩,
    fun b b' key val => blockBuilderAdd_decodesTo_iff⟩
  · obtain ⟨w1,file1,t,blocks,m,ib,hrun1,hdestroy1,hfin,hentries⟩ :=
      writer_runs_of_takes hinterval htakes hfits
    obtain ⟨rfl,rfl⟩ := Prod.mk.inj (Except.ok.inj (hrun.symm.trans hrun1))
    obtain rfl := Except.ok.inj (hdestroy.symm.trans hdestroy1)
    have hmem := mem_acceptedEntries hadd hres
    rw [← hentries] at hmem
    apply Enumerates.readsBack (fun ropt => ?_) hmem
    obtain ⟨r,hopen,hholds⟩ := mtblReaderInitFd_spec hfin ropt
    obtain ⟨it,hiter,henum⟩ := (readerIter_returns hholds).2 (List.ne_nil_of_mem hmem)
    exact ⟨r,it,hopen,hiter,henum⟩
  · obtain ⟨rfl,rfl⟩ := Prod.mk.inj (Except.ok.inj (hrun.symm.trans hrun0))
    exact (hkeeps w results file0 hrun hdestroy0 i e hadd hres).short

theorem no_silent_truncation_one :
    KeepsLengths storingCodec [] plainOptions [⟨[97],[1]⟩,⟨[98],[2]⟩] :=
  (no_silent_truncation storingCodec [] plainOptions rfl le_rfl [⟨[97],[1]⟩,⟨[98],[2]⟩]).1
    (writerTakes_of_small (by decide) (by decide)) (by decide +kernel)

end Mtbl
