import Mtbl.Block.Build
import Mtbl.Lib.Cursor

/-! The block iterator refines the cursor over a list of entries, and the block builder produces a
block that shows the entries it was given. The slots behind the entries are hidden here. -/
namespace Mtbl
open CRun Cursor

/-- Keys ascend strictly. -/
def Ascending (es : List Entry) : Prop := es.Pairwise (fun a b => a.key < b.key)

/-- The iterator reads a block with these entries and stands on position `i`, the end of the list
standing for an invalid iterator. -/
def Shows (bi : BlockIter) (es : List Entry) (i : ℕ) : Prop :=
  ∃ slots rs, slots.map Slot.entry = es ∧ bi.Stores slots rs ∧ bi.Cursor slots rs i

theorem keysAscending_of_map {slots : List Slot} (h : Ascending (slots.map Slot.entry)) :
    KeysAscending slots := by
  rwa [Ascending,List.pairwise_map] at h

theorem FirstGe.drop {slots : List Slot} {target : Bytes} {j : ℕ} (h : FirstGe slots target j)
    (hj : j ≤ slots.length) :
    (slots.map Slot.entry).drop j = seekList Entry.key (slots.map Slot.entry) target := by
  refine drop_eq_seekList (by simpa using hj) ?_ ?_
  · intro k e hk he
    rw [List.getElem?_map] at he
    obtain ⟨s,hs,rfl⟩ := Option.map_eq_some_iff.mp he
    exact h.below k s hk hs
  · intro e he
    rw [List.getElem?_map] at he
    obtain ⟨s,hs,rfl⟩ := Option.map_eq_some_iff.mp he
    exact h.ge s hs

namespace Shows
variable {bi : BlockIter} {es : List Entry} {i : ℕ}

theorem le (h : Shows bi es i) : i ≤ es.length := by
  obtain ⟨slots,rs,rfl,-,hc⟩ := h
  rw [List.length_map]
  rcases hc with ⟨hlt,-⟩ | ⟨heq,-⟩ <;> omega

/-- An iterator shows one list only. -/
theorem unique {es' : List Entry} {i' : ℕ} (h : Shows bi es i) (h' : Shows bi es' i') :
    es = es' := by
  obtain ⟨slots,rs,rfl,hs,-⟩ := h
  obtain ⟨slots',rs',rfl,hs',-⟩ := h'
  exact hs.toSlotted.entries_unique hs'.toSlotted

theorem get (h : Shows bi es i) : blockIterGet bi = es[i]? := by
  obtain ⟨slots,rs,rfl,hs,hc⟩ := h
  rw [hc.get hs.toSlotted,List.getElem?_map]

theorem valid (h : Shows bi es i) : blockIterValid bi = decide (i < es.length) := by
  obtain ⟨slots,rs,rfl,hs,hc⟩ := h
  rw [List.length_map]
  rcases hc with ⟨hlt,ha⟩ | ⟨heq,hp⟩
  · rw [ha.valid hs.toSlotted,decide_eq_true hlt]
  · rw [hp.valid,decide_eq_false (by omega)]

/-- The value pointer points at the value, which more bytes may follow. -/
theorem value (h : Shows bi es i) {e : Entry} (he : es[i]? = some e) :
    ∃ rest, bi.data.drop bi.val = e.val++rest := by
  obtain ⟨slots,rs,rfl,hs,hc⟩ := h
  rw [List.getElem?_map] at he
  obtain ⟨s,hsi,rfl⟩ := Option.map_eq_some_iff.mp he
  rcases hc with ⟨-,ha⟩ | ⟨heq,-⟩
  · obtain ⟨t,ht,-,hv⟩ := ha.entry
    obtain rfl : s = t := Option.some.inj (hsi.symm.trans ht)
    exact ⟨_,by rw [← hv,List.take_append_drop]⟩
  · rw [heq,List.getElem?_eq_none le_rfl] at hsi
    cases hsi

theorem next (h : Shows bi es i) :
    ∃ bi', blockIterNext bi = .ok (bi',decide (i+1 < es.length)) ∧
      Shows bi' es (min (i+1) es.length) := by
  obtain ⟨slots,rs,rfl,hs,hc⟩ := h
  obtain ⟨bi',hrun,hc',hsame⟩ := BlockIter.blockIterNext_spec hs.toSlotted hc
  rw [List.length_map]
  exact ⟨bi',hrun,slots,rs,rfl,hsame.stores hs,hc'⟩

theorem seekToFirst (h : Shows bi es i) :
    ∃ bi', blockIterSeekToFirst bi = .ok bi' ∧ Shows bi' es 0 := by
  obtain ⟨slots,rs,rfl,hs,hc⟩ := h
  obtain ⟨bi',hrun,hc',hsame⟩ := BlockIter.blockIterSeekToFirst_spec hs.toSlotted
  exact ⟨bi',hrun,slots,rs,rfl,hsame.stores hs,hc'⟩

/-- Seeking in a sorted block leaves the entries at or after the target. -/
theorem seek (h : Shows bi es i) (hsort : Ascending es) (target : Bytes) :
    ∃ bi' j, blockIterSeek bi target = .ok bi' ∧ Shows bi' es j ∧
      es.drop j = seekList Entry.key es target := by
  obtain ⟨slots,rs,rfl,hs,hc⟩ := h
  obtain ⟨bi',j,hrun,hc',hge,hsame⟩ :=
    BlockIter.blockIterSeek_spec hs (keysAscending_of_map hsort) hc target
  have hshows : Shows bi' (slots.map Slot.entry) j := ⟨slots,rs,rfl,hsame.stores hs,hc'⟩
  have hle := hshows.le
  rw [List.length_map] at hle
  exact ⟨bi',j,hrun,hshows,hge.drop hle⟩

end Shows

/-! ### What the builder was given -/

/-- The builder was given these entries since its last reset. -/
def Builds (b : BlockBuilder) (es : List Entry) : Prop :=
  ∃ slots rs, slots.map Slot.entry = es ∧ Built b slots rs

namespace Builds
variable {b : BlockBuilder} {es : List Entry}

theorem init (interval : ℕ) : Builds (blockBuilderInit interval) [] := ⟨[],[0],rfl,.init interval⟩

theorem reset (b : BlockBuilder) : Builds (blockBuilderReset b) [] := ⟨[],[0],rfl,.reset b⟩

theorem takes (h : Builds b es) (hinterval : 0 < b.blockRestartInterval) {key val : Bytes}
    (htakes : b.Takes ⟨key,val⟩) :
    ∃ b', blockBuilderAdd b key val = .ok b' ∧ Builds b' (es++[⟨key,val⟩]) ∧
      b'.blockRestartInterval = b.blockRestartInterval := by
  obtain ⟨slots,rs,rfl,hb⟩ := h
  obtain ⟨b',rs',hrun,hb',hint⟩ := blockBuilderAdd_spec hb hinterval htakes
  exact ⟨b',hrun,⟨_,rs',by simp,hb'⟩,hint⟩

theorem add (h : Builds b es) (hinterval : 0 < b.blockRestartInterval) {key val : Bytes}
    (hsmall : Entry.Small ⟨key,val⟩) :
    ∃ b', blockBuilderAdd b key val = .ok b' ∧ Builds b' (es++[⟨key,val⟩]) ∧
      b'.blockRestartInterval = b.blockRestartInterval := h.takes hinterval (hsmall.takes b)

theorem empty_iff (h : Builds b es) : blockBuilderEmpty b = true ↔ es = [] := by
  obtain ⟨slots,rs,rfl,hb⟩ := h
  rw [blockBuilderEmpty,beq_iff_eq,hb.buf,List.map_eq_nil_iff]
  constructor
  · intro hz
    cases slots with
    | nil => rfl
    | cons s slots =>
      have hpos := Slot.bytes_length_pos (hb.fits s (by simp))
      simp only [regionBytes,List.flatMap_cons,List.length_append] at hz
      omega
  · rintro rfl
    rfl

theorem finish (h : Builds b es) (front : Front) (tail : Bytes) (hcount : b.restarts.length < 2^31)
    (hsize : b.buf.length < 2^63) :
    ∃ B bi, blockInit front ((blockBuilderFinish b).2++tail) (blockBuilderFinish b).2.length = .ok B ∧
      blockIterInit B = .ok bi ∧ Shows bi es es.length := by
  obtain ⟨slots,rs,rfl,hb⟩ := h
  obtain ⟨B,bi,hinit,-,hiter,hnum,hslotted,hp⟩ := hb.finish front tail (by omega) hsize
  exact ⟨B,bi,hinit,hiter,slots,rs,rfl,⟨hslotted,hnum ▸ hcount⟩,.inr ⟨by rw [List.length_map],hp⟩⟩

end Builds

/-! ### Reading without the restart array -/

/-- The entries that `decode_entry` finds one after another from `p` to the limit, each key sharing
with the one before it. -/
inductive DecodesTo (data : Bytes) (limit : ℕ) : ℕ → Bytes → List Entry → Prop
  | done (key : Bytes) : DecodesTo data limit limit key []
  | entry {p q shared nonShared valueLength : ℕ} {key : Bytes} {e : Entry} {es : List Entry}
      (header : decodeEntry data p limit = .ok (some (q,shared,nonShared,valueLength)))
      (shared_le : shared ≤ key.length)
      (key_eq : e.key = key.take shared++(data.drop q).take nonShared)
      (val_eq : e.val = (data.drop (q+nonShared)).take valueLength)
      (rest : DecodesTo data limit (q+nonShared+valueLength) e.key es) :
      DecodesTo data limit p key (e::es)

/-- The slots behind `pre` decode to their entries. -/
theorem decodesTo_slots {slots : List Slot} {key : Bytes} (hshared : SharedOk key slots)
    (hfits : ∀ s ∈ slots, s.Fits) (pre tail : Bytes) :
    DecodesTo (pre++regionBytes slots++tail) (pre++regionBytes slots).length pre.length key
      (slots.map Slot.entry) := by
  induction slots generalizing key pre with
  | nil =>
    rw [regionBytes,List.flatMap_nil,List.append_nil]
    exact .done key
  | cons s slots ih =>
    obtain ⟨hle,hle',htake,hrest⟩ := hshared
    obtain ⟨hsh,hsuffixLt,hval⟩ := hfits s (List.mem_cons_self ..)
    have hlen := encodeEntry_length s.shared s.entry
    have hregion : regionBytes (s::slots) = s.bytes++regionBytes slots := by
      simp [regionBytes]
    have hdata : pre++regionBytes (s::slots)++tail = pre++(headerBytes s.shared
        (s.entry.key.length-s.shared) s.entry.val.length++(s.entry.key.drop s.shared++
          (s.entry.val++(regionBytes slots++tail)))) := by
      simp only [hregion,Slot.bytes,encodeEntry_eq,List.append_assoc]
    have hdrop : ∀ q, q = pre.length+(headerBytes s.shared (s.entry.key.length-s.shared)
        s.entry.val.length).length → (pre++regionBytes (s::slots)++tail).drop q =
          s.entry.key.drop s.shared++(s.entry.val++(regionBytes slots++tail)) := by
      rintro q rfl
      rw [hdata,List.drop_length_add_append,List.drop_left]
    have hsuffix : (s.entry.key.drop s.shared).length = s.entry.key.length-s.shared :=
      List.length_drop
    have hheader : decodeEntry (pre++regionBytes (s::slots)++tail) pre.length
        (pre++regionBytes (s::slots)).length = .ok (some (pre.length+(headerBytes s.shared
          (s.entry.key.length-s.shared) s.entry.val.length).length,s.shared,
          s.entry.key.length-s.shared,s.entry.val.length)) := by
      rw [hdata]
      apply decodeEntry_headerBytes _ _ _ hsh hsuffixLt hval
      rw [hregion,List.length_append,List.length_append,Slot.bytes,hlen]
      omega
    refine .entry hheader hle ?_ ?_ ?_
    · rw [hdrop _ rfl,← hsuffix,List.take_left,htake,List.take_append_drop]
    · rw [← List.drop_drop,hdrop _ rfl,← hsuffix,List.drop_left,List.take_left]
    · have hnext := ih hrest (fun t ht => hfits t (List.mem_cons_of_mem _ ht)) (pre++s.bytes)
      have hend : (pre++s.bytes).length = pre.length+(headerBytes s.shared
          (s.entry.key.length-s.shared) s.entry.val.length).length+
          (s.entry.key.length-s.shared)+s.entry.val.length := by
        rw [List.length_append,Slot.bytes,hlen]
        omega
      rwa [List.append_assoc pre,← hregion,hend] at hnext

/-- The finished block starts with the entries the builder was given. -/
theorem Builds.decodesTo {b : BlockBuilder} {es : List Entry} (h : Builds b es) :
    DecodesTo (blockBuilderFinish b).2 b.buf.length 0 [] es := by
  obtain ⟨slots,rs,rfl,hb⟩ := h
  have hdecode := decodesTo_slots hb.sharedOk hb.fits []
    (encodeRestarts (decide (b.buf.length > uint32Max)) b.restarts++
      mtblFixedEncode32 b.restarts.length)
  rw [List.nil_append,← hb.buf,← List.append_assoc] at hdecode
  exact hdecode

end Mtbl
