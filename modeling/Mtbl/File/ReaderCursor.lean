import Mtbl.File.Blocks

/-! The reader iterator as the plain cursor over the file's entries. Its state is a cached data block
with a cursor, a cursor over the index, and the flags `first` and `valid`. While the iterator is
valid the cached block is the one under the index cursor; `blockOffset` plays no part in this,
because stepping into the next block does not record where that block starts. The lemmas are over a
reader that may stop where it loads a block; one that never does is a case of it. -/
namespace Mtbl
open CRun Cursor

/-- The iterator caches the data block `b` and has a cursor at position `i` in it. -/
structure Caches (codec : Codec) (it : ReaderIter) (b : FileBlock) (i : ℕ) : Prop where
  block : ∃ B, it.b = some B ∧ getBlock codec it.r b.offset = .ok B
  cursor : ∃ bi, it.bi = some bi ∧ Shows bi b.entries i

/-- What the iterator still returns, selection aside: the rest of the cached block and the blocks
behind it. A block cached by an invalid iterator is the one under the index cursor, or the index
cursor is behind the last block. -/
inductive Tracks (codec : Codec) (blocks : List FileBlock) (it : ReaderIter) : List Entry → Prop
  | live (j i : ℕ) (b : FileBlock) (block : blocks[j]? = some b) (caches : Caches codec it b i)
      (index : Shows it.indexIter (indexEntries blocks) j) (valid : it.valid = true)
      (inside : it.first = false → i < b.entries.length) :
      Tracks codec blocks it (b.entries.drop (if it.first then i else i+1)++
        fileEntries (blocks.drop (j+1)))
  | parked (j k i : ℕ) (b : FileBlock) (block : blocks[k]? = some b) (caches : Caches codec it b i)
      (index : Shows it.indexIter (indexEntries blocks) j) (valid : it.valid = false)
      (near : j = k ∨ j = blocks.length) : Tracks codec blocks it []
  | freed (j : ℕ) (block : it.b = none) (index : Shows it.indexIter (indexEntries blocks) j)
      (valid : it.valid = false) : Tracks codec blocks it []

section
variable {codec : Codec} {r : Reader} {blocks : List FileBlock} {it : ReaderIter}
  {rem : List Entry} {mayStop : Prop}

/-! ### The index cursor -/

theorem indexOffset_spec {ii : BlockIter} {j : ℕ} (hlt : ∀ b ∈ blocks, b.offset < 2^64)
    (h : Shows ii (indexEntries blocks) j) :
    indexOffset ii = .ok ((blocks[j]?).map FileBlock.offset) := by
  unfold indexOffset
  rw [h.valid,indexEntries,List.length_map]
  cases hb : blocks[j]? with
  | none =>
    have := List.getElem?_eq_none_iff.mp hb
    simp [show ¬ j < blocks.length by omega]
  | some b =>
    have hj := (List.getElem?_eq_some_iff.mp hb).1
    obtain ⟨rest,hrest⟩ := h.value (e := b.indexEntry) (by
      rw [indexEntries_getElem?,hb,Option.map_some])
    rw [hrest,FileBlock.indexEntry]
    simp [hj,mtblVarintDecode64_encode64 (hlt b (List.mem_of_getElem? hb))]

theorem getBlockAtIndex_within (h : HoldsWithin mayStop codec r blocks) {ii : BlockIter} {j : ℕ}
    (hidx : Shows ii (indexEntries blocks) j) {b : FileBlock} (hb : blocks[j]? = some b) :
    Within mayStop (getBlockAtIndex codec r ii) (fun c => ∃ B bi i, c = some B ∧
      getBlock codec r b.offset = .ok B ∧ blockIterInit B = .ok bi ∧ Shows bi b.entries i) := by
  rw [getBlockAtIndex,indexOffset_spec h.offset_lt hidx,hb]
  rcases h.load b (List.mem_of_getElem? hb) with ⟨hmay,hstop⟩ | ⟨B,hget,bi,i,hinit,hshow⟩
  · exact .inl ⟨hmay,by simp [hstop]⟩
  · exact .inr ⟨some B,by simp [hget],B,bi,i,rfl,hget,hinit,hshow⟩

theorem getBlockAtIndex_spec (h : Holds codec r blocks) {ii : BlockIter} {j : ℕ}
    (hidx : Shows ii (indexEntries blocks) j) {b : FileBlock} (hb : blocks[j]? = some b) :
    ∃ B bi i, getBlockAtIndex codec r ii = .ok (some B) ∧ getBlock codec r b.offset = .ok B ∧
      blockIterInit B = .ok bi ∧ Shows bi b.entries i := by
  obtain ⟨-,hat,B,bi,i,rfl,hload⟩ := within_false.mp (getBlockAtIndex_within h.within hidx hb)
  exact ⟨B,bi,i,hat,hload⟩

theorem getBlockAtIndex_end (h : Holds codec r blocks) {ii : BlockIter}
    (hidx : Shows ii (indexEntries blocks) blocks.length) :
    getBlockAtIndex codec r ii = .ok none := by
  rw [getBlockAtIndex,indexOffset_spec h.offset_lt hidx,List.getElem?_eq_none le_rfl]
  rfl

/-! ### Stepping -/

theorem Caches.fields {it' : ReaderIter} {b : FileBlock} {i : ℕ} (h : Caches codec it b i)
    (hr : it'.r = it.r) (hb : it'.b = it.b) (hbi : it'.bi = it.bi) : Caches codec it' b i where
  block := by rw [hb,hr]; exact h.block
  cursor := by rw [hbi]; exact h.cursor

/-- An iterator that stops on an entry it does not select keeps its place. -/
theorem Tracks.stop (h : Tracks codec blocks { it with valid := true } rem) :
    Tracks codec blocks { it with valid := false } [] := by
  cases h with
  | live j i b block caches index valid inside =>
    exact .parked j j i b block (caches.fields rfl rfl rfl) index rfl (.inl rfl)
  | parked j k i b block caches index valid near => cases valid
  | freed j block index valid => cases valid

/-- What `it'` keeps of `it` under every operation. -/
structure SameQuery (it it' : ReaderIter) : Prop where
  r : it'.r = it.r
  itType : it'.itType = it.itType
  k : it'.k = it.k

theorem moveInBlock_spec {bi : BlockIter} {es : List Entry} {i : ℕ} (first : Bool)
    (h : Shows bi es i) (hi : first = false → i < es.length) :
    ∃ bi', moveInBlock first bi = .ok bi' ∧ Shows bi' es (if first then i else i+1) := by
  cases first with
  | true => exact ⟨bi,rfl,h⟩
  | false =>
    have hlt := hi rfl
    obtain ⟨bi',hrun,hshow⟩ := h.next
    rw [min_eq_left (by omega)] at hshow
    exact ⟨bi',by simp [moveInBlock,hrun],hshow⟩

/-- Entering a block leaves the iterator on its first entry. -/
theorem enterBlock_within (it : ReaderIter) (h : HoldsWithin mayStop codec it.r blocks)
    (hfirst : it.first = false) {j : ℕ} {b : FileBlock} (hb : blocks[j]? = some b)
    (hidx : Shows it.indexIter (indexEntries blocks) j) :
    Within mayStop (enterBlock codec it) (fun p => p.2 = b.entries.head? ∧ SameQuery it p.1 ∧
      Tracks codec blocks { p.1 with valid := true }
        (b.entries.tail++fileEntries (blocks.drop (j+1)))) := by
  rw [enterBlock]
  apply (getBlockAtIndex_within h hidx hb).bind
  rintro c ⟨B,bi,i,rfl,hget,hinit,hshow⟩
  obtain ⟨bi',hseek,hshow'⟩ := hshow.seekToFirst
  have hpos : 0 < b.entries.length :=
    List.length_pos_iff.mpr (h.ordered.nonempty b (List.mem_of_getElem? hb))
  refine .inr ⟨({ it with b := some B, bi := some bi' },b.entries.head?),?_,rfl,⟨rfl,rfl,rfl⟩,?_⟩
  · simp [hinit,hseek,hshow'.get,List.head?_eq_getElem?]
  · have hlive : Tracks codec blocks { it with b := some B, bi := some bi', valid := true } _ :=
      .live j 0 b hb ⟨⟨B,rfl,hget⟩,⟨bi',rfl,hshow'⟩⟩ hidx rfl (fun _ => hpos)
    simp only [hfirst,Bool.false_eq_true,if_false,Nat.zero_add,List.drop_one] at hlive
    simp only [hfirst]
    exact hlive

/-- From the end of a block the iterator steps onto the first entry of the next. -/
theorem stepAcross_within (it : ReaderIter) (h : HoldsWithin mayStop codec it.r blocks)
    (hfirst : it.first = false) {j : ℕ} (hj : j < blocks.length)
    (hidx : Shows it.indexIter (indexEntries blocks) j) :
    Within mayStop (stepAcross codec it) (fun p => p.2 = (fileEntries (blocks.drop (j+1))).head? ∧
      SameQuery it p.1 ∧
      (fileEntries (blocks.drop (j+1)) = [] → Tracks codec blocks { p.1 with valid := false } []) ∧
      (fileEntries (blocks.drop (j+1)) ≠ [] →
        Tracks codec blocks { p.1 with valid := true } (fileEntries (blocks.drop (j+1))).tail)) := by
  obtain ⟨ii,hnext,hidx'⟩ := hidx.next
  rw [show (indexEntries blocks).length = blocks.length from List.length_map _] at hnext hidx'
  rw [min_eq_left (show j+1 ≤ blocks.length by omega)] at hidx'
  rw [stepAcross,hnext,ok_bind]
  rcases Nat.lt_or_ge (j+1) blocks.length with hlt | hge
  · have hb : blocks[j+1]? = some blocks[j+1] := List.getElem?_eq_getElem hlt
    generalize blocks[j+1] = b at hb
    have hne := h.ordered.nonempty b (List.mem_of_getElem? hb)
    simp only [decide_eq_true hlt,if_true]
    apply (enterBlock_within { it with b := none, bi := none, indexIter := ii, valid := false } h
      hfirst hb hidx').imp
    rintro ⟨it',e⟩ ⟨rfl,hsame,hlive⟩
    refine ⟨?_,⟨hsame.r,hsame.itType,hsame.k⟩,?_,?_⟩
    · rw [fileEntries_drop hb,List.head?_append_of_ne_nil _ hne]
    · rw [fileEntries_drop hb]
      exact fun hnil => absurd (List.append_eq_nil_iff.mp hnil).1 hne
    · rw [fileEntries_drop hb,List.tail_append_of_ne_nil hne]
      exact fun _ => hlive
  · rw [List.drop_eq_nil_of_le hge]
    simp only [decide_eq_false (show ¬ j+1 < blocks.length by omega),Bool.false_eq_true,if_false]
    exact .ok ⟨rfl,⟨rfl,rfl,rfl⟩,fun _ => .freed (j+1) rfl hidx' rfl,fun hne => absurd rfl hne⟩

/-- The next entry, if there is one, is the next of the list. -/
theorem advance_within (h : HoldsWithin mayStop codec it.r blocks) (ht : Tracks codec blocks it rem)
    (hvalid : it.valid = true) :
    Within mayStop (advance codec it) (fun p => p.2 = rem.head? ∧ SameQuery it p.1 ∧
      (rem = [] → Tracks codec blocks { p.1 with valid := false } []) ∧
      (rem ≠ [] → Tracks codec blocks { p.1 with valid := true } rem.tail)) := by
  cases ht with
  | parked j k i b block caches index valid near => rw [hvalid] at valid; cases valid
  | freed j block index valid => rw [hvalid] at valid; cases valid
  | live j i b block caches index valid inside =>
    obtain ⟨⟨B,hB,hget⟩,⟨bi,hbi,hshow⟩⟩ := caches
    obtain ⟨bi',hmove,hshow'⟩ := moveInBlock_spec it.first hshow inside
    generalize (if it.first then i else i+1) = p at hshow'
    have hstep : stepInBlock it =
        .ok ({ it with bi := some bi', first := false },b.entries[p]?) := by
      simp [stepInBlock,hbi,hmove,hshow'.get]
    rw [advance,hstep,ok_bind]
    rcases Nat.lt_or_ge p b.entries.length with hp | hp
    · -- the next entry is in the cached block
      have hdrop : b.entries.drop p = b.entries[p]::b.entries.drop (p+1) :=
        (List.getElem_cons_drop hp).symm
      rw [hdrop,List.getElem?_eq_getElem hp]
      exact .ok ⟨rfl,⟨rfl,rfl,rfl⟩,fun hnil => absurd hnil (List.cons_ne_nil _ _),
        fun _ => .live j p b block ⟨⟨B,hB,hget⟩,⟨bi',rfl,hshow'⟩⟩ index rfl (fun _ => hp)⟩
    · -- the cached block is used up
      have hj := (List.getElem?_eq_some_iff.mp block).1
      rw [List.drop_eq_nil_of_le hp,List.nil_append,List.getElem?_eq_none hp]
      apply (stepAcross_within { it with bi := some bi', first := false } h rfl hj index).imp
      rintro p ⟨he,hsame,hnil,hcons⟩
      exact ⟨he,⟨hsame.r,hsame.itType,hsame.k⟩,hnil,hcons⟩

/-- The entries that the selection lets through, up to the first that it does not. -/
def selected (it : ReaderIter) (rem : List Entry) : List Entry :=
  rem.takeWhile (fun e => selects it.itType it.k e.key)

theorem readerIterNext_within (h : HoldsWithin mayStop codec it.r blocks)
    (ht : Tracks codec blocks it rem) :
    Within mayStop (readerIterNext codec it) (fun p => p.1 = (selected it rem).head? ∧
      SameQuery it p.2 ∧ ∃ rem', Tracks codec blocks p.2 rem' ∧
        selected it rem' = (selected it rem).tail) := by
  by_cases hvalid : it.valid = true
  · rw [readerIterNext,if_neg (by simp [hvalid])]
    apply (advance_within h ht hvalid).bind
    rintro ⟨it',e⟩ ⟨rfl,hsame,hnil,hcons⟩
    cases rem with
    | nil =>
      exact .ok ⟨rfl,⟨hsame.r,hsame.itType,hsame.k⟩,[],hnil rfl,rfl⟩
    | cons e rem =>
      have htail := hcons (List.cons_ne_nil _ _)
      have hselects : selects it'.itType it'.k e.key = selects it.itType it.k e.key :=
        congrArg₂ (selects · · e.key) hsame.itType hsame.k
      simp only [List.head?_cons,hselects]
      cases hsel : selects it.itType it.k e.key with
      | true =>
        exact .ok ⟨by simp [selected,hsel],⟨hsame.r,hsame.itType,hsame.k⟩,rem,htail,
          by simp [selected,hsel]⟩
      | false =>
        exact .ok ⟨by simp [selected,hsel],⟨hsame.r,hsame.itType,hsame.k⟩,[],htail.stop,
          by simp [selected,hsel]⟩
  · have hfalse : it.valid = false := by simpa using hvalid
    have hrem : rem = [] := by
      cases ht with
      | live j i b block caches index valid inside => exact absurd valid hvalid
      | parked j k i b block caches index valid near => rfl
      | freed j block index valid => rfl
    subst hrem
    exact .inr ⟨(none,it),by simp [readerIterNext,hfalse],rfl,⟨rfl,rfl,rfl⟩,[],ht,rfl⟩

theorem readerIterNext_spec (h : Holds codec r blocks) (hr : it.r = r)
    (ht : Tracks codec blocks it rem) :
    ∃ it' rem', readerIterNext codec it = .ok ((selected it rem).head?,it') ∧ SameQuery it it' ∧
      Tracks codec blocks it' rem' ∧ selected it rem' = (selected it rem).tail := by
  obtain ⟨⟨e,it'⟩,hnext,rfl,hsame,rem',hrest⟩ :=
    within_false.mp (readerIterNext_within (hr ▸ h.within) ht)
  exact ⟨it',rem',hnext,hsame,hrest⟩

end

end Mtbl
