import Mtbl.Block.Refine
import Mtbl.File.Reader
import Mtbl.Lib.Checked

/-! What a finished file stores, as the reader sees it: data blocks in key order, each behind an
index entry whose key separates it from the blocks that follow. -/
namespace Mtbl
open CRun Cursor

/-- A data block: its entries, the separator and offset its index entry holds, and its contents as
stored in the file, compressed or not. -/
structure FileBlock where
  entries : List Entry
  sep : Bytes
  offset : ℕ
  raw : Bytes

def FileBlock.indexEntry (b : FileBlock) : Entry := ⟨b.sep,mtblVarintEncode64 b.offset⟩

def fileEntries (blocks : List FileBlock) : List Entry := blocks.flatMap FileBlock.entries

def indexEntries (blocks : List FileBlock) : List Entry := blocks.map FileBlock.indexEntry

/-- Keys ascend through the file, and each separator lies between its block and the next. -/
structure Ordered (blocks : List FileBlock) : Prop where
  nonempty : ∀ b ∈ blocks, b.entries ≠ []
  ascending : Ascending (fileEntries blocks)
  le_sep : ∀ b ∈ blocks, ∀ e ∈ b.entries, e.key ≤ b.sep
  sep_lt : blocks.Pairwise (fun a b => ∀ e ∈ b.entries, a.sep < e.key)

/-- The reader finds these blocks: its index shows their separators and offsets, and each offset
leads to the block's entries. -/
structure Holds (codec : Codec) (r : Reader) (blocks : List FileBlock) : Prop where
  index : ∃ ii i, blockIterInit r.index = .ok ii ∧ Shows ii (indexEntries blocks) i
  load : ∀ b ∈ blocks, ∃ B bi i, getBlock codec r b.offset = .ok B ∧ blockIterInit B = .ok bi ∧
    Shows bi b.entries i
  offset_lt : ∀ b ∈ blocks, b.offset < 2^64
  ordered : Ordered blocks

/-- The same of a reader that may stop on an assertion where it loads a block. -/
structure HoldsWithin (mayStop : Prop) (codec : Codec) (r : Reader) (blocks : List FileBlock) :
    Prop where
  index : ∃ ii i, blockIterInit r.index = .ok ii ∧ Shows ii (indexEntries blocks) i
  load : ∀ b ∈ blocks, Within mayStop (getBlock codec r b.offset) (fun B => ∃ bi i,
    blockIterInit B = .ok bi ∧ Shows bi b.entries i)
  offset_lt : ∀ b ∈ blocks, b.offset < 2^64
  ordered : Ordered blocks

theorem Holds.within {codec : Codec} {r : Reader} {blocks : List FileBlock}
    (h : Holds codec r blocks) : HoldsWithin False codec r blocks where
  index := h.index
  load b hb := by
    obtain ⟨B,bi,i,hget,hshow⟩ := h.load b hb
    exact within_false.mpr ⟨B,hget,bi,i,hshow⟩
  offset_lt := h.offset_lt
  ordered := h.ordered

section
variable {blocks : List FileBlock}

theorem fileEntries_split {j : ℕ} {b : FileBlock} (h : blocks[j]? = some b) :
    fileEntries blocks = fileEntries (blocks.take j)++
      (b.entries++fileEntries (blocks.drop (j+1))) := by
  obtain ⟨hj,rfl⟩ := List.getElem?_eq_some_iff.mp h
  have hsplit : blocks = blocks.take j++blocks[j]::blocks.drop (j+1) := by
    rw [List.getElem_cons_drop,List.take_append_drop]
  conv_lhs => rw [hsplit]
  simp only [fileEntries,List.flatMap_append,List.flatMap_cons]

theorem fileEntries_drop {j : ℕ} {b : FileBlock} (h : blocks[j]? = some b) :
    fileEntries (blocks.drop j) = b.entries++fileEntries (blocks.drop (j+1)) := by
  obtain ⟨hj,rfl⟩ := List.getElem?_eq_some_iff.mp h
  rw [← List.getElem_cons_drop hj]
  simp only [fileEntries,List.flatMap_cons]

/-- Without entries there are no blocks. -/
theorem Ordered.blocks_eq_nil (h : Ordered blocks) (hnil : fileEntries blocks = []) :
    blocks = [] := by
  cases blocks with
  | nil => rfl
  | cons b blocks =>
    rw [fileEntries,List.flatMap_cons,List.append_eq_nil_iff] at hnil
    exact absurd hnil.1 (h.nonempty b (List.mem_cons_self ..))

theorem Ordered.entries_ascending (h : Ordered blocks) {b : FileBlock} (hb : b ∈ blocks) :
    Ascending b.entries := by
  obtain ⟨j,hj⟩ := List.getElem?_of_mem hb
  have hall := h.ascending
  rw [fileEntries_split hj,Ascending,List.pairwise_append,List.pairwise_append] at hall
  exact hall.2.1.1

theorem Ordered.sep_lt_entry (h : Ordered blocks) {i j : ℕ} {a b : FileBlock}
    (ha : blocks[i]? = some a) (hb : blocks[j]? = some b) (hij : i < j) {e : Entry}
    (he : e ∈ b.entries) : a.sep < e.key := by
  obtain ⟨hi,rfl⟩ := List.getElem?_eq_some_iff.mp ha
  obtain ⟨hj,rfl⟩ := List.getElem?_eq_some_iff.mp hb
  exact List.pairwise_iff_getElem.mp h.sep_lt i j hi hj hij e he

/-- Separators ascend with the blocks. -/
theorem Ordered.index_ascending (h : Ordered blocks) : Ascending (indexEntries blocks) := by
  rw [Ascending,indexEntries,List.pairwise_map]
  refine List.pairwise_iff_getElem.mpr (fun i j hi hj hij => ?_)
  obtain ⟨e,he⟩ := List.exists_mem_of_ne_nil _ (h.nonempty _ (List.getElem_mem hj))
  have hlt := h.sep_lt_entry (List.getElem?_eq_getElem hi) (List.getElem?_eq_getElem hj) hij he
  exact hlt.trans_le (h.le_sep _ (List.getElem_mem hj) e he)

theorem indexEntries_getElem? {blocks : List FileBlock} (j : ℕ) :
    (indexEntries blocks)[j]? = (blocks[j]?).map FileBlock.indexEntry := List.getElem?_map ..

/-- A seek in the file is a seek in the index followed by one in the block found there. -/
theorem Ordered.seek (h : Ordered blocks) {key : Bytes} {j : ℕ}
    (hj : (indexEntries blocks).drop j = seekList Entry.key (indexEntries blocks) key) :
    seekList Entry.key (fileEntries blocks) key =
      match blocks[j]? with
      | none => []
      | some b => seekList Entry.key b.entries key++fileEntries (blocks.drop (j+1)) := by
  have hbefore : ∀ e ∈ fileEntries (blocks.take j), e.key < key := by
    intro e he
    obtain ⟨b,hb,he⟩ := List.mem_flatMap.mp he
    have hsep := seekList_take hj b.indexEntry (by
      rw [indexEntries,← List.map_take]
      exact List.mem_map_of_mem hb)
    exact (h.le_sep b (List.mem_of_mem_take hb) e he).trans_lt hsep
  cases hb : blocks[j]? with
  | none =>
    have hlen := List.getElem?_eq_none_iff.mp hb
    rw [List.take_of_length_le hlen] at hbefore
    have hnil : seekList Entry.key (fileEntries blocks++[]) key = seekList Entry.key [] key :=
      seekList_append_left hbefore
    rwa [List.append_nil] at hnil
  | some b =>
    have hle : key ≤ b.sep := seekList_head hj (e := b.indexEntry) (by
      rw [indexEntries_getElem?,hb,Option.map_some])
    have hafter : ∀ e ∈ fileEntries (blocks.drop (j+1)), key ≤ e.key := by
      intro e he
      obtain ⟨c,hc,he⟩ := List.mem_flatMap.mp he
      obtain ⟨k,hk⟩ := List.getElem?_of_mem hc
      rw [List.getElem?_drop] at hk
      exact hle.trans (h.sep_lt_entry hb hk (by omega) he).le
    rw [fileEntries_split hb,seekList_append_left hbefore,seekList_append hafter]

end

end Mtbl
