import Mtbl.File.RoundTrip

/-! Queries by key, by prefix and by range. The index lookup may land in a block whose keys are all
below the query, because a separator can lie above its block's last key; iteration then starts in
the next block. -/
namespace Mtbl
open CRun Cursor

/-! ### Prefixes in the key order -/

theorem memcmp_eq_zero_iff (k key : Bytes) :
    (k.length ≤ key.length ∧ memcmp k key k.length = 0) ↔ k <+: key := by
  induction k generalizing key with
  | nil => simp [memcmp]
  | cons a k ih =>
    cases key with
    | nil => simp
    | cons b key =>
      rw [List.cons_prefix_cons,← ih key]
      by_cases hab : a = b
      · simp [memcmp,hab]
      · have hne : (a.toNat : ℤ)-b.toNat ≠ 0 := by
          have : a.toNat ≠ b.toNat := fun h => hab (UInt8.toNat_inj.mp h)
          omega
        simp [memcmp,hab,hne]

theorem prefix_le {p x : Bytes} (h : p <+: x) : p ≤ x := by
  obtain ⟨t,rfl⟩ := h
  exact le_append p t

/-- Between a prefix and a string that has it lie only strings that have it. -/
theorem prefix_of_between {p x y : Bytes} (hpx : p ≤ x) (hxy : x < y) (hy : p <+: y) :
    p <+: x := by
  induction p generalizing x y with
  | nil => exact List.nil_prefix
  | cons a p ih =>
    cases x with
    | nil => exact absurd hpx (by simp)
    | cons b x =>
      cases y with
      | nil => exact absurd hy (by simp)
      | cons c y =>
        obtain ⟨rfl,hy'⟩ := List.cons_prefix_cons.mp hy
        rw [← not_lt,List.cons_lt_cons_iff,not_or] at hpx
        rw [List.cons_lt_cons_iff] at hxy
        obtain rfl : b = a := by
          rcases hxy with hlt | ⟨heq,-⟩
          · exact absurd hlt hpx.1
          · exact heq
        have hpx' : p ≤ x := not_lt.mp (fun hlt => hpx.2 ⟨rfl,hlt⟩)
        have hxy' : x < y := by
          rcases hxy with hlt | ⟨-,hlt⟩
          · exact absurd hlt (lt_irrefl _)
          · exact hlt
        exact List.cons_prefix_cons.mpr ⟨rfl,ih hpx' hxy' hy'⟩

/-! ### Queries -/

/-- The query returns exactly these entries, a NULL iterator counting as empty. -/
def QueryReturns (codec : Codec) (query : Run (Option ReaderIter)) (es : List Entry) : Prop :=
  (query = .ok none ∧ es = []) ∨
    ∃ it, query = .ok (some it) ∧ Enumerates (readerIterNext codec) it es

/-- A query whose selection starts at its key and is closed downwards from there returns the entries
it selects. -/
theorem readerIterInit_returns {codec : Codec} {r : Reader} {blocks : List FileBlock}
    (h : Holds codec r blocks) (key k : Bytes) (itType : ReaderIterType) (P : Bytes → Bool)
    (hP : ∀ x, P x = true ↔ key ≤ x ∧ selects itType k x = true)
    (hdown : ∀ x y, key ≤ x → x < y → selects itType k y = true → selects itType k x = true) :
    QueryReturns codec (readerIterInit codec r key k itType)
      ((fileEntries blocks).filter (fun e => P e.key)) := by
  have hlist := takeWhile_seekList Entry.key (fileEntries blocks) h.ordered.ascending hP hdown
  rcases readerIterInit_spec h key k itType with ⟨hnone,hnil⟩ | ⟨it,hsome,hr,htype,hk,ht⟩
  · rw [hnil] at hlist
    exact .inl ⟨hnone,hlist.symm⟩
  · refine .inr ⟨it,hsome,Returns.enumerates h ⟨hr,_,ht,?_⟩⟩
    rw [selected,htype,hk]
    exact hlist

theorem readerGet_returns {codec : Codec} {r : Reader} {blocks : List FileBlock}
    (h : Holds codec r blocks) (k : Bytes) :
    QueryReturns codec (readerGet codec r k) ((fileEntries blocks).filter (fun e => e.key = k)) := by
  refine readerIterInit_returns h k k .get (fun x => x = k) ?_ ?_
  · intro x
    simp only [selects,bytesCompare_eq_zero,decide_eq_true_eq]
    exact ⟨fun hx => ⟨hx.ge,hx⟩,fun hx => hx.2⟩
  · intro x y hkx hxy hy
    simp only [selects,bytesCompare_eq_zero,decide_eq_true_eq] at hy
    exact absurd (hkx.trans_lt hxy) (hy ▸ lt_irrefl _)

theorem readerGetPrefix_returns {codec : Codec} {r : Reader} {blocks : List FileBlock}
    (h : Holds codec r blocks) (p : Bytes) :
    QueryReturns codec (readerGetPrefix codec r p)
      ((fileEntries blocks).filter (fun e => p <+: e.key)) := by
  refine readerIterInit_returns h p p .getPrefix (fun x => p <+: x) ?_ ?_
  · intro x
    simp only [selects,memcmp_eq_zero_iff,decide_eq_true_eq]
    exact ⟨fun hx => ⟨prefix_le hx,hx⟩,fun hx => hx.2⟩
  · intro x y hpx hxy hy
    simp only [selects,memcmp_eq_zero_iff,decide_eq_true_eq] at hy ⊢
    exact prefix_of_between hpx hxy hy

theorem readerGetRange_returns {codec : Codec} {r : Reader} {blocks : List FileBlock}
    (h : Holds codec r blocks) (k0 k1 : Bytes) :
    QueryReturns codec (readerGetRange codec r k0 k1)
      ((fileEntries blocks).filter (fun e => k0 ≤ e.key ∧ e.key ≤ k1)) := by
  refine readerIterInit_returns h k0 k1 .getRange (fun x => k0 ≤ x ∧ x ≤ k1) ?_ ?_
  · intro x
    simp [selects]
  · intro x y _ hxy hy
    simp only [selects,bytesCompare_pos,Bool.not_eq_true',decide_eq_false_iff_not,not_lt] at hy ⊢
    exact hxy.le.trans hy

/-- Each query on a produced file returns exactly the entries it asks for, in order, each once, then
failure for ever. -/
theorem query_exact {codec : Codec} {file : Bytes} {es : List Entry} (h : Produced codec file es)
    (ropt : ReaderOptions) :
    ∃ r, mtblReaderInitFd codec file ropt = .ok (some r) ∧
      (∀ k, QueryReturns codec (readerGet codec r k) (es.filter (fun e => e.key = k))) ∧
      (∀ p, QueryReturns codec (readerGetPrefix codec r p) (es.filter (fun e => p <+: e.key))) ∧
      (∀ k0 k1, QueryReturns codec (readerGetRange codec r k0 k1)
        (es.filter (fun e => k0 ≤ e.key ∧ e.key ≤ k1))) := by
  obtain ⟨r,blocks,hopen,hholds,rfl⟩ := h.holds ropt
  exact ⟨r,hopen,readerGet_returns hholds,readerGetPrefix_returns hholds,
    readerGetRange_returns hholds⟩

/-- Three keys, with a query of each kind. -/
theorem query_exact_three : ∃ file r, Produced storingCodec file
      [⟨[1],[10]⟩,⟨[1,2],[20]⟩,⟨[3],[30]⟩] ∧
    mtblReaderInitFd storingCodec file ⟨true⟩ = .ok (some r) ∧
    QueryReturns storingCodec (readerGet storingCodec r [2]) [] ∧
    QueryReturns storingCodec (readerGetPrefix storingCodec r [1]) [⟨[1],[10]⟩,⟨[1,2],[20]⟩] ∧
    QueryReturns storingCodec (readerGetRange storingCodec r [1,1] [3])
      [⟨[1,2],[20]⟩,⟨[3],[30]⟩] := by
  obtain ⟨file,hproduced⟩ := exists_produced storingCodec [] plainOptions
    [⟨[1],[10]⟩,⟨[1,2],[20]⟩,⟨[3],[30]⟩] (by decide) (by decide) (by decide +kernel)
  obtain ⟨r,hopen,hget,hpre,hrange⟩ := query_exact hproduced ⟨true⟩
  exact ⟨file,r,hproduced,hopen,hget [2],hpre [1],hrange [1,1] [3]⟩

end Mtbl
