import Mtbl.Sort.SorterWrite

/-! Whatever is copied. A reader, a merger and a sorter are written to a destination by the same loop, and
a success of it is to mean that no key is missing and that no merge was declined. A reader keeps this;
a merger and a sorter do under conditions on the merge function, the keys and the destination. -/
namespace Mtbl
open CRun Cursor

variable {σ ω : Type}

/-- What `mtbl_source_write` and `mtbl_sorter_write` copy. -/
inductive CopySource (σ : Type)
  | reader (codec : Codec) (r : Reader)
  | merger (I : Ops σ Entry Bytes) (m : Merger σ)
  | sorter (I : Ops σ Entry Bytes) (env : SorterEnv σ) (f : MergeFunc) (s : Sorter σ)

namespace CopySource

def copy (add : ω → Entry → Run (Bool × ω)) (fuel : ℕ) (w : ω) : CopySource σ → Run (Bool × ω)
  | reader codec r => mtblSourceWrite (readerOps codec) add fuel (mtblReaderSource codec r) w
  | merger I m => mtblSourceWrite (mergerIterOps I fuel) add fuel (mtblMergerSource I m) w
  | sorter I env _ s => mtblSorterWrite I env add fuel s w

/-- A merge is declined during the copy. -/
def Declines (add : ω → Entry → Run (Bool × ω)) (fuel : ℕ) (w : ω) : CopySource σ → Prop
  | reader _ _ => False
  | merger I m => MergerDeclines I add fuel m w
  | sorter I env f s => SorterDeclines I env add fuel f s w

/-- The entries in it: those of the file, of all sources, or all that calls have added. -/
inductive Content (add : ω → Entry → Run (Bool × ω)) : CopySource σ → List Entry → Prop
  | reader {codec : Codec} {file : Bytes} {es : List Entry} {ropt : ReaderOptions} {r : Reader}
      (hfile : Produced codec file es) (hopen : mtblReaderInitFd codec file ropt = .ok (some r)) :
      Content add (.reader codec r) es
  | merger {I : Ops σ Entry Bytes} {m : Merger σ} {ess : List (List Entry)}
      (hsources : List.Forall₂ (Source.Holds I) m.sources ess) :
      Content add (.merger I m) ess.flatten
  | sorter {I : Ops σ Entry Bytes} {env : SorterEnv σ} {f : MergeFunc} {maxMemory : ℕ} {pool : Bool}
      {s : Sorter σ} {adds : List Entry} {fuel : ℕ}
      (hqsort : ∀ l, (env.qsort l).Perm l ∧ KeySorted (env.qsort l))
      (hcollect : ∀ jobs, (env.collect jobs).Perm jobs)
      (hchunk : ∀ es, es.Pairwise (fun a b => a.key < b.key) → (∀ e ∈ es, e.Small) →
        Source.Holds I (env.chunkSource es) es)
      (hrun : SorterHolds I env add fuel ⟨maxMemory,some f,pool⟩ s adds) :
      Content add (.sorter I env f s) adds

/-- The entries in the order in which the heap of the merger gives them. A sorter's merger has those of
its chunks. -/
def Takes (es taken : List Entry) : CopySource σ → Prop
  | reader _ _ => taken = es
  | merger I m => taken.Perm es ∧ ∃ it, mergerIter I m = .ok (some it) ∧ Mtbl.Takes I it taken
  | sorter I env _ s => ∀ it s', s.iterating = false → mtblSorterIter I env s = .ok (some it,s') →
      Mtbl.Takes I it taken

/-- When the copy truncates nothing silently. -/
def Copies (add : ω → Entry → Run (Bool × ω)) (w : ω) (taken : List Entry) : CopySource σ → Prop
  | reader _ _ => True
  | merger _ m => CopiesAll m.opt.merge add w taken
  | sorter _ env f s => SorterCopies env add f s w taken

end CopySource

/-- A source that makes no merges gives all it holds, or NULL, which is reported. -/
theorem Source.Holds.noSilentTruncation {I : Ops σ Entry Bytes} {s : Source σ} {es : List Entry}
    (h : s.Holds I es) (add : ω → Entry → Run (Bool × ω)) (w : ω) {fuel : ℕ}
    (hfuel : es.length < fuel) :
    NoSilentTruncation (mtblSourceWrite I (traced add) fuel s (w,[])) False es := by
  obtain ⟨it,hit,henum⟩ := h.iter
  refine ⟨fun p hp => ?_,fun hf => hf.elim⟩
  rw [mtblSourceWrite,hit,ok_bind] at hp
  cases it with
  | none => cases hp
  | some it =>
    have hcopy := @copyLoop_enumerates _ _ I.next (traced add) it es (enumerates_some henum)
      (w,[]) fuel hfuel
    obtain ⟨-,ht⟩ := (addAll_traced w [] es p).mp (hcopy.symm.trans hp)
    rw [ht]
    exact fun e he => List.mem_map_of_mem he

/-- A copy reports success only if every key was added, and failure where a merge is declined: always
from a reader, and from a merger or a sorter exactly under the condition on it. -/
theorem copy_not_truncated {σ ω : Type} (add : ω → Entry → Run (Bool × ω)) (src : CopySource σ)
    (es : List Entry) (hcontent : src.Content add es) : ∃ taken, src.Takes es taken ∧
      ∀ (w : ω) fuel, es.length < fuel → taken.length < fuel →
        (NoSilentTruncation (src.copy (traced add) fuel (w,[]))
          (src.Declines (traced add) fuel (w,[])) es ↔ src.Copies add w taken) := by
  cases hcontent with
  | reader hfile hopen =>
    obtain ⟨r,hopen',hsource⟩ := hfile.source _
    obtain rfl := Option.some.inj (Except.ok.inj (hopen.symm.trans hopen'))
    exact ⟨_,rfl,fun w fuel hfuel _ =>
      iff_of_true (hsource.noSilentTruncation add w hfuel) trivial⟩
  | merger hsources =>
    obtain ⟨it,taken,hrun,ht,hopt,hperm,hsorted⟩ := mergerIter_takes (takeOrder_key _)
      (steps_enumerates (mtblIterNext _)) (sourcesGive_iter hsources)
    exact ⟨taken,⟨hperm,it,hrun,ht⟩,fun w fuel _ hfuel =>
      mtblSourceWrite_noSilentTruncation hrun ht hopt hperm hsorted w hfuel⟩
  | sorter hqsort hcollect hchunk hrun =>
    obtain ⟨taken,ht,hcopies⟩ := hrun.keeps.write hqsort hcollect hchunk rfl
    exact ⟨taken,ht,fun w fuel _ hfuel => hcopies w fuel hfuel⟩

/-- A merger over two files that takes the first of two values. -/
def firstKept (r1 r2 : Reader) : CopySource ReaderIter :=
  .merger (readerOps storingCodec) ⟨[mtblReaderSource storingCodec r1,
    mtblReaderSource storingCodec r2],some (fun _ a _ => some a),none⟩

/-- The files have one key in common, and the first has a further key. -/
theorem copy_not_truncated_two : ∃ (r1 r2 : Reader) (fuel : ℕ),
    NoSilentTruncation ((firstKept r1 r2).copy (traced (writerAdd storingCodec)) fuel
        (mtblWriterInitFd [] (some plainOptions),[]))
      ((firstKept r1 r2).Declines (traced (writerAdd storingCodec)) fuel
        (mtblWriterInitFd [] (some plainOptions),[]))
      [⟨[97],[1]⟩,⟨[98],[3]⟩,⟨[97],[2]⟩] := by
  obtain ⟨-,r1,-,-,hsource1⟩ := exists_source storingCodec [⟨[97],[1]⟩,⟨[98],[3]⟩] (by decide)
    (by decide +kernel)
  obtain ⟨-,r2,-,-,hsource2⟩ := exists_source storingCodec [⟨[97],[2]⟩] (by decide)
    (by decide +kernel)
  obtain ⟨taken,⟨hperm,-⟩,hcopy⟩ := copy_not_truncated (writerAdd storingCodec) (firstKept r1 r2) _
    (.merger (.cons hsource1 (.cons hsource2 .nil)))
  refine ⟨r1,r2,4+taken.length,(hcopy _ _ ?_ (by omega)).mpr (.inr ⟨fun f hf e he _ => ?_,?_⟩)⟩
  · exact Nat.lt_of_lt_of_le (by decide : _ < 4) (Nat.le_add_right _ _)
  · obtain rfl := Option.some.inj hf
    exact foldValues_isSome (fun _ a _ => a) he
  · rintro ⟨⟨e,he,hempty⟩,-⟩
    have hkey : ∀ x ∈ [[(⟨[97],[1]⟩ : Entry),⟨[98],[3]⟩],[⟨[97],[2]⟩]].flatten, x.key ≠ [] := by
      decide
    exact hkey e (hperm.mem_iff.mp he) hempty

/-- Two files with one key in common, and a merge function that declines: the copy reports success
without any key. -/
theorem copy_not_truncated_fails : ¬ ∀ (σ ω : Type) (add : ω → Entry → Run (Bool × ω))
    (src : CopySource σ) (es : List Entry), src.Content add es → ∀ w : ω, ∃ n, ∀ fuel > n,
      NoSilentTruncation (src.copy (traced add) fuel (w,[]))
        (src.Declines (traced add) fuel (w,[])) es := by
  intro hclaim
  obtain ⟨-,r1,-,-,hsource1⟩ := exists_source storingCodec [⟨[97],[1]⟩] (by decide)
    (by decide +kernel)
  obtain ⟨-,r2,-,-,hsource2⟩ := exists_source storingCodec [⟨[97],[2]⟩] (by decide)
    (by decide +kernel)
  have hsources : List.Forall₂ (Source.Holds (readerOps storingCodec))
      [mtblReaderSource storingCodec r1,mtblReaderSource storingCodec r2]
      [[⟨[97],[1]⟩],[⟨[97],[2]⟩]] := .cons hsource1 (.cons hsource2 .nil)
  obtain ⟨it,taken,hrun,ht,hopt,hperm,hsorted⟩ := mergerIter_takes
    (m := ⟨_,some (fun _ _ _ => none),none⟩) (takeOrder_key _)
    (steps_enumerates (mtblIterNext (readerOps storingCodec))) (sourcesGive_iter hsources)
  obtain ⟨n,hn⟩ := hclaim _ _ (writerAdd storingCodec) _ _
    (.merger (m := ⟨_,some (fun _ _ _ => none),none⟩) hsources)
    (mtblWriterInitFd [] (some plainOptions))
  have hcopies := (mtblSourceWrite_noSilentTruncation hrun ht hopt hperm hsorted _ (by
    rw [hperm.length_eq]
    exact Nat.lt_add_left n (by decide : _ < 3))).mp (hn (n+3) (by omega))
  have hnext : takeNext (some (fun _ _ _ => none)) taken = (.declined,taken.drop 1) := by
    rcases List.perm_pair.mp hperm with rfl | rfl <;> rfl
  rcases hcopies with ⟨out,declined,hout,hnot⟩ | ⟨hnever,-⟩
  · obtain ⟨rfl,-⟩ := hout.unique (.declined hnext)
    exact hnot ⟨_,rfl⟩
  · have hfold := hnever _ rfl ⟨[97],[1]⟩ (hperm.mem_iff.mpr (by decide)) (by decide)
    have hvals : foldValues (fun _ _ _ => none) [97] (valuesOf [97] taken) = none := by
      rcases List.perm_pair.mp hperm with rfl | rfl <;> rfl
    rw [hvals] at hfold
    cases hfold

end Mtbl
