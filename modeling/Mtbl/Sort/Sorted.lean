import Mtbl.Merge.Associative
import Mtbl.Sort.Batches

/-! The external sort as a whole. A chunk is the merge of its batch and the sorted output the merge
of the chunks; with an associative and commutative merge function that is the merge of everything
that was added, wherever the batches end and in whatever order their readers come. -/
namespace Mtbl
open CRun Cursor FoldOp

/-- No merge of these entries' values, in whatever order and of however many, is too long for the
32 bits of its length. -/
def MergesFit (g : Bytes → Bytes → Bytes → Bytes) (es : List Entry) : Prop :=
  ∀ k vs v, vs.Subperm (valuesOf k es) → foldOp (g k) vs = some v → v.length < 2^32

section
variable {g : Bytes → Bytes → Bytes → Bytes} {es es' out sorted : List Entry}

theorem narrowVal_eq {v : Bytes} (h : v.length < 2^32) : narrowVal v = v := by
  rw [narrowVal,Nat.mod_eq_of_lt h,List.take_length]

theorem valuesOf_sublist (k : Bytes) (h : es.Sublist es') :
    (valuesOf k es).Sublist (valuesOf k es') := (h.filter _).map _

theorem MergesFit.sublist (h : MergesFit g es') (hsub : es.Sublist es') : MergesFit g es :=
  fun k vs v hvs hfold => h k vs v (hvs.trans (valuesOf_sublist k hsub).subperm) hfold

/-- Where the results fit, storing them changes nothing. -/
theorem Folded.narrowed (h : Folded (narrowMerge (alwaysMerges g)) sorted out)
    (hperm : sorted.Perm es) (hfit : MergesFit g es) : Merged g none es out where
  ascending := h.ascending
  keys k := (h.keys k).trans (hperm.map Entry.key).mem_iff
  value e he := by
    have hvalues : (valuesOf e.key sorted).Perm (valuesOf e.key es) := (hperm.filter _).map _
    have hfold := h.value e he
    cases hvals : valuesOf e.key sorted with
    | nil =>
      rw [hvals] at hfold
      cases hfold
    | cons v vs =>
      rw [hvals] at hfold hvalues
      have hnarrow : vs.foldl (fun a b => narrowVal (g e.key a b)) v = e.val :=
        Option.some.inj ((foldValues_alwaysMerges
          (fun k a b => narrowVal (g k a b)) e.key v vs).symm.trans hfold)
      have hsame : vs.foldl (fun a b => narrowVal (g e.key a b)) v = vs.foldl (g e.key) v := by
        apply foldl_congr_partial
        intro ws w hws
        apply narrowVal_eq
        have hsub : (v::(ws++[w])).Subperm (valuesOf e.key es) :=
          ((List.prefix_cons_inj v).mpr hws).sublist.subperm.trans hvalues.subperm
        exact hfit e.key _ _ hsub (by rw [foldOp,List.foldl_append]; rfl)
      refine ⟨v,vs,hvalues,hnarrow.symm.trans hsame,fun d hd => ?_⟩
      cases hd

end

/-! ### The chunks -/

section
variable {σ : Type} {I : Ops σ Entry Bytes} {env : SorterEnv σ}
  {g : Bytes → Bytes → Bytes → Bytes} {batch : List Entry}

theorem writeChunk_isSome (hqsort : ∀ l, (env.qsort l).Perm l ∧ KeySorted (env.qsort l))
    (batch : List Entry) : writeChunk env (some (alwaysMerges g)) batch ≠ .ok none := by
  intro hnone
  apply writeChunk_none (fun l => (hqsort l).2) hnone
  intro e he
  exact foldValues_isSome (fun k a b => narrowVal (g k a b)) he

/-- The chunk of a batch whose entries the loop counter can number is written. -/
theorem writeChunk_short (hqsort : ∀ l, (env.qsort l).Perm l ∧ KeySorted (env.qsort l))
    (hshort : batch.length < 2^32) : ∃ out,
      writeChunk env (some (alwaysMerges g)) batch = .ok (some (env.chunkSource out)) ∧
        Folded (narrowMerge (alwaysMerges g)) (env.qsort batch) out := by
  rcases @writeChunk_cases _ env (alwaysMerges g) hqsort batch with
    ⟨-,hnone⟩ | ⟨-,-,hwritten⟩ | ⟨-,hlong,-⟩
  · exact absurd hnone (writeChunk_isSome hqsort batch)
  · exact hwritten
  · exact absurd hlong (not_le.mpr hshort)

/-- In a longer batch the counter comes back to entries that are freed. -/
theorem writeChunk_long (hqsort : ∀ l, (env.qsort l).Perm l ∧ KeySorted (env.qsort l))
    (hlong : 2^32 ≤ batch.length) :
    writeChunk env (some (alwaysMerges g)) batch = .error .useAfterFree := by
  rcases @writeChunk_cases _ env (alwaysMerges g) hqsort batch with
    ⟨-,hnone⟩ | ⟨-,hshort,-⟩ | ⟨-,-,hcrash⟩
  · exact absurd hnone (writeChunk_isSome hqsort batch)
  · exact absurd hshort (not_lt.mpr hlong)
  · exact hcrash

theorem runJobs_short (hqsort : ∀ l, (env.qsort l).Perm l ∧ KeySorted (env.qsort l))
    {order : List (List Entry)} (hshort : ∀ batch ∈ order, batch.length < 2^32) : ∃ outs,
      runJobs env (some (alwaysMerges g)) order =
          .ok (outs.map (fun out => some (env.chunkSource out))) ∧
        List.Forall₂ (fun batch out =>
          Folded (narrowMerge (alwaysMerges g)) (env.qsort batch) out) order outs := by
  induction order with
  | nil => exact ⟨[],rfl,.nil⟩
  | cons batch order ih =>
    obtain ⟨hshort1,hshort'⟩ := List.forall_mem_cons.mp hshort
    obtain ⟨out,hchunk,hfolded⟩ := @writeChunk_short _ env g _ hqsort hshort1
    obtain ⟨outs,hjobs,hall⟩ := ih hshort'
    refine ⟨out::outs,?_,.cons hfolded hall⟩
    simp only [runJobs,hchunk,hjobs,ok_bind,pure_eq_ok,List.map_cons]

theorem runJobs_long (hqsort : ∀ l, (env.qsort l).Perm l ∧ KeySorted (env.qsort l))
    {order : List (List Entry)} (hmem : batch ∈ order) (hlong : 2^32 ≤ batch.length) :
    ∃ e, runJobs env (some (alwaysMerges g)) order = .error e := by
  induction order with
  | nil => cases hmem
  | cons b order ih =>
    rcases List.mem_cons.mp hmem with rfl | hmem
    · exact ⟨_,by rw [runJobs,writeChunk_long hqsort hlong]; rfl⟩
    · obtain ⟨e,hjobs⟩ := ih hmem
      cases hchunk : writeChunk env (some (alwaysMerges g)) b with
      | error e' => exact ⟨e',by rw [runJobs,hchunk]; rfl⟩
      | ok r => exact ⟨e,by simp only [runJobs,hchunk,hjobs,ok_bind,error_bind]⟩

/-- What a chunk holds is as small as what was added. -/
theorem Merged.small {es out : List Entry} (h : Merged g none es out) (hsmall : ∀ e ∈ es, e.Small)
    (hfit : MergesFit g es) : ∀ e ∈ out, e.Small := by
  intro e he
  obtain ⟨v,vs,hvs,hfold,-⟩ := h.value e he
  obtain ⟨x,hx,hxk⟩ := List.mem_map.mp ((h.keys e.key).mp (List.mem_map_of_mem he))
  exact ⟨hxk ▸ (hsmall x hx).1,hfit e.key _ _ hvs.subperm (congrArg some hfold.symm)⟩

end

/-! ### The sorted output -/

section
variable {σ : Type} {I : Ops σ Entry Bytes} {env : SorterEnv σ}
  {g : Bytes → Bytes → Bytes → Bytes} {maxMemory : ℕ} {pool : Bool} {adds : List Entry}

theorem batch_sublist {batch : List Entry} (hmem : batch ∈ batches maxMemory adds) :
    batch.Sublist adds := by
  have h := List.sublist_flatten_of_mem hmem
  rwa [batches_flatten] at h

/-- The sorted output is that of a merger over sources of the chunks, and the merge of these the
merge of what was added. -/
theorem sortAll_merges (hqsort : ∀ l, (env.qsort l).Perm l ∧ KeySorted (env.qsort l))
    (hcollect : ∀ jobs, (env.collect jobs).Perm jobs)
    (hchunk : ∀ batch ∈ batches maxMemory adds, ∀ out, Merged g none batch out →
      Source.Holds I (env.chunkSource out) out)
    (hassoc : ∀ k, Std.Associative (g k)) (hcomm : ∀ k, Std.Commutative (g k))
    (hkeys : ∀ e ∈ adds, e.key ≠ []) (hsmall : ∀ e ∈ adds, e.Small) (hfit : MergesFit g adds)
    (hshort : ∀ batch ∈ batches maxMemory adds, batch.length < 2^32) : ∃ sources ess,
      sortAll I env ⟨maxMemory,some (alwaysMerges g),pool⟩ adds =
        mergerIter I ⟨sources,some (alwaysMerges g),none⟩ ∧
      List.Forall₂ (Source.Holds I) sources ess ∧ (∀ e ∈ ess.flatten, e.key ≠ []) ∧
      ∀ out, Merged g none ess.flatten out → Merged g none adds out := by
  obtain ⟨order,hperm,hrun⟩ := @sortAll_eq _ I env adds hcollect
    ⟨maxMemory,some (alwaysMerges g),pool⟩ hsmall (writeChunk_isSome hqsort)
  obtain ⟨outs,hjobs,hfolded⟩ := @runJobs_short _ env g hqsort order
    (fun b hb => hshort b (hperm.mem_iff.mp hb))
  have hflat : order.flatten.Perm adds := by
    have h := hperm.flatten
    rwa [batches_flatten] at h
  have hsub : ∀ b ∈ order, b.Sublist adds := fun b hb => batch_sublist (hperm.mem_iff.mp hb)
  have hmerged : List.Forall₂ (fun b out => Source.Holds I (env.chunkSource out) out ∧
      Merged g none b out) order outs := by
    refine ((List.forall₂_and_left _ _).mpr ⟨fun b hb => hb,hfolded⟩).imp ?_
    rintro b out ⟨hb,hout⟩
    have hm := hout.narrowed (hqsort b).1 (hfit.sublist (hsub b hb))
    exact ⟨hchunk b (hperm.mem_iff.mp hb) out hm,hm⟩
  have hbatches : List.Forall₂ (Merged g none) order outs := hmerged.imp (fun _ _ h => h.2)
  have hflip : List.Forall₂ (fun out b => Source.Holds I (env.chunkSource out) out ∧
      Merged g none b out) outs order := hmerged.flip
  have hsources : List.Forall₂ (Source.Holds I) (outs.map env.chunkSource) outs :=
    List.forall₂_map_left_iff.mpr (List.forall₂_same.mpr
      ((List.forall₂_and_left _ _).mp hflip).1)
  have houtkeys : ∀ e ∈ outs.flatten, e.key ≠ [] := by
    intro e he
    have hmem := (Merged.flatten hbatches e.key).2.mp (List.mem_map_of_mem he)
    obtain ⟨x,hx,hxk⟩ := List.mem_map.mp hmem
    exact hxk ▸ hkeys x (hflat.mem_iff.mp hx)
  have hmap : outs.map (fun out => some (env.chunkSource out)) =
      (outs.map env.chunkSource).map some := by rw [List.map_map]; rfl
  refine ⟨outs.map env.chunkSource,outs,?_,hsources,houtkeys,fun out hout =>
    (Merged.trans hbatches hout).perm hflat⟩
  rw [hrun,hjobs,ok_bind,hmap,readerSources_eq_ok.mpr rfl,ok_bind]

theorem sortAll_short (hqsort : ∀ l, (env.qsort l).Perm l ∧ KeySorted (env.qsort l))
    (hcollect : ∀ jobs, (env.collect jobs).Perm jobs)
    (hchunk : ∀ es, es.Pairwise (fun a b => a.key < b.key) → (∀ e ∈ es, e.Small) →
      Source.Holds I (env.chunkSource es) es)
    (hassoc : ∀ k, Std.Associative (g k)) (hcomm : ∀ k, Std.Commutative (g k))
    (hkeys : ∀ e ∈ adds, e.key ≠ []) (hsmall : ∀ e ∈ adds, e.Small) (hfit : MergesFit g adds)
    (hshort : ∀ batch ∈ batches maxMemory adds, batch.length < 2^32) :
    GivesMerged I g none (sortAll I env ⟨maxMemory,some (alwaysMerges g),pool⟩ adds) adds := by
  have hchunks : ∀ batch ∈ batches maxMemory adds, ∀ out, Merged g none batch out →
      Source.Holds I (env.chunkSource out) out := by
    intro batch hmem out hm
    have hsub := batch_sublist hmem
    exact hchunk out hm.ascending
      (hm.small (fun e he => hsmall e (hsub.subset he)) (hfit.sublist hsub))
  obtain ⟨sources,ess,hrun,hsources,hesskeys,hmerge⟩ := @sortAll_merges _ I env g maxMemory pool
    adds hqsort hcollect hchunks hassoc hcomm hkeys hsmall hfit hshort
  obtain ⟨out,hout,hgives⟩ := mergerIter_givesMerged (I := I)
    (m := ⟨sources,some (alwaysMerges g),none⟩) hsources hesskeys rfl
  exact ⟨out,hmerge out hout,hrun ▸ hgives⟩

theorem sortAll_long (hqsort : ∀ l, (env.qsort l).Perm l ∧ KeySorted (env.qsort l))
    (hcollect : ∀ jobs, (env.collect jobs).Perm jobs) (hsmall : ∀ e ∈ adds, e.Small)
    {batch : List Entry} (hmem : batch ∈ batches maxMemory adds) (hlong : 2^32 ≤ batch.length) :
    ∃ e, sortAll I env ⟨maxMemory,some (alwaysMerges g),pool⟩ adds = .error e := by
  obtain ⟨order,hperm,hrun⟩ := @sortAll_eq _ I env adds hcollect
    ⟨maxMemory,some (alwaysMerges g),pool⟩ hsmall (writeChunk_isSome hqsort)
  obtain ⟨e,hjobs⟩ := @runJobs_long _ env g _ hqsort order (hperm.mem_iff.mpr hmem) hlong
  exact ⟨e,by rw [hrun,hjobs]; rfl⟩

theorem GivesMerged.returns {query : Run (Option (MergerIter σ))} {es : List Entry}
    (h : GivesMerged I g none query es) (e : Fault) : query ≠ .error e := by
  obtain ⟨out,-,n,hgives⟩ := h
  obtain ⟨it,hquery,-⟩ := hgives n le_rfl
  rw [hquery]
  exact fun herror => by cases herror

end

/-- The sorted output is the merge of all that was added exactly when no batch has more entries than
the 32-bit counter of `_mtbl_sorter_write_chunk` can number. -/
theorem sorter_sorts {σ : Type} (I : Ops σ Entry Bytes) (env : SorterEnv σ)
    (hqsort : ∀ l, (env.qsort l).Perm l ∧ KeySorted (env.qsort l))
    (hcollect : ∀ jobs, (env.collect jobs).Perm jobs)
    (hchunk : ∀ es, es.Pairwise (fun a b => a.key < b.key) → (∀ e ∈ es, e.Small) →
      Source.Holds I (env.chunkSource es) es)
    (g : Bytes → Bytes → Bytes → Bytes) (hassoc : ∀ k, Std.Associative (g k))
    (hcomm : ∀ k, Std.Commutative (g k)) (maxMemory : ℕ) (pool : Bool) (adds : List Entry)
    (hkeys : ∀ e ∈ adds, e.key ≠ []) (hsmall : ∀ e ∈ adds, e.Small) (hfit : MergesFit g adds) :
    GivesMerged I g none (sortAll I env ⟨maxMemory,some (alwaysMerges g),pool⟩ adds) adds ↔
      ∀ batch ∈ batches maxMemory adds, batch.length < 2^32 := by
  constructor
  · intro hgives batch hmem
    by_contra hlong
    obtain ⟨e,herror⟩ := @sortAll_long _ I env g maxMemory pool adds hqsort hcollect hsmall
      batch hmem (not_lt.mp hlong)
    exact hgives.returns e herror
  · exact sortAll_short hqsort hcollect hchunk hassoc hcomm hkeys hsmall hfit

/-! ### The greatest value of each key -/

/-- The merge function keeps the greater value. -/
def keepGreater : Bytes → Bytes → Bytes → Bytes := fun _ => max

theorem foldl_max_mem (v : Bytes) (vs : List Bytes) : vs.foldl max v ∈ v::vs := by
  induction vs generalizing v with
  | nil => exact List.mem_singleton_self v
  | cons w vs ih =>
    rw [List.foldl_cons]
    rcases List.mem_cons.mp (ih (max v w)) with h | h
    · rw [h]
      rcases max_choice v w with hv | hw
      · simp [hv]
      · simp [hw]
    · exact List.mem_cons_of_mem _ (List.mem_cons_of_mem _ h)

theorem mergesFit_greater {adds : List Entry} (hsmall : ∀ e ∈ adds, e.Small) :
    MergesFit keepGreater adds := by
  intro k vs v hvs hfold
  cases vs with
  | nil => cases hfold
  | cons w ws =>
    have hv : v ∈ valuesOf k adds :=
      hvs.subset (Option.some.inj hfold ▸ foldl_max_mem w ws)
    obtain ⟨e,he,rfl⟩ := List.mem_map.mp hv
    exact (hsmall e (List.mem_filter.mp he).1).2

theorem plain_gives (es : List Entry) : Gives (plainOps Entry.key []) (.ok (some es)) es := by
  refine gives_some rfl (enumerates_of_step (R := fun s rem => s = rem) ?_ rfl)
  rintro s rem rfl
  exact ⟨s.tail,rfl,rfl⟩

theorem listSource_holds {es : List Entry} (hasc : es.Pairwise (fun a b => a.key < b.key)) :
    Source.Holds (plainOps Entry.key []) (listSource es) es where
  ascending := hasc
  iter := plain_gives es
  get _ := plain_gives _
  getPrefix _ := plain_gives _
  getRange _ _ := plain_gives _

/-- Three additions in two batches, with one key in both. -/
theorem sorter_sorts_three : (batches 30 [⟨[2],[5]⟩,⟨[1],[1]⟩,⟨[2],[7]⟩]).length = 2 ∧
    GivesMerged (plainOps Entry.key []) keepGreater none
      (sortAll (plainOps Entry.key []) insertionEnv ⟨30,some (alwaysMerges keepGreater),true⟩
        [⟨[2],[5]⟩,⟨[1],[1]⟩,⟨[2],[7]⟩]) [⟨[2],[5]⟩,⟨[1],[1]⟩,⟨[2],[7]⟩] := by
  refine ⟨by decide,?_⟩
  have hsmall : ∀ e ∈ [(⟨[2],[5]⟩ : Entry),⟨[1],[1]⟩,⟨[2],[7]⟩], e.Small := by decide
  exact (sorter_sorts (plainOps Entry.key []) insertionEnv insertionEnv_qsort
    (fun jobs => .refl jobs) (fun es hasc _ => listSource_holds hasc) keepGreater
    (fun _ => ⟨max_assoc⟩) (fun _ => ⟨max_comm⟩) 30 true _ (by decide) hsmall
    (mergesFit_greater hsmall)).mpr (by decide)

/-- As many additions as the loop counter has values, in one batch. -/
theorem manyAdds_batch (n : ℕ) (hpos : 0 < n) (hheld : 17*n < 2^64-1) :
    batches (2^64-1) (List.replicate n ⟨[1],[]⟩) = [List.replicate n ⟨[1],[]⟩] := by
  obtain ⟨hfull,hrest⟩ := @splitBatches_held (2^64-1) 0 [] (List.replicate n ⟨[1],[]⟩) (by
    rw [List.map_replicate,List.sum_replicate,List.length_replicate]
    simp only [List.length_nil,List.length_singleton,smul_eq_mul]
    omega)
  rw [List.nil_append] at hrest
  rw [batches,hfull,hrest,lastBatch,if_pos (by rwa [List.length_replicate])]
  rfl

/-- The batch is written with a read of freed memory. -/
theorem sorter_sorts_fails : ¬ ∀ (σ : Type) (I : Ops σ Entry Bytes) (env : SorterEnv σ),
    (∀ l, (env.qsort l).Perm l ∧ KeySorted (env.qsort l)) →
    (∀ jobs, (env.collect jobs).Perm jobs) →
    (∀ es, es.Pairwise (fun a b => a.key < b.key) → (∀ e ∈ es, e.Small) →
      Source.Holds I (env.chunkSource es) es) →
    ∀ g : Bytes → Bytes → Bytes → Bytes, (∀ k, Std.Associative (g k)) →
    (∀ k, Std.Commutative (g k)) → ∀ (maxMemory : ℕ) (pool : Bool) (adds : List Entry),
    (∀ e ∈ adds, e.key ≠ []) → (∀ e ∈ adds, e.Small) → MergesFit g adds →
    GivesMerged I g none (sortAll I env ⟨maxMemory,some (alwaysMerges g),pool⟩ adds) adds := by
  intro hclaim
  have hmem : ∀ {n : ℕ} {e : Entry}, e ∈ List.replicate n ⟨[1],[]⟩ → e = ⟨[1],[]⟩ :=
    List.eq_of_mem_replicate
  have hsmall : ∀ e ∈ List.replicate (2^32) (⟨[1],[]⟩ : Entry), e.Small := by
    intro e he
    rw [hmem he]
    decide
  have hgives := hclaim (List Entry) (plainOps Entry.key []) insertionEnv insertionEnv_qsort
    (fun jobs => .refl jobs) (fun es hasc _ => listSource_holds hasc) keepGreater
    (fun _ => ⟨max_assoc⟩) (fun _ => ⟨max_comm⟩) (2^64-1) false (List.replicate (2^32) ⟨[1],[]⟩)
    (fun e he => by rw [hmem he]; decide) hsmall (mergesFit_greater hsmall)
  obtain ⟨e,herror⟩ := @sortAll_long _ (plainOps Entry.key []) insertionEnv keepGreater (2^64-1)
    false (List.replicate (2^32) ⟨[1],[]⟩) insertionEnv_qsort (fun jobs => .refl jobs) hsmall
    (List.replicate (2^32) ⟨[1],[]⟩)
    (by
      rw [manyAdds_batch _ (by norm_num) (by norm_num)]
      exact List.mem_singleton_self _)
    (by rw [List.length_replicate])
  exact hgives.returns e herror

end Mtbl
