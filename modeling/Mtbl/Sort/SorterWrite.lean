import Mtbl.Sort.Sorted

/-! Copies that are cut short. `mtbl_source_write` and `mtbl_sorter_write` take any failure of
`mtbl_iter_next` for the end of the data; what they report is right as long as the failure is that, or
the destination writer refuses an entry before it comes to it. -/
namespace Mtbl
open CRun Cursor

/-! ### The content of a sorter -/

section
variable {σ ω : Type} (I : Ops σ Entry Bytes) (env : SorterEnv σ)
  (addTo : ω → Entry → Run (Bool × ω)) (fuel : ℕ) (f : MergeFunc)

/-- What the call puts into the sorter. -/
def entriesAdded (s : Sorter σ) : SorterCall ω → List Entry
  | .add e => if s.iterating then [] else [e]
  | .iter => []
  | .write _ => []

/-- The states that calls lead to, with all entries that were added on the way. -/
inductive SorterHolds (opt : SorterOptions) : Sorter σ → List Entry → Prop
  | init : SorterHolds opt (mtblSorterInit opt) []
  | call {s s' : Sorter σ} {adds : List Entry} {c : SorterCall ω} {res : Bool}
      (run : SorterHolds opt s adds) (step : sorterCall I env addTo fuel s c = .ok (res,s')) :
      SorterHolds opt s' (adds++entriesAdded s c)

/-- A merge is declined during `mtbl_sorter_write`: in a chunk that is written or collected then, or
in the merger over the chunks. -/
def SorterDeclines (s : Sorter σ) (w : ω) : Prop :=
  (∃ batch ∈ written s (.write w), ChunkDeclined env f batch) ∨
    s.iterating = false ∧ ∃ it s', mtblSorterIter I env s = .ok (some it,s') ∧
      DeclinesDuring I addTo fuel it w

/-- With a thread pool, no chunk has a declined merge; and if all chunks are good, then the copy from
the merger over them is. The entries are those that the merger's heap hands out, in that order. -/
def SorterCopies (s : Sorter σ) (w : ω) (taken : List Entry) : Prop :=
  s.iterating = false →
    (s.opt.pool = true → ∀ batch ∈ s.jobs++lastBatch s.vec, ¬ ChunkDeclined env f batch) ∧
    (none ∉ s.readers → (∀ batch ∈ s.jobs++lastBatch s.vec,
      batch.length < 2^32 ∧ ¬ ChunkDeclined env f batch) → CopiesAll (some f) addTo w taken)

end

/-- What a sorter that has not been asked for its output yet has made of the batches flushed. -/
structure SorterLive {σ : Type} (env : SorterEnv σ) (s : Sorter σ) (adds : List Entry)
    (flushes : List (List Entry)) : Prop where
  held : flushes.flatten++s.vec = adds
  pooled : s.opt.pool = true → s.readers = [] ∧ s.jobs = flushes
  direct : s.opt.pool = false → s.jobs = [] ∧ runJobs env s.opt.merge flushes = .ok s.readers

structure SorterKeeps {σ : Type} (env : SorterEnv σ) (opt : SorterOptions) (s : Sorter σ)
    (adds : List Entry) : Prop where
  same : s.opt = opt
  small : ∀ e ∈ adds, e.Small
  live : s.iterating = false → ∃ flushes, SorterLive env s adds flushes

section
variable {σ ω : Type} {I : Ops σ Entry Bytes} {env : SorterEnv σ}
  {addTo : ω → Entry → Run (Bool × ω)} {fuel : ℕ} {f : MergeFunc} {opt : SorterOptions}
  {s s' : Sorter σ} {adds : List Entry} {flushes : List (List Entry)} {res : Bool}

theorem SorterLive.flush (h : SorterLive env s adds flushes)
    (hrun : mtblSorterFlush env s = .ok (res,s')) : SorterLive env s' adds (flushes++[s.vec]) := by
  have hheld : (flushes++[s.vec]).flatten++[] = adds := by simp [← h.held]
  obtain ⟨-,⟨hpool,-,rfl⟩ | ⟨hdirect,r,hr,-,rfl⟩⟩ := mtblSorterFlush_cases hrun
  · refine ⟨hheld,fun _ => ?_,fun hd => absurd (hpool.symm.trans hd) (by decide)⟩
    obtain ⟨hreaders,hjobs⟩ := h.pooled hpool
    exact ⟨hreaders,congrArg (fun jobs => jobs++[s.vec]) hjobs⟩
  · refine ⟨hheld,fun hp => absurd (hp.symm.trans hdirect) (by decide),fun _ => ?_⟩
    obtain ⟨hjobs,hreaders⟩ := h.direct hdirect
    refine ⟨hjobs,?_⟩
    simp only [runJobs_append,hreaders,runJobs,hr,ok_bind,pure_eq_ok]

theorem SorterLive.flushRest (h : SorterLive env s adds flushes)
    (hrun : flushRest env s = .ok (res,s')) :
    SorterLive env s' adds (flushes++lastBatch s.vec) := by
  unfold Mtbl.flushRest at hrun
  unfold lastBatch
  split_ifs at hrun ⊢ with hlen
  · exact h.flush hrun
  · obtain ⟨-,rfl⟩ := Prod.mk.inj (Except.ok.inj hrun)
    rwa [List.append_nil]

theorem flushRest_same (hrun : flushRest env s = .ok (res,s')) :
    s'.opt = s.opt ∧ s'.iterating = s.iterating := by
  unfold Mtbl.flushRest at hrun
  split_ifs at hrun with hlen
  · obtain ⟨-,⟨-,-,rfl⟩ | ⟨-,r,-,-,rfl⟩⟩ := mtblSorterFlush_cases hrun
    · exact ⟨rfl,rfl⟩
    · exact ⟨rfl,rfl⟩
  · obtain ⟨-,rfl⟩ := Prod.mk.inj (Except.ok.inj hrun)
    exact ⟨rfl,rfl⟩

/-- `mtbl_sorter_add` has asserted that its lengths fit. -/
theorem mtblSorterAdd_small {e : Entry} (hstop : s.iterating = false)
    (hrun : mtblSorterAdd env s e = .ok (res,s')) : e.Small := by
  have hgo : ¬ s.iterating = true := by simp [hstop]
  rw [mtblSorterAdd,if_neg hgo] at hrun
  obtain ⟨_,hkey,hrun⟩ := bind_eq_ok.mp hrun
  obtain ⟨_,hval,-⟩ := bind_eq_ok.mp hrun
  have hkey' := check_eq_ok.mp hkey
  have hval' := check_eq_ok.mp hval
  exact ⟨by omega,by omega⟩

theorem SorterKeeps.add (h : SorterKeeps env opt s adds) {e : Entry}
    (hrun : mtblSorterAdd env s e = .ok (res,s')) :
    SorterKeeps env opt s' (adds++entriesAdded s (.add e : SorterCall ω)) := by
  rcases mtblSorterAdd_cases (ω := ω) hrun with ⟨hit,-,rfl⟩ | ⟨hstop,n,hadded⟩
  · simpa [entriesAdded,hit] using h
  · obtain ⟨flushes,hlive⟩ := h.live hstop
    have hone : entriesAdded s (.add e : SorterCall ω) = [e] := by simp [entriesAdded,hstop]
    have hsmall : ∀ x ∈ adds++[e], x.Small := by
      intro x hx
      rcases List.mem_append.mp hx with hx | hx
      · exact h.small x hx
      · exact List.mem_singleton.mp hx ▸ mtblSorterAdd_small hstop hrun
    have hpushed : SorterLive env { s with vec := s.vec++[e], entryBytes := n } (adds++[e])
        flushes := by
      refine ⟨?_,hlive.pooled,hlive.direct⟩
      rw [← hlive.held,List.append_assoc]
    rw [hone]
    rcases hadded with ⟨-,rfl⟩ | ⟨-,hflush⟩
    · exact ⟨h.same,hsmall,fun _ => ⟨flushes,hpushed⟩⟩
    · refine ⟨?_,hsmall,fun _ => ⟨_,hpushed.flush hflush⟩⟩
      obtain ⟨-,⟨-,-,rfl⟩ | ⟨-,r,-,-,rfl⟩⟩ := mtblSorterFlush_cases hflush
      · exact h.same
      · exact h.same

theorem SorterKeeps.iter (h : SorterKeeps env opt s adds) {it : Option (MergerIter σ)}
    (hrun : mtblSorterIter I env s = .ok (it,s')) : SorterKeeps env opt s' adds := by
  obtain ⟨⟨res,s1⟩,hflush,hrest⟩ := bind_eq_ok.mp hrun
  obtain ⟨hsame,hstop⟩ := flushRest_same hflush
  cases res with
  | false =>
    obtain ⟨-,rfl⟩ := Prod.mk.inj (Except.ok.inj hrest)
    refine ⟨hsame.trans h.same,h.small,fun hlive => ?_⟩
    obtain ⟨flushes,hflushes⟩ := h.live (hstop.symm.trans hlive)
    exact ⟨_,hflushes.flushRest hflush⟩
  | true =>
    obtain ⟨s2,hcoll,hrest⟩ := bind_eq_ok.mp hrest
    obtain ⟨sources,-,hrest⟩ := bind_eq_ok.mp hrest
    obtain ⟨it',-,hrest⟩ := bind_eq_ok.mp hrest
    obtain ⟨-,rfl⟩ := Prod.mk.inj (Except.ok.inj hrest)
    obtain ⟨readers,-,hpure⟩ := bind_eq_ok.mp hcoll
    obtain rfl := Except.ok.inj hpure
    exact ⟨hsame.trans h.same,h.small,fun hlive => (by cases hlive)⟩

theorem SorterHolds.keeps (h : SorterHolds I env addTo fuel opt s adds) :
    SorterKeeps env opt s adds := by
  induction h with
  | init =>
    exact ⟨rfl,fun e he => absurd he List.not_mem_nil,
      fun _ => ⟨[],rfl,fun _ => ⟨rfl,rfl⟩,fun _ => ⟨rfl,rfl⟩⟩⟩
  | @call s s' adds c res run step ih =>
    cases c with
    | add e => exact ih.add step
    | iter =>
      obtain ⟨⟨it,s1⟩,hiter,hpure⟩ := bind_eq_ok.mp step
      obtain ⟨-,rfl⟩ := Prod.mk.inj (Except.ok.inj hpure)
      simpa [entriesAdded] using ih.iter hiter
    | write w =>
      simp only [entriesAdded,List.append_nil]
      simp only [sorterCall] at step
      split_ifs at step
      · obtain ⟨-,rfl⟩ := Prod.mk.inj (Except.ok.inj step)
        exact ih
      · obtain ⟨⟨r,w'⟩,-,hrest⟩ := bind_eq_ok.mp step
        obtain ⟨⟨it,s1⟩,hiter,hpure⟩ := bind_eq_ok.mp hrest
        obtain ⟨-,rfl⟩ := Prod.mk.inj (Except.ok.inj hpure)
        exact ih.iter hiter

end

/-! ### What the chunks hold -/

section
variable {σ ω : Type} {I : Ops σ Entry Bytes} {env : SorterEnv σ} {f : MergeFunc}
  {s s' : Sorter σ} {adds sorted out : List Entry} {flushes order : List (List Entry)}
  {sources : List (Source σ)}

theorem narrowVal_length (v : Bytes) : (narrowVal v).length < 2^32 := by
  rw [narrowVal,List.length_take]
  exact (min_le_left _ _).trans_lt (Nat.mod_lt _ (Nat.two_pow_pos 32))

/-- A merged value is as short as those it comes from. -/
theorem foldValues_narrow_length {k w : Bytes} {vs : List Bytes}
    (hvs : ∀ v ∈ vs, v.length < 2^32) (h : foldValues (narrowMerge f) k vs = some w) :
    w.length < 2^32 := by
  cases vs with
  | nil => cases h
  | cons v vs =>
    induction vs generalizing v with
    | nil =>
      obtain rfl := Option.some.inj h
      exact hvs _ List.mem_cons_self
    | cons u vs ih =>
      rw [foldValues,List.foldlM_cons] at h
      obtain ⟨v',hv',hrest⟩ := Option.bind_eq_some_iff.mp h
      obtain ⟨x,-,rfl⟩ := Option.map_eq_some_iff.mp hv'
      refine ih (narrowVal x) (fun y hy => ?_) hrest
      rcases List.mem_cons.mp hy with rfl | hy
      · exact narrowVal_length x
      · exact hvs y (List.mem_cons_of_mem _ (List.mem_cons_of_mem _ hy))

theorem Folded.narrow_small (h : Folded (narrowMerge f) sorted out)
    (hsmall : ∀ e ∈ sorted, e.Small) : ∀ e ∈ out, e.Small := by
  intro e he
  obtain ⟨x,hx,hxk⟩ := List.mem_map.mp ((h.keys e.key).mp (List.mem_map_of_mem he))
  refine ⟨hxk ▸ (hsmall x hx).1,foldValues_narrow_length (fun v hv => ?_) (h.value e he)⟩
  obtain ⟨y,hy,rfl⟩ := List.mem_map.mp hv
  exact (hsmall y (List.mem_filter.mp hy).1).2

/-- Chunks that all have readers hold the keys of their batches. -/
theorem runJobs_hold (hqsort : ∀ l, (env.qsort l).Perm l ∧ KeySorted (env.qsort l))
    (hchunk : ∀ es, es.Pairwise (fun a b => a.key < b.key) → (∀ e ∈ es, e.Small) →
      Source.Holds I (env.chunkSource es) es)
    (hsmall : ∀ batch ∈ order, ∀ e ∈ batch, e.Small)
    (h : runJobs env (some f) order = .ok (sources.map some)) :
    ∃ outs, List.Forall₂ (Source.Holds I) sources outs ∧
      ∀ k, k ∈ outs.flatten.map Entry.key ↔ k ∈ order.flatten.map Entry.key := by
  have hall := List.forall₂_map_right_iff.mp (runJobs_eq_ok.mp h)
  clear h
  induction hall with
  | nil => exact ⟨[],.nil,fun k => Iff.rfl⟩
  | @cons batch r order sources hr _ ih =>
    obtain ⟨hsmall1,hsmall'⟩ := List.forall_mem_cons.mp hsmall
    obtain ⟨outs,hholds,hkeys⟩ := ih hsmall'
    rcases @writeChunk_cases _ env f hqsort batch with
      ⟨-,hnone⟩ | ⟨-,-,out,hsome,hfolded⟩ | ⟨-,-,hcrash⟩
    · cases hr.symm.trans hnone
    · obtain rfl : r = env.chunkSource out := by simpa using hr.symm.trans hsome
      obtain ⟨hperm,-⟩ := hqsort batch
      have hout := hfolded.narrow_small (fun e he => hsmall1 e (hperm.mem_iff.mp he))
      refine ⟨out::outs,.cons (hchunk out hfolded.ascending hout) hholds,fun k => ?_⟩
      simp only [List.flatten_cons,List.map_append,List.mem_append,hkeys,hfolded.keys,
        (hperm.map Entry.key).mem_iff]
    · cases hr.symm.trans hcrash

/-- Every batch behind good readers was written. -/
theorem runJobs_written (h : runJobs env (some f) order = .ok (sources.map some)) :
    ∀ batch ∈ order, ∃ r, writeChunk env (some f) batch = .ok (some r) := by
  have hall := List.forall₂_map_right_iff.mp (runJobs_eq_ok.mp h)
  clear h
  induction hall with
  | nil => exact fun b hb => absurd hb List.not_mem_nil
  | @cons batch r order sources hr _ ih =>
    intro b hb
    rcases List.mem_cons.mp hb with rfl | hb
    · exact ⟨r,hr⟩
    · exact ih b hb

theorem exists_runJobs (h : ∀ batch ∈ order, ∃ r, writeChunk env (some f) batch = .ok (some r)) :
    ∃ sources : List (Source σ), runJobs env (some f) order = .ok (sources.map some) := by
  induction order with
  | nil => exact ⟨[],rfl⟩
  | cons batch order ih =>
    obtain ⟨⟨r,hr⟩,hrest⟩ := List.forall_mem_cons.mp h
    obtain ⟨sources,hsources⟩ := ih hrest
    exact ⟨r::sources,by simp only [runJobs,hr,hsources,ok_bind,pure_eq_ok,List.map_cons]⟩

theorem writeChunk_isSome_iff (hqsort : ∀ l, (env.qsort l).Perm l ∧ KeySorted (env.qsort l))
    (batch : List Entry) : (∃ r, writeChunk env (some f) batch = .ok (some r)) ↔
      batch.length < 2^32 ∧ ¬ ChunkDeclined env f batch := by
  rcases @writeChunk_cases _ env f hqsort batch with
    ⟨hdecl,hnone⟩ | ⟨hnot,hshort,out,hsome,-⟩ | ⟨-,hlong,hcrash⟩
  · exact iff_of_false (fun ⟨r,hr⟩ => by cases hnone.symm.trans hr) (fun h => h.2 hdecl)
  · exact iff_of_true ⟨_,hsome⟩ ⟨hshort,hnot⟩
  · exact iff_of_false (fun ⟨r,hr⟩ => by cases hcrash.symm.trans hr)
      (fun h => absurd h.1 (not_lt.mpr hlong))

/-! ### The iterator of the sorted output -/

/-- An iterator of the sorted output is one of the merger over the chunks of all batches. -/
theorem SorterLive.opened (h : SorterLive env s adds flushes)
    (hcollect : ∀ jobs, (env.collect jobs).Perm jobs) (hmerge : s.opt.merge = some f)
    {it : MergerIter σ} (hrun : mtblSorterIter I env s = .ok (some it,s')) :
    ∃ order sources, order.Perm (flushes++lastBatch s.vec) ∧
      runJobs env (some f) order = .ok (sources.map some) ∧
      mergerIter I ⟨sources,some f,none⟩ = .ok (some it) := by
  obtain ⟨⟨res,s1⟩,hflush,hrest⟩ := bind_eq_ok.mp hrun
  cases res with
  | false => cases hrest
  | true =>
    obtain ⟨s2,hcoll,hrest⟩ := bind_eq_ok.mp hrest
    obtain ⟨sources,hsources,hrest⟩ := bind_eq_ok.mp hrest
    obtain ⟨it',hiter,hrest⟩ := bind_eq_ok.mp hrest
    obtain ⟨rfl,-⟩ := Prod.mk.inj (Except.ok.inj hrest)
    obtain ⟨readers,hjobs,hpure⟩ := bind_eq_ok.mp hcoll
    obtain rfl := Except.ok.inj hpure
    have hlive := h.flushRest hflush
    have hopt : s1.opt.merge = some f := (flushRest_same hflush).1 ▸ hmerge
    have hall := readerSources_eq_ok.mp hsources
    simp only [sorterMerger,hopt] at hiter
    rw [hopt] at hjobs
    cases hpool : s1.opt.pool with
    | true =>
      obtain ⟨hnil,hdispatched⟩ := hlive.pooled hpool
      refine ⟨_,sources,hcollect _,?_,hiter⟩
      rw [← hdispatched,hjobs,← hall,hnil,List.nil_append]
    | false =>
      obtain ⟨hnil,hwritten⟩ := hlive.direct hpool
      refine ⟨_,sources,.refl _,?_,hiter⟩
      rw [hnil,(hcollect []).eq_nil] at hjobs
      obtain rfl := Except.ok.inj hjobs
      rw [← hopt,hwritten,← hall,List.append_nil]

/-- All that was added is in the batches. -/
theorem SorterLive.flatten (h : SorterLive env s adds flushes)
    (hperm : order.Perm (flushes++lastBatch s.vec)) : order.flatten.Perm adds := by
  have hflat := hperm.flatten
  rwa [List.flatten_append,lastBatch_flatten,h.held] at hflat

/-- If no chunk fails, the iterator is the merger's. -/
theorem SorterLive.iter_eq (h : SorterLive env s adds flushes)
    (hcollect : ∀ jobs, (env.collect jobs).Perm jobs) (hmerge : s.opt.merge = some f)
    (hstop : s.iterating = false) (hnull : none ∉ s.readers)
    (hgood : ∀ batch ∈ s.jobs++lastBatch s.vec, ∃ r, writeChunk env (some f) batch = .ok (some r)) :
    ∃ order sources, order.Perm (flushes++lastBatch s.vec) ∧
      runJobs env (some f) order = .ok (sources.map some) ∧
      (mtblSorterIter I env s).map Prod.fst = mergerIter I ⟨sources,some f,none⟩ := by
  cases hpool : s.opt.pool with
  | true =>
    obtain ⟨hnil,hjobs⟩ := h.pooled hpool
    have hperm := hcollect (s.jobs++lastBatch s.vec)
    obtain ⟨sources,hsources⟩ := exists_runJobs (fun b hb => hgood b (hperm.mem_iff.mp hb))
    refine ⟨_,sources,hjobs ▸ hperm,hsources,?_⟩
    rw [mtblSorterIter_flushed (flushRest_pooled hpool hstop)]
    simp only [hmerge,hsources,hnil,ok_bind,List.nil_append,readerSources_eq_ok.mpr rfl]
  | false =>
    obtain ⟨hnil,hreaders⟩ := h.direct hpool
    rw [hnil,List.nil_append] at hgood
    obtain ⟨last,hlast⟩ := exists_runJobs hgood
    have hrange : s.readers ∈ Set.range (List.map some) := by
      rw [Set.range_list_map]
      intro r hr
      cases r with
      | none => exact absurd hr hnull
      | some r => exact ⟨r,rfl⟩
    obtain ⟨sources,hsources⟩ := hrange
    rw [hmerge] at hreaders
    refine ⟨_,sources++last,.refl _,?_,?_⟩
    · rw [runJobs_append,hreaders,hlast,← hsources]
      simp only [ok_bind,pure_eq_ok,List.map_append]
    · have hflush := @flushRest_direct _ env s hpool hstop (fun b hb hnone => by
        obtain ⟨r,hr⟩ := hgood b hb
        rw [hmerge,hr] at hnone
        cases hnone)
      rw [hmerge,hlast] at hflush
      rw [mtblSorterIter_flushed hflush]
      simp only [hmerge,hnil,(hcollect []).eq_nil,runJobs,ok_bind,List.append_nil,← hsources,
        ← List.map_append,readerSources_eq_ok.mpr rfl]

/-- With good chunks there is one. -/
theorem SorterLive.opens (h : SorterLive env s adds flushes)
    (hqsort : ∀ l, (env.qsort l).Perm l ∧ KeySorted (env.qsort l))
    (hcollect : ∀ jobs, (env.collect jobs).Perm jobs)
    (hchunk : ∀ es, es.Pairwise (fun a b => a.key < b.key) → (∀ e ∈ es, e.Small) →
      Source.Holds I (env.chunkSource es) es)
    (hsmall : ∀ e ∈ adds, e.Small) (hmerge : s.opt.merge = some f) (hstop : s.iterating = false)
    (hnull : none ∉ s.readers)
    (hgood : ∀ batch ∈ s.jobs++lastBatch s.vec, ∃ r, writeChunk env (some f) batch = .ok (some r)) :
    ∃ it s', mtblSorterIter I env s = .ok (some it,s') := by
  obtain ⟨order,sources,hperm,hjobs,heq⟩ := h.iter_eq (I := I) hcollect hmerge hstop hnull hgood
  have hflat := h.flatten hperm
  obtain ⟨outs,hholds,-⟩ := runJobs_hold hqsort hchunk
    (fun b hb e he => hsmall e (hflat.mem_iff.mp (List.mem_flatten_of_mem hb he))) hjobs
  obtain ⟨it,-,hiter,-⟩ := mergerIter_takes (m := ⟨sources,some f,none⟩) (takeOrder_key _)
    (steps_enumerates (mtblIterNext I)) (sourcesGive_iter hholds)
  rw [hiter] at heq
  cases hrun : mtblSorterIter I env s with
  | error e =>
    rw [hrun] at heq
    cases heq
  | ok r =>
    rw [hrun] at heq
    obtain ⟨it',s'⟩ := r
    obtain rfl : it' = some it := Except.ok.inj heq
    exact ⟨it,s',rfl⟩

end

/-! ### Writing it out -/

section
variable {σ ω : Type} {I : Ops σ Entry Bytes} {env : SorterEnv σ}
  {add : ω → Entry → Run (Bool × ω)} {f : MergeFunc} {opt : SorterOptions}
  {s s' : Sorter σ} {adds : List Entry} {flushes : List (List Entry)} {fuel : ℕ}

theorem lastBatch_pos (h : 0 < s.vec.length) : s.vec ∈ s.jobs++lastBatch s.vec := by
  rw [lastBatch,if_pos h]
  exact List.mem_append_right _ (List.mem_singleton_self _)

/-- The chunks written or collected by `mtbl_sorter_write` are those of all batches without a reader
yet. -/
theorem SorterLive.written_eq (h : SorterLive env s adds flushes) (hstop : s.iterating = false)
    (w : ω) : written s (.write w) = s.jobs++lastBatch s.vec := by
  have hflushed : flushed s (.write w) = lastBatch s.vec := by
    simp [flushed,consumes,hstop,lastBatch]
  cases hpool : s.opt.pool with
  | true => simp [written,consumes,hstop,hpool,hflushed]
  | false =>
    obtain ⟨hnil,-⟩ := h.direct hpool
    simp [written,hpool,hflushed,hnil]

/-- `mtbl_sorter_iter` gives NULL for one reason. -/
theorem mtblSorterIter_null (hmerge : s.opt.merge = some f)
    (hqsort : ∀ l, (env.qsort l).Perm l ∧ KeySorted (env.qsort l))
    (hrun : mtblSorterIter I env s = .ok (none,s')) :
    s.opt.pool = false ∧ 0 < s.vec.length ∧ ChunkDeclined env f s.vec := by
  obtain ⟨⟨res,s1⟩,hflush,hrest⟩ := bind_eq_ok.mp hrun
  cases res with
  | true =>
    obtain ⟨s2,-,hrest⟩ := bind_eq_ok.mp hrest
    obtain ⟨sources,-,hrest⟩ := bind_eq_ok.mp hrest
    obtain ⟨it,hiter,hrest⟩ := bind_eq_ok.mp hrest
    obtain ⟨rfl,-⟩ := Prod.mk.inj (Except.ok.inj hrest)
    obtain ⟨it,-,hpure⟩ := bind_eq_ok.mp hiter
    cases hpure
  | false =>
    unfold Mtbl.flushRest at hflush
    split_ifs at hflush with hlen
    · obtain ⟨-,⟨-,hres,-⟩ | ⟨hpool,r,hr,hres,-⟩⟩ := mtblSorterFlush_cases hflush
      · cases hres
      · obtain rfl : r = none := by simpa using hres.symm
        rw [hmerge] at hr
        refine ⟨hpool,hlen,?_⟩
        rcases @writeChunk_cases _ env f hqsort s.vec with ⟨hdecl,-⟩ | ⟨-,-,out,hsome,-⟩ | ⟨-,-,hcrash⟩
        · exact hdecl
        · cases hr.symm.trans hsome
        · cases hr.symm.trans hcrash
    · cases hflush

theorem noSilentTruncation_failed {run : Run (Bool × ω × List Entry)} {w : ω × List Entry}
    (hrun : run = .ok (false,w)) (declines : Prop) (es : List Entry) :
    NoSilentTruncation run declines es := by
  refine ⟨fun p hp => ?_,fun _ => ⟨w,hrun⟩⟩
  cases hrun.symm.trans hp

theorem noSilentTruncation_crashed {run : Run (Bool × ω × List Entry)} {e : Fault}
    (hrun : run = .error e) (declines : Prop) (es : List Entry) :
    NoSilentTruncation run declines es ↔ ¬ declines := by
  constructor
  · rintro ⟨-,hfail⟩ hdecl
    obtain ⟨p,hp⟩ := hfail hdecl
    cases hrun.symm.trans hp
  · refine fun hnot => ⟨fun p hp => ?_,fun hdecl => absurd hdecl hnot⟩
    cases hrun.symm.trans hp

/-- No merge is declined where the iterator is opened. -/
theorem SorterLive.opened_good (h : SorterLive env s adds flushes)
    (hcollect : ∀ jobs, (env.collect jobs).Perm jobs) (hmerge : s.opt.merge = some f)
    {it : MergerIter σ} (hrun : mtblSorterIter I env s = .ok (some it,s')) :
    none ∉ s.readers ∧
      ∀ batch ∈ s.jobs++lastBatch s.vec, ∃ r, writeChunk env (some f) batch = .ok (some r) := by
  obtain ⟨order,sources,hperm,hjobs,-⟩ := h.opened hcollect hmerge hrun
  have hall : ∀ batch ∈ flushes++lastBatch s.vec,
      ∃ r, writeChunk env (some f) batch = .ok (some r) :=
    fun b hb => runJobs_written hjobs b (hperm.mem_iff.mpr hb)
  cases hpool : s.opt.pool with
  | true =>
    obtain ⟨hnil,hsame⟩ := h.pooled hpool
    rw [hnil,hsame]
    exact ⟨List.not_mem_nil,hall⟩
  | false =>
    obtain ⟨hnil,hreaders⟩ := h.direct hpool
    rw [hnil]
    refine ⟨fun hnull => ?_,fun b hb => hall b (List.mem_append_right _ hb)⟩
    obtain ⟨good,hgood⟩ := exists_runJobs (fun b hb => hall b (List.mem_append_left _ hb))
    rw [hmerge,hgood] at hreaders
    rw [← Except.ok.inj hreaders] at hnull
    obtain ⟨r,-,hr⟩ := List.mem_map.mp hnull
    cases hr

/-- Where the chunks are not all good and a crash follows: it hides a declined merge with a thread
pool only. -/
theorem SorterLive.write_crashed (h : SorterLive env s adds flushes)
    (hqsort : ∀ l, (env.qsort l).Perm l ∧ KeySorted (env.qsort l))
    (hcollect : ∀ jobs, (env.collect jobs).Perm jobs)
    (hchunk : ∀ es, es.Pairwise (fun a b => a.key < b.key) → (∀ e ∈ es, e.Small) →
      Source.Holds I (env.chunkSource es) es)
    (hsmall : ∀ e ∈ adds, e.Small) (hmerge : s.opt.merge = some f) (hstop : s.iterating = false)
    {e : Fault} (hrun : mtblSorterIter I env s = .error e) (w : ω) (taken : List Entry) :
    ¬ SorterDeclines I env (traced add) fuel f s (w,[]) ↔ SorterCopies env add f s w taken := by
  have hwritten := h.written_eq hstop (w,([] : List Entry))
  constructor
  · refine fun hnot _ => ⟨fun _ b hb hdecl => hnot (.inl ⟨b,hwritten ▸ hb,hdecl⟩),
      fun hnull hgood => ?_⟩
    obtain ⟨it,s',hopen⟩ := h.opens hqsort hcollect hchunk hsmall hmerge hstop hnull
      (fun b hb => (writeChunk_isSome_iff hqsort b).mpr (hgood b hb))
    cases hrun.symm.trans hopen
  · rintro hcopies (⟨b,hb,hdecl⟩ | ⟨-,it,s',hopen,-⟩)
    · rw [hwritten] at hb
      cases hpool : s.opt.pool with
      | true => exact (hcopies hstop).1 hpool b hb hdecl
      | false =>
        obtain ⟨hnil,-⟩ := h.direct hpool
        rw [hnil,List.nil_append] at hb
        unfold lastBatch at hb
        split_ifs at hb with hlen
        · obtain rfl := List.mem_singleton.mp hb
          obtain ⟨s',hnone⟩ := mtblSorterIter_declined (I := I) hstop hpool hmerge hlen hdecl
          cases hrun.symm.trans hnone
        · cases hb
    · cases hrun.symm.trans hopen

/-- Where they are: the copy is that of the merger over them. -/
theorem SorterLive.write_opened (h : SorterLive env s adds flushes)
    (hqsort : ∀ l, (env.qsort l).Perm l ∧ KeySorted (env.qsort l))
    (hcollect : ∀ jobs, (env.collect jobs).Perm jobs)
    (hchunk : ∀ es, es.Pairwise (fun a b => a.key < b.key) → (∀ e ∈ es, e.Small) →
      Source.Holds I (env.chunkSource es) es)
    (hsmall : ∀ e ∈ adds, e.Small) (hmerge : s.opt.merge = some f) (hstop : s.iterating = false)
    {it : MergerIter σ} (hrun : mtblSorterIter I env s = .ok (some it,s')) :
    ∃ taken, Takes I it taken ∧ ∀ (w : ω) fuel, taken.length < fuel →
      (NoSilentTruncation (copyLoop (mergerIterNext I fuel) (traced add) fuel it (w,[]))
        (SorterDeclines I env (traced add) fuel f s (w,[])) adds ↔
          SorterCopies env add f s w taken) := by
  obtain ⟨order,sources,hperm,hjobs,hiter⟩ := h.opened hcollect hmerge hrun
  obtain ⟨hnull,hgood⟩ := h.opened_good hcollect hmerge hrun
  simp only [writeChunk_isSome_iff hqsort] at hgood
  have hflat := h.flatten hperm
  obtain ⟨outs,hholds,hkeys⟩ := runJobs_hold hqsort hchunk
    (fun b hb e he => hsmall e (hflat.mem_iff.mp (List.mem_flatten_of_mem hb he))) hjobs
  obtain ⟨taken,ht,hopt,htaken,hsorted⟩ := (Opened.iter hiter).takes hholds
  have hsame : ∀ k, k ∈ taken.map Entry.key ↔ k ∈ adds.map Entry.key := by
    intro k
    rw [(htaken.map Entry.key).mem_iff,hkeys,(hflat.map Entry.key).mem_iff]
  refine ⟨taken,ht,fun w fuel hfuel => ?_⟩
  have hdecl : SorterDeclines I env (traced add) fuel f s (w,[]) ↔
      DeclinesDuring I (traced add) fuel it (w,[]) := by
    constructor
    · rintro (⟨b,hb,hdecl⟩ | ⟨-,it',s'',hopen,hdecl⟩)
      · rw [h.written_eq hstop] at hb
        exact absurd hdecl (hgood b hb).2
      · obtain ⟨hit,-⟩ := Prod.mk.inj (Except.ok.inj (hrun.symm.trans hopen))
        obtain rfl := Option.some.inj hit
        exact hdecl
    · exact fun hdecl => .inr ⟨hstop,it,s',hrun,hdecl⟩
  rw [hdecl,copyLoop_noSilentTruncation ht (congrArg MergerOptions.merge hopt) hsorted hsame w hfuel
    hfuel]
  constructor
  · exact fun hcopies _ => ⟨fun _ b hb => (hgood b hb).2,fun _ _ => hcopies⟩
  · exact fun hcopies => (hcopies hstop).2 hnull hgood

/-- `mtbl_sorter_write` on a sorter that calls have led to. -/
theorem SorterKeeps.write (h : SorterKeeps env opt s adds)
    (hqsort : ∀ l, (env.qsort l).Perm l ∧ KeySorted (env.qsort l))
    (hcollect : ∀ jobs, (env.collect jobs).Perm jobs)
    (hchunk : ∀ es, es.Pairwise (fun a b => a.key < b.key) → (∀ e ∈ es, e.Small) →
      Source.Holds I (env.chunkSource es) es) (hmerge : opt.merge = some f) :
    ∃ taken, (∀ it s', s.iterating = false → mtblSorterIter I env s = .ok (some it,s') →
        Takes I it taken) ∧
      ∀ (w : ω) fuel, taken.length < fuel →
        (NoSilentTruncation (mtblSorterWrite I env (traced add) fuel s (w,[]))
          (SorterDeclines I env (traced add) fuel f s (w,[])) adds ↔
            SorterCopies env add f s w taken) := by
  cases hstop : s.iterating with
  | true =>
    refine ⟨[],fun it s' hlive => (by cases hlive),fun w fuel _ => ?_⟩
    have hrun : mtblSorterWrite I env (traced add) fuel s (w,[]) = .ok (false,(w,[])) := by
      simp only [mtblSorterWrite,hstop,if_true,pure_eq_ok]
    apply iff_of_true (noSilentTruncation_failed hrun _ _)
    intro hlive
    rw [hstop] at hlive
    cases hlive
  | false =>
    obtain ⟨flushes,hlive⟩ := h.live hstop
    have hopt : s.opt.merge = some f := h.same ▸ hmerge
    cases hrun : mtblSorterIter I env s with
    | error e =>
      refine ⟨[],fun it s' _ hopen => (by cases hopen),fun w fuel _ => ?_⟩
      have hcrash : mtblSorterWrite I env (traced add) fuel s (w,[]) = .error e := by
        simp only [mtblSorterWrite,hstop,Bool.false_eq_true,if_false,hrun,error_bind]
      rw [noSilentTruncation_crashed hcrash]
      exact hlive.write_crashed hqsort hcollect hchunk h.small hopt hstop hrun w []
    | ok r =>
      obtain ⟨it,s'⟩ := r
      cases it with
      | none =>
        refine ⟨[],fun it s' _ hopen => (by cases hopen),fun w fuel _ => ?_⟩
        have hfail : mtblSorterWrite I env (traced add) fuel s (w,[]) = .ok (false,(w,[])) := by
          simp only [mtblSorterWrite,hstop,Bool.false_eq_true,if_false,hrun,ok_bind,pure_eq_ok]
        apply iff_of_true (noSilentTruncation_failed hfail _ _)
        obtain ⟨hpool,hlen,hdecl⟩ := mtblSorterIter_null hopt hqsort hrun
        refine fun _ => ⟨fun hp => absurd (hp.symm.trans hpool) (by decide),fun _ hgood => ?_⟩
        exact absurd hdecl (hgood s.vec (lastBatch_pos hlen)).2
      | some it =>
        obtain ⟨taken,ht,hcopies⟩ := @SorterLive.write_opened _ _ _ _ add _ _ _ _ _ hlive hqsort
          hcollect hchunk h.small hopt hstop _ hrun
        refine ⟨taken,fun it' s'' _ hopen => ?_,fun w fuel hfuel => ?_⟩
        · obtain ⟨hit,-⟩ := Prod.mk.inj (Except.ok.inj hopen)
          exact Option.some.inj hit ▸ ht
        · rw [show mtblSorterWrite I env (traced add) fuel s (w,[]) =
            copyLoop (mergerIterNext I fuel) (traced add) fuel it (w,[]) by
              simp only [mtblSorterWrite,hstop,Bool.false_eq_true,if_false,hrun,ok_bind]]
          exact hcopies w fuel hfuel

end

/-- Writing out a sorter, whatever calls were made on it before: a success means that every key was
added to the writer, and a declined merge that the call fails, exactly if no chunk has a declined
merge where a thread pool writes it, and the copy from the merger over good chunks is good. -/
theorem sorter_copy_iff {σ ω : Type} (I : Ops σ Entry Bytes) (env : SorterEnv σ)
    (hqsort : ∀ l, (env.qsort l).Perm l ∧ KeySorted (env.qsort l))
    (hcollect : ∀ jobs, (env.collect jobs).Perm jobs)
    (hchunk : ∀ es, es.Pairwise (fun a b => a.key < b.key) → (∀ e ∈ es, e.Small) →
      Source.Holds I (env.chunkSource es) es)
    (add : ω → Entry → Run (Bool × ω)) (f : MergeFunc) (maxMemory : ℕ) (pool : Bool) (fuel : ℕ)
    (s : Sorter σ) (adds : List Entry)
    (hrun : SorterHolds I env add fuel ⟨maxMemory,some f,pool⟩ s adds) :
    ∃ taken, (∀ it s', s.iterating = false → mtblSorterIter I env s = .ok (some it,s') →
        Takes I it taken) ∧
      ∀ (w : ω) n, taken.length < n →
        (NoSilentTruncation (mtblSorterWrite I env (traced add) n s (w,[]))
          (SorterDeclines I env (traced add) n f s (w,[])) adds ↔
            SorterCopies env add f s w taken) :=
  hrun.keeps.write hqsort hcollect hchunk rfl

/-- Two values of one key and a merge function that declines, without a thread pool: the copy
fails. -/
theorem sorter_copy_iff_declined : ∃ n,
    NoSilentTruncation (mtblSorterWrite (plainOps Entry.key []) insertionEnv
        (traced (writerAdd storingCodec)) n (sameKeyTwice false)
        (mtblWriterInitFd [] (some plainOptions),[]))
      (SorterDeclines (plainOps Entry.key []) insertionEnv (traced (writerAdd storingCodec)) n
        (fun _ _ _ => none) (sameKeyTwice false) (mtblWriterInitFd [] (some plainOptions),[]))
      [⟨[1],[10]⟩,⟨[1],[11]⟩] := by
  have hone : SorterHolds (plainOps Entry.key []) insertionEnv (writerAdd storingCodec) 1
      ⟨1073741824,some (fun _ _ _ => none),false⟩ _ _ :=
    .call .init (show sorterCall _ _ _ _ (mtblSorterInit _) (.add ⟨[1],[10]⟩) = _ from rfl)
  have htwo : SorterHolds (plainOps Entry.key []) insertionEnv (writerAdd storingCodec) 1
      ⟨1073741824,some (fun _ _ _ => none),false⟩ (sameKeyTwice false)
      [⟨[1],[10]⟩,⟨[1],[11]⟩] :=
    .call hone (show sorterCall _ _ _ _ _ (.add ⟨[1],[11]⟩) = _ from rfl)
  obtain ⟨taken,-,hcopy⟩ := sorter_copy_iff (plainOps Entry.key []) insertionEnv insertionEnv_qsort
    (fun jobs => .refl jobs) (fun es hasc _ => listSource_holds hasc) (writerAdd storingCodec)
    (fun _ _ _ => none) 1073741824 false 1 _ _ htwo
  refine ⟨taken.length+1,(hcopy _ _ (Nat.lt_succ_self _)).mpr (fun _ => ⟨fun hp => ?_,fun _ hgood => ?_⟩)⟩
  · cases hp
  · exact absurd ⟨[],rfl⟩ (hgood (sameKeyTwice false).vec (List.mem_singleton_self _)).2

end Mtbl
