import Mtbl.Sort.FailedChunk

/-! How a sorter's additions fall into batches, and what becomes of them: the sorted output is that
of the merger over the chunks of all batches, each written once. -/
namespace Mtbl
open CRun Cursor

/-- The batches that additions fill, and what is left in memory behind them. -/
def splitBatches (maxMemory : ℕ) (vec : List Entry) (entryBytes : ℕ) :
    List Entry → List (List Entry) × List Entry × ℕ
  | [] => ([],vec,entryBytes)
  | e::es =>
    let vec := vec++[e]
    let entryBytes := entryBytes+(8+e.key.length+e.val.length)
    if entryBytes+8*vec.length ≥ maxMemory then
      let (full,rest) := splitBatches maxMemory [] 0 es
      (vec::full,rest)
    else splitBatches maxMemory vec entryBytes es

/-- What `mtbl_sorter_iter` flushes, if there is any. -/
def lastBatch (vec : List Entry) : List (List Entry) := if 0 < vec.length then [vec] else []

/-- The batches of a sequence of additions, up to the one that `mtbl_sorter_iter` flushes. -/
def batches (maxMemory : ℕ) (adds : List Entry) : List (List Entry) :=
  (splitBatches maxMemory [] 0 adds).1++lastBatch (splitBatches maxMemory [] 0 adds).2.1

section
variable {σ : Type}

/-- Additions and then `mtbl_sorter_iter`. -/
def sortAll (I : Ops σ Entry Bytes) (env : SorterEnv σ) (opt : SorterOptions) (adds : List Entry) :
    Run (Option (MergerIter σ)) := do
  let (_,s) ← sorterAdds env (mtblSorterInit opt) adds
  let (it,_) ← mtblSorterIter I env s
  return it

variable {I : Ops σ Entry Bytes} {env : SorterEnv σ} {s : Sorter σ} {maxMemory bytes : ℕ}
  {vec adds : List Entry}

theorem splitBatches_cons (e : Entry) (es : List Entry) :
    splitBatches maxMemory vec bytes (e::es) =
      if bytes+(8+e.key.length+e.val.length)+8*(vec++[e]).length ≥ maxMemory then
        ((vec++[e])::(splitBatches maxMemory [] 0 es).1,(splitBatches maxMemory [] 0 es).2)
      else splitBatches maxMemory (vec++[e]) (bytes+(8+e.key.length+e.val.length)) es := rfl

/-- Every entry is in one batch. -/
theorem splitBatches_flatten : (splitBatches maxMemory vec bytes adds).1.flatten++
    (splitBatches maxMemory vec bytes adds).2.1 = vec++adds := by
  induction adds generalizing vec bytes with
  | nil => simp [splitBatches]
  | cons e es ih =>
    rw [splitBatches_cons]
    split_ifs
    · have hrest := @ih 0 []
      rw [List.nil_append] at hrest
      rw [List.flatten_cons,List.append_assoc,hrest,List.append_assoc]
      rfl
    · rw [ih,List.append_assoc]
      rfl

theorem lastBatch_flatten (vec : List Entry) : (lastBatch vec).flatten = vec := by
  unfold lastBatch
  split_ifs with h
  · simp
  · simpa using h

theorem batches_flatten (maxMemory : ℕ) (adds : List Entry) :
    (batches maxMemory adds).flatten = adds := by
  rw [batches,List.flatten_append,lastBatch_flatten,splitBatches_flatten,List.nil_append]

/-- Additions that the memory holds are one batch. -/
theorem splitBatches_held (h : bytes+(adds.map (fun e => 8+e.key.length+e.val.length)).sum+
    8*(vec.length+adds.length) < maxMemory) :
    (splitBatches maxMemory vec bytes adds).1 = [] ∧
      (splitBatches maxMemory vec bytes adds).2.1 = vec++adds := by
  induction adds generalizing vec bytes with
  | nil => simp [splitBatches]
  | cons e es ih =>
    simp only [List.map_cons,List.sum_cons,List.length_cons] at h
    rw [splitBatches_cons,if_neg (by
      rw [List.length_append,List.length_singleton]
      omega)]
    obtain ⟨hfull,hrest⟩ := @ih (bytes+(8+e.key.length+e.val.length)) (vec++[e]) (by
      rw [List.length_append,List.length_singleton]
      omega)
    rw [List.append_assoc] at hrest
    exact ⟨hfull,hrest⟩

/-! ### The chunks of the batches -/

theorem runJobs_append (merge : Option MergeFunc) (jobs jobs' : List (List Entry)) :
    runJobs env merge (jobs++jobs') = do
      let readers ← runJobs env merge jobs
      let readers' ← runJobs env merge jobs'
      return readers++readers' := by
  induction jobs with
  | nil =>
    simp only [List.nil_append,runJobs,ok_bind]
    cases runJobs env merge jobs' <;> rfl
  | cons batch jobs ih =>
    simp only [List.cons_append,runJobs,ih]
    cases writeChunk env merge batch with
    | error e => rfl
    | ok r =>
      simp only [ok_bind]
      cases runJobs env merge jobs with
      | error e => rfl
      | ok readers =>
        simp only [ok_bind,pure_eq_ok]
        cases runJobs env merge jobs' <;> rfl

theorem runJobs_eq_ok {merge : Option MergeFunc} {jobs : List (List Entry)}
    {readers : List (Option (Source σ))} : runJobs env merge jobs = .ok readers ↔
      List.Forall₂ (fun batch r => writeChunk env merge batch = .ok r) jobs readers := by
  induction jobs generalizing readers with
  | nil => cases readers <;> simp [runJobs]
  | cons batch jobs ih =>
    simp only [runJobs,bind_eq_ok,pure_eq_ok,Except.ok.injEq]
    constructor
    · rintro ⟨r,hr,readers',hjobs,rfl⟩
      exact .cons hr (ih.mp hjobs)
    · intro h
      cases h with
      | cons hr hjobs => exact ⟨_,hr,_,ih.mpr hjobs,rfl⟩

theorem mtblSorterAdd_held {e : Entry} (hstop : s.iterating = false) (hsmall : e.Small)
    (hheld : ¬ s.entryBytes+(8+e.key.length+e.val.length)+8*(s.vec++[e]).length ≥
      s.opt.maxMemory) :
    mtblSorterAdd env s e = .ok (true,{ s with
      vec := s.vec++[e]
      entryBytes := s.entryBytes+(8+e.key.length+e.val.length) }) := by
  obtain ⟨hkey,hval⟩ := hsmall
  have hgo : ¬ s.iterating = true := by simp [hstop]
  rw [mtblSorterAdd,if_neg hgo,check_of (by omega),ok_bind,check_of (by omega),ok_bind]
  exact if_neg hheld

theorem sorterAdds_cons (e : Entry) (es : List Entry) : (sorterAdds env s (e::es)).map Prod.snd =
    mtblSorterAdd env s e >>= fun p => (sorterAdds env p.2 es).map Prod.snd := by
  rw [sorterAdds]
  cases mtblSorterAdd env s e with
  | error e => rfl
  | ok p =>
    simp only [ok_bind]
    cases sorterAdds env p.2 es <;> rfl

/-- With a thread pool the full batches are dispatched. -/
theorem sorterAdds_pooled (hpool : s.opt.pool = true) (hstop : s.iterating = false)
    (hsmall : ∀ e ∈ adds, e.Small) : (sorterAdds env s adds).map Prod.snd = .ok { s with
      vec := (splitBatches s.opt.maxMemory s.vec s.entryBytes adds).2.1
      entryBytes := (splitBatches s.opt.maxMemory s.vec s.entryBytes adds).2.2
      jobs := s.jobs++(splitBatches s.opt.maxMemory s.vec s.entryBytes adds).1 } := by
  induction adds generalizing s with
  | nil => simp [sorterAdds,splitBatches,Except.map]
  | cons e es ih =>
    obtain ⟨he,hes⟩ := List.forall_mem_cons.mp hsmall
    rw [sorterAdds_cons,splitBatches_cons]
    by_cases hfull : s.entryBytes+(8+e.key.length+e.val.length)+8*(s.vec++[e]).length ≥
      s.opt.maxMemory
    · obtain ⟨hkey,hval⟩ := he
      rw [mtblSorterAdd_full hstop (by omega) (by omega) hfull,if_pos hfull]
      simp only [mtblSorterFlush,check_of hstop,ok_bind,hpool,if_true,pure_eq_ok]
      rw [ih (s := { s with vec := [], entryBytes := 0, jobs := s.jobs++[s.vec++[e]] })
        hpool hstop hes,List.append_assoc]
      rfl
    · rw [mtblSorterAdd_held hstop he hfull,if_neg hfull,ok_bind]
      exact ih hpool hstop hes

/-- Without a thread pool their chunks are written. -/
theorem sorterAdds_direct (hpool : s.opt.pool = false) (hstop : s.iterating = false)
    (hsmall : ∀ e ∈ adds, e.Small) : (sorterAdds env s adds).map Prod.snd =
      (runJobs env s.opt.merge (splitBatches s.opt.maxMemory s.vec s.entryBytes adds).1).map
        (fun readers => { s with
          vec := (splitBatches s.opt.maxMemory s.vec s.entryBytes adds).2.1
          entryBytes := (splitBatches s.opt.maxMemory s.vec s.entryBytes adds).2.2
          readers := s.readers++readers }) := by
  induction adds generalizing s with
  | nil => simp [sorterAdds,splitBatches,runJobs,Except.map]
  | cons e es ih =>
    obtain ⟨he,hes⟩ := List.forall_mem_cons.mp hsmall
    rw [sorterAdds_cons,splitBatches_cons]
    by_cases hfull : s.entryBytes+(8+e.key.length+e.val.length)+8*(s.vec++[e]).length ≥
      s.opt.maxMemory
    · obtain ⟨hkey,hval⟩ := he
      rw [mtblSorterAdd_full hstop (by omega) (by omega) hfull,if_pos hfull]
      simp only [mtblSorterFlush,check_of hstop,ok_bind,hpool,Bool.false_eq_true,if_false,runJobs]
      cases hchunk : writeChunk env s.opt.merge (s.vec++[e]) with
      | error f => rfl
      | ok r =>
        simp only [ok_bind,pure_eq_ok]
        rw [ih (s := { s with vec := [], entryBytes := 0, readers := s.readers++[r] })
          hpool hstop hes]
        cases runJobs env s.opt.merge (splitBatches s.opt.maxMemory [] 0 es).1 with
        | error f => rfl
        | ok readers => simp [Except.map]
    · rw [mtblSorterAdd_held hstop he hfull,if_neg hfull,ok_bind]
      exact ih hpool hstop hes

/-- With a thread pool nothing is refused before the readers are collected. -/
theorem flushRest_pooled (hpool : s.opt.pool = true) (hstop : s.iterating = false) :
    flushRest env s = .ok (true,{ s with
      vec := [], entryBytes := if 0 < s.vec.length then 0 else s.entryBytes
      jobs := s.jobs++lastBatch s.vec }) := by
  unfold flushRest lastBatch
  split_ifs with hlen
  · simp only [mtblSorterFlush,check_of hstop,ok_bind,hpool,if_true,pure_eq_ok]
  · have hnil : s.vec = [] := by simpa using hlen
    simp [← hnil]

/-- The flush without a thread pool, if its chunk has a reader. -/
theorem flushRest_direct (hpool : s.opt.pool = false) (hstop : s.iterating = false)
    (hsome : ∀ batch ∈ lastBatch s.vec, writeChunk env s.opt.merge batch ≠ .ok none) :
    flushRest env s = (runJobs env s.opt.merge (lastBatch s.vec)).map (fun readers => (true,{ s with
      vec := [], entryBytes := if 0 < s.vec.length then 0 else s.entryBytes
      readers := s.readers++readers })) := by
  unfold flushRest lastBatch
  split_ifs with hlen
  · simp only [mtblSorterFlush,check_of hstop,ok_bind,hpool,Bool.false_eq_true,if_false,runJobs]
    cases hchunk : writeChunk env s.opt.merge s.vec with
    | error e => rfl
    | ok r =>
      cases r with
      | none =>
        refine absurd hchunk (hsome s.vec ?_)
        rw [lastBatch,if_pos hlen]
        exact List.mem_singleton_self s.vec
      | some r => rfl
  · have hnil : s.vec = [] := by simpa using hlen
    simp [runJobs,Except.map,← hnil]

/-- `mtbl_sorter_iter` behind its flush. -/
theorem mtblSorterIter_flushed {s1 : Sorter σ} (hflush : flushRest env s = .ok (true,s1)) :
    (mtblSorterIter I env s).map Prod.fst = (do
      let readers ← runJobs env s1.opt.merge (env.collect s1.jobs)
      let sources ← readerSources (s1.readers++readers)
      mergerIter I ⟨sources,s1.opt.merge,none⟩) := by
  simp only [mtblSorterIter,hflush,ok_bind,Bool.true_eq_false,if_false,collectReaders]
  cases runJobs env s1.opt.merge (env.collect s1.jobs) with
  | error e => rfl
  | ok readers =>
    simp only [ok_bind,pure_eq_ok,sorterMerger]
    cases readerSources (s1.readers++readers) with
    | error e => rfl
    | ok sources =>
      simp only [ok_bind]
      cases mergerIter I ⟨sources,s1.opt.merge,none⟩ <;> rfl

theorem sortAll_bind (opt : SorterOptions) : sortAll I env opt adds =
    (sorterAdds env (mtblSorterInit opt) adds).map Prod.snd >>=
      fun s => (mtblSorterIter I env s).map Prod.fst := by
  rw [sortAll]
  cases sorterAdds env (mtblSorterInit opt) adds with
  | error e => rfl
  | ok p => cases mtblSorterIter I env p.2 <;> rfl

/-- The sorted output is what the merger makes of the chunks of all batches, in some order, if no
chunk is without a reader. -/
theorem sortAll_eq (hcollect : ∀ jobs, (env.collect jobs).Perm jobs) {opt : SorterOptions}
    (hsmall : ∀ e ∈ adds, e.Small) (hsome : ∀ batch, writeChunk env opt.merge batch ≠ .ok none) :
    ∃ order, order.Perm (batches opt.maxMemory adds) ∧ sortAll I env opt adds =
      (do
        let readers ← runJobs env opt.merge order
        let sources ← readerSources readers
        mergerIter I ⟨sources,opt.merge,none⟩) := by
  rw [sortAll_bind]
  cases hpool : opt.pool with
  | true =>
    rw [sorterAdds_pooled hpool rfl hsmall,ok_bind,
      mtblSorterIter_flushed (flushRest_pooled hpool rfl)]
    exact ⟨env.collect (batches opt.maxMemory adds),hcollect _,rfl⟩
  | false =>
    refine ⟨batches opt.maxMemory adds,.refl _,?_⟩
    rw [sorterAdds_direct hpool rfl hsmall,batches,runJobs_append]
    simp only [mtblSorterInit]
    cases hfull : runJobs env opt.merge (splitBatches opt.maxMemory [] 0 adds).1 with
    | error e => rfl
    | ok full =>
      rw [show ∀ g : List (Option (Source σ)) → Sorter σ, Except.map g (.ok full) = .ok (g full)
        from fun _ => rfl,ok_bind,ok_bind]
      have hflush := @flushRest_direct _ env ⟨full,(splitBatches opt.maxMemory [] 0 adds).2.1,
        (splitBatches opt.maxMemory [] 0 adds).2.2,false,opt,[]⟩ hpool rfl
        (fun _ _ => hsome _)
      simp only at hflush
      cases hlast : runJobs env opt.merge
        (lastBatch (splitBatches opt.maxMemory [] 0 adds).2.1) with
      | error e =>
        rw [hlast] at hflush
        simp only [List.nil_append,mtblSorterIter,hflush]
        rfl
      | ok last =>
        rw [hlast] at hflush
        rw [List.nil_append,mtblSorterIter_flushed hflush,(hcollect []).eq_nil]
        simp only [runJobs,ok_bind,List.append_nil,pure_eq_ok]

end

end Mtbl
