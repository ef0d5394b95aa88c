import Mathlib.Data.List.Sort
import Mtbl.Merge.Transparent
import Mtbl.Sort.Chunk

/-! A chunk whose merge is declined. `_mtbl_sorter_write_chunk` gives NULL for it, and that goes into the
vector of readers like any other reader, whether the call at hand reports the failure or not. -/
namespace Mtbl
open CRun Cursor

/-! ### The calls of a user -/

inductive SorterCall (ω : Type)
  | add (e : Entry)
  | iter
  | write (w : ω)

section
variable {σ ω : Type} (I : Ops σ Entry Bytes) (env : SorterEnv σ)
  (addTo : ω → Entry → Run (Bool × ω)) (fuel : ℕ) (f : MergeFunc)

/-- Whether the call succeeds (an iterator that is not NULL, for `iter`), and the sorter after it. -/
def sorterCall (s : Sorter σ) : SorterCall ω → Run (Bool × Sorter σ)
  | .add e => mtblSorterAdd env s e
  | .iter => do
    let (it,s) ← mtblSorterIter I env s
    return (it.isSome,s)
  | .write w =>
    if s.iterating then .ok (false,s)
    else do
      let (res,_) ← mtblSorterWrite I env addTo fuel s w
      let (_,s) ← mtblSorterIter I env s
      return (res,s)

/-- The call goes through `mtbl_sorter_iter`. -/
def consumes (s : Sorter σ) : SorterCall ω → Bool
  | .add _ => false
  | .iter => true
  | .write _ => !s.iterating

/-- The batch that the call flushes, if it does. -/
def flushed (s : Sorter σ) : SorterCall ω → List (List Entry)
  | .add e =>
    if s.iterating = false ∧ e.key.length ≤ 2^32-1 ∧ e.val.length ≤ 2^32-1 ∧
        s.entryBytes+(8+e.key.length+e.val.length)+8*(s.vec++[e]).length ≥ s.opt.maxMemory then
      [s.vec++[e]]
    else []
  | c => if consumes s c ∧ 0 < s.vec.length then [s.vec] else []

/-- The batches whose chunks are written and collected during the call. -/
def written (s : Sorter σ) (c : SorterCall ω) : List (List Entry) :=
  if s.opt.pool then
    if consumes s c then s.jobs++flushed s c else []
  else flushed s c

/-- The merge function accepts the values of each key, in the order in which `qsort` leaves the
batch. -/
def Folds (batch : List Entry) : Prop :=
  ∀ e ∈ env.qsort batch,
    (foldValues (narrowMerge f) e.key (valuesOf e.key (env.qsort batch))).isSome

/-- `_mtbl_sorter_write_chunk` meets a merge that is declined. -/
def ChunkDeclined (batch : List Entry) : Prop :=
  ∃ out, writeChunkLoop (some f) (((env.qsort batch).map some).length+1) 0
    ((env.qsort batch).map some) [] = .ok (.declined,out)

/-- `mtbl_sorter_iter` gets as far as the readers, and the assertion of `mtbl_reader_source`
fails. -/
def PassesNull (s : Sorter σ) : Prop :=
  ∃ s1 s2, flushRest env s = .ok (true,s1) ∧ collectReaders env s1 = .ok s2 ∧
    readerSources s2.readers = .error .assertion

/-- A declined merge makes the call that writes the chunk fail, and no NULL reader is passed on. -/
structure Reported (s : Sorter σ) (c : SorterCall ω) : Prop where
  surfaces : ∀ batch ∈ written s c, ChunkDeclined env f batch →
    ∃ s', sorterCall I env addTo fuel s c = .ok (false,s')
  noNull : consumes s c = true → ¬ PassesNull env s

/-- The states that calls lead to, with the batches flushed on the way. Each call meets a condition
on these before it. -/
inductive SorterRuns (opt : SorterOptions)
    (allowed : Sorter σ → List (List Entry) → SorterCall ω → Prop) :
    Sorter σ → List (List Entry) → Prop
  | init : SorterRuns opt allowed (mtblSorterInit opt) []
  | call {s s' : Sorter σ} {flushes : List (List Entry)} {c : SorterCall ω} {res : Bool}
      (run : SorterRuns opt allowed s flushes) (ok : allowed s flushes c)
      (step : sorterCall I env addTo fuel s c = .ok (res,s')) :
      SorterRuns opt allowed s' (flushes++flushed s c)

/-- The sorted output is asked for only if no chunk flushed before has a declined merge, nor, with a
thread pool, the one that is flushed now. -/
def chunksFold (s : Sorter σ) (flushes : List (List Entry)) (c : SorterCall ω) : Prop :=
  consumes s c = true → (∀ batch ∈ flushes, Folds env f batch) ∧
    (s.opt.pool = true → ∀ batch ∈ flushed s c, Folds env f batch)

end

/-! ### Chunks -/

section
variable {σ : Type} {env : SorterEnv σ} {f : MergeFunc}

/-- The counter gets back to the first slot, which has been freed. -/
theorem writeChunkLoop_wraps {e : Entry} {rest written : List Entry} {i n : ℕ} (hi : i+1 = 2^32) :
    writeChunkLoop (some f) (n+1) i (slotsFrom i (e::rest)) written = .error .useAfterFree := by
  have hlt : i < (slotsFrom i (e::rest)).length := by simp
  have hpos : 0 < (slotsFrom i (e::rest)).length := Nat.zero_lt_of_lt hlt
  have hfreed : slotEntry (slotsFrom i (e::rest)) 0 = .error .useAfterFree :=
    slotsFrom_freed (by omega) _
  have hsame : nextSame (slotsFrom i (e::rest)) e (nextIndex i) = .error .useAfterFree := by
    rw [nextIndex_wraps hi,nextSame,if_pos hpos,hfreed]
    rfl
  rw [writeChunkLoop,if_pos hlt,slotEntry_head]
  simp only [ok_bind,hsame]
  rfl

/-- A batch with more entries than the counter reaches: a merge is declined, or the loop crashes. -/
theorem writeChunkLoop_long {e : Entry} {rest written : List Entry} {i n : ℕ}
    (hsorted : KeySorted (e::rest)) (hi : i < 2^32) (hlong : 2^32 ≤ i+(e::rest).length)
    (hn : (e::rest).length < n) (hwritten : ∀ x ∈ written, x.key < e.key) :
    writeChunkLoop (some f) n i (slotsFrom i (e::rest)) written = .error .useAfterFree ∨
      ∃ out, writeChunkLoop (some f) n i (slotsFrom i (e::rest)) written = .ok (.declined,out) ∧
        chunkFrom (narrowMerge f) e rest = none := by
  induction rest generalizing e i n written with
  | nil =>
    obtain ⟨n,rfl⟩ := Nat.exists_eq_add_of_lt hn
    simp only [List.length_cons,List.length_nil] at hlong
    exact .inl (writeChunkLoop_wraps (by omega))
  | cons e' rest ih =>
    obtain ⟨hhead,hsorted'⟩ := List.pairwise_cons.mp hsorted
    obtain ⟨n,rfl⟩ := Nat.exists_eq_add_of_lt hn
    simp only [List.length_cons] at hlong hn ih ⊢
    rcases Nat.lt_or_ge (i+1) (2^32) with hnext | hwrap
    · rw [chunkFrom]
      by_cases hkey : e.key = e'.key
      · rw [if_pos hkey]
        cases hv : f e.key e.val e'.val with
        | none =>
          have hlt : i < (slotsFrom i (e::e'::rest)).length := by simp
          refine .inr ⟨written,?_,by simp [narrowMerge,hv]⟩
          rw [writeChunkLoop,if_pos hlt,slotEntry_head]
          simp only [ok_bind,nextSame_cons hnext,if_pos hkey,hv,pure_eq_ok]
        | some v =>
          have hsorted'' : KeySorted (⟨e.key,narrowVal v⟩::rest) :=
            List.pairwise_cons.mpr ⟨fun x hx => hhead x (List.mem_cons_of_mem _ hx),
              (List.pairwise_cons.mp hsorted').2⟩
          have hrec := ih (i := i+1) (n := rest.length+1+n+1) hsorted'' hnext (by omega) (by omega)
            hwritten
          rw [show rest.length+1+1+n+1 = (rest.length+1+n+1)+1 by omega,
            writeChunkLoop_merge hnext hkey hv]
          simpa [narrowMerge,hv] using hrec
      · have hlt : e.key < e'.key := lt_of_le_of_ne (hhead e' (List.mem_cons_self ..)) hkey
        have hwritten' : ∀ x ∈ written++[e], x.key < e'.key := by
          intro x hx
          rcases List.mem_append.mp hx with hx | hx
          · exact (hwritten x hx).trans hlt
          · exact List.mem_singleton.mp hx ▸ hlt
        have hsame : nextSame (slotsFrom i (e::e'::rest)) e (nextIndex i) = .ok none := by
          rw [nextSame_cons hnext,if_neg hkey]
        have hrec := ih (i := i+1) (n := rest.length+1+n+1) hsorted' hnext (by omega) (by omega)
          hwritten'
        rw [show rest.length+1+1+n+1 = (rest.length+1+n+1)+1 by omega,
          writeChunkLoop_add hsame hwritten,nextIndex_eq hnext,if_neg hkey]
        simpa using hrec
    · exact .inl (writeChunkLoop_wraps (by omega))

/-- A chunk whose loop ends without all entries written is one with a declined fold. -/
theorem writeChunkLoop_declines {sorted : List Entry} (hsorted : KeySorted sorted) {how : ChunkEnd}
    {out : List Entry} (h : writeChunkLoop (some f) ((sorted.map some).length+1) 0
      (sorted.map some) [] = .ok (how,out)) (hhow : how ≠ .done) :
    ∃ e ∈ sorted, foldValues (narrowMerge f) e.key (valuesOf e.key sorted) = none := by
  rw [List.length_map] at h
  cases sorted with
  | nil =>
    simp only [List.length_nil,List.map_nil,writeChunkLoop,if_neg (lt_irrefl 0)] at h
    obtain ⟨rfl,-⟩ := Prod.mk.inj (Except.ok.inj h)
    exact absurd rfl hhow
  | cons e rest =>
    have hnone : chunkFrom (narrowMerge f) e rest = none := by
      change writeChunkLoop (some f) _ 0 (slotsFrom 0 (e::rest)) [] = _ at h
      rcases Nat.lt_or_ge (0+(e::rest).length) (2^32) with hlt | hge
      · obtain ⟨how',out',hrun,hpost⟩ := @writeChunkLoop_spec f e rest [] 0 _ hsorted hlt
          (Nat.lt_succ_self (e::rest).length) (by simp)
        obtain ⟨rfl,rfl⟩ := Prod.mk.inj (Except.ok.inj (h.symm.trans hrun))
        cases hfrom : chunkFrom (narrowMerge f) e rest with
        | none => rfl
        | some es =>
          rw [hfrom] at hpost
          exact absurd hpost.1 hhow
      · rcases @writeChunkLoop_long f e rest [] 0 _ hsorted (by norm_num) hge
          (Nat.lt_succ_self (e::rest).length) (by simp) with hcrash | ⟨out',-,hnone⟩
        · rw [h] at hcrash
          cases hcrash
        · exact hnone
    exact (chunkFrom_folded hsorted).2 hnone

/-- A chunk without a reader has a declined fold. -/
theorem writeChunk_none (hqsort : ∀ l, KeySorted (env.qsort l)) {batch : List Entry}
    (h : writeChunk env (some f) batch = .ok none) : ¬ Folds env f batch := by
  intro hfolds
  obtain ⟨⟨how,out⟩,hloop,hres⟩ := bind_eq_ok.mp h
  have hhow : how ≠ .done := by
    rintro rfl
    cases hres
  obtain ⟨e,he,hnone⟩ := writeChunkLoop_declines (hqsort batch) hloop hhow
  have hsome := hfolds e he
  rw [hnone] at hsome
  cases hsome

theorem ChunkDeclined.writeChunk {batch : List Entry} (h : ChunkDeclined env f batch) :
    writeChunk env (some f) batch = .ok none := by
  obtain ⟨out,hloop⟩ := h
  simp only [Mtbl.writeChunk,hloop,ok_bind,reduceCtorEq,if_false,pure_eq_ok]

/-- What becomes of a chunk: a merge is declined, or its reader holds the fold of each key, or the
batch has more entries than the counter can number. -/
theorem writeChunk_cases (hqsort : ∀ l, (env.qsort l).Perm l ∧ KeySorted (env.qsort l))
    (batch : List Entry) :
    (ChunkDeclined env f batch ∧ writeChunk env (some f) batch = .ok none) ∨
      (¬ ChunkDeclined env f batch ∧ batch.length < 2^32 ∧ ∃ out,
        writeChunk env (some f) batch = .ok (some (env.chunkSource out)) ∧
          Folded (narrowMerge f) (env.qsort batch) out) ∨
      (¬ ChunkDeclined env f batch ∧ 2^32 ≤ batch.length ∧
        writeChunk env (some f) batch = .error .useAfterFree) := by
  by_cases hdecl : ChunkDeclined env f batch
  · exact .inl ⟨hdecl,hdecl.writeChunk⟩
  · obtain ⟨hperm,hsorted⟩ := hqsort batch
    have hlength := hperm.length_eq
    have hnot : ∀ out, writeChunkLoop (some f) (((env.qsort batch).map some).length+1) 0
        ((env.qsort batch).map some) [] ≠ .ok (.declined,out) := fun out h => hdecl ⟨out,h⟩
    simp only [hdecl,not_false_eq_true,true_and,false_and,false_or,Mtbl.writeChunk]
    rw [← hlength]
    cases hlist : env.qsort batch with
    | nil =>
      exact .inl ⟨Nat.two_pow_pos 32,[],rfl,.nil,fun k => Iff.rfl,
        fun e he => absurd he List.not_mem_nil⟩
    | cons e rest =>
      rw [hlist,List.length_map,
        show (e::rest).map some = slotsFrom 0 (e::rest) from rfl] at hnot
      rw [List.length_map,show (e::rest).map some = slotsFrom 0 (e::rest) from rfl]
      rw [hlist] at hsorted
      rcases Nat.lt_or_ge (e::rest).length (2^32) with hshort | hlong
      · obtain ⟨how,out,hloop,hpost⟩ := @writeChunkLoop_spec f e rest [] 0 ((e::rest).length+1)
          hsorted (by omega) (Nat.lt_succ_self _) (by simp)
        cases hfrom : chunkFrom (narrowMerge f) e rest with
        | none =>
          rw [hfrom] at hpost
          obtain rfl := hpost
          exact absurd hloop (hnot out)
        | some es =>
          rw [hfrom] at hpost
          obtain ⟨rfl,rfl⟩ := hpost
          refine .inl ⟨hshort,out,?_,(chunkFrom_folded hsorted).1 out hfrom⟩
          rw [hloop]
          rfl
      · rcases @writeChunkLoop_long f e rest [] 0 ((e::rest).length+1) hsorted (by norm_num)
          (by omega) (Nat.lt_succ_self _) (by simp) with hloop | ⟨out,hloop,-⟩
        · refine .inr ⟨hlong,?_⟩
          rw [hloop]
          rfl
        · exact absurd hloop (hnot out)

theorem readerSources_assertion {readers : List (Option (Source σ))} :
    readerSources readers = .error .assertion ↔ none ∈ readers := by
  induction readers with
  | nil => simp [readerSources]
  | cons r readers ih =>
    cases r with
    | none => simp [readerSources]
    | some r =>
      cases hrest : readerSources readers with
      | error e => simpa [readerSources,hrest] using ih
      | ok sources => simpa [readerSources,hrest] using ih

theorem readerSources_eq_ok {readers : List (Option (Source σ))} {sources : List (Source σ)} :
    readerSources readers = .ok sources ↔ readers = sources.map some := by
  induction readers generalizing sources with
  | nil => cases sources <;> simp [readerSources]
  | cons r readers ih =>
    cases r with
    | none => cases sources <;> simp [readerSources]
    | some r =>
      simp only [readerSources,bind_eq_ok,pure_eq_ok,Except.ok.injEq,ih]
      cases sources with
      | nil => simp
      | cons s sources => simp [and_comm]

/-- A job without a reader has a declined fold. -/
theorem runJobs_none (hqsort : ∀ l, KeySorted (env.qsort l)) {jobs : List (List Entry)}
    {readers : List (Option (Source σ))} (h : runJobs env (some f) jobs = .ok readers)
    (hnone : none ∈ readers) : ∃ batch ∈ jobs, ¬ Folds env f batch := by
  induction jobs generalizing readers with
  | nil =>
    obtain rfl := Except.ok.inj h
    cases hnone
  | cons batch jobs ih =>
    obtain ⟨r,hr,hrest⟩ := bind_eq_ok.mp h
    obtain ⟨readers',hjobs,hpure⟩ := bind_eq_ok.mp hrest
    obtain rfl := Except.ok.inj hpure
    rcases List.mem_cons.mp hnone with rfl | hmem
    · exact ⟨batch,List.mem_cons_self,writeChunk_none hqsort hr⟩
    · obtain ⟨b,hb,hfold⟩ := ih hjobs hmem
      exact ⟨b,List.mem_cons_of_mem batch hb,hfold⟩

end

/-! ### What calls keep -/

/-- Every NULL reader comes from a flushed batch with a declined fold. -/
structure SorterOk {σ : Type} (env : SorterEnv σ) (f : MergeFunc) (opt : SorterOptions)
    (s : Sorter σ) (flushes : List (List Entry)) : Prop where
  same : s.opt = opt
  jobs : ∀ batch ∈ s.jobs, batch ∈ flushes
  direct : opt.pool = false → s.jobs = []
  null : none ∈ s.readers → ∃ batch ∈ flushes, ¬ Folds env f batch
  ended : s.iterating = true → s.vec = []

section
variable {σ ω : Type} {I : Ops σ Entry Bytes} {env : SorterEnv σ}
  {addTo : ω → Entry → Run (Bool × ω)} {fuel : ℕ} {f : MergeFunc} {opt : SorterOptions}
  {s s' : Sorter σ} {flushes : List (List Entry)} {res : Bool}

/-- The two ways to flush. -/
theorem mtblSorterFlush_cases (h : mtblSorterFlush env s = .ok (res,s')) :
    s.iterating = false ∧
      ((s.opt.pool = true ∧ res = true ∧
        s' = { s with vec := [], entryBytes := 0, jobs := s.jobs++[s.vec] }) ∨
      (s.opt.pool = false ∧ ∃ r, writeChunk env s.opt.merge s.vec = .ok r ∧ res = r.isSome ∧
        s' = { s with vec := [], entryBytes := 0, readers := s.readers++[r] })) := by
  obtain ⟨_,hcheck,hrest⟩ := bind_eq_ok.mp h
  refine ⟨check_eq_ok.mp hcheck,?_⟩
  cases hpool : s.opt.pool with
  | true =>
    simp only [hpool,if_true] at hrest
    obtain ⟨rfl,rfl⟩ := Prod.mk.inj (Except.ok.inj hrest)
    exact .inl ⟨rfl,rfl,rfl⟩
  | false =>
    simp only [hpool,Bool.false_eq_true,if_false] at hrest
    obtain ⟨r,hr,hrest⟩ := bind_eq_ok.mp hrest
    obtain ⟨rfl,rfl⟩ := Prod.mk.inj (Except.ok.inj hrest)
    exact .inr ⟨rfl,r,hr,rfl,rfl⟩

theorem SorterOk.flush (hqsort : ∀ l, KeySorted (env.qsort l)) (hmerge : opt.merge = some f)
    (h : SorterOk env f opt s flushes) (hrun : mtblSorterFlush env s = .ok (res,s')) :
    SorterOk env f opt s' (flushes++[s.vec]) := by
  obtain ⟨-,⟨hpool,-,rfl⟩ | ⟨hpool,r,hr,-,rfl⟩⟩ := mtblSorterFlush_cases hrun
  · refine ⟨h.same,fun b hb => ?_,fun hd => ?_,fun hnull => ?_,fun _ => rfl⟩
    · rcases List.mem_append.mp hb with hb | hb
      · exact List.mem_append_left _ (h.jobs b hb)
      · exact List.mem_append_right _ hb
    · rw [h.same,hd] at hpool
      cases hpool
    · obtain ⟨b,hb,hfold⟩ := h.null hnull
      exact ⟨b,List.mem_append_left _ hb,hfold⟩
  · refine ⟨h.same,fun b hb => List.mem_append_left _ (h.jobs b hb),h.direct,fun hnull => ?_,
      fun _ => rfl⟩
    rcases List.mem_append.mp hnull with hnull | hnull
    · obtain ⟨b,hb,hfold⟩ := h.null hnull
      exact ⟨b,List.mem_append_left _ hb,hfold⟩
    · obtain rfl := List.mem_singleton.mp hnull
      rw [h.same,hmerge] at hr
      exact ⟨s.vec,by simp,writeChunk_none hqsort hr⟩

theorem SorterOk.flushRest (hqsort : ∀ l, KeySorted (env.qsort l)) (hmerge : opt.merge = some f)
    (h : SorterOk env f opt s flushes) (hrun : flushRest env s = .ok (res,s')) :
    SorterOk env f opt s' (flushes++if 0 < s.vec.length then [s.vec] else []) := by
  unfold Mtbl.flushRest at hrun
  split_ifs at hrun ⊢ with hlen
  · exact h.flush hqsort hmerge hrun
  · obtain ⟨-,rfl⟩ := Prod.mk.inj (Except.ok.inj hrun)
    rwa [List.append_nil]

theorem flushRest_vec (hrun : flushRest env s = .ok (res,s')) : s'.vec = [] := by
  unfold Mtbl.flushRest at hrun
  split_ifs at hrun with hlen
  · obtain ⟨-,⟨-,-,rfl⟩ | ⟨-,r,-,-,rfl⟩⟩ := mtblSorterFlush_cases hrun
    · rfl
    · rfl
  · obtain ⟨-,rfl⟩ := Prod.mk.inj (Except.ok.inj hrun)
    simpa using hlen

theorem collectReaders_vec (hrun : collectReaders env s = .ok s') : s'.vec = s.vec := by
  obtain ⟨readers,-,hpure⟩ := bind_eq_ok.mp hrun
  obtain rfl := Except.ok.inj hpure
  rfl

theorem SorterOk.collect (hqsort : ∀ l, KeySorted (env.qsort l))
    (hcollect : ∀ jobs, (env.collect jobs).Perm jobs) (hmerge : opt.merge = some f)
    (h : SorterOk env f opt s flushes) (hrun : collectReaders env s = .ok s') :
    SorterOk env f opt s' flushes ∧ s'.jobs = [] := by
  obtain ⟨readers,hjobs,hpure⟩ := bind_eq_ok.mp hrun
  obtain rfl := Except.ok.inj hpure
  refine ⟨⟨h.same,fun b hb => absurd hb List.not_mem_nil,fun _ => rfl,fun hnull => ?_,h.ended⟩,rfl⟩
  rcases List.mem_append.mp hnull with hnull | hnull
  · exact h.null hnull
  · rw [h.same,hmerge] at hjobs
    obtain ⟨b,hb,hfold⟩ := runJobs_none hqsort hjobs hnull
    exact ⟨b,h.jobs b ((hcollect s.jobs).mem_iff.mp hb),hfold⟩

theorem SorterOk.iter (hqsort : ∀ l, KeySorted (env.qsort l))
    (hcollect : ∀ jobs, (env.collect jobs).Perm jobs) (hmerge : opt.merge = some f)
    (h : SorterOk env f opt s flushes) {it : Option (MergerIter σ)}
    (hrun : mtblSorterIter I env s = .ok (it,s')) :
    SorterOk env f opt s' (flushes++if 0 < s.vec.length then [s.vec] else []) := by
  obtain ⟨⟨res,s1⟩,hflush,hrest⟩ := bind_eq_ok.mp hrun
  have h1 := h.flushRest hqsort hmerge hflush
  cases res with
  | false =>
    simp only [if_true] at hrest
    obtain ⟨-,rfl⟩ := Prod.mk.inj (Except.ok.inj hrest)
    exact h1
  | true =>
    simp only [Bool.true_eq_false,if_false] at hrest
    obtain ⟨s2,hcoll,hrest⟩ := bind_eq_ok.mp hrest
    obtain ⟨sources,-,hrest⟩ := bind_eq_ok.mp hrest
    obtain ⟨it',-,hrest⟩ := bind_eq_ok.mp hrest
    obtain ⟨-,rfl⟩ := Prod.mk.inj (Except.ok.inj hrest)
    obtain ⟨h2,-⟩ := h1.collect hqsort hcollect hmerge hcoll
    exact ⟨h2.same,h2.jobs,h2.direct,h2.null,
      fun _ => (collectReaders_vec hcoll).trans (flushRest_vec hflush)⟩

/-- What `mtbl_sorter_add` does, if it returns. -/
theorem mtblSorterAdd_cases {e : Entry} (hrun : mtblSorterAdd env s e = .ok (res,s')) :
    (s.iterating = true ∧ res = false ∧ s' = s) ∨
      (s.iterating = false ∧ ∃ n, (flushed s (.add e : SorterCall ω) = [] ∧
        s' = { s with vec := s.vec++[e], entryBytes := n }) ∨
      (flushed s (.add e : SorterCall ω) = [s.vec++[e]] ∧
        mtblSorterFlush env { s with vec := s.vec++[e], entryBytes := n } = .ok (res,s'))) := by
  unfold mtblSorterAdd at hrun
  split_ifs at hrun with hit
  · obtain ⟨rfl,rfl⟩ := Prod.mk.inj (Except.ok.inj hrun)
    exact .inl ⟨hit,rfl,rfl⟩
  · obtain ⟨_,hkey,hrun⟩ := bind_eq_ok.mp hrun
    obtain ⟨_,hval,hrun⟩ := bind_eq_ok.mp hrun
    have hkey' := check_eq_ok.mp hkey
    have hval' := check_eq_ok.mp hval
    have hstop : s.iterating = false := by simpa using hit
    refine .inr ⟨hstop,s.entryBytes+(8+e.key.length+e.val.length),?_⟩
    simp only at hrun
    split_ifs at hrun with hfull
    · exact .inr ⟨by simp only [flushed]; rw [if_pos ⟨hstop,hkey',hval',hfull⟩],hrun⟩
    · obtain ⟨-,rfl⟩ := Prod.mk.inj (Except.ok.inj hrun)
      exact .inl ⟨by simp only [flushed]; rw [if_neg (fun h => hfull h.2.2.2)],rfl⟩

/-- An addition that fills the memory flushes it. -/
theorem mtblSorterAdd_full {e : Entry} (hstop : s.iterating = false) (hkey : e.key.length ≤ 2^32-1)
    (hval : e.val.length ≤ 2^32-1)
    (hfull : s.entryBytes+(8+e.key.length+e.val.length)+8*(s.vec++[e]).length ≥ s.opt.maxMemory) :
    mtblSorterAdd env s e = mtblSorterFlush env { s with
      vec := s.vec++[e]
      entryBytes := s.entryBytes+(8+e.key.length+e.val.length) } := by
  have hgo : ¬ s.iterating = true := by simp [hstop]
  rw [mtblSorterAdd,if_neg hgo,check_of hkey,ok_bind,check_of hval,ok_bind]
  exact if_pos hfull

theorem SorterOk.add (hqsort : ∀ l, KeySorted (env.qsort l)) (hmerge : opt.merge = some f)
    (h : SorterOk env f opt s flushes) {e : Entry} (hrun : mtblSorterAdd env s e = .ok (res,s')) :
    SorterOk env f opt s' (flushes++flushed s (.add e : SorterCall ω)) := by
  rcases mtblSorterAdd_cases (ω := ω) hrun with ⟨hit,-,rfl⟩ | ⟨hstop,n,⟨hno,rfl⟩ | ⟨hflushed,hflush⟩⟩
  · have hno : flushed s' (.add e : SorterCall ω) = [] := by simp [flushed,hit]
    rwa [hno,List.append_nil]
  · rw [hno,List.append_nil]
    exact ⟨h.same,h.jobs,h.direct,h.null,fun hit => by
      rw [hstop] at hit
      cases hit⟩
  · rw [hflushed]
    have hpushed : SorterOk env f opt { s with vec := s.vec++[e], entryBytes := n } flushes :=
      ⟨h.same,h.jobs,h.direct,h.null,fun hit => by
        rw [hstop] at hit
        cases hit⟩
    exact hpushed.flush hqsort hmerge hflush

theorem SorterOk.call (hqsort : ∀ l, KeySorted (env.qsort l))
    (hcollect : ∀ jobs, (env.collect jobs).Perm jobs) (hmerge : opt.merge = some f)
    (h : SorterOk env f opt s flushes) {c : SorterCall ω}
    (hrun : sorterCall I env addTo fuel s c = .ok (res,s')) :
    SorterOk env f opt s' (flushes++flushed s c) := by
  cases c with
  | add e => exact h.add hqsort hmerge hrun
  | iter =>
    obtain ⟨⟨it,s1⟩,hiter,hpure⟩ := bind_eq_ok.mp hrun
    obtain ⟨-,rfl⟩ := Prod.mk.inj (Except.ok.inj hpure)
    simpa [flushed,consumes] using h.iter hqsort hcollect hmerge hiter
  | write w =>
    simp only [sorterCall] at hrun
    split_ifs at hrun with hit
    · obtain ⟨-,rfl⟩ := Prod.mk.inj (Except.ok.inj hrun)
      simpa [flushed,consumes,hit] using h
    · obtain ⟨⟨r,w'⟩,-,hrest⟩ := bind_eq_ok.mp hrun
      obtain ⟨⟨it,s1⟩,hiter,hpure⟩ := bind_eq_ok.mp hrest
      obtain ⟨-,rfl⟩ := Prod.mk.inj (Except.ok.inj hpure)
      simpa [flushed,consumes,hit] using h.iter hqsort hcollect hmerge hiter

theorem SorterRuns.sorterOk (hqsort : ∀ l, KeySorted (env.qsort l))
    (hcollect : ∀ jobs, (env.collect jobs).Perm jobs) (hmerge : opt.merge = some f)
    {allowed : Sorter σ → List (List Entry) → SorterCall ω → Prop}
    (hrun : SorterRuns I env addTo fuel opt allowed s flushes) :
    SorterOk env f opt s flushes := by
  induction hrun with
  | init =>
    exact ⟨rfl,fun _ hb => absurd hb List.not_mem_nil,fun _ => rfl,
      fun hnull => absurd hnull List.not_mem_nil,fun _ => rfl⟩
  | call _ _ hstep ih => exact ih.call hqsort hcollect hmerge hstep

/-! ### Without a thread pool -/

/-- The chunk flushed by `mtbl_sorter_iter` itself has a reader, or the call has failed. -/
theorem SorterOk.direct_readers (hcollect : ∀ jobs, (env.collect jobs).Perm jobs)
    (h : SorterOk env f opt s flushes) (hpool : opt.pool = false) {s1 s2 : Sorter σ}
    (hflush : Mtbl.flushRest env s = .ok (true,s1)) (hcoll : collectReaders env s1 = .ok s2)
    (hnull : none ∈ s2.readers) : none ∈ s.readers := by
  have hrest : s1.jobs = [] ∧ (none ∈ s1.readers → none ∈ s.readers) := by
    unfold Mtbl.flushRest at hflush
    split_ifs at hflush
    · obtain ⟨-,⟨hp,-,-⟩ | ⟨-,r,-,hsome,rfl⟩⟩ := mtblSorterFlush_cases hflush
      · rw [h.same,hpool] at hp
        cases hp
      · refine ⟨h.direct hpool,fun hmem => ?_⟩
        rcases List.mem_append.mp hmem with hmem | hmem
        · exact hmem
        · obtain rfl := List.mem_singleton.mp hmem
          cases hsome
    · obtain ⟨-,rfl⟩ := Prod.mk.inj (Except.ok.inj hflush)
      exact ⟨h.direct hpool,id⟩
  obtain ⟨readers,hjobs,hpure⟩ := bind_eq_ok.mp hcoll
  obtain rfl := Except.ok.inj hpure
  have hnone := hcollect s1.jobs
  rw [hrest.1] at hnone hjobs
  rw [hnone.eq_nil] at hjobs
  obtain rfl := Except.ok.inj hjobs
  rcases List.mem_append.mp hnull with hmem | hmem
  · exact hrest.2 hmem
  · cases hmem

/-- The flush of a batch with a declined merge fails. -/
theorem mtblSorterFlush_declined (hstop : s.iterating = false) (hpool : s.opt.pool = false)
    (hmerge : s.opt.merge = some f) (hdeclined : ChunkDeclined env f s.vec) :
    mtblSorterFlush env s =
      .ok (false,{ s with vec := [], entryBytes := 0, readers := s.readers++[none] }) := by
  have hchunk := hdeclined.writeChunk
  simp only [mtblSorterFlush,check_of hstop,ok_bind,hpool,Bool.false_eq_true,if_false,hmerge,hchunk,
    pure_eq_ok,Option.isSome_none]

theorem mtblSorterIter_declined (hstop : s.iterating = false) (hpool : s.opt.pool = false)
    (hmerge : s.opt.merge = some f) (hvec : 0 < s.vec.length)
    (hdeclined : ChunkDeclined env f s.vec) :
    ∃ s', mtblSorterIter I env s = .ok (none,s') := by
  have hflush := mtblSorterFlush_declined hstop hpool hmerge hdeclined
  refine ⟨{ s with vec := [], entryBytes := 0, readers := s.readers++[none] },?_⟩
  simp only [mtblSorterIter,Mtbl.flushRest,if_pos hvec,hflush,ok_bind,if_true,pure_eq_ok]

theorem SorterOk.surfaces (h : SorterOk env f opt s flushes) (hmerge : opt.merge = some f)
    (hpool : opt.pool = false) {c : SorterCall ω} {batch : List Entry}
    (hbatch : batch ∈ flushed s c) (hdeclined : ChunkDeclined env f batch) :
    ∃ s', sorterCall I env addTo fuel s c = .ok (false,s') := by
  have hsame : s.opt.merge = some f := h.same ▸ hmerge
  have hdirect : s.opt.pool = false := h.same ▸ hpool
  have hiter : 0 < s.vec.length → ChunkDeclined env f s.vec →
      ∃ s', mtblSorterIter I env s = .ok (none,s') := by
    intro hvec hd
    have hstop : s.iterating = false := by
      by_contra hit
      rw [h.ended (by simpa using hit)] at hvec
      cases hvec
    exact mtblSorterIter_declined hstop hdirect hsame hvec hd
  cases c with
  | add e =>
    simp only [flushed] at hbatch
    split_ifs at hbatch with hcond
    · obtain rfl := List.mem_singleton.mp hbatch
      obtain ⟨hstop,hkey,hval,hfull⟩ := hcond
      have hflush := mtblSorterFlush_declined
        (s := { s with vec := s.vec++[e], entryBytes := s.entryBytes+(8+e.key.length+e.val.length) })
        hstop hdirect hsame hdeclined
      refine ⟨{ s with vec := [], entryBytes := 0, readers := s.readers++[none] },?_⟩
      exact (mtblSorterAdd_full hstop hkey hval hfull).trans hflush
    · cases hbatch
  | iter =>
    simp only [flushed] at hbatch
    split_ifs at hbatch with hcond
    · obtain rfl := List.mem_singleton.mp hbatch
      obtain ⟨s',hrun⟩ := hiter hcond.2 hdeclined
      exact ⟨s',by simp only [sorterCall,hrun,ok_bind,Option.isSome_none,pure_eq_ok]⟩
    · cases hbatch
  | write w =>
    simp only [flushed] at hbatch
    split_ifs at hbatch with hcond
    · obtain rfl := List.mem_singleton.mp hbatch
      obtain ⟨s',hrun⟩ := hiter hcond.2 hdeclined
      have hstop : s.iterating = false := by simpa [consumes] using hcond.1
      refine ⟨s',?_⟩
      simp only [sorterCall,hstop,Bool.false_eq_true,if_false,mtblSorterWrite,hrun,ok_bind,pure_eq_ok]
    · cases hbatch

end

/-- In every run of calls that asks for the sorted output only if no chunk flushed before has a
declined merge, nor, with a thread pool, the one that is flushed then: every call reports the merges
that are declined during it, and no NULL reader is passed on. -/
theorem failed_chunk_reported {σ ω : Type} (I : Ops σ Entry Bytes) (env : SorterEnv σ)
    (hqsort : ∀ l, (env.qsort l).Perm l ∧ KeySorted (env.qsort l))
    (hcollect : ∀ jobs, (env.collect jobs).Perm jobs) (addTo : ω → Entry → Run (Bool × ω))
    (fuel : ℕ) (f : MergeFunc) (maxMemory : ℕ) (pool : Bool) (s : Sorter σ)
    (flushes : List (List Entry))
    (hrun : SorterRuns I env addTo fuel ⟨maxMemory,some f,pool⟩ (chunksFold env f) s flushes)
    (c : SorterCall ω) (hc : chunksFold env f s flushes c) : Reported I env addTo fuel f s c := by
  have hsorted : ∀ l, KeySorted (env.qsort l) := fun l => (hqsort l).2
  have hok := hrun.sorterOk hsorted hcollect rfl
  constructor
  · intro batch hbatch hdeclined
    have hnot := writeChunk_none hsorted hdeclined.writeChunk
    cases pool with
    | false =>
      have hdirect : s.opt.pool = false := hok.same ▸ rfl
      simp only [written,hdirect,Bool.false_eq_true,if_false] at hbatch
      exact hok.surfaces rfl rfl hbatch hdeclined
    | true =>
      have hpool : s.opt.pool = true := hok.same ▸ rfl
      simp only [written,hpool,if_true] at hbatch
      split_ifs at hbatch with hcons
      · obtain ⟨hbefore,hnow⟩ := hc hcons
        rcases List.mem_append.mp hbatch with hmem | hmem
        · exact absurd (hbefore batch (hok.jobs batch hmem)) hnot
        · exact absurd (hnow hpool batch hmem) hnot
      · cases hbatch
  · rintro hcons ⟨s1,s2,hflush,hcoll,hassert⟩
    obtain ⟨hbefore,hnow⟩ := hc hcons
    have hnull := readerSources_assertion.mp hassert
    have hfrom : ∀ {fl : List (List Entry)}, (∃ b ∈ fl, ¬ Folds env f b) → (∀ b ∈ fl, Folds env f b) →
        False := fun ⟨b,hb,hfold⟩ hall => hfold (hall b hb)
    cases pool with
    | false => exact hfrom (hok.null (hok.direct_readers hcollect rfl hflush hcoll hnull)) hbefore
    | true =>
      have hpool : s.opt.pool = true := hok.same ▸ rfl
      have hok1 := hok.flushRest hsorted rfl hflush
      obtain ⟨hok2,-⟩ := hok1.collect hsorted hcollect rfl hcoll
      refine hfrom (hok2.null hnull) (fun b hb => ?_)
      rcases List.mem_append.mp hb with hmem | hmem
      · exact hbefore b hmem
      · refine hnow hpool b ?_
        cases c with
        | add e => cases hcons
        | iter => simpa [flushed,consumes] using hmem
        | write w => simpa [flushed,hcons] using hmem

/-! ### Two values of one key, with a merge function that declines -/

/-- `qsort` by insertion, with the readers collected in the order of their jobs. -/
def insertionEnv : SorterEnv (List Entry) where
  qsort := List.insertionSort (fun a b => a.key ≤ b.key)
  chunkSource := listSource
  collect := id

theorem insertionEnv_qsort (l : List Entry) :
    (insertionEnv.qsort l).Perm l ∧ KeySorted (insertionEnv.qsort l) := by
  constructor
  · exact List.perm_insertionSort _ l
  · have : Std.Total (fun a b : Entry => a.key ≤ b.key) := ⟨fun a b => le_total a.key b.key⟩
    have : IsTrans Entry (fun a b => a.key ≤ b.key) := ⟨fun _ _ _ => le_trans⟩
    exact List.pairwise_insertionSort _ l

/-- The sorter after the two additions. -/
def sameKeyTwice (pool : Bool) : Sorter (List Entry) :=
  ⟨[],[⟨[1],[10]⟩,⟨[1],[11]⟩],20,false,⟨1073741824,some (fun _ _ _ => none),pool⟩,[]⟩

/-- A sorter to whose writer nothing can be added. -/
abbrev PlainRuns (allowed : Sorter (List Entry) → List (List Entry) → SorterCall Unit → Prop)
    (pool : Bool) :=
  SorterRuns (plainOps Entry.key []) insertionEnv (fun w _ => .ok (false,w)) 1
    ⟨1073741824,some (fun _ _ _ => none),pool⟩ allowed

theorem sameKeyTwice_reached {pool : Bool}
    {allowed : Sorter (List Entry) → List (List Entry) → SorterCall Unit → Prop}
    (h : ∀ s flushes e, allowed s flushes (.add e)) : PlainRuns allowed pool (sameKeyTwice pool) [] := by
  have hone : PlainRuns allowed pool _ _ := .call .init (h ..)
    (show sorterCall _ _ _ _ (mtblSorterInit _) (.add ⟨[1],[10]⟩) = _ from rfl)
  have htwo : PlainRuns allowed pool _ _ := .call hone (h ..)
    (show sorterCall _ _ _ _ _ (.add ⟨[1],[11]⟩) = _ from rfl)
  exact htwo

/-- With a thread pool both additions succeed, and `mtbl_sorter_iter` stops at the NULL reader. -/
theorem failed_chunk_reported_fails : ¬ ∀ (σ ω : Type) (I : Ops σ Entry Bytes) (env : SorterEnv σ),
    (∀ l, (env.qsort l).Perm l ∧ KeySorted (env.qsort l)) →
    (∀ jobs, (env.collect jobs).Perm jobs) → ∀ (addTo : ω → Entry → Run (Bool × ω)) (fuel : ℕ)
      (f : MergeFunc) (maxMemory : ℕ) (pool : Bool) (s : Sorter σ) (flushes : List (List Entry)),
      SorterRuns I env addTo fuel ⟨maxMemory,some f,pool⟩ (fun _ _ _ => True) s flushes →
      ∀ c, Reported I env addTo fuel f s c := by
  intro hclaim
  have hreported := hclaim (List Entry) Unit (plainOps Entry.key []) insertionEnv insertionEnv_qsort
    (fun jobs => .refl jobs) (fun w _ => .ok (false,w)) 1 (fun _ _ _ => none) 1073741824 true
    (sameKeyTwice true) [] (sameKeyTwice_reached (fun _ _ _ => trivial)) .iter
  apply hreported.noNull rfl
  exact ⟨{ sameKeyTwice true with vec := [], entryBytes := 0, jobs := [(sameKeyTwice true).vec] },
    { sameKeyTwice true with vec := [], entryBytes := 0, readers := [none] },rfl,rfl,rfl⟩

/-- Without a thread pool `mtbl_sorter_iter` gives NULL for the chunk it could not write. -/
theorem failed_chunk_reported_iter :
    ∃ s', sorterCall (plainOps Entry.key []) insertionEnv
      (fun (w : Unit) _ => .ok (false,w)) 1 (sameKeyTwice false) .iter = .ok (false,s') := by
  have hreported := failed_chunk_reported (plainOps Entry.key []) insertionEnv insertionEnv_qsort
    (fun jobs => .refl jobs) (fun (w : Unit) _ => .ok (false,w)) 1 (fun _ _ _ => none) 1073741824
    false (sameKeyTwice false) [] (sameKeyTwice_reached (fun _ _ _ h => by cases h)) .iter
    (fun _ => ⟨fun _ hb => absurd hb List.not_mem_nil,fun h => by cases h⟩)
  exact hreported.surfaces (sameKeyTwice false).vec (List.mem_singleton.mpr rfl) ⟨[],rfl⟩

end Mtbl
