import Mtbl.Memory.Buffer
import Mtbl.Pool.Delivery
import Mtbl.Sort.FailedChunk
import Mtbl.Sort.Readers

/-! A sorter on a thread pool, from its first addition to the end of `mtbl_sorter_destroy`. The chunks
are jobs of the pool and `_collect_readers_cb` is the callback of the sorter's result handler, while
the thread that uses the sorter goes on. `mtbl_sorter_write` goes through `mtbl_sorter_iter`. -/
namespace Mtbl
open CRun

/-- What the pool's pointers point to. -/
inductive Pointer (σ γ : Type)
  | batch (entries : List Entry)
  | reader (r : Source σ)
  | other (p : γ)

/-- Where the sorter's thread is: outside of a call, in `mtbl_sorter_iter` behind the flush, in
`mtbl_sorter_destroy` before the entry it frees next or in what comes behind its entries, or past the
end. -/
inductive SorterPc (ρ : Type)
  | ready
  | collecting
  | entries (i : ℕ)
  | freeing (pc : FreePc ρ)
  | gone

/-- The `jobs` of `sorter` are those that `threadpool_dispatch` has not been called for yet. `collect`
is where the callback stands, if the result worker is in it, and `freed` has the places of the entries
that were freed. -/
structure PooledSorter (ι σ γ : Type) where
  sorter : Sorter σ
  pool : PoolState ι (Pointer σ γ)
  readers : Readers (Option (Pointer σ γ))
  collect : CollectPc
  rhandler : Bool
  pc : SorterPc (Option (Pointer σ γ))
  freed : List ℕ

inductive SorterEvent (ι σ γ : Type)
  | add (e : Entry)
  | iter
  | destroy
  | goOn
  | collect
  | pool (event : PoolEvent ι (Pointer σ γ))

section
variable {ι σ γ : Type}

def writeTempFileWrapper (env : SorterEnv σ) (merge : Option MergeFunc) :
    Option (Pointer σ γ) → Run (Option (Pointer σ γ))
  | some (.batch entries) => do
    let r ← writeChunk env merge entries
    return r.map .reader
  | _ => .error .nullDeref

def chunkJob (env : SorterEnv σ) (merge : Option MergeFunc) (batch : List Entry) :
    Job (Pointer σ γ) := ⟨writeTempFileWrapper env merge,some (.batch batch)⟩

def PooledSorter.init (maxMemory : ℕ) (merge : Option MergeFunc) (max : ℕ) : PooledSorter ι σ γ where
  sorter := mtblSorterInit ⟨maxMemory,merge,true⟩
  pool := .init max
  readers := .init
  collect := .call
  rhandler := true
  pc := .ready
  freed := []

/-- What a call does before it needs the pool or the readers. -/
def sorterStart (env : SorterEnv σ) (s : Sorter σ) :
    SorterEvent ι σ γ → Option (Run (Sorter σ × SorterPc (Option (Pointer σ γ))))
  | .add e => some do
    let (_,s) ← mtblSorterAdd env s e
    return (s,.ready)
  | .iter => some do
    let (_,s) ← flushRest env s
    return (s,.collecting)
  | .destroy => some (.ok (s,.entries 0))
  | _ => none

/-- The loop of `mtbl_sorter_iter`. `mtbl_reader_source` fails an assertion on NULL. -/
def addSources (readers : Readers (Option (Pointer σ γ))) : Run Unit := do
  let sources ← readers.all
  check (∀ r ∈ sources, r.isSome)

/-- The thread of the sorter is outside of all calls. -/
structure PooledSorter.Ready (s : PooledSorter ι σ γ) (h : ι) : Prop where
  pc : s.pc = .ready
  jobs : s.sorter.jobs = []
  dispatcher : s.pool.dispatchers h = .idle ∨ s.pool.dispatchers h = .done

variable [DecidableEq ι]

/-- A step of the sorter on the handler `h`, of its thread, of the callback or of the pool. -/
inductive SorterStep (ordered : ι → Bool) (h : ι) (env : SorterEnv σ) (alloc : ℕ → Bool)
    (s : PooledSorter ι σ γ) : SorterEvent ι σ γ → Run (PooledSorter ι σ γ) → Prop
  | call {event : SorterEvent ι σ γ} {sorter : Sorter σ} {pc : SorterPc (Option (Pointer σ γ))}
      (ready : s.Ready h) (start : sorterStart env s.sorter event = some (.ok (sorter,pc))) :
      SorterStep ordered h env alloc s event (.ok { s with sorter := sorter, pc := pc })
  | callFault {event : SorterEvent ι σ γ} {e : Fault} (ready : s.Ready h)
      (start : sorterStart env s.sorter event = some (.error e)) :
      SorterStep ordered h env alloc s event (.error e)
  | dispatch {batch : List Entry} {jobs : List (List Entry)} {pool : PoolState ι (Pointer σ γ)}
      (next : s.sorter.jobs = batch::jobs)
      (step : PoolStep ordered s.pool (.dispatch h (chunkJob env s.sorter.opt.merge batch))
        (.ok pool)) :
      SorterStep ordered h env alloc s .goOn
        (.ok { s with sorter := { s.sorter with jobs := jobs }, pool := pool })
  | finish {pool : PoolState ι (Pointer σ γ)} (pc : s.pc = .collecting ∨ s.pc = .freeing .done)
      (jobs : s.sorter.jobs = []) (rhandler : s.rhandler = true)
      (step : PoolStep ordered s.pool (.destroy h) (.ok pool)) :
      SorterStep ordered h env alloc s .goOn (.ok { s with rhandler := false, pool := pool })
  | iterates (pc : s.pc = .collecting) (done : s.pool.dispatchers h = .done)
      (sources : addSources s.readers = .ok ()) :
      SorterStep ordered h env alloc s .goOn
        (.ok { s with sorter := { s.sorter with iterating := true }, pc := .ready })
  | iterFault {e : Fault} (pc : s.pc = .collecting) (done : s.pool.dispatchers h = .done)
      (sources : addSources s.readers = .error e) :
      SorterStep ordered h env alloc s .goOn (.error e)
  | freeEntry {i : ℕ} (pc : s.pc = .entries i) (more : i < s.sorter.vec.length)
      (live : i ∉ s.freed) :
      SorterStep ordered h env alloc s .goOn
        (.ok { s with freed := s.freed++[i], pc := .entries ((i+1)%2^32) })
  | freeTwice {i : ℕ} (pc : s.pc = .entries i) (more : i < s.sorter.vec.length)
      (gone : i ∈ s.freed) : SorterStep ordered h env alloc s .goOn (.error .useAfterFree)
  | entriesFreed {i : ℕ} (pc : s.pc = .entries i) (stop : s.sorter.vec.length ≤ i) :
      SorterStep ordered h env alloc s .goOn
        (.ok { s with sorter := { s.sorter with vec := [] }, pc := .freeing (.size 0) })
  | freeing {p p' : FreePc (Option (Pointer σ γ))} {readers : Readers (Option (Pointer σ γ))}
      (pc : s.pc = .freeing p) (step : freeStep s.readers p = some (.ok (readers,p'))) :
      SorterStep ordered h env alloc s .goOn
        (.ok { s with readers := readers, pc := .freeing p' })
  | freeFault {p : FreePc (Option (Pointer σ γ))} {e : Fault} (pc : s.pc = .freeing p)
      (step : freeStep s.readers p = some (.error e)) :
      SorterStep ordered h env alloc s .goOn (.error e)
  | free (pc : s.pc = .freeing .done) (done : s.pool.dispatchers h = .done) :
      SorterStep ordered h env alloc s .goOn (.ok { s with pc := .gone })
  | collect {res : Option (Pointer σ γ)} {readers : Readers (Option (Pointer σ γ))} {p : CollectPc}
      (deliver : s.pool.resultWorkers h = .deliver res)
      (step : collectStep alloc res s.readers s.collect = some (.ok (readers,p))) :
      SorterStep ordered h env alloc s .collect (.ok { s with readers := readers, collect := p })
  | collectFault {res : Option (Pointer σ γ)} {e : Fault}
      (deliver : s.pool.resultWorkers h = .deliver res)
      (step : collectStep alloc res s.readers s.collect = some (.error e)) :
      SorterStep ordered h env alloc s .collect (.error e)
  | collected {res : Option (Pointer σ γ)} {pool : PoolState ι (Pointer σ γ)}
      (deliver : s.pool.resultWorkers h = .deliver res) (pc : s.collect = .done)
      (step : PoolStep ordered s.pool (.move (.result h)) (.ok pool)) :
      SorterStep ordered h env alloc s .collect (.ok { s with collect := .call, pool := pool })
  | pool {event : PoolEvent ι (Pointer σ γ)} {pool : PoolState ι (Pointer σ γ)}
      (outside : Outside s.pool h event) (step : PoolStep ordered s.pool event (.ok pool)) :
      SorterStep ordered h env alloc s (.pool event) (.ok { s with pool := pool })
  | poolFault {event : PoolEvent ι (Pointer σ γ)} {e : Fault} (outside : Outside s.pool h event)
      (step : PoolStep ordered s.pool event (.error e)) :
      SorterStep ordered h env alloc s (.pool event) (.error e)

/-- The states that steps lead to, each of which meets a condition. -/
inductive PooledRuns (ordered : ι → Bool) (h : ι) (env : SorterEnv σ) (alloc : ℕ → Bool)
    (maxMemory : ℕ) (merge : Option MergeFunc) (max : ℕ)
    (allowed : PooledSorter ι σ γ → SorterEvent ι σ γ → Prop) : PooledSorter ι σ γ → Prop
  | init : PooledRuns ordered h env alloc maxMemory merge max allowed (.init maxMemory merge max)
  | snoc {s s' : PooledSorter ι σ γ} {e : SorterEvent ι σ γ}
      (run : PooledRuns ordered h env alloc maxMemory merge max allowed s) (ok : allowed s e)
      (step : SorterStep ordered h env alloc s e (.ok s')) :
      PooledRuns ordered h env alloc maxMemory merge max allowed s'

/-- When `mtbl_sorter_destroy` is through with its entries and turns to the readers, no job is
outstanding: the callback has returned for all of them. The entries and the readers fit the
counters. -/
def NothingOutstanding (h : ι) (s : PooledSorter ι σ γ) : SorterEvent ι σ γ → Prop
  | .destroy => s.sorter.vec.length < 2^32
  | .goOn => ∀ i, s.pc = .entries i → s.sorter.vec.length ≤ i →
      (s.pool.calls h).length = (s.pool.dispatched h).length ∧ (s.pool.dispatched h).length < 2^32
  | _ => True

/-- The callback has a vector to append to and fails only if no memory is granted,
`mtbl_sorter_destroy` frees nothing twice and reads nothing freed, and no reader is destroyed twice or
left over. -/
structure DestroyedOnce (ordered : ι → Bool) (h : ι) (env : SorterEnv σ) (alloc : ℕ → Bool)
    (s : PooledSorter ι σ γ) : Prop where
  appends : ∀ res, s.pool.resultWorkers h = .deliver res →
    s.readers.pointer = true ∧ s.readers.vec ≠ none
  collects : ∀ e, SorterStep ordered h env alloc s .collect (.error e) → e = .assertion
  frees : s.pc ≠ .collecting → ∀ e, ¬ SorterStep ordered h env alloc s .goOn (.error e)
  atMostOnce : (s.readers.destroyed.map .ok).Subperm ((s.pool.dispatched h).map Job.run)
  all : s.readers.pointer = false →
    (s.readers.destroyed.map .ok).Perm ((s.pool.dispatched h).map Job.run)

end

/-! ### What a step keeps -/

section
variable {ι σ γ : Type}

/-- The callback alone is at work on the vector, for what the result worker delivers. -/
def Collected (h : ι) (s : PooledSorter ι σ γ) : Prop :=
  s.readers.destroyed = [] ∧ ∃ res, Collecting s.readers (s.pool.calls h) res s.collect ∧
    (s.collect ≠ .call → s.pool.resultWorkers h = .deliver res)

/-- The callback has been called for all jobs and has returned. -/
structure AllCollected (h : ι) (s : PooledSorter ι σ γ) : Prop where
  jobs : s.sorter.jobs = []
  collect : s.collect = .call
  all : (s.pool.calls h).length = (s.pool.dispatched h).length
  few : (s.pool.calls h).length < 2^32

/-- What is in memory, by where the sorter's thread is. -/
def Progress (h : ι) (s : PooledSorter ι σ γ) : SorterPc (Option (Pointer σ γ)) → Prop
  | .ready | .collecting => Collected h s ∧ s.freed = []
  | .entries i => Collected h s ∧ s.sorter.jobs = [] ∧ s.sorter.vec.length < 2^32 ∧
      i ≤ s.sorter.vec.length ∧ s.freed = List.range i
  | .freeing pc => AllCollected h s ∧ Freeing s.readers (s.pool.calls h) pc
  | .gone => AllCollected h s ∧ Freeing s.readers (s.pool.calls h) .done

variable {ordered : ι → Bool} {h : ι} {env : SorterEnv σ} {alloc : ℕ → Bool}
  {s s' : PooledSorter ι σ γ}

/-- A call by the sorter's thread. -/
theorem Progress.call (hp : Progress h s s.pc) (hready : s.Ready h) {event : SorterEvent ι σ γ}
    (hok : NothingOutstanding h s event) {sorter : Sorter σ} {pc : SorterPc (Option (Pointer σ γ))}
    (hstart : sorterStart env s.sorter event = some (.ok (sorter,pc))) :
    Progress h { s with sorter := sorter, pc := pc } pc := by
  rw [hready.pc] at hp
  obtain ⟨hcollected,hfreed⟩ := hp
  cases event with
  | add e =>
    obtain ⟨_,-,hpure⟩ := bind_eq_ok.mp (Option.some.inj hstart)
    obtain ⟨-,rfl⟩ := Prod.mk.inj (Except.ok.inj hpure)
    exact ⟨hcollected,hfreed⟩
  | iter =>
    obtain ⟨_,-,hpure⟩ := bind_eq_ok.mp (Option.some.inj hstart)
    obtain ⟨-,rfl⟩ := Prod.mk.inj (Except.ok.inj hpure)
    exact ⟨hcollected,hfreed⟩
  | destroy =>
    obtain ⟨rfl,rfl⟩ := Prod.mk.inj (Except.ok.inj (Option.some.inj hstart))
    exact ⟨hcollected,hready.jobs,hok,Nat.zero_le _,hfreed⟩
  | goOn => cases hstart
  | collect => cases hstart
  | pool event => cases hstart

/-- Only the sorter's thread dispatches, and only before `mtbl_sorter_destroy`. -/
theorem Progress.dispatch (hp : Progress h s s.pc) {batch : List Entry} {jobs : List (List Entry)}
    {pool : PoolState ι (Pointer σ γ)} (hnext : s.sorter.jobs = batch::jobs)
    (hcalls : pool.calls h = s.pool.calls h)
    (hresult : pool.resultWorkers h = s.pool.resultWorkers h) :
    Progress h { s with sorter := { s.sorter with jobs := jobs }, pool := pool } s.pc := by
  have hsome : s.sorter.jobs ≠ [] := by simp [hnext]
  cases hpc : s.pc with
  | ready | collecting =>
    rw [hpc] at hp
    simpa only [Progress,Collected,hcalls,hresult] using hp
  | entries i =>
    rw [hpc] at hp
    exact absurd hp.2.1 hsome
  | freeing pc | gone =>
    rw [hpc] at hp
    exact absurd hp.1.jobs hsome

/-- A step of the pool that neither dispatches nor delivers for the sorter. -/
theorem Progress.frame {pc : SorterPc (Option (Pointer σ γ))} (hp : Progress h s pc)
    {pool : PoolState ι (Pointer σ γ)} (hcalls : pool.calls h = s.pool.calls h)
    (hdispatched : pool.dispatched h = s.pool.dispatched h)
    (hresult : ∀ res, s.pool.resultWorkers h = .deliver res → pool.resultWorkers h = .deliver res)
    (rhandler : Bool) : Progress h { s with rhandler := rhandler, pool := pool } pc := by
  have hcollected (hc : Collected h s) :
      Collected h { s with rhandler := rhandler, pool := pool } := by
    obtain ⟨hdestroyed,res,hcollecting,hres⟩ := hc
    exact ⟨hdestroyed,res,hcalls.symm ▸ hcollecting,fun hne => hresult res (hres hne)⟩
  have hall (ha : AllCollected h s) :
      AllCollected h { s with rhandler := rhandler, pool := pool } :=
    ⟨ha.jobs,ha.collect,by rw [hcalls,hdispatched,ha.all],by rw [hcalls]; exact ha.few⟩
  cases pc with
  | ready | collecting => exact hp.imp_left hcollected
  | entries i => exact hp.imp_left hcollected
  | freeing pc | gone => exact ⟨hall hp.1,hcalls.symm ▸ hp.2⟩

/-- What the callback works on while the result worker is in it. -/
theorem Collected.collecting (hc : Collected h s) {res : Option (Pointer σ γ)}
    (hres : s.pool.resultWorkers h = .deliver res) :
    Collecting s.readers (s.pool.calls h) res s.collect := by
  obtain ⟨-,res',hcollecting,hres'⟩ := hc
  by_cases hcall : s.collect = .call
  · rw [hcall] at hcollecting ⊢
    exact hcollecting
  · obtain rfl := ResultPc.deliver.inj (hres.symm.trans (hres' hcall))
    exact hcollecting

/-- A step of the callback. -/
theorem Collected.step (halloc : Refuses alloc) (hc : Collected h s) {res : Option (Pointer σ γ)}
    (hres : s.pool.resultWorkers h = .deliver res) {readers : Readers (Option (Pointer σ γ))}
    {pc : CollectPc}
    (hstep : collectStep alloc res s.readers s.collect = some (.ok (readers,pc))) :
    Collected h { s with readers := readers, collect := pc } := by
  rcases (hc.collecting hres).step halloc hstep with ⟨_,_,hok,hsame,hcollecting⟩ | herr
  · obtain ⟨rfl,rfl⟩ := Prod.mk.inj (Except.ok.inj hok)
    exact ⟨hsame.trans hc.1,res,hcollecting,fun _ => hres⟩
  · cases herr

/-- The callback returns, and its reader is in the vector. -/
theorem Collected.collected (hc : Collected h s) {res : Option (Pointer σ γ)}
    (hres : s.pool.resultWorkers h = .deliver res) (hpc : s.collect = .done)
    {pool : PoolState ι (Pointer σ γ)} (hcalls : pool.calls h = s.pool.calls h++[res]) :
    Collected h { s with collect := .call, pool := pool } := by
  have hdone := hc.collecting hres
  rw [hpc] at hdone
  exact ⟨hc.1,res,hcalls.symm ▸ hdone,fun hne => absurd rfl hne⟩

/-- Before `mtbl_sorter_destroy` turns to the readers none is destroyed, then they are in order. -/
theorem Progress.destroyed (hp : Progress h s s.pc) :
    s.readers.destroyed <+: s.pool.calls h := by
  cases hpc : s.pc with
  | ready | collecting | entries i =>
    rw [hpc] at hp
    exact hp.1.1 ▸ List.nil_prefix
  | freeing pc | gone =>
    rw [hpc] at hp
    exact Freeing.destroyed hp.2

/-- The vector is destroyed behind its readers. -/
theorem Progress.all (hp : Progress h s s.pc) (hpointer : s.readers.pointer = false) :
    AllCollected h s ∧ s.readers.destroyed = s.pool.calls h := by
  cases hpc : s.pc with
  | ready | collecting | entries i =>
    rw [hpc] at hp
    obtain ⟨-,res,hcollecting,-⟩ := hp.1
    have hthere := hcollecting.vec.1
    rw [hpointer] at hthere
    cases hthere
  | freeing pc | gone =>
    rw [hpc] at hp
    exact ⟨hp.1,Freeing.all hp.2 hpointer⟩

variable [DecidableEq ι]

/-- The steps of the sorter are none or one of its pool. -/
theorem SorterStep.pool_step {event : SorterEvent ι σ γ}
    (hstep : SorterStep ordered h env alloc s event (.ok s')) :
    s'.pool = s.pool ∨ ∃ e, PoolStep ordered s.pool e (.ok s'.pool) := by
  cases hstep with
  | dispatch next step => exact .inr ⟨_,step⟩
  | finish pc jobs rhandler step => exact .inr ⟨_,step⟩
  | collected deliver pc step => exact .inr ⟨_,step⟩
  | pool outside step => exact .inr ⟨_,step⟩
  | call | iterates | freeEntry | entriesFreed | freeing | free | collect => exact .inl rfl

theorem PooledRuns.pool_run {maxMemory max : ℕ} {merge : Option MergeFunc}
    {allowed : PooledSorter ι σ γ → SorterEvent ι σ γ → Prop}
    (hrun : PooledRuns ordered h env alloc maxMemory merge max allowed s) :
    ∃ events, PoolRun ordered (.init max) events s.pool := by
  induction hrun with
  | init => exact ⟨[],.nil _⟩
  | snoc _ _ hstep ih =>
    obtain ⟨events,hpool⟩ := ih
    rcases hstep.pool_step with hsame | ⟨e,hmove⟩
    · exact ⟨events,hsame ▸ hpool⟩
    · exact ⟨events++[e],hpool.snoc hmove⟩

/-- `mtbl_sorter_destroy` does not fail. -/
theorem Progress.frees (hp : Progress h s s.pc) (hne : s.pc ≠ .collecting) (e : Fault) :
    ¬ SorterStep ordered h env alloc s .goOn (.error e) := by
  intro hstep
  cases hstep with
  | callFault ready start => cases start
  | iterFault pc done sources => exact hne pc
  | freeTwice pc more gone =>
    rw [pc] at hp
    rw [hp.2.2.2.2] at gone
    simp at gone
  | freeFault pc step =>
    rw [pc] at hp
    obtain ⟨_,_,heq,-⟩ := hp.2.step hp.1.few step
    cases heq

/-- The callback fails only if no memory is granted. -/
theorem Collected.collects (halloc : Refuses alloc) (hc : ∀ res,
    s.pool.resultWorkers h = .deliver res → Collected h s) {e : Fault}
    (hstep : SorterStep ordered h env alloc s .collect (.error e)) : e = .assertion := by
  cases hstep with
  | callFault ready start => cases start
  | collectFault deliver step =>
    rcases ((hc _ deliver).collecting deliver).step halloc step with ⟨_,_,hok,-⟩ | herr
    · cases hok
    · exact Except.error.inj herr

variable [Fintype ι] {max : ℕ}

/-- While the callback is at work the sorter's thread is not behind its entries. -/
theorem Progress.collected (hsound : PoolSound ordered max s.pool) (hp : Progress h s s.pc)
    {res : Option (Pointer σ γ)} (hres : s.pool.resultWorkers h = .deliver res) :
    Collected h s := by
  cases hpc : s.pc with
  | ready | collecting | entries i =>
    rw [hpc] at hp
    exact hp.1
  | freeing pc | gone =>
    rw [hpc] at hp
    exact absurd hres (hsound.not_deliver hp.1.all res)

/-- The callback or its return leaves the sorter's thread where it is. -/
theorem Progress.collect (hsound : PoolSound ordered max s.pool) (hp : Progress h s s.pc)
    {res : Option (Pointer σ γ)} (hres : s.pool.resultWorkers h = .deliver res)
    {readers : Readers (Option (Pointer σ γ))} {pc : CollectPc} {pool : PoolState ι (Pointer σ γ)}
    (hc : Collected h { s with readers := readers, collect := pc, pool := pool }) :
    Progress h { s with readers := readers, collect := pc, pool := pool } s.pc := by
  cases hpc : s.pc with
  | ready | collecting | entries i =>
    rw [hpc] at hp
    exact ⟨hc,hp.2⟩
  | freeing pc | gone =>
    rw [hpc] at hp
    exact absurd hres (hsound.not_deliver hp.1.all res)

/-- `mtbl_sorter_destroy` turns to the readers. -/
theorem Collected.freeing (hsound : PoolSound ordered max s.pool) (hc : Collected h s)
    (hjobs : s.sorter.jobs = [])
    (hall : (s.pool.calls h).length = (s.pool.dispatched h).length)
    (hfew : (s.pool.dispatched h).length < 2^32) :
    Progress h { s with sorter := { s.sorter with vec := [] }, pc := .freeing (.size 0) }
      (.freeing (.size 0)) := by
  obtain ⟨hdestroyed,res,hcollecting,hres⟩ := hc
  have hcall : s.collect = .call := by
    by_contra hne
    exact hsound.not_deliver hall res (hres hne)
  rw [hcall] at hcollecting
  exact ⟨⟨hjobs,hcall,hall,hall ▸ hfew⟩,hcollecting,Nat.zero_le _,hdestroyed⟩

theorem Progress.step (hmax : max < 2^64) (halloc : Refuses alloc)
    {events : List (PoolEvent ι (Pointer σ γ))}
    (hrun : PoolRun ordered (.init max) events s.pool) (hp : Progress h s s.pc)
    {event : SorterEvent ι σ γ} (hok : NothingOutstanding h s event)
    (hstep : SorterStep ordered h env alloc s event (.ok s')) : Progress h s' s'.pc := by
  have hsound := hrun.sound hmax
  cases hstep with
  | call ready start => exact hp.call ready hok start
  | dispatch next step =>
    have hcalls := (step.calls h).trans (List.append_nil _)
    cases step
    exact hp.dispatch next hcalls rfl
  | finish pc jobs rhandler step =>
    have hdispatched := (hrun.dispatched_step hmax step h).trans (List.append_nil _)
    have hcalls := (step.calls h).trans (List.append_nil _)
    cases step
    exact hp.frame hcalls hdispatched (fun _ hres => hres) false
  | iterates pc done sources =>
    rw [pc] at hp
    exact hp
  | @freeEntry i pc more live =>
    rw [pc] at hp
    obtain ⟨hcollected,hjobs,hfew,-,hfreed⟩ := hp
    dsimp only
    rw [Nat.mod_eq_of_lt (show i+1 < 2^32 by omega)]
    refine ⟨hcollected,hjobs,hfew,more,?_⟩
    change s.freed++[i] = _
    rw [hfreed,List.range_succ]
  | @entriesFreed i pc stop =>
    rw [pc] at hp
    obtain ⟨hall,hfew⟩ := hok i pc stop
    exact hp.1.freeing hsound hp.2.1 hall hfew
  | freeing pc step =>
    rw [pc] at hp
    obtain ⟨_,_,heq,hfreeing⟩ := hp.2.step hp.1.few step
    obtain ⟨rfl,rfl⟩ := Prod.mk.inj (Except.ok.inj heq)
    exact ⟨⟨hp.1.jobs,hp.1.collect,hp.1.all,hp.1.few⟩,hfreeing⟩
  | free pc done =>
    rw [pc] at hp
    exact ⟨⟨hp.1.jobs,hp.1.collect,hp.1.all,hp.1.few⟩,hp.2⟩
  | collect deliver step =>
    exact hp.collect hsound deliver ((hp.collected hsound deliver).step halloc deliver step)
  | collected deliver pc step =>
    have hcalls := step.calls h
    rw [callbacks,deliver] at hcalls
    apply hp.collect hsound deliver
    exact (hp.collected hsound deliver).collected deliver pc (by simpa using hcalls)
  | pool outside step =>
    have hcalls := step.calls h
    have hdispatched := hrun.dispatched_step hmax step h
    rw [outside.callbacks,List.append_nil] at hcalls
    rw [outside.jobFor,Option.toList_none,List.append_nil] at hdispatched
    exact hp.frame hcalls hdispatched (fun _ hres => step.deliver outside hres) s.rhandler

theorem PooledRuns.progress {maxMemory : ℕ} {merge : Option MergeFunc} (hmax : max < 2^64)
    (halloc : Refuses alloc)
    (hrun : PooledRuns ordered h env alloc maxMemory merge max (NothingOutstanding h) s) :
    Progress h s s.pc := by
  induction hrun with
  | init => exact ⟨⟨rfl,none,Readers.holds_init,fun hne => absurd rfl hne⟩,rfl⟩
  | snoc hrun hok hstep ih =>
    obtain ⟨events,hpool⟩ := hrun.pool_run
    exact ih.step hmax halloc hpool hok hstep

/-- After `mtbl_sorter_iter` nothing is outstanding. -/
theorem PooledRuns.nothingOutstanding {maxMemory : ℕ} {merge : Option MergeFunc} (hmax : max < 2^64)
    {allowed : PooledSorter ι σ γ → SorterEvent ι σ γ → Prop}
    (hrun : PooledRuns ordered h env alloc maxMemory merge max allowed s)
    (hdone : s.pool.dispatchers h = .done) (hfew : (s.pool.dispatched h).length < 2^32)
    (hentries : s.sorter.vec.length < 2^32) (event : SorterEvent ι σ γ) :
    NothingOutstanding h s event := by
  obtain ⟨events,hpool⟩ := hrun.pool_run
  cases event with
  | goOn => exact fun _ _ _ => ⟨(hpool.sound hmax).all_delivered hdone,hfew⟩
  | destroy => exact hentries
  | _ => trivial

end

/-- In every run in which no job is outstanding when `mtbl_sorter_destroy` turns to the readers: the
callback always has a vector to append to, nothing that was freed is read or freed again, no reader is
destroyed twice, and when the vector is destroyed every reader has been. -/
theorem sorter_destroy_in_flight {ι σ γ : Type} [DecidableEq ι] [Fintype ι] (ordered : ι → Bool)
    (h : ι) (env : SorterEnv σ) (alloc : ℕ → Bool) (halloc : Refuses alloc) (maxMemory : ℕ)
    (merge : Option MergeFunc) (max : ℕ) (hpos : 1 ≤ max) (hmax : max < 2^64)
    (s : PooledSorter ι σ γ)
    (hrun : PooledRuns ordered h env alloc maxMemory merge max (NothingOutstanding h) s) :
    DestroyedOnce ordered h env alloc s := by
  obtain ⟨events,hpool⟩ := hrun.pool_run
  have hsound := hpool.sound hmax
  have honce := (pool_delivers hpos hmax hpool).once h
  have hp := hrun.progress hmax halloc
  constructor
  · intro res hres
    exact ((hp.collected hsound hres).collecting hres).vec
  · exact fun e hstep => Collected.collects halloc (fun _ hres => hp.collected hsound hres) hstep
  · exact hp.frees
  · obtain ⟨rest,hrest⟩ := hp.destroyed
    rw [← hrest,List.map_append] at honce
    exact (List.sublist_append_left _ _).subperm.trans honce
  · intro hpointer
    obtain ⟨hall,hdestroyed⟩ := hp.all hpointer
    rw [hdestroyed]
    exact hsound.delivered hall.all

/-! ### One chunk -/

section
variable {e : Entry}
  {allowed : PooledSorter Unit (List Entry) Unit → SorterEvent Unit (List Entry) Unit → Prop}

/-- A sorter with the least memory, on a pool of one thread. -/
abbrev LeastRuns
    (allowed : PooledSorter Unit (List Entry) Unit → SorterEvent Unit (List Entry) Unit → Prop) :=
  @PooledRuns Unit (List Entry) Unit _ (fun _ => false) () insertionEnv amply 10485760 none 1
    allowed

/-- The one entry of the chunk is all the memory holds. -/
theorem sorterStart_full (hkey : e.key.length ≤ 2^32-1) (hval : e.val.length ≤ 2^32-1)
    (hfull : 10485760 ≤ 8+e.key.length+e.val.length) :
    @sorterStart Unit (List Entry) Unit insertionEnv (mtblSorterInit ⟨10485760,none,true⟩) (.add e) =
      some (.ok (⟨[],[],0,false,⟨10485760,none,true⟩,[[e]]⟩,.ready)) := by
  have hbytes : 0+(8+e.key.length+e.val.length)+8*([]++[e]).length ≥ 10485760 := by omega
  have hadd := @mtblSorterAdd_full _ insertionEnv (mtblSorterInit ⟨10485760,none,true⟩)
    e rfl hkey hval hbytes
  simp only [sorterStart,hadd]
  rfl

/-- A move of the pool while the sorter's thread is outside of its calls. -/
theorem LeastRuns.move {s : PooledSorter Unit (List Entry) Unit} (hrun : LeastRuns allowed s)
    (hok : ∀ event, allowed s event) {a : Actor Unit} (hout : Outside s.pool () (.move a))
    {pool : PoolState Unit (Pointer (List Entry) Unit)}
    (hstep : PoolStep (fun _ => false) s.pool (.move a) (.ok pool)) :
    LeastRuns allowed { s with pool := pool } :=
  hrun.snoc (hok _) (.pool hout hstep)

/-- The chunk is written, and its reader is about to be collected. -/
theorem one_outstanding (hkey : e.key.length ≤ 2^32-1) (hval : e.val.length ≤ 2^32-1)
    (hfull : 10485760 ≤ 8+e.key.length+e.val.length)
    (hok : ∀ s event, s.pc = .ready → s.sorter.vec = [] → allowed s event) :
    ∃ s, LeastRuns allowed s ∧ s.Ready () ∧ s.sorter.vec = [] ∧ s.readers = .init ∧
      s.collect = .call ∧
      s.pool.resultWorkers () = .deliver (some (.reader (listSource [e]))) ∧
      s.pool.dispatched () = [chunkJob insertionEnv none [e]] ∧ s.pool.calls () = [] := by
  have hadd : LeastRuns allowed _ := .snoc .init (hok _ _ rfl rfl)
    (.call ⟨rfl,rfl,.inl rfl⟩ (sorterStart_full hkey hval hfull))
  have hdispatch : LeastRuns allowed _ := hadd.snoc (hok _ _ rfl rfl) (.dispatch rfl (.dispatch rfl))
  have hrun := ((((((((((((((((hdispatch.move (hok _ · rfl rfl) (a := .dispatcher ()) trivial
    (.move rfl .quiet)).move (hok _ · rfl rfl) (a := .dispatcher ()) trivial
    (.move rfl .quiet)).move (hok _ · rfl rfl) (a := .dispatcher ()) trivial
    (.move rfl .quiet)).move (hok _ · rfl rfl) (a := .worker 0) trivial
    (.move rfl .quiet)).move (hok _ · rfl rfl) (a := .dispatcher ()) trivial
    (.move rfl (.wakes (a := .worker 0) rfl))).move (hok _ · rfl rfl) (a := .result ())
    (fun _ _ h => by cases h)
    (.move rfl .quiet)).move (hok _ · rfl rfl) (a := .dispatcher ()) trivial
    (.move rfl .quiet)).move (hok _ · rfl rfl) (a := .worker 0) trivial
    (.move rfl .quiet)).move (hok _ · rfl rfl) (a := .worker 0) trivial
    (.move rfl .quiet)).move (hok _ · rfl rfl) (a := .worker 0) trivial
    (.move rfl .quiet)).move (hok _ · rfl rfl) (a := .worker 0) trivial
    (.move rfl .quiet)).move (hok _ · rfl rfl) (a := .worker 0) trivial
    (.move rfl (.wakes (a := .result ()) rfl))).move (hok _ · rfl rfl) (a := .result ())
    (fun _ _ h => by cases h)
    (.move rfl .quiet)).move (hok _ · rfl rfl) (a := .result ()) (fun _ _ h => by cases h)
    (.move rfl .quiet)).move (hok _ · rfl rfl) (a := .result ()) (fun _ _ h => by cases h)
    (.move rfl (.lost (lost_pool fun _ => rfl)))))
  exact ⟨_,hrun,⟨rfl,rfl,.inl rfl⟩,rfl,rfl,rfl,rfl,rfl,rfl⟩

/-- A step of the callback. -/
theorem LeastRuns.collect {s : PooledSorter Unit (List Entry) Unit} (hrun : LeastRuns allowed s)
    (hok : ∀ s, allowed s .collect) {res : Option (Pointer (List Entry) Unit)}
    (hres : s.pool.resultWorkers () = .deliver res) {p : CollectPc}
    {readers : Readers (Option (Pointer (List Entry) Unit))}
    (hstep : collectStep amply res s.readers s.collect = some (.ok (readers,p))) :
    LeastRuns allowed { s with readers := readers, collect := p } :=
  hrun.snoc (hok _) (.collect hres hstep)

/-- A step of `mtbl_sorter_destroy` behind its entries. -/
theorem LeastRuns.freeing {s : PooledSorter Unit (List Entry) Unit}
    (hrun : LeastRuns allowed s) (hok : ∀ s p, s.pc = .freeing p → allowed s .goOn)
    {p p' : FreePc (Option (Pointer (List Entry) Unit))}
    {readers : Readers (Option (Pointer (List Entry) Unit))} (hpc : s.pc = .freeing p)
    (hstep : freeStep s.readers p = some (.ok (readers,p'))) :
    LeastRuns allowed { s with readers := readers, pc := .freeing p' } :=
  hrun.snoc (hok _ _ hpc) (.freeing hpc hstep)

end

/-- An entry that is as large as the least memory. -/
def largeEntry : Entry := ⟨[1],List.replicate 10485760 0⟩

theorem largeEntry_full : largeEntry.key.length ≤ 2^32-1 ∧ largeEntry.val.length ≤ 2^32-1 ∧
    10485760 ≤ 8+largeEntry.key.length+largeEntry.val.length := by
  have hkey : largeEntry.key.length = 1 := rfl
  have hval : largeEntry.val.length = 10485760 := List.length_replicate
  omega

/-- `mtbl_sorter_destroy` is called while the reader of the chunk is outstanding, and the callback
finds no vector. -/
theorem sorter_destroy_in_flight_fails : ¬ ∀ (ι σ γ : Type) [DecidableEq ι] [Fintype ι]
    (ordered : ι → Bool) (h : ι) (env : SorterEnv σ) (alloc : ℕ → Bool), Refuses alloc →
    ∀ (maxMemory : ℕ) (merge : Option MergeFunc) (max : ℕ), 1 ≤ max → max < 2^64 →
      ∀ s : PooledSorter ι σ γ,
        PooledRuns ordered h env alloc maxMemory merge max (fun _ _ => True) s →
          DestroyedOnce ordered h env alloc s := by
  intro hclaim
  obtain ⟨hkey,hval,hfull⟩ := largeEntry_full
  obtain ⟨s,hrun,hready,hvec,hreaders,hcall,hres,-⟩ :=
    @one_outstanding largeEntry (fun _ _ => True) hkey hval hfull (fun _ _ _ _ => trivial)
  have hdestroy : LeastRuns (fun _ _ => True) _ :=
    hrun.snoc (e := .destroy) trivial (.call hready rfl)
  have hentries : LeastRuns (fun _ _ => True) _ :=
    hdestroy.snoc trivial (.entriesFreed (i := 0) rfl (by simp [hvec]))
  have hok : ∀ (s : PooledSorter Unit (List Entry) Unit)
      (p : FreePc (Option (Pointer (List Entry) Unit))), s.pc = .freeing p → True :=
    fun _ _ _ => trivial
  have hgone := (((((hentries.freeing hok rfl (by rw [hreaders]; rfl)).freeing hok rfl
    rfl).freeing hok rfl rfl).freeing hok rfl rfl).freeing hok rfl rfl).freeing hok rfl rfl
  have hfault := (hclaim _ _ _ _ _ _ _ refuses_amply _ _ _ (by decide) (by decide) _
    hgone).collects .nullDeref (.collectFault hres (by rw [hcall]; rfl))
  cases hfault

/-- The reader is collected before `mtbl_sorter_destroy` turns to the readers, which destroys it. -/
theorem sorter_destroy_in_flight_one : ∃ s : PooledSorter Unit (List Entry) Unit,
    s.readers.pointer = false ∧
      s.readers.destroyed = [some (.reader (listSource [largeEntry]))] ∧
      DestroyedOnce (fun _ => false) () insertionEnv amply s := by
  obtain ⟨hkey,hval,hfull⟩ := largeEntry_full
  obtain ⟨s,hrun,hready,hvec,hreaders,hcall,hres,hjobs,hcalls⟩ :=
    @one_outstanding largeEntry (NothingOutstanding ()) hkey hval hfull (fun s event hpc hvec => by
      cases event with
      | goOn =>
        intro i hi
        rw [hpc] at hi
        cases hi
      | destroy =>
        change s.sorter.vec.length < 2^32
        rw [hvec]
        decide
      | _ => trivial)
  have hcalled : collectStep amply (some (.reader (listSource [largeEntry]))) s.readers
      s.collect = some (.ok (.init,.full)) := by
    rw [hreaders,hcall]
    rfl
  have hstored := ((((hrun.collect (fun _ => trivial) hres hcalled).collect
    (fun _ => trivial) hres rfl).collect (fun _ => trivial) hres rfl).collect
    (fun _ => trivial) hres rfl).collect (fun _ => trivial) hres rfl
  have hcollected : LeastRuns (NothingOutstanding ()) _ := hstored.snoc (e := .collect) trivial
    (.collected hres rfl (.move (resultStep_deliver hres) .quiet))
  have hdestroy : LeastRuns (NothingOutstanding ()) _ :=
    hcollected.snoc (e := .destroy) (by
      change s.sorter.vec.length < 2^32
      rw [hvec]
      decide) (.call ⟨hready.pc,hready.jobs,hready.dispatcher⟩ rfl)
  have hall : (s.pool.calls ()++[some (Pointer.reader (listSource [largeEntry]))]).length =
      (s.pool.dispatched ()).length ∧ (s.pool.dispatched ()).length < 2^32 := by
    rw [hcalls,hjobs]
    exact ⟨rfl,by decide⟩
  have hentries : LeastRuns (NothingOutstanding ()) _ := hdestroy.snoc (e := .goOn)
    (fun _ _ _ => hall) (.entriesFreed (i := 0) rfl (by simp [hvec]))
  have hok : ∀ (s : PooledSorter Unit (List Entry) Unit)
      (p : FreePc (Option (Pointer (List Entry) Unit))), s.pc = .freeing p →
      NothingOutstanding () s .goOn := by
    intro s p hp i hi
    rw [hp] at hi
    cases hi
  have hgone := ((((((((((hentries.freeing hok rfl rfl).freeing hok rfl
    rfl).freeing hok rfl rfl).freeing hok rfl rfl).freeing hok rfl rfl).freeing hok rfl
    rfl).freeing hok rfl rfl).freeing hok rfl rfl).freeing hok rfl rfl).freeing hok rfl
    rfl).freeing hok rfl rfl
  refine ⟨_,rfl,?_,sorter_destroy_in_flight _ _ _ _ refuses_amply _ _ _ (by decide) (by decide)
    _ hgone⟩
  rfl

end Mtbl
