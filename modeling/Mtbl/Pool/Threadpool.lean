import Mtbl.Lib.CRun

/-! The thread pool. Any number of result handlers share it, each with a dispatching thread that calls
`threadpool_dispatch` and at last `result_handler_destroy`, and with a result worker. One move of an
actor is one section under a mutex or one piece of code between two such sections. Threads that wait
on a condition are asleep until a signal wakes one of them, or for no reason at all. -/
namespace Mtbl
open CRun

/-- A callback for a worker thread and its argument; pointers may be NULL. -/
structure Job (β : Type) where
  cb : Option β → Run (Option β)
  arg : Option β

def Job.run {β : Type} (job : Job β) : Run (Option β) := job.cb job.arg

/-- Where `thread_worker` stands. Once it has read `me->rq` it keeps it in `rq`. -/
inductive WorkerPc (ι : Type)
  | loop
  | asleep
  | woken
  | worked
  | detached (rq : Option ι)
  | enqueue (rq : ι)
  | exited
  deriving DecidableEq, Repr

structure Thread (ι β : Type) where
  arg : Option β
  res : Option β
  cb : Option (Option β → Run (Option β))
  next : Option ℕ
  rq : Option ι
  running : Bool
  pc : WorkerPc ι

/-- `ptail` is the thread whose `next` it points at, or `none` where it points at `head`. -/
structure Resultq where
  finished : Bool
  nthreads : ℕ
  head : Option ℕ
  ptail : Option ℕ
  deriving DecidableEq, Repr

structure Threadpool where
  head : Option ℕ
  count : ℕ
  max : ℕ
  deriving DecidableEq, Repr

/-- Where the dispatching thread of a handler stands: outside of a call, in `threadpool_dispatch`
(`next` to `handed`), in `result_handler_destroy` (`finish` and `joining`) or behind it. -/
inductive DispatcherPc (β : Type)
  | idle
  | next (job : Job β)
  | asleep (job : Job β)
  | create (job : Job β)
  | got (job : Job β) (thr : ℕ)
  | checked (job : Job β) (thr : ℕ)
  | handed (thr : ℕ)
  | finish
  | joining
  | done

/-- Where `result_worker` stands. -/
inductive ResultPc (β : Type)
  | loop
  | asleep
  | wait (thr : ℕ)
  | asleepOn (thr : ℕ)
  | took (thr : ℕ) (res : Option β)
  | deliver (res : Option β)
  | leaving
  | exited
  deriving DecidableEq, Repr

/-- Handlers are numbered by `ι`, threads by their creation. `dispatched` has the jobs of the calls of
`threadpool_dispatch`, `calls` what the callback of the handler has been called with. A destroyed
queue is `none`. -/
structure PoolState (ι β : Type) where
  pool : Threadpool
  threads : ℕ → Thread ι β
  created : ℕ
  rqs : ι → Option Resultq
  dispatchers : ι → DispatcherPc β
  resultWorkers : ι → ResultPc β
  dispatched : ι → List (Job β)
  calls : ι → List (Option β)

inductive Actor (ι : Type)
  | dispatcher (h : ι)
  | result (h : ι)
  | worker (thr : ℕ)
  deriving DecidableEq, Repr

/-- The condition variables. -/
inductive Cond (ι : Type)
  | pool
  | rq (h : ι)
  | thread (thr : ℕ)
  deriving DecidableEq, Repr

section
variable {ι β : Type}

def Thread.calloc : Thread ι β := ⟨none,none,none,none,none,false,.loop⟩

def PoolState.init (max : ℕ) : PoolState ι β where
  pool := ⟨none,0,max⟩
  threads := fun _ => .calloc
  created := 0
  rqs := fun _ => some ⟨false,0,none,none⟩
  dispatchers := fun _ => .idle
  resultWorkers := fun _ => .loop
  dispatched := fun _ => []
  calls := fun _ => []

namespace PoolState

def setThread (s : PoolState ι β) (t : ℕ) (thr : Thread ι β) : PoolState ι β :=
  { s with threads := Function.update s.threads t thr }

def setNext (s : PoolState ι β) (t : ℕ) (next : Option ℕ) : PoolState ι β :=
  s.setThread t { s.threads t with next := next }

end PoolState

/-- The state after a move and the condition it signals. -/
structure Moved (ι β : Type) where
  state : PoolState ι β
  signal : Option (Cond ι)

/-- The condition an actor is asleep on. -/
def sleepsOn (s : PoolState ι β) : Actor ι → Option (Cond ι)
  | .dispatcher h =>
    match s.dispatchers h with
    | .asleep _ => some .pool
    | _ => none
  | .result h =>
    match s.resultWorkers h with
    | .asleep => some (.rq h)
    | .asleepOn t => some (.thread t)
    | _ => none
  | .worker t =>
    match (s.threads t).pc with
    | .asleep => if t < s.created then some (.thread t) else none
    | _ => none

section
variable [DecidableEq ι]

namespace PoolState

def setRq (s : PoolState ι β) (h : ι) (rq : Option Resultq) : PoolState ι β :=
  { s with rqs := Function.update s.rqs h rq }

def setDispatcher (s : PoolState ι β) (h : ι) (pc : DispatcherPc β) : PoolState ι β :=
  { s with dispatchers := Function.update s.dispatchers h pc }

def setResult (s : PoolState ι β) (h : ι) (pc : ResultPc β) : PoolState ι β :=
  { s with resultWorkers := Function.update s.resultWorkers h pc }

@[simp] theorem dispatchers_setDispatcher (s : PoolState ι β) (h : ι) (pc : DispatcherPc β) :
    (s.setDispatcher h pc).dispatchers h = pc := Function.update_self ..

@[simp] theorem resultWorkers_setResult (s : PoolState ι β) (h : ι) (pc : ResultPc β) :
    (s.setResult h pc).resultWorkers h = pc := Function.update_self ..

theorem setDispatcher_other {s : PoolState ι β} {h h' : ι} {pc pc1 : DispatcherPc β}
    (hne : pc1 ≠ pc) (hpc : (s.setDispatcher h pc).dispatchers h' = pc1) :
    h' ≠ h ∧ s.dispatchers h' = pc1 := by
  by_cases hh : h' = h
  · subst hh
    rw [dispatchers_setDispatcher] at hpc
    exact absurd hpc.symm hne
  · exact ⟨hh,by simpa [setDispatcher,hh] using hpc⟩

theorem setResult_other {s : PoolState ι β} {h h' : ι} {pc pc1 : ResultPc β}
    (hne : pc1 ≠ pc) (hpc : (s.setResult h pc).resultWorkers h' = pc1) :
    h' ≠ h ∧ s.resultWorkers h' = pc1 := by
  by_cases hh : h' = h
  · subst hh
    rw [resultWorkers_setResult] at hpc
    exact absurd hpc.symm hne
  · exact ⟨hh,by simpa [setResult,hh] using hpc⟩

@[simp] theorem rqs_setRq (s : PoolState ι β) (h : ι) (rq : Option Resultq) :
    (s.setRq h rq).rqs h = rq := Function.update_self ..

end PoolState

/-- `*rq->ptail = thr; rq->ptail = &thr->next`. -/
def enqueueThread (s : PoolState ι β) (h : ι) (rq : Resultq) (t : ℕ) : PoolState ι β :=
  match rq.ptail with
  | none => s.setRq h (some { rq with head := some t, ptail := some t })
  | some u => (s.setNext u (some t)).setRq h (some { rq with ptail := some t })

/-- The section of `threadpool_next`. -/
def threadpoolNext (s : PoolState ι β) (h : ι) (job : Job β) : Run (Moved ι β) :=
  match s.pool.head with
  | some t => do
    check (s.threads t).cb.isNone
    check (s.threads t).res.isNone
    check (!(s.threads t).running)
    return ⟨(({ s with pool := { s.pool with head := (s.threads t).next } }).setNext t
      none).setDispatcher h (.got job t),none⟩
  | none =>
    if s.pool.count = s.pool.max then .ok ⟨s.setDispatcher h (.asleep job),none⟩
    else .ok ⟨({ s with pool := { s.pool with count := s.pool.count+1 } }).setDispatcher h
      (.create job),none⟩

/-- The section of `threadpool_dispatch` on the result queue. -/
def countDispatched (ordered : ι → Bool) (s : PoolState ι β) (h : ι) (t : ℕ) : Run (Moved ι β) :=
  match s.rqs h with
  | none => .error .useAfterFree
  | some rq => do
    check (!rq.finished)
    let rq := { rq with nthreads := (rq.nthreads+1)%2^64 }
    if ordered h then
      return ⟨(enqueueThread s h rq t).setDispatcher h .idle,some (.rq h)⟩
    else
      return ⟨(s.setRq h (some rq)).setDispatcher h .idle,none⟩

/-- `resultq_finish`. -/
def resultqFinish (s : PoolState ι β) (h : ι) : Run (Moved ι β) :=
  match s.rqs h with
  | none => .error .useAfterFree
  | some rq => .ok ⟨(s.setRq h (some { rq with finished := true })).setDispatcher h .joining,
      some (.rq h)⟩

/-- A move of the dispatching thread, if it is in a call and not blocked. -/
def dispatcherStep (ordered : ι → Bool) (s : PoolState ι β) (h : ι) : Option (Run (Moved ι β)) :=
  match s.dispatchers h with
  | .idle | .asleep _ | .done => none
  | .next job => some (threadpoolNext s h job)
  | .create job => some (.ok ⟨(({ s with created := s.created+1 }).setThread s.created
      .calloc).setDispatcher h (.got job s.created),none⟩)
  | .got job t => some (do
      check (!(s.threads t).running)
      check (s.threads t).next.isNone
      return ⟨s.setDispatcher h (.checked job t),none⟩)
  | .checked job t => some (.ok ⟨(s.setThread t { s.threads t with
      rq := if ordered h then none else some h
      cb := some job.cb
      arg := job.arg
      running := true }).setDispatcher h (.handed t),some (.thread t)⟩)
  | .handed t => some (countDispatched ordered s h t)
  | .finish => some (resultqFinish s h)
  | .joining =>
    match s.resultWorkers h with
    | .exited => some (.ok ⟨s.setDispatcher h .done,none⟩)
    | _ => none

/-- The first section of `resultq_next`. -/
def resultqNext (s : PoolState ι β) (h : ι) : Run (Moved ι β) :=
  match s.rqs h with
  | none => .error .useAfterFree
  | some rq =>
    match rq.head with
    | some t => .ok ⟨((s.setNext t none).setRq h (some { rq with
        head := (s.threads t).next
        nthreads := (rq.nthreads+2^64-1)%2^64
        ptail := if (s.threads t).next.isNone then none else rq.ptail })).setResult h (.wait t),none⟩
    | none =>
      if rq.finished ∧ rq.nthreads = 0 then .ok ⟨s.setResult h .leaving,none⟩
      else .ok ⟨s.setResult h .asleep,none⟩

def resultqDestroy (s : PoolState ι β) (h : ι) : Run (Moved ι β) :=
  match s.rqs h with
  | none => .error .useAfterFree
  | some rq => do
    check (rq.head.isNone ∧ rq.finished ∧ rq.nthreads = 0)
    return ⟨(s.setRq h none).setResult h .exited,none⟩

/-- A move of the result worker, unless it is asleep or gone. -/
def resultStep (s : PoolState ι β) (h : ι) : Option (Run (Moved ι β)) :=
  match s.resultWorkers h with
  | .asleep | .asleepOn _ | .exited => none
  | .loop => some (resultqNext s h)
  | .wait t =>
    if (s.threads t).running then some (.ok ⟨s.setResult h (.asleepOn t),none⟩)
    else some (.ok ⟨(s.setThread t { s.threads t with res := none }).setResult h
      (.took t (s.threads t).res),none⟩)
  | .took t res => some (.ok ⟨(({ s with pool := { s.pool with head := some t } }).setNext t
      s.pool.head).setResult h (.deliver res),some .pool⟩)
  | .deliver res => some (.ok ⟨({ s with
      calls := Function.update s.calls h (s.calls h++[res]) }).setResult h .loop,none⟩)
  | .leaving => some (resultqDestroy s h)

/-- A move of the worker thread, unless it is asleep or gone. -/
def workerStep (s : PoolState ι β) (t : ℕ) : Option (Run (Moved ι β)) :=
  let me := s.threads t
  match me.pc with
  | .asleep | .exited => none
  | .loop =>
    if me.running then some (.ok ⟨s.setThread t { me with pc := .woken },none⟩)
    else some (.ok ⟨s.setThread t { me with pc := .asleep },none⟩)
  | .woken =>
    match me.cb with
    | none => some (.ok ⟨s.setThread t { me with pc := .exited },none⟩)
    | some cb => some (do
        let res ← cb me.arg
        return ⟨s.setThread t { me with res := res, pc := .worked },none⟩)
  | .worked => some (.ok ⟨s.setThread t { me with
      cb := none, arg := none, rq := none, pc := .detached me.rq },none⟩)
  | .detached none => some (.ok ⟨s.setThread t { me with running := false, pc := .loop },
      some (.thread t)⟩)
  | .detached (some h) => some (.ok ⟨s.setThread t { me with running := false, pc := .enqueue h },
      none⟩)
  | .enqueue h =>
    match s.rqs h with
    | none => some (.error .useAfterFree)
    | some rq => some (.ok ⟨enqueueThread (s.setThread t { me with pc := .loop }) h rq t,
        some (.rq h)⟩)

def actorStep (ordered : ι → Bool) (s : PoolState ι β) : Actor ι → Option (Run (Moved ι β))
  | .dispatcher h => dispatcherStep ordered s h
  | .result h => resultStep s h
  | .worker t => if t < s.created then workerStep s t else none

/-- Back to the test of the loop around the wait. -/
def wake (s : PoolState ι β) : Actor ι → PoolState ι β
  | .dispatcher h =>
    match s.dispatchers h with
    | .asleep job => s.setDispatcher h (.next job)
    | _ => s
  | .result h =>
    match s.resultWorkers h with
    | .asleep => s.setResult h .loop
    | .asleepOn t => s.setResult h (.wait t)
    | _ => s
  | .worker t => s.setThread t { s.threads t with pc := .loop }

/-- `pthread_cond_signal` wakes one of the actors asleep on the condition, if there is one. -/
inductive Signalled (s : PoolState ι β) : Option (Cond ι) → PoolState ι β → Prop
  | quiet : Signalled s none s
  | wakes {c : Cond ι} {a : Actor ι} (h : sleepsOn s a = some c) : Signalled s (some c) (wake s a)
  | lost {c : Cond ι} (h : ∀ a, sleepsOn s a ≠ some c) : Signalled s (some c) s

/-- What may happen: a call by a dispatching thread, a move, a spurious wakeup. -/
inductive PoolEvent (ι β : Type)
  | dispatch (h : ι) (job : Job β)
  | destroy (h : ι)
  | move (a : Actor ι)
  | spurious (a : Actor ι)

inductive PoolStep (ordered : ι → Bool) (s : PoolState ι β) :
    PoolEvent ι β → Run (PoolState ι β) → Prop
  | dispatch {h : ι} {job : Job β} (idle : s.dispatchers h = .idle) :
      PoolStep ordered s (.dispatch h job) (.ok (({ s with
        dispatched := Function.update s.dispatched h (s.dispatched h++[job]) }).setDispatcher h
        (.next job)))
  | destroy {h : ι} (idle : s.dispatchers h = .idle) :
      PoolStep ordered s (.destroy h) (.ok (s.setDispatcher h .finish))
  | move {a : Actor ι} {m : Moved ι β} {s1 : PoolState ι β}
      (step : actorStep ordered s a = some (.ok m)) (signal : Signalled m.state m.signal s1) :
      PoolStep ordered s (.move a) (.ok s1)
  | fault {a : Actor ι} {e : Fault} (step : actorStep ordered s a = some (.error e)) :
      PoolStep ordered s (.move a) (.error e)
  | spurious {a : Actor ι} {c : Cond ι} (h : sleepsOn s a = some c) :
      PoolStep ordered s (.spurious a) (.ok (wake s a))

/-- From the first state to the second by these events, in this order. -/
inductive PoolRun (ordered : ι → Bool) : PoolState ι β → List (PoolEvent ι β) → PoolState ι β → Prop
  | nil (s : PoolState ι β) : PoolRun ordered s [] s
  | snoc {s s1 s2 : PoolState ι β} {events : List (PoolEvent ι β)} {event : PoolEvent ι β}
      (run : PoolRun ordered s events s1) (step : PoolStep ordered s1 event (.ok s2)) :
      PoolRun ordered s (events++[event]) s2

end

end

end Mtbl
