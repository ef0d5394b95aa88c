import Mtbl.Lib.Linked
import Mtbl.Pool.Threadpool

/-! The invariant of the pool. A ledger says for every thread in whose hands it is and what the job it
has been given returns; the free list, the result queues and the threads in flight to an unordered
queue are the threads of one place each. What a handler has been called with, what its result worker
holds, its queue, its flights and the job being dispatched make up what has been dispatched. -/
namespace Mtbl
open CRun LinkedList

/-- Where a thread is: in the pool, with the dispatching thread (before and, if the handler is
ordered, after it has been handed its job), in a queue, with the result worker (before and after its
result has been taken), or at work for an unordered handler. -/
inductive Place (ι : Type)
  | free
  | got (h : ι)
  | handed (h : ι)
  | queue (h : ι)
  | popped (h : ι)
  | took (h : ι)
  | flight (h : ι)

/-- The handler in whose hands the thread is. -/
def Place.owner {ι : Type} : Place ι → Option ι
  | .free => none
  | .got h | .handed h | .queue h | .popped h | .took h | .flight h => some h

structure Ledger (ι β : Type) where
  place : ℕ → Option (Place ι)
  free : List ℕ
  queue : ι → List ℕ
  flight : ι → List ℕ
  carried : ℕ → Run (Option β)

section
variable {ι β : Type}

/-! ### Threads -/

/-- A thread without a job. -/
structure Thread.Idle (th : Thread ι β) : Prop where
  cb : th.cb = none
  rq : th.rq = none
  running : th.running = false
  pc : th.pc = .loop ∨ th.pc = .asleep

/-- A thread that has not run its job yet. -/
structure Thread.Given (th : Thread ι β) (o : Option ι) (r : Run (Option β)) : Prop where
  running : th.running = true
  rq : th.rq = o
  job : ∃ cb, th.cb = some cb ∧ cb th.arg = r

/-- A thread that has been given a job with result `r`. It enters the queue `o` by itself, if any,
once it has the result. -/
def Thread.Carries (th : Thread ι β) (o : Option ι) (r : Run (Option β)) : Prop :=
  match th.pc with
  | .loop | .asleep => th.Given o r ∨ th.Idle ∧ o = none ∧ r = .ok th.res
  | .woken => th.Given o r
  | .worked => th.running = true ∧ th.rq = o ∧ r = .ok th.res
  | .detached rq => th.running = true ∧ rq = o ∧ th.cb = none ∧ th.rq = none ∧ r = .ok th.res
  | .enqueue h => th.running = false ∧ o = some h ∧ th.cb = none ∧ th.rq = none ∧ r = .ok th.res
  | .exited => False

/-- What a thread is like in each place. -/
def ThreadOk (th : Thread ι β) (r : Run (Option β)) : Place ι → Prop
  | .free => th.Idle ∧ th.res = none
  | .got _ | .took _ => th.Idle ∧ th.res = none ∧ th.next = none
  | .handed _ | .popped _ => th.Carries none r ∧ th.next = none
  | .queue _ => th.Carries none r
  | .flight h => th.Carries (some h) r ∧ th.next = none

/-! ### Handlers -/

/-- The results that the result worker holds. -/
def inHand (carried : ℕ → Run (Option β)) : ResultPc β → List (Run (Option β))
  | .wait t | .asleepOn t => [carried t]
  | .took _ res | .deliver res => [.ok res]
  | _ => []

/-- The result of the job that is being dispatched and in no thread, queue or flight that counts. -/
def pending (ordered : Bool) (carried : ℕ → Run (Option β)) : DispatcherPc β → List (Run (Option β))
  | .next job | .asleep job | .create job | .got job _ | .checked job _ => [job.run]
  | .handed t => if ordered then [carried t] else []
  | _ => []

/-- A job at work that `nthreads` does not count yet. -/
def uncounted (ordered : Bool) : DispatcherPc β → ℕ
  | .handed _ => if ordered then 0 else 1
  | _ => 0

/-- A thread counted by the pool that does not exist yet. -/
def creating : DispatcherPc β → ℕ
  | .create _ => 1
  | _ => 0

/-- `resultq_finish` has been called. -/
def DispatcherPc.Finishing (pc : DispatcherPc β) : Prop := pc = .joining ∨ pc = .done

/-- The result worker has left its loop. -/
def ResultPc.Left (pc : ResultPc β) : Prop := pc = .leaving ∨ pc = .exited

/-- Equal where the order matters, else a permutation. -/
def Agrees {γ : Type} (ordered : Bool) (xs ys : List γ) : Prop :=
  xs.Perm ys ∧ (ordered = true → xs = ys)

def PoolState.next (s : PoolState ι β) (t : ℕ) : Option ℕ := (s.threads t).next

/-- The queue's fields against the ledger. -/
structure RqOk (ordered : Bool) (s : PoolState ι β) (g : Ledger ι β) (h : ι) (rq : Resultq) :
    Prop where
  linked : Linked s.next rq.head (g.queue h)
  ptail : rq.ptail = (g.queue h).getLast?
  lt : rq.nthreads < 2^64
  count : (rq.nthreads+uncounted ordered (s.dispatchers h))%2^64 =
    ((g.queue h).length+(g.flight h).length)%2^64
  finished : rq.finished = true ↔ (s.dispatchers h).Finishing

/-- The thread in the hands of the dispatching thread. -/
def DispatcherOk (ordered : Bool) (g : Ledger ι β) (h : ι) : DispatcherPc β → Prop
  | .got _ t | .checked _ t => g.place t = some (.got h)
  | .handed t => ordered = true → g.place t = some (.handed h)
  | _ => True

/-- The thread in the hands of the result worker. -/
def ResultOk (g : Ledger ι β) (h : ι) : ResultPc β → Prop
  | .wait t | .asleepOn t => g.place t = some (.popped h)
  | .took t _ => g.place t = some (.took h)
  | _ => True

/-- The thread of the call, and whether it has been handed the job. -/
def DispatcherPc.thread : DispatcherPc β → Option (ℕ × Bool)
  | .got _ t | .checked _ t => some (t,false)
  | .handed t => some (t,true)
  | _ => none

def ResultPc.thread : ResultPc β → Option ℕ
  | .wait t | .asleepOn t | .took t _ => some t
  | _ => none

/-- Nobody else is in these places, and a thread is handed over there by an ordered handler only. -/
def DispatcherHas (ordered : Bool) (g : Ledger ι β) (h : ι) (pc : DispatcherPc β) : Prop :=
  ∀ t, (g.place t = some (.got h) → pc.thread = some (t,false)) ∧
    (g.place t = some (.handed h) → pc.thread = some (t,true) ∧ ordered = true)

def ResultHas (g : Ledger ι β) (h : ι) (pc : ResultPc β) : Prop :=
  ∀ t, g.place t = some (.popped h) ∨ g.place t = some (.took h) → pc.thread = some t

/-- What has been dispatched, by where it is now. -/
def outstanding (ordered : Bool) (s : PoolState ι β) (g : Ledger ι β) (h : ι) :
    List (Run (Option β)) :=
  inHand g.carried (s.resultWorkers h)++(g.queue h).map g.carried++(g.flight h).map g.carried++
    pending ordered g.carried (s.dispatchers h)

structure HandlerOk (ordered : ι → Bool) (s : PoolState ι β) (g : Ledger ι β) (h : ι) : Prop where
  rq : ∀ rq, s.rqs h = some rq → RqOk (ordered h) s g h rq
  destroyed : s.rqs h = none ↔ s.resultWorkers h = .exited
  queueMem : ∀ t, t ∈ g.queue h ↔ g.place t = some (.queue h)
  queueNodup : (g.queue h).Nodup
  flightMem : ∀ t, t ∈ g.flight h ↔ g.place t = some (.flight h)
  flightNodup : (g.flight h).Nodup
  grounded : ordered h = true → g.flight h = []
  dispatcher : DispatcherOk (ordered h) g h (s.dispatchers h)
  dispatcherHas : DispatcherHas (ordered h) g h (s.dispatchers h)
  result : ResultOk g h (s.resultWorkers h)
  resultHas : ResultHas g h (s.resultWorkers h)
  left : (s.resultWorkers h).Left →
    (s.dispatchers h).Finishing ∧ g.queue h = [] ∧ g.flight h = []
  done : s.dispatchers h = .done → s.resultWorkers h = .exited
  account : Agrees (ordered h) ((s.calls h).map .ok++outstanding (ordered h) s g h)
    ((s.dispatched h).map Job.run)

/-- The invariant. -/
structure Safe [Fintype ι] (ordered : ι → Bool) (s : PoolState ι β) (g : Ledger ι β) : Prop where
  linked : Linked s.next s.pool.head g.free
  freeMem : ∀ t, t ∈ g.free ↔ g.place t = some .free
  freeNodup : g.free.Nodup
  created : ∀ t, g.place t = none ↔ s.created ≤ t
  threads : ∀ t p, g.place t = some p → ThreadOk (s.threads t) (g.carried t) p
  count : s.created+∑ h, creating (s.dispatchers h) = s.pool.count
  count_le : s.pool.count ≤ s.pool.max
  handlers : ∀ h, HandlerOk ordered s g h

/-! ### Sleepers -/

/-- A dispatching thread that is about to look for a thread. -/
def waiting : DispatcherPc β → ℕ
  | .next _ => 1
  | _ => 0

/-- Nobody who could move on is asleep, but for the one whom the signal `c` is about to wake. -/
structure Awake [Fintype ι] [DecidableEq ι] (c : Option (Cond ι)) (s : PoolState ι β)
    (g : Ledger ι β) : Prop where
  workers : ∀ t, t < s.created → (s.threads t).pc = .asleep → (s.threads t).running = true →
    c = some (.thread t) ∧ ∀ h, s.resultWorkers h ≠ .asleepOn t
  taking : ∀ h t, s.resultWorkers h = .asleepOn t → (s.threads t).running = false →
    c = some (.thread t) ∧ (s.threads t).pc ≠ .asleep
  receiving : ∀ h rq, s.resultWorkers h = .asleep → s.rqs h = some rq →
    rq.head.isSome ∨ rq.finished = true ∧ rq.nthreads = 0 → c = some (.rq h)
  crowd : ∀ h job, s.dispatchers h = .asleep job → s.pool.count = s.pool.max ∧
    g.free.length ≤ (∑ h, waiting (s.dispatchers h))+if c = some .pool then 1 else 0

end

end Mtbl
