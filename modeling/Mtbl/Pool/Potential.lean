import Mtbl.Pool.Runs

/-! Runs of the pool end. A potential counts what is still to be done for the jobs that have been
dispatched; every move lowers it, by two if it gives a signal, and being woken raises it by one. -/
namespace Mtbl
open CRun LinkedList

section
variable {ι β : Type}

def DispatcherPc.potential : DispatcherPc β → ℕ
  | .idle | .done => 0
  | .joining => 1
  | .handed _ => 2
  | .finish => 3
  | .checked _ _ => 15
  | .got _ _ => 16
  | .create _ | .asleep _ => 18
  | .next _ => 19

def ResultPc.potential : ResultPc β → ℕ
  | .exited => 0
  | .asleep | .leaving => 1
  | .loop => 2
  | .deliver _ => 3
  | .asleepOn _ | .took _ _ => 5
  | .wait _ => 6

def Thread.potential (th : Thread ι β) : ℕ :=
  match th.pc with
  | .asleep => if th.running then 11 else 0
  | .loop => if th.running then 12 else 1
  | .woken => 11
  | .worked => 10
  | .detached _ => 9
  | .enqueue _ => 8
  | .exited => 0

/-- The jobs whose threads the result worker has not seen yet. -/
def PoolState.unseen (s : PoolState ι β) (h : ι) : ℕ :=
  (s.dispatched h).length-((s.calls h).length+(inHand (fun _ => .ok none) (s.resultWorkers h)).length)

/-- What is left for a handler's two threads. -/
def PoolState.share (s : PoolState ι β) (h : ι) : ℕ :=
  (s.dispatchers h).potential+(s.resultWorkers h).potential+5*s.unseen h

/-- What is left for the workers. -/
def PoolState.work (s : PoolState ι β) : ℕ := ∑ t ∈ Finset.range s.created, (s.threads t).potential

def PoolState.potential [Fintype ι] (s : PoolState ι β) : ℕ := ∑ h, s.share h+s.work

variable {ordered : ι → Bool} {s s' : PoolState ι β} {g : Ledger ι β} {h : ι} {t n : ℕ}

theorem Thread.potential_congr {th th' : Thread ι β} (hpc : th'.pc = th.pc)
    (hrunning : th'.running = th.running) : th'.potential = th.potential := by
  simp only [Thread.potential,hpc,hrunning]

theorem work_congr (hcreated : s'.created = s.created)
    (hthreads : ∀ u, (s'.threads u).pc = (s.threads u).pc ∧
      (s'.threads u).running = (s.threads u).running) : s'.work = s.work := by
  simp only [PoolState.work,hcreated]
  exact Finset.sum_congr rfl fun u _ => Thread.potential_congr (hthreads u).1 (hthreads u).2

theorem work_setThread (ht : t < s.created) (th : Thread ι β) :
    (s.setThread t th).work+(s.threads t).potential = s.work+th.potential := by
  have hmem := Finset.mem_range.mpr ht
  simp only [PoolState.work,PoolState.setThread]
  rw [← Finset.add_sum_erase _ _ hmem,← Finset.add_sum_erase _ (fun u => (s.threads u).potential) hmem,
    Function.update_self]
  have hrest : ∑ u ∈ (Finset.range s.created).erase t, (Function.update s.threads t th u).potential =
      ∑ u ∈ (Finset.range s.created).erase t, (s.threads u).potential :=
    Finset.sum_congr rfl fun u hu => by rw [Function.update_of_ne (Finset.ne_of_mem_erase hu)]
  rw [hrest]
  omega

theorem work_setThread_le (ht : t < s.created) {th : Thread ι β} {m : ℕ}
    (hle : th.potential+n ≤ (s.threads t).potential+m) : (s.setThread t th).work+n ≤ s.work+m := by
  have hwork := work_setThread ht th
  omega

variable [DecidableEq ι] [Fintype ι]

/-- A move that concerns one handler at most. -/
theorem potential_le (hsame : ∀ h', h' ≠ h → s'.share h' = s.share h')
    (hle : s'.share h+s'.work+n ≤ s.share h+s.work) : s'.potential+n ≤ s.potential := by
  have hrest : ∑ h' ∈ Finset.univ.erase h, s'.share h' = ∑ h' ∈ Finset.univ.erase h, s.share h' :=
    Finset.sum_congr rfl fun h' hmem => hsame h' (Finset.ne_of_mem_erase hmem)
  simp only [PoolState.potential]
  rw [← Finset.add_sum_erase _ _ (Finset.mem_univ h),hrest,
    ← Finset.add_sum_erase _ s.share (Finset.mem_univ h)]
  omega

/-- A dispatching thread moves on, with what it has done before. -/
theorem potential_setDispatcher {pc : DispatcherPc β} (hshare : s'.share = s.share)
    (hpc : s'.dispatchers h = s.dispatchers h)
    (hle : s'.work+pc.potential+n ≤ s.work+(s.dispatchers h).potential) :
    (s'.setDispatcher h pc).potential+n ≤ s.potential := by
  refine potential_le (fun h' hne => ?_) (h := h) ?_
  · rw [← hshare]
    simp only [PoolState.share,PoolState.setDispatcher,Function.update_of_ne hne]
    rfl
  · rw [← hshare]
    simp only [PoolState.share,PoolState.dispatchers_setDispatcher,hpc]
    change pc.potential+(s'.resultWorkers h).potential+5*s'.unseen h+s'.work+n ≤ _
    omega

/-- A result worker moves on. -/
theorem potential_setResult {pc : ResultPc β} (hdispatchers : s'.dispatchers = s.dispatchers)
    (hresults : s'.resultWorkers = s.resultWorkers) (hdispatched : s'.dispatched = s.dispatched)
    (hcalls : s'.calls = s.calls)
    (hle : s'.work+pc.potential+5*((s.dispatched h).length-((s.calls h).length+
      (inHand (fun _ => .ok none) pc).length))+n ≤
      s.work+(s.resultWorkers h).potential+5*s.unseen h) :
    (s'.setResult h pc).potential+n ≤ s.potential := by
  refine potential_le (fun h' hne => ?_) (h := h) ?_
  · simp only [PoolState.share,PoolState.unseen,PoolState.setResult,Function.update_of_ne hne,
      hdispatchers,hresults,hdispatched,hcalls]
  · simp only [PoolState.share,PoolState.unseen,PoolState.resultWorkers_setResult]
    change (s'.dispatchers h).potential+pc.potential+5*((s'.dispatched h).length-
      ((s'.calls h).length+(inHand (fun _ => .ok none) pc).length))+s'.work+n ≤ _
    rw [hdispatchers,hdispatched,hcalls]
    simp only [PoolState.unseen] at hle
    omega

/-- A worker moves on. -/
theorem potential_worker (hshare : s'.share = s.share) (hle : s'.work+n ≤ s.work) :
    s'.potential+n ≤ s.potential := by
  simp only [PoolState.potential,hshare]
  omega

theorem potential_setThread {th : Thread ι β} (ht : t < s.created)
    (hle : th.potential+n ≤ (s.threads t).potential) :
    (s.setThread t th).potential+n ≤ s.potential :=
  potential_worker rfl (work_setThread_le (m := 0) ht hle)

theorem share_enqueueThread (s : PoolState ι β) (h : ι) (rq : Resultq) (t : ℕ) :
    (enqueueThread s h rq t).share = s.share := by
  obtain ⟨-,-,hdispatchers,hresults,hdispatched,hcalls,-⟩ := enqueueThread_same s h rq t
  funext h'
  simp only [PoolState.share,PoolState.unseen,hdispatchers,hresults,hdispatched,hcalls]

theorem work_enqueueThread (s : PoolState ι β) (h : ι) (rq : Resultq) (t : ℕ) :
    (enqueueThread s h rq t).work = s.work := by
  obtain ⟨hcreated,-,-,-,-,-,hthreads,-⟩ := enqueueThread_same s h rq t
  exact work_congr hcreated hthreads

/-- What a move costs at least. -/
def Moved.cost (m : Moved ι β) : ℕ := if m.signal.isSome then 2 else 1

theorem Safe.potential_workerStep (hs : Safe ordered s g) (ht : t < s.created) {m : Moved ι β}
    (hstep : Mtbl.workerStep s t = some (.ok m)) : m.state.potential+m.cost ≤ s.potential := by
  obtain ⟨p,hplace⟩ := hs.place_some ht
  have hthread := hs.threads t p hplace
  cases hpc : (s.threads t).pc with
  | asleep => simp [Mtbl.workerStep,hpc] at hstep
  | exited => simp [Mtbl.workerStep,hpc] at hstep
  | loop =>
    simp only [Mtbl.workerStep,hpc] at hstep
    split_ifs at hstep with hrunning
    · obtain rfl := Except.ok.inj (Option.some.inj hstep)
      exact potential_setThread ht (by simp [Thread.potential,hpc,hrunning,Moved.cost])
    · obtain rfl := Except.ok.inj (Option.some.inj hstep)
      exact potential_setThread ht (by simp [Thread.potential,hpc,hrunning,Moved.cost])
  | woken =>
    simp only [Mtbl.workerStep,hpc] at hstep
    split at hstep
    · obtain rfl := Except.ok.inj (Option.some.inj hstep)
      exact potential_setThread ht (by simp [Thread.potential,hpc,Moved.cost])
    · next cb hcb =>
      have hrun := Option.some.inj hstep
      cases hres : cb (s.threads t).arg with
      | error e =>
        rw [hres] at hrun
        cases hrun
      | ok res =>
        rw [hres] at hrun
        obtain rfl := Except.ok.inj hrun
        exact potential_setThread ht (by simp [Thread.potential,hpc,Moved.cost])
  | worked =>
    simp only [Mtbl.workerStep,hpc] at hstep
    obtain rfl := Except.ok.inj (Option.some.inj hstep)
    exact potential_setThread ht (by simp [Thread.potential,hpc,Moved.cost])
  | detached rq =>
    cases rq with
    | none =>
      simp only [Mtbl.workerStep,hpc] at hstep
      obtain rfl := Except.ok.inj (Option.some.inj hstep)
      exact potential_setThread ht (by simp [Thread.potential,hpc,Moved.cost])
    | some q =>
      simp only [Mtbl.workerStep,hpc] at hstep
      obtain rfl := Except.ok.inj (Option.some.inj hstep)
      exact potential_setThread ht (by simp [Thread.potential,hpc,Moved.cost])
  | enqueue q =>
    obtain ⟨o,hcarries,-⟩ := Thread.busy hthread (by simp [hpc])
    unfold Thread.Carries at hcarries
    rw [hpc] at hcarries
    simp only [Mtbl.workerStep,hpc] at hstep
    split at hstep
    · cases hstep
    · next rq hrq =>
      obtain rfl := Except.ok.inj (Option.some.inj hstep)
      refine potential_worker (share_enqueueThread _ q rq t) ?_
      rw [work_enqueueThread]
      exact work_setThread_le (m := 0) ht (by simp [Thread.potential,hpc,hcarries.1,Moved.cost])

/-- The section of `threadpool_next`. -/
theorem Safe.potential_threadpoolNext (hs : Safe ordered s g) {job : Job β}
    (hpc : s.dispatchers h = .next job) {m : Moved ι β} (hrun : Mtbl.threadpoolNext s h job = .ok m) :
    m.state.potential+m.cost ≤ s.potential := by
  unfold Mtbl.threadpoolNext at hrun
  split at hrun
  · next t hhead =>
    obtain ⟨ts,-,hplace⟩ := hs.head_free hhead
    obtain ⟨hidle,hres⟩ : ThreadOk (s.threads t) (g.carried t) .free := hs.threads t _ hplace
    rw [check_of (by simp [hidle.cb]),ok_bind,check_of (by simp [hres]),ok_bind,
      check_of (by simp [hidle.running]),ok_bind] at hrun
    obtain rfl := Except.ok.inj hrun
    have hwork : (({ s with pool := { s.pool with head := (s.threads t).next } }).setNext t
        none).work = s.work :=
      work_congr rfl (fun u => ⟨setNext_pc _ t none u,setNext_running _ t none u⟩)
    refine potential_setDispatcher rfl rfl ?_
    rw [hwork,hpc]
    change _+16+1 ≤ _+19
    omega
  · split_ifs at hrun
    · obtain rfl := Except.ok.inj hrun
      refine potential_setDispatcher rfl rfl ?_
      rw [hpc]
      exact le_rfl
    · obtain rfl := Except.ok.inj hrun
      refine potential_setDispatcher rfl rfl ?_
      rw [hpc]
      exact le_rfl

/-- The section of `threadpool_dispatch` on the result queue. -/
theorem Safe.potential_countDispatched (hs : Safe ordered s g) (hpc : s.dispatchers h = .handed t)
    {m : Moved ι β} (hrun : Mtbl.countDispatched ordered s h t = .ok m) :
    m.state.potential+m.cost ≤ s.potential := by
  obtain ⟨⟨rq,hrq⟩,-⟩ := hs.open_rq (h := h) (by simp [hpc,DispatcherPc.Finishing])
  simp only [Mtbl.countDispatched,hrq] at hrun
  obtain ⟨_,-,hrun⟩ := bind_eq_ok.mp hrun
  split_ifs at hrun
  · obtain rfl := Except.ok.inj hrun
    obtain ⟨-,-,hdispatchers,-⟩ := enqueueThread_same s h
      { rq with nthreads := (rq.nthreads+1)%2^64 } t
    refine potential_setDispatcher (share_enqueueThread s h _ t) (by rw [hdispatchers]) ?_
    rw [work_enqueueThread,hpc]
    exact le_rfl
  · obtain rfl := Except.ok.inj hrun
    refine potential_setDispatcher rfl rfl ?_
    rw [hpc]
    change _+0+1 ≤ _+2
    exact Nat.add_le_add_left one_le_two _

theorem Safe.potential_dispatcherStep (hs : Safe ordered s g) {m : Moved ι β}
    (hstep : Mtbl.dispatcherStep ordered s h = some (.ok m)) : m.state.potential+m.cost ≤ s.potential := by
  have hok := (hs.handlers h).dispatcher
  cases hpc : s.dispatchers h with
  | idle => simp [Mtbl.dispatcherStep,hpc] at hstep
  | asleep job => simp [Mtbl.dispatcherStep,hpc] at hstep
  | done => simp [Mtbl.dispatcherStep,hpc] at hstep
  | next job =>
    simp only [Mtbl.dispatcherStep,hpc] at hstep
    exact hs.potential_threadpoolNext hpc (Option.some.inj hstep)
  | create job =>
    simp only [Mtbl.dispatcherStep,hpc] at hstep
    obtain rfl := Except.ok.inj (Option.some.inj hstep)
    have hwork : (({ s with created := s.created+1 }).setThread s.created .calloc).work =
        s.work+1 := by
      simp only [PoolState.work,PoolState.setThread,Finset.sum_range_succ,Function.update_self]
      refine congrArg (·+1) (Finset.sum_congr rfl fun u hu => ?_)
      rw [Function.update_of_ne (Finset.mem_range.mp hu).ne]
    refine potential_setDispatcher rfl rfl ?_
    rw [hwork,hpc]
    change _+1+16+1 ≤ _+18
    omega
  | got job t =>
    rw [hpc] at hok
    obtain ⟨hidle,-,hnext⟩ : ThreadOk (s.threads t) (g.carried t) (.got h) := hs.threads t _ hok
    simp only [Mtbl.dispatcherStep,hpc] at hstep
    rw [check_of (by simp [hidle.running]),ok_bind,check_of (by simp [hnext]),ok_bind] at hstep
    obtain rfl := Except.ok.inj (Option.some.inj hstep)
    refine potential_setDispatcher rfl rfl ?_
    rw [hpc]
    exact le_rfl
  | checked job t =>
    rw [hpc] at hok
    obtain ⟨hidle,-,-⟩ : ThreadOk (s.threads t) (g.carried t) (.got h) := hs.threads t _ hok
    have ht : t < s.created := by
      rw [← not_le,← hs.created,show g.place t = _ from hok]
      simp
    simp only [Mtbl.dispatcherStep,hpc] at hstep
    obtain rfl := Except.ok.inj (Option.some.inj hstep)
    have hle : ({ s.threads t with
        rq := if ordered h then none else some h
        cb := some job.cb
        arg := job.arg
        running := true } : Thread ι β).potential ≤ (s.threads t).potential+11 := by
      rcases hidle.pc with hloop | hasleep
      · simp [Thread.potential,hloop,hidle.running]
      · simp [Thread.potential,hasleep,hidle.running]
    refine potential_setDispatcher rfl rfl ?_
    rw [hpc]
    change _+(2+2) ≤ _+(11+4)
    exact Nat.add_le_add_right (work_setThread_le (n := 0) ht hle) 4
  | handed t =>
    simp only [Mtbl.dispatcherStep,hpc] at hstep
    exact hs.potential_countDispatched hpc (Option.some.inj hstep)
  | finish =>
    obtain ⟨⟨rq,hrq⟩,-⟩ := hs.open_rq (h := h) (by simp [hpc,DispatcherPc.Finishing])
    simp only [Mtbl.dispatcherStep,hpc,Mtbl.resultqFinish,hrq] at hstep
    obtain rfl := Except.ok.inj (Option.some.inj hstep)
    refine potential_setDispatcher rfl rfl ?_
    rw [hpc]
    exact le_rfl
  | joining =>
    simp only [Mtbl.dispatcherStep,hpc] at hstep
    split at hstep
    · obtain rfl := Except.ok.inj (Option.some.inj hstep)
      refine potential_setDispatcher rfl rfl ?_
      rw [hpc]
      exact le_rfl
    · cases hstep

theorem inHand_length (carried carried' : ℕ → Run (Option β)) (pc : ResultPc β) :
    (inHand carried pc).length = (inHand carried' pc).length := by
  cases pc <;> rfl

/-- The threads of the queue are among those that the result worker has not seen. -/
theorem Safe.queue_unseen (hs : Safe ordered s g) (h : ι) :
    (g.queue h).length+((s.calls h).length+
      (inHand (fun _ => .ok none) (s.resultWorkers h)).length) ≤ (s.dispatched h).length := by
  have hlength := (hs.handlers h).account.1.length_eq
  simp only [outstanding,List.length_append,List.length_map] at hlength
  rw [inHand_length _ g.carried]
  omega

/-- The first section of `resultq_next`. -/
theorem Safe.potential_resultqNext (hs : Safe ordered s g) (hpc : s.resultWorkers h = .loop)
    {m : Moved ι β} (hrun : Mtbl.resultqNext s h = .ok m) : m.state.potential+m.cost ≤ s.potential := by
  have hunseen := hs.queue_unseen h
  unfold Mtbl.resultqNext at hrun
  split at hrun
  · cases hrun
  · next rq hrq =>
    split at hrun
    · next t hhead =>
      have hqueue : (g.queue h).length ≠ 0 := by
        have := ((hs.handlers h).rq rq hrq).linked.head_eq
        rw [hhead] at this
        cases hq : g.queue h with
        | nil =>
          rw [hq] at this
          cases this
        | cons u us => exact Nat.succ_ne_zero _
      obtain rfl := Except.ok.inj hrun
      refine potential_setResult rfl rfl rfl rfl ?_
      have hwork : (s.setNext t none).work = s.work :=
        work_congr rfl (fun u => ⟨setNext_pc s t none u,setNext_running s t none u⟩)
      change (s.setNext t none).work+6+5*((s.dispatched h).length-((s.calls h).length+1))+1 ≤ _
      simp only [PoolState.unseen]
      rw [hpc] at hunseen ⊢
      change _+(_+0) ≤ _ at hunseen
      change _ ≤ _+2+5*(_-(_+0))
      omega
    · split_ifs at hrun
      · obtain rfl := Except.ok.inj hrun
        refine potential_setResult rfl rfl rfl rfl ?_
        simp only [PoolState.unseen]
        rw [hpc]
        change _+1+5*(_-(_+0))+1 ≤ _+2+5*(_-(_+0))
        omega
      · obtain rfl := Except.ok.inj hrun
        refine potential_setResult rfl rfl rfl rfl ?_
        simp only [PoolState.unseen]
        rw [hpc]
        change _+1+5*(_-(_+0))+1 ≤ _+2+5*(_-(_+0))
        omega

theorem Safe.potential_resultStep (hs : Safe ordered s g) {m : Moved ι β}
    (hstep : Mtbl.resultStep s h = some (.ok m)) : m.state.potential+m.cost ≤ s.potential := by
  cases hpc : s.resultWorkers h with
  | asleep => simp [Mtbl.resultStep,hpc] at hstep
  | asleepOn t => simp [Mtbl.resultStep,hpc] at hstep
  | exited => simp [Mtbl.resultStep,hpc] at hstep
  | loop =>
    simp only [Mtbl.resultStep,hpc] at hstep
    exact hs.potential_resultqNext hpc (Option.some.inj hstep)
  | wait t =>
    simp only [Mtbl.resultStep,hpc] at hstep
    split_ifs at hstep
    · obtain rfl := Except.ok.inj (Option.some.inj hstep)
      refine potential_setResult rfl rfl rfl rfl ?_
      simp only [PoolState.unseen]
      rw [hpc]
      change _+5+5*(_-(_+1))+1 ≤ _+6+5*(_-(_+1))
      omega
    · obtain rfl := Except.ok.inj (Option.some.inj hstep)
      refine potential_setResult rfl rfl rfl rfl ?_
      have hwork : (s.setThread t { s.threads t with res := none }).work = s.work :=
        work_congr rfl (fun u => by
          by_cases hut : u = t <;> simp [PoolState.setThread,hut])
      simp only [PoolState.unseen]
      rw [hpc]
      change (s.setThread t { s.threads t with res := none }).work+5+5*(_-(_+1))+1 ≤
        _+6+5*(_-(_+1))
      omega
  | took t res =>
    simp only [Mtbl.resultStep,hpc] at hstep
    obtain rfl := Except.ok.inj (Option.some.inj hstep)
    refine potential_setResult rfl rfl rfl rfl ?_
    have hwork : (({ s with pool := { s.pool with head := some t } }).setNext t s.pool.head).work =
        s.work := work_congr rfl (fun u => ⟨setNext_pc _ t _ u,setNext_running _ t _ u⟩)
    simp only [PoolState.unseen]
    rw [hpc]
    change (({ s with pool := { s.pool with head := some t } }).setNext t s.pool.head).work+3+
      5*(_-(_+1))+2 ≤ _+5+5*(_-(_+1))
    omega
  | deliver res =>
    simp only [Mtbl.resultStep,hpc] at hstep
    obtain rfl := Except.ok.inj (Option.some.inj hstep)
    refine potential_le (fun h' hne => ?_) (h := h) ?_
    · simp only [PoolState.share,PoolState.unseen,PoolState.setResult,Function.update_of_ne hne]
    · simp only [PoolState.share,PoolState.unseen,PoolState.setResult,Function.update_self,
        List.length_append]
      rw [hpc]
      change _+2+5*(_-(_+1+0))+_+1 ≤ _+3+5*(_-(_+1))+_
      simp only [PoolState.work]
      omega
  | leaving =>
    simp only [Mtbl.resultStep,hpc,Mtbl.resultqDestroy] at hstep
    split at hstep
    · cases hstep
    · obtain ⟨_,-,hrun⟩ := bind_eq_ok.mp (Option.some.inj hstep)
      obtain rfl := Except.ok.inj hrun
      refine potential_setResult rfl rfl rfl rfl ?_
      simp only [PoolState.unseen]
      rw [hpc]
      change s.work+0+5*(_-(_+0))+1 ≤ _+1+5*(_-(_+0))
      omega

theorem Safe.potential_actorStep (hs : Safe ordered s g) {a : Actor ι} {m : Moved ι β}
    (hstep : Mtbl.actorStep ordered s a = some (.ok m)) :
    m.state.potential+m.cost ≤ s.potential := by
  cases a with
  | dispatcher h => exact hs.potential_dispatcherStep hstep
  | result h => exact hs.potential_resultStep hstep
  | worker t =>
    simp only [Mtbl.actorStep] at hstep
    split_ifs at hstep with ht
    exact hs.potential_workerStep ht hstep

/-! ### Runs -/

/-- What a wakeup or a call adds. -/
theorem potential_le_add (hsame : ∀ h', h' ≠ h → s'.share h' = s.share h')
    (hle : s'.share h+s'.work ≤ s.share h+s.work+n) : s'.potential ≤ s.potential+n := by
  have hrest : ∑ h' ∈ Finset.univ.erase h, s'.share h' = ∑ h' ∈ Finset.univ.erase h, s.share h' :=
    Finset.sum_congr rfl fun h' hmem => hsame h' (Finset.ne_of_mem_erase hmem)
  simp only [PoolState.potential]
  rw [← Finset.add_sum_erase _ _ (Finset.mem_univ h),hrest,
    ← Finset.add_sum_erase _ s.share (Finset.mem_univ h)]
  omega

theorem potential_setDispatcher_add {pc : DispatcherPc β}
    (hle : pc.potential ≤ (s.dispatchers h).potential+n) :
    (s.setDispatcher h pc).potential ≤ s.potential+n := by
  refine potential_le_add (fun h' hne => ?_) (h := h) ?_
  · simp only [PoolState.share,PoolState.setDispatcher,Function.update_of_ne hne]
    rfl
  · simp only [PoolState.share,PoolState.dispatchers_setDispatcher]
    change pc.potential+(s.resultWorkers h).potential+5*s.unseen h+s.work ≤ _
    omega

theorem potential_setResult_add {pc : ResultPc β}
    (hhand : (inHand (fun _ => .ok none) pc).length =
      (inHand (fun _ => .ok none) (s.resultWorkers h)).length)
    (hle : pc.potential ≤ (s.resultWorkers h).potential+n) :
    (s.setResult h pc).potential ≤ s.potential+n := by
  refine potential_le_add (fun h' hne => ?_) (h := h) ?_
  · simp only [PoolState.share,PoolState.unseen,PoolState.setResult,Function.update_of_ne hne]
  · simp only [PoolState.share,PoolState.unseen,PoolState.resultWorkers_setResult,hhand]
    change (s.dispatchers h).potential+pc.potential+_+s.work ≤
      (s.dispatchers h).potential+(s.resultWorkers h).potential+_+s.work+n
    simp only [PoolState.setResult]
    omega

theorem potential_wake {a : Actor ι} {c : Cond ι} (hsleeps : sleepsOn s a = some c) :
    (wake s a).potential ≤ s.potential+1 := by
  cases a with
  | dispatcher h =>
    cases hpc : s.dispatchers h with
    | asleep job =>
      simp only [Mtbl.wake,hpc]
      exact potential_setDispatcher_add (by rw [hpc]; exact le_rfl)
    | _ => simp [sleepsOn,hpc] at hsleeps
  | result h =>
    cases hpc : s.resultWorkers h with
    | asleep =>
      simp only [Mtbl.wake,hpc]
      exact potential_setResult_add (by rw [hpc]; rfl) (by rw [hpc]; exact le_rfl)
    | asleepOn t =>
      simp only [Mtbl.wake,hpc]
      exact potential_setResult_add (by rw [hpc]; rfl) (by rw [hpc]; exact le_rfl)
    | _ => simp [sleepsOn,hpc] at hsleeps
  | worker t =>
    cases hpc : (s.threads t).pc with
    | asleep =>
      simp only [sleepsOn,hpc] at hsleeps
      split_ifs at hsleeps with ht
      have hwork : (Mtbl.wake s (.worker t)).work ≤ s.work+1 := by
        refine work_setThread_le (n := 0) ht ?_
        cases hrunning : (s.threads t).running <;> simp [Thread.potential,hpc,hrunning]
      change ∑ h, s.share h+(Mtbl.wake s (.worker t)).work ≤ ∑ h, s.share h+s.work+1
      omega
    | _ => simp [sleepsOn,hpc] at hsleeps

/-- What an event adds to what is to be done. -/
def PoolEvent.budget : PoolEvent ι β → ℕ
  | .dispatch _ _ => 24
  | .destroy _ => 3
  | .move _ => 0
  | .spurious _ => 1

def PoolEvent.moves : PoolEvent ι β → ℕ
  | .move _ => 1
  | _ => 0

theorem Safe.potential_step (hs : Safe ordered s g) {event : PoolEvent ι β}
    (hstep : PoolStep ordered s event (.ok s')) :
    s'.potential+event.moves ≤ s.potential+event.budget := by
  cases hstep with
  | @dispatch h job idle =>
    refine potential_le_add (fun h' hne => ?_) (h := h) ?_
    · simp only [PoolState.share,PoolState.unseen,PoolState.setDispatcher,Function.update_of_ne hne]
    · simp only [PoolState.share,PoolState.unseen,PoolState.setDispatcher,Function.update_self,
        List.length_append,List.length_singleton]
      rw [idle]
      change 19+_+_+s.work ≤ 0+_+_+s.work+24
      omega
  | @destroy h idle => exact potential_setDispatcher_add (by rw [idle]; exact le_rfl)
  | @move a m s1 hmove hsignal =>
    have hpotential := hs.potential_actorStep hmove
    change s'.potential+1 ≤ s.potential+0
    generalize hc : m.signal = c at hsignal
    cases hsignal with
    | quiet =>
      rw [Moved.cost,hc] at hpotential
      exact hpotential
    | wakes hsleeps =>
      rw [Moved.cost,hc] at hpotential
      have hwake := potential_wake hsleeps
      change _+2 ≤ _ at hpotential
      omega
    | lost _ =>
      rw [Moved.cost,hc] at hpotential
      change _+2 ≤ _ at hpotential
      omega
  | spurious hsleeps => exact potential_wake hsleeps

/-- The moves of a run are bounded by what has been called. -/
theorem PoolRun.bounded {max : ℕ} (hmax : max < 2^64) {events : List (PoolEvent ι β)}
    (hrun : PoolRun ordered (.init max) events s) : s.potential+(events.map PoolEvent.moves).sum ≤
      2*Fintype.card ι+(events.map PoolEvent.budget).sum := by
  induction hrun with
  | nil =>
    simp [PoolState.potential,PoolState.share,PoolState.work,PoolState.init,PoolState.unseen,
      DispatcherPc.potential,ResultPc.potential,mul_comm]
  | snoc hrun hstep ih =>
    obtain ⟨g,hs,-⟩ := (hrun.sound hmax).ledger
    have hpotential := hs.potential_step hstep
    simp only [List.map_append,List.sum_append,List.map_cons,List.map_nil,List.sum_cons,List.sum_nil]
    omega

end

end Mtbl
