import Mtbl.Pool.Moves

/-! Delivery. Signals keep everybody awake who can go on, so the invariant holds along every run, and a
state in which nobody can move is one in which all calls have returned and all results have been
delivered. -/
namespace Mtbl
open CRun LinkedList

section
variable {ι β : Type} [DecidableEq ι] [Fintype ι] {ordered : ι → Bool} {s s' : PoolState ι β}
  {g : Ledger ι β} {h : ι} {t : ℕ}

/-! ### Waking up -/

theorem Awake.weaken (ha : Awake none s g) (c : Option (Cond ι)) : Awake c s g :=
  ha.frame rfl (fun _ => ⟨rfl,rfl⟩) rfl rfl (fun h job hasleep => by
    obtain ⟨hmax,hle⟩ := ha.crowd h job hasleep
    simp only [reduceCtorEq,if_false] at hle
    exact ⟨hmax,by omega⟩)

/-- A free thread is one more to look for a thread. -/
theorem Awake.wakeDispatcher (ha : Awake (some .pool) s g) {job : Job β}
    (hpc : s.dispatchers h = .asleep job) : Awake none (s.setDispatcher h (.next job)) g where
  workers u hu hasleep hrun := by cases (ha.workers u hu hasleep hrun).1
  taking h' u hasleep hrun := by cases (ha.taking h' u hasleep hrun).1
  receiving h' rq hasleep hrq hready := by cases ha.receiving h' rq hasleep hrq hready
  crowd h' job' hasleep := by
    obtain ⟨hmax,hle⟩ := ha.crowd h' job' (PoolState.setDispatcher_other (by simp) hasleep).2
    have hsum := sum_update waiting s.dispatchers h (.next job)
    rw [hpc] at hsum
    change _+0 = _+1 at hsum
    rw [if_pos rfl] at hle
    refine ⟨hmax,?_⟩
    change g.free.length ≤ (∑ h', waiting (Function.update s.dispatchers h (.next job) h'))+0
    omega

/-- The result worker was the only one asleep on its queue. -/
theorem Awake.wakeReceiver (ha : Awake (some (.rq h)) s g) :
    Awake none (s.setResult h .loop) g where
  workers u hu hasleep hrun := by cases (ha.workers u hu hasleep hrun).1
  taking h' u hasleep hrun := by
    cases (ha.taking h' u (PoolState.setResult_other (by simp) hasleep).2 hrun).1
  receiving h' rq hasleep hrq hready := by
    obtain ⟨hne,hold⟩ := PoolState.setResult_other (by simp) hasleep
    exact absurd (Cond.rq.inj (Option.some.inj (ha.receiving h' rq hold hrq hready))).symm hne
  crowd := ha.crowd

/-- The result worker that took the thread off its queue was the only one asleep on it. -/
theorem Awake.wakeTaker (ha : Awake (some (.thread t)) s g) (hs : Safe ordered s g)
    (hpc : s.resultWorkers h = .asleepOn t) : Awake none (s.setResult h (.wait t)) g where
  workers u hu hasleep hrun := by
    obtain ⟨hc,hnot⟩ := ha.workers u hu hasleep hrun
    obtain rfl := Cond.thread.inj (Option.some.inj hc)
    exact absurd hpc (hnot h)
  taking h' u hasleep hrun := by
    obtain ⟨hne,hold⟩ := PoolState.setResult_other (by simp) hasleep
    obtain rfl := Cond.thread.inj (Option.some.inj (ha.taking h' u hold hrun).1)
    have hhere := (hs.handlers h).result
    have hthere := (hs.handlers h').result
    rw [hpc] at hhere
    rw [hold] at hthere
    exact absurd (Place.popped.inj (Option.some.inj (hthere.symm.trans hhere))) hne
  receiving h' rq hasleep hrq hready := by
    cases ha.receiving h' rq (PoolState.setResult_other (by simp) hasleep).2 hrq hready
  crowd := ha.crowd

/-- While the worker sleeps no result worker waits for it. -/
theorem Awake.wakeWorker (ha : Awake (some (.thread t)) s g) (hpc : (s.threads t).pc = .asleep) :
    Awake none (s.setThread t { s.threads t with pc := .loop }) g where
  workers u hu hasleep hrun := by
    by_cases hut : u = t
    · subst hut
      simp [PoolState.setThread] at hasleep
    · simp only [PoolState.setThread,Function.update_of_ne hut] at hasleep hrun
      have hc := (ha.workers u hu hasleep hrun).1
      exact absurd (Cond.thread.inj (Option.some.inj hc)).symm hut
  taking h' u hasleep hrun := by
    have hsame : ((s.setThread t { s.threads t with pc := .loop }).threads u).running =
        (s.threads u).running := by
      by_cases hut : u = t <;> simp [PoolState.setThread,hut]
    rw [hsame] at hrun
    obtain ⟨hc,hnot⟩ := ha.taking h' u hasleep hrun
    obtain rfl := Cond.thread.inj (Option.some.inj hc)
    exact absurd hpc hnot
  receiving h' rq hasleep hrq hready := by cases ha.receiving h' rq hasleep hrq hready
  crowd := ha.crowd

/-- The one who is woken was the only one who could go on. -/
theorem Awake.wake (ha : Awake (some c) s g) (hs : Safe ordered s g) {a : Actor ι}
    (hsleeps : sleepsOn s a = some c) : Awake none (wake s a) g := by
  cases a with
  | dispatcher h =>
    cases hpc : s.dispatchers h with
    | asleep job =>
      simp only [sleepsOn,hpc] at hsleeps
      obtain rfl := Option.some.inj hsleeps
      simp only [Mtbl.wake,hpc]
      exact ha.wakeDispatcher hpc
    | _ => simp [sleepsOn,hpc] at hsleeps
  | result h =>
    cases hpc : s.resultWorkers h with
    | asleep =>
      simp only [sleepsOn,hpc] at hsleeps
      obtain rfl := Option.some.inj hsleeps
      simp only [Mtbl.wake,hpc]
      exact ha.wakeReceiver
    | asleepOn u =>
      simp only [sleepsOn,hpc] at hsleeps
      obtain rfl := Option.some.inj hsleeps
      simp only [Mtbl.wake,hpc]
      exact ha.wakeTaker hs hpc
    | _ => simp [sleepsOn,hpc] at hsleeps
  | worker t =>
    cases hpc : (s.threads t).pc with
    | asleep =>
      simp only [sleepsOn,hpc] at hsleeps
      split_ifs at hsleeps
      obtain rfl := Option.some.inj hsleeps
      exact ha.wakeWorker hpc
    | _ => simp [sleepsOn,hpc] at hsleeps

theorem Awake.lost (ha : Awake (some c) s g) (hnone : ∀ a, sleepsOn s a ≠ some c) :
    Awake none s g where
  workers u hu hasleep hrun := by
    obtain ⟨hc,-⟩ := ha.workers u hu hasleep hrun
    refine absurd ?_ (hnone (.worker u))
    simp [sleepsOn,hasleep,hu,Option.some.inj hc]
  taking h' u hasleep hrun := by
    obtain ⟨hc,-⟩ := ha.taking h' u hasleep hrun
    refine absurd ?_ (hnone (.result h'))
    simp [sleepsOn,hasleep,Option.some.inj hc]
  receiving h' rq hasleep hrq hready := by
    have hc := ha.receiving h' rq hasleep hrq hready
    refine absurd ?_ (hnone (.result h'))
    simp [sleepsOn,hasleep,Option.some.inj hc]
  crowd h' job hasleep := by
    have hc : c ≠ .pool := by
      rintro rfl
      exact hnone (.dispatcher h') (by simp [sleepsOn,hasleep])
    have := ha.crowd h' job hasleep
    rwa [if_neg (fun he => hc (Option.some.inj he))] at this

theorem Awake.signalled {c : Option (Cond ι)} (ha : Awake c s g) (hs : Safe ordered s g)
    (hsignal : Signalled s c s') : Awake none s' g := by
  cases hsignal with
  | quiet => exact ha
  | wakes hsleeps => exact ha.wake hs hsleeps
  | lost hnone => exact ha.lost hnone

theorem Signalled.pool {c : Option (Cond ι)} (hsignal : Signalled s c s') : s'.pool = s.pool := by
  cases hsignal with
  | quiet => rfl
  | wakes _ => exact wake_max s _
  | lost _ => rfl

/-! ### Runs -/

/-- What holds along a run. -/
structure PoolSound (ordered : ι → Bool) (max : ℕ) (s : PoolState ι β) : Prop where
  max : s.pool.max = max
  ledger : ∃ g, Safe ordered s g ∧ Awake none s g

theorem PoolSound.step {max : ℕ} (hmax : max < 2^64) {event : PoolEvent ι β}
    (hsound : PoolSound ordered max s) (hstep : PoolStep ordered s event (.ok s')) :
    PoolSound ordered max s' := by
  obtain ⟨hpool,g,hs,ha⟩ := hsound
  cases hstep with
  | @dispatch h job idle =>
    refine ⟨hpool,g,hs.dispatch idle job,ha.workers,ha.taking,ha.receiving,?_⟩
    exact ha.crowd_update (by simp) (Nat.add_le_add_left (by rw [idle]; exact Nat.zero_le _) _)
  | @destroy h idle =>
    refine ⟨hpool,g,hs.setDispatcher ?_ ?_ ?_ ?_ trivial ?_ (by simp),ha.setDispatcher (by simp) ?_⟩
      <;> rw [idle]
    · rfl
    · rfl
    · rfl
    · simp [DispatcherPc.Finishing]
    · rfl
    · exact le_rfl
  | move hmove hsignal =>
    rcases hs.actorStep (hpool ▸ hmax) hmove with ⟨m,hm,-,hmax',g',hs',ha'⟩ | ⟨e,h,job,-,-,he⟩
    · obtain rfl := Except.ok.inj hm
      refine ⟨?_,g',hs'.signalled hsignal,(ha' ha).signalled hs' hsignal⟩
      rw [hsignal.pool,hmax',hpool]
    · cases he
  | spurious hsleeps =>
    exact ⟨(congrArg Threadpool.max (wake_max s _)).trans hpool,g,hs.wake hsleeps,
      (ha.weaken _).wake hs hsleeps⟩

theorem PoolSound.init (ordered : ι → Bool) (max : ℕ) :
    PoolSound ordered max (PoolState.init max : PoolState ι β) := by
  obtain ⟨g,hs⟩ := Safe.init (β := β) ordered max
  refine ⟨rfl,g,hs,?_⟩
  constructor <;> simp [PoolState.init,Thread.calloc]

theorem PoolRun.sound {max : ℕ} (hmax : max < 2^64) {events : List (PoolEvent ι β)}
    (hrun : PoolRun ordered (.init max) events s) : PoolSound ordered max s := by
  induction hrun with
  | nil => exact PoolSound.init ordered max
  | snoc _ hstep ih => exact ih.step hmax hstep

/-! ### States without a move -/

/-- A worker without a move is asleep and has nothing to do. -/
theorem Awake.workerIdle (ha : Awake none s g) (hs : Safe ordered s g) (ht : t < s.created)
    (hstuck : actorStep ordered s (.worker t) = none) :
    (s.threads t).pc = .asleep ∧ (s.threads t).running = false := by
  simp only [actorStep,if_pos ht] at hstuck
  have hasleep : (s.threads t).pc = .asleep := by
    obtain ⟨p,hplace⟩ := hs.place_some ht
    cases hpc : (s.threads t).pc with
    | asleep => rfl
    | exited =>
      obtain ⟨o,hcarries,-⟩ := Thread.busy (hs.threads t p hplace) (by simp [hpc])
      unfold Thread.Carries at hcarries
      rw [hpc] at hcarries
      cases hcarries
    | loop =>
      simp only [workerStep,hpc] at hstuck
      split_ifs at hstuck
    | woken =>
      simp only [workerStep,hpc] at hstuck
      split at hstuck <;> cases hstuck
    | worked => simp [workerStep,hpc] at hstuck
    | detached rq => cases rq <;> simp [workerStep,hpc] at hstuck
    | enqueue h =>
      simp only [workerStep,hpc] at hstuck
      split at hstuck <;> cases hstuck
  refine ⟨hasleep,?_⟩
  by_contra hrun
  cases (ha.workers t ht hasleep (by simpa using hrun)).1

/-- So nobody is on the way to a queue. -/
theorem Awake.grounded (ha : Awake none s g) (hs : Safe ordered s g)
    (hstuck : ∀ a, actorStep ordered s a = none) (h : ι) : g.flight h = [] := by
  rw [List.eq_nil_iff_forall_not_mem]
  intro t ht
  have hplace := ((hs.handlers h).flightMem t).mp ht
  have hcreated : t < s.created := by
    rw [← not_le,← hs.created,hplace]
    simp
  obtain ⟨hasleep,hrun⟩ := ha.workerIdle hs hcreated (hstuck (.worker t))
  obtain ⟨hcarries,-⟩ : (s.threads t).Carries (some h) (g.carried t) ∧
    (s.threads t).next = none := hs.threads t _ hplace
  unfold Thread.Carries at hcarries
  rw [hasleep] at hcarries
  rcases hcarries with hgiven | ⟨-,ho,-⟩
  · cases hgiven.running.symm.trans hrun
  · cases ho

theorem Awake.resultIdle (ha : Awake none s g) (hs : Safe ordered s g)
    (hstuck : ∀ a, actorStep ordered s a = none) (h : ι) :
    s.resultWorkers h = .asleep ∨ s.resultWorkers h = .exited := by
  have hmove := hstuck (.result h)
  simp only [actorStep] at hmove
  cases hpc : s.resultWorkers h with
  | asleep => exact .inl rfl
  | exited => exact .inr rfl
  | asleepOn t =>
    have hplace := (hs.handlers h).result
    rw [hpc] at hplace
    have hcreated : t < s.created := by
      rw [← not_le,← hs.created,show g.place t = _ from hplace]
      simp
    obtain ⟨-,hrun⟩ := ha.workerIdle hs hcreated (hstuck (.worker t))
    cases (ha.taking h t hpc hrun).1
  | wait t =>
    simp only [resultStep,hpc] at hmove
    split_ifs at hmove
  | _ => simp [resultStep,hpc] at hmove

theorem Awake.queueEmpty (ha : Awake none s g) (hs : Safe ordered s g)
    (hstuck : ∀ a, actorStep ordered s a = none) (h : ι) : g.queue h = [] := by
  have hok := hs.handlers h
  rcases ha.resultIdle hs hstuck h with hasleep | hexited
  · cases hrq : s.rqs h with
    | none =>
      rw [hok.destroyed.mp hrq] at hasleep
      cases hasleep
    | some rq =>
      have hhead := (hok.rq rq hrq).linked.head_eq
      cases hqueue : g.queue h with
      | nil => rfl
      | cons t ts =>
        rw [hqueue] at hhead
        cases ha.receiving h rq hasleep hrq (.inl (by rw [hhead]; rfl))
  · exact (hok.left (.inr hexited)).2.1

/-- No thread of a crowded pool is missing: whoever has one can go on. -/
theorem Awake.noCrowd (ha : Awake none s g) (hs : Safe ordered s g) (hmax : 1 ≤ s.pool.max)
    (hstuck : ∀ a, actorStep ordered s a = none) (h : ι) (job : Job β) :
    s.dispatchers h ≠ .asleep job := by
  intro hasleep
  obtain ⟨hcount,hfree⟩ := ha.crowd h job hasleep
  have hdispatcher : ∀ h', dispatcherStep ordered s h' = none := fun h' => hstuck (.dispatcher h')
  have hwaiting : ∑ h', waiting (s.dispatchers h') = 0 := by
    refine Finset.sum_eq_zero fun h' _ => ?_
    have := hdispatcher h'
    cases hpc : s.dispatchers h' <;> simp [dispatcherStep,hpc] at this ⊢ <;> rfl
  have hcreating : ∑ h', creating (s.dispatchers h') = 0 := by
    refine Finset.sum_eq_zero fun h' _ => ?_
    have := hdispatcher h'
    cases hpc : s.dispatchers h' <;> simp [dispatcherStep,hpc] at this ⊢ <;> rfl
  have hempty : g.free = [] := by
    simp only [reduceCtorEq,if_false] at hfree
    exact List.length_eq_zero_iff.mp (by omega)
  have hthread : ∀ h' b, (s.dispatchers h').thread ≠ some (0,b) := by
    intro h' b hthread
    have := hdispatcher h'
    cases hpc : s.dispatchers h' <;> rw [hpc] at hthread <;> simp [dispatcherStep,hpc] at this
      <;> cases hthread
  have hresult : ∀ h', (s.resultWorkers h').thread ≠ some 0 := by
    intro h'
    rcases ha.resultIdle hs hstuck h' with he | he <;> rw [he] <;> simp [ResultPc.thread]
  have hcreated := hs.count
  obtain ⟨p,hplace⟩ := hs.place_some (t := 0) (by omega)
  cases p with
  | free =>
    have := (hs.freeMem 0).mpr hplace
    rw [hempty] at this
    cases this
  | got h' => exact hthread h' _ (((hs.handlers h').dispatcherHas 0).1 hplace)
  | handed h' => exact hthread h' _ (((hs.handlers h').dispatcherHas 0).2 hplace).1
  | queue h' =>
    have := ((hs.handlers h').queueMem 0).mpr hplace
    rw [ha.queueEmpty hs hstuck h'] at this
    cases this
  | popped h' => exact hresult h' ((hs.handlers h').resultHas 0 (.inl hplace))
  | took h' => exact hresult h' ((hs.handlers h').resultHas 0 (.inr hplace))
  | flight h' =>
    have := ((hs.handlers h').flightMem 0).mpr hplace
    rw [ha.grounded hs hstuck h'] at this
    cases this

/-- Where nobody can move, every call has returned. -/
theorem Awake.dispatcherIdle (ha : Awake none s g) (hs : Safe ordered s g) (hmax : 1 ≤ s.pool.max)
    (hstuck : ∀ a, actorStep ordered s a = none) (h : ι) :
    s.dispatchers h = .idle ∨ s.dispatchers h = .done := by
  have hmove := hstuck (.dispatcher h)
  simp only [actorStep] at hmove
  cases hpc : s.dispatchers h with
  | idle => exact .inl rfl
  | done => exact .inr rfl
  | asleep job => exact absurd hpc (ha.noCrowd hs hmax hstuck h job)
  | joining =>
    have hok := hs.handlers h
    rcases ha.resultIdle hs hstuck h with hasleep | hexited
    · cases hrq : s.rqs h with
      | none =>
        rw [hok.destroyed.mp hrq] at hasleep
        cases hasleep
      | some rq =>
        have hrqok := hok.rq rq hrq
        have hfinished := hrqok.finished.mpr (.inl hpc)
        have hcount := hrqok.count
        have hlt := hrqok.lt
        rw [hpc,ha.queueEmpty hs hstuck h,ha.grounded hs hstuck h] at hcount
        change (rq.nthreads+0)%_ = 0%_ at hcount
        cases ha.receiving h rq hasleep hrq (.inr ⟨hfinished,by omega⟩)
    · simp [dispatcherStep,hpc,hexited] at hmove
  | _ => simp [dispatcherStep,hpc] at hmove

/-- And every result has been delivered. -/
theorem Awake.settled (ha : Awake none s g) (hs : Safe ordered s g) (hmax : 1 ≤ s.pool.max)
    (hstuck : ∀ a, actorStep ordered s a = none) (h : ι) :
    Agrees (ordered h) ((s.calls h).map .ok) ((s.dispatched h).map Job.run) := by
  refine (hs.handlers h).account.of_eq ?_
  rw [outstanding,ha.queueEmpty hs hstuck h,ha.grounded hs hstuck h]
  have hresult : inHand g.carried (s.resultWorkers h) = [] := by
    rcases ha.resultIdle hs hstuck h with he | he <;> rw [he] <;> rfl
  have hpending : pending (ordered h) g.carried (s.dispatchers h) = [] := by
    rcases ha.dispatcherIdle hs hmax hstuck h with he | he <;> rw [he] <;> rfl
  simp [hresult,hpending]

end

end Mtbl
