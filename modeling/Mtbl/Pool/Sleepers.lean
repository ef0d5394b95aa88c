import Mtbl.Pool.Results

/-! No wakeup is lost. A move that makes the condition true that an actor sleeps on signals it, and the
signal wakes that actor, because nobody else waits there for something that has not come. -/
namespace Mtbl
open CRun LinkedList

section
variable {ι β : Type} {ordered : ι → Bool} {s s' : PoolState ι β} {g g' : Ledger ι β} {h : ι} {t : ℕ}

@[simp] theorem setNext_pc (s : PoolState ι β) (t : ℕ) (n : Option ℕ) (u : ℕ) :
    ((s.setNext t n).threads u).pc = (s.threads u).pc := by
  by_cases hu : u = t <;> simp [PoolState.setNext,PoolState.setThread,hu]

@[simp] theorem setNext_running (s : PoolState ι β) (t : ℕ) (n : Option ℕ) (u : ℕ) :
    ((s.setNext t n).threads u).running = (s.threads u).running := by
  by_cases hu : u = t <;> simp [PoolState.setNext,PoolState.setThread,hu]

/-- A result worker is not asleep on a thread elsewhere. -/
theorem Safe.not_taking [Fintype ι] (hs : Safe ordered s g) (hplace : g.place t ≠ some (.popped h)) :
    s.resultWorkers h ≠ .asleepOn t := by
  intro hasleep
  have hresult := (hs.handlers h).result
  rw [hasleep] at hresult
  exact hplace hresult

variable [DecidableEq ι]

/-- What a linked thread leaves alone. -/
theorem enqueueThread_same (s : PoolState ι β) (h : ι) (rq : Resultq) (t : ℕ) :
    (enqueueThread s h rq t).created = s.created ∧ (enqueueThread s h rq t).pool = s.pool ∧
      (enqueueThread s h rq t).dispatchers = s.dispatchers ∧
      (enqueueThread s h rq t).resultWorkers = s.resultWorkers ∧
      (enqueueThread s h rq t).dispatched = s.dispatched ∧
      (enqueueThread s h rq t).calls = s.calls ∧
      (∀ u, ((enqueueThread s h rq t).threads u).pc = (s.threads u).pc ∧
        ((enqueueThread s h rq t).threads u).running = (s.threads u).running) ∧
      ∀ h', h' ≠ h → (enqueueThread s h rq t).rqs h' = s.rqs h' := by
  unfold enqueueThread
  split
  · exact ⟨rfl,rfl,rfl,rfl,rfl,rfl,fun _ => ⟨rfl,rfl⟩,fun _ hne => Function.update_of_ne hne _ _⟩
  · exact ⟨rfl,rfl,rfl,rfl,rfl,rfl,fun u => ⟨setNext_pc s _ _ u,setNext_running s _ _ u⟩,
      fun _ hne => Function.update_of_ne hne _ _⟩

variable [Fintype ι]

variable {c : Option (Cond ι)}

/-- The dispatching threads when one of them moves on, with `n` threads in the pool. -/
theorem Awake.crowd_update (ha : Awake c s g) {pc : DispatcherPc β}
    (hnot : ∀ job, pc ≠ .asleep job) {n : ℕ}
    (hfree : n+waiting (s.dispatchers h) ≤ g.free.length+waiting pc) (h' : ι) (job : Job β)
    (hasleep : Function.update s.dispatchers h pc h' = .asleep job) :
    s.pool.count = s.pool.max ∧
      n ≤ (∑ h', waiting (Function.update s.dispatchers h pc h'))+if c = some .pool then 1 else 0 := by
  have hne : h' ≠ h := by
    rintro rfl
    rw [Function.update_self] at hasleep
    exact hnot job hasleep
  rw [Function.update_of_ne hne] at hasleep
  obtain ⟨hmax,hle⟩ := ha.crowd h' job hasleep
  have hsum := sum_update waiting s.dispatchers h pc
  exact ⟨hmax,by omega⟩

theorem Awake.setDispatcher (ha : Awake c s g) {pc : DispatcherPc β}
    (hnot : ∀ job, pc ≠ .asleep job) (hpc : waiting (s.dispatchers h) ≤ waiting pc) :
    Awake c (s.setDispatcher h pc) g where
  workers := ha.workers
  taking := ha.taking
  receiving := ha.receiving
  crowd := ha.crowd_update hnot (by omega)

/-- A move that changes neither what threads and result workers do nor a queue. -/
theorem Awake.frame (ha : Awake none s g) (hcreated : s'.created = s.created)
    (hthreads : ∀ u, (s'.threads u).pc = (s.threads u).pc ∧
      (s'.threads u).running = (s.threads u).running)
    (hresults : s'.resultWorkers = s.resultWorkers) (hrqs : s'.rqs = s.rqs)
    (hcrowd : ∀ h job, s'.dispatchers h = .asleep job → s'.pool.count = s'.pool.max ∧
      g'.free.length ≤ (∑ h, waiting (s'.dispatchers h))+if c = some .pool then 1 else 0) :
    Awake c s' g' where
  workers u hu hpc hrunning := by
    rw [(hthreads u).1] at hpc
    rw [(hthreads u).2] at hrunning
    cases (ha.workers u (hcreated ▸ hu) hpc hrunning).1
  taking h u hasleep hrunning := by
    rw [(hthreads u).2] at hrunning
    cases (ha.taking h u (hresults ▸ hasleep) hrunning).1
  receiving h rq hasleep hrq hready := by
    cases ha.receiving h rq (hresults ▸ hasleep) (hrqs ▸ hrq) hready
  crowd := hcrowd

/-- A new thread is not asleep. -/
theorem Awake.create (ha : Awake none s g)
    (hnot : ∀ h', s.resultWorkers h' ≠ .asleepOn s.created) (hfree : g'.free = g.free) :
    Awake none (({ s with created := s.created+1 }).setThread s.created .calloc) g' where
  workers u hu hasleep hrunning := by
    by_cases hut : u = s.created
    · subst hut
      simp [PoolState.setThread,Thread.calloc] at hasleep
    · simp only [PoolState.setThread,Function.update_of_ne hut] at *
      cases (ha.workers u (by omega) hasleep hrunning).1
  taking h' u hasleep hrunning := by
    have hut : u ≠ s.created := by
      rintro rfl
      exact hnot h' hasleep
    simp only [PoolState.setThread,Function.update_of_ne hut] at hrunning
    cases (ha.taking h' u hasleep hrunning).1
  receiving := ha.receiving
  crowd := hfree ▸ ha.crowd

/-- A thread that starts or stops running is signalled. -/
theorem Awake.setThread (ha : Awake none s g) {th : Thread ι β} (hc : c ≠ some .pool)
    (hworker : th.pc = .asleep → th.running = true →
      c = some (.thread t) ∧ ∀ h, s.resultWorkers h ≠ .asleepOn t)
    (htaking : ∀ h, s.resultWorkers h = .asleepOn t → th.running = false →
      c = some (.thread t) ∧ th.pc ≠ .asleep) (hfree : g'.free = g.free) :
    Awake c (s.setThread t th) g' where
  workers u hu hasleep hrun := by
    by_cases hut : u = t
    · subst hut
      simp only [PoolState.setThread,Function.update_self] at hasleep hrun
      exact hworker hasleep hrun
    · simp only [PoolState.setThread,Function.update_of_ne hut] at hasleep hrun
      cases (ha.workers u hu hasleep hrun).1
  taking h' u hasleep hrun := by
    by_cases hut : u = t
    · subst hut
      simp only [PoolState.setThread,Function.update_self] at hrun ⊢
      exact htaking h' hasleep hrun
    · simp only [PoolState.setThread,Function.update_of_ne hut] at hrun
      cases (ha.taking h' u hasleep hrun).1
  receiving h' rq hasleep hrq hready := by
    cases ha.receiving h' rq hasleep hrq hready
  crowd h' job hasleep := by
    have := ha.crowd h' job hasleep
    simp only [reduceCtorEq,if_false] at this
    rw [if_neg hc,hfree]
    exact this

/-- Who makes a queue ready signals it. -/
theorem Awake.setRq (ha : Awake none s g) {rq : Resultq} {rq' : Option Resultq}
    (hrq : s.rqs h = some rq) (hc : c ≠ some .pool)
    (hready : ∀ r, rq' = some r → r.head.isSome ∨ r.finished = true ∧ r.nthreads = 0 →
      (rq.head.isSome ∨ rq.finished = true ∧ rq.nthreads = 0) ∨ c = some (.rq h)) :
    Awake c (s.setRq h rq') g where
  workers u hu hasleep hrun := by
    cases (ha.workers u hu hasleep hrun).1
  taking h' u hasleep hrun := by
    cases (ha.taking h' u hasleep hrun).1
  receiving h' rq1 hasleep hrq1 hready1 := by
    by_cases hne : h' = h
    · subst hne
      rw [PoolState.rqs_setRq] at hrq1
      rcases hready rq1 hrq1 hready1 with hold | hc
      · cases ha.receiving h' rq hasleep hrq hold
      · exact hc
    · simp only [PoolState.setRq,Function.update_of_ne hne] at hrq1
      cases ha.receiving h' rq1 hasleep hrq1 hready1
  crowd h' job hasleep := by
    have := ha.crowd h' job hasleep
    simp only [reduceCtorEq,if_false] at this
    rw [if_neg hc]
    exact this

/-- Linking a thread makes the queue ready. -/
theorem Awake.link (ha : Awake none s g) (rq : Resultq) :
    Awake (some (.rq h)) (enqueueThread s h rq t) g := by
  obtain ⟨hcreated,hpool,hdispatchers,hresults,-,-,hthreads,hrqs⟩ := enqueueThread_same s h rq t
  constructor
  · intro u hu hasleep hrun
    rw [(hthreads u).1] at hasleep
    rw [(hthreads u).2] at hrun
    cases (ha.workers u (hcreated ▸ hu) hasleep hrun).1
  · intro h' u hasleep hrun
    rw [(hthreads u).2] at hrun
    cases (ha.taking h' u (hresults ▸ hasleep) hrun).1
  · intro h' rq1 hasleep hrq1 hready1
    by_cases hne : h' = h
    · rw [hne]
    · rw [hrqs h' hne] at hrq1
      cases ha.receiving h' rq1 (hresults ▸ hasleep) hrq1 hready1
  · intro h' job hasleep
    rw [hdispatchers] at hasleep ⊢
    rw [hpool]
    have := ha.crowd h' job hasleep
    simp only [reduceCtorEq,if_false] at this
    exact this

/-- A result worker goes on; it only sleeps where it has to. -/
theorem Awake.setResult (ha : Awake c s g) {pc : ResultPc β}
    (hqueue : pc = .asleep → ∀ rq, s.rqs h = some rq →
      ¬ (rq.head.isSome ∨ rq.finished = true ∧ rq.nthreads = 0))
    (hthread : ∀ t, pc = .asleepOn t → (s.threads t).running = true ∧ (s.threads t).pc ≠ .asleep) :
    Awake c (s.setResult h pc) g where
  workers u hu hasleep hrun := by
    obtain ⟨hc,hnot⟩ := ha.workers u hu hasleep hrun
    refine ⟨hc,fun h' hasleep' => ?_⟩
    by_cases hne : h' = h
    · subst hne
      rw [PoolState.resultWorkers_setResult] at hasleep'
      exact (hthread u hasleep').2 hasleep
    · simp only [PoolState.setResult,Function.update_of_ne hne] at hasleep'
      exact hnot h' hasleep'
  taking h' u hasleep hrun := by
    by_cases hne : h' = h
    · subst hne
      rw [PoolState.resultWorkers_setResult] at hasleep
      have := (hthread u hasleep).1
      rw [show (s.threads u).running = false from hrun] at this
      cases this
    · simp only [PoolState.setResult,Function.update_of_ne hne] at hasleep
      exact ha.taking h' u hasleep hrun
  receiving h' rq hasleep hrq hready := by
    by_cases hne : h' = h
    · subst hne
      rw [PoolState.resultWorkers_setResult] at hasleep
      exact absurd hready (hqueue hasleep rq hrq)
    · simp only [PoolState.setResult,Function.update_of_ne hne] at hasleep
      exact ha.receiving h' rq hasleep hrq hready
  crowd := ha.crowd

end

end Mtbl
