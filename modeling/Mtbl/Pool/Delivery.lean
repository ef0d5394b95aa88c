import Mtbl.Pool.Potential

/-! What the pool promises to its handlers, for every run. -/
namespace Mtbl
open CRun LinkedList

section
variable {ι β : Type} {ordered : ι → Bool} {s s' : PoolState ι β} {g : Ledger ι β} {h : ι}

/-- A handler whose result worker is done has nothing outstanding. -/
theorem HandlerOk.outstanding_left (hok : HandlerOk ordered s g h)
    (hleft : (s.resultWorkers h).Left) : outstanding (ordered h) s g h = [] := by
  obtain ⟨hfinishing,hqueue,hflight⟩ := hok.left hleft
  rw [outstanding,hqueue,hflight]
  have hhand : inHand g.carried (s.resultWorkers h) = [] := by
    rcases hleft with he | he <;> rw [he] <;> rfl
  have hpending : pending (ordered h) g.carried (s.dispatchers h) = [] := by
    rcases hfinishing with he | he <;> rw [he] <;> rfl
  simp [hhand,hpending]

/-- When as many results have been delivered as jobs dispatched, the result worker holds none. -/
theorem HandlerOk.outstanding_nil (hok : HandlerOk ordered s g h)
    (hall : (s.calls h).length = (s.dispatched h).length) : outstanding (ordered h) s g h = [] := by
  have hlength := hok.account.1.length_eq
  simp only [List.length_append,List.length_map] at hlength
  exact List.length_eq_zero_iff.mp (by omega)

/-- `result_handler_destroy` has been called. -/
def DispatcherPc.Ending : DispatcherPc β → Prop
  | .finish | .joining | .done => True
  | _ => False

/-- A signal that nobody waits for. -/
theorem lost_pool (hidle : ∀ h, s.dispatchers h = .idle) (a : Actor ι) :
    sleepsOn s a ≠ some .pool := by
  cases a with
  | dispatcher h => simp [sleepsOn,hidle h]
  | result h => cases hpc : s.resultWorkers h <;> simp [sleepsOn,hpc]
  | worker t => cases hpc : (s.threads t).pc <;> simp [sleepsOn,hpc]

theorem lost_rq (hawake : s.resultWorkers h ≠ .asleep) (a : Actor ι) :
    sleepsOn s a ≠ some (.rq h) := by
  cases a with
  | dispatcher h' => cases hpc : s.dispatchers h' <;> simp [sleepsOn,hpc]
  | result h' =>
    intro hsleeps
    cases hpc : s.resultWorkers h' with
    | asleep =>
      simp only [sleepsOn,hpc,Option.some.injEq,Cond.rq.injEq] at hsleeps
      exact hawake (hsleeps ▸ hpc)
    | _ => simp [sleepsOn,hpc] at hsleeps
  | worker t => cases hpc : (s.threads t).pc <;> simp [sleepsOn,hpc]

theorem lost_thread {t : ℕ} (hawake : (s.threads t).pc ≠ .asleep)
    (hresults : ∀ h, s.resultWorkers h ≠ .asleepOn t) (a : Actor ι) :
    sleepsOn s a ≠ some (.thread t) := by
  cases a with
  | dispatcher h' => cases hpc : s.dispatchers h' <;> simp [sleepsOn,hpc]
  | result h' =>
    intro hsleeps
    cases hpc : s.resultWorkers h' with
    | asleepOn u =>
      simp only [sleepsOn,hpc,Option.some.injEq,Cond.thread.injEq] at hsleeps
      exact hresults h' (hsleeps ▸ hpc)
    | _ => simp [sleepsOn,hpc] at hsleeps
  | worker u =>
    intro hsleeps
    cases hpc : (s.threads u).pc with
    | asleep =>
      simp only [sleepsOn,hpc] at hsleeps
      split_ifs at hsleeps
      obtain rfl := Cond.thread.inj (Option.some.inj hsleeps)
      exact hawake hpc
    | _ => simp [sleepsOn,hpc] at hsleeps

variable [DecidableEq ι]

/-- The job that an event dispatches on the handler. -/
def PoolEvent.jobFor (h : ι) : PoolEvent ι β → Option (Job β)
  | .dispatch h' job => if h' = h then some job else none
  | _ => none

theorem wake_dispatched (s : PoolState ι β) (a : Actor ι) :
    (wake s a).dispatched = s.dispatched := by
  unfold wake
  cases a with
  | dispatcher h =>
    dsimp only
    split <;> rfl
  | result h =>
    dsimp only
    split <;> rfl
  | worker t => rfl

theorem Signalled.dispatched {c : Option (Cond ι)} (hsignal : Signalled s c s') :
    s'.dispatched = s.dispatched := by
  cases hsignal with
  | quiet => rfl
  | wakes _ => exact wake_dispatched s _
  | lost _ => rfl

/-- What the event calls the callback of the handler with. -/
def callbacks (s : PoolState ι β) (h : ι) : PoolEvent ι β → List (Option β)
  | .move (.result h') =>
    match s.resultWorkers h' with
    | .deliver res => if h' = h then [res] else []
    | _ => []
  | _ => []

/-- The event is no call by the handler's dispatching thread and not its callback. -/
def Outside (s : PoolState ι β) (h : ι) : PoolEvent ι β → Prop
  | .dispatch h' _ | .destroy h' => h' ≠ h
  | .move (.result h') => h' = h → ∀ res, s.resultWorkers h ≠ .deliver res
  | _ => True

theorem Outside.callbacks {event : PoolEvent ι β} (hout : Outside s h event) :
    Mtbl.callbacks s h event = [] := by
  cases event with
  | move a =>
    cases a with
    | result h' =>
      simp only [Mtbl.callbacks]
      split
      · next res hres =>
        rw [if_neg]
        rintro rfl
        exact hout rfl res hres
      · rfl
    | dispatcher h' => rfl
    | worker t => rfl
  | dispatch h' job => rfl
  | destroy h' => rfl
  | spurious a => rfl

theorem Outside.jobFor {event : PoolEvent ι β} (hout : Outside s h event) :
    PoolEvent.jobFor h event = none := by
  cases event with
  | dispatch h' job => exact if_neg hout
  | destroy h' => rfl
  | move a => rfl
  | spurious a => rfl

theorem wake_calls (s : PoolState ι β) (a : Actor ι) : (wake s a).calls = s.calls := by
  unfold wake
  cases a with
  | dispatcher h =>
    dsimp only
    split <;> rfl
  | result h =>
    dsimp only
    split <;> rfl
  | worker t => rfl

theorem Signalled.calls {c : Option (Cond ι)} (hsignal : Signalled s c s') : s'.calls = s.calls := by
  cases hsignal with
  | quiet => rfl
  | wakes _ => exact wake_calls s _
  | lost _ => rfl

/-- A move of a dispatching thread calls no callback and leaves the result workers where they are, and
none but `result_handler_destroy` leads to the end of the handler. -/
theorem dispatcherStep_same {m : Moved ι β} (hstep : dispatcherStep ordered s h = some (.ok m)) :
    m.state.calls = s.calls ∧ m.state.resultWorkers = s.resultWorkers ∧
      ∃ pc, m.state.dispatchers = Function.update s.dispatchers h pc ∧
        (pc.Ending → (s.dispatchers h).Ending) := by
  cases hpc : s.dispatchers h with
  | idle => simp [dispatcherStep,hpc] at hstep
  | asleep job => simp [dispatcherStep,hpc] at hstep
  | done => simp [dispatcherStep,hpc] at hstep
  | next job =>
    simp only [dispatcherStep,hpc,Option.some.injEq,threadpoolNext] at hstep
    split at hstep
    · obtain ⟨_,-,hstep⟩ := bind_eq_ok.mp hstep
      obtain ⟨_,-,hstep⟩ := bind_eq_ok.mp hstep
      obtain ⟨_,-,hstep⟩ := bind_eq_ok.mp hstep
      obtain rfl := Except.ok.inj hstep
      exact ⟨rfl,rfl,_,rfl,False.elim⟩
    · split_ifs at hstep
      · obtain rfl := Except.ok.inj hstep
        exact ⟨rfl,rfl,_,rfl,False.elim⟩
      · obtain rfl := Except.ok.inj hstep
        exact ⟨rfl,rfl,_,rfl,False.elim⟩
  | create job =>
    simp only [dispatcherStep,hpc,Option.some.injEq] at hstep
    obtain rfl := Except.ok.inj hstep
    exact ⟨rfl,rfl,_,rfl,False.elim⟩
  | got job t =>
    simp only [dispatcherStep,hpc,Option.some.injEq] at hstep
    obtain ⟨_,-,hstep⟩ := bind_eq_ok.mp hstep
    obtain ⟨_,-,hstep⟩ := bind_eq_ok.mp hstep
    obtain rfl := Except.ok.inj hstep
    exact ⟨rfl,rfl,_,rfl,False.elim⟩
  | checked job t =>
    simp only [dispatcherStep,hpc,Option.some.injEq] at hstep
    obtain rfl := Except.ok.inj hstep
    exact ⟨rfl,rfl,_,rfl,False.elim⟩
  | handed t =>
    simp only [dispatcherStep,hpc,Option.some.injEq,countDispatched] at hstep
    split at hstep
    · cases hstep
    · obtain ⟨_,-,hstep⟩ := bind_eq_ok.mp hstep
      split_ifs at hstep
      · obtain rfl := Except.ok.inj hstep
        obtain ⟨-,-,hsame,hresult,-,hcalls,-⟩ := enqueueThread_same s h _ t
        exact ⟨hcalls,hresult,.idle,hsame ▸ rfl,False.elim⟩
      · obtain rfl := Except.ok.inj hstep
        exact ⟨rfl,rfl,_,rfl,False.elim⟩
  | finish =>
    simp only [dispatcherStep,hpc,Option.some.injEq,resultqFinish] at hstep
    split at hstep
    · cases hstep
    · obtain rfl := Except.ok.inj hstep
      exact ⟨rfl,rfl,_,rfl,fun _ => trivial⟩
  | joining =>
    simp only [dispatcherStep,hpc] at hstep
    split at hstep
    · obtain rfl := Except.ok.inj (Option.some.inj hstep)
      exact ⟨rfl,rfl,_,rfl,fun _ => trivial⟩
    · cases hstep

theorem workerStep_same {t : ℕ} {m : Moved ι β} (hstep : workerStep s t = some (.ok m)) :
    m.state.calls = s.calls ∧ m.state.resultWorkers = s.resultWorkers ∧
      m.state.dispatchers = s.dispatchers := by
  simp only [workerStep] at hstep
  split at hstep
  · cases hstep
  · cases hstep
  · split_ifs at hstep
    · obtain rfl := Except.ok.inj (Option.some.inj hstep)
      exact ⟨rfl,rfl,rfl⟩
    · obtain rfl := Except.ok.inj (Option.some.inj hstep)
      exact ⟨rfl,rfl,rfl⟩
  · split at hstep
    · obtain rfl := Except.ok.inj (Option.some.inj hstep)
      exact ⟨rfl,rfl,rfl⟩
    · obtain ⟨_,-,hstep⟩ := bind_eq_ok.mp (Option.some.inj hstep)
      obtain rfl := Except.ok.inj hstep
      exact ⟨rfl,rfl,rfl⟩
  · obtain rfl := Except.ok.inj (Option.some.inj hstep)
    exact ⟨rfl,rfl,rfl⟩
  · obtain rfl := Except.ok.inj (Option.some.inj hstep)
    exact ⟨rfl,rfl,rfl⟩
  · obtain rfl := Except.ok.inj (Option.some.inj hstep)
    exact ⟨rfl,rfl,rfl⟩
  · split at hstep
    · cases hstep
    · obtain rfl := Except.ok.inj (Option.some.inj hstep)
      obtain ⟨-,-,hsame,hresult,-,hcalls,-⟩ := enqueueThread_same (s.setThread t _) _ _ t
      exact ⟨hcalls,hresult,hsame⟩

theorem resultStep_same {h' : ι} {m : Moved ι β} (hstep : resultStep s h' = some (.ok m)) :
    (∀ h, m.state.calls h = s.calls h++callbacks s h (.move (.result h'))) ∧
      m.state.dispatchers = s.dispatchers ∧
      ∀ h, h ≠ h' → m.state.resultWorkers h = s.resultWorkers h := by
  have hset (s1 : PoolState ι β) (pc : ResultPc β) (h : ι) (hne : h ≠ h') :
      (s1.setResult h' pc).resultWorkers h = s1.resultWorkers h := Function.update_of_ne hne _ _
  cases hpc : s.resultWorkers h' with
  | deliver res =>
    simp only [resultStep,hpc,Option.some.injEq] at hstep
    obtain rfl := Except.ok.inj hstep
    refine ⟨fun h => ?_,rfl,hset _ _⟩
    simp only [callbacks,hpc,PoolState.setResult]
    by_cases hne : h' = h
    · rw [if_pos hne,hne,Function.update_self]
    · rw [if_neg hne,Function.update_of_ne (Ne.symm hne),List.append_nil]
  | asleep => simp [resultStep,hpc] at hstep
  | asleepOn t => simp [resultStep,hpc] at hstep
  | exited => simp [resultStep,hpc] at hstep
  | loop =>
    simp only [resultStep,hpc,Option.some.injEq,resultqNext] at hstep
    simp only [callbacks,hpc,List.append_nil]
    split at hstep
    · cases hstep
    · split at hstep
      · obtain rfl := Except.ok.inj hstep
        exact ⟨fun _ => rfl,rfl,hset _ _⟩
      · split_ifs at hstep
        · obtain rfl := Except.ok.inj hstep
          exact ⟨fun _ => rfl,rfl,hset _ _⟩
        · obtain rfl := Except.ok.inj hstep
          exact ⟨fun _ => rfl,rfl,hset _ _⟩
  | wait t =>
    simp only [resultStep,hpc] at hstep
    simp only [callbacks,hpc,List.append_nil]
    split_ifs at hstep
    · obtain rfl := Except.ok.inj (Option.some.inj hstep)
      exact ⟨fun _ => rfl,rfl,hset _ _⟩
    · obtain rfl := Except.ok.inj (Option.some.inj hstep)
      exact ⟨fun _ => rfl,rfl,hset _ _⟩
  | took t res =>
    simp only [resultStep,hpc,Option.some.injEq] at hstep
    obtain rfl := Except.ok.inj hstep
    simp only [callbacks,hpc,List.append_nil]
    exact ⟨fun _ => rfl,rfl,hset _ _⟩
  | leaving =>
    simp only [resultStep,hpc,Option.some.injEq,resultqDestroy] at hstep
    simp only [callbacks,hpc,List.append_nil]
    split at hstep
    · cases hstep
    · obtain ⟨_,-,hstep⟩ := bind_eq_ok.mp hstep
      obtain rfl := Except.ok.inj hstep
      exact ⟨fun _ => rfl,rfl,hset _ _⟩

theorem resultStep_deliver {res : Option β} (hpc : s.resultWorkers h = .deliver res) :
    resultStep s h = some (.ok ⟨({ s with
      calls := Function.update s.calls h (s.calls h++[res]) }).setResult h .loop,none⟩) := by
  rw [resultStep,hpc]

/-- A signal is given whether or not it wakes anybody. -/
theorem exists_signalled (s : PoolState ι β) (c : Option (Cond ι)) : ∃ s', Signalled s c s' := by
  cases c with
  | none => exact ⟨s,.quiet⟩
  | some c =>
    by_cases hsleeps : ∃ a, sleepsOn s a = some c
    · obtain ⟨a,ha⟩ := hsleeps
      exact ⟨_,.wakes ha⟩
    · exact ⟨s,.lost (fun a ha => hsleeps ⟨a,ha⟩)⟩

/-- The callback is called in one move of the result worker and in no other event. -/
theorem PoolStep.calls {event : PoolEvent ι β} (hstep : PoolStep ordered s event (.ok s')) (h : ι) :
    s'.calls h = s.calls h++callbacks s h event := by
  cases hstep with
  | dispatch idle => exact (List.append_nil _).symm
  | destroy idle => exact (List.append_nil _).symm
  | @move a m _ hmove hsignal =>
    rw [hsignal.calls]
    cases a with
    | dispatcher h' =>
      rw [(dispatcherStep_same hmove).1]
      exact (List.append_nil _).symm
    | result h' => exact (resultStep_same hmove).1 h
    | worker t =>
      simp only [actorStep] at hmove
      split_ifs at hmove
      rw [(workerStep_same hmove).1]
      exact (List.append_nil _).symm
  | spurious hsleeps =>
    rw [wake_calls]
    exact (List.append_nil _).symm

/-- A wakeup does not move a result worker that is in the callback. -/
theorem wake_deliver {res : Option β} (a : Actor ι) (hres : s.resultWorkers h = .deliver res) :
    (wake s a).resultWorkers h = .deliver res := by
  unfold wake
  cases a with
  | dispatcher h' =>
    dsimp only
    split <;> exact hres
  | result h' =>
    by_cases hne : h = h'
    · subst hne
      simp only [hres]
    · have hset (pc : ResultPc β) : (s.setResult h' pc).resultWorkers h = .deliver res :=
        (Function.update_of_ne hne _ _).trans hres
      dsimp only
      split
      · exact hset _
      · exact hset _
      · exact hres
  | worker t => exact hres

theorem Signalled.deliver {c : Option (Cond ι)} (hsignal : Signalled s c s') {res : Option β}
    (hres : s.resultWorkers h = .deliver res) : s'.resultWorkers h = .deliver res := by
  cases hsignal with
  | quiet => exact hres
  | wakes _ => exact wake_deliver _ hres
  | lost _ => exact hres

/-- The result worker stays in the callback until the callback returns. -/
theorem PoolStep.deliver {event : PoolEvent ι β} (hstep : PoolStep ordered s event (.ok s'))
    (hout : Outside s h event) {res : Option β} (hres : s.resultWorkers h = .deliver res) :
    s'.resultWorkers h = .deliver res := by
  cases hstep with
  | dispatch idle => exact hres
  | destroy idle => exact hres
  | @move a m _ hmove hsignal =>
    apply hsignal.deliver
    cases a with
    | dispatcher h' => rwa [(dispatcherStep_same hmove).2.1]
    | result h' =>
      have hne : h ≠ h' := fun heq => hout heq.symm res hres
      rwa [(resultStep_same hmove).2.2 h hne]
    | worker t =>
      simp only [actorStep] at hmove
      split_ifs at hmove
      rwa [(workerStep_same hmove).2.1]
  | spurious hsleeps => exact wake_deliver _ hres

theorem wake_ending (a : Actor ι) (h : ι) (hending : ((wake s a).dispatchers h).Ending) :
    (s.dispatchers h).Ending := by
  unfold wake at hending
  cases a with
  | dispatcher h' =>
    dsimp only at hending
    split at hending
    · simp only [PoolState.setDispatcher] at hending
      by_cases hne : h = h'
      · rw [hne,Function.update_self] at hending
        exact hending.elim
      · rwa [Function.update_of_ne hne] at hending
    · exact hending
  | result h' =>
    dsimp only at hending
    split at hending <;> exact hending
  | worker t => exact hending

theorem Signalled.ending {c : Option (Cond ι)} (hsignal : Signalled s c s') (h : ι)
    (hending : (s'.dispatchers h).Ending) : (s.dispatchers h).Ending := by
  cases hsignal with
  | quiet => exact hending
  | wakes _ => exact wake_ending _ h hending
  | lost _ => exact hending

/-- Only a call of `result_handler_destroy` leads to the end of a handler. -/
theorem PoolStep.ending {event : PoolEvent ι β} (hstep : PoolStep ordered s event (.ok s')) (h : ι)
    (hending : (s'.dispatchers h).Ending) : (s.dispatchers h).Ending ∨ event = .destroy h := by
  cases hstep with
  | @dispatch h' job idle =>
    left
    simp only [PoolState.setDispatcher] at hending
    by_cases hne : h = h'
    · rw [hne,Function.update_self] at hending
      exact hending.elim
    · rwa [Function.update_of_ne hne] at hending
  | @destroy h' idle =>
    simp only [PoolState.setDispatcher] at hending
    by_cases hne : h = h'
    · exact .inr (by rw [hne])
    · rw [Function.update_of_ne hne] at hending
      exact .inl hending
  | @move a m _ hmove hsignal =>
    left
    have hmoved := hsignal.ending h hending
    cases a with
    | dispatcher h' =>
      obtain ⟨-,-,pc,hsame,hkeep⟩ := dispatcherStep_same hmove
      rw [hsame] at hmoved
      by_cases hne : h = h'
      · rw [hne,Function.update_self] at hmoved
        exact hne ▸ hkeep hmoved
      · rwa [Function.update_of_ne hne] at hmoved
    | result h' => rwa [(resultStep_same hmove).2.1] at hmoved
    | worker t =>
      simp only [actorStep] at hmove
      split_ifs at hmove
      rwa [(workerStep_same hmove).2.2] at hmoved
  | spurious hsleeps => exact .inl (wake_ending _ h hending)

variable [Fintype ι]

/-- After these events: faults of a move are the faults of a dispatched job's callback, and none of an
assertion of the pool. Results are delivered at most once, and in order if the handler is ordered. A
result worker leaves its loop only when all have been. Moves end, and when no actor has one left, all
calls have returned and every result has been delivered. -/
structure Delivery (ordered : ι → Bool) (events : List (PoolEvent ι β)) (s : PoolState ι β) : Prop where
  jobs : ∀ h, s.dispatched h = events.filterMap (PoolEvent.jobFor h)
  asserts : ∀ a e, actorStep ordered s a = some (.error e) →
    ∃ h, ∃ job ∈ s.dispatched h, job.run = .error e
  once : ∀ h, ((s.calls h).map .ok).Subperm ((s.dispatched h).map Job.run)
  inOrder : ∀ h, ordered h = true → (s.calls h).map .ok <+: (s.dispatched h).map Job.run
  left : ∀ h, (s.resultWorkers h).Left →
    Agrees (ordered h) ((s.calls h).map .ok) ((s.dispatched h).map Job.run)
  ends : (events.map PoolEvent.moves).sum ≤ 2*Fintype.card ι+(events.map PoolEvent.budget).sum
  settled : (∀ a, actorStep ordered s a = none) → ∀ h,
    (s.dispatchers h = .idle ∨ s.dispatchers h = .done) ∧
      Agrees (ordered h) ((s.calls h).map .ok) ((s.dispatched h).map Job.run)

theorem PoolRun.jobs {max : ℕ} (hmax : max < 2^64) {events : List (PoolEvent ι β)}
    (hrun : PoolRun ordered (.init max) events s) (h : ι) :
    s.dispatched h = events.filterMap (PoolEvent.jobFor h) := by
  induction hrun with
  | nil => rfl
  | @snoc s1 s2 events event hrun hstep ih =>
    rw [List.filterMap_append,← ih]
    obtain ⟨hpool,g,hs,-⟩ := hrun.sound hmax
    cases hstep with
    | @dispatch h' job idle =>
      by_cases hne : h' = h
      · subst hne
        simp [PoolState.setDispatcher,PoolEvent.jobFor]
      · simp [PoolState.setDispatcher,PoolEvent.jobFor,hne,Function.update_of_ne (Ne.symm hne)]
    | destroy idle => simp [PoolState.setDispatcher,PoolEvent.jobFor]
    | move hmove hsignal =>
      rcases hs.actorStep (hpool ▸ hmax) hmove with ⟨m,hm,hdispatched,-⟩ | ⟨e,h,job,-,-,he⟩
      · obtain rfl := Except.ok.inj hm
        simp [hsignal.dispatched,hdispatched,PoolEvent.jobFor]
      · cases he
    | spurious hsleeps => simp [wake_dispatched,PoolEvent.jobFor]

theorem PoolRun.dispatched_step {max : ℕ} (hmax : max < 2^64) {events : List (PoolEvent ι β)}
    {event : PoolEvent ι β} (hrun : PoolRun ordered (.init max) events s)
    (hstep : PoolStep ordered s event (.ok s')) (h : ι) :
    s'.dispatched h = s.dispatched h++(PoolEvent.jobFor h event).toList := by
  rw [(hrun.snoc hstep).jobs hmax h,hrun.jobs hmax h,List.filterMap_append]
  cases hjob : PoolEvent.jobFor h event <;> simp [hjob]

/-- No more results are delivered than jobs dispatched. -/
theorem PoolSound.calls_le {max : ℕ} (hsound : PoolSound ordered max s) (h : ι) :
    (s.calls h).length ≤ (s.dispatched h).length := by
  obtain ⟨-,g,hs,-⟩ := hsound
  have hlength := (hs.handlers h).account.1.length_eq
  simp only [List.length_append,List.length_map] at hlength
  omega

/-- With all results delivered there is none to deliver. -/
theorem PoolSound.not_deliver {max : ℕ} (hsound : PoolSound ordered max s)
    (hall : (s.calls h).length = (s.dispatched h).length) (res : Option β) :
    s.resultWorkers h ≠ .deliver res := by
  intro hpc
  obtain ⟨-,g,hs,-⟩ := hsound
  have hnil := (hs.handlers h).outstanding_nil hall
  rw [outstanding,hpc] at hnil
  cases hnil

/-- Behind `result_handler_destroy` everything is delivered. -/
theorem PoolSound.all_delivered {max : ℕ} (hsound : PoolSound ordered max s)
    (hdone : s.dispatchers h = .done) : (s.calls h).length = (s.dispatched h).length := by
  obtain ⟨-,g,hs,-⟩ := hsound
  have hok := hs.handlers h
  have hnil := hok.outstanding_left (.inr (hok.done hdone))
  have hlength := hok.account.1.length_eq
  rwa [hnil,List.append_nil,List.length_map,List.length_map] at hlength

/-- Without anything outstanding the callbacks are the results of the jobs. -/
theorem PoolSound.delivered {max : ℕ} (hsound : PoolSound ordered max s)
    (hall : (s.calls h).length = (s.dispatched h).length) :
    ((s.calls h).map .ok).Perm ((s.dispatched h).map Job.run) := by
  obtain ⟨-,g,hs,-⟩ := hsound
  have haccount := (hs.handlers h).account.1
  rwa [(hs.handlers h).outstanding_nil hall,List.append_nil] at haccount

theorem pool_delivers {max : ℕ} (hpos : 1 ≤ max) (hmax : max < 2^64)
    {events : List (PoolEvent ι β)} (hrun : PoolRun ordered (.init max) events s) :
    Delivery ordered events s := by
  obtain ⟨hpool,g,hs,ha⟩ := hrun.sound hmax
  constructor
  · exact hrun.jobs hmax
  · intro a e hstep
    rcases hs.actorStep (hpool ▸ hmax) hstep with ⟨m,hm,-⟩ | ⟨e',h,job,hmem,hjob,he⟩
    · cases hm
    · obtain rfl := Except.error.inj he
      exact ⟨h,job,hmem,hjob⟩
  · intro h
    exact (List.sublist_append_left _ _).subperm.trans (hs.handlers h).account.1.subperm
  · intro h ho
    rw [← (hs.handlers h).account.2 ho]
    exact List.prefix_append _ _
  · intro h hleft
    refine (hs.handlers h).account.of_eq ?_
    rw [(hs.handlers h).outstanding_left hleft,List.append_nil]
  · exact (Nat.le_add_left _ _).trans (hrun.bounded hmax)
  · intro hstuck h
    exact ⟨ha.dispatcherIdle hs (hpool ▸ hpos) hstuck h,ha.settled hs (hpool ▸ hpos) hstuck h⟩

end

/-- Two jobs on a pool of two threads. The second one is finished first and delivered last. -/
theorem pool_delivers_two : ∃ (events : List (PoolEvent Unit ℕ)) (s : PoolState Unit ℕ),
    s.calls () = [some 7,some 8] ∧ (s.resultWorkers ()).Left ∧
      Delivery (fun _ => true) events s := by
  have hfirst := ((((((((@PoolRun.nil Unit ℕ _ (fun _ => true)
    (.init 2)).snoc (@PoolStep.dispatch Unit ℕ _ _ _ () ⟨.ok,some 7⟩ rfl)).snoc
    (.move (a := .dispatcher ()) rfl .quiet)).snoc
    (.move (a := .dispatcher ()) rfl .quiet)).snoc
    (.move (a := .dispatcher ()) rfl .quiet)).snoc
    (.move (a := .worker 0) rfl .quiet)).snoc
    (.move (a := .dispatcher ()) rfl (.wakes (a := .worker 0) rfl))).snoc
    (.move (a := .result ()) rfl .quiet)).snoc
    (.move (a := .dispatcher ()) rfl (.wakes (a := .result ()) rfl))
  have hsecond := ((((((((hfirst.snoc (@PoolStep.dispatch Unit ℕ _ _ _ () ⟨.ok,some 8⟩ rfl)).snoc
    (.move (a := .dispatcher ()) rfl .quiet)).snoc
    (.move (a := .dispatcher ()) rfl .quiet)).snoc
    (.move (a := .dispatcher ()) rfl .quiet)).snoc
    (.move (a := .worker 1) rfl .quiet)).snoc
    (.move (a := .dispatcher ()) rfl (.wakes (a := .worker 1) rfl))).snoc
    (.move (a := .result ()) rfl .quiet)).snoc
    (.move (a := .result ()) rfl .quiet)).snoc
    (.move (a := .dispatcher ()) rfl (.lost (lost_rq (fun h => by cases h))))
  have hfinished := (((((((hsecond.snoc
    (.move (a := .worker 1) rfl .quiet)).snoc
    (.move (a := .worker 1) rfl .quiet)).snoc
    (.move (a := .worker 1) rfl .quiet)).snoc
    (.move (a := .worker 1) rfl (.lost (lost_thread (fun h => by cases h)
      (fun _ h => by cases h))))).snoc
    (.move (a := .worker 0) rfl .quiet)).snoc
    (.move (a := .worker 0) rfl .quiet)).snoc
    (.move (a := .worker 0) rfl .quiet)).snoc
    (.move (a := .worker 0) rfl (.wakes (a := .result ()) rfl))
  have hrun := (((((((((((hfinished.snoc
    (.move (a := .result ()) rfl .quiet)).snoc
    (.move (a := .result ()) rfl (.lost (lost_pool fun _ => rfl)))).snoc
    (.move (a := .result ()) rfl .quiet)).snoc
    (.move (a := .result ()) rfl .quiet)).snoc
    (.move (a := .result ()) rfl .quiet)).snoc
    (.move (a := .result ()) rfl (.lost (lost_pool fun _ => rfl)))).snoc
    (.move (a := .result ()) rfl .quiet)).snoc
    (.move (a := .result ()) rfl .quiet)).snoc
    (.destroy (h := ()) rfl)).snoc
    (.move (a := .dispatcher ()) rfl (.wakes (a := .result ()) rfl))).snoc
    (.move (a := .result ()) rfl .quiet))
  exact ⟨_,_,rfl,.inl rfl,pool_delivers (by decide) (by decide) hrun⟩

end Mtbl
