import Mtbl.Pool.Sleepers

/-! Every move of an actor of a state with the invariant succeeds and leads to one, unless a job stops
the process. A run therefore never fails an assertion of the pool. -/
namespace Mtbl
open CRun LinkedList

section
variable {ι β : Type} {ordered : ι → Bool} {s : PoolState ι β} {g : Ledger ι β} {h : ι} {t : ℕ}

theorem PoolState.setThread_self (s : PoolState ι β) (t : ℕ) : s.setThread t (s.threads t) = s := by
  simp [PoolState.setThread]

/-- A worker that is at its loop or asleep there. -/
theorem Thread.loop_ok {th : Thread ι β} {pc : WorkerPc ι}
    (hold : th.pc = .loop ∨ th.pc = .asleep) (hnew : pc = .loop ∨ pc = .asleep)
    (r : Run (Option β)) (p : Place ι) (hok : ThreadOk th r p) :
    ThreadOk { th with pc := pc } r p := by
  have hcarries : ∀ o, th.Carries o r → ({ th with pc := pc } : Thread ι β).Carries o r := by
    intro o hc
    have hor : th.Given o r ∨ th.Idle ∧ o = none ∧ r = .ok th.res := by
      unfold Thread.Carries at hc
      rcases hold with h | h <;> rwa [h] at hc
    have hor' : ({ th with pc := pc } : Thread ι β).Given o r ∨
        ({ th with pc := pc } : Thread ι β).Idle ∧ o = none ∧ r = .ok th.res := by
      rcases hor with hg | ⟨hi,hrest⟩
      · exact .inl ⟨hg.running,hg.rq,hg.job⟩
      · exact .inr ⟨⟨hi.cb,hi.rq,hi.running,hnew⟩,hrest⟩
    rcases hnew with rfl | rfl <;> exact hor'
  have hidle : th.Idle → ({ th with pc := pc } : Thread ι β).Idle :=
    fun hi => ⟨hi.cb,hi.rq,hi.running,hnew⟩
  cases p with
  | free => exact hok.imp_left hidle
  | got h => exact hok.imp_left hidle
  | took h => exact hok.imp_left hidle
  | handed h => exact hok.imp_left (hcarries none)
  | popped h => exact hok.imp_left (hcarries none)
  | queue h => exact hcarries none hok
  | flight h => exact hok.imp_left (hcarries (some h))

/-- A worker that sees at its loop that it runs. -/
theorem Thread.wakes {th : Thread ι β} (hpc : th.pc = .loop ∨ th.pc = .asleep)
    (hrunning : th.running = true) (r : Run (Option β)) (p : Place ι) (hok : ThreadOk th r p) :
    ThreadOk { th with pc := .woken } r p := by
  have hidle : ¬ th.Idle := fun hi => by
    have := hi.running
    rw [hrunning] at this
    cases this
  have hcarries : ∀ o, th.Carries o r → ({ th with pc := .woken } : Thread ι β).Carries o r := by
    intro o hc
    have hor : th.Given o r ∨ th.Idle ∧ o = none ∧ r = .ok th.res := by
      unfold Thread.Carries at hc
      rcases hpc with h | h <;> rwa [h] at hc
    obtain hg := hor.resolve_right (fun hi => hidle hi.1)
    exact ⟨hg.running,hg.rq,hg.job⟩
  cases p with
  | free => exact absurd hok.1 hidle
  | got h => exact absurd hok.1 hidle
  | took h => exact absurd hok.1 hidle
  | handed h => exact hok.imp_left (hcarries none)
  | popped h => exact hok.imp_left (hcarries none)
  | queue h => exact hcarries none hok
  | flight h => exact hok.imp_left (hcarries (some h))

/-- A worker that is past its loop has a job. -/
theorem Thread.busy {th : Thread ι β} {r : Run (Option β)} {p : Place ι} (hok : ThreadOk th r p)
    (hpc : ¬ (th.pc = .loop ∨ th.pc = .asleep)) :
    ∃ o, th.Carries o r ∧ (∀ th' : Thread ι β, th'.next = th.next → th'.Carries o r →
      ThreadOk th' r p) ∧
      ∃ h, (p = .handed h ∨ p = .queue h ∨ p = .popped h ∨ p = .flight h) ∧
        (∀ q, o = some q → p = .flight q) := by
  cases p with
  | free => exact absurd hok.1.pc hpc
  | got h => exact absurd hok.1.pc hpc
  | took h => exact absurd hok.1.pc hpc
  | handed h => exact ⟨none,hok.1,fun th' hn hc => ⟨hc,hn.trans hok.2⟩,h,.inl rfl,(by simp)⟩
  | popped h => exact ⟨none,hok.1,fun th' hn hc => ⟨hc,hn.trans hok.2⟩,h,.inr (.inr (.inl rfl)),(by simp)⟩
  | queue h => exact ⟨none,hok,fun th' _ hc => hc,h,.inr (.inl rfl),(by simp)⟩
  | flight h =>
    exact ⟨some h,hok.1,fun th' hn hc => ⟨hc,hn.trans hok.2⟩,h,.inr (.inr (.inr rfl)),
      fun q hq => by rw [Option.some.inj hq]⟩

/-- A busy worker goes on with the same job. -/
theorem Thread.busy_ok {th th' : Thread ι β} (hpc : ¬ (th.pc = .loop ∨ th.pc = .asleep))
    (hnext : th'.next = th.next) (hok : ∀ o r, th.Carries o r → th'.Carries o r)
    (r : Run (Option β)) (p : Place ι) (hthread : ThreadOk th r p) : ThreadOk th' r p := by
  obtain ⟨o,hcarries,hkeep,-⟩ := Thread.busy hthread hpc
  exact hkeep th' hnext (hok o r hcarries)

variable [DecidableEq ι]

theorem PoolState.setDispatcher_self (s : PoolState ι β) (h : ι) :
    s.setDispatcher h (s.dispatchers h) = s := by
  simp [PoolState.setDispatcher]

variable [Fintype ι]

/-- A thread with a job carries the result of one that has been dispatched. -/
theorem Safe.job_of (hs : Safe ordered s g) {p : Place ι} (hplace : g.place t = some p)
    (hp : p = .handed h ∨ p = .queue h ∨ p = .popped h ∨ p = .flight h) :
    ∃ job ∈ s.dispatched h, job.run = g.carried t := by
  have hok := hs.handlers h
  have hmem : g.carried t ∈ outstanding (ordered h) s g h := by
    rcases hp with rfl | rfl | rfl | rfl
    · obtain ⟨hthread,ho⟩ := (hok.dispatcherHas t).2 hplace
      cases hpc : s.dispatchers h with
      | handed u =>
        rw [hpc] at hthread
        obtain rfl := congrArg Prod.fst (Option.some.inj hthread)
        simp [outstanding,hpc,pending,ho]
      | _ =>
        rw [hpc] at hthread
        cases hthread
    · have : g.carried t ∈ (g.queue h).map g.carried :=
        List.mem_map_of_mem ((hok.queueMem t).mpr hplace)
      simp only [outstanding,List.mem_append]
      tauto
    · have hthread := hok.resultHas t (.inl hplace)
      have hresult := hok.result
      cases hpc : s.resultWorkers h with
      | wait u =>
        rw [hpc] at hthread
        obtain rfl := Option.some.inj hthread
        simp [outstanding,hpc,inHand]
      | asleepOn u =>
        rw [hpc] at hthread
        obtain rfl := Option.some.inj hthread
        simp [outstanding,hpc,inHand]
      | took u res =>
        rw [hpc] at hthread hresult
        obtain rfl := Option.some.inj hthread
        cases hplace.symm.trans hresult
      | _ =>
        rw [hpc] at hthread
        cases hthread
    · have : g.carried t ∈ (g.flight h).map g.carried :=
        List.mem_map_of_mem ((hok.flightMem t).mpr hplace)
      simp only [outstanding,List.mem_append]
      tauto
  have hall := hok.account.1.mem_iff.mp (List.mem_append_right _ hmem)
  exact List.mem_map.mp hall

/-- What comes of a move: a state with the invariant, where all are awake once the signal has been
given, or the fault of a job. -/
def MoveOk (ordered : ι → Bool) (s : PoolState ι β) (g : Ledger ι β) (r : Run (Moved ι β)) : Prop :=
  (∃ m, r = .ok m ∧ m.state.dispatched = s.dispatched ∧ m.state.pool.max = s.pool.max ∧
    ∃ g', Safe ordered m.state g' ∧ (Awake none s g → Awake m.signal m.state g')) ∨
    ∃ e h, ∃ job ∈ s.dispatched h, job.run = .error e ∧ r = .error e

theorem MoveOk.of {m : Moved ι β} {g' : Ledger ι β}
    (hsame : (m.state.dispatched,m.state.pool.max) = (s.dispatched,s.pool.max))
    (hs : Safe ordered m.state g') (ha : Awake none s g → Awake m.signal m.state g') :
    MoveOk ordered s g (.ok m) :=
  .inl ⟨m,rfl,congrArg Prod.fst hsame,congrArg Prod.snd hsame,g',hs,ha⟩

/-! ### Workers -/

theorem Safe.place_some (hs : Safe ordered s g) (ht : t < s.created) :
    ∃ p, g.place t = some p := by
  apply Option.ne_none_iff_exists'.mp
  rw [Ne,hs.created]
  omega

/-- A worker past its loop goes on with the same job. -/
theorem Safe.stepBusy (hs : Safe ordered s g) {th : Thread ι β}
    (hpc : ¬ ((s.threads t).pc = .loop ∨ (s.threads t).pc = .asleep))
    (hnext : th.next = (s.threads t).next) (hrunning : th.running = (s.threads t).running)
    (hawake : th.pc ≠ .asleep) (hok : ∀ o r, (s.threads t).Carries o r → th.Carries o r) :
    MoveOk ordered s g (.ok ⟨s.setThread t th,none⟩) := by
  refine .of rfl (hs.setThread hnext (Thread.busy_ok hpc hnext hok)) (fun ha => ha.setThread (by simp)
    (fun hasleep => absurd hasleep hawake) (fun h hasleep hrun => ?_) rfl)
  cases (ha.taking h t hasleep (hrunning ▸ hrun)).1

/-- The worker's result is there and it links itself into the queue. -/
theorem Safe.workerEnqueue (hs : Safe ordered s g) (ht : t < s.created)
    (hpc : (s.threads t).pc = .enqueue h) :
    ∃ r, workerStep s t = some r ∧ MoveOk ordered s g r := by
  obtain ⟨p,hplace⟩ := hs.place_some ht
  have hbusy : ¬ ((s.threads t).pc = .loop ∨ (s.threads t).pc = .asleep) := by simp [hpc]
  obtain ⟨o,hcarries,-,h0,-,hflight⟩ := Thread.busy (hs.threads t p hplace) hbusy
  unfold Thread.Carries at hcarries
  rw [hpc] at hcarries
  obtain ⟨hrunning,ho,hcb,hrq,hr⟩ := hcarries
  obtain rfl := hflight h ho
  have hok := hs.handlers h
  have hmem := (hok.flightMem t).mpr hplace
  have hunordered : ordered h = false := by
    by_contra hne
    rw [hok.grounded (by simpa using hne)] at hmem
    cases hmem
  have hin : ¬ (s.resultWorkers h).Left := by
    intro hl
    rw [(hok.left hl).2.2] at hmem
    cases hmem
  cases hrq' : s.rqs h with
  | none => exact absurd (hok.destroyed.mp hrq') (fun he => hin (.inr he))
  | some rq =>
    have hperm : (g.flight h).Perm (t::(g.flight h).erase t) := List.perm_cons_erase hmem
    have hcount := (hok.rq rq hrq').count
    rw [hperm.length_eq,List.length_cons] at hcount
    have hnext : (s.threads t).next = none := (hs.threads t _ hplace).2
    have hmay : MayEnqueue ordered s g h t rq.nthreads (s.dispatchers h) ((g.flight h).erase t) := {
      place := .inr hplace
      lt := (hok.rq rq hrq').lt
      flightMem := fun u => by
        rw [hok.flightNodup.mem_erase_iff]
        tauto
      flightNodup := hok.flightNodup.erase t
      grounded := fun ho' => by
        rw [hunordered] at ho'
        cases ho'
      count := by
        rw [hcount]
        congr 1
        omega
      finishing := Iff.rfl
      creating := rfl
      dispatcher := hok.dispatcher.frame
        (fun u hu => (place_update hplace (by simp) (by simp) u).mpr hu)
        (fun u hu => (place_update hplace (by simp) (by simp) u).mpr hu)
      dispatcherHas := fun _ _ _ hu => hu
      done := hok.done
      inside := hin
      account := by
        refine hok.account.perm ?_ hunordered
        simp only [outstanding,List.map_append,List.map_cons,List.map_nil]
        have hmap := hperm.map g.carried
        rw [List.map_cons] at hmap
        refine List.Perm.append_left _ ?_
        refine List.Perm.append_right _ ?_
        rw [List.append_assoc,List.append_assoc,List.append_assoc]
        refine List.Perm.append_left _ (List.Perm.append_left _ ?_)
        exact hmap.symm }
    obtain ⟨g',hs',hfree⟩ := @Safe.enqueue _ _ _ _ _ _ _ _ _ hs { s.threads t with pc := .loop } _ _ _
      hmay (.inr ⟨⟨hcb,hrq,hrunning,.inl rfl⟩,rfl,hr⟩) hnext hnext _ hrq'
    obtain ⟨-,hpool,hdispatchers,-,hdispatched,-⟩ :=
      enqueueThread_same (s.setThread t { s.threads t with pc := .loop }) h rq t
    have hsame : (enqueueThread (s.setThread t { s.threads t with pc := .loop }) h
        rq t).setDispatcher h (s.dispatchers h) =
        enqueueThread (s.setThread t { s.threads t with pc := .loop }) h rq t := by
      rw [show s.dispatchers h = (s.setThread t { s.threads t with pc := .loop }).dispatchers h
        from rfl,← hdispatchers,PoolState.setDispatcher_self]
    have hnot : ∀ h', s.resultWorkers h' ≠ .asleepOn t :=
      fun h' => hs.not_taking (by rw [hplace]; simp)
    refine ⟨_,by simp only [workerStep,hpc,hrq']; rfl,.of ?_ (hsame ▸ hs') ?_⟩
    · exact Prod.ext hdispatched (congrArg Threadpool.max hpool)
    · intro ha
      have ha' : Awake none (s.setThread t { s.threads t with pc := .loop }) g' :=
        ha.setThread (by simp) (by simp) (fun h' hasleep => absurd hasleep (hnot h')) hfree
      exact ha'.link rq

theorem Safe.workerStep (hs : Safe ordered s g) (ht : t < s.created) {r : Run (Moved ι β)}
    (hstep : workerStep s t = some r) : MoveOk ordered s g r := by
  obtain ⟨p,hplace⟩ := hs.place_some ht
  have hthread := hs.threads t p hplace
  cases hpc : (s.threads t).pc with
  | asleep =>
    simp only [Mtbl.workerStep,hpc] at hstep
    cases hstep
  | exited =>
    simp only [Mtbl.workerStep,hpc] at hstep
    cases hstep
  | loop =>
    simp only [Mtbl.workerStep,hpc] at hstep
    split_ifs at hstep with hrunning
    · obtain rfl := Option.some.inj hstep
      refine .of rfl (hs.setThread rfl (Thread.wakes (.inl hpc) hrunning))
        (fun ha => ha.setThread (by simp) (by simp) (fun h hasleep hrun => ?_) rfl)
      cases hrunning.symm.trans hrun
    · obtain rfl := Option.some.inj hstep
      refine .of rfl (hs.setThread rfl (Thread.loop_ok (.inl hpc) (.inr rfl)))
        (fun ha => ha.setThread (by simp) (fun _ hrun => absurd hrun hrunning)
          (fun h hasleep hrun => ?_) rfl)
      cases (ha.taking h t hasleep hrun).1
  | woken =>
    obtain ⟨o,hcarries,-,q,hq,-⟩ := Thread.busy hthread (by simp [hpc])
    unfold Thread.Carries at hcarries
    rw [hpc] at hcarries
    obtain ⟨cb,hcb,hrun⟩ := hcarries.job
    simp only [Mtbl.workerStep,hpc,hcb] at hstep
    obtain rfl := Option.some.inj hstep
    cases hres : cb (s.threads t).arg with
    | error e =>
      obtain ⟨job,hmem,hjob⟩ := hs.job_of hplace hq
      exact .inr ⟨e,q,job,hmem,by rw [hjob,← hrun,hres],rfl⟩
    | ok res =>
      refine hs.stepBusy (by simp [hpc]) rfl rfl (by simp) (fun o r hc => ?_)
      unfold Thread.Carries at hc ⊢
      rw [hpc] at hc
      obtain ⟨cb',hcb',hrun'⟩ := hc.job
      obtain rfl := Option.some.inj (hcb.symm.trans hcb')
      exact ⟨hc.running,hc.rq,hrun'.symm.trans hres⟩
  | worked =>
    simp only [Mtbl.workerStep,hpc] at hstep
    obtain rfl := Option.some.inj hstep
    refine hs.stepBusy (by simp [hpc]) rfl rfl (by simp) (fun o r hc => ?_)
    unfold Thread.Carries at hc ⊢
    rw [hpc] at hc
    exact ⟨hc.1,hc.2.1,rfl,rfl,hc.2.2⟩
  | detached rq =>
    cases rq with
    | none =>
      simp only [Mtbl.workerStep,hpc] at hstep
      obtain rfl := Option.some.inj hstep
      refine .of rfl (hs.setThread rfl (Thread.busy_ok (by simp [hpc]) rfl (fun o r hc => ?_)))
        (fun ha => ha.setThread (by simp) (by simp) (fun h _ _ => ⟨rfl,(by simp)⟩) rfl)
      unfold Thread.Carries at hc ⊢
      rw [hpc] at hc
      exact .inr ⟨⟨hc.2.2.1,hc.2.2.2.1,rfl,.inl rfl⟩,hc.2.1.symm,hc.2.2.2.2⟩
    | some q =>
      simp only [Mtbl.workerStep,hpc] at hstep
      obtain rfl := Option.some.inj hstep
      have hnot : ∀ h', s.resultWorkers h' ≠ .asleepOn t := by
        obtain ⟨o,hcarries,-,-,-,hflight⟩ := Thread.busy hthread (by simp [hpc])
        unfold Thread.Carries at hcarries
        rw [hpc] at hcarries
        rw [hflight q hcarries.2.1.symm] at hplace
        exact fun h' => hs.not_taking (by rw [hplace]; simp)
      refine .of rfl (hs.setThread rfl (Thread.busy_ok (by simp [hpc]) rfl (fun o r hc => ?_)))
        (fun ha => ha.setThread (by simp) (by simp) (fun h' hasleep => absurd hasleep (hnot h')) rfl)
      unfold Thread.Carries at hc ⊢
      rw [hpc] at hc
      exact ⟨rfl,hc.2.1.symm,hc.2.2⟩
  | enqueue q =>
    obtain ⟨r',hstep',hok⟩ := hs.workerEnqueue ht hpc
    obtain rfl := Option.some.inj (hstep.symm.trans hstep')
    exact hok

/-! ### Dispatching threads -/

/-- The queue of a handler whose dispatching thread has not finished it. -/
theorem Safe.open_rq (hs : Safe ordered s g) (hpc : ¬ (s.dispatchers h).Finishing) :
    (∃ rq, s.rqs h = some rq) ∧ ¬ (s.resultWorkers h).Left := by
  have hok := hs.handlers h
  have hin : ¬ (s.resultWorkers h).Left := fun hl => hpc (hok.left hl).1
  refine ⟨Option.ne_none_iff_exists'.mp (fun hnone => hin (.inr (hok.destroyed.mp hnone))),hin⟩

/-- With an ordered handler, the dispatching thread may link the thread that it has handed the job. -/
theorem Safe.mayEnqueue_handed (hs : Safe ordered s g) (hpc : s.dispatchers h = .handed t)
    (ho : ordered h = true) {rq : Resultq} (hrq : s.rqs h = some rq) {n : ℕ}
    (hn : (rq.nthreads+1)%2^64 = n) : MayEnqueue ordered s g h t n .idle [] := by
  have hok := hs.handlers h
  have hrqok := hok.rq rq hrq
  have hcount := hrqok.count
  have hlt := hrqok.lt
  have hflight := hok.grounded ho
  rw [hpc,ho,hflight] at hcount
  change (_+0)%_ = _ at hcount
  have hplace : g.place t = some (.handed h) := by
    have := hok.dispatcher
    rw [hpc] at this
    exact this ho
  exact {
    place := .inl hplace
    lt := by omega
    flightMem := by simp [hflight]
    flightNodup := List.nodup_nil
    grounded := fun _ => rfl
    count := by
      change (n+0)%_ = _
      simp only [List.length_nil] at hcount ⊢
      omega
    finishing := by simp [hpc,DispatcherPc.Finishing]
    creating := by
      rw [hpc]
      rfl
    dispatcher := trivial
    dispatcherHas := by simp +contextual [hpc,DispatcherPc.thread,eq_comm]
    done := by simp
    inside := (hs.open_rq (h := h) (by simp [hpc,DispatcherPc.Finishing])).2
    account := hok.account.of_eq (by simp [outstanding,hpc,pending,ho,hflight]) }

theorem Safe.countDispatched (hs : Safe ordered s g) (hpc : s.dispatchers h = .handed t) :
    MoveOk ordered s g (countDispatched ordered s h t) := by
  have hok := hs.handlers h
  obtain ⟨⟨rq,hrq⟩,-⟩ := hs.open_rq (h := h) (by simp [hpc,DispatcherPc.Finishing])
  have hrqok := hok.rq rq hrq
  have hfinished : rq.finished = false := by
    have := hrqok.finished
    rw [hpc] at this
    simpa [DispatcherPc.Finishing] using this
  simp only [Mtbl.countDispatched,hrq]
  rw [check_of (by simp [hfinished]),ok_bind]
  generalize hn : (rq.nthreads+1)%2^64 = n
  have hnlt : n < 2^64 := by omega
  cases ho : ordered h with
  | false =>
    have hcount := hrqok.count
    rw [hpc,ho] at hcount
    change (_+1)%_ = _ at hcount
    refine .of rfl (hs.recount hrq rfl rfl hnlt ?_ ?_ ?_ ?_ ?_ trivial ?_ (by simp)) (fun ha => ?_)
    · rw [hpc,ho]
      change (n+0)%_ = (_+1)%_
      omega
    · simp [hfinished,DispatcherPc.Finishing]
    · simp [hpc,DispatcherPc.Finishing]
    · rw [hpc]
      rfl
    · rw [hpc]
      simp [pending,ho]
    · intro u
      have := hok.dispatcherHas u
      rw [hpc] at this
      refine ⟨fun hgot => ?_,fun hhanded => ?_⟩
      · cases this.1 hgot
      · have := (this.2 hhanded).2
        rw [ho] at this
        cases this
    · have ha' : Awake none (s.setRq h (some { rq with nthreads := n })) g := ha.setRq hrq (by simp) (by
        rintro _ ⟨⟩ (hhead | ⟨hfin,-⟩)
        · exact .inl (.inl hhead)
        · cases hfinished.symm.trans hfin)
      exact ha'.setDispatcher (by simp) (by
        rw [show (s.setRq h _).dispatchers h = _ from hpc]
        exact le_rfl)
  | true =>
    have hplace : g.place t = some (.handed h) := by
      have := hok.dispatcher
      rw [hpc] at this
      exact this ho
    obtain ⟨hcarries,hnext⟩ : (s.threads t).Carries none (g.carried t) ∧
      (s.threads t).next = none := hs.threads t _ hplace
    have hmay := hs.mayEnqueue_handed hpc ho hrq hn
    obtain ⟨g',hs',hfree⟩ := hs.enqueue hmay hcarries hnext hnext hrq
    rw [PoolState.setThread_self] at hs'
    obtain ⟨-,hpool,hdispatchers,-,hdispatched,-⟩ :=
      enqueueThread_same s h { rq with nthreads := n } t
    refine .of ?_ hs' (fun ha => ?_)
    · exact Prod.ext hdispatched (congrArg Threadpool.max hpool)
    · have ha' : Awake none s g' := ha.frame rfl (fun _ => ⟨rfl,rfl⟩) rfl rfl (hfree ▸ ha.crowd)
      exact (ha'.link { rq with nthreads := n }).setDispatcher (by simp) (by
        rw [hdispatchers,hpc]
        exact le_rfl)

theorem Safe.threadpoolNext (hs : Safe ordered s g) {job : Job β}
    (hpc : s.dispatchers h = .next job) : MoveOk ordered s g (threadpoolNext s h job) := by
  cases hhead : s.pool.head with
  | some t =>
    obtain ⟨ts,-,hplace⟩ := hs.head_free hhead
    obtain ⟨hidle,hres⟩ : ThreadOk (s.threads t) (g.carried t) .free := hs.threads t _ hplace
    simp only [Mtbl.threadpoolNext,hhead]
    rw [check_of (by simp [hidle.cb]),ok_bind,check_of (by simp [hres]),ok_bind,
      check_of (by simp [hidle.running]),ok_bind]
    obtain ⟨g',hs',hfree⟩ := hs.popFree hpc hhead
    refine .of rfl hs' (fun ha => ha.frame rfl (fun u => ?_) rfl rfl ?_)
    · exact ⟨setNext_pc _ t none u,setNext_running _ t none u⟩
    · refine ha.crowd_update (by simp) ?_
      rw [hpc,hfree]
      exact le_rfl
  | none =>
    simp only [Mtbl.threadpoolNext,hhead]
    split_ifs with hmax
    · refine .of rfl (hs.setDispatcher ?_ ?_ ?_ ?_ trivial ?_ (by simp)) (fun ha => ?_)
      · rw [hpc]
        rfl
      · rw [hpc]
        rfl
      · rw [hpc]
        rfl
      · simp [hpc,DispatcherPc.Finishing]
      · rw [hpc]
        rfl
      · have hempty : g.free = [] := by
          have := hs.linked.head_eq
          rw [hhead] at this
          exact List.head?_eq_none_iff.mp this.symm
        exact ha.frame rfl (fun _ => ⟨rfl,rfl⟩) rfl rfl
          (fun _ _ _ => ⟨hmax,by simp [hempty]⟩)
    · refine .of rfl (by simpa only [hhead] using hs.countUp hpc hmax) (fun ha =>
        ha.frame rfl (fun _ => ⟨rfl,rfl⟩) rfl rfl (fun h' job' hasleep => ?_))
      have hne : h' ≠ h := by
        rintro rfl
        simp at hasleep
      simp only [PoolState.setDispatcher,Function.update_of_ne hne] at hasleep
      exact absurd (ha.crowd h' job' hasleep).1 hmax

theorem Safe.resultqFinish (hs : Safe ordered s g) (hpc : s.dispatchers h = .finish) :
    MoveOk ordered s g (resultqFinish s h) := by
  obtain ⟨⟨rq,hrq⟩,-⟩ := hs.open_rq (h := h) (by simp [hpc,DispatcherPc.Finishing])
  simp only [Mtbl.resultqFinish,hrq]
  refine .of rfl (hs.recount hrq rfl rfl ((hs.handlers h).rq rq hrq).lt ?_ ?_ ?_ ?_ ?_ trivial
    ?_ (by simp)) (fun ha => (ha.setRq (c := some (.rq h)) hrq (by simp)
      (fun _ _ _ => .inr rfl)).setDispatcher (by simp) ?_)
  · rw [hpc]
    rfl
  · simp [DispatcherPc.Finishing]
  · simp [DispatcherPc.Finishing]
  · rw [hpc]
    rfl
  · rw [hpc]
    rfl
  · intro u
    have := (hs.handlers h).dispatcherHas u
    rwa [hpc] at this
  · change waiting (s.dispatchers h) ≤ _
    rw [hpc]
    exact le_rfl

theorem Safe.dispatcherStep (hs : Safe ordered s g) {r : Run (Moved ι β)}
    (hstep : dispatcherStep ordered s h = some r) : MoveOk ordered s g r := by
  have hok := (hs.handlers h).dispatcher
  cases hpc : s.dispatchers h with
  | idle =>
    simp only [Mtbl.dispatcherStep,hpc] at hstep
    cases hstep
  | asleep job =>
    simp only [Mtbl.dispatcherStep,hpc] at hstep
    cases hstep
  | done =>
    simp only [Mtbl.dispatcherStep,hpc] at hstep
    cases hstep
  | next job =>
    simp only [Mtbl.dispatcherStep,hpc] at hstep
    obtain rfl := Option.some.inj hstep
    exact hs.threadpoolNext hpc
  | create job =>
    simp only [Mtbl.dispatcherStep,hpc] at hstep
    obtain rfl := Option.some.inj hstep
    obtain ⟨g',hs',hfree⟩ := hs.create hpc
    refine .of rfl hs' (fun ha => (ha.create (fun h' => hs.not_taking ?_) hfree).setDispatcher
      (by simp) ?_)
    · rw [(hs.created _).mpr le_rfl]
      simp
    · change waiting (s.dispatchers h) ≤ _
      rw [hpc]
      exact le_rfl
  | got job t =>
    rw [hpc] at hok
    obtain ⟨hidle,-,hnext⟩ : ThreadOk (s.threads t) (g.carried t) (.got h) := hs.threads t _ hok
    simp only [Mtbl.dispatcherStep,hpc] at hstep
    obtain rfl := Option.some.inj hstep
    rw [check_of (by simp [hidle.running]),ok_bind,check_of (by simp [hnext]),ok_bind]
    refine .of rfl (hs.setDispatcher ?_ ?_ ?_ ?_ hok ?_ (by simp))
      (fun ha => ha.setDispatcher (by simp) ?_) <;> rw [hpc]
    · rfl
    · rfl
    · rfl
    · simp [DispatcherPc.Finishing]
    · rfl
    · exact le_rfl
  | checked job t =>
    simp only [Mtbl.dispatcherStep,hpc] at hstep
    obtain rfl := Option.some.inj hstep
    rw [hpc] at hok
    have hnot : ∀ h', s.resultWorkers h' ≠ .asleepOn t :=
      fun h' => hs.not_taking (by rw [show g.place t = _ from hok]; simp)
    have hwait : ∀ th, waiting ((s.setThread t th).dispatchers h) ≤
        waiting (.handed t : DispatcherPc β) := fun th => by
      rw [show (s.setThread t th).dispatchers h = _ from hpc]
      exact le_rfl
    cases ho : ordered h with
    | true =>
      obtain ⟨g',hs',hfree⟩ := hs.handOrdered hpc ho
      exact .of rfl hs' (fun ha => (ha.setThread (by simp)
        (fun _ _ => ⟨rfl,hnot⟩) (fun h' hasleep => absurd hasleep (hnot h'))
        hfree).setDispatcher (by simp) (hwait _))
    | false =>
      obtain ⟨g',hs',hfree⟩ := hs.handUnordered hpc ho
      exact .of rfl hs' (fun ha => (ha.setThread (by simp)
        (fun _ _ => ⟨rfl,hnot⟩) (fun h' hasleep => absurd hasleep (hnot h'))
        hfree).setDispatcher (by simp) (hwait _))
  | handed t =>
    simp only [Mtbl.dispatcherStep,hpc] at hstep
    obtain rfl := Option.some.inj hstep
    exact hs.countDispatched hpc
  | finish =>
    simp only [Mtbl.dispatcherStep,hpc] at hstep
    obtain rfl := Option.some.inj hstep
    exact hs.resultqFinish hpc
  | joining =>
    simp only [Mtbl.dispatcherStep,hpc] at hstep
    split at hstep
    case h_1 hexited =>
      obtain rfl := Option.some.inj hstep
      refine .of rfl (hs.setDispatcher ?_ ?_ ?_ ?_ trivial ?_ (fun _ => hexited))
        (fun ha => ha.setDispatcher (by simp) ?_) <;> rw [hpc]
      · rfl
      · rfl
      · rfl
      · simp [DispatcherPc.Finishing]
      · rfl
      · exact le_rfl
    case h_2 => cases hstep

/-! ### Result workers -/

/-- Threads of a queue exist, so their number is bounded. -/
theorem Safe.queue_bound (hs : Safe ordered s g) (h : ι) :
    (g.queue h).length+(g.flight h).length ≤ s.pool.max := by
  have hok := hs.handlers h
  have hnodup : (g.queue h++g.flight h).Nodup := by
    refine List.nodup_append.mpr ⟨hok.queueNodup,hok.flightNodup,?_⟩
    rintro a ha b hb rfl
    cases ((hok.queueMem a).mp ha).symm.trans ((hok.flightMem a).mp hb)
  have hsub : g.queue h++g.flight h ⊆ List.range s.created := by
    intro a ha
    rw [List.mem_range]
    by_contra hle
    have hnone := (hs.created a).mpr (not_lt.mp hle)
    rcases List.mem_append.mp ha with ha | ha
    · rw [(hok.queueMem a).mp ha] at hnone
      cases hnone
    · rw [(hok.flightMem a).mp ha] at hnone
      cases hnone
  have hlength := (List.subperm_of_subset hnodup hsub).length_le
  rw [List.length_append,List.length_range] at hlength
  have hcount := hs.count
  have hle := hs.count_le
  omega

theorem Safe.resultqNext (hs : Safe ordered s g) (hmax : s.pool.max < 2^64)
    (hpc : s.resultWorkers h = .loop) : MoveOk ordered s g (resultqNext s h) := by
  have hok := hs.handlers h
  cases hrq : s.rqs h with
  | none =>
    have := hok.destroyed.mp hrq
    rw [hpc] at this
    cases this
  | some rq =>
    have hrqok := hok.rq rq hrq
    cases hhead : rq.head with
    | some t =>
      simp only [Mtbl.resultqNext,hrq,hhead]
      generalize hn : (rq.nthreads+2^64-1)%2^64 = n
      obtain ⟨g',hs',hfree⟩ := hs.popQueue hpc hrq hhead hn.symm
      refine .of rfl hs' (fun ha => ?_)
      have ha' : Awake none (s.setNext t none) g' := ha.frame rfl
        (fun u => ⟨setNext_pc s t none u,setNext_running s t none u⟩) rfl rfl (hfree ▸ ha.crowd)
      exact (ha'.setRq (c := none) hrq (by simp) (fun _ _ _ => .inl (.inl (by
        rw [hhead]
        rfl)))).setResult (by simp) (by simp)
    | none =>
      have hempty : g.queue h = [] := by
        have := hrqok.linked.head_eq
        rw [hhead] at this
        exact List.head?_eq_none_iff.mp this.symm
      simp only [Mtbl.resultqNext,hrq,hhead]
      split_ifs with hdone
      · have hfinishing := hrqok.finished.mp hdone.1
        have huncounted : uncounted (ordered h) (s.dispatchers h) = 0 := by
          rcases hfinishing with he | he <;> rw [he] <;> rfl
        have hflight : g.flight h = [] := by
          have hcount := hrqok.count
          have hbound := hs.queue_bound h
          rw [huncounted,hdone.2,hempty,List.length_nil] at hcount
          rw [hempty,List.length_nil] at hbound
          exact List.length_eq_zero_iff.mp (by omega)
        refine .of rfl (hs.setResult ?_ ?_ trivial ?_ (fun _ => ⟨hfinishing,hempty,hflight⟩))
          (fun ha => ha.setResult (by simp) (by simp)) <;> rw [hpc]
        · simp
        · rfl
        · rfl
      · refine .of rfl (hs.setResult ?_ ?_ trivial ?_ ?_) (fun ha => ha.setResult ?_ (by simp))
        · simp [hpc]
        · rw [hpc]
          rfl
        · rw [hpc]
          rfl
        · simp [ResultPc.Left]
        · rintro - rq' hrq' hready
          obtain rfl := Option.some.inj (hrq.symm.trans hrq')
          exact hdone (hready.resolve_left (by simp [hhead]))

theorem Safe.resultqDestroy (hs : Safe ordered s g)
    (hpc : s.resultWorkers h = .leaving) : MoveOk ordered s g (resultqDestroy s h) := by
  have hok := hs.handlers h
  obtain ⟨hfinishing,hqueue,hflight⟩ := hok.left (.inl hpc)
  cases hrq : s.rqs h with
  | none =>
    have := hok.destroyed.mp hrq
    rw [hpc] at this
    cases this
  | some rq =>
    have hrqok := hok.rq rq hrq
    have hhead : rq.head = none := by
      rw [hrqok.linked.head_eq,hqueue]
      rfl
    have huncounted : uncounted (ordered h) (s.dispatchers h) = 0 := by
      rcases hfinishing with he | he <;> rw [he] <;> rfl
    have hcount := hrqok.count
    have hlt := hrqok.lt
    rw [huncounted,hqueue,hflight] at hcount
    simp only [List.length_nil] at hcount
    simp only [Mtbl.resultqDestroy,hrq]
    rw [check_of ⟨by rw [hhead]; rfl,hrqok.finished.mpr hfinishing,by omega⟩,ok_bind]
    exact .of rfl (hs.destroy hpc) (fun ha => (ha.setRq (c := none) hrq (by simp)
      (by simp)).setResult (by simp) (by simp))

theorem Safe.resultStep (hs : Safe ordered s g) (hmax : s.pool.max < 2^64) {r : Run (Moved ι β)}
    (hstep : resultStep s h = some r) : MoveOk ordered s g r := by
  have hok := (hs.handlers h).result
  cases hpc : s.resultWorkers h with
  | asleep =>
    simp only [Mtbl.resultStep,hpc] at hstep
    cases hstep
  | asleepOn t =>
    simp only [Mtbl.resultStep,hpc] at hstep
    cases hstep
  | exited =>
    simp only [Mtbl.resultStep,hpc] at hstep
    cases hstep
  | loop =>
    simp only [Mtbl.resultStep,hpc] at hstep
    obtain rfl := Option.some.inj hstep
    exact hs.resultqNext hmax hpc
  | wait t =>
    rw [hpc] at hok
    simp only [Mtbl.resultStep,hpc] at hstep
    split_ifs at hstep with hrunning
    · obtain rfl := Option.some.inj hstep
      refine .of rfl (hs.setResult ?_ ?_ hok ?_ ?_) (fun ha => ha.setResult (by simp) ?_)
      · simp [hpc]
      · rw [hpc]
        rfl
      · rw [hpc]
        rfl
      · simp [ResultPc.Left]
      · rintro _ ⟨⟩
        refine ⟨hrunning,fun hasleep => ?_⟩
        have ht : t < s.created := by
          rw [← not_le,← hs.created,show g.place t = _ from hok]
          simp
        cases (ha.workers t ht hasleep hrunning).1
    · obtain rfl := Option.some.inj hstep
      have hstopped := Bool.eq_false_iff.mpr hrunning
      obtain ⟨g',hs',hfree⟩ := hs.take hpc hstopped
      refine .of rfl hs' (fun ha => ?_)
      have ha' : Awake none (s.setThread t { s.threads t with res := none }) g' :=
        ha.setThread (by simp) (fun _ hrun => absurd hrun hrunning)
          (fun h' hasleep hrun => by cases (ha.taking h' t hasleep hrun).1) hfree
      exact ha'.setResult (by simp) (by simp)
  | took t res =>
    simp only [Mtbl.resultStep,hpc] at hstep
    obtain rfl := Option.some.inj hstep
    obtain ⟨g',hs',hfree⟩ := hs.giveBack hpc
    refine .of rfl hs' (fun ha => ?_)
    have ha' : Awake (some .pool) (({ s with pool := { s.pool with head := some t } }).setNext t
        s.pool.head) g' := by
      refine ha.frame rfl (fun u => ⟨setNext_pc _ t _ u,setNext_running _ t _ u⟩) rfl rfl
        (fun h' job hasleep => ?_)
      obtain ⟨hmax,hle⟩ := ha.crowd h' job hasleep
      simp only [reduceCtorEq,if_false,Nat.add_zero] at hle
      rw [hfree,List.length_cons,if_pos rfl]
      exact ⟨hmax,Nat.succ_le_succ hle⟩
    exact ha'.setResult (by simp) (by simp)
  | deliver res =>
    simp only [Mtbl.resultStep,hpc] at hstep
    obtain rfl := Option.some.inj hstep
    refine .of rfl (hs.deliver hpc) (fun ha => ?_)
    have ha' : Awake none { s with calls := Function.update s.calls h (s.calls h++[res]) } g :=
      ha.frame rfl (fun _ => ⟨rfl,rfl⟩) rfl rfl ha.crowd
    exact ha'.setResult (by simp) (by simp)
  | leaving =>
    simp only [Mtbl.resultStep,hpc] at hstep
    obtain rfl := Option.some.inj hstep
    exact hs.resultqDestroy hpc

theorem Safe.actorStep (hs : Safe ordered s g) (hmax : s.pool.max < 2^64) {a : Actor ι}
    {r : Run (Moved ι β)} (hstep : actorStep ordered s a = some r) : MoveOk ordered s g r := by
  cases a with
  | dispatcher h => exact hs.dispatcherStep hstep
  | result h => exact hs.resultStep hmax hstep
  | worker t =>
    simp only [Mtbl.actorStep] at hstep
    split_ifs at hstep with ht
    exact hs.workerStep ht hstep

/-! ### Waking up -/

theorem Safe.wake (hs : Safe ordered s g) {a : Actor ι} {c : Cond ι}
    (hsleeps : sleepsOn s a = some c) : Safe ordered (wake s a) g := by
  cases a with
  | dispatcher h =>
    cases hpc : s.dispatchers h with
    | asleep job =>
      simp only [Mtbl.wake,hpc]
      refine hs.setDispatcher ?_ ?_ ?_ ?_ trivial ?_ (by simp) <;> rw [hpc]
      · rfl
      · rfl
      · rfl
      · simp [DispatcherPc.Finishing]
      · rfl
    | _ => simp [sleepsOn,hpc] at hsleeps
  | result h =>
    have hok := (hs.handlers h).result
    cases hpc : s.resultWorkers h with
    | asleep =>
      simp only [Mtbl.wake,hpc]
      refine hs.setResult ?_ ?_ trivial ?_ ?_ <;> try rw [hpc]
      · simp
      · rfl
      · rfl
      · simp [ResultPc.Left]
    | asleepOn t =>
      rw [hpc] at hok
      simp only [Mtbl.wake,hpc]
      refine hs.setResult ?_ ?_ hok ?_ ?_ <;> try rw [hpc]
      · simp
      · rfl
      · rfl
      · simp [ResultPc.Left]
    | _ => simp [sleepsOn,hpc] at hsleeps
  | worker t =>
    cases hpc : (s.threads t).pc with
    | asleep => exact hs.setThread rfl (Thread.loop_ok (.inr hpc) (.inl rfl))
    | _ => simp [sleepsOn,hpc] at hsleeps

theorem Safe.signalled (hs : Safe ordered s g) {c : Option (Cond ι)} {s' : PoolState ι β}
    (hsignal : Signalled s c s') : Safe ordered s' g := by
  cases hsignal with
  | quiet => exact hs
  | wakes hsleeps => exact hs.wake hsleeps
  | lost _ => exact hs

/-! ### Runs -/

theorem Safe.init (ordered : ι → Bool) (max : ℕ) :
    ∃ g, Safe ordered (PoolState.init max : PoolState ι β) g := by
  refine ⟨⟨fun _ => none,[],fun _ => [],fun _ => [],fun _ => .ok none⟩,?_⟩
  constructor
  · rfl
  · simp
  · exact List.nodup_nil
  · simp [PoolState.init]
  · simp
  · simp [PoolState.init,creating]
  · exact Nat.zero_le _
  · intro h
    constructor
    · intro rq hrq
      obtain rfl := Option.some.inj hrq
      exact ⟨rfl,rfl,by positivity,rfl,by simp [PoolState.init,DispatcherPc.Finishing]⟩
    · simp [PoolState.init]
    · simp
    · exact List.nodup_nil
    · simp
    · exact List.nodup_nil
    · exact fun _ => rfl
    · trivial
    · exact fun u => ⟨(by simp),(by simp)⟩
    · trivial
    · exact fun u hu => by rcases hu with hu | hu <;> cases hu
    · simp [PoolState.init,ResultPc.Left]
    · simp [PoolState.init]
    · exact ⟨.nil,fun _ => rfl⟩

theorem wake_max (s : PoolState ι β) (a : Actor ι) : (wake s a).pool = s.pool := by
  unfold wake
  cases a with
  | dispatcher h =>
    dsimp only
    split <;> rfl
  | result h =>
    dsimp only
    split <;> rfl
  | worker t => rfl

end

end Mtbl
