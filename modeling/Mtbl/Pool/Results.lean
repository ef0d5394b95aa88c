import Mtbl.Pool.Safety

/-! The moves on the result queues keep the invariant: linking a thread behind the last one, taking the
first one, its result and the thread back to the pool. -/
namespace Mtbl
open CRun LinkedList

section
variable {ι β : Type} {ordered : ι → Bool} {s : PoolState ι β} {g : Ledger ι β} {h : ι} {t : ℕ}

/-! ### Threads with a job -/

section
variable {th : Thread ι β} {o : Option ι} {r : Run (Option β)}

theorem Thread.Carries.setNext (hc : th.Carries o r) (n : Option ℕ) :
    ({ th with next := n } : Thread ι β).Carries o r := by
  obtain ⟨arg,res,cb,next,rq,running,pc⟩ := th
  cases pc with
  | loop =>
    rcases hc with hg | ⟨hi,hrest⟩
    · exact .inl ⟨hg.running,hg.rq,hg.job⟩
    · exact .inr ⟨⟨hi.cb,hi.rq,hi.running,hi.pc⟩,hrest⟩
  | asleep =>
    rcases hc with hg | ⟨hi,hrest⟩
    · exact .inl ⟨hg.running,hg.rq,hg.job⟩
    · exact .inr ⟨⟨hi.cb,hi.rq,hi.running,hi.pc⟩,hrest⟩
  | woken => exact ⟨hc.running,hc.rq,hc.job⟩
  | _ => exact hc

/-- A thread in a queue that does not run has its result. -/
theorem Thread.Carries.finished (hc : th.Carries none r) (hrunning : th.running = false) :
    th.Idle ∧ r = .ok th.res := by
  unfold Thread.Carries at hc
  have hnot : ∀ o, ¬ th.Given o r := fun o hg => by
    have := hg.running
    rw [hrunning] at this
    cases this
  cases hpc : th.pc with
  | loop =>
    rw [hpc] at hc
    exact (hc.resolve_left (hnot _)).imp_right And.right
  | asleep =>
    rw [hpc] at hc
    exact (hc.resolve_left (hnot _)).imp_right And.right
  | woken =>
    rw [hpc] at hc
    exact absurd hc (hnot _)
  | worked =>
    rw [hpc] at hc
    rw [hrunning] at hc
    cases hc.1
  | detached rq =>
    rw [hpc] at hc
    rw [hrunning] at hc
    cases hc.1
  | enqueue q =>
    rw [hpc] at hc
    cases hc.2.1
  | exited =>
    rw [hpc] at hc
    exact hc.elim

end

/-! ### Linking a thread -/

/-- Where a thread may be linked into the queue of its handler: the queue with the thread in it fits the
new count, the dispatching thread that is then at `pc`, and the threads still in flight. -/
structure MayEnqueue (ordered : ι → Bool) (s : PoolState ι β) (g : Ledger ι β) (h : ι) (t n : ℕ)
    (pc : DispatcherPc β) (flight : List ℕ) : Prop where
  place : g.place t = some (.handed h) ∨ g.place t = some (.flight h)
  lt : n < 2^64
  flightMem : ∀ u, u ∈ flight ↔ u ∈ g.flight h ∧ u ≠ t
  flightNodup : flight.Nodup
  grounded : ordered h = true → flight = []
  count : (n+uncounted (ordered h) pc)%2^64 = ((g.queue h).length+1+flight.length)%2^64
  finishing : pc.Finishing ↔ (s.dispatchers h).Finishing
  creating : creating pc = creating (s.dispatchers h)
  dispatcher : DispatcherOk (ordered h)
    { g with place := Function.update g.place t (some (.queue h)) } h pc
  dispatcherHas : ∀ u b, u ≠ t → (s.dispatchers h).thread = some (u,b) → pc.thread = some (u,b)
  done : pc = .done → s.resultWorkers h = .exited
  inside : ¬ (s.resultWorkers h).Left
  account : Agrees (ordered h) ((s.calls h).map .ok++(inHand g.carried (s.resultWorkers h)++
    (g.queue h++[t]).map g.carried++flight.map g.carried++pending (ordered h) g.carried pc))
    ((s.dispatched h).map Job.run)

theorem MayEnqueue.not_mem {n : ℕ} {pc : DispatcherPc β} {flight : List ℕ}
    (hmay : MayEnqueue ordered s g h t n pc flight) (hok : HandlerOk ordered s g h) :
    t ∉ g.queue h := by
  rw [hok.queueMem]
  rcases hmay.place with hplace | hplace <;> simp [hplace]

variable [DecidableEq ι]

/-- What has become of the threads and the queue once `t` is linked behind the threads of `q`. -/
structure LinkedBehind (s : PoolState ι β) (q : List ℕ) (t : ℕ) (rq : Resultq)
    (threads : ℕ → Thread ι β) (rq' : Resultq) : Prop where
  finished : rq'.finished = rq.finished
  nthreads : rq'.nthreads = rq.nthreads
  ptail : rq'.ptail = some t
  linked : Linked (fun u => (threads u).next) rq'.head (q++[t])
  other : ∀ u, u ∉ q → threads u = s.threads u
  nexts : ∀ u, ∃ n, threads u = { s.threads u with next := n }

theorem enqueueThread_spec {rq : Resultq} {q : List ℕ} (hlinked : Linked s.next rq.head q)
    (hptail : rq.ptail = q.getLast?) (hnodup : q.Nodup) (hnot : t ∉ q) (hnext : s.next t = none) :
    ∃ threads rq', enqueueThread s h rq t =
        { s with threads := threads, rqs := Function.update s.rqs h (some rq') } ∧
      LinkedBehind s q t rq threads rq' := by
  rcases List.eq_nil_or_concat q with rfl | ⟨q',u,rfl⟩
  · have hnone : rq.ptail = none := hptail
    refine ⟨s.threads,{ rq with head := some t, ptail := some t },?_,rfl,rfl,rfl,
      .single hnext,fun _ _ => rfl,fun u => ⟨_,rfl⟩⟩
    simp only [enqueueThread,hnone]
    rfl
  · rw [List.concat_eq_append] at *
    have hsome : rq.ptail = some u := by rw [hptail,List.getLast?_concat]
    have hne : u ≠ t := by
      rintro rfl
      exact hnot (by simp)
    refine ⟨(s.setNext u (some t)).threads,{ rq with ptail := some t },?_,rfl,rfl,rfl,?_,?_,?_⟩
    · simp only [enqueueThread,hsome]
      rfl
    · have hlast : (q'++[u]).getLast? = some u := List.getLast?_concat
      apply hlinked.append hlast
      · simp [PoolState.setNext,PoolState.setThread]
      · simpa [PoolState.setNext,PoolState.setThread,PoolState.next,hne.symm] using hnext
      · exact hnodup
      · exact fun b _ hb => next_update hb
    · intro b hb
      have hbu : b ≠ u := by
        rintro rfl
        exact hb (by simp)
      simp [PoolState.setNext,PoolState.setThread,hbu]
    · intro b
      by_cases hbu : b = u
      · subst hbu
        exact ⟨some t,by simp [PoolState.setNext,PoolState.setThread]⟩
      · exact ⟨(s.threads b).next,by simp [PoolState.setNext,PoolState.setThread,hbu]⟩

def Ledger.enqueue (g : Ledger ι β) (h : ι) (t : ℕ) (flight : List ℕ) : Ledger ι β :=
  { g with place := Function.update g.place t (some (.queue h)),
           queue := Function.update g.queue h (g.queue h++[t]),
           flight := Function.update g.flight h flight }

section
variable {n : ℕ} {pc : DispatcherPc β} {flight : List ℕ} {th : Thread ι β} {rq rq' : Resultq}
  {threads : ℕ → Thread ι β}

/-- The thread leaves the hands of the dispatching thread, or the flights. -/
theorem MayEnqueue.keep (hmay : MayEnqueue ordered s g h t n pc flight) {p : Place ι}
    (hhanded : p ≠ .handed h) (hflight : p ≠ .flight h) (hqueue : p ≠ .queue h) (u : ℕ) :
    (g.enqueue h t flight).place u = some p ↔ g.place u = some p := by
  rcases hmay.place with hplace | hplace
  · exact place_update hplace (fun he => hhanded (Option.some.inj he).symm) hqueue.symm u
  · exact place_update hplace (fun he => hflight (Option.some.inj he).symm) hqueue.symm u

/-- The threads of the queue are linked anew, `t` has its result, and the others are as before. -/
theorem LinkedBehind.threadOk (hlinked : LinkedBehind (s.setThread t th) (g.queue h) t rq threads rq')
    (hqueue : ∀ u, u ∈ g.queue h ↔ g.place u = some (.queue h)) (hnot : t ∉ g.queue h)
    (hth : th.Carries none (g.carried t))
    (hthreads : ∀ u p, g.place u = some p → ThreadOk (s.threads u) (g.carried u) p) :
    ∀ u p, (g.enqueue h t flight).place u = some p → ThreadOk (threads u) (g.carried u) p := by
  intro u p hp
  have hp' : Function.update g.place t (some (.queue h)) u = some p := hp
  by_cases hu : u = t
  · subst hu
    rw [Function.update_self] at hp'
    obtain rfl := Option.some.inj hp'
    change (threads u).Carries none _
    rw [hlinked.other u hnot]
    simpa [PoolState.setThread] using hth
  · rw [Function.update_of_ne hu] at hp'
    have hok := hthreads u p hp'
    by_cases hq : u ∈ g.queue h
    · obtain ⟨m,hm⟩ := hlinked.nexts u
      obtain rfl := Option.some.inj (hp'.symm.trans ((hqueue u).mp hq))
      change (threads u).Carries none _
      rw [hm]
      simpa [PoolState.setThread,hu] using Thread.Carries.setNext hok m
    · rw [hlinked.other u hq]
      simpa [PoolState.setThread,hu] using hok

/-- The queue with the thread in it. -/
theorem RqOk.enqueue {s0 : PoolState ι β} (hok : RqOk (ordered h) s g h rq)
    (hmay : MayEnqueue ordered s g h t n pc flight)
    (hlinked : LinkedBehind s0 (g.queue h) t { rq with nthreads := n } threads rq')
    {s' : PoolState ι β} (hthreads : s'.threads = threads) (hpc : s'.dispatchers h = pc) :
    RqOk (ordered h) s' (g.enqueue h t flight) h rq' := by
  have hqueue : (g.enqueue h t flight).queue h = g.queue h++[t] := Function.update_self ..
  have hflight : (g.enqueue h t flight).flight h = flight := Function.update_self ..
  constructor
  · rw [hqueue]
    subst hthreads
    exact hlinked.linked
  · rw [hqueue,hlinked.ptail]
    simp
  · rw [hlinked.nthreads]
    exact hmay.lt
  · rw [hqueue,hflight,hlinked.nthreads,hpc]
    simpa [Nat.add_assoc] using hmay.count
  · rw [hlinked.finished,hpc,hmay.finishing]
    exact hok.finished

/-- The handler of the thread. -/
theorem HandlerOk.enqueue {s0 : PoolState ι β} (hok : HandlerOk ordered s g h)
    (hmay : MayEnqueue ordered s g h t n pc flight) (hrq : s.rqs h = some rq)
    (hlinked : LinkedBehind s0 (g.queue h) t { rq with nthreads := n } threads rq') :
    HandlerOk ordered (({ s with
      threads := threads
      rqs := Function.update s.rqs h (some rq') } : PoolState ι β).setDispatcher h pc)
      (g.enqueue h t flight) h := by
  have hqueue : (g.enqueue h t flight).queue h = g.queue h++[t] := Function.update_self ..
  have hflight : (g.enqueue h t flight).flight h = flight := Function.update_self ..
  constructor
  · intro rq1 hrq1
    simp only [PoolState.setDispatcher,Function.update_self] at hrq1
    obtain rfl := Option.some.inj hrq1
    exact (hok.rq rq hrq).enqueue hmay hlinked rfl (Function.update_self ..)
  · have hopen : s.resultWorkers h ≠ .exited := fun he => hmay.inside (.inr he)
    simpa [PoolState.setDispatcher] using hopen
  · rw [hqueue]
    exact mem_arrived hok.queueMem
  · rw [hqueue]
    exact nodup_arrived hok.queueNodup (hmay.not_mem hok)
  · intro u
    rw [hflight,hmay.flightMem,hok.flightMem]
    change _ ↔ Function.update g.place t (some (.queue h)) u = _
    by_cases hu : u = t
    · subst hu
      simp
    · simp [hu]
  · rw [hflight]
    exact hmay.flightNodup
  · rw [hflight]
    exact hmay.grounded
  · rw [PoolState.dispatchers_setDispatcher]
    exact hmay.dispatcher
  · rw [PoolState.dispatchers_setDispatcher]
    exact hok.dispatcherHas.moved rfl hmay.dispatcherHas (by simp) (by simp)
  · exact hok.result.frame (fun u => (hmay.keep (by simp) (by simp) (by simp) u).mpr)
      (fun u => (hmay.keep (by simp) (by simp) (by simp) u).mpr)
  · exact hok.resultHas.moved rfl (fun u _ hu => hu) (by simp)
  · exact fun hl => absurd hl hmay.inside
  · rw [PoolState.dispatchers_setDispatcher]
    exact hmay.done
  · refine Agrees.of_eq ?_ hmay.account
    rw [outstanding,hqueue,hflight,PoolState.dispatchers_setDispatcher]
    rfl

end

/-! ### The first of a queue -/

def Ledger.pop (g : Ledger ι β) (h : ι) (t : ℕ) (ts : List ℕ) : Ledger ι β :=
  { g with place := Function.update g.place t (some (.popped h)),
           queue := Function.update g.queue h ts }

section
variable {ts : List ℕ} {rq : Resultq} {n : ℕ}

theorem Ledger.pop_place (hplace : g.place t = some (.queue h)) {p : Place ι}
    (hqueue : p ≠ .queue h) (hpopped : p ≠ .popped h) (u : ℕ) :
    (g.pop h t ts).place u = some p ↔ g.place u = some p :=
  place_update hplace (fun he => hqueue (Option.some.inj he).symm) hpopped.symm u

/-- The queue without its first thread. -/
theorem RqOk.pop (hok : RqOk (ordered h) s g h rq) (hqueue : g.queue h = t::ts) (hnot : t ∉ ts)
    (hn : n = (rq.nthreads+2^64-1)%2^64) {s' : PoolState ι β}
    (hnext : ∀ u, u ≠ t → s'.next u = s.next u) (hpc : s'.dispatchers h = s.dispatchers h) :
    RqOk (ordered h) s' (g.pop h t ts) h { rq with
      head := (s.threads t).next
      nthreads := n
      ptail := if (s.threads t).next.isNone then none else rq.ptail } := by
  have hrest : (g.pop h t ts).queue h = ts := Function.update_self ..
  have hlinked := hok.linked
  rw [hqueue] at hlinked
  constructor
  · rw [hrest]
    exact hlinked.pop (fun u hu => hnext u (ne_of_mem_of_not_mem hu hnot))
  · have hhead : (s.threads t).next = ts.head? := hlinked.2.head_eq
    have hptail := hok.ptail
    rw [hqueue] at hptail
    simp only [hrest,hhead,hptail]
    cases ts with
    | nil => rfl
    | cons u us => simp [List.getLast?_cons_cons]
  · change n < _
    omega
  · have hcount := hok.count
    have hlt := hok.lt
    rw [hqueue,List.length_cons] at hcount
    rw [hrest,hpc]
    change (n+_)%_ = (_+(g.flight h).length)%_
    generalize uncounted (ordered h) (s.dispatchers h) = k at hcount ⊢
    omega
  · rw [hpc]
    exact hok.finished

/-- The handler of the queue. -/
theorem HandlerOk.pop (hok : HandlerOk ordered s g h) (hpc : s.resultWorkers h = .loop)
    (hrq : s.rqs h = some rq) (hqueue : g.queue h = t::ts)
    (hn : n = (rq.nthreads+2^64-1)%2^64) :
    HandlerOk ordered (((s.setNext t none).setRq h (some { rq with
      head := (s.threads t).next
      nthreads := n
      ptail := if (s.threads t).next.isNone then none else rq.ptail })).setResult h (.wait t))
      (g.pop h t ts) h := by
  have hrest : (g.pop h t ts).queue h = ts := Function.update_self ..
  have hplace : g.place t = some (.queue h) := (hok.queueMem t).mp (by simp [hqueue])
  obtain ⟨hnot,hnodup⟩ := List.nodup_cons.mp (hqueue ▸ hok.queueNodup)
  constructor
  · intro rq1 hrq1
    simp only [PoolState.setResult,PoolState.rqs_setRq] at hrq1
    obtain rfl := Option.some.inj hrq1
    exact (hok.rq rq hrq).pop hqueue hnot hn (fun u hu => next_update hu) rfl
  · simp [PoolState.setResult,PoolState.setRq]
  · intro u
    rw [hrest]
    change _ ↔ Function.update g.place t (some (.popped h)) u = _
    by_cases hu : u = t
    · subst hu
      simp [hnot]
    · rw [Function.update_of_ne hu,← hok.queueMem,hqueue,List.mem_cons,or_iff_right hu]
  · rwa [hrest]
  · exact fun u => (hok.flightMem u).trans
      (Ledger.pop_place hplace (p := .flight h) (by simp) (by simp) u).symm
  · exact hok.flightNodup
  · exact hok.grounded
  · exact hok.dispatcher.frame
      (fun u => (Ledger.pop_place hplace (p := .got h) (by simp) (by simp) u).mpr)
      (fun u => (Ledger.pop_place hplace (p := .handed h) (by simp) (by simp) u).mpr)
  · exact hok.dispatcherHas.moved rfl (fun _ _ _ hu => hu) (by simp) (by simp)
  · simp [ResultOk,Ledger.pop]
  · exact hok.resultHas.moved rfl (by simp [hpc,ResultPc.thread]) (by simp [ResultPc.thread])
  · simp [ResultPc.Left]
  · intro hd
    have := hok.done hd
    rw [hpc] at this
    cases this
  · refine Agrees.of_eq ?_ hok.account
    simp [outstanding,Ledger.pop,PoolState.setResult,PoolState.setRq,PoolState.setNext,
      PoolState.setThread,hpc,hqueue,inHand]

end

/-! ### Queueing -/

variable [Fintype ι]

/-- A thread with a job is linked into the queue of its handler: by the dispatching thread if the
handler is ordered, else by the worker. -/
theorem Safe.enqueue (hs : Safe ordered s g) {th : Thread ι β} {n : ℕ} {pc : DispatcherPc β}
    {flight : List ℕ} (hmay : MayEnqueue ordered s g h t n pc flight)
    (hth : th.Carries none (g.carried t)) (hnext : th.next = none)
    (hstill : (s.threads t).next = none) {rq : Resultq} (hrq : s.rqs h = some rq) :
    ∃ g', Safe ordered
      ((enqueueThread (s.setThread t th) h { rq with nthreads := n } t).setDispatcher h pc) g' ∧
      g'.free = g.free := by
  have hok := hs.handlers h
  have hrqok := hok.rq rq hrq
  have hnot := hmay.not_mem hok
  have hsame : (s.setThread t th).next = s.next := next_setThread (hnext.trans hstill.symm)
  obtain ⟨threads,rq',heq,hlinked⟩ := @enqueueThread_spec ι β
    (s.setThread t th) h t _ { rq with nthreads := n } (g.queue h) (hsame ▸ hrqok.linked)
    hrqok.ptail hok.queueNodup hnot (by rw [hsame]; exact hstill)
  rw [heq]
  obtain ⟨p0,hplace,howner⟩ : ∃ p0, g.place t = some p0 ∧ p0.owner = some h := by
    rcases hmay.place with hplace | hplace <;> exact ⟨_,hplace,rfl⟩
  have hfar : ∀ u, u ≠ t → u ∉ g.queue h → (threads u).next = s.next u := by
    intro u hu hq
    rw [hlinked.other u hq]
    exact congrFun hsame u
  refine ⟨g.enqueue h t flight,?_,rfl⟩
  constructor
  · refine hs.linked.frame (fun u hu => hfar u ?_ ?_)
    · rintro rfl
      rw [(hs.freeMem _).mp hu] at hplace
      obtain rfl := Option.some.inj hplace
      cases howner
    · rw [hok.queueMem,(hs.freeMem u).mp hu]
      simp
  · exact fun u => (hs.freeMem u).trans (hmay.keep (by simp) (by simp) (by simp) u).symm
  · exact hs.freeNodup
  · exact created_moved hplace hs.created
  · exact hlinked.threadOk hok.queueMem hnot hth hs.threads
  · have hsum := sum_update creating s.dispatchers h pc
    have hcount := hs.count
    have hcreating := hmay.creating
    simp only [PoolState.setDispatcher,PoolState.setThread] at hsum ⊢
    omega
  · exact hs.count_le
  · intro h'
    by_cases hne : h' = h
    · subst hne
      exact hok.enqueue hmay hrq hlinked
    · exact (hs.handlers h').elsewhere hplace
        (fun p hp => (Option.some.inj hp) ▸ owner_ne howner hne) (owner_ne rfl hne)
        (Function.update_of_ne hne _ _) (Function.update_of_ne hne _ _) rfl rfl rfl
        (Function.update_of_ne hne _ _) (Function.update_of_ne hne _ _) rfl (fun _ _ => rfl)
        (fun u hu hut => hfar u hut (fun hq => hne (Place.queue.inj (Option.some.inj
          ((((hs.handlers h').queueMem u).mp hu).symm.trans ((hok.queueMem u).mp hq))))))

/-! ### The result worker -/

/-- The first thread is taken off the queue. -/
theorem Safe.popQueue (hs : Safe ordered s g) (hpc : s.resultWorkers h = .loop) {rq : Resultq}
    (hrq : s.rqs h = some rq) (hhead : rq.head = some t) {n : ℕ}
    (hn : n = (rq.nthreads+2^64-1)%2^64) : ∃ g', Safe ordered
      (((s.setNext t none).setRq h (some { rq with
        head := (s.threads t).next
        nthreads := n
        ptail := if (s.threads t).next.isNone then none else rq.ptail })).setResult h
        (.wait t)) g' ∧ g'.free = g.free := by
  have hok := hs.handlers h
  obtain ⟨ts,hqueue⟩ : ∃ ts, g.queue h = t::ts := by
    have := (hok.rq rq hrq).linked.head_eq
    rw [hhead] at this
    exact List.head?_eq_some_iff.mp this.symm
  have hplace : g.place t = some (.queue h) := (hok.queueMem t).mp (by simp [hqueue])
  have hth : (s.threads t).Carries none (g.carried t) := hs.threads t _ hplace
  refine ⟨g.pop h t ts,?_,rfl⟩
  constructor
  · refine hs.linked.frame (fun u hu => next_update ?_)
    rintro rfl
    have := (hs.freeMem _).mp hu
    rw [hplace] at this
    cases this
  · exact fun u => (hs.freeMem u).trans
      (Ledger.pop_place hplace (p := .free) (by simp) (by simp) u).symm
  · exact hs.freeNodup
  · exact created_moved hplace hs.created
  · exact threads_moved hs.threads ⟨hth.setNext none,rfl⟩ (fun _ _ => rfl)
  · exact hs.count
  · exact hs.count_le
  · intro h'
    by_cases hne : h' = h
    · subst hne
      exact hok.pop hpc hrq hqueue hn
    · exact (hs.handlers h').elsewhere hplace
        (fun p hp => (Option.some.inj hp) ▸ owner_ne rfl hne) (owner_ne rfl hne)
        (Function.update_of_ne hne _ _) rfl (Function.update_of_ne hne _ _) rfl rfl
        (Function.update_of_ne hne _ _) rfl rfl (fun _ _ => rfl) (fun u _ hu => next_update hu)

/-- The result is taken from a thread that does not run. -/
theorem Safe.take (hs : Safe ordered s g) (hpc : s.resultWorkers h = .wait t)
    (hrunning : (s.threads t).running = false) : ∃ g', Safe ordered
      ((s.setThread t { s.threads t with res := none }).setResult h
        (.took t (s.threads t).res)) g' ∧ g'.free = g.free := by
  have hold := hs.handlers h
  have hplace : g.place t = some (.popped h) := by
    have := hold.result
    rwa [hpc] at this
  obtain ⟨hth,hnext⟩ : (s.threads t).Carries none (g.carried t) ∧ (s.threads t).next = none :=
    hs.threads t _ hplace
  obtain ⟨hidle,hres⟩ := hth.finished hrunning
  have hsame : (s.setThread t { s.threads t with res := none }).next = s.next := next_setThread rfl
  refine ⟨{ g with place := Function.update g.place t (some (.took h)) },?_,rfl⟩
  constructor
  · exact hs.linked.frame (fun u _ => congrFun hsame u)
  · exact fun u => (hs.freeMem u).trans (place_update (p := .free) hplace (by simp) (by simp) u).symm
  · exact hs.freeNodup
  · exact created_moved hplace hs.created
  · exact threads_moved hs.threads ⟨⟨hidle.cb,hidle.rq,hidle.running,hidle.pc⟩,rfl,hnext⟩
      (fun _ _ => rfl)
  · exact hs.count
  · exact hs.count_le
  · intro h'
    by_cases hne : h' = h
    · subst hne
      refine hold.rereceive rfl rfl rfl rfl rfl (fun u p _ h1 h2 => place_update hplace
        (fun he => h1 (Option.some.inj he).symm) (Ne.symm h2) u) rfl
        (fun u _ => congrFun hsame u) ?_ ?_ ?_ ?has ?_
      · simp [PoolState.setResult,PoolState.setThread,hpc,inHand,hres]
      case has =>
        exact hold.resultHas.moved rfl
          (by simp +contextual [hpc,ResultPc.thread]) (by simp [ResultPc.thread])
      all_goals simp [hpc,ResultOk,ResultPc.Left]
    · exact (hs.handlers h').elsewhere hplace
        (fun p hp => (Option.some.inj hp) ▸ owner_ne rfl hne) (owner_ne rfl hne) rfl rfl
        (Function.update_of_ne hne _ _) rfl rfl rfl rfl rfl (fun _ _ => rfl)
        (fun u _ _ => congrFun hsame u)

/-- The thread goes back to the pool. -/
theorem Safe.giveBack (hs : Safe ordered s g) {res : Option β}
    (hpc : s.resultWorkers h = .took t res) : ∃ g', Safe ordered
      ((({ s with pool := { s.pool with head := some t } }).setNext t
        s.pool.head).setResult h (.deliver res)) g' ∧ g'.free = t::g.free := by
  have hold := hs.handlers h
  have hplace : g.place t = some (.took h) := by
    have := hold.result
    rwa [hpc] at this
  obtain ⟨hidle,hres,-⟩ : ThreadOk (s.threads t) (g.carried t) (.took h) := hs.threads t _ hplace
  have hnot : t ∉ g.free := by
    rw [hs.freeMem,hplace]
    simp
  refine ⟨{ g with place := Function.update g.place t (some .free), free := t::g.free },?_,rfl⟩
  constructor
  · refine hs.linked.push ?_ (fun u hu => next_update (ne_of_mem_of_not_mem hu hnot))
    simp [PoolState.next,PoolState.setResult,PoolState.setNext,PoolState.setThread]
  · intro u
    dsimp only
    by_cases hu : u = t
    · subst hu
      simp
    · rw [Function.update_of_ne hu,List.mem_cons,or_iff_right hu]
      exact hs.freeMem u
  · exact List.nodup_cons.mpr ⟨hnot,hs.freeNodup⟩
  · exact created_moved hplace hs.created
  · exact threads_moved hs.threads ⟨⟨hidle.cb,hidle.rq,hidle.running,hidle.pc⟩,hres⟩
      (fun _ _ => rfl)
  · exact hs.count
  · exact hs.count_le
  · intro h'
    by_cases hne : h' = h
    · subst hne
      refine hold.rereceive rfl rfl rfl rfl rfl (fun u p hp _ h2 => place_update hplace
        (fun he => h2 (Option.some.inj he).symm) ?_ u) rfl
        (fun u hu => next_update (hold.queue_ne hplace (by simp) hu)) ?_ ?_ ?_ ?has ?_
      · rintro rfl
        cases hp
      case has =>
        exact hold.resultHas.moved rfl
          (by simp +contextual [hpc,ResultPc.thread,eq_comm]) (by simp)
      · simp [PoolState.setResult,PoolState.setNext,PoolState.setThread,hpc,inHand]
      all_goals simp [hpc,ResultOk,ResultPc.Left]
    · exact (hs.handlers h').elsewhere hplace
        (fun p hp => (Option.some.inj hp) ▸ owner_ne rfl hne) (by simp [Place.owner]) rfl rfl
        (Function.update_of_ne hne _ _) rfl rfl rfl rfl rfl (fun _ _ => rfl)
        (fun u _ hu => next_update hu)

/-- The callback is called. -/
theorem Safe.deliver (hs : Safe ordered s g) {res : Option β}
    (hpc : s.resultWorkers h = .deliver res) : Safe ordered
      (({ s with calls := Function.update s.calls h (s.calls h++[res]) }).setResult h .loop) g where
  linked := hs.linked
  freeMem := hs.freeMem
  freeNodup := hs.freeNodup
  created := hs.created
  threads := hs.threads
  count := hs.count
  count_le := hs.count_le
  handlers h' := by
    by_cases hne : h' = h
    · subst hne
      refine (hs.handlers h').rereceive rfl rfl rfl rfl rfl (fun _ _ _ _ _ => Iff.rfl) rfl
        (fun _ _ => rfl) ?_ ?_ ?_ ?has ?_
      · simp [PoolState.setResult,hpc,inHand]
      case has =>
        intro u hu
        have := (hs.handlers h').resultHas u hu
        rw [hpc] at this
        cases this
      all_goals simp [hpc,ResultOk,ResultPc.Left]
    · exact (hs.handlers h').untouched ⟨rfl,rfl,Function.update_of_ne hne _ _,rfl,
        Function.update_of_ne hne _ _,rfl,rfl,fun _ _ _ => Iff.rfl,fun _ _ _ _ => rfl,
        fun _ _ => rfl⟩

/-- The queue is destroyed. -/
theorem Safe.destroy (hs : Safe ordered s g) (hpc : s.resultWorkers h = .leaving) :
    Safe ordered ((s.setRq h none).setResult h .exited) g where
  linked := hs.linked
  freeMem := hs.freeMem
  freeNodup := hs.freeNodup
  created := hs.created
  threads := hs.threads
  count := hs.count
  count_le := hs.count_le
  handlers h' := by
    by_cases hne : h' = h
    · subst hne
      have hold := hs.handlers h'
      exact { hold with
        rq := by
          intro rq hrq
          simp [PoolState.setResult] at hrq
        destroyed := by simp [PoolState.setResult]
        result := by simp [ResultOk]
        resultHas := by
          intro u hu
          have := hold.resultHas u hu
          rw [hpc] at this
          cases this
        left := fun _ => hold.left (.inl hpc)
        done := by simp
        account := by
          have haccount := hold.account
          rw [outstanding,hpc] at haccount
          simp only [outstanding,PoolState.resultWorkers_setResult]
          exact haccount }
    · exact (hs.handlers h').untouched ⟨Function.update_of_ne hne _ _,rfl,
        Function.update_of_ne hne _ _,rfl,rfl,rfl,rfl,fun _ _ _ => Iff.rfl,fun _ _ _ _ => rfl,
        fun _ _ => rfl⟩

end

end Mtbl
