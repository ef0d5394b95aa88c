import Mtbl.Pool.Ledger

/-! Every move keeps the invariant of the pool. A move by an actor of one handler leaves the other
handlers alone: it moves at most one thread, between places of this handler and the pool. -/
namespace Mtbl
open CRun LinkedList

section
variable {ι β : Type} {ordered : ι → Bool} {s s' : PoolState ι β}
  {g g' : Ledger ι β} {h : ι} {t : ℕ}

/-! ### Agreement of lists -/

section
variable {γ : Type} {o : Bool} {xs xs' ys zs : List γ}

theorem Agrees.of_eq (hxs : xs' = xs) (ha : Agrees o xs ys) : Agrees o xs' ys := hxs ▸ ha

theorem Agrees.append (ha : Agrees o xs ys) (zs : List γ) : Agrees o (xs++zs) (ys++zs) :=
  ⟨ha.1.append_right zs,fun ho => by rw [ha.2 ho]⟩

theorem Agrees.perm (ha : Agrees o xs ys) (hp : xs'.Perm xs) (ho : o = false) : Agrees o xs' ys :=
  ⟨hp.trans ha.1,fun h => by rw [ho] at h; cases h⟩

end

/-! ### Handlers that a move leaves alone -/

structure Untouched (s s' : PoolState ι β) (g g' : Ledger ι β) (h : ι) : Prop where
  rqs : s'.rqs h = s.rqs h
  dispatchers : s'.dispatchers h = s.dispatchers h
  resultWorkers : s'.resultWorkers h = s.resultWorkers h
  dispatched : s'.dispatched h = s.dispatched h
  calls : s'.calls h = s.calls h
  queue : g'.queue h = g.queue h
  flight : g'.flight h = g.flight h
  place : ∀ (t : ℕ) (p : Place ι), p.owner = some h →
    (g'.place t = some p ↔ g.place t = some p)
  carried : ∀ (t : ℕ) (p : Place ι), p.owner = some h → g.place t = some p →
    g'.carried t = g.carried t
  next : ∀ t ∈ g.queue h, s'.next t = s.next t

/-- A thread in the hands of the dispatching thread is where it was. -/
theorem DispatcherOk.frame {o : Bool} {pc : DispatcherPc β} (hok : DispatcherOk o g h pc)
    (hgot : ∀ u, g.place u = some (.got h) → g'.place u = some (.got h))
    (hhanded : ∀ u, g.place u = some (.handed h) → g'.place u = some (.handed h)) :
    DispatcherOk o g' h pc := by
  cases pc with
  | got job u => exact hgot u hok
  | checked job u => exact hgot u hok
  | handed u => exact fun ho => hhanded u (hok ho)
  | _ => trivial

/-- A thread in the hands of the result worker is where it was. -/
theorem ResultOk.frame {pc : ResultPc β} (hok : ResultOk g h pc)
    (hpopped : ∀ u, g.place u = some (.popped h) → g'.place u = some (.popped h))
    (htook : ∀ u, g.place u = some (.took h) → g'.place u = some (.took h)) :
    ResultOk g' h pc := by
  cases pc with
  | wait u => exact hpopped u hok
  | asleepOn u => exact hpopped u hok
  | took u res => exact htook u hok
  | _ => trivial

theorem DispatcherHas.frame {o : Bool} {pc : DispatcherPc β} (hhas : DispatcherHas o g h pc)
    (hgot : ∀ u, g'.place u = some (.got h) → g.place u = some (.got h))
    (hhanded : ∀ u, g'.place u = some (.handed h) → g.place u = some (.handed h)) :
    DispatcherHas o g' h pc :=
  fun u => ⟨fun hu => (hhas u).1 (hgot u hu),fun hu => (hhas u).2 (hhanded u hu)⟩

theorem ResultHas.frame {pc : ResultPc β} (hhas : ResultHas g h pc)
    (hpopped : ∀ u, g'.place u = some (.popped h) → g.place u = some (.popped h))
    (htook : ∀ u, g'.place u = some (.took h) → g.place u = some (.took h)) :
    ResultHas g' h pc := fun u hu => hhas u (hu.imp (hpopped u) (htook u))

/-- The thread that has moved may come into the hands of the dispatching thread, and no other. -/
theorem DispatcherHas.moved {o : Bool} {pc pc' : DispatcherPc β} {p1 : Option (Place ι)}
    (hhas : DispatcherHas o g h pc) (hmoved : g'.place = Function.update g.place t p1)
    (hsame : ∀ u b, u ≠ t → pc.thread = some (u,b) → pc'.thread = some (u,b))
    (hgot : p1 = some (.got h) → pc'.thread = some (t,false))
    (hhanded : p1 = some (.handed h) → pc'.thread = some (t,true) ∧ o = true) :
    DispatcherHas o g' h pc' := by
  intro u
  rw [hmoved]
  by_cases hut : u = t
  · subst hut
    rw [Function.update_self]
    exact ⟨hgot,hhanded⟩
  · rw [Function.update_of_ne hut]
    exact ⟨fun hu => hsame u _ hut ((hhas u).1 hu),fun hu => ((hhas u).2 hu).imp_left (hsame u _ hut)⟩

theorem ResultHas.moved {pc pc' : ResultPc β} {p1 : Option (Place ι)}
    (hhas : ResultHas g h pc) (hmoved : g'.place = Function.update g.place t p1)
    (hsame : ∀ u, u ≠ t → pc.thread = some u → pc'.thread = some u)
    (hnew : p1 = some (.popped h) ∨ p1 = some (.took h) → pc'.thread = some t) :
    ResultHas g' h pc' := by
  intro u hu
  rw [hmoved] at hu
  by_cases hut : u = t
  · subst hut
    rw [Function.update_self] at hu
    exact hnew hu
  · rw [Function.update_of_ne hut] at hu
    exact hsame u hut (hhas u hu)

theorem inHand_congr {carried : ℕ → Run (Option β)} {pc : ResultPc β} (hok : ResultOk g h pc)
    (hsame : ∀ u, g.place u = some (.popped h) → carried u = g.carried u) :
    inHand carried pc = inHand g.carried pc := by
  cases pc with
  | wait u => exact congrArg (fun r => [r]) (hsame u hok)
  | asleepOn u => exact congrArg (fun r => [r]) (hsame u hok)
  | _ => rfl

theorem pending_congr {o : Bool} {carried : ℕ → Run (Option β)} {pc : DispatcherPc β}
    (hok : DispatcherOk o g h pc)
    (hsame : ∀ u, g.place u = some (.handed h) → carried u = g.carried u) :
    pending o carried pc = pending o g.carried pc := by
  cases pc with
  | handed u =>
    cases o with
    | false => rfl
    | true => exact congrArg (fun r => [r]) (hsame u (hok rfl))
  | _ => rfl

/-- The dispatching thread moves on: what the others hold stays, and so do the count and what is
pending. -/
theorem HandlerOk.redispatch (hok : HandlerOk ordered s g h) (hrqs : s'.rqs h = s.rqs h)
    (hresult : s'.resultWorkers h = s.resultWorkers h) (hdispatched : s'.dispatched h = s.dispatched h)
    (hcalls : s'.calls h = s.calls h) (hqueue : g'.queue h = g.queue h)
    (hflight : g'.flight h = g.flight h)
    (hplace : ∀ (u : ℕ) (p : Place ι), p.owner = some h → p ≠ .got h → p ≠ .handed h →
      (g'.place u = some p ↔ g.place u = some p))
    (hcarried : ∀ (u : ℕ) (p : Place ι), p.owner = some h → p ≠ .got h → p ≠ .handed h →
      g.place u = some p → g'.carried u = g.carried u)
    (hnext : ∀ u ∈ g.queue h, s'.next u = s.next u)
    (huncounted : uncounted (ordered h) (s'.dispatchers h) =
      uncounted (ordered h) (s.dispatchers h))
    (hpending : pending (ordered h) g'.carried (s'.dispatchers h) =
      pending (ordered h) g.carried (s.dispatchers h))
    (hfinishing : (s'.dispatchers h).Finishing ↔ (s.dispatchers h).Finishing)
    (hdispatcher : DispatcherOk (ordered h) g' h (s'.dispatchers h))
    (hhas : DispatcherHas (ordered h) g' h (s'.dispatchers h))
    (hdone : s'.dispatchers h = .done → s.resultWorkers h = .exited) :
    HandlerOk ordered s' g' h where
  rq rq hrq := by
    have := hok.rq rq (hrqs ▸ hrq)
    constructor
    · rw [hqueue]
      exact this.linked.frame hnext
    · rw [hqueue]
      exact this.ptail
    · exact this.lt
    · rw [huncounted,hqueue,hflight]
      exact this.count
    · rw [hfinishing]
      exact this.finished
  destroyed := by
    rw [hrqs,hresult]
    exact hok.destroyed
  queueMem u := by
    rw [hqueue,hplace u (.queue h) rfl (by simp) (by simp)]
    exact hok.queueMem u
  queueNodup := hqueue ▸ hok.queueNodup
  flightMem u := by
    rw [hflight,hplace u (.flight h) rfl (by simp) (by simp)]
    exact hok.flightMem u
  flightNodup := hflight ▸ hok.flightNodup
  grounded ho := hflight ▸ hok.grounded ho
  dispatcher := hdispatcher
  dispatcherHas := hhas
  resultHas := by
    rw [hresult]
    exact hok.resultHas.frame (fun u => (hplace u (.popped h) rfl (by simp) (by simp)).mp)
      (fun u => (hplace u (.took h) rfl (by simp) (by simp)).mp)
  result := by
    rw [hresult]
    exact hok.result.frame (fun u => (hplace u (.popped h) rfl (by simp) (by simp)).mpr)
      (fun u => (hplace u (.took h) rfl (by simp) (by simp)).mpr)
  left hl := by
    rw [hfinishing,hqueue,hflight]
    exact hok.left (hresult ▸ hl)
  done hd := by
    rw [hresult]
    exact hdone hd
  account := by
    have hmapqueue : (g.queue h).map g'.carried = (g.queue h).map g.carried :=
      List.map_congr_left (fun u hu =>
        hcarried u (.queue h) rfl (by simp) (by simp) ((hok.queueMem u).mp hu))
    have hmapflight : (g.flight h).map g'.carried = (g.flight h).map g.carried :=
      List.map_congr_left (fun u hu =>
        hcarried u (.flight h) rfl (by simp) (by simp) ((hok.flightMem u).mp hu))
    have hhand := inHand_congr hok.result (fun u => hcarried u (.popped h) rfl (by simp) (by simp))
    rw [outstanding,hcalls,hresult,hqueue,hflight,hdispatched,hhand,hpending,hmapqueue,hmapflight]
    exact hok.account

/-- The result worker moves on between two visits of its queue. -/
theorem HandlerOk.rereceive (hok : HandlerOk ordered s g h) (hrqs : s'.rqs h = s.rqs h)
    (hdispatchers : s'.dispatchers h = s.dispatchers h)
    (hdispatched : s'.dispatched h = s.dispatched h)
    (hqueue : g'.queue h = g.queue h) (hflight : g'.flight h = g.flight h)
    (hplace : ∀ (u : ℕ) (p : Place ι), p.owner = some h → p ≠ .popped h → p ≠ .took h →
      (g'.place u = some p ↔ g.place u = some p))
    (hcarried : g'.carried = g.carried) (hnext : ∀ u ∈ g.queue h, s'.next u = s.next u)
    (hhand : (s'.calls h).map .ok++inHand g.carried (s'.resultWorkers h) =
      (s.calls h).map .ok++inHand g.carried (s.resultWorkers h))
    (hexited : s'.resultWorkers h = .exited ↔ s.resultWorkers h = .exited)
    (hresult : ResultOk g' h (s'.resultWorkers h)) (hhas : ResultHas g' h (s'.resultWorkers h))
    (hleft : (s'.resultWorkers h).Left →
      (s.dispatchers h).Finishing ∧ g.queue h = [] ∧ g.flight h = []) :
    HandlerOk ordered s' g' h where
  rq rq hrq := by
    have := hok.rq rq (hrqs ▸ hrq)
    constructor
    · rw [hqueue]
      exact this.linked.frame hnext
    · rw [hqueue]
      exact this.ptail
    · exact this.lt
    · rw [hdispatchers,hqueue,hflight]
      exact this.count
    · rw [hdispatchers]
      exact this.finished
  destroyed := by
    rw [hrqs,hexited]
    exact hok.destroyed
  queueMem u := by
    rw [hqueue,hplace u (.queue h) rfl (by simp) (by simp)]
    exact hok.queueMem u
  queueNodup := hqueue ▸ hok.queueNodup
  flightMem u := by
    rw [hflight,hplace u (.flight h) rfl (by simp) (by simp)]
    exact hok.flightMem u
  flightNodup := hflight ▸ hok.flightNodup
  grounded ho := hflight ▸ hok.grounded ho
  dispatcher := by
    rw [hdispatchers]
    exact hok.dispatcher.frame (fun u => (hplace u (.got h) rfl (by simp) (by simp)).mpr)
      (fun u => (hplace u (.handed h) rfl (by simp) (by simp)).mpr)
  dispatcherHas := by
    rw [hdispatchers]
    exact hok.dispatcherHas.frame (fun u => (hplace u (.got h) rfl (by simp) (by simp)).mp)
      (fun u => (hplace u (.handed h) rfl (by simp) (by simp)).mp)
  result := hresult
  resultHas := hhas
  left hl := by
    rw [hdispatchers,hqueue,hflight]
    exact hleft hl
  done hd := by
    rw [hexited]
    exact hok.done (hdispatchers ▸ hd)
  account := by
    rw [outstanding,hdispatchers,hdispatched,hqueue,hflight,hcarried]
    simp only [← List.append_assoc]
    rw [hhand]
    simpa only [outstanding,← List.append_assoc] using hok.account

theorem HandlerOk.untouched (hok : HandlerOk ordered s g h) (hu : Untouched s s' g g' h) :
    HandlerOk ordered s' g' h := by
  apply hok.redispatch hu.rqs hu.resultWorkers hu.dispatched hu.calls hu.queue hu.flight
    (fun u p hp _ _ => hu.place u p hp) (fun u p hp _ _ => hu.carried u p hp) hu.next
  · rw [hu.dispatchers]
  · rw [hu.dispatchers]
    exact pending_congr hok.dispatcher (fun u => hu.carried u (.handed h) rfl)
  · rw [hu.dispatchers]
  · rw [hu.dispatchers]
    exact hok.dispatcher.frame (fun u => (hu.place u (.got h) rfl).mpr)
      (fun u => (hu.place u (.handed h) rfl).mpr)
  · rw [hu.dispatchers]
    exact hok.dispatcherHas.frame (fun u => (hu.place u (.got h) rfl).mp)
      (fun u => (hu.place u (.handed h) rfl).mp)
  · rw [hu.dispatchers]
    exact hok.done

/-- A thread that moves between other places. -/
theorem place_update {p0 : Option (Place ι)} {p p1 : Place ι} (hold : g.place t = p0)
    (h0 : p0 ≠ some p) (h1 : p1 ≠ p) (u : ℕ) :
    Function.update g.place t (some p1) u = some p ↔ g.place u = some p := by
  by_cases hu : u = t
  · subst hu
    rw [Function.update_self,hold]
    exact ⟨fun he => absurd (Option.some.inj he) h1,fun he => absurd he h0⟩
  · rw [Function.update_of_ne hu]

/-! ### Moves that change one field -/

theorem next_setThread {th : Thread ι β} (hnext : th.next = (s.threads t).next) :
    (s.setThread t th).next = s.next := by
  funext u
  by_cases hu : u = t
  · subst hu
    simp [PoolState.next,PoolState.setThread,hnext]
  · simp [PoolState.next,PoolState.setThread,hu]

/-- A worker's own business. -/
theorem Safe.setThread [Fintype ι] (hs : Safe ordered s g) {th : Thread ι β}
    (hnext : th.next = (s.threads t).next)
    (hok : ∀ r p, ThreadOk (s.threads t) r p → ThreadOk th r p) :
    Safe ordered (s.setThread t th) g where
  linked := by
    rw [next_setThread hnext]
    exact hs.linked
  freeMem := hs.freeMem
  freeNodup := hs.freeNodup
  created := hs.created
  threads u p hp := by
    by_cases hu : u = t
    · subst hu
      simpa [PoolState.setThread] using hok _ _ (hs.threads u p hp)
    · simpa [PoolState.setThread,hu] using hs.threads u p hp
  count := hs.count
  count_le := hs.count_le
  handlers h := (hs.handlers h).untouched
    ⟨rfl,rfl,rfl,rfl,rfl,rfl,rfl,fun _ _ _ => Iff.rfl,fun _ _ _ _ => rfl,
      fun u _ => congrFun (next_setThread hnext) u⟩

/-! ### Moves of threads -/

theorem threads_moved {th : Thread ι β} {p1 : Place ι} {carried : ℕ → Run (Option β)}
    (hthreads : ∀ u p, g.place u = some p → ThreadOk (s.threads u) (g.carried u) p)
    (hnew : ThreadOk th (carried t) p1) (hcarried : ∀ u, u ≠ t → carried u = g.carried u) :
    ∀ u p, Function.update g.place t (some p1) u = some p →
      ThreadOk (Function.update s.threads t th u) (carried u) p := by
  intro u p hp
  by_cases hu : u = t
  · subst hu
    rw [Function.update_self] at hp ⊢
    exact Option.some.inj hp ▸ hnew
  · rw [Function.update_of_ne hu] at hp ⊢
    rw [hcarried u hu]
    exact hthreads u p hp

theorem created_moved {p0 p1 : Place ι} (hold : g.place t = some p0)
    (hcreated : ∀ u, g.place u = none ↔ s.created ≤ u) (u : ℕ) :
    Function.update g.place t (some p1) u = none ↔ s.created ≤ u := by
  by_cases hu : u = t
  · subst hu
    rw [Function.update_self,← hcreated,hold]
    exact ⟨(by simp),(by simp)⟩
  · rw [Function.update_of_ne hu]
    exact hcreated u

/-- The threads of a place to which one comes. -/
theorem mem_arrived {q : List ℕ} {p : Place ι} (hmem : ∀ u, u ∈ q ↔ g.place u = some p) (u : ℕ) :
    u ∈ q++[t] ↔ Function.update g.place t (some p) u = some p := by
  rw [List.mem_append,List.mem_singleton]
  by_cases hu : u = t
  · subst hu
    simp
  · rw [Function.update_of_ne hu,hmem]
    simp [hu]

theorem nodup_arrived {q : List ℕ} (hnodup : q.Nodup) (hnot : t ∉ q) : (q++[t]).Nodup := by
  rw [← List.concat_eq_append]
  exact hnodup.concat hnot

theorem next_update {n : Option ℕ} {u : ℕ} (hu : u ≠ t) : (s.setNext t n).next u = s.next u := by
  simp [PoolState.next,PoolState.setNext,PoolState.setThread,hu]

theorem HandlerOk.queue_ne (hok : HandlerOk ordered s g h) {p0 : Option (Place ι)}
    (hplace : g.place t = p0) (h0 : p0 ≠ some (.queue h)) {u : ℕ} (hu : u ∈ g.queue h) :
    u ≠ t := by
  rintro rfl
  exact h0 (hplace.symm.trans ((hok.queueMem u).mp hu))

theorem owner_ne {h' : ι} {p : Place ι} (hp : p.owner = some h) (hne : h' ≠ h) :
    p.owner ≠ some h' :=
  fun he => hne (Option.some.inj (he.symm.trans hp))

/-- A handler that neither has the moved thread nor gets it. -/
theorem HandlerOk.elsewhere (hok : HandlerOk ordered s g h) {p0 : Option (Place ι)} {p1 : Place ι}
    (hplace : g.place t = p0) (h0 : ∀ p, p0 = some p → p.owner ≠ some h)
    (h1 : p1.owner ≠ some h) (hrqs : s'.rqs h = s.rqs h)
    (hdispatchers : s'.dispatchers h = s.dispatchers h)
    (hresult : s'.resultWorkers h = s.resultWorkers h) (hdispatched : s'.dispatched h = s.dispatched h)
    (hcalls : s'.calls h = s.calls h) (hqueue : g'.queue h = g.queue h)
    (hflight : g'.flight h = g.flight h) (hmoved : g'.place = Function.update g.place t (some p1))
    (hcarried : ∀ u, u ≠ t → g'.carried u = g.carried u)
    (hnext : ∀ u ∈ g.queue h, u ≠ t → s'.next u = s.next u) : HandlerOk ordered s' g' h := by
  refine hok.untouched ⟨hrqs,hdispatchers,hresult,hdispatched,hcalls,hqueue,hflight,
    fun u p hp => ?_,fun u p hp hu => ?_,fun u hu => ?_⟩
  · rw [hmoved]
    refine place_update hplace (fun hp0 => h0 p hp0 hp) ?_ u
    rintro rfl
    exact h1 hp
  · apply hcarried
    rintro rfl
    exact h0 p (hplace.symm.trans hu) hp
  · exact hnext u hu (hok.queue_ne hplace (fun hp0 => h0 _ hp0 rfl) hu)

/-- An idle thread that is handed a job. -/
theorem Thread.Idle.given {th : Thread ι β} (hidle : th.Idle) (o : Option ι) (job : Job β) :
    ({ th with rq := o, cb := some job.cb, arg := job.arg, running := true } :
      Thread ι β).Carries o job.run := by
  rcases hidle.pc with hloop | hloop <;> simp only [Thread.Carries,hloop] <;>
    exact .inl ⟨rfl,rfl,_,rfl,rfl⟩

theorem Safe.head_free [Fintype ι] (hs : Safe ordered s g) (hhead : s.pool.head = some t) :
    ∃ ts, g.free = t::ts ∧ g.place t = some .free := by
  have hlinked := hs.linked
  cases hfree : g.free with
  | nil =>
    rw [hfree,hhead] at hlinked
    cases hlinked
  | cons u ts =>
    rw [hfree,hhead] at hlinked
    obtain rfl := Option.some.inj hlinked.1
    exact ⟨ts,rfl,(hs.freeMem t).mp (by simp [hfree])⟩

variable [DecidableEq ι]

theorem Untouched.setDispatcher {h' : ι} (hne : h' ≠ h) (pc : DispatcherPc β) :
    Untouched s (s.setDispatcher h pc) g g h' :=
  ⟨rfl,Function.update_of_ne hne _ _,rfl,rfl,rfl,rfl,rfl,fun _ _ _ => Iff.rfl,
    fun _ _ _ _ => rfl,fun _ _ => rfl⟩

theorem Untouched.setResult {h' : ι} (hne : h' ≠ h) (pc : ResultPc β) :
    Untouched s (s.setResult h pc) g g h' :=
  ⟨rfl,rfl,Function.update_of_ne hne _ _,rfl,rfl,rfl,rfl,fun _ _ _ => Iff.rfl,
    fun _ _ _ _ => rfl,fun _ _ => rfl⟩

/-! ### A thread on its own -/

/-- The ledger once the thread is on its own with the job. -/
def Ledger.launch (g : Ledger ι β) (h : ι) (t : ℕ) (job : Job β) : Ledger ι β :=
  { g with place := Function.update g.place t (some (.flight h)),
           flight := Function.update g.flight h (g.flight h++[t]),
           carried := Function.update g.carried t job.run }

section
variable {job : Job β} {th : Thread ι β}

theorem Ledger.launch_other (hplace : g.place t = some (.got h)) {u : ℕ} {p : Place ι}
    (hu : g.place u = some p) (hp : p ≠ .got h) :
    (g.launch h t job).place u = some p ∧ (g.launch h t job).carried u = g.carried u := by
  have hne : u ≠ t := by
    rintro rfl
    exact hp (Option.some.inj (hu.symm.trans hplace))
  exact ⟨(Function.update_of_ne hne _ _).trans hu,Function.update_of_ne hne _ _⟩

theorem Ledger.launch_flight : (g.launch h t job).flight h = g.flight h++[t] :=
  Function.update_self ..

/-- The handler's queue does not count the thread yet. -/
theorem RqOk.launch {rq : Resultq} (hok : RqOk false s g h rq)
    (hpc : s.dispatchers h = .checked job t) (hnext : th.next = (s.threads t).next) :
    RqOk false ((s.setThread t th).setDispatcher h (.handed t)) (g.launch h t job) h rq where
  linked := hok.linked.frame (fun u _ => congrFun (next_setThread hnext) u)
  ptail := hok.ptail
  lt := hok.lt
  count := by
    have hcount := hok.count
    rw [hpc] at hcount
    simp only [PoolState.dispatchers_setDispatcher,Ledger.launch_flight,List.length_append,
      List.length_singleton]
    change (_+0)%_ = _ at hcount
    change (_+1)%_ = ((g.queue h).length+_)%_
    omega
  finished := by
    rw [hok.finished,hpc]
    simp [DispatcherPc.Finishing]

/-- What was pending is now in flight. -/
theorem HandlerOk.launch_outstanding (hok : HandlerOk ordered s g h)
    (hpc : s.dispatchers h = .checked job t) (hplace : g.place t = some (.got h)) :
    outstanding false ((s.setThread t th).setDispatcher h (.handed t)) (g.launch h t job) h =
      outstanding false s g h := by
  have hsame : ∀ u p, g.place u = some p → p ≠ .got h →
      (g.launch h t job).carried u = g.carried u := fun u p hu hp => (Ledger.launch_other hplace hu hp).2
  have hhand := inHand_congr hok.result (fun u hu => hsame u _ hu (by simp))
  have hqueue : (g.queue h).map (g.launch h t job).carried = (g.queue h).map g.carried :=
    List.map_congr_left (fun u hu => hsame u _ ((hok.queueMem u).mp hu) (by simp))
  have hflight : (g.flight h).map (g.launch h t job).carried = (g.flight h).map g.carried :=
    List.map_congr_left (fun u hu => hsame u _ ((hok.flightMem u).mp hu) (by simp))
  have hself : (g.launch h t job).carried t = job.run := Function.update_self ..
  have hqueues : (g.launch h t job).queue = g.queue := rfl
  rw [outstanding,outstanding,hpc,Ledger.launch_flight,hqueues]
  simp only [PoolState.setDispatcher,PoolState.setThread,Function.update_self,hhand,
    List.map_append,hqueue,hflight,pending]
  simp [hself]

/-- The handler of the thread. -/
theorem HandlerOk.launch (hok : HandlerOk ordered s g h) (hpc : s.dispatchers h = .checked job t)
    (ho : ordered h = false) (hplace : g.place t = some (.got h))
    (hnext : th.next = (s.threads t).next) :
    HandlerOk ordered ((s.setThread t th).setDispatcher h (.handed t)) (g.launch h t job) h := by
  have hflight : t ∉ g.flight h := by
    rw [hok.flightMem,hplace]
    simp
  have hmoved : ∀ u p, g.place u = some p → p ≠ .got h →
      (g.launch h t job).place u = some p := fun u p hu hp => (Ledger.launch_other hplace hu hp).1
  constructor
  · intro rq hrq
    have hrqok := hok.rq rq hrq
    rw [ho] at hrqok ⊢
    exact hrqok.launch hpc hnext
  · exact hok.destroyed
  · exact fun u => (hok.queueMem u).trans
      (place_update (p := .queue h) hplace (by simp) (by simp) u).symm
  · exact hok.queueNodup
  · intro u
    rw [Ledger.launch_flight]
    exact mem_arrived hok.flightMem u
  · rw [Ledger.launch_flight]
    exact nodup_arrived hok.flightNodup hflight
  · intro ht
    rw [ho] at ht
    cases ht
  · simp [DispatcherOk,ho]
  · exact hok.dispatcherHas.moved rfl (by simp +contextual [hpc,DispatcherPc.thread,eq_comm])
      (by simp) (by simp)
  · exact hok.result.frame (fun u hu => hmoved u _ hu (by simp)) (fun u hu => hmoved u _ hu (by simp))
  · exact hok.resultHas.moved rfl (fun u _ hu => hu) (by simp)
  · intro hl
    have := (hok.left hl).1
    rw [hpc] at this
    rcases this with hf | hf <;> cases hf
  · simp
  · have haccount := hok.account
    rw [ho] at haccount ⊢
    rwa [hok.launch_outstanding hpc hplace]

end

/-! ### Moves of one handler -/

variable [Fintype ι]

theorem sum_update {κ : Type} (f : κ → ℕ) (d : ι → κ) (i : ι) (x : κ) :
    ∑ h, f (Function.update d i x h)+f (d i) = ∑ h, f (d h)+f x := by
  have hcomp : (fun h => f (Function.update d i x h)) =
      Function.update (fun h => f (d h)) i (f x) := Function.comp_update f d i x
  rw [hcomp,Finset.sum_update_of_mem (Finset.mem_univ i),
    ← Finset.add_sum_erase _ _ (Finset.mem_univ i),Finset.sdiff_singleton_eq_erase]
  omega

/-- A dispatching thread moves on and nothing else changes. -/
theorem Safe.setDispatcher (hs : Safe ordered s g) {pc : DispatcherPc β}
    (hcreating : creating pc = creating (s.dispatchers h))
    (huncounted : uncounted (ordered h) pc = uncounted (ordered h) (s.dispatchers h))
    (hpending : pending (ordered h) g.carried pc = pending (ordered h) g.carried (s.dispatchers h))
    (hfinishing : pc.Finishing ↔ (s.dispatchers h).Finishing)
    (hok : DispatcherOk (ordered h) g h pc) (hthread : pc.thread = (s.dispatchers h).thread)
    (hdone : pc = .done → s.resultWorkers h = .exited) :
    Safe ordered (s.setDispatcher h pc) g where
  linked := hs.linked
  freeMem := hs.freeMem
  freeNodup := hs.freeNodup
  created := hs.created
  threads := hs.threads
  count := by
    have := sum_update creating s.dispatchers h pc
    have := hs.count
    simp only [PoolState.setDispatcher] at this ⊢
    omega
  count_le := hs.count_le
  handlers h' := by
    by_cases hne : h' = h
    · subst hne
      have hself : (s.setDispatcher h' pc).dispatchers h' = pc := Function.update_self ..
      have hold := hs.handlers h'
      have hhas : DispatcherHas (ordered h') g h' pc := fun u => by
        rw [hthread]
        exact hold.dispatcherHas u
      refine hold.redispatch rfl rfl rfl rfl rfl rfl (fun _ _ _ _ _ => Iff.rfl)
        (fun _ _ _ _ _ _ => rfl) (fun _ _ => rfl) ?_ ?_ ?_ ?_ ?_ ?_ <;> rw [hself] <;> assumption
    · exact (hs.handlers h').untouched (.setDispatcher hne pc)

/-- A result worker moves on and nothing else changes. -/
theorem Safe.setResult (hs : Safe ordered s g) {pc : ResultPc β}
    (hexited : pc = .exited ↔ s.resultWorkers h = .exited)
    (hhand : inHand g.carried pc = inHand g.carried (s.resultWorkers h))
    (hok : ResultOk g h pc) (hthread : pc.thread = (s.resultWorkers h).thread)
    (hleft : pc.Left → (s.dispatchers h).Finishing ∧ g.queue h = [] ∧ g.flight h = []) :
    Safe ordered (s.setResult h pc) g where
  linked := hs.linked
  freeMem := hs.freeMem
  freeNodup := hs.freeNodup
  created := hs.created
  threads := hs.threads
  count := hs.count
  count_le := hs.count_le
  handlers h' := by
    by_cases hne : h' = h
    · subst hne
      have hself : (s.setResult h' pc).resultWorkers h' = pc := Function.update_self ..
      have hold := hs.handlers h'
      have hhas : ResultHas g h' pc := fun u hu => hthread.trans (hold.resultHas u hu)
      refine hold.rereceive rfl rfl rfl rfl rfl (fun _ _ _ _ _ => Iff.rfl) rfl (fun _ _ => rfl)
        ?_ ?_ ?_ ?_ ?_
      · rw [hself,hhand]
        rfl
      all_goals rw [hself]; assumption
    · exact (hs.handlers h').untouched (.setResult hne pc)

/-! ### Dispatching -/

theorem Safe.popFree (hs : Safe ordered s g) {job : Job β} (hpc : s.dispatchers h = .next job)
    (hhead : s.pool.head = some t) : ∃ g', Safe ordered
      ((({ s with pool := { s.pool with head := (s.threads t).next } }).setNext t
        none).setDispatcher h (.got job t)) g' ∧ g.free = t::g'.free := by
  obtain ⟨ts,hfree,hplace⟩ := hs.head_free hhead
  have hnodup := hfree ▸ hs.freeNodup
  have hnot := (List.nodup_cons.mp hnodup).1
  obtain ⟨hidle,hres⟩ : ThreadOk (s.threads t) (g.carried t) .free := hs.threads t _ hplace
  refine ⟨{ g with place := Function.update g.place t (some (.got h)), free := ts },?_,hfree⟩
  constructor
  · have hlinked := hs.linked
    rw [hfree] at hlinked
    exact hlinked.pop (fun u hu => next_update (ne_of_mem_of_not_mem hu hnot))
  · intro u
    dsimp only
    by_cases hu : u = t
    · subst hu
      simp [hnot]
    · rw [Function.update_of_ne hu,← hs.freeMem,hfree,List.mem_cons,or_iff_right hu]
  · exact (List.nodup_cons.mp hnodup).2
  · exact created_moved hplace hs.created
  · exact threads_moved hs.threads
      ⟨⟨hidle.cb,hidle.rq,hidle.running,hidle.pc⟩,hres,rfl⟩ (fun _ _ => rfl)
  · have hsum := sum_update creating s.dispatchers h (.got job t)
    have hcount := hs.count
    rw [hpc] at hsum
    change _+0 = _+0 at hsum
    simp only [PoolState.setDispatcher,PoolState.setNext,PoolState.setThread]
    omega
  · exact hs.count_le
  · intro h'
    by_cases hne : h' = h
    · subst hne
      refine (hs.handlers h').redispatch rfl rfl rfl rfl rfl rfl (fun u p hp h1 _ =>
        place_update hplace ?_ (Ne.symm h1) u) (fun _ _ _ _ _ _ => rfl) (fun u hu => next_update
          ((hs.handlers h').queue_ne hplace (by simp) hu)) ?_ ?_ ?_ ?_ ?has ?_
      · rintro hp'
        obtain rfl := Option.some.inj hp'
        cases hp
      case has =>
        exact (hs.handlers h').dispatcherHas.moved rfl
          (by simp [hpc,DispatcherPc.thread]) (by simp [DispatcherPc.thread]) (by simp)
      all_goals simp [PoolState.setDispatcher,PoolState.setNext,PoolState.setThread,hpc,uncounted,
        pending,DispatcherPc.Finishing,DispatcherOk]
    · exact (hs.handlers h').elsewhere hplace (by rintro _ ⟨⟩; simp [Place.owner])
        (owner_ne rfl hne) rfl (Function.update_of_ne hne _ _) rfl rfl rfl rfl
        rfl rfl (fun _ _ => rfl) (fun u _ hu => next_update hu)

theorem Safe.countUp (hs : Safe ordered s g) {job : Job β} (hpc : s.dispatchers h = .next job)
    (hmax : s.pool.count ≠ s.pool.max) : Safe ordered
      (({ s with pool := { s.pool with count := s.pool.count+1 } }).setDispatcher h
        (.create job)) g := by
  constructor
  · exact hs.linked
  · exact hs.freeMem
  · exact hs.freeNodup
  · exact hs.created
  · exact hs.threads
  · have hsum := sum_update creating s.dispatchers h (.create job)
    rw [hpc] at hsum
    have hcount := hs.count
    change _+0 = _+1 at hsum
    simp only [PoolState.setDispatcher]
    omega
  · have hle := hs.count_le
    simp only [PoolState.setDispatcher]
    omega
  · intro h'
    by_cases hne : h' = h
    · subst hne
      refine (hs.handlers h').redispatch rfl rfl rfl rfl rfl rfl (fun _ _ _ _ _ => Iff.rfl)
        (fun _ _ _ _ _ _ => rfl) (fun _ _ => rfl) ?_ ?_ ?_ ?_ ?has ?_
      case has =>
        intro u
        have := (hs.handlers h').dispatcherHas u
        rw [PoolState.dispatchers_setDispatcher]
        rwa [hpc] at this
      all_goals simp [PoolState.setDispatcher,hpc,uncounted,pending,DispatcherPc.Finishing,
        DispatcherOk]
    · exact (hs.handlers h').untouched ⟨rfl,Function.update_of_ne hne _ _,rfl,rfl,rfl,rfl,rfl,
        fun _ _ _ => Iff.rfl,fun _ _ _ _ => rfl,fun _ _ => rfl⟩

theorem Safe.create (hs : Safe ordered s g) {job : Job β} (hpc : s.dispatchers h = .create job) :
    ∃ g', Safe ordered ((({ s with created := s.created+1 }).setThread s.created
      .calloc).setDispatcher h (.got job s.created)) g' ∧ g'.free = g.free := by
  have hplace : g.place s.created = none := (hs.created _).mpr le_rfl
  have hnext : ∀ u, u ≠ s.created → (s.setThread s.created .calloc).next u = s.next u := by
    intro u hu
    simp [PoolState.next,PoolState.setThread,hu]
  refine ⟨{ g with place := Function.update g.place s.created (some (.got h)) },?_,rfl⟩
  constructor
  · refine hs.linked.frame (fun u hu => hnext u ?_)
    rintro rfl
    rw [(hs.freeMem _).mp hu] at hplace
    cases hplace
  · exact fun u => (hs.freeMem u).trans (place_update (p := .free) hplace (by simp) (by simp) u).symm
  · exact hs.freeNodup
  · intro u
    by_cases hu : u = s.created
    · subst hu
      simp [PoolState.setDispatcher,PoolState.setThread]
    · simp only [PoolState.setDispatcher,PoolState.setThread]
      rw [Function.update_of_ne hu,hs.created]
      omega
  · exact threads_moved hs.threads ⟨⟨rfl,rfl,rfl,.inl rfl⟩,rfl,rfl⟩ (fun _ _ => rfl)
  · have hsum := sum_update creating s.dispatchers h (.got job s.created)
    rw [hpc] at hsum
    have hcount := hs.count
    change _+1 = _+0 at hsum
    simp only [PoolState.setDispatcher,PoolState.setThread]
    omega
  · exact hs.count_le
  · intro h'
    by_cases hne : h' = h
    · subst hne
      refine (hs.handlers h').redispatch rfl rfl rfl rfl rfl rfl (fun u p _ h1 _ =>
        place_update hplace (by simp) (Ne.symm h1) u) (fun _ _ _ _ _ _ => rfl) (fun u hu => hnext u
          ((hs.handlers h').queue_ne hplace (by simp) hu)) ?_ ?_ ?_ ?_ ?has ?_
      case has =>
        exact (hs.handlers h').dispatcherHas.moved rfl
          (by simp [hpc,DispatcherPc.thread]) (by simp [DispatcherPc.thread]) (by simp)
      all_goals simp [PoolState.setDispatcher,PoolState.setThread,hpc,uncounted,pending,
        DispatcherPc.Finishing,DispatcherOk]
    · exact (hs.handlers h').elsewhere hplace (by simp) (owner_ne rfl hne) rfl
        (Function.update_of_ne hne _ _) rfl rfl rfl rfl rfl rfl (fun _ _ => rfl)
        (fun u _ hu => hnext u hu)

/-- The job is handed over for an ordered handler. -/
theorem Safe.handOrdered (hs : Safe ordered s g) {job : Job β}
    (hpc : s.dispatchers h = .checked job t) (ho : ordered h = true) : ∃ g', Safe ordered
      ((s.setThread t { s.threads t with
        rq := none, cb := some job.cb, arg := job.arg, running := true }).setDispatcher h
        (.handed t)) g' ∧ g'.free = g.free := by
  have hplace : g.place t = some (.got h) := by
    have := (hs.handlers h).dispatcher
    rwa [hpc] at this
  obtain ⟨hidle,hres,hnext⟩ : ThreadOk (s.threads t) (g.carried t) (.got h) := hs.threads t _ hplace
  refine ⟨{ g with place := Function.update g.place t (some (.handed h)),
                   carried := Function.update g.carried t job.run },?_,rfl⟩
  have hsame : (s.setThread t { s.threads t with
      rq := none, cb := some job.cb, arg := job.arg, running := true }).next = s.next :=
    next_setThread rfl
  constructor
  · exact hs.linked.frame (fun u _ => congrFun hsame u)
  · exact fun u => (hs.freeMem u).trans (place_update (p := .free) hplace (by simp) (by simp) u).symm
  · exact hs.freeNodup
  · exact created_moved hplace hs.created
  · refine threads_moved hs.threads ⟨?_,hnext⟩ (fun u hu => Function.update_of_ne hu _ _)
    dsimp only
    rw [Function.update_self]
    exact hidle.given none job
  · have hsum := sum_update creating s.dispatchers h (.handed t)
    have hcount := hs.count
    rw [hpc] at hsum
    change _+0 = _+0 at hsum
    simp only [PoolState.setDispatcher,PoolState.setThread]
    omega
  · exact hs.count_le
  · intro h'
    by_cases hne : h' = h
    · subst hne
      refine (hs.handlers h').redispatch rfl rfl rfl rfl rfl rfl (fun u p _ h1 h2 =>
        place_update hplace (fun he => h1 (Option.some.inj he).symm) (Ne.symm h2) u)
        (fun u p _ h1 _ hu => Function.update_of_ne ?_ _ _) (fun u _ => congrFun hsame u)
        ?_ ?_ ?_ ?_ ?has ?_
      · rintro rfl
        exact h1 (Option.some.inj (hu.symm.trans hplace))
      case has =>
        exact (hs.handlers h').dispatcherHas.moved rfl
          (by simp +contextual [hpc,DispatcherPc.thread,eq_comm]) (by simp)
          (by simp [DispatcherPc.thread,ho])
      all_goals simp [PoolState.setDispatcher,hpc,uncounted,pending,DispatcherPc.Finishing,
        DispatcherOk,ho]
    · exact (hs.handlers h').elsewhere hplace
        (fun p hp => (Option.some.inj hp) ▸ owner_ne rfl hne) (owner_ne rfl hne) rfl
        (Function.update_of_ne hne _ _) rfl rfl rfl rfl rfl rfl
        (fun u hu => Function.update_of_ne hu _ _) (fun u _ _ => congrFun hsame u)

/-- The job is handed over for an unordered handler: the thread is on its own. -/
theorem Safe.handUnordered (hs : Safe ordered s g) {job : Job β}
    (hpc : s.dispatchers h = .checked job t) (ho : ordered h = false) : ∃ g', Safe ordered
      ((s.setThread t { s.threads t with
        rq := some h, cb := some job.cb, arg := job.arg, running := true }).setDispatcher h
        (.handed t)) g' ∧ g'.free = g.free := by
  have hplace : g.place t = some (.got h) := by
    have := (hs.handlers h).dispatcher
    rwa [hpc] at this
  obtain ⟨hidle,hres,hnext⟩ : ThreadOk (s.threads t) (g.carried t) (.got h) := hs.threads t _ hplace
  refine ⟨g.launch h t job,?_,rfl⟩
  have hsame : (s.setThread t { s.threads t with
      rq := some h, cb := some job.cb, arg := job.arg, running := true }).next = s.next :=
    next_setThread rfl
  constructor
  · exact hs.linked.frame (fun u _ => congrFun hsame u)
  · exact fun u => (hs.freeMem u).trans (place_update (p := .free) hplace (by simp) (by simp) u).symm
  · exact hs.freeNodup
  · exact created_moved hplace hs.created
  · refine threads_moved hs.threads ⟨?_,hnext⟩ (fun u hu => Function.update_of_ne hu _ _)
    have hcarried : (g.launch h t job).carried t = job.run := Function.update_self ..
    rw [hcarried]
    exact hidle.given (some h) job
  · have hsum := sum_update creating s.dispatchers h (.handed t)
    have hcount := hs.count
    rw [hpc] at hsum
    change _+0 = _+0 at hsum
    simp only [PoolState.setDispatcher,PoolState.setThread]
    omega
  · exact hs.count_le
  · intro h'
    by_cases hne : h' = h
    · subst hne
      exact (hs.handlers h').launch hpc ho hplace rfl
    · exact (hs.handlers h').elsewhere hplace
        (fun p hp => (Option.some.inj hp) ▸ owner_ne rfl hne) (owner_ne rfl hne) rfl
        (Function.update_of_ne hne _ _) rfl rfl rfl rfl (Function.update_of_ne hne _ _) rfl
        (fun u hu => Function.update_of_ne hu _ _) (fun u _ _ => congrFun hsame u)

/-- The section on the result queue, where it links no thread. -/
theorem Safe.recount (hs : Safe ordered s g) {rq rq' : Resultq} {pc : DispatcherPc β}
    (hrq : s.rqs h = some rq) (hhead : rq'.head = rq.head) (hptail : rq'.ptail = rq.ptail)
    (hlt : rq'.nthreads < 2^64)
    (hcount : (rq'.nthreads+uncounted (ordered h) pc)%2^64 =
      (rq.nthreads+uncounted (ordered h) (s.dispatchers h))%2^64)
    (hfinished : rq'.finished = true ↔ pc.Finishing)
    (hfinishing : (s.dispatchers h).Finishing → pc.Finishing)
    (hcreating : creating pc = creating (s.dispatchers h))
    (hpending : pending (ordered h) g.carried pc = pending (ordered h) g.carried (s.dispatchers h))
    (hok : DispatcherOk (ordered h) g h pc) (hhas : DispatcherHas (ordered h) g h pc)
    (hdone : pc ≠ .done) :
    Safe ordered ((s.setRq h (some rq')).setDispatcher h pc) g where
  linked := hs.linked
  freeMem := hs.freeMem
  freeNodup := hs.freeNodup
  created := hs.created
  threads := hs.threads
  count := by
    have hsum := sum_update creating s.dispatchers h pc
    have hcount := hs.count
    simp only [PoolState.setDispatcher,PoolState.setRq] at hsum ⊢
    omega
  count_le := hs.count_le
  handlers h' := by
    by_cases hne : h' = h
    · subst hne
      have hold := hs.handlers h'
      have hrqok := hold.rq rq hrq
      have hnow : ((s.setRq h' (some rq')).setDispatcher h' pc).dispatchers h' = pc :=
        Function.update_self ..
      have hrq' : ((s.setRq h' (some rq')).setDispatcher h' pc).rqs h' = some rq' :=
        Function.update_self ..
      have hopen : s.resultWorkers h' ≠ .exited := by
        rw [Ne,← hold.destroyed,hrq]
        simp
      exact { hold with
        rq := by
          intro rq1 hrq1
          obtain rfl := Option.some.inj (hrq'.symm.trans hrq1)
          exact ⟨hhead ▸ hrqok.linked,hptail ▸ hrqok.ptail,hlt,
            by rw [hnow,hcount]; exact hrqok.count,by rw [hnow]; exact hfinished⟩
        destroyed := by
          rw [hrq']
          exact ⟨(by simp),fun he => absurd he hopen⟩
        dispatcher := by
          rw [hnow]
          exact hok
        dispatcherHas := by
          rw [hnow]
          exact hhas
        left := by
          intro hl
          rw [hnow]
          exact (hold.left hl).imp_left hfinishing
        done := by
          rw [hnow]
          exact fun hd => absurd hd hdone
        account := by
          rw [outstanding,hnow,hpending]
          exact hold.account }
    · exact (hs.handlers h').untouched ⟨Function.update_of_ne hne _ _,
        Function.update_of_ne hne _ _,rfl,rfl,rfl,rfl,rfl,fun _ _ _ => Iff.rfl,
        fun _ _ _ _ => rfl,fun _ _ => rfl⟩

/-- A new call of `threadpool_dispatch`. -/
theorem Safe.dispatch (hs : Safe ordered s g) (hpc : s.dispatchers h = .idle) (job : Job β) :
    Safe ordered (({ s with
      dispatched := Function.update s.dispatched h (s.dispatched h++[job]) }).setDispatcher h
        (.next job)) g where
  linked := hs.linked
  freeMem := hs.freeMem
  freeNodup := hs.freeNodup
  created := hs.created
  threads := hs.threads
  count := by
    have hsum := sum_update creating s.dispatchers h (.next job)
    have hcount := hs.count
    rw [hpc] at hsum
    change _+0 = _+0 at hsum
    simp only [PoolState.setDispatcher]
    omega
  count_le := hs.count_le
  handlers h' := by
    by_cases hne : h' = h
    · subst hne
      have hold := hs.handlers h'
      have hnow : (({ s with
          dispatched := Function.update s.dispatched h' (s.dispatched h'++[job]) }).setDispatcher h'
          (.next job)).dispatchers h' = .next job := Function.update_self ..
      exact { hold with
        rq := by
          intro rq hrq
          have hrqok := hold.rq rq hrq
          have hcount := hrqok.count
          have hfinished := hrqok.finished
          rw [hpc] at hcount hfinished
          exact ⟨hrqok.linked,hrqok.ptail,hrqok.lt,by rw [hnow]; exact hcount,
            by rw [hnow,hfinished]; simp [DispatcherPc.Finishing]⟩
        dispatcher := by
          rw [hnow]
          trivial
        dispatcherHas := by
          intro u
          have := hold.dispatcherHas u
          rw [hnow]
          rwa [hpc] at this
        left := by
          intro hl
          have := (hold.left hl).1
          rw [hpc] at this
          rcases this with hf | hf <;> cases hf
        done := by
          rw [hnow]
          simp
        account := by
          have haccount := hold.account.append [job.run]
          rw [outstanding,hpc] at haccount
          simp only [outstanding,PoolState.setDispatcher,Function.update_self,List.map_append]
          exact haccount.of_eq (by simp [pending]) }
    · exact (hs.handlers h').untouched ⟨rfl,Function.update_of_ne hne _ _,rfl,
        Function.update_of_ne hne _ _,rfl,rfl,rfl,fun _ _ _ => Iff.rfl,fun _ _ _ _ => rfl,
        fun _ _ => rfl⟩

end

end Mtbl
