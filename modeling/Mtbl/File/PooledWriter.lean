import Mtbl.Codec.Crc32c
import Mtbl.File.Drain
import Mtbl.File.Finished
import Mtbl.Pool.Delivery

/-! A writer on a thread pool that it may share with others. Its blocks are jobs of the pool, any
thread of which may compress them, and the callback of the writer's result handler writes them while
the adding thread goes on. `_mtbl_writer_finish` waits for the handler before it writes the index. -/
namespace Mtbl
open CRun

/-- What the pool's pointers point to. -/
inductive BlockPointer (γ : Type)
  | block (b : DataBlock)
  | other (p : γ)

structure PooledWriter (ι γ : Type) where
  w : Writer
  adds : List Entry
  pc : AddingAt
  pool : PoolState ι (BlockPointer γ)

inductive WriterEvent (ι γ : Type)
  | goOn
  | write
  | pool (event : PoolEvent ι (BlockPointer γ))

/-- The events that are no calls by other dispatching threads and no spurious wakeups. -/
def WriterEvent.Move {ι γ : Type} : WriterEvent ι γ → Prop
  | .goOn | .write | .pool (.move _) => True
  | _ => False

section
variable {ι γ : Type}

def compressBlockWrapper (codec : Codec) :
    Option (BlockPointer γ) → Run (Option (BlockPointer γ))
  | none => .ok none
  | some (.block b) => do
    let b ← mtblWriterCompressBlock codec b
    return some (.block b)
  | some (.other _) => .error .outOfBounds

def writeDataBlockWrapper (w : Writer) : Option (BlockPointer γ) → Run Writer
  | none => .ok w
  | some (.block b) => mtblWriterWriteDataBlock w b
  | some (.other _) => .error .outOfBounds

def compressJob (codec : Codec) (b : DataBlock) : Job (BlockPointer γ) :=
  ⟨compressBlockWrapper codec,some (.block b)⟩

def PooledWriter.init (opt : WriterOptions) (file : Bytes) (adds : List Entry) (max : ℕ) :
    PooledWriter ι γ := ⟨mtblWriterInitFd file (some opt),adds,.between,.init max⟩

/-- What the adding thread does by itself: an addition up to the branch on the pool in its flush or
from there on, and `_mtbl_writer_finish` up to that branch. -/
def addingMove (w : Writer) (es : List Entry) :
    AddingAt → Option (Run (Writer × List Entry × AddingAt × Option DataBlock))
  | .between =>
    match es with
    | [] => some do
      let (w,b) ← detachBlock w
      return (w,[],.finishing,b)
    | e::es => some do
      check (w.closed = false)
      if outOfOrder w e.key then
        return (w,es,.between,none)
      let (w,b) ← makeRoom w e.key e.val
      return (w,es,.adding e,b)
  | .adding e => some do
    let w ← acceptEntry w e.key e.val
    return (w,es,.between,none)
  | .finishing | .finished => none

variable [DecidableEq ι]

/-- The branch on the pool in `_mtbl_writer_flush`. -/
inductive HandsOn (ordered : ι → Bool) (h : ι) (codec : Codec)
    (pool : PoolState ι (BlockPointer γ)) :
    Option DataBlock → PoolState ι (BlockPointer γ) → Prop
  | nothing : HandsOn ordered h codec pool none pool
  | dispatch {b : DataBlock} {pool' : PoolState ι (BlockPointer γ)}
      (step : PoolStep ordered pool (.dispatch h (compressJob codec b)) (.ok pool')) :
      HandsOn ordered h codec pool (some b) pool'

/-- A step of the writer with the handler `h`, of its thread, of its callback or of the pool. -/
inductive WriterStep (ordered : ι → Bool) (h : ι) (codec : Codec) (s : PooledWriter ι γ) :
    WriterEvent ι γ → Run (PooledWriter ι γ) → Prop
  | move {w : Writer} {es : List Entry} {pc : AddingAt} {b : Option DataBlock}
      {pool : PoolState ι (BlockPointer γ)} (idle : s.pool.dispatchers h = .idle)
      (move : addingMove s.w s.adds s.pc = some (.ok (w,es,pc,b)))
      (hands : HandsOn ordered h codec s.pool b pool) :
      WriterStep ordered h codec s .goOn (.ok ⟨w,es,pc,pool⟩)
  | moveFault {e : Fault} (idle : s.pool.dispatchers h = .idle)
      (move : addingMove s.w s.adds s.pc = some (.error e)) :
      WriterStep ordered h codec s .goOn (.error e)
  | finish {pool : PoolState ι (BlockPointer γ)} (pc : s.pc = .finishing)
      (step : PoolStep ordered s.pool (.destroy h) (.ok pool)) :
      WriterStep ordered h codec s .goOn (.ok { s with pool := pool })
  | close {w : Writer} (pc : s.pc = .finishing) (done : s.pool.dispatchers h = .done)
      (index : writeIndex codec s.w = .ok w) :
      WriterStep ordered h codec s .goOn (.ok { s with w := w, pc := .finished })
  | closeFault {e : Fault} (pc : s.pc = .finishing) (done : s.pool.dispatchers h = .done)
      (index : writeIndex codec s.w = .error e) : WriterStep ordered h codec s .goOn (.error e)
  | write {res : Option (BlockPointer γ)} {w : Writer} {pool : PoolState ι (BlockPointer γ)}
      (deliver : s.pool.resultWorkers h = .deliver res)
      (write : writeDataBlockWrapper s.w res = .ok w)
      (step : PoolStep ordered s.pool (.move (.result h)) (.ok pool)) :
      WriterStep ordered h codec s .write (.ok { s with w := w, pool := pool })
  | writeFault {res : Option (BlockPointer γ)} {e : Fault}
      (deliver : s.pool.resultWorkers h = .deliver res)
      (write : writeDataBlockWrapper s.w res = .error e) :
      WriterStep ordered h codec s .write (.error e)
  | pool {event : PoolEvent ι (BlockPointer γ)} {pool : PoolState ι (BlockPointer γ)}
      (outside : Outside s.pool h event) (step : PoolStep ordered s.pool event (.ok pool)) :
      WriterStep ordered h codec s (.pool event) (.ok { s with pool := pool })
  | poolFault {event : PoolEvent ι (BlockPointer γ)} {e : Fault}
      (outside : Outside s.pool h event) (step : PoolStep ordered s.pool event (.error e)) :
      WriterStep ordered h codec s (.pool event) (.error e)

inductive WriterRuns (ordered : ι → Bool) (h : ι) (codec : Codec) (opt : WriterOptions)
    (file : Bytes) (adds : List Entry) (max : ℕ) : PooledWriter ι γ → Prop
  | init : WriterRuns ordered h codec opt file adds max (.init opt file adds max)
  | snoc {s s' : PooledWriter ι γ} {event : WriterEvent ι γ}
      (run : WriterRuns ordered h codec opt file adds max s)
      (step : WriterStep ordered h codec s event (.ok s')) :
      WriterRuns ordered h codec opt file adds max s'

/-- Neither the adding thread nor the callback nor a job of the writer stops the process, only a job
of another handler may, and nothing keeps the writer from its end. -/
structure Undisturbed (ordered : ι → Bool) (h : ι) (codec : Codec) (s : PooledWriter ι γ) :
    Prop where
  steps : ∀ event e, event = .goOn ∨ event = .write →
    ¬ WriterStep ordered h codec s event (.error e)
  jobs : ∀ job ∈ s.pool.dispatched h, ∃ res, job.run = .ok res
  others : ∀ event e, WriterStep ordered h codec s (.pool event) (.error e) →
    ∃ h', h' ≠ h ∧ ∃ job ∈ s.pool.dispatched h', job.run = .error e
  finishes : (∀ event, event.Move → ∀ r, ¬ WriterStep ordered h codec s event r) →
    s.pc = .finished

end

/-! ### The queue of the two threads -/

section
variable {ι γ : Type} {ordered : ι → Bool} {h : ι} {codec : Codec} {opt : WriterOptions}
  {file : Bytes} {adds : List Entry} {s s' : PooledWriter ι γ} {handed : List DataBlock}

theorem compressJob_run {b : DataBlock} {r : Option (BlockPointer γ)}
    (hrun : (compressJob codec b : Job (BlockPointer γ)).run = .ok r) :
    ∃ b', mtblWriterCompressBlock codec b = .ok b' ∧ r = some (.block b') := by
  obtain ⟨b',hcompress,hpure⟩ := bind_eq_ok.mp hrun
  exact ⟨b',hcompress,(Except.ok.inj hpure).symm⟩

/-- A step of the adding thread, which hands on a block or none. -/
theorem addingMove_step {w w' : Writer} {es es' : List Entry} {pc pc' : AddingAt}
    {b : Option DataBlock} (hmove : addingMove w es pc = some (.ok (w',es',pc',b)))
    (q : List DataBlock) :
    WritingStep codec ⟨w,es,pc,q⟩ ⟨w',es',pc',q++b.toList⟩ := by
  cases pc with
  | between =>
    cases es with
    | nil =>
      obtain ⟨⟨w1,b1⟩,hdetach,hpure⟩ := bind_eq_ok.mp (Option.some.inj hmove)
      cases hpure
      exact .flush hdetach
    | cons e es =>
      obtain ⟨-,-,hmove⟩ := bind_eq_ok.mp (Option.some.inj hmove)
      split_ifs at hmove with horder
      · cases hmove
        rw [Option.toList_none,List.append_nil]
        exact .refuse horder
      · obtain ⟨⟨w1,b1⟩,hroom,hpure⟩ := bind_eq_ok.mp hmove
        cases hpure
        exact .room (Bool.eq_false_iff.mpr horder) hroom
  | adding e =>
    obtain ⟨w1,haccept,hpure⟩ := bind_eq_ok.mp (Option.some.inj hmove)
    cases hpure
    rw [Option.toList_none,List.append_nil]
    exact .accept haccept
  | finishing => cases hmove
  | finished => cases hmove

theorem addingMove_returns {w : Writer} {es : List Entry} {pc : AddingAt} {q : List DataBlock}
    (hopen : pc ≠ .finished → w.closed = false) {final : Bytes}
    (hcompleted : completed codec ⟨w,es,pc,q⟩ = .ok final) (e : Fault) :
    addingMove w es pc ≠ some (.error e) := by
  intro hmove
  obtain ⟨w1,hdrain,hleft⟩ := bind_eq_ok.mp hcompleted
  dsimp only at hdrain hleft
  cases pc with
  | between =>
    have hclosed : w.closed = false := hopen (by simp)
    have hclosed1 := (drain_closed hdrain).trans hclosed
    cases es with
    | nil =>
      rw [leftToAdd_flush hclosed1] at hleft
      obtain ⟨w2,b,hdetach⟩ := actsOnFront_detachBlock.returns hdrain hleft
      rw [addingMove,hdetach] at hmove
      cases hmove
    | cons e' es =>
      rw [addingMove,check_of hclosed,ok_bind] at hmove
      cases horder : outOfOrder w e'.key with
      | true =>
        rw [horder] at hmove
        cases hmove
      | false =>
        rw [leftToAdd_room hclosed1 ((drain_outOfOrder hdrain _).trans horder)] at hleft
        obtain ⟨w2,b,hroom⟩ := (actsOnFront_makeRoom _ _).returns hdrain hleft
        rw [horder,hroom] at hmove
        cases hmove
  | adding e' =>
    rw [leftToAdd_accept] at hleft
    obtain ⟨w2,b,haccept⟩ := (actsOnFront_acceptEntry _ _).returns hdrain hleft
    rw [addingMove] at hmove
    cases hok : acceptEntry w e'.key e'.val with
    | ok w3 =>
      rw [hok] at hmove
      cases hmove
    | error e =>
      rw [hok] at haccept
      cases haccept
  | finishing => cases hmove
  | finished => cases hmove

theorem addingMove_some (w : Writer) (es : List Entry) {pc : AddingAt}
    (hpc : ¬ (pc = .finishing ∨ pc = .finished)) : ∃ r, addingMove w es pc = some r := by
  cases pc with
  | between => cases es <;> exact ⟨_,rfl⟩
  | adding e => exact ⟨_,rfl⟩
  | finishing => exact absurd (.inl rfl) hpc
  | finished => exact absurd (.inr rfl) hpc

/-- The blocks of the writer's jobs are those that have been handed on, and those whose results have
not been delivered are on their way from the one thread to the other. -/
structure Simulates (opt : WriterOptions) (file : Bytes) (adds : List Entry) (codec : Codec) (h : ι)
    (s : PooledWriter ι γ) (handed : List DataBlock) : Prop where
  dispatched : s.pool.dispatched h = handed.map (compressJob codec)
  run : WritingRun codec (startWriting opt file adds)
    ⟨s.w,s.adds,s.pc,handed.drop (s.pool.calls h).length⟩
  ending : (s.pool.dispatchers h).Ending → s.pc = .finishing ∨ s.pc = .finished

variable [DecidableEq ι]

theorem HandsOn.same {pool pool' : PoolState ι (BlockPointer γ)} {b : Option DataBlock}
    (hhands : HandsOn ordered h codec pool b pool') : pool' = pool ∨
      ∃ event, PoolStep ordered pool event (.ok pool') := by
  cases hhands with
  | nothing => exact .inl rfl
  | dispatch step => exact .inr ⟨_,step⟩

theorem WriterStep.pool_step {event : WriterEvent ι γ}
    (hstep : WriterStep ordered h codec s event (.ok s')) :
    s'.pool = s.pool ∨ ∃ e, PoolStep ordered s.pool e (.ok s'.pool) := by
  cases hstep with
  | move idle move hands => exact hands.same
  | finish pc step => exact .inr ⟨_,step⟩
  | close pc done index => exact .inl rfl
  | write deliver write step => exact .inr ⟨_,step⟩
  | pool outside step => exact .inr ⟨_,step⟩

theorem WriterRuns.pool_run {max : ℕ} (hrun : WriterRuns ordered h codec opt file adds max s) :
    ∃ events, PoolRun ordered (.init max) events s.pool := by
  induction hrun with
  | init => exact ⟨[],.nil _⟩
  | snoc _ hstep ih =>
    obtain ⟨events,hpool⟩ := ih
    rcases hstep.pool_step with hsame | ⟨e,hmove⟩
    · exact ⟨events,hsame ▸ hpool⟩
    · exact ⟨events++[e],hpool.snoc hmove⟩

/-- What the adding thread does to the pool. -/
theorem HandsOn.simulates [Fintype ι] {max : ℕ} (hmax : max < 2^64)
    {events : List (PoolEvent ι (BlockPointer γ))} {pool pool' : PoolState ι (BlockPointer γ)}
    (hrun : PoolRun ordered (.init max) events pool) {b : Option DataBlock}
    (hdispatched : pool.dispatched h = handed.map (compressJob codec))
    (hhands : HandsOn ordered h codec pool b pool') :
    pool'.calls h = pool.calls h ∧
      pool'.dispatched h = (handed++b.toList).map (compressJob codec) ∧
      ((pool'.dispatchers h).Ending → (pool.dispatchers h).Ending) := by
  cases hhands with
  | nothing =>
    rw [Option.toList_none,List.append_nil]
    exact ⟨rfl,hdispatched,id⟩
  | dispatch step =>
    refine ⟨(step.calls h).trans (List.append_nil _),?_,fun hending => ?_⟩
    · rw [hrun.dispatched_step hmax step h,hdispatched,List.map_append]
      simp [PoolEvent.jobFor]
    · rcases step.ending h hending with hbefore | hevent
      · exact hbefore
      · cases hevent

/-- The callback is called with the next block, compressed. -/
theorem Simulates.deliver [Fintype ι] {max : ℕ} (hpos : 1 ≤ max) (hmax : max < 2^64)
    (hordered : ordered h = true) {events : List (PoolEvent ι (BlockPointer γ))}
    (hrun : PoolRun ordered (.init max) events s.pool)
    (hs : Simulates opt file adds codec h s handed) {res : Option (BlockPointer γ)}
    {pool : PoolState ι (BlockPointer γ)} (hres : s.pool.resultWorkers h = .deliver res)
    (hstep : PoolStep ordered s.pool (.move (.result h)) (.ok pool)) :
    ∃ b b', handed.drop (s.pool.calls h).length = b::handed.drop (pool.calls h).length ∧
      mtblWriterCompressBlock codec b = .ok b' ∧ res = some (.block b') := by
  have hcalls := hstep.calls h
  simp only [callbacks,hres,if_true] at hcalls
  have hpre := (pool_delivers hpos hmax (hrun.snoc hstep)).inOrder h hordered
  have hdispatched : pool.dispatched h = _ :=
    (hrun.dispatched_step hmax hstep h).trans (List.append_nil _)
  rw [hcalls,hdispatched,hs.dispatched,List.map_append,List.map_map] at hpre
  have hnext := List.prefix_iff_getElem?.mp hpre (s.pool.calls h).length (by simp)
  simp only [List.getElem?_map,List.getElem_append_right (List.length_map _).le,List.length_map,
    Nat.sub_self,List.map_cons,List.map_nil,List.getElem_cons_zero,Option.map_eq_some_iff] at hnext
  obtain ⟨b,hb,hjob⟩ := hnext
  obtain ⟨b',hcompress,hsome⟩ := compressJob_run hjob
  obtain ⟨hlt,rfl⟩ := List.getElem?_eq_some_iff.mp hb
  refine ⟨_,b',?_,hcompress,hsome⟩
  rw [hcalls,List.length_append,List.length_singleton]
  exact List.drop_eq_getElem_cons hlt

theorem Simulates.calls_le [Fintype ι] {max : ℕ} (hmax : max < 2^64)
    {events : List (PoolEvent ι (BlockPointer γ))}
    (hrun : PoolRun ordered (.init max) events s.pool)
    (hs : Simulates opt file adds codec h s handed) :
    (s.pool.calls h).length ≤ handed.length := by
  have hle := (hrun.sound hmax).calls_le h
  rwa [hs.dispatched,List.length_map] at hle

/-- Every step is one of the two threads' or none. -/
theorem Simulates.step [Fintype ι] {max : ℕ} (hpos : 1 ≤ max) (hmax : max < 2^64)
    (hordered : ordered h = true) {events : List (PoolEvent ι (BlockPointer γ))}
    (hrun : PoolRun ordered (.init max) events s.pool)
    (hs : Simulates opt file adds codec h s handed) {event : WriterEvent ι γ}
    (hstep : WriterStep ordered h codec s event (.ok s')) :
    ∃ handed', Simulates opt file adds codec h s' handed' := by
  have hwriting := hs.run
  cases hstep with
  | @move w es pc b pool idle move hands =>
    obtain ⟨hcalls,hdispatched,hending⟩ := hands.simulates hmax hrun hs.dispatched
    have hmove := @addingMove_step codec _ _ _ _ _ _ _ move
      (handed.drop (s.pool.calls h).length)
    refine ⟨handed++b.toList,hdispatched,?_,fun he => ?_⟩
    · rw [hcalls,List.drop_append_of_le_length (hs.calls_le hmax hrun)]
      exact hwriting.step hmove
    · have hidle := hending he
      rw [idle] at hidle
      exact hidle.elim
  | finish pc step =>
    refine ⟨handed,?_,?_,fun _ => .inl pc⟩
    · exact ((hrun.dispatched_step hmax step h).trans (List.append_nil _)).trans hs.dispatched
    · rw [(step.calls h).trans (List.append_nil _)]
      exact hwriting
  | @close w pc done index =>
    have hall := (hrun.sound hmax).all_delivered done
    rw [hs.dispatched,List.length_map] at hall
    have hnil : handed.drop (s.pool.calls h).length = [] := List.drop_of_length_le hall.ge
    have hadds : s.adds = [] := hwriting.ends.1 (.inl pc)
    refine ⟨handed,hs.dispatched,?_,fun _ => .inr rfl⟩
    rw [hnil,hadds,pc] at hwriting
    rw [hnil,hadds]
    exact hwriting.step (.close index)
  | @write res w pool deliver write step =>
    obtain ⟨b,b',hdrop,hcompress,rfl⟩ := hs.deliver hpos hmax hordered hrun deliver step
    rw [hdrop] at hwriting
    refine ⟨handed,?_,hwriting.step (.write hcompress write),fun he => ?_⟩
    · exact ((hrun.dispatched_step hmax step h).trans (List.append_nil _)).trans hs.dispatched
    · rcases step.ending h he with hbefore | hevent
      · exact hs.ending hbefore
      · cases hevent
  | @pool event pool outside step =>
    refine ⟨handed,?_,?_,fun he => ?_⟩
    · rw [hrun.dispatched_step hmax step h,outside.jobFor,Option.toList_none,List.append_nil]
      exact hs.dispatched
    · rw [step.calls h,outside.callbacks,List.append_nil]
      exact hwriting
    · rcases step.ending h he with hbefore | hevent
      · exact hs.ending hbefore
      · rw [hevent] at outside
        exact absurd rfl outside

theorem WriterRuns.simulates [Fintype ι] {max : ℕ} (hpos : 1 ≤ max) (hmax : max < 2^64)
    (hordered : ordered h = true) (hrun : WriterRuns ordered h codec opt file adds max s) :
    ∃ handed, Simulates opt file adds codec h s handed := by
  induction hrun with
  | init => exact ⟨[],rfl,.start,False.elim⟩
  | snoc hrun hstep ih =>
    obtain ⟨handed,hs⟩ := ih
    obtain ⟨events,hpool⟩ := hrun.pool_run
    exact hs.step hpos hmax hordered hpool hstep

/-! ### When the file is written without a pool -/

section
variable [Fintype ι] {max : ℕ} {events : List (PoolEvent ι (BlockPointer γ))} {final : Bytes}

theorem Simulates.completed (hs : Simulates opt file adds codec h s handed)
    (hserial : serialFile codec opt file adds = .ok final) :
    Mtbl.completed codec ⟨s.w,s.adds,s.pc,handed.drop (s.pool.calls h).length⟩ = .ok final := by
  have hwriting := hs.run
  exact hwriting.completed.trans hserial

theorem Simulates.goes_on (hmax : max < 2^64) (hrun : PoolRun ordered (.init max) events s.pool)
    (hs : Simulates opt file adds codec h s handed)
    (hserial : serialFile codec opt file adds = .ok final) (e : Fault) :
    ¬ WriterStep ordered h codec s .goOn (.error e) := by
  have hwriting := hs.run
  have hcompleted := hs.completed hserial
  intro hstep
  cases hstep with
  | moveFault idle move => exact addingMove_returns hwriting.unclosed hcompleted e move
  | closeFault pc done index =>
    have hall := (hrun.sound hmax).all_delivered done
    rw [hs.dispatched,List.length_map] at hall
    rw [List.drop_of_length_le hall.ge,pc] at hcompleted
    simp only [Mtbl.completed,drain,ok_bind,leftToAdd,index] at hcompleted
    cases hcompleted

theorem Simulates.writes (hpos : 1 ≤ max) (hmax : max < 2^64) (hordered : ordered h = true)
    (hrun : PoolRun ordered (.init max) events s.pool)
    (hs : Simulates opt file adds codec h s handed)
    (hserial : serialFile codec opt file adds = .ok final) (e : Fault) :
    ¬ WriterStep ordered h codec s .write (.error e) := by
  intro hstep
  cases hstep with
  | writeFault deliver write =>
    have hmove : PoolStep ordered s.pool (.move (.result h)) _ :=
      .move (resultStep_deliver deliver) .quiet
    obtain ⟨b,b',hdrop,hcompress,rfl⟩ := hs.deliver hpos hmax hordered hrun deliver hmove
    have hcompleted := hs.completed hserial
    rw [hdrop] at hcompleted
    obtain ⟨w1,hdrain,-⟩ := bind_eq_ok.mp hcompleted
    obtain ⟨w2,hemit,-⟩ := bind_eq_ok.mp hdrain
    obtain ⟨b1,hcompress1,hwrite⟩ := bind_eq_ok.mp hemit
    obtain rfl := Except.ok.inj (hcompress.symm.trans hcompress1)
    cases write.symm.trans hwrite

/-- The jobs whose results have been delivered have returned, and the others do. -/
theorem Simulates.jobs (hpos : 1 ≤ max) (hmax : max < 2^64) (hordered : ordered h = true)
    (hrun : PoolRun ordered (.init max) events s.pool)
    (hs : Simulates opt file adds codec h s handed)
    (hserial : serialFile codec opt file adds = .ok final) :
    ∀ job ∈ s.pool.dispatched h, ∃ res, job.run = .ok res := by
  have hpre := (pool_delivers hpos hmax hrun).inOrder h hordered
  obtain ⟨w1,hdrain,-⟩ := bind_eq_ok.mp (hs.completed hserial)
  rw [hs.dispatched,List.map_map] at hpre
  rw [hs.dispatched,← List.take_append_drop (s.pool.calls h).length handed]
  intro job hjob
  obtain ⟨b,hb,rfl⟩ := List.mem_map.mp hjob
  rcases List.mem_append.mp hb with hb | hb
  · have htake := List.prefix_iff_eq_take.mp hpre
    rw [List.length_map,← List.map_take] at htake
    have hmem : (compressJob codec b : Job (BlockPointer γ)).run ∈ (s.pool.calls h).map .ok := by
      rw [htake]
      exact List.mem_map_of_mem hb
    obtain ⟨res,-,hres⟩ := List.mem_map.mp hmem
    exact ⟨res,hres.symm⟩
  · obtain ⟨b',hcompress⟩ := drain_compresses hdrain b hb
    exact ⟨some (.block b'),bind_eq_ok.mpr ⟨b',hcompress,rfl⟩⟩

/-- Where no step of the writer or move of the pool is left, no actor of the pool has one. -/
theorem WriterStep.stuck (hstuck : ∀ event, event.Move → ∀ r, ¬ WriterStep ordered h codec s event r)
    (a : Actor ι) : actorStep ordered s.pool a = none := by
  by_contra hmoves
  obtain ⟨r,hr⟩ := Option.ne_none_iff_exists'.mp hmoves
  by_cases hdeliver : ∃ res, a = .result h ∧ s.pool.resultWorkers h = .deliver res
  · obtain ⟨res,rfl,hres⟩ := hdeliver
    cases hwrite : writeDataBlockWrapper s.w res with
    | error e => exact hstuck .write trivial _ (.writeFault hres hwrite)
    | ok w =>
      exact hstuck .write trivial _
        (.write hres hwrite (.move (resultStep_deliver hres) .quiet))
  · have hout : Outside s.pool h (.move a) := by
      cases a with
      | result h' =>
        rintro rfl res hres
        exact hdeliver ⟨res,rfl,hres⟩
      | dispatcher h' => trivial
      | worker t => trivial
    cases r with
    | error e => exact hstuck (.pool (.move a)) trivial _ (.poolFault hout (.fault hr))
    | ok m =>
      obtain ⟨pool,hsignal⟩ := exists_signalled m.state m.signal
      exact hstuck (.pool (.move a)) trivial _ (.pool hout (.move hr hsignal))

theorem Simulates.finishes (hpos : 1 ≤ max) (hmax : max < 2^64)
    (hrun : PoolRun ordered (.init max) events s.pool)
    (hs : Simulates opt file adds codec h s handed)
    (hstuck : ∀ event, event.Move → ∀ r, ¬ WriterStep ordered h codec s event r) :
    s.pc = .finished := by
  have hcall := ((pool_delivers hpos hmax hrun).settled (WriterStep.stuck hstuck) h).1
  by_contra hpc
  by_cases hfinishing : s.pc = .finishing
  · rcases hcall with hidle | hdone
    · exact hstuck .goOn trivial _ (.finish hfinishing (.destroy hidle))
    · cases hindex : writeIndex codec s.w with
      | error e => exact hstuck .goOn trivial _ (.closeFault hfinishing hdone hindex)
      | ok w => exact hstuck .goOn trivial _ (.close hfinishing hdone hindex)
  · rcases hcall with hidle | hdone
    · obtain ⟨r,hmove⟩ := addingMove_some s.w s.adds (not_or.mpr ⟨hfinishing,hpc⟩)
      cases r with
      | error e => exact hstuck .goOn trivial _ (.moveFault hidle hmove)
      | ok p =>
        obtain ⟨w,es,pc,b⟩ := p
        cases b with
        | none => exact hstuck .goOn trivial _ (.move hidle hmove .nothing)
        | some b => exact hstuck .goOn trivial _ (.move hidle hmove (.dispatch (.dispatch hidle)))
    · exact (hs.ending (hdone ▸ trivial)).elim hfinishing hpc

end

end

/-- In every run of a writer on a pool of one thread or more, the file behind the trailer is the one
that is written without a pool. If there is one, then nothing of the writer stops the process and
nothing keeps it from writing the trailer. -/
theorem pooled_writing_serial {ι γ : Type} [DecidableEq ι] [Fintype ι] (ordered : ι → Bool) (h : ι)
    (codec : Codec) (opt : WriterOptions) (file : Bytes) (adds : List Entry) (max : ℕ)
    (hordered : ordered h = true) (hpos : 1 ≤ max) (hmax : max < 2^64) (s : PooledWriter ι γ)
    (hrun : WriterRuns ordered h codec opt file adds max s) :
    (s.pc = .finished → serialFile codec opt file adds = .ok s.w.file) ∧
      ((∃ final, serialFile codec opt file adds = .ok final) →
        Undisturbed ordered h codec s) := by
  obtain ⟨events,hpool⟩ := hrun.pool_run
  obtain ⟨handed,hs⟩ := hrun.simulates hpos hmax hordered
  refine ⟨fun hpc => ?_,fun ⟨final,hserial⟩ => ?_⟩
  · have hwriting := hs.run
    have hnil : handed.drop (s.pool.calls h).length = [] := hwriting.ends.2 hpc
    rw [← hwriting.completed,hnil,hpc]
    rfl
  · have hjobs := hs.jobs hpos hmax hordered hpool hserial
    refine ⟨?_,hjobs,?_,hs.finishes hpos hmax hpool⟩
    · rintro event e (rfl | rfl)
      · exact hs.goes_on hmax hpool hserial e
      · exact hs.writes hpos hmax hordered hpool hserial e
    · intro event e hstep
      cases hstep with
      | poolFault outside step =>
        cases step with
        | fault hmove =>
          obtain ⟨h',job,hmem,hjob⟩ := (pool_delivers hpos hmax hpool).asserts _ e hmove
          refine ⟨h',?_,job,hmem,hjob⟩
          rintro rfl
          obtain ⟨res,hres⟩ := hjobs job hmem
          cases hjob.symm.trans hres

section
variable {codec : Codec} {opt : WriterOptions} {adds : List Entry}

/-- A writer that has a pool of two threads for itself. -/
abbrev TwoThreadRuns (codec : Codec) (opt : WriterOptions) (adds : List Entry) :=
  @WriterRuns Unit Unit _ (fun _ => true) () codec opt [] adds 2

theorem TwoThreadRuns.move {s : PooledWriter Unit Unit} (hrun : TwoThreadRuns codec opt adds s)
    {a : Actor Unit} (hout : Outside s.pool () (.move a)) {pool : PoolState Unit (BlockPointer Unit)}
    (hstep : PoolStep (fun _ => true) s.pool (.move a) (.ok pool)) :
    TwoThreadRuns codec opt adds { s with pool := pool } :=
  hrun.snoc (.pool hout hstep)

theorem TwoThreadRuns.close {s : PooledWriter Unit Unit} (hrun : TwoThreadRuns codec opt adds s)
    (hpc : s.pc = .finishing) (hdone : s.pool.dispatchers () = .done) (hopen : s.w.closed = false) :
    ∃ s', TwoThreadRuns codec opt adds s' ∧ s'.pc = .finished := by
  obtain ⟨w,hindex,-⟩ := writeIndex_spec codec hopen
  exact ⟨_,hrun.snoc (.close hpc hdone hindex),rfl⟩

end

/-- Two entries in blocks of their own. The second block is compressed first and written last. -/
theorem pooled_writing_serial_two : ∃ s : PooledWriter Unit Unit, s.pc = .finished ∧
    serialFile storingCodec ⟨.none,0,1,1⟩ [] [⟨[97],[1]⟩,⟨[98],[2]⟩] = .ok s.w.file ∧
      Undisturbed (fun _ => true) () storingCodec s := by
  have hroom : TwoThreadRuns storingCodec ⟨.none,0,1,1⟩ [⟨[97],[1]⟩,⟨[98],[2]⟩] _ :=
    .snoc .init (.move rfl rfl .nothing)
  have haccept : TwoThreadRuns storingCodec ⟨.none,0,1,1⟩ [⟨[97],[1]⟩,⟨[98],[2]⟩] _ :=
    hroom.snoc (.move rfl rfl .nothing)
  have hhand : TwoThreadRuns storingCodec ⟨.none,0,1,1⟩ [⟨[97],[1]⟩,⟨[98],[2]⟩] _ :=
    haccept.snoc (.move rfl rfl (.dispatch (.dispatch rfl)))
  have hfirst := ((((((hhand.move (a := .dispatcher ()) trivial
    (.move rfl .quiet)).move (a := .dispatcher ()) trivial
    (.move rfl .quiet)).move (a := .dispatcher ()) trivial
    (.move rfl .quiet)).move (a := .worker 0) trivial
    (.move rfl .quiet)).move (a := .dispatcher ()) trivial
    (.move rfl (.wakes (a := .worker 0) rfl))).move (a := .result ()) (fun _ _ h => by cases h)
    (.move rfl .quiet)).move (a := .dispatcher ()) trivial
    (.move rfl (.wakes (a := .result ()) rfl))
  have hadded : TwoThreadRuns storingCodec ⟨.none,0,1,1⟩ [⟨[97],[1]⟩,⟨[98],[2]⟩] _ :=
    hfirst.snoc (.move rfl rfl .nothing)
  have hflush : TwoThreadRuns storingCodec ⟨.none,0,1,1⟩ [⟨[97],[1]⟩,⟨[98],[2]⟩] _ :=
    hadded.snoc (.move rfl rfl (.dispatch (.dispatch rfl)))
  have hsecond := (((((((hflush.move (a := .dispatcher ()) trivial
    (.move rfl .quiet)).move (a := .dispatcher ()) trivial
    (.move rfl .quiet)).move (a := .dispatcher ()) trivial
    (.move rfl .quiet)).move (a := .worker 1) trivial
    (.move rfl .quiet)).move (a := .dispatcher ()) trivial
    (.move rfl (.wakes (a := .worker 1) rfl))).move (a := .result ()) (fun _ _ h => by cases h)
    (.move rfl .quiet)).move (a := .result ()) (fun _ _ h => by cases h)
    (.move rfl .quiet)).move (a := .dispatcher ()) trivial
    (.move rfl (.lost (lost_rq (fun h => by cases h))))
  have hcompressed := (((((((hsecond.move (a := .worker 1) trivial
    (.move rfl .quiet)).move (a := .worker 1) trivial
    (.move rfl .quiet)).move (a := .worker 1) trivial
    (.move rfl .quiet)).move (a := .worker 1) trivial
    (.move rfl (.lost (lost_thread (fun h => by cases h) (fun _ h => by cases h))))).move (a := .worker 0) trivial
    (.move rfl .quiet)).move (a := .worker 0) trivial
    (.move rfl .quiet)).move (a := .worker 0) trivial
    (.move rfl .quiet)).move (a := .worker 0) trivial
    (.move rfl (.wakes (a := .result ()) rfl))
  have hqueued := (hcompressed.move (a := .result ()) (fun _ _ h => by cases h)
    (.move rfl .quiet)).move (a := .result ()) (fun _ _ h => by cases h)
    (.move rfl (.lost (lost_pool fun _ => rfl)))
  have hwrite : TwoThreadRuns storingCodec ⟨.none,0,1,1⟩ [⟨[97],[1]⟩,⟨[98],[2]⟩] _ :=
    hqueued.snoc (.write rfl rfl (.move rfl .quiet))
  have hnext := ((hwrite.move (a := .result ()) (fun _ _ h => by cases h)
    (.move rfl .quiet)).move (a := .result ()) (fun _ _ h => by cases h)
    (.move rfl .quiet)).move (a := .result ()) (fun _ _ h => by cases h)
    (.move rfl (.lost (lost_pool fun _ => rfl)))
  have hwritten : TwoThreadRuns storingCodec ⟨.none,0,1,1⟩ [⟨[97],[1]⟩,⟨[98],[2]⟩] _ :=
    hnext.snoc (.write rfl rfl (.move rfl .quiet))
  have hfinish : TwoThreadRuns storingCodec ⟨.none,0,1,1⟩ [⟨[97],[1]⟩,⟨[98],[2]⟩] _ :=
    hwritten.snoc (.finish rfl (.destroy rfl))
  have hdone := ((((hfinish.move (a := .result ()) (fun _ _ h => by cases h)
    (.move rfl .quiet)).move (a := .dispatcher ()) trivial
    (.move rfl (.wakes (a := .result ()) rfl))).move (a := .result ()) (fun _ _ h => by cases h)
    (.move rfl .quiet)).move (a := .result ()) (fun _ _ h => by cases h)
    (.move rfl .quiet)).move (a := .dispatcher ()) trivial
    (.move rfl .quiet)
  obtain ⟨s,hclose,hpc⟩ := TwoThreadRuns.close hdone rfl rfl rfl
  obtain ⟨hsame,hrest⟩ :=
    pooled_writing_serial _ _ _ _ _ _ _ rfl (by decide) (by decide) _ hclose
  exact ⟨s,hpc,hsame hpc,hrest ⟨_,hsame hpc⟩⟩

end Mtbl
