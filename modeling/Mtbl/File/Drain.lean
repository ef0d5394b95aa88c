import Mtbl.File.Threaded

/-! In whatever order the writer's two threads take their steps, the file is the one that is written
without a pool: the two threads have no part of the writer in common, so the blocks that have been
handed on might as well have been written at once. -/
namespace Mtbl
open CRun

/-- Writing without a pool, from the first addition to the end of `mtbl_writer_destroy`. -/
def serialFile (codec : Codec) (opt : WriterOptions) (file : Bytes) (adds : List Entry) :
    Run Bytes := do
  let (w,_) ← writerAdds codec (mtblWriterInitFd file (some opt)) adds
  mtblWriterDestroy codec w

def drain (codec : Codec) (w : Writer) : List DataBlock → Run Writer
  | [] => .ok w
  | b::q => do
    let w ← emitBlock codec w (some b)
    drain codec w q

/-- What the adding thread has left to do if it writes its blocks itself. -/
def leftToAdd (codec : Codec) (es : List Entry) : AddingAt → Writer → Run Bytes
  | .between,w => do
    let (w,_) ← writerAdds codec w es
    mtblWriterDestroy codec w
  | .adding e,w => do
    let w ← acceptEntry w e.key e.val
    let (w,_) ← writerAdds codec w es
    mtblWriterDestroy codec w
  | .finishing,w => do
    let w ← writeIndex codec w
    return w.file
  | .finished,w => .ok w.file

/-- The file that comes of a state if the handed blocks are written first. -/
def completed (codec : Codec) (s : Writing) : Run Bytes := do
  let w ← drain codec s.w s.handed
  leftToAdd codec s.adds s.pc w

/-- The adding thread's part of `f` with the result handler's part of `w`. -/
def Writer.withFront (w f : Writer) : Writer :=
  { w with
    data := f.data
    opt := f.opt
    lastKey := f.lastKey
    closed := f.closed
    m := { w.m with
      fileVersion := f.m.fileVersion
      countEntries := f.m.countEntries
      bytesKeys := f.m.bytesKeys
      bytesValues := f.m.bytesValues } }

/-- Only the adding thread's part is read and changed. -/
def ActsOnFront (g : Writer → Run (Writer × Option DataBlock)) : Prop :=
  ∀ w f : Writer, g (w.withFront f) = (g f).map (fun p => (w.withFront p.1,p.2))

section
variable {codec : Codec} {w w' w1 : Writer} {q : List DataBlock} {b : Option DataBlock}

theorem withFront_self (w : Writer) : w.withFront w = w := rfl

theorem actsOnFront_detachBlock : ActsOnFront detachBlock := by
  intro w f
  unfold detachBlock
  change (check (f.closed = false) >>= _) = _
  by_cases hclosed : f.closed = false
  · by_cases hversion : f.m.fileVersion = .formatV2
    · rw [check_of hclosed,ok_bind,ok_bind]
      change (check (f.m.fileVersion = .formatV2) >>= _) = _
      rw [check_of hversion,ok_bind,ok_bind]
      change (if blockBuilderEmpty f.data then _ else _) = _
      cases blockBuilderEmpty f.data <;> rfl
    · simp [check,hclosed,hversion,Writer.withFront,Except.map]
  · simp [check,hclosed,Except.map]

theorem actsOnFront_makeRoom (key val : Bytes) : ActsOnFront (makeRoom · key val) := by
  intro w f
  simp only [makeRoom]
  change (if blockBuilderCurrentSizeEstimate f.data+(3*5+key.length+val.length) ≥
    f.opt.blockSize then _ else _) = _
  split_ifs
  · change (bytesShortestSeparator f.lastKey key >>= _) = _
    cases bytesShortestSeparator f.lastKey key with
    | error e => rfl
    | ok sep => exact actsOnFront_detachBlock w { f with lastKey := sep }
  · rfl

theorem actsOnFront_acceptEntry (key val : Bytes) :
    ActsOnFront (fun w => (acceptEntry w key val).map (·,none)) := by
  intro w f
  simp only [acceptEntry]
  change Except.map _ (blockBuilderAdd f.data key val >>= _) = _
  cases blockBuilderAdd f.data key val <;> rfl

/-- A block is written to the other part. -/
theorem emitBlock_withFront (w f : Writer) (b : Option DataBlock) :
    emitBlock codec (w.withFront f) b = (emitBlock codec w b).map (·.withFront f) := by
  cases b with
  | none => rfl
  | some b =>
    simp only [emitBlock,mtblWriterWriteDataBlock]
    cases mtblWriterCompressBlock codec b with
    | error e => rfl
    | ok b' =>
      change (mtblWriterWriteBlock w.file b' >>= _) = _
      simp only [ok_bind]
      cases mtblWriterWriteBlock w.file b' with
      | error e => rfl
      | ok p =>
        change (blockBuilderAdd w.index b'.lastKey (mtblVarintEncode64 w.pendingOffset) >>= _) = _
        simp only [ok_bind]
        cases blockBuilderAdd w.index b'.lastKey (mtblVarintEncode64 w.pendingOffset) <;> rfl

theorem drain_withFront (w f : Writer) (q : List DataBlock) :
    drain codec (w.withFront f) q = (drain codec w q).map (·.withFront f) := by
  induction q generalizing w with
  | nil => rfl
  | cons b q ih =>
    simp only [drain]
    rw [emitBlock_withFront]
    cases emitBlock codec w (some b) with
    | error e => rfl
    | ok w' => exact ih w'

theorem drain_append (w : Writer) (q : List DataBlock) (b : Option DataBlock) :
    drain codec w (q++b.toList) = drain codec w q >>= (emitBlock codec · b) := by
  induction q generalizing w with
  | nil =>
    cases b with
    | none => rfl
    | some b =>
      change (emitBlock codec w (some b) >>= _) = emitBlock codec w (some b)
      cases emitBlock codec w (some b) <;> rfl
  | cons b' q ih =>
    simp only [List.cons_append,drain]
    cases emitBlock codec w (some b') with
    | error e => rfl
    | ok w' => exact ih w'

/-- The adding thread does not notice whether the handed blocks have been written. -/
theorem drain_front (hdrain : drain codec w q = .ok w1) : w1 = w1.withFront w := by
  have h := @drain_withFront codec w w q
  rw [withFront_self,hdrain] at h
  exact Except.ok.inj h

theorem ActsOnFront.drained {g : Writer → Run (Writer × Option DataBlock)} (hg : ActsOnFront g)
    (hdrain : drain codec w q = .ok w1) : g w1 = (g w).map (fun p => (w1.withFront p.1,p.2)) := by
  rw [drain_front hdrain]
  exact hg w1 w

/-- It might as well have gone on behind them. -/
theorem ActsOnFront.swap {g : Writer → Run (Writer × Option DataBlock)} (hg : ActsOnFront g)
    (hok : g w = .ok (w',b)) (q : List DataBlock) : drain codec w' (q++b.toList) =
      drain codec w q >>= fun w1 => g w1 >>= fun p => emitBlock codec p.1 p.2 := by
  have hw' : w' = w.withFront w' := by
    have h := hg w w
    rw [withFront_self,hok] at h
    exact congrArg Prod.fst (Except.ok.inj h)
  rw [drain_append,hw',drain_withFront]
  cases hdrain : drain codec w q with
  | error e => rfl
  | ok w1 =>
    rw [ok_bind,hg.drained hdrain,hok]
    rfl

theorem leftToAdd_refuse {e : Entry} {es : List Entry} (hopen : w.closed = false)
    (horder : outOfOrder w e.key = true) :
    leftToAdd codec (e::es) .between w = leftToAdd codec es .between w := by
  simp only [leftToAdd,writerAdds,mtblWriterAdd,hopen,horder,check_true,ok_bind,pure_eq_ok,
    reduceIte]
  cases writerAdds codec w es <;> rfl

theorem leftToAdd_room {e : Entry} {es : List Entry} (hopen : w.closed = false)
    (horder : outOfOrder w e.key = false) : leftToAdd codec (e::es) .between w =
      (makeRoom w e.key e.val >>= fun p => emitBlock codec p.1 p.2) >>=
        leftToAdd codec es (.adding e) := by
  simp only [leftToAdd,writerAdds,mtblWriterAdd,hopen,horder,check_true,ok_bind,pure_eq_ok,
    Bool.false_eq_true,reduceIte]
  cases makeRoom w e.key e.val with
  | error e => rfl
  | ok p =>
    simp only [ok_bind]
    cases emitBlock codec p.1 p.2 with
    | error e => rfl
    | ok w1 =>
      simp only [ok_bind,leftToAdd]
      cases acceptEntry w1 e.key e.val with
      | error e => rfl
      | ok w2 =>
        simp only [ok_bind]
        cases writerAdds codec w2 es <;> rfl

theorem leftToAdd_flush (hopen : w.closed = false) : leftToAdd codec [] .between w =
    (detachBlock w >>= fun p => emitBlock codec p.1 p.2) >>= leftToAdd codec [] .finishing := by
  simp only [leftToAdd,writerAdds,ok_bind,mtblWriterDestroy,hopen,mtblWriterFinish,mtblWriterFlush]
  cases detachBlock w with
  | error e => rfl
  | ok p =>
    simp only [ok_bind]
    cases emitBlock codec p.1 p.2 <;> rfl

theorem leftToAdd_accept {e : Entry} {es : List Entry} : leftToAdd codec es (.adding e) w =
    ((acceptEntry w e.key e.val).map (·,none) >>= fun p => emitBlock codec p.1 p.2) >>=
      leftToAdd codec es .between := by
  simp only [leftToAdd]
  cases acceptEntry w e.key e.val <;> rfl

/-! ### Steps and runs -/

variable {s s' : Writing}

/-- A step of the adding thread, before or behind the blocks that have been handed on. -/
theorem completed_swap {g : Writer → Run (Writer × Option DataBlock)} (hg : ActsOnFront g)
    {es es' : List Entry} {pc pc' : AddingAt} (hok : g w = .ok (w',b))
    (hleft : ∀ w1, drain codec w q = .ok w1 → leftToAdd codec es pc w1 =
      (g w1 >>= fun p => emitBlock codec p.1 p.2) >>= leftToAdd codec es' pc') :
    completed codec ⟨w',es',pc',q++b.toList⟩ = completed codec ⟨w,es,pc,q⟩ := by
  simp only [completed]
  rw [hg.swap hok q]
  cases hdrain : drain codec w q with
  | error e => rfl
  | ok w1 => exact (hleft w1 hdrain).symm

theorem drain_closed (hdrain : drain codec w q = .ok w1) : w1.closed = w.closed := by
  rw [drain_front hdrain]
  rfl

theorem drain_outOfOrder (hdrain : drain codec w q = .ok w1) (key : Bytes) :
    outOfOrder w1 key = outOfOrder w key := by
  rw [drain_front hdrain]
  rfl

theorem WritingStep.completed (h : WritingStep codec s s')
    (hopen : s.pc ≠ .finished → s.w.closed = false) :
    Mtbl.completed codec s' = Mtbl.completed codec s := by
  cases h with
  | @refuse w e es q order =>
    have hclosed : w.closed = false := hopen (by simp)
    simp only [Mtbl.completed]
    cases hdrain : drain codec w q with
    | error e => rfl
    | ok w1 =>
      exact (leftToAdd_refuse ((drain_closed hdrain).trans hclosed)
        ((drain_outOfOrder hdrain e.key).trans order)).symm
  | room order room =>
    apply completed_swap (actsOnFront_makeRoom _ _) room
    intro w1 hdrain
    exact leftToAdd_room ((drain_closed hdrain).trans (hopen (by simp)))
      ((drain_outOfOrder hdrain _).trans order)
  | @accept w w' e es q accept =>
    have hok : (acceptEntry w e.key e.val).map (·,(none : Option DataBlock)) = .ok (w',none) := by
      rw [accept]
      rfl
    have hswap : Mtbl.completed codec ⟨w',es,.between,q++none.toList⟩ =
        Mtbl.completed codec ⟨w,es,.adding e,q⟩ :=
      completed_swap (actsOnFront_acceptEntry e.key e.val) hok (fun _ _ => leftToAdd_accept)
    rwa [Option.toList_none,List.append_nil] at hswap
  | flush detach =>
    apply completed_swap actsOnFront_detachBlock detach
    intro w1 hdrain
    exact leftToAdd_flush ((drain_closed hdrain).trans (hopen (by simp)))
  | @write w w' es pc q b b' compress write =>
    have hemit : emitBlock codec w (some b) = .ok w' := bind_eq_ok.mpr ⟨b',compress,write⟩
    simp only [Mtbl.completed,drain,hemit,ok_bind]
  | @close w w' index =>
    simp only [Mtbl.completed,drain,ok_bind,leftToAdd,index]
    rfl

theorem WritingStep.unclosed (h : WritingStep codec s s')
    (hopen : s.pc ≠ .finished → s.w.closed = false) : s'.pc ≠ .finished → s'.w.closed = false := by
  cases h with
  | refuse order => exact hopen
  | room order room => exact fun _ => (makeRoom_eq room).1.2.2.trans (hopen (by simp))
  | accept accept =>
    obtain ⟨data,-,haccept⟩ := bind_eq_ok.mp accept
    obtain rfl := Except.ok.inj haccept
    exact fun _ => hopen (by simp)
  | flush detach =>
    rcases detachBlock_eq detach with ⟨-,rfl,-⟩ | ⟨-,rfl,-⟩
    · exact fun _ => hopen (by simp)
    · exact fun _ => hopen (by simp)
  | write compress write =>
    exact fun hpc => (mtblWriterWriteDataBlock_eq write).1.closed.trans (hopen hpc)
  | close index => exact fun hpc => absurd rfl hpc

theorem WritingRun.unclosed {opt : WriterOptions} {file : Bytes} {adds : List Entry}
    (h : WritingRun codec (startWriting opt file adds) s) :
    s.pc ≠ .finished → s.w.closed = false := by
  induction h with
  | start => exact fun _ => rfl
  | step _ hstep ih => exact hstep.unclosed ih

/-- Behind the last addition there is none left, and behind the trailer no block. -/
theorem WritingRun.ends {opt : WriterOptions} {file : Bytes} {adds : List Entry}
    (h : WritingRun codec (startWriting opt file adds) s) :
    (s.pc = .finishing ∨ s.pc = .finished → s.adds = []) ∧ (s.pc = .finished → s.handed = []) := by
  induction h with
  | start => simp [startWriting]
  | step _ hstep ih =>
    cases hstep with
    | refuse order => simp
    | room order room => simp
    | accept accept => simp
    | flush detach => simp
    | write compress write => exact ⟨ih.1,fun hpc => by cases ih.2 hpc⟩
    | close index => simp

/-- In every run the same file is on its way. -/
theorem WritingRun.completed {opt : WriterOptions} {file : Bytes} {adds : List Entry}
    (h : WritingRun codec (startWriting opt file adds) s) :
    Mtbl.completed codec s = serialFile codec opt file adds := by
  induction h with
  | start => rfl
  | step hrun hstep ih => exact (hstep.completed hrun.unclosed).trans ih

/-! ### When the file is written without a pool -/

/-- The adding thread does not stop the process where it would not without a pool. -/
theorem ActsOnFront.returns {g : Writer → Run (Writer × Option DataBlock)} (hg : ActsOnFront g)
    (hdrain : drain codec w q = .ok w1) {k : Writer × Option DataBlock → Run Writer}
    {left : Writer → Run Bytes} {final : Bytes} (hleft : (g w1 >>= k) >>= left = .ok final) :
    ∃ w' b, g w = .ok (w',b) := by
  rw [hg.drained hdrain] at hleft
  cases hok : g w with
  | ok p => exact ⟨p.1,p.2,rfl⟩
  | error e =>
    rw [hok] at hleft
    cases hleft

theorem drain_compresses (hdrain : drain codec w q = .ok w1) :
    ∀ b ∈ q, ∃ b', mtblWriterCompressBlock codec b = .ok b' := by
  induction q generalizing w with
  | nil => simp
  | cons b q ih =>
    obtain ⟨w2,hemit,hdrain⟩ := bind_eq_ok.mp hdrain
    obtain ⟨b',hcompress,-⟩ := bind_eq_ok.mp hemit
    exact List.forall_mem_cons.mpr ⟨⟨b',hcompress⟩,ih hdrain⟩

end

end Mtbl
