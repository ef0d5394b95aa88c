import Mtbl.File.BlockSize

/-! The writer's two threads. The adding thread fills data blocks and hands them on with the key of
their index entry; the blocks are compressed and written in the order in which they were handed on, at
once without a thread pool and later, by the result handler, with one. -/
namespace Mtbl
open CRun

/-- Where the adding thread is: between two calls, in `mtbl_writer_add` behind its flush, in
`_mtbl_writer_finish` behind its flush, or behind the trailer. -/
inductive AddingAt
  | between
  | adding (e : Entry)
  | finishing
  | finished
  deriving DecidableEq

structure Writing where
  w : Writer
  adds : List Entry
  pc : AddingAt
  handed : List DataBlock
  deriving DecidableEq

def startWriting (opt : WriterOptions) (file : Bytes) (adds : List Entry) : Writing :=
  ⟨mtblWriterInitFd file (some opt),adds,.between,[]⟩

/-- Every order of the two threads. -/
inductive WritingStep (codec : Codec) : Writing → Writing → Prop
  | refuse {w : Writer} {e : Entry} {es : List Entry} {q : List DataBlock}
      (order : outOfOrder w e.key = true) :
      WritingStep codec ⟨w,e::es,.between,q⟩ ⟨w,es,.between,q⟩
  | room {w w' : Writer} {e : Entry} {es : List Entry} {q : List DataBlock} {b : Option DataBlock}
      (order : outOfOrder w e.key = false) (room : makeRoom w e.key e.val = .ok (w',b)) :
      WritingStep codec ⟨w,e::es,.between,q⟩ ⟨w',es,.adding e,q++b.toList⟩
  | accept {w w' : Writer} {e : Entry} {es : List Entry} {q : List DataBlock}
      (accept : acceptEntry w e.key e.val = .ok w') :
      WritingStep codec ⟨w,es,.adding e,q⟩ ⟨w',es,.between,q⟩
  | flush {w w' : Writer} {q : List DataBlock} {b : Option DataBlock}
      (detach : detachBlock w = .ok (w',b)) :
      WritingStep codec ⟨w,[],.between,q⟩ ⟨w',[],.finishing,q++b.toList⟩
  | write {w w' : Writer} {es : List Entry} {pc : AddingAt} {q : List DataBlock} {b b' : DataBlock}
      (compress : mtblWriterCompressBlock codec b = .ok b')
      (write : mtblWriterWriteDataBlock w b' = .ok w') :
      WritingStep codec ⟨w,es,pc,b::q⟩ ⟨w',es,pc,q⟩
  | close {w w' : Writer} (index : writeIndex codec w = .ok w') :
      WritingStep codec ⟨w,[],.finishing,[]⟩ ⟨w',[],.finished,[]⟩

/-- The runs from a state. -/
inductive WritingRun (codec : Codec) (s : Writing) : Writing → Prop
  | start : WritingRun codec s s
  | step {s' s'' : Writing} (run : WritingRun codec s s') (step : WritingStep codec s' s'') :
      WritingRun codec s s''

section
variable {codec : Codec} {w w' : Writer} {s s' s'' : Writing}

theorem WritingRun.trans (h : WritingRun codec s s') (h' : WritingRun codec s' s'') :
    WritingRun codec s s'' := by
  induction h' with
  | start => exact h
  | step _ hstep ih => exact .step ih hstep

theorem WritingStep.run (h : WritingStep codec s s') : WritingRun codec s s' :=
  .step .start h

/-- Making room leaves the data builder alone, or empties it and hands its contents on. -/
theorem makeRoom_eq {key val : Bytes} {b : Option DataBlock}
    (hroom : makeRoom w key val = .ok (w',b)) :
    (w'.index = w.index ∧ w'.m = w.m ∧ w'.closed = w.closed) ∧
      ((b = none ∧ w'.data = w.data) ∨
        (blockBuilderEmpty w.data = false ∧ b.isSome ∧
          w'.data = blockBuilderReset (blockBuilderFinish w.data).1)) := by
  simp only [makeRoom] at hroom
  split_ifs at hroom
  · obtain ⟨sep,-,hdetach⟩ := bind_eq_ok.mp hroom
    rcases detachBlock_eq hdetach with ⟨-,rfl,rfl⟩ | ⟨hempty,rfl,rfl⟩
    · exact ⟨⟨rfl,rfl,rfl⟩,.inl ⟨rfl,rfl⟩⟩
    · exact ⟨⟨rfl,rfl,rfl⟩,.inr ⟨hempty,rfl,rfl⟩⟩
  · obtain ⟨rfl,rfl⟩ := Prod.mk.inj (Except.ok.inj hroom)
    exact ⟨⟨rfl,rfl,rfl⟩,.inl ⟨rfl,rfl⟩⟩

theorem acceptEntry_eq {key val : Bytes} (haccept : acceptEntry w key val = .ok w') :
    blockBuilderAdd w.data key val = .ok w'.data ∧ w'.index = w.index ∧ w'.lastKey = key ∧
      w'.m.countEntries = w.m.countEntries+1 := by
  obtain ⟨data,hadd,haccept⟩ := bind_eq_ok.mp haccept
  obtain rfl := Except.ok.inj haccept
  exact ⟨hadd,rfl,rfl,rfl⟩

/-- Writing a block leaves the adding thread's part alone and adds a key to the index. -/
theorem mtblWriterWriteDataBlock_eq {b : DataBlock}
    (hwrite : mtblWriterWriteDataBlock w b = .ok w') :
    SameFront w w' ∧
      (w'.m.countEntries = w.m.countEntries ∧ w'.m.fileVersion = w.m.fileVersion) ∧
      blockBuilderAdd w.index b.lastKey (mtblVarintEncode64 w.pendingOffset) = .ok w'.index := by
  obtain ⟨⟨file,n⟩,-,hwrite⟩ := bind_eq_ok.mp hwrite
  obtain ⟨index,hadd,hwrite⟩ := bind_eq_ok.mp hwrite
  obtain rfl := Except.ok.inj hwrite
  exact ⟨⟨rfl,rfl,rfl,rfl⟩,⟨rfl,rfl⟩,hadd⟩

theorem writeIndex_eq (hindex : writeIndex codec w = .ok w') :
    (w'.data = w.data ∧ w'.opt = w.opt) ∧
      w'.index = blockBuilderReset (blockBuilderFinish w.index).1 := by
  obtain ⟨-,-,hindex⟩ := bind_eq_ok.mp hindex
  obtain ⟨⟨file,n⟩,-,hindex⟩ := bind_eq_ok.mp hindex
  obtain ⟨file',-,hindex⟩ := bind_eq_ok.mp hindex
  obtain rfl := Except.ok.inj hindex
  exact ⟨⟨rfl,rfl⟩,rfl⟩

/-- A block that is written as soon as it has been handed on. -/
theorem emitBlock_run {b : Option DataBlock} (hemit : emitBlock codec w b = .ok w') (es : List Entry)
    (pc : AddingAt) : WritingRun codec ⟨w,es,pc,b.toList⟩ ⟨w',es,pc,[]⟩ := by
  cases b with
  | none =>
    obtain rfl := Except.ok.inj hemit
    exact .start
  | some b =>
    obtain ⟨b',hcompress,hwrite⟩ := bind_eq_ok.mp hemit
    exact (WritingStep.write hcompress hwrite).run

/-- `mtbl_writer_add` without a pool is one of the runs. -/
theorem mtblWriterAdd_run {e : Entry} {res : Bool} (hadd : mtblWriterAdd codec w e.key e.val =
    .ok (w',res)) (es : List Entry) :
    WritingRun codec ⟨w,e::es,.between,[]⟩ ⟨w',es,.between,[]⟩ := by
  unfold mtblWriterAdd at hadd
  obtain ⟨-,-,hadd⟩ := bind_eq_ok.mp hadd
  split_ifs at hadd with horder
  · obtain ⟨rfl,-⟩ := Prod.mk.inj (Except.ok.inj hadd)
    exact (WritingStep.refuse horder).run
  · obtain ⟨⟨w1,b⟩,hroom,hadd⟩ := bind_eq_ok.mp hadd
    obtain ⟨w2,hemit,hadd⟩ := bind_eq_ok.mp hadd
    obtain ⟨w3,haccept,hadd⟩ := bind_eq_ok.mp hadd
    obtain ⟨rfl,-⟩ := Prod.mk.inj (Except.ok.inj hadd)
    have hfirst : WritingStep codec ⟨w,e::es,.between,[]⟩ ⟨w1,es,.adding e,b.toList⟩ :=
      .room (Bool.eq_false_iff.mpr horder) hroom
    exact (hfirst.run.trans (emitBlock_run hemit es (.adding e))).step (.accept haccept)

theorem writerAdds_run {es : List Entry} {results : List Bool}
    (hadds : writerAdds codec w es = .ok (w',results)) (rest : List Entry) :
    WritingRun codec ⟨w,es++rest,.between,[]⟩ ⟨w',rest,.between,[]⟩ := by
  induction es generalizing w results with
  | nil =>
    obtain ⟨rfl,-⟩ := Prod.mk.inj (Except.ok.inj hadds)
    exact .start
  | cons e es ih =>
    obtain ⟨⟨w1,res⟩,hadd,hadds⟩ := bind_eq_ok.mp hadds
    obtain ⟨⟨w2,results'⟩,hrest,hadds⟩ := bind_eq_ok.mp hadds
    obtain ⟨rfl,-⟩ := Prod.mk.inj (Except.ok.inj hadds)
    exact (mtblWriterAdd_run hadd (es++rest)).trans (ih hrest)

/-- Writing without a pool, up to the trailer, is one of the runs. -/
theorem mtblWriterFinish_run {opt : WriterOptions} {file : Bytes} {adds : List Entry} {w1 w2 : Writer}
    {results : List Bool}
    (hadds : writerAdds codec (mtblWriterInitFd file (some opt)) adds = .ok (w1,results))
    (hfinish : mtblWriterFinish codec w1 = .ok w2) :
    WritingRun codec (startWriting opt file adds) ⟨w2,[],.finished,[]⟩ := by
  have hrun := @writerAdds_run codec _ _ _ _ hadds []
  rw [List.append_nil] at hrun
  obtain ⟨w3,hflush,hindex⟩ := bind_eq_ok.mp hfinish
  obtain ⟨⟨w4,b⟩,hdetach,hemit⟩ := bind_eq_ok.mp hflush
  have hlast : WritingStep codec ⟨w1,[],.between,[]⟩ ⟨w4,[],.finishing,b.toList⟩ := .flush hdetach
  exact ((hrun.step hlast).trans (emitBlock_run hemit [] .finishing)).step (.close hindex)

end

end Mtbl
