import Mtbl.File.Drain
import Mtbl.File.RoundTrip
import Mtbl.Lib.Device

/-! The writer over a descriptor whose `write` may take less than it is offered, be interrupted by a
signal or fail, in a process that may be killed. What it leaves behind then is a beginning of the file
that it would have written, which the reader refuses unless it happens to end in a magic number. -/
namespace Mtbl
open CRun Device

/-- The loop of `_write_all`. Each call is offered what is left. -/
def offerAll : List Reply → Bytes → Bytes → Except (Stopped UInt8) (Bytes × List Reply)
  | answers,file,[] => .ok (file,answers)
  | [],file,_::_ => .error ⟨none,file⟩
  | .interrupted::answers,file,b::buf => offerAll answers file (b::buf)
  | .failed::_,file,_::_ => .error ⟨some .assertion,file⟩
  | .takes 0::_,file,_::_ => .error ⟨some .assertion,file⟩
  | .takes (most+1)::answers,file,b::buf =>
    offerAll answers (file++(b::buf).take (most+1)) ((b::buf).drop (most+1))

namespace Fd

def writeAll (file buf : Bytes) : Device UInt8 Bytes := do
  lift file (check (0 < buf.length))
  fun answers => offerAll answers file buf

def mtblWriterWriteBlock (file : Bytes) (b : DataBlock) : Device UInt8 (Bytes × ℕ) := do
  let len := mtblVarintEncode64 b.data.length
  let file ← writeAll file len
  let file ← writeAll file (mtblFixedEncode32 b.crc.toNat)
  let file ← writeAll file b.data
  return (file,len.length+4+b.data.length)

def mtblWriterWriteDataBlock (w : Writer) (b : DataBlock) : Device UInt8 Writer := do
  let (file,bytesWritten) ← mtblWriterWriteBlock w.file b
  let index ← lift file (blockBuilderAdd w.index b.lastKey (mtblVarintEncode64 w.pendingOffset))
  return { w with
    file := file
    lastOffset := w.pendingOffset
    pendingOffset := w.pendingOffset+bytesWritten
    m := { w.m with bytesDataBlocks := w.m.bytesDataBlocks+bytesWritten
                    countDataBlocks := w.m.countDataBlocks+1 }
    index := index }

def emitBlock (codec : Codec) (w : Writer) : Option DataBlock → Device UInt8 Writer
  | none => return w
  | some b => do
    let b ← lift w.file (mtblWriterCompressBlock codec b)
    mtblWriterWriteDataBlock w b

def mtblWriterFlush (codec : Codec) (w : Writer) : Device UInt8 Writer := do
  let (w,b) ← lift w.file (detachBlock w)
  emitBlock codec w b

def mtblWriterAdd (codec : Codec) (w : Writer) (key val : Bytes) : Device UInt8 (Writer × Bool) := do
  lift w.file (check (w.closed = false))
  if outOfOrder w key then
    return (w,false)
  let (w,b) ← lift w.file (makeRoom w key val)
  let w ← emitBlock codec w b
  let w ← lift w.file (acceptEntry w key val)
  return (w,true)

def writeIndex (codec : Codec) (w : Writer) : Device UInt8 Writer := do
  lift w.file (check (w.closed = false))
  let (index,contents) := blockBuilderFinish w.index
  let (file,bytesWritten) ←
    mtblWriterWriteBlock w.file ⟨.none,0,contents,[],codec.crc32c contents⟩
  let m := { w.m with indexBlockOffset := w.pendingOffset, bytesIndexBlock := bytesWritten }
  let file ← writeAll file (metadataWrite m)
  return { w with
    file := file
    m := m
    closed := true
    lastOffset := w.pendingOffset
    pendingOffset := w.pendingOffset+bytesWritten
    index := blockBuilderReset index }

def mtblWriterFinish (codec : Codec) (w : Writer) : Device UInt8 Writer := do
  let w ← mtblWriterFlush codec w
  writeIndex codec w

def mtblWriterDestroy (codec : Codec) (w : Writer) : Device UInt8 Bytes :=
  if w.closed then return w.file
  else do
    let w ← mtblWriterFinish codec w
    return w.file

def writerAdds (codec : Codec) (w : Writer) : List Entry → Device UInt8 (Writer × List Bool)
  | [] => return (w,[])
  | e::es => do
    let (w,res) ← mtblWriterAdd codec w e.key e.val
    let (w,results) ← writerAdds codec w es
    return (w,res::results)

/-- A whole file, with the results of the adds. -/
def writeFile (codec : Codec) (file : Bytes) (opt : WriterOptions) (adds : List Entry) :
    Device UInt8 (Bytes × List Bool) := do
  let (w,results) ← writerAdds codec (mtblWriterInitFd file (some opt)) adds
  let file ← mtblWriterDestroy codec w
  return (file,results)

end Fd

/-! ### One buffer -/

section
variable {answers rest : List Reply} {file buf : Bytes}

theorem offerAll_returns {out : Bytes} (hrun : offerAll answers file buf = .ok (out,rest)) :
    out = file++buf := by
  induction answers, file, buf using offerAll.induct with
  | case1 answers file =>
    unfold offerAll at hrun
    obtain ⟨rfl,-⟩ := Prod.mk.inj (Except.ok.inj hrun)
    exact (List.append_nil file).symm
  | case2 | case4 | case5 => cases hrun
  | case3 answers file b buf ih => exact ih hrun
  | case6 most answers file b buf ih =>
    rw [ih hrun,List.append_assoc,List.take_append_drop]

theorem offerAll_stops {s : Stopped UInt8} (hrun : offerAll answers file buf = .error s) :
    ∃ front back, buf = front++back ∧ back ≠ [] ∧ s.written = file++front := by
  induction answers, file, buf using offerAll.induct with
  | case1 answers file =>
    unfold offerAll at hrun
    cases hrun
  | case2 file b buf =>
    obtain rfl := Except.error.inj hrun
    exact ⟨[],b::buf,rfl,List.cons_ne_nil b buf,(List.append_nil file).symm⟩
  | case3 answers file b buf ih => exact ih hrun
  | case4 answers file b buf =>
    obtain rfl := Except.error.inj hrun
    exact ⟨[],b::buf,rfl,List.cons_ne_nil b buf,(List.append_nil file).symm⟩
  | case5 answers file b buf =>
    obtain rfl := Except.error.inj hrun
    exact ⟨[],b::buf,rfl,List.cons_ne_nil b buf,(List.append_nil file).symm⟩
  | case6 most answers file b buf ih =>
    obtain ⟨front,back,hsplit,hne,hwritten⟩ := ih hrun
    refine ⟨(b::buf).take (most+1)++front,back,?_,hne,?_⟩
    · rw [List.append_assoc,← hsplit,List.take_append_drop]
    · rw [hwritten,List.append_assoc]

theorem offerAll_serves {n : ℕ} (h : Serves (buf.length+n) answers) :
    ∃ rest, offerAll answers file buf = .ok (file++buf,rest) ∧ Serves n rest := by
  induction answers, file, buf using offerAll.induct with
  | case1 answers file =>
    refine ⟨answers,?_,h.le (Nat.le_add_left ..)⟩
    rw [offerAll,List.append_nil]
  | case2 file b buf =>
    have henough := h.enough
    simp at henough
  | case3 answers file b buf ih => exact ih h.interrupted
  | case4 answers file b buf => exact absurd List.mem_cons_self h.unfailing
  | case5 answers file b buf => exact absurd List.mem_cons_self h.taking
  | case6 most answers file b buf ih =>
    have hless : ((b::buf).drop (most+1)).length+n+1 ≤ (b::buf).length+n := by
      rw [List.length_drop,List.length_cons]
      omega
    obtain ⟨rest,hrun,hserves⟩ := ih (h.le hless).takes.2
    refine ⟨rest,?_,hserves⟩
    rw [offerAll,hrun,List.append_assoc,List.take_append_drop]

end

/-! ### The writer -/

namespace Fd

section
variable {file buf : Bytes} {codec : Codec} {w : Writer}

theorem writeAll_follows (file buf : Bytes) :
    Follows file id (writeAll file buf) (Mtbl.writeAll file buf) := by
  apply (Follows.lift (fun _ => file) (fun _ _ => rfl)).bind
  rintro _ -
  exact {
    grows := by
      rintro _ ⟨⟩
      exact List.prefix_append ..
    returns := by
      intro answers out rest hrun
      rw [offerAll_returns hrun]
      rfl
    stops := by
      intro answers s hrun
      obtain ⟨front,back,rfl,hne,hwritten⟩ := offerAll_stops hrun
      refine ⟨hwritten ▸ List.prefix_append ..,?_⟩
      rintro _ ⟨⟩
      have hpos := List.length_pos_of_ne_nil hne
      rw [id,hwritten,← List.append_assoc]
      refine ⟨List.prefix_append ..,?_⟩
      rw [@List.length_append _ (file++front)]
      omega
    serves := by
      rintro _ ⟨⟩ answers n hserves
      apply offerAll_serves
      rwa [id,List.length_append,Nat.add_sub_cancel_left] at hserves }

theorem mtblWriterWriteBlock_follows (file : Bytes) (b : DataBlock) :
    Follows file Prod.fst (mtblWriterWriteBlock file b) (Mtbl.mtblWriterWriteBlock file b) := by
  apply (writeAll_follows ..).bind
  rintro file1 -
  apply (writeAll_follows ..).bind
  rintro file2 -
  apply (writeAll_follows ..).bind
  rintro file3 -
  exact .pure rfl

theorem mtblWriterWriteDataBlock_follows (w : Writer) (b : DataBlock) :
    Follows w.file Writer.file (mtblWriterWriteDataBlock w b) (Mtbl.mtblWriterWriteDataBlock w b) := by
  apply (mtblWriterWriteBlock_follows ..).bind
  rintro ⟨file,bytesWritten⟩ -
  apply (Follows.lift (fun _ => file) (fun _ _ => rfl)).bind
  rintro index -
  exact .pure rfl

theorem emitBlock_follows (codec : Codec) (w : Writer) (b : Option DataBlock) :
    Follows w.file Writer.file (emitBlock codec w b) (Mtbl.emitBlock codec w b) := by
  cases b with
  | none => exact .pure rfl
  | some b =>
    apply (Follows.lift (fun _ => w.file) (fun _ _ => rfl)).bind
    rintro b' -
    exact mtblWriterWriteDataBlock_follows w b'

/-- Detaching a block writes nothing. -/
theorem detachBlock_file {p : Writer × Option DataBlock} (hdetach : detachBlock w = .ok p) :
    p.1.file = w.file := by
  rcases detachBlock_eq hdetach with ⟨-,hw,-⟩ | ⟨-,hw,-⟩ <;> rw [hw]

theorem makeRoom_file {key val : Bytes} {p : Writer × Option DataBlock}
    (hroom : makeRoom w key val = .ok p) : p.1.file = w.file := by
  simp only [makeRoom] at hroom
  split_ifs at hroom
  · obtain ⟨sep,-,hdetach⟩ := bind_eq_ok.mp hroom
    exact detachBlock_file (w := { w with lastKey := sep }) hdetach
  · obtain rfl := Except.ok.inj hroom
    rfl

theorem acceptEntry_file {key val : Bytes} {w' : Writer} (haccept : acceptEntry w key val = .ok w') :
    w'.file = w.file := by
  obtain ⟨data,-,haccept⟩ := bind_eq_ok.mp haccept
  obtain rfl := Except.ok.inj haccept
  rfl

theorem mtblWriterFlush_follows (codec : Codec) (w : Writer) :
    Follows w.file Writer.file (mtblWriterFlush codec w) (Mtbl.mtblWriterFlush codec w) := by
  apply (Follows.lift (fun p => p.1.file) (fun _ h => detachBlock_file h)).bind
  rintro ⟨w,b⟩ -
  exact emitBlock_follows codec w b

theorem mtblWriterAdd_follows (codec : Codec) (w : Writer) (key val : Bytes) :
    Follows w.file (fun p => p.1.file) (mtblWriterAdd codec w key val)
      (Mtbl.mtblWriterAdd codec w key val) := by
  apply (Follows.lift (fun _ => w.file) (fun _ _ => rfl)).bind
  rintro _ -
  by_cases horder : outOfOrder w key = true
  · rw [if_pos horder,if_pos horder]
    exact .pure rfl
  · rw [if_neg horder,if_neg horder]
    apply (Follows.lift (fun p => p.1.file) (fun _ h => makeRoom_file h)).bind
    rintro ⟨w1,b⟩ -
    apply (emitBlock_follows codec w1 b).bind
    rintro w2 -
    apply (Follows.lift Writer.file (fun _ h => acceptEntry_file h)).bind
    rintro w3 -
    exact .pure rfl

theorem writerAdds_follows (codec : Codec) (w : Writer) (es : List Entry) :
    Follows w.file (fun p => p.1.file) (writerAdds codec w es) (Mtbl.writerAdds codec w es) := by
  induction es generalizing w with
  | nil => exact .pure rfl
  | cons e es ih =>
    apply (mtblWriterAdd_follows codec w e.key e.val).bind
    rintro ⟨w1,res⟩ -
    apply (ih w1).bind
    rintro ⟨w2,results⟩ -
    exact .pure rfl

theorem writeIndex_follows (codec : Codec) (w : Writer) :
    Follows w.file Writer.file (writeIndex codec w) (Mtbl.writeIndex codec w) := by
  apply (Follows.lift (fun _ => w.file) (fun _ _ => rfl)).bind
  rintro _ -
  apply (mtblWriterWriteBlock_follows ..).bind
  rintro ⟨file,bytesWritten⟩ -
  apply (writeAll_follows ..).bind
  rintro file' -
  exact .pure rfl

theorem mtblWriterDestroy_follows (codec : Codec) (w : Writer) :
    Follows w.file id (mtblWriterDestroy codec w) (Mtbl.mtblWriterDestroy codec w) := by
  unfold mtblWriterDestroy Mtbl.mtblWriterDestroy
  by_cases hclosed : w.closed = true
  · rw [if_pos hclosed,if_pos hclosed]
    exact .pure rfl
  · rw [if_neg hclosed,if_neg hclosed]
    have hfinish : Follows w.file Writer.file (mtblWriterFinish codec w)
        (Mtbl.mtblWriterFinish codec w) := by
      apply (mtblWriterFlush_follows codec w).bind
      rintro w1 -
      exact writeIndex_follows codec w1
    apply hfinish.bind
    rintro w2 -
    exact .pure rfl

/-- The plain writer, as far as the file goes. -/
theorem writeFile_follows (codec : Codec) (pre : Bytes) (opt : WriterOptions) (adds : List Entry) :
    Follows pre Prod.fst (writeFile codec pre opt adds) (do
      let (w,results) ← Mtbl.writerAdds codec (mtblWriterInitFd pre (some opt)) adds
      let file ← Mtbl.mtblWriterDestroy codec w
      return (file,results)) := by
  apply (writerAdds_follows codec (mtblWriterInitFd pre (some opt)) adds).bind
  rintro ⟨w,results⟩ -
  apply (mtblWriterDestroy_follows codec w).bind
  rintro file -
  exact .pure rfl

end

end Fd

/-! ### What is left behind -/

/-- The last four bytes are a magic number. -/
def EndsInMagic (file : Bytes) : Prop :=
  ∃ front magic, (magic = mtblMagicV1 ∨ magic = mtblMagic) ∧ file = front++mtblFixedEncode32 magic

section
variable {codec : Codec} {file : Bytes}

/-- The bytes that spell a number are those that it is encoded to. -/
theorem leBytes_leValue {n v : ℕ} {bs : Bytes} (hvalue : leValue n bs = .ok v) :
    leBytes n v = bs.take n := by
  induction n generalizing bs v with
  | zero => rfl
  | succ n ih =>
    cases bs with
    | nil => cases hvalue
    | cons b bs =>
      obtain ⟨u,hu,hv⟩ := bind_eq_ok.mp hvalue
      obtain rfl := Except.ok.inj hv
      have hb := b.toNat_lt
      have hlow : UInt8.ofNat (b.toNat+256*u) = b := by
        apply UInt8.toNat_inj.mp
        rw [UInt8.toNat_ofNat']
        omega
      have hhigh : (b.toNat+256*u)/256 = u := by omega
      rw [leBytes,hlow,hhigh,ih hu,List.take_succ_cons]

/-- Without a magic number at its end a file is refused. -/
theorem mtblReaderInitFd_refuses (hmagic : ¬ EndsInMagic file) (opt : ReaderOptions) :
    mtblReaderInitFd codec file opt = .ok none := by
  unfold mtblReaderInitFd
  by_cases hshort : file.length < mtblMetadataSize
  · simp only [if_pos hshort,pure_eq_ok]
  rw [if_neg hshort]
  have hsize : mtblMetadataSize = 512 := rfl
  have hdrop : (file.drop (file.length-mtblMetadataSize)).drop (mtblMetadataSize-4) =
      file.drop (file.length-4) := by
    rw [List.drop_drop,show file.length-mtblMetadataSize+(mtblMetadataSize-4) = file.length-4 by omega]
  have hfour : (file.drop (file.length-4)).length = 4 := by
    rw [List.length_drop]
    omega
  obtain ⟨magic,hread,-⟩ := @leValue_ok 4 (file.drop (file.length-4)) hfour.ge
  have hnone : ∀ known, (known = mtblMagicV1 ∨ known = mtblMagic) → magic ≠ known := by
    rintro known hknown rfl
    apply hmagic
    refine ⟨file.take (file.length-4),magic,hknown,?_⟩
    rw [mtblFixedEncode32,leBytes_leValue hread,List.take_of_length_le hfour.le,
      List.take_append_drop]
  have hrefused : metadataRead (file.drop (file.length-mtblMetadataSize)) = .ok none := by
    unfold metadataRead
    rw [hdrop,show mtblFixedDecode32 (file.drop (file.length-4)) = _ from hread,ok_bind,
      if_neg (hnone _ (.inl rfl)),if_neg (hnone _ (.inr rfl))]
    rfl
  rw [hrefused]
  rfl

/-- The bytes in front of the trailer's own magic number are zero. -/
theorem cut_in_trailer {front cut : Bytes} {m : Metadata} (hfile : file = front++metadataWrite m)
    (hcut : cut <+: file) (hlt : cut.length < file.length)
    (hlast : file.length ≤ cut.length+436) : ¬ EndsInMagic cut := by
  rintro ⟨rest,magic,hmagic,hends⟩
  have hfields := metadataFields_bytes_length m
  have hlength : file.length = front.length+512 := by
    rw [hfile,List.length_append,metadataWrite_length]
    rfl
  have hcutlength : cut.length = rest.length+4 := by
    rw [hends,List.length_append,mtblFixedEncode32,leBytes_length]
  have hzero : file[rest.length]? = some 0 := by
    have hassoc : file = (front++(metadataFields m).flatMap mtblFixedEncode64)++
        (List.replicate 436 0++mtblFixedEncode32 mtblMagic) := by
      simp only [hfile,metadataWrite,hfields,mtblMetadataSize,List.append_assoc]
    have hq : (front++(metadataFields m).flatMap mtblFixedEncode64).length = front.length+72 := by
      rw [List.length_append,hfields]
    rw [hassoc,List.getElem?_append_right (by omega),List.getElem?_append_left
      (by rw [List.length_replicate]; omega),List.getElem?_replicate,if_pos (by omega)]
  have hsome : file[rest.length]? = some (UInt8.ofNat magic) := by
    obtain ⟨more,rfl⟩ := hcut
    rw [hends,List.append_assoc,List.getElem?_append_right le_rfl,Nat.sub_self]
    rfl
  have hbyte := Option.some.inj (hzero.symm.trans hsome)
  rcases hmagic with rfl | rfl <;> exact absurd hbyte (by decide)

theorem writerAdds_unclosed {pre : Bytes} {opt : WriterOptions} {adds : List Entry} {w : Writer}
    {results : List Bool}
    (hrun : writerAdds codec (mtblWriterInitFd pre (some opt)) adds = .ok (w,results)) :
    w.closed = false := by
  have hwriting := @writerAdds_run codec _ _ _ _ hrun []
  rw [List.append_nil] at hwriting
  exact WritingRun.unclosed hwriting (by simp)

theorem mtblWriterDestroy_trailer {w : Writer} (hopen : w.closed = false)
    (hdestroy : mtblWriterDestroy codec w = .ok file) : ∃ front m, file = front++metadataWrite m := by
  unfold mtblWriterDestroy at hdestroy
  rw [if_neg (by rw [hopen]; exact Bool.false_ne_true)] at hdestroy
  obtain ⟨w1,hfinish,hdestroy⟩ := bind_eq_ok.mp hdestroy
  obtain rfl := Except.ok.inj hdestroy
  obtain ⟨w2,-,hindex⟩ := bind_eq_ok.mp hfinish
  obtain ⟨-,-,hindex⟩ := bind_eq_ok.mp hindex
  obtain ⟨⟨front,n⟩,-,hindex⟩ := bind_eq_ok.mp hindex
  obtain ⟨out,htrailer,hindex⟩ := bind_eq_ok.mp hindex
  obtain ⟨_,-,hout⟩ := bind_eq_ok.mp htrailer
  obtain rfl := Except.ok.inj hout
  obtain rfl := Except.ok.inj hindex
  exact ⟨front,_,rfl⟩

end

/-- Over every descriptor the writer either writes the whole file, as it surely does where nothing
fails and enough is taken, or leaves a proper beginning of it behind. That is refused by the reader
unless more than the trailer's last 436 bytes are missing and it happens to end in a magic number. -/
theorem interrupted_writing (codec : Codec) (pre : Bytes) (opt : WriterOptions) (adds : List Entry)
    (w : Writer) (results : List Bool) (file : Bytes)
    (hrun : writerAdds codec (mtblWriterInitFd pre (some opt)) adds = .ok (w,results))
    (hdestroy : mtblWriterDestroy codec w = .ok file) (answers : List Reply) :
    (∀ out rest, (Fd.writeFile codec pre opt adds).run answers = .ok (out,rest) →
      out = (file,results)) ∧
    (Serves (file.length-pre.length) answers → ∃ rest,
      (Fd.writeFile codec pre opt adds).run answers = .ok ((file,results),rest)) ∧
    ∀ s, (Fd.writeFile codec pre opt adds).run answers = .error s →
      pre <+: s.written ∧ s.written <+: file ∧ s.written.length < file.length ∧ ∀ ropt,
        mtblReaderInitFd codec s.written ropt = .ok none ∨
          s.written.length+436 < file.length ∧ EndsInMagic s.written := by
  have hfollows := Fd.writeFile_follows codec pre opt adds
  have hplain : (do
      let (w,results) ← writerAdds codec (mtblWriterInitFd pre (some opt)) adds
      let file ← mtblWriterDestroy codec w
      return (file,results) : Run (Bytes × List Bool)) = .ok (file,results) := by
    rw [hrun,ok_bind]
    simp only [hdestroy,ok_bind,pure_eq_ok]
  refine ⟨?_,?_,?_⟩
  · intro out rest hout
    exact Except.ok.inj ((hfollows.returns answers out rest hout).symm.trans hplain)
  · intro hserves
    obtain ⟨rest,hrest,-⟩ := hfollows.serves _ hplain answers 0 hserves
    exact ⟨rest,hrest⟩
  · intro s hstopped
    obtain ⟨hpre,hrest⟩ := hfollows.stops answers s hstopped
    obtain ⟨hbegins,hlt⟩ := hrest _ hplain
    refine ⟨hpre,hbegins,hlt,?_⟩
    intro ropt
    by_cases hmagic : EndsInMagic s.written
    · right
      refine ⟨?_,hmagic⟩
      by_contra hlast
      obtain ⟨front,m,hfile⟩ := mtblWriterDestroy_trailer (writerAdds_unclosed hrun) hdestroy
      exact cut_in_trailer hfile hbegins hlt (not_lt.mp hlast) hmagic
    · exact .inl (mtblReaderInitFd_refuses hmagic ropt)

/-- Two entries behind a reserved byte: written one byte at a time, or killed after three bytes. -/
theorem interrupted_writing_two : ∃ file,
    (∃ rest, (Fd.writeFile storingCodec [7] plainOptions [⟨[1],[2]⟩,⟨[1,0],[]⟩]).run
      (List.replicate file.length (.takes 1)) = .ok ((file,[true,true]),rest)) ∧
    ∀ s, (Fd.writeFile storingCodec [7] plainOptions [⟨[1],[2]⟩,⟨[1,0],[]⟩]).run
      [.takes 2,.interrupted,.takes 1] = .error s →
        s.written <+: file ∧ s.written.length < file.length := by
  obtain ⟨w,file,_,_,_,_,hrun,hdestroy,-⟩ := @writer_runs storingCodec [7] plainOptions
    (by decide) [⟨[1],[2]⟩,⟨[1,0],[]⟩] (by decide) (by decide +kernel)
  have hwriting := interrupted_writing storingCodec [7] plainOptions [⟨[1],[2]⟩,⟨[1,0],[]⟩] w
    [true,true] file hrun hdestroy
  refine ⟨file,(hwriting _).2.1 ?_,?_⟩
  · exact {
      unfailing := by simp
      taking := by simp
      enough := by
        rw [List.countP_replicate,if_pos (by decide)]
        exact Nat.sub_le .. }
  · intro s hstopped
    obtain ⟨-,hbegins,hlt,-⟩ := (hwriting _).2.2 s hstopped
    exact ⟨hbegins,hlt⟩

end Mtbl
