import Mtbl.Merge.Copy

/-! The `mtbl_merge` program: the readers of the input files, a merger over them, and the loop that
adds what the merger returns to the output file. The output is again a file of the same kind, so
what was said about readers on such files holds for it. -/
namespace Mtbl
open CRun Cursor

variable {σ : Type}

/-- The readers on the input files, or `none` where one does not open and the program exits. -/
def openReaders (codec : Codec) : List Bytes → Run (Option (List Reader))
  | [] => .ok (some [])
  | file::files => do
    match ← mtblReaderInitFd codec file ⟨false⟩ with
    | none => return none
    | some r =>
      match ← openReaders codec files with
      | none => return none
      | some readers => return some (r::readers)

/-- The loop of `merge`, which asserts that every add succeeds. -/
def mergeLoop (codec : Codec) (next : σ → Run (Option Entry × σ)) : ℕ → σ → Writer → Run Writer
  | 0,_,_ => .error .fuel
  | n+1,it,writer => do
    let (e,it) ← next it
    match e with
    | none => return writer
    | some e => do
      let (writer,res) ← mtblWriterAdd codec writer e.key e.val
      check (res = true)
      mergeLoop codec next n it writer

/-- `merge`. The result is the output file. -/
def merge (codec : Codec) (I : Ops σ Entry Bytes) (fuel : ℕ) (merger : Merger σ) (writer : Writer) :
    Run Bytes := do
  let it ← mergerIter I merger
  match it with
  | none => .error .assertion
  | some it => do
    let writer ← mergeLoop codec (mergerIterNext I fuel) fuel it writer
    mtblWriterDestroy codec writer

/-- `main` with its options and the user's library read: the user's merge function, no dupsort function,
a new output file. It exits with its usage where it has not at least an input besides the output. -/
def mergeMain (codec : Codec) (userFuncMerge : MergeFunc) (wopt : WriterOptions) (fuel : ℕ)
    (inputs : List Bytes) : Run (Option Bytes) := do
  if inputs.length+1 < 2 then return none
  else
    let writer := mtblWriterInitFd [] (some wopt)
    match ← openReaders codec inputs with
    | none => return none
    | some readers =>
      let file ← merge codec (readerOps codec) fuel
        ⟨readers.map (mtblReaderSource codec),some userFuncMerge,none⟩ writer
      return some file

/-! ### What the merger returns -/

section
variable {f : MergeFunc} {k v : Bytes} {e : Entry} {taken rest out : List Entry}

/-- A call that returns an entry returns a key that it has met, and leaves entries behind it. -/
theorem collect_entry (hsorted : KeySorted taken) (hle : ∀ x ∈ taken, k ≤ x.key)
    (h : collect (some f) k v taken = (.entry e,rest)) :
    e.key ∈ k::taken.map Entry.key ∧ rest <:+ taken ∧ ∀ x ∈ rest, e.key < x.key := by
  induction taken generalizing k v with
  | nil =>
    obtain ⟨hentry,rfl⟩ := Prod.mk.inj h
    obtain rfl := MergerAnswer.entry.inj hentry
    exact ⟨List.mem_cons_self,List.suffix_rfl,by simp⟩
  | cons x taken ih =>
    obtain ⟨hhead,hsorted'⟩ := List.pairwise_cons.mp hsorted
    have hkx := hle x List.mem_cons_self
    by_cases hk : k = []
    · subst hk
      rw [collect_no_key rfl] at h
      obtain ⟨hmem,hsuffix,hrest⟩ := ih hsorted' hhead h
      exact ⟨List.mem_cons_of_mem _ hmem,hsuffix.trans (List.suffix_cons x taken),hrest⟩
    · rcases hkx.eq_or_lt with heq | hlt
      · cases hf : f k v x.val with
        | none =>
          rw [collect_declined hk heq hf] at h
          cases (Prod.mk.inj h).1
        | some u =>
          rw [collect_merged hk heq hf] at h
          obtain ⟨hmem,hsuffix,hrest⟩ := ih hsorted' (fun y hy => heq ▸ hhead y hy) h
          refine ⟨?_,hsuffix.trans (List.suffix_cons x taken),hrest⟩
          exact (List.mem_cons.mp hmem).elim (fun he => he ▸ List.mem_cons_self)
            (fun he => List.mem_cons_of_mem _ (List.mem_cons_of_mem _ he))
      · rw [collect_other hk hlt.ne] at h
        obtain ⟨hentry,rfl⟩ := Prod.mk.inj h
        obtain rfl := MergerAnswer.entry.inj hentry
        refine ⟨List.mem_cons_self,List.suffix_rfl,fun y hy => ?_⟩
        rcases List.mem_cons.mp hy with rfl | hy
        · exact hlt
        · exact hlt.trans_le (hhead y hy)

theorem takeNext_entry (hsorted : KeySorted taken)
    (h : takeNext (some f) taken = (.entry e,rest)) :
    e.key ∈ taken.map Entry.key ∧ rest <:+ taken ∧ ∀ x ∈ rest, e.key < x.key := by
  cases taken with
  | nil => cases h
  | cons x taken =>
    obtain ⟨hhead,hsorted'⟩ := List.pairwise_cons.mp hsorted
    obtain ⟨hmem,hsuffix,hrest⟩ := collect_entry hsorted' hhead h
    exact ⟨hmem,hsuffix.trans (List.suffix_cons x taken),hrest⟩

/-- What the merger returns has ascending keys, all of them taken, also where a merge is declined. -/
theorem ReturnedUntil.ascending {merge : Option MergeFunc} {declined : Bool}
    (h : ReturnedUntil merge taken out declined) (hmerge : merge = some f)
    (hsorted : KeySorted taken) :
    (∀ o ∈ out, o.key ∈ taken.map Entry.key) ∧ out.Pairwise (fun a b => a.key < b.key) := by
  induction h with
  | finished => exact ⟨by simp,.nil⟩
  | declined => exact ⟨by simp,.nil⟩
  | @entry e taken rest out declined hnext _ ih =>
    subst hmerge
    obtain ⟨hmem,hsuffix,hrest⟩ := takeNext_entry hsorted hnext
    obtain ⟨hkeys,hasc⟩ := ih (hsorted.sublist hsuffix.sublist)
    refine ⟨List.forall_mem_cons.mpr ⟨hmem,fun o ho => ?_⟩,List.pairwise_cons.mpr ⟨?_,hasc⟩⟩
    · obtain ⟨x,hx,hxk⟩ := List.mem_map.mp (hkeys o ho)
      exact hxk ▸ List.mem_map_of_mem (hsuffix.subset hx)
    · intro o ho
      obtain ⟨x,hx,hxk⟩ := List.mem_map.mp (hkeys o ho)
      exact hxk ▸ hrest x hx

end

/-! ### Writing it -/

section
variable {codec : Codec} {es : List Entry}

/-- Entries in ascending order are all accepted. -/
theorem acceptedEntries_ascending {last : Option Bytes}
    (hlast : ∀ l ∈ last, ∀ e ∈ es, l < e.key) (hasc : es.Pairwise (fun a b => a.key < b.key)) :
    acceptedEntries last es = es ∧ addResults last es = List.replicate es.length true := by
  induction es generalizing last with
  | nil => exact ⟨rfl,rfl⟩
  | cons e es ih =>
    obtain ⟨hhead,hasc'⟩ := List.pairwise_cons.mp hasc
    have hacc : accepts last e.key = true := by
      cases last with
      | none => rfl
      | some l => exact decide_eq_true (hlast l rfl e List.mem_cons_self)
    obtain ⟨hentries,hresults⟩ := @ih (some e.key) (fun l hl x hx => Option.some.inj hl ▸ hhead x hx)
      hasc'
    rw [acceptedEntries,addResults,if_pos hacc,if_pos hacc,hentries,hresults]
    exact ⟨rfl,rfl⟩

/-- Adds that all succeed are what the copy loop does. -/
theorem addAll_writerAdds {w w' : Writer}
    (h : writerAdds codec w es = .ok (w',List.replicate es.length true)) :
    addAll (writerAdd codec) w es = .ok (true,w') := by
  induction es generalizing w with
  | nil =>
    obtain ⟨rfl,-⟩ := Prod.mk.inj (Except.ok.inj h)
    rfl
  | cons e es ih =>
    rw [writerAdds] at h
    obtain ⟨⟨w1,res⟩,hadd,h⟩ := bind_eq_ok.mp h
    obtain ⟨⟨w2,results⟩,hadds,hpure⟩ := bind_eq_ok.mp h
    obtain ⟨rfl,hres⟩ := Prod.mk.inj (Except.ok.inj hpure)
    obtain ⟨rfl,rfl⟩ := List.cons.inj hres
    have hrest := ih hadds
    rw [addAll,writerAdd,hadd]
    exact hrest

/-- Entries in ascending order, written to a new file. -/
theorem exists_written (opt : WriterOptions) (hinterval : 1 ≤ opt.blockRestartInterval)
    (hasc : es.Pairwise (fun a b => a.key < b.key)) (hsmall : ∀ e ∈ es, e.Small)
    (hfits : WriterFits codec (mtblWriterInitFd [] (some opt)) es) :
    ∃ w file, addAll (writerAdd codec) (mtblWriterInitFd [] (some opt)) es = .ok (true,w) ∧
      mtblWriterDestroy codec w = .ok file ∧ Produced codec file es := by
  obtain ⟨hentries,hresults⟩ := @acceptedEntries_ascending es none (fun l hl => by cases hl) hasc
  obtain ⟨w,file,-,-,-,-,hrun,hdestroy,-,-⟩ := writer_runs hinterval hsmall hfits
  have hproduced := Produced.mk [] opt es w _ file hinterval hsmall hfits hrun hdestroy
  rw [hentries] at hproduced
  rw [hresults] at hrun
  exact ⟨w,file,addAll_writerAdds hrun,hdestroy,hproduced⟩

/-- Where every add succeeds, the asserting loop is the copy loop. -/
theorem mergeLoop_eq {next : σ → Run (Option Entry × σ)} {n : ℕ} {it : σ} {w w' : Writer}
    (h : copyLoop next (writerAdd codec) n it w = .ok (true,w')) :
    mergeLoop codec next n it w = .ok w' := by
  induction n generalizing it w with
  | zero => cases h
  | succ n ih =>
    obtain ⟨⟨e,it'⟩,hnext,h⟩ := bind_eq_ok.mp h
    rw [mergeLoop,hnext,ok_bind]
    cases e with
    | none =>
      obtain ⟨-,rfl⟩ := Prod.mk.inj (Except.ok.inj h)
      rfl
    | some e =>
      obtain ⟨⟨ok,w1⟩,hadd,h⟩ := bind_eq_ok.mp h
      obtain ⟨⟨w2,res⟩,hwriter,hpure⟩ := bind_eq_ok.mp hadd
      obtain ⟨rfl,rfl⟩ := Prod.mk.inj (Except.ok.inj hpure)
      cases res with
      | false => cases h
      | true =>
        simp only [hwriter,ok_bind,check_true]
        exact ih h

theorem openReaders_produced {files : List Bytes} {ess : List (List Entry)}
    (h : List.Forall₂ (Produced codec) files ess) : ∃ readers,
      openReaders codec files = .ok (some readers) ∧ List.Forall₂ (Source.Holds (readerOps codec))
        (readers.map (mtblReaderSource codec)) ess := by
  induction h with
  | nil => exact ⟨[],rfl,.nil⟩
  | cons hfile _ ih =>
    obtain ⟨r,hopen,hsource⟩ := hfile.source ⟨false⟩
    obtain ⟨readers,hrest,hsources⟩ := ih
    refine ⟨r::readers,?_,.cons hsource hsources⟩
    simp only [openReaders,hopen,hrest,ok_bind,pure_eq_ok]

end

/-- The program over one or more files that the writer left. The output is a file of what the merger returns until
it ends or the user's function declines, whose keys ascend, so that no assertion fails; where no merge
declines and no key is empty, it has every key once with the fold of its values. -/
theorem mergeMain_produces (codec : Codec) (files : List Bytes) (ess : List (List Entry))
    (hinputs : files ≠ []) (hfiles : List.Forall₂ (Produced codec) files ess) (f : MergeFunc)
    (opt : WriterOptions) (hinterval : 1 ≤ opt.blockRestartInterval) :
    ∃ taken out declined, taken.Perm ess.flatten ∧ KeySorted taken ∧
      ReturnedUntil (some f) taken out declined ∧
      ((∀ e ∈ out, e.Small) → WriterFits codec (mtblWriterInitFd [] (some opt)) out →
        ∃ file, Produced codec file out ∧ ∀ fuel > ess.flatten.length,
          mergeMain codec f opt fuel files = .ok (some file)) ∧
      (NeverDeclines f taken → (∀ e ∈ ess.flatten, e.key ≠ []) →
        declined = false ∧ Folded f taken out) := by
  obtain ⟨readers,hopen,hsources⟩ := openReaders_produced hfiles
  obtain ⟨it,taken,hrun,ht,hopt,hperm,hsorted⟩ := mergerIter_takes
    (m := ⟨readers.map (mtblReaderSource codec),some f,none⟩) (takeOrder_key _)
    (steps_enumerates (mtblIterNext (readerOps codec))) (sourcesGive_iter hsources)
  obtain ⟨out,declined,hout⟩ := exists_returnedUntil (some f) taken
  obtain ⟨-,hasc⟩ := hout.ascending rfl hsorted
  refine ⟨taken,out,declined,hperm,hsorted,hout,fun hsmall hfits => ?_,fun hnever hkeys => ?_⟩
  · obtain ⟨w,file,hadds,hdestroy,hproduced⟩ := exists_written opt hinterval hasc hsmall hfits
    refine ⟨file,hproduced,fun fuel hfuel => ?_⟩
    rw [gt_iff_lt,← hperm.length_eq] at hfuel
    obtain ⟨hcopy,-⟩ := copyLoop_merger (writerAdd codec) hout ht (congrArg MergerOptions.merge hopt)
      (mtblWriterInitFd [] (some opt)) hfuel hfuel
    have hloop := mergeLoop_eq (hcopy.trans hadds)
    have hpos := List.length_pos_iff.mpr hinputs
    simp only [mergeMain,if_neg (show ¬ files.length+1 < 2 by omega),hopen,ok_bind,merge,hrun,hloop,
      hdestroy,pure_eq_ok]
  · obtain ⟨out',hret,hfolded⟩ := exists_returned hsorted
      (fun e he => hkeys e (hperm.mem_iff.mp he))
      (fun e he => hnever e he (hkeys e (hperm.mem_iff.mp he)))
    obtain ⟨rfl,rfl⟩ := hout.unique hret.until
    exact ⟨rfl,hfolded⟩

/-- Two files with the same key, of which the first value is kept. -/
theorem mergeMain_produces_two : ∃ file1 file2 file v,
    mergeMain storingCodec (fun _ a _ => some a) plainOptions 3 [file1,file2] = .ok (some file) ∧
      Produced storingCodec file [⟨[97],v⟩] := by
  obtain ⟨file1,-,hfile1,-,-⟩ := exists_source storingCodec [⟨[97],[1]⟩] (by decide)
    (by decide +kernel)
  obtain ⟨file2,-,hfile2,-,-⟩ := exists_source storingCodec [⟨[97],[2]⟩] (by decide)
    (by decide +kernel)
  obtain ⟨taken,out,declined,hperm,hsorted,hout,hwrite,hfolded⟩ := mergeMain_produces storingCodec
    [file1,file2] [[⟨[97],[1]⟩],[⟨[97],[2]⟩]] (by simp)
    (.cons hfile1 (.cons hfile2 .nil)) (fun _ a _ => some a) plainOptions (by decide)
  have hcases : taken = [⟨[97],[1]⟩,⟨[97],[2]⟩] ∨ taken = [⟨[97],[2]⟩,⟨[97],[1]⟩] :=
    List.perm_pair.mp hperm
  obtain ⟨v,hv,rfl⟩ : ∃ v ∈ [[1],[2]], out = [⟨[97],v⟩] := by
    rcases hcases with rfl | rfl
    · have hnext : takeNext (some (fun _ a _ => some a)) [⟨[97],[1]⟩,⟨[97],[2]⟩] =
        (.entry ⟨[97],[1]⟩,[]) := rfl
      exact ⟨[1],by decide,(hout.unique (.entry hnext .finished)).1⟩
    · have hnext : takeNext (some (fun _ a _ => some a)) [⟨[97],[2]⟩,⟨[97],[1]⟩] =
        (.entry ⟨[97],[2]⟩,[]) := rfl
      exact ⟨[2],by decide,(hout.unique (.entry hnext .finished)).1⟩
  have hsmall : ∀ v ∈ [[1],[2]], ∀ e ∈ [(⟨[97],v⟩ : Entry)], e.Small := by decide
  have hfits : ∀ v ∈ [[1],[2]], WriterFits storingCodec
      (mtblWriterInitFd [] (some plainOptions)) [⟨[97],v⟩] := by decide +kernel
  obtain ⟨file,hfile,hmain⟩ := hwrite (hsmall v hv) (hfits v hv)
  exact ⟨file1,file2,file,v,hmain 3 (by decide),hfile⟩

end Mtbl
