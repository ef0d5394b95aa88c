import Mtbl.Merge.Declined
import Mtbl.Merge.Unmerged

/-! `mtbl_source_write`. The loop goes on while `mtbl_iter_next` succeeds, so a merge that declines
looks to it like the end of the data. The destination writer is known by its add alone. -/
namespace Mtbl
open CRun Cursor

variable {ι ω σ : Type}

/-- The loop of `mtbl_source_write` and of `mtbl_sorter_write`. -/
def copyLoop (next : ι → Run (Option Entry × ι)) (add : ω → Entry → Run (Bool × ω)) :
    ℕ → ι → ω → Run (Bool × ω)
  | 0,_,_ => .error .fuel
  | n+1,it,w => do
    let (e,it) ← next it
    match e with
    | none => return (true,w)
    | some e => do
      let (ok,w) ← add w e
      if ok then copyLoop next add n it w else return (false,w)

def mtblSourceWrite (I : Ops σ Entry Bytes) (add : ω → Entry → Run (Bool × ω)) (fuel : ℕ)
    (s : Source σ) (w : ω) : Run (Bool × ω) := do
  let it ← s.iter
  match it with
  | none => return (false,w)
  | some it => copyLoop I.next add fuel it w

/-- `mtbl_writer_add` as the loop calls it. -/
def writerAdd (codec : Codec) (w : Writer) (e : Entry) : Run (Bool × Writer) := do
  let (w,res) ← mtblWriterAdd codec w e.key e.val
  return (res,w)

/-- The writer with a record of the entries that were added. -/
def traced (add : ω → Entry → Run (Bool × ω)) (w : ω × List Entry) (e : Entry) :
    Run (Bool × ω × List Entry) := do
  let (ok,w') ← add w.1 e
  return (ok,w',if ok then w.2++[e] else w.2)

/-- The entries added one by one, until one is refused. -/
def addAll (add : ω → Entry → Run (Bool × ω)) (w : ω) : List Entry → Run (Bool × ω)
  | [] => .ok (true,w)
  | e::es => do
    let (ok,w) ← add w e
    if ok then addAll add w es else return (false,w)

/-- The writer takes all the entries. -/
def TakesAll (add : ω → Entry → Run (Bool × ω)) (w : ω) (es : List Entry) : Prop :=
  ∃ w', addAll add w es = .ok (true,w')

section
variable {next : ι → Run (Option Entry × ι)} {add : ω → Entry → Run (Bool × ω)}

theorem addAll_traced (w : ω) (t es : List Entry) :
    (∀ p, addAll (traced add) (w,t) es = .ok (true,p) ↔
      addAll add w es = .ok (true,p.1) ∧ p.2 = t++es) := by
  induction es generalizing w t with
  | nil =>
    intro p
    simp only [addAll,List.append_nil]
    constructor
    · intro h
      obtain ⟨-,rfl⟩ := Prod.mk.inj (Except.ok.inj h)
      exact ⟨rfl,rfl⟩
    · rintro ⟨h,ht⟩
      obtain ⟨-,hw⟩ := Prod.mk.inj (Except.ok.inj h)
      rw [hw,← ht]
  | cons e es ih =>
    intro p
    simp only [addAll,traced]
    cases add w e with
    | error f => simp
    | ok r =>
      obtain ⟨ok,w'⟩ := r
      cases ok with
      | false => simp
      | true =>
        simp only [ok_bind,pure_eq_ok,if_true]
        rw [ih w' (t++[e]) p,List.append_assoc]
        rfl

/-- The loop over an iterator that gives these entries adds them. -/
theorem copyLoop_enumerates {it : ι} {es : List Entry} (h : Enumerates next it es) (w : ω)
    {fuel : ℕ} (hfuel : es.length < fuel) : copyLoop next add fuel it w = addAll add w es := by
  induction es generalizing it w fuel with
  | nil =>
    obtain ⟨n,rfl⟩ := Nat.exists_eq_add_of_lt hfuel
    obtain ⟨it',hnext,-⟩ := steps_enumerates next it [] h
    rw [copyLoop,hnext]
    rfl
  | cons e es ih =>
    obtain ⟨n,rfl⟩ := Nat.exists_eq_add_of_lt hfuel
    obtain ⟨it',hnext,h'⟩ := steps_enumerates next it (e::es) h
    rw [show (e::es).length+n+1 = (es.length+1+n)+1 by simp]
    rw [copyLoop,hnext,addAll]
    simp only [List.head?_cons,ok_bind]
    refine bind_congr (fun r => ?_)
    rw [ih h' r.2 (by omega)]

end

/-! ### Copying from a merger -/

section
variable {I : Ops σ Entry Bytes} {add : ω → Entry → Run (Bool × ω)}

/-- A merge is declined while the loop copies. -/
inductive DeclinesDuring (I : Ops σ Entry Bytes) (add : ω → Entry → Run (Bool × ω)) (fuel : ℕ) :
    MergerIter σ → ω → Prop
  | now {it it' : MergerIter σ} {w : ω} (h : mergerIterAnswer I fuel it = .ok (.declined,it')) :
      DeclinesDuring I add fuel it w
  | later {it it' : MergerIter σ} {w w' : ω} {e : Entry}
      (hnext : mergerIterAnswer I fuel it = .ok (.entry e,it')) (hadd : add w e = .ok (true,w'))
      (h : DeclinesDuring I add fuel it' w') : DeclinesDuring I add fuel it w

/-- What the merger returns up to its end or to its first declined merge, and whether it is the
latter. -/
inductive ReturnedUntil (merge : Option MergeFunc) : List Entry → List Entry → Bool → Prop
  | finished : ReturnedUntil merge [] [] false
  | declined {taken rest : List Entry} (h : takeNext merge taken = (.declined,rest)) :
      ReturnedUntil merge taken [] true
  | entry {e : Entry} {taken rest out : List Entry} {declined : Bool}
      (hnext : takeNext merge taken = (.entry e,rest)) (h : ReturnedUntil merge rest out declined) :
      ReturnedUntil merge taken (e::out) declined

theorem takeNext_ne_finished (merge : Option MergeFunc) {taken : List Entry} (hne : taken ≠ []) :
    (takeNext merge taken).1 ≠ .finished := by
  obtain ⟨e,taken,rfl⟩ := List.exists_cons_of_ne_nil hne
  exact collect_ne_finished merge e.key e.val taken

/-- A call that returns an entry takes one. -/
theorem takeNext_entry_length {merge : Option MergeFunc} {taken rest : List Entry} {e : Entry}
    (h : takeNext merge taken = (.entry e,rest)) : rest.length < taken.length := by
  have hshort := takeNext_length_le merge taken
  rw [h] at hshort
  have hpos : taken ≠ [] := by
    rintro rfl
    cases h
  have := List.length_pos_iff.mpr hpos
  simp only at hshort
  omega

theorem exists_returnedUntil (merge : Option MergeFunc) (taken : List Entry) :
    ∃ out declined, ReturnedUntil merge taken out declined := by
  generalize hl : taken.length = l
  induction l using Nat.strong_induction_on generalizing taken with
  | h l ih =>
    by_cases hnil : taken = []
    · subst hnil
      exact ⟨[],false,.finished⟩
    · rcases hpair : takeNext merge taken with ⟨answer,rest⟩
      cases answer with
      | finished => exact (takeNext_ne_finished merge hnil (congrArg Prod.fst hpair)).elim
      | declined => exact ⟨[],true,.declined hpair⟩
      | entry e =>
        obtain ⟨out,declined,h⟩ := ih rest.length (hl ▸ takeNext_entry_length hpair) rest rfl
        exact ⟨e::out,declined,.entry hpair h⟩

variable (add) in
/-- The loop adds what the merger returns; a merge is declined during it if the writer takes all
that and the merger stops for that reason. -/
theorem copyLoop_merger {merge : Option MergeFunc} {taken out : List Entry} {declined : Bool}
    (hout : ReturnedUntil merge taken out declined) {it : MergerIter σ} (h : Takes I it taken)
    (hmerge : it.opt.merge = merge) (w : ω) {fuel n : ℕ} (hfuel : taken.length < fuel)
    (hn : taken.length < n) :
    copyLoop (mergerIterNext I fuel) add n it w = addAll add w out ∧
      (DeclinesDuring I add fuel it w ↔ TakesAll add w out ∧ declined = true) := by
  induction hout generalizing it w n with
  | finished =>
    obtain ⟨n,rfl⟩ := Nat.exists_eq_add_of_lt hn
    obtain ⟨it',hrun,htakes,hopt⟩ := mergerIterAnswer_spec h hfuel
    refine ⟨?_,?_⟩
    · simp [copyLoop,mergerIterNext,hrun,takeNext,MergerAnswer.res,addAll]
    · simp only [Bool.false_eq_true,and_false,iff_false]
      rintro (hnow | ⟨hent,-,-⟩)
      · cases hrun.symm.trans hnow
      · cases hrun.symm.trans hent
  | @declined taken rest hnext =>
    obtain ⟨n,rfl⟩ := Nat.exists_eq_add_of_lt hn
    obtain ⟨it',hrun,htakes,hopt⟩ := mergerIterAnswer_spec h hfuel
    rw [hmerge,hnext] at hrun
    refine ⟨?_,?_⟩
    · simp [copyLoop,mergerIterNext,hrun,MergerAnswer.res,addAll]
    · exact iff_of_true (.now hrun) ⟨⟨w,rfl⟩,rfl⟩
  | @entry e taken rest out declined hnext _ ih =>
    obtain ⟨n,rfl⟩ := Nat.exists_eq_add_of_lt hn
    obtain ⟨it',hrun,htakes,hopt⟩ := mergerIterAnswer_spec h hfuel
    rw [hmerge,hnext] at hrun htakes
    have hlt := takeNext_entry_length hnext
    have hih := fun w => ih htakes (hopt ▸ hmerge) w (n := taken.length+n) (by omega) (by omega)
    have hloop : copyLoop (mergerIterNext I fuel) add (taken.length+n+1) it w =
        addAll add w (e::out) := by
      rw [copyLoop,mergerIterNext,hrun,addAll]
      simp only [MergerAnswer.res,ok_bind,pure_eq_ok]
      refine bind_congr (fun r => ?_)
      rw [(hih r.2).1]
    refine ⟨hloop,?_⟩
    constructor
    · rintro (hnow | ⟨hent,hadd,hlater⟩)
      · cases hrun.symm.trans hnow
      · obtain ⟨hans,rfl⟩ := Prod.mk.inj (Except.ok.inj (hrun.symm.trans hent))
        obtain rfl : e = _ := by simpa using hans
        obtain ⟨⟨w'',hw⟩,hdecl⟩ := (hih _).2.mp hlater
        exact ⟨⟨w'',by rw [addAll,hadd]; exact hw⟩,hdecl⟩
    · rintro ⟨⟨w'',hw⟩,hdecl⟩
      obtain ⟨⟨ok,w'⟩,hadd,hw⟩ := bind_eq_ok.mp hw
      cases ok with
      | false => cases hw
      | true => exact .later hrun hadd ((hih w').2.mpr ⟨⟨w'',hw⟩,hdecl⟩)

theorem ReturnedUntil.unique {merge : Option MergeFunc} {taken out out' : List Entry}
    {declined declined' : Bool} (h : ReturnedUntil merge taken out declined)
    (h' : ReturnedUntil merge taken out' declined') : out = out' ∧ declined = declined' := by
  induction h generalizing out' declined' with
  | finished =>
    cases h' with
    | finished => exact ⟨rfl,rfl⟩
    | declined h' => cases h'
    | entry h' _ => cases h'
  | declined h =>
    cases h' with
    | finished => cases h
    | declined h' => exact ⟨rfl,rfl⟩
    | entry h' _ => cases h.symm.trans h'
  | entry hnext _ ih =>
    cases h' with
    | finished => cases hnext
    | declined h' => cases hnext.symm.trans h'
    | entry h' hrest =>
      obtain ⟨hans,rfl⟩ := Prod.mk.inj (hnext.symm.trans h')
      obtain ⟨rfl,rfl⟩ := ih hrest
      exact ⟨by rw [MergerAnswer.entry.inj hans],rfl⟩

theorem Returned.until {merge : Option MergeFunc} {taken out : List Entry}
    (h : Returned merge taken out) : ReturnedUntil merge taken out false := by
  induction h with
  | nil => exact .finished
  | cons hnext _ ih => exact .entry hnext ih

/-- A merger that gets to its end has declined no merge. -/
theorem ReturnedUntil.no_declined {merge : Option MergeFunc} {taken out : List Entry}
    {declined : Bool} (h : ReturnedUntil merge taken out declined) (hnot : declined = false)
    (n : ℕ) : .declined ∉ takeAnswers merge n taken := by
  induction h generalizing n with
  | finished =>
    rw [takeAnswers_nil]
    intro hmem
    cases List.eq_of_mem_replicate hmem
  | declined => cases hnot
  | entry hnext _ ih =>
    cases n with
    | zero => exact List.not_mem_nil
    | succ n =>
      rw [takeAnswers,hnext]
      simpa using ih hnot n

theorem ReturnedUntil.neverDeclines {f : MergeFunc} {taken out : List Entry}
    (hsorted : KeySorted taken) (h : ReturnedUntil (some f) taken out false) :
    NeverDeclines f taken := by
  by_contra hnever
  obtain ⟨n,hn⟩ := exists_not_aborts hsorted hnever
  refine hn (List.Pairwise.imp_of_mem (R := fun _ _ => True) (fun ha _ _ hdecl => ?_)
    (List.pairwise_of_forall (fun _ _ => trivial)))
  exact absurd (hdecl ▸ ha) (h.no_declined rfl n)

end

/-! ### No silent truncation -/

/-- A copy that reports success added every key, and one during which a merge is declined reports
failure. -/
def NoSilentTruncation (run : Run (Bool × ω × List Entry)) (declines : Prop) (es : List Entry) :
    Prop :=
  (∀ p, run = .ok (true,p) → ∀ e ∈ es, e.key ∈ p.2.map Entry.key) ∧
    (declines → ∃ p, run = .ok (false,p))

/-- Either the writer does not take all that the merger returns before a declined merge, or no merge
declines and the empty key is not among others. -/
def CopiesAll (merge : Option MergeFunc) (add : ω → Entry → Run (Bool × ω)) (w : ω)
    (taken : List Entry) : Prop :=
  (∃ out declined, ReturnedUntil merge taken out declined ∧ ¬ TakesAll add w out) ∨
    (∀ f, merge = some f → NeverDeclines f taken) ∧
      ¬ ((∃ e ∈ taken, e.key = []) ∧ ∃ e ∈ taken, e.key ≠ [])

theorem skipEmptyKey_subset (taken : List Entry) : ∀ e ∈ skipEmptyKey taken, e ∈ taken := by
  induction taken using skipEmptyKey.induct with
  | case1 => exact fun e he => he
  | case2 e => exact fun x hx => hx
  | case3 e e' taken hk ih =>
    rw [skipEmptyKey,if_pos hk]
    exact fun x hx => List.mem_cons_of_mem e (ih x hx)
  | case4 e e' taken hk =>
    rw [skipEmptyKey,if_neg hk]
    exact fun x hx => hx

/-- If no merge declines, the keys returned are those of the entries that are not written over. -/
theorem exists_returned_keys {merge : Option MergeFunc} {taken : List Entry}
    (hsorted : KeySorted taken) (hnever : ∀ f, merge = some f → NeverDeclines f taken) :
    ∃ out, Returned merge taken out ∧
      ∀ k, k ∈ out.map Entry.key ↔ k ∈ (skipEmptyKey taken).map Entry.key := by
  cases merge with
  | some f =>
    obtain ⟨out,hret,hout⟩ := exists_returned_skip hsorted (hnever f rfl)
    exact ⟨out,hret,hout.keys⟩
  | none =>
    refine ⟨skipEmptyKey taken,returned_skipEmptyKey ?_,fun k => Iff.rfl⟩
    rcases skipEmptyKey_cases hsorted with ⟨hskip,-⟩ | ⟨e,-,hskip,-⟩
    · rw [hskip]
      apply returned_no_merge
      exact fun e he => (nil_lt_iff _).mp (of_decide_eq_true (List.mem_filter.mp he).2)
    · rw [hskip]
      exact .cons rfl .nil

theorem takesAll_traced {add : ω → Entry → Run (Bool × ω)} {w : ω} {t es : List Entry} :
    TakesAll (traced add) (w,t) es ↔ TakesAll add w es := by
  constructor
  · rintro ⟨p,hp⟩
    exact ⟨p.1,((addAll_traced w t es p).mp hp).1⟩
  · rintro ⟨w',hw⟩
    exact ⟨(w',t++es),(addAll_traced w t es _).mpr ⟨hw,rfl⟩⟩

/-- The copy loop over a merger iterator truncates nothing silently exactly under that
condition. -/
theorem copyLoop_noSilentTruncation {I : Ops σ Entry Bytes} {add : ω → Entry → Run (Bool × ω)}
    {merge : Option MergeFunc} {it : MergerIter σ} {taken es : List Entry} (h : Takes I it taken)
    (hmerge : it.opt.merge = merge) (hsorted : KeySorted taken)
    (hsame : ∀ k, k ∈ taken.map Entry.key ↔ k ∈ es.map Entry.key) (w : ω) {fuel n : ℕ}
    (hfuel : taken.length < fuel) (hn : taken.length < n) :
    NoSilentTruncation (copyLoop (mergerIterNext I fuel) (traced add) n it (w,[]))
      (DeclinesDuring I (traced add) fuel it (w,[])) es ↔ CopiesAll merge add w taken := by
  obtain ⟨out,declined,hout⟩ := exists_returnedUntil merge taken
  obtain ⟨hloop,hdecl⟩ := copyLoop_merger (traced add) hout h hmerge (w,[]) hfuel hn
  rw [hloop,hdecl,takesAll_traced]
  by_cases htakes : TakesAll add w out
  · obtain ⟨w',hw⟩ := htakes
    have hall : addAll (traced add) (w,[]) out = .ok (true,w',out) :=
      (addAll_traced w [] out (w',out)).mpr ⟨hw,rfl⟩
    constructor
    · rintro ⟨hadded,hfail⟩
      have hnot : declined = false := by
        by_contra hd
        obtain ⟨p,hp⟩ := hfail ⟨⟨w',hw⟩,by simpa using hd⟩
        cases hall.symm.trans hp
      subst hnot
      have hnever : ∀ f, merge = some f → NeverDeclines f taken :=
        fun f hf => ReturnedUntil.neverDeclines hsorted (hf ▸ hout)
      obtain ⟨out',hret,hkeys⟩ := exists_returned_keys hsorted hnever
      obtain ⟨rfl,-⟩ := hout.unique hret.until
      refine .inr ⟨hnever,(skipEmptyKey_keys_iff hsorted).mp (fun k => ⟨fun hk => ?_,fun hk => ?_⟩)⟩
      · obtain ⟨x,hx,rfl⟩ := List.mem_map.mp hk
        exact List.mem_map_of_mem (skipEmptyKey_subset taken x hx)
      · obtain ⟨x,hx,rfl⟩ := List.mem_map.mp ((hsame k).mp hk)
        exact (hkeys _).mp (hadded _ hall x hx)
    · rintro (⟨out',declined',hout',hnot⟩ | ⟨hnever,hmixed⟩)
      · obtain ⟨rfl,rfl⟩ := hout.unique hout'
        exact absurd ⟨w',hw⟩ hnot
      · obtain ⟨out',hret,hkeys⟩ := exists_returned_keys hsorted hnever
        obtain ⟨rfl,rfl⟩ := hout.unique hret.until
        refine ⟨fun p hp e he => ?_,fun hd => by cases hd.2⟩
        obtain ⟨-,rfl⟩ := Prod.mk.inj (Except.ok.inj (hall.symm.trans hp))
        apply (hkeys e.key).mpr
        rw [(skipEmptyKey_keys_iff hsorted).mpr hmixed,hsame]
        exact List.mem_map_of_mem he
  · refine iff_of_true ⟨fun p hp => ?_,fun hd => absurd hd.1 htakes⟩
      (.inl ⟨out,declined,hout,htakes⟩)
    exact absurd ⟨p.1,((addAll_traced w [] out p).mp hp).1⟩ htakes

/-! ### The sources -/

section
variable {I : Ops σ Entry Bytes} {add : ω → Entry → Run (Bool × ω)}

/-- A merge is declined while a merger is copied. -/
def MergerDeclines (I : Ops σ Entry Bytes) (add : ω → Entry → Run (Bool × ω)) (fuel : ℕ)
    (m : Merger σ) (w : ω) : Prop :=
  ∃ it, mergerIter I m = .ok (some it) ∧ DeclinesDuring I add fuel it w

theorem mtblSourceWrite_merger {m : Merger σ} {it : MergerIter σ}
    (h : mergerIter I m = .ok (some it)) (fuel n : ℕ) (w : ω) :
    mtblSourceWrite (mergerIterOps I fuel) add n (mtblMergerSource I m) w =
      copyLoop (mergerIterNext I fuel) add n it w := by
  rw [mtblSourceWrite,mtblMergerSource,h]
  rfl

/-- Copying a merger is copying its iterator. -/
theorem mtblSourceWrite_noSilentTruncation {m : Merger σ} {it : MergerIter σ} {taken es : List Entry}
    (hrun : mergerIter I m = .ok (some it)) (ht : Takes I it taken) (hopt : it.opt = m.opt)
    (hperm : taken.Perm es) (hsorted : KeySorted taken) (w : ω) {fuel : ℕ}
    (hfuel : taken.length < fuel) :
    NoSilentTruncation (mtblSourceWrite (mergerIterOps I fuel) (traced add) fuel
        (mtblMergerSource I m) (w,[])) (MergerDeclines I (traced add) fuel m (w,[])) es ↔
      CopiesAll m.opt.merge add w taken := by
  have hdecl : MergerDeclines I (traced add) fuel m (w,[]) ↔
      DeclinesDuring I (traced add) fuel it (w,[]) := by
    constructor
    · rintro ⟨it',hit,hdecl⟩
      obtain rfl := Option.some.inj (Except.ok.inj (hrun.symm.trans hit))
      exact hdecl
    · exact fun hdecl => ⟨it,hrun,hdecl⟩
  rw [hdecl,mtblSourceWrite_merger hrun]
  exact copyLoop_noSilentTruncation ht (congrArg MergerOptions.merge hopt) hsorted
    (fun k => (hperm.map Entry.key).mem_iff) w hfuel hfuel

end

/-- Copying a merger: a success means that every key was added, and a declined merge that the copy
fails, exactly if the writer refuses an entry before the merger stops, or no merge declines and the
empty key is not among others. -/
theorem merger_copy_iff {σ ω : Type} (I : Ops σ Entry Bytes) (sources : List (Source σ))
    (ess : List (List Entry)) (hsources : List.Forall₂ (Source.Holds I) sources ess)
    (merge : Option MergeFunc) (dupsort : Option DupsortFunc)
    (add : ω → Entry → Run (Bool × ω)) :
    ∃ it taken, mergerIter I ⟨sources,merge,dupsort⟩ = .ok (some it) ∧ Takes I it taken ∧
      taken.Perm ess.flatten ∧ ∀ (w : ω) fuel, ess.flatten.length < fuel →
      (NoSilentTruncation (mtblSourceWrite (mergerIterOps I fuel) (traced add) fuel
          (mtblMergerSource I ⟨sources,merge,dupsort⟩) (w,[]))
        (MergerDeclines I (traced add) fuel ⟨sources,merge,dupsort⟩ (w,[])) ess.flatten ↔
          CopiesAll merge add w taken) := by
  obtain ⟨it,taken,hrun,ht,hopt,hperm,hsorted⟩ := mergerIter_takes
    (m := ⟨sources,merge,dupsort⟩) (takeOrder_key _) (steps_enumerates (mtblIterNext I))
    (sourcesGive_iter hsources)
  refine ⟨it,taken,hrun,ht,hperm,fun w fuel hfuel => ?_⟩
  rw [← hperm.length_eq] at hfuel
  exact mtblSourceWrite_noSilentTruncation hrun ht hopt hperm hsorted w hfuel

/-- Two files with one key in common are copied to a new file. -/
theorem merger_copy_iff_two : ∃ r1 r2 : Reader,
    NoSilentTruncation (mtblSourceWrite (mergerIterOps (readerOps storingCodec) 3)
        (traced (writerAdd storingCodec)) 3 (mtblMergerSource (readerOps storingCodec)
          ⟨[mtblReaderSource storingCodec r1,mtblReaderSource storingCodec r2],
            some (fun _ a _ => some a),none⟩) (mtblWriterInitFd [] (some plainOptions),[]))
      (MergerDeclines (readerOps storingCodec) (traced (writerAdd storingCodec)) 3
        ⟨[mtblReaderSource storingCodec r1,mtblReaderSource storingCodec r2],
          some (fun _ a _ => some a),none⟩ (mtblWriterInitFd [] (some plainOptions),[]))
      [⟨[97],[1]⟩,⟨[97],[2]⟩] := by
  obtain ⟨-,r1,-,-,hsource1⟩ := exists_source storingCodec [⟨[97],[1]⟩] (by decide)
    (by decide +kernel)
  obtain ⟨-,r2,-,-,hsource2⟩ := exists_source storingCodec [⟨[97],[2]⟩] (by decide)
    (by decide +kernel)
  have hsources : List.Forall₂ (Source.Holds (readerOps storingCodec))
      [mtblReaderSource storingCodec r1,mtblReaderSource storingCodec r2]
      [[⟨[97],[1]⟩],[⟨[97],[2]⟩]] := .cons hsource1 (.cons hsource2 .nil)
  obtain ⟨it,taken,-,-,hperm,hcopy⟩ := merger_copy_iff (readerOps storingCodec) _ _ hsources
    (some (fun _ a _ => some a)) none (writerAdd storingCodec)
  refine ⟨r1,r2,(hcopy _ 3 (by decide)).mpr (.inr ⟨fun f hf e he _ => ?_,fun hmixed => ?_⟩)⟩
  · obtain rfl := Option.some.inj hf
    exact foldValues_isSome (fun _ a _ => a) he
  · obtain ⟨e,he,hempty⟩ := hmixed.1
    have hkey : ∀ x ∈ [[(⟨[97],[1]⟩ : Entry)],[⟨[97],[2]⟩]].flatten, x.key ≠ [] := by decide
    exact hkey e (hperm.mem_iff.mp he) hempty

end Mtbl
