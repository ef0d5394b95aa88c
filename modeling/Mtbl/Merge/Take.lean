import Mtbl.Merge.Feeds

/-! `merger_iter_next` as a function of the entries in the order they are taken: how it answers and
which entries it leaves. -/
namespace Mtbl
open CRun Cursor

/-- The entries go into the current key as long as they have that key. A current key of length zero
counts as none, and is written over. -/
def collect (merge : Option MergeFunc) (curKey curVal : Bytes) :
    List Entry → MergerAnswer × List Entry
  | [] => (.entry ⟨curKey,curVal⟩,[])
  | e::taken =>
    if curKey = [] then collect merge e.key e.val taken
    else
      match merge with
      | none => (.entry ⟨curKey,curVal⟩,e::taken)
      | some f =>
        if curKey = e.key then
          match f curKey curVal e.val with
          | none => (.declined,e::taken)
          | some mergedVal => collect merge curKey mergedVal taken
        else (.entry ⟨curKey,curVal⟩,e::taken)

def takeNext (merge : Option MergeFunc) : List Entry → MergerAnswer × List Entry
  | [] => (.finished,[])
  | e::taken => collect merge e.key e.val taken

/-- `n` answers in a row. -/
def takeAnswers (merge : Option MergeFunc) : ℕ → List Entry → List MergerAnswer
  | 0,_ => []
  | n+1,taken => (takeNext merge taken).1::takeAnswers merge n (takeNext merge taken).2

section
variable {merge : Option MergeFunc} {f : MergeFunc} {curKey curVal v : Bytes} {e : Entry}
  {taken : List Entry}

theorem collect_no_key (hk : curKey = []) :
    collect merge curKey curVal (e::taken) = collect merge e.key e.val taken := by
  rw [collect.eq_def]
  exact if_pos hk

theorem collect_no_merge (hk : curKey ≠ []) :
    collect none curKey curVal (e::taken) = (.entry ⟨curKey,curVal⟩,e::taken) := by
  simp [collect,hk]

theorem collect_other (hk : curKey ≠ []) (he : curKey ≠ e.key) :
    collect merge curKey curVal (e::taken) = (.entry ⟨curKey,curVal⟩,e::taken) := by
  cases merge with
  | none => exact collect_no_merge hk
  | some f => simp [collect,hk,he]

theorem collect_merged (hk : curKey ≠ []) (he : curKey = e.key)
    (hf : f curKey curVal e.val = some v) :
    collect (some f) curKey curVal (e::taken) = collect (some f) curKey v taken := by
  rw [collect,if_neg hk]
  simp only [he,if_true]
  rw [← he,hf]

theorem collect_declined (hk : curKey ≠ []) (he : curKey = e.key)
    (hf : f curKey curVal e.val = none) :
    collect (some f) curKey curVal (e::taken) = (.declined,e::taken) := by
  rw [collect,if_neg hk]
  simp only [he,if_true]
  rw [← he,hf]

/-- The ways in which the next entry is met. -/
theorem collect_cases (merge : Option MergeFunc) (curKey curVal : Bytes) (e : Entry)
    (taken : List Entry) :
    (∃ k v, collect merge curKey curVal (e::taken) = collect merge k v taken) ∨
      collect merge curKey curVal (e::taken) = (.entry ⟨curKey,curVal⟩,e::taken) ∨
      collect merge curKey curVal (e::taken) = (.declined,e::taken) := by
  by_cases hk : curKey = []
  · exact .inl ⟨_,_,collect_no_key hk⟩
  · by_cases he : curKey = e.key
    · cases merge with
      | none => exact .inr (.inl (collect_no_merge hk))
      | some f =>
        cases hf : f curKey curVal e.val with
        | none => exact .inr (.inr (collect_declined hk he hf))
        | some v => exact .inl ⟨_,_,collect_merged hk he hf⟩
    · exact .inr (.inl (collect_other hk he))

end

theorem collect_length_le (merge : Option MergeFunc) (curKey curVal : Bytes) (taken : List Entry) :
    (collect merge curKey curVal taken).2.length ≤ taken.length := by
  induction taken generalizing curKey curVal with
  | nil => exact le_rfl
  | cons e taken ih =>
    rcases collect_cases merge curKey curVal e taken with ⟨k,v,hgo⟩ | hstop | hstop
    · rw [hgo]
      exact (ih k v).trans (Nat.le_succ _)
    · rw [hstop]
    · rw [hstop]

theorem takeNext_length_le (merge : Option MergeFunc) (taken : List Entry) :
    (takeNext merge taken).2.length ≤ taken.length-1 := by
  cases taken with
  | nil => exact le_rfl
  | cons e taken => exact collect_length_le merge e.key e.val taken

/-- A declined merge leaves the entry that it was declined for. -/
theorem collect_declined_ne {merge : Option MergeFunc} {curKey curVal : Bytes}
    {taken : List Entry} (h : (collect merge curKey curVal taken).1 = .declined) :
    (collect merge curKey curVal taken).2 ≠ [] := by
  induction taken generalizing curKey curVal with
  | nil => cases h
  | cons e taken ih =>
    rcases collect_cases merge curKey curVal e taken with ⟨k,v,hgo⟩ | hstop | hstop
    · rw [hgo] at h ⊢
      exact ih h
    · rw [hstop] at h
      cases h
    · rw [hstop]
      exact List.cons_ne_nil _ _

section
variable {σ : Type} {I : Ops σ Entry Bytes}

/-- The entries a merger iterator is still to take. `pending` is left set by a declined merge
only. -/
inductive Takes (I : Ops σ Entry Bytes) (it : MergerIter σ) : List Entry → Prop
  | running {taken : List Entry} (hfin : it.finished = false)
      (hst : Streams I it.opt it.toEntryHeap taken) (hpend : it.pending = true → taken ≠ []) :
      Takes I it taken
  | ended (hfin : it.finished = true) : Takes I it []

/-- What the loop leaves: a value to return, or a merge declined. -/
structure LoopLeaves (I : Ops σ Entry Bytes) (opt : MergerOptions) (how : LoopExit)
    (it : MergerIter σ) (left : MergerAnswer × List Entry) : Prop where
  same : it.opt = opt
  pending : it.pending = true
  answer : (match how with
    | .brk => MergerAnswer.entry ⟨it.curKey,it.curVal⟩
    | .declined => MergerAnswer.declined) = left.1
  rest : (it.finished = false ∧ Streams I opt it.toEntryHeap left.2) ∨
    (it.finished = true ∧ left.2 = [])

theorem mergerIterNextLoop_spec (it : MergerIter σ) {taken : List Entry} {fuel : ℕ}
    (hfin : it.finished = false) (hpend : it.pending = true)
    (hst : Streams I it.opt it.toEntryHeap taken) (hfuel : taken.length < fuel) :
    ∃ how it', mergerIterNextLoop I fuel it = .ok (how,it') ∧
      LoopLeaves I it.opt how it' (collect it.opt.merge it.curKey it.curVal taken) := by
  induction taken generalizing it fuel with
  | nil =>
    obtain ⟨n,rfl⟩ := Nat.exists_eq_add_of_lt hfuel
    obtain ⟨H',hlive⟩ := hst
    refine ⟨.brk,{ it with toEntryHeap := H', finished := true },?_,rfl,hpend,rfl,.inr ⟨rfl,rfl⟩⟩
    simp [mergerIterNextLoop,hlive]
  | cons e taken ih =>
    obtain ⟨n,rfl⟩ := Nat.exists_eq_add_of_lt hfuel
    obtain ⟨i,H',H'',hlive,hrefill,hst'⟩ := hst
    have hagain : Streams I it.opt H' (e::taken) := ⟨i,H',H'',liveTop_idem hlive,hrefill,hst'⟩
    have hn : taken.length < taken.length+n+1 := by omega
    rw [show (e::taken).length+n+1 = (taken.length+n+1)+1 by rw [List.length_cons]; omega]
    by_cases hk : it.curKey = []
    · obtain ⟨how,it',hrun,hleaves⟩ := ih
        { it with toEntryHeap := H'', curVal := e.val, curKey := e.key, pending := true } hfin rfl hst' hn
      refine ⟨how,it',?_,?_⟩
      · simpa [mergerIterNextLoop,hlive,hk,hrefill] using hrun
      · rw [collect_no_key hk]
        exact hleaves
    · have hlen : ¬ it.curKey.length = 0 := by simpa using hk
      cases hm : it.opt.merge with
      | none =>
        rw [collect_no_merge hk]
        refine ⟨.brk,{ it with toEntryHeap := H' },?_,rfl,hpend,rfl,.inl ⟨hfin,hagain⟩⟩
        simp [mergerIterNextLoop,hlive,hk,hm]
      | some f =>
        by_cases he : it.curKey = e.key
        · cases hf : f it.curKey it.curVal e.val with
          | none =>
            rw [collect_declined hk he hf]
            refine ⟨.declined,{ it with toEntryHeap := H' },?_,rfl,hpend,rfl,.inl ⟨hfin,hagain⟩⟩
            simp [mergerIterNextLoop,hlive,hm,hlen,hf,← he]
          | some v =>
            obtain ⟨how,it',hrun,hleaves⟩ := ih
              { it with toEntryHeap := H'', curVal := v } hfin hpend hst' hn
            refine ⟨how,it',?_,?_⟩
            · simpa [mergerIterNextLoop,hlive,hm,hlen,hf,← he,hrefill] using hrun
            · rw [collect_merged hk he hf,← hm]
              exact hleaves
        · rw [collect_other hk he]
          refine ⟨.brk,{ it with toEntryHeap := H' },?_,rfl,hpend,rfl,.inl ⟨hfin,hagain⟩⟩
          simp [mergerIterNextLoop,hlive,hm,hlen,he]

/-- The iterator answers by the entries it is still to take. -/
theorem mergerIterAnswer_spec {it : MergerIter σ} {taken : List Entry} {fuel : ℕ}
    (h : Takes I it taken) (hfuel : taken.length < fuel) :
    ∃ it', mergerIterAnswer I fuel it = .ok ((takeNext it.opt.merge taken).1,it') ∧
      Takes I it' (takeNext it.opt.merge taken).2 ∧ it'.opt = it.opt := by
  cases h with
  | ended hfin => exact ⟨it,by simp [mergerIterAnswer,hfin,takeNext],.ended hfin,rfl⟩
  | running hfin hst hpend =>
    obtain ⟨n,rfl⟩ := Nat.exists_eq_add_of_lt hfuel
    cases taken with
    | nil =>
      obtain ⟨H',hlive⟩ := hst
      have hnot : it.pending = false := by simpa using hpend
      refine ⟨{ it with toEntryHeap := H', curKey := [], curVal := [], finished := true },?_,
        .ended rfl,rfl⟩
      simp [mergerIterAnswer,hfin,mergerIterNextLoop,hlive,hnot,takeNext]
    | cons e taken =>
      obtain ⟨i,H',H'',hlive,hrefill,hst'⟩ := hst
      obtain ⟨how,it',hrun,hleaves⟩ := mergerIterNextLoop_spec
        { it with toEntryHeap := H'', curVal := e.val, curKey := e.key, pending := true }
        hfin rfl hst' (show taken.length < taken.length+n+1 by omega)
      have hloop : mergerIterNextLoop I ((e::taken).length+n+1)
          { it with curKey := [], curVal := [] } = .ok (how,it') := by
        rw [show (e::taken).length+n+1 = (taken.length+n+1)+1 by rw [List.length_cons]; omega]
        simpa [mergerIterNextLoop,hlive,hrefill] using hrun
      simp only at hleaves
      cases how with
      | declined =>
        refine ⟨it',?_,?_,hleaves.same⟩
        · rw [mergerIterAnswer,if_neg (by simp [hfin]),hloop,takeNext,← hleaves.answer]
          rfl
        · have hne := collect_declined_ne hleaves.answer.symm
          rcases hleaves.rest with ⟨hfin',hst''⟩ | ⟨-,hnil⟩
          · exact .running hfin' (by rw [hleaves.same]; exact hst'') (fun _ => hne)
          · exact absurd hnil hne
      | brk =>
        refine ⟨{ it' with pending := false },?_,?_,hleaves.same⟩
        · rw [mergerIterAnswer,if_neg (by simp [hfin]),hloop,takeNext,← hleaves.answer]
          simp only [ok_bind,hleaves.pending,if_true,pure_eq_ok]
        · rcases hleaves.rest with ⟨hfin',hst''⟩ | ⟨hfin',hnil⟩
          · exact .running hfin' (by rw [takeNext,← hleaves.same] at *; exact hst'') (fun hp => by cases hp)
          · rw [takeNext,hnil]
            exact .ended hfin'

theorem mergerIterNext_spec {it : MergerIter σ} {taken : List Entry} {fuel : ℕ}
    (h : Takes I it taken) (hfuel : taken.length < fuel) :
    ∃ it', mergerIterNext I fuel it = .ok ((takeNext it.opt.merge taken).1.res,it') ∧
      Takes I it' (takeNext it.opt.merge taken).2 ∧ it'.opt = it.opt := by
  obtain ⟨it',hrun,htakes,hopt⟩ := mergerIterAnswer_spec h hfuel
  exact ⟨it',by simp only [mergerIterNext,hrun,ok_bind,pure_eq_ok],htakes,hopt⟩

/-! ### Whole runs -/

/-- Taking the entries to the end returns these. -/
inductive Returned (merge : Option MergeFunc) : List Entry → List Entry → Prop
  | nil : Returned merge [] []
  | cons {e : Entry} {taken rest out : List Entry} (hnext : takeNext merge taken = (.entry e,rest))
      (hrest : Returned merge rest out) : Returned merge taken (e::out)

/-- A merger iterator that may be NULL, with the entries it is still to take. -/
def TakesOpt (I : Ops σ Entry Bytes) (opt : MergerOptions) (taken : List Entry) :
    Option (MergerIter σ) → Prop
  | none => taken = []
  | some it => Takes I it taken ∧ it.opt = opt

/-- The iterator gives what the entries come to, whatever fuel above their number it has. -/
theorem Returned.enumerates {opt : MergerOptions} {taken out : List Entry}
    (h : Returned opt.merge taken out) {it : Option (MergerIter σ)} (ht : TakesOpt I opt taken it)
    {fuel : ℕ} (hfuel : taken.length < fuel) :
    Enumerates (mtblIterNext (mergerIterOps I fuel)) it out := by
  refine enumerates_of_step
    (R := fun it out => ∃ taken, TakesOpt I opt taken it ∧ taken.length < fuel ∧
      Returned opt.merge taken out) ?_ ⟨taken,ht,hfuel,h⟩
  rintro it out ⟨taken,ht,hfuel,h⟩
  cases it with
  | none =>
    obtain rfl : taken = [] := ht
    cases h with
    | nil => exact ⟨none,rfl,[],rfl,hfuel,.nil⟩
    | cons hnext _ => cases hnext
  | some it =>
    obtain ⟨htakes,hopt⟩ := ht
    obtain ⟨it',hrun,htakes',hopt'⟩ := mergerIterNext_spec htakes hfuel
    rw [hopt] at hrun htakes' hopt'
    cases h with
    | nil =>
      exact ⟨some it',by simp [mtblIterNext,mergerIterOps,hrun,takeNext,MergerAnswer.res],
        [],⟨htakes',hopt'⟩,hfuel,.nil⟩
    | @cons e _ rest out hnext hrest =>
      rw [hnext] at hrun htakes'
      refine ⟨some it',by simp [mtblIterNext,mergerIterOps,hrun,MergerAnswer.res],rest,
        ⟨htakes',hopt'⟩,?_,hrest⟩
      have := takeNext_length_le opt.merge taken
      rw [hnext] at this
      simp only at this
      omega

/-! ### Fresh iterators -/

/-- Every source answers the query with an iterator of these entries, in ascending order. -/
abbrev SourcesGive (G : Option σ → List Entry → Prop) (query : Source σ → Run (Option σ))
    (sources : List (Source σ)) (ess : List (List Entry)) : Prop :=
  List.Forall₂ (fun s es => (∃ it, query s = .ok it ∧ G it es) ∧
    es.Pairwise (fun a b => a.key < b.key)) sources ess

variable {G : Option σ → List Entry → Prop} {m : Merger σ} {le : Entry → Entry → Prop}
  {query : Source σ → Run (Option σ)} {ess : List (List Entry)}

theorem addQueries_takes (hle : TakeOrder m.opt le) (hG : Steps (mtblIterNext I) G)
    (hsources : SourcesGive G query m.sources ess) :
    ∃ it taken, addQueries I query (mergerIterInit m) m.sources = .ok it ∧ Takes I it taken ∧
      it.opt = m.opt ∧ taken.Perm ess.flatten ∧ taken.Pairwise le ∧
      (it.entries.length = 0 → taken = []) := by
  obtain ⟨H,P,hrun,hfeeds,hperm⟩ := addQueries_spec (mergerIterInit m) (P := fun _ => [])
    hle hG (feeds_init m) hsources
  obtain ⟨taken,hst,htaken,hsorted⟩ := hfeeds.streams hle hG
  refine ⟨_,taken,hrun,.running rfl hst (fun h => by cases h),rfl,htaken.trans hperm,hsorted,?_⟩
  intro hempty
  have hh : H.h = [] := by
    refine List.eq_nil_iff_forall_not_mem.mpr (fun i hi => ?_)
    obtain ⟨it,e,rest,hent,-,-⟩ := hfeeds.live i hi
    rw [show H.entries = [] from List.length_eq_zero_iff.mp hempty] at hent
    cases hent
  rw [hh] at htaken
  exact htaken.eq_nil

/-- A fresh full iterator is to take all entries of all sources, in the order of the heap. -/
theorem mergerIter_takes (hle : TakeOrder m.opt le) (hG : Steps (mtblIterNext I) G)
    (hsources : SourcesGive G Source.iter m.sources ess) :
    ∃ it taken, mergerIter I m = .ok (some it) ∧ Takes I it taken ∧ it.opt = m.opt ∧
      taken.Perm ess.flatten ∧ taken.Pairwise le := by
  obtain ⟨it,taken,hrun,htakes,hopt,hperm,hsorted,-⟩ := addQueries_takes hle hG hsources
  refine ⟨it,taken,?_,htakes,hopt,hperm,hsorted⟩
  simp only [mergerIter,addIters_eq,hrun,ok_bind,pure_eq_ok]

/-- A fresh bounded iterator is to take all entries that the sources select; it is NULL only where
there are none. -/
theorem mergerQuery_takes (hle : TakeOrder m.opt le) (hG : Steps (mtblIterNext I) G)
    (hsources : SourcesGive G query m.sources ess) :
    ∃ it taken, mergerQuery I m query = .ok it ∧ TakesOpt I m.opt taken it ∧
      taken.Perm ess.flatten ∧ taken.Pairwise le := by
  obtain ⟨it,taken,hrun,htakes,hopt,hperm,hsorted,hnone⟩ := addQueries_takes hle hG hsources
  by_cases hempty : it.entries.length = 0
  · obtain rfl := hnone hempty
    refine ⟨none,[],?_,rfl,hperm,hsorted⟩
    simp only [mergerQuery,hrun,ok_bind,hempty,if_true,pure_eq_ok]
  · refine ⟨some it,taken,?_,⟨htakes,hopt⟩,hperm,hsorted⟩
    simp only [mergerQuery,hrun,ok_bind,hempty,if_false,pure_eq_ok]

end

end Mtbl
