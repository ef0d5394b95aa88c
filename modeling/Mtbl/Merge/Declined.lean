import Mtbl.Merge.EmptyKey

/-! A merge that declines. The iterator answers with a failure, but keeps no note of it: the next
call starts afresh from the entry that was not merged. -/
namespace Mtbl
open CRun Cursor

/-- `n` calls of `merger_iter_next`. -/
def mergerIterAnswers {σ : Type} (I : Ops σ Entry Bytes) (fuel : ℕ) :
    ℕ → MergerIter σ → Run (List MergerAnswer)
  | 0,_ => .ok []
  | n+1,it => do
    let (answer,it) ← mergerIterAnswer I fuel it
    let answers ← mergerIterAnswers I fuel n it
    return answer::answers

/-- After a declined merge no call succeeds. -/
def Aborts (answers : List MergerAnswer) : Prop :=
  answers.Pairwise (fun a b => a = .declined → ∀ e, b ≠ .entry e)

/-- Every value returned is a left fold of the merge function over exactly the values of its key. -/
def Complete (f : MergeFunc) (es : List Entry) (answers : List MergerAnswer) : Prop :=
  ∀ e, .entry e ∈ answers →
    ∃ v vs, (v::vs).Perm (valuesOf e.key es) ∧ vs.foldlM (f e.key) v = some e.val

/-- No fold of a key's values, in the order in which they come, is declined. -/
def NeverDeclines (f : MergeFunc) (taken : List Entry) : Prop :=
  ∀ e ∈ taken, e.key ≠ [] → (foldValues f e.key (valuesOf e.key taken)).isSome

/-- Several entries, all with the empty key. -/
def OnlyEmptyKeys (es : List Entry) : Prop := 2 ≤ es.length ∧ ∀ e ∈ es, e.key = []

theorem mergerIterAnswers_spec {σ : Type} {I : Ops σ Entry Bytes} {fuel : ℕ} (n : ℕ)
    {it : MergerIter σ} {taken : List Entry} (h : Takes I it taken) (hfuel : taken.length < fuel) :
    mergerIterAnswers I fuel n it = .ok (takeAnswers it.opt.merge n taken) := by
  induction n generalizing it taken with
  | zero => rfl
  | succ n ih =>
    obtain ⟨it',hrun,htakes,hopt⟩ := mergerIterAnswer_spec h hfuel
    have hshort := takeNext_length_le it.opt.merge taken
    have hrest := ih htakes (by omega)
    rw [hopt] at hrest
    simp only [mergerIterAnswers,hrun,ok_bind,hrest,pure_eq_ok,takeAnswers]

section
variable {merge : Option MergeFunc} {f : MergeFunc} {taken out es : List Entry}

theorem takeAnswers_nil (merge : Option MergeFunc) (n : ℕ) :
    takeAnswers merge n [] = List.replicate n .finished := by
  induction n with
  | zero => rfl
  | succ n ih => rw [takeAnswers,takeNext,ih,List.replicate_succ]

/-- The answers of a run that returns everything. -/
theorem Returned.mem_takeAnswers (h : Returned merge taken out) (n : ℕ) :
    ∀ a ∈ takeAnswers merge n taken, a = .finished ∨ ∃ e ∈ out, a = .entry e := by
  induction h generalizing n with
  | nil =>
    rw [takeAnswers_nil]
    exact fun a ha => .inl (List.eq_of_mem_replicate ha)
  | @cons e taken rest out hnext _ ih =>
    cases n with
    | zero => exact fun a ha => absurd ha List.not_mem_nil
    | succ n =>
      rw [takeAnswers,hnext]
      intro a ha
      rcases List.mem_cons.mp ha with rfl | ha
      · exact .inr ⟨e,List.mem_cons_self ..,rfl⟩
      · rcases ih n a ha with hfin | ⟨e',he',rfl⟩
        · exact .inl hfin
        · exact .inr ⟨e',List.mem_cons_of_mem _ he',rfl⟩

theorem collect_ne_finished (merge : Option MergeFunc) (curKey curVal : Bytes)
    (taken : List Entry) : (collect merge curKey curVal taken).1 ≠ .finished := by
  induction taken generalizing curKey curVal with
  | nil => simp [collect]
  | cons e taken ih =>
    rcases collect_cases merge curKey curVal e taken with ⟨k,v,hgo⟩ | hstop | hstop
    · rw [hgo]
      exact ih k v
    · rw [hstop]
      simp
    · rw [hstop]
      simp

/-- As long as entries are left, some later call succeeds. -/
theorem exists_entry (merge : Option MergeFunc) (hne : taken ≠ []) :
    ∃ n e, .entry e ∈ takeAnswers merge n taken := by
  generalize hlen : taken.length = l
  induction l using Nat.strong_induction_on generalizing taken with
  | h l ih =>
    obtain ⟨x,taken,rfl⟩ := List.exists_cons_of_ne_nil hne
    cases hnext : (takeNext merge (x::taken)).1 with
    | entry e => exact ⟨1,e,by simp [takeAnswers,hnext]⟩
    | finished => exact (collect_ne_finished _ _ _ _ hnext).elim
    | declined =>
      have hshort := takeNext_length_le merge (x::taken)
      simp only [List.length_cons] at hshort hlen
      obtain ⟨n,e,he⟩ := ih (takeNext merge (x::taken)).2.length (by omega)
        (collect_declined_ne hnext) rfl
      exact ⟨n+1,e,List.mem_cons_of_mem _ he⟩

/-- If some fold is declined, then some run goes on after it. -/
theorem exists_not_aborts (hsorted : KeySorted taken) (h : ¬ NeverDeclines f taken) :
    ∃ n, ¬ Aborts (takeAnswers (some f) n taken) := by
  generalize hlen : taken.length = l
  induction l using Nat.strong_induction_on generalizing taken with
  | h l ih =>
    cases taken with
    | nil => exact absurd (fun e he => absurd he List.not_mem_nil) h
    | cons e taken =>
      have hsorted' := (List.pairwise_cons.mp hsorted).2
      by_cases hk : e.key = []
      · cases taken with
        | nil =>
          refine absurd (fun x hx hxk => ?_) h
          obtain rfl := List.mem_singleton.mp hx
          exact absurd hk hxk
        | cons e' taken =>
          have hnot : ¬ NeverDeclines f (e'::taken) := by
            refine fun hall => h (fun x hx hxk => ?_)
            rw [valuesOf_cons,if_neg (fun heq : e.key = x.key => hxk (heq ▸ hk))]
            rcases List.mem_cons.mp hx with rfl | hx
            · exact absurd hk hxk
            · exact hall x hx hxk
          obtain ⟨n,hn⟩ := ih _ (by simp at hlen ⊢; omega) hsorted' hnot rfl
          cases n with
          | zero => exact absurd List.Pairwise.nil hn
          | succ n =>
            refine ⟨n+1,?_⟩
            rwa [takeAnswers,show takeNext (some f) (e::e'::taken) =
              takeNext (some f) (e'::taken) from collect_no_key hk]
      · cases hfold : foldValues f e.key (valuesOf e.key (e::taken)) with
        | none =>
          have hdecl := takeNext_declines hk hsorted hfold
          obtain ⟨n,x,hx⟩ := exists_entry (some f) (collect_declined_ne hdecl)
          refine ⟨n+1,fun hab => ?_⟩
          exact (List.pairwise_cons.mp hab).1 _ hx hdecl x rfl
        | some w =>
          have hnext := takeNext_folds hk hsorted hfold
          have hshort := takeNext_length_le (some f) (e::taken)
          rw [hnext] at hshort
          simp only [List.length_cons] at hshort hlen
          have hnot : ¬ NeverDeclines f (after e.key (e::taken)) := by
            refine fun hall => h (fun x hx hxk => ?_)
            have hle : e.key ≤ x.key := by
              rcases List.mem_cons.mp hx with rfl | hx
              · exact le_rfl
              · exact (List.pairwise_cons.mp hsorted).1 x hx
            rcases hle.eq_or_lt with heq | hlt
            · rw [← heq,hfold]
              rfl
            · rw [← valuesOf_after hlt]
              exact hall x (List.mem_filter.mpr ⟨hx,by simpa using hlt⟩) hxk
          obtain ⟨n,hn⟩ := ih (after e.key (e::taken)).length (by omega) (hsorted.filter _) hnot rfl
          refine ⟨n+1,fun hab => hn ?_⟩
          have htail := (List.pairwise_cons.mp hab).2
          rwa [hnext] at htail

/-- If no fold is declined, no call is. -/
theorem NeverDeclines.aborts (hsorted : KeySorted taken) (h : NeverDeclines f taken) (n : ℕ) :
    Aborts (takeAnswers (some f) n taken) := by
  obtain ⟨out,hret,-⟩ := exists_returned_skip hsorted h
  refine List.Pairwise.imp_of_mem (R := fun _ _ => True) (fun ha _ _ hdecl => ?_)
    (List.pairwise_of_forall (fun _ _ => trivial))
  rcases hret.mem_takeAnswers n _ ha with hfin | ⟨e,-,he⟩
  · rw [hdecl] at hfin
    cases hfin
  · rw [hdecl] at he
    cases he

/-- If no fold is declined and the empty key is not all there is, the values returned are
complete. -/
theorem NeverDeclines.complete (hsorted : KeySorted taken) (h : NeverDeclines f taken)
    (hperm : taken.Perm es) (hnot : ¬ OnlyEmptyKeys es) (n : ℕ) :
    Complete f es (takeAnswers (some f) n taken) := by
  obtain ⟨out,hret,hout⟩ := exists_returned_skip hsorted h
  intro e he
  rcases hret.mem_takeAnswers n _ he with hfin | ⟨e',heout,heq⟩
  · cases hfin
  · obtain rfl : e = e' := by simpa using heq
    have hfold := hout.value e heout
    have hvals : valuesOf e.key (skipEmptyKey taken) = valuesOf e.key taken := by
      rcases skipEmptyKey_cases hsorted with ⟨hskip,-⟩ | ⟨x,hx,hskip,hall⟩
      · have hmem := (hout.keys e.key).mp (List.mem_map_of_mem heout)
        rw [hskip] at hmem ⊢
        obtain ⟨y,hy,hyk⟩ := List.mem_map.mp hmem
        rw [valuesOf_after (hyk ▸ of_decide_eq_true (List.mem_filter.mp hy).2)]
      · have hone : taken.length < 2 := by
          by_contra hlen
          refine hnot ⟨hperm.length_eq ▸ not_lt.mp hlen,fun y hy => hall y (hperm.mem_iff.mpr hy)⟩
        match taken,hx,hskip,hone with
        | [y],hx,hskip,_ => rw [hskip,List.mem_singleton.mp hx]
    rw [hvals] at hfold
    cases hval : valuesOf e.key taken with
    | nil =>
      rw [hval] at hfold
      cases hfold
    | cons v vs =>
      rw [hval] at hfold
      exact ⟨v,vs,hval ▸ (hperm.filter _).map _,hfold⟩

end

/-! ### Fresh iterators -/

/-- A new iterator of the merger, with the entries its query selects from the union of the
sources. -/
inductive Opened {σ : Type} (I : Ops σ Entry Bytes) (m : Merger σ) (ess : List (List Entry)) :
    MergerIter σ → List Entry → Prop
  | iter {it : MergerIter σ} (h : mergerIter I m = .ok (some it)) : Opened I m ess it ess.flatten
  | get {it : MergerIter σ} (k : Bytes) (h : mergerGet I m k = .ok (some it)) :
      Opened I m ess it (ess.flatten.filter (fun e => e.key = k))
  | getPrefix {it : MergerIter σ} (p : Bytes) (h : mergerGetPrefix I m p = .ok (some it)) :
      Opened I m ess it (ess.flatten.filter (fun e => p <+: e.key))
  | getRange {it : MergerIter σ} (k0 k1 : Bytes) (h : mergerGetRange I m k0 k1 = .ok (some it)) :
      Opened I m ess it (ess.flatten.filter (fun e => k0 ≤ e.key ∧ e.key ≤ k1))

section
variable {σ : Type} {I : Ops σ Entry Bytes} {m : Merger σ} {ess : List (List Entry)}

theorem mergerQuery_opened {query : Source σ → Run (Option σ)} {p : Entry → Bool}
    (hquery : ∀ s es, Source.Holds I s es → Gives I (query s) (es.filter p))
    (hsources : List.Forall₂ (Source.Holds I) m.sources ess) {it : MergerIter σ}
    (h : mergerQuery I m query = .ok (some it)) :
    ∃ taken, Takes I it taken ∧ it.opt = m.opt ∧ taken.Perm (ess.flatten.filter p) ∧
      KeySorted taken := by
  obtain ⟨it',taken,hrun,ht,hperm,hsorted⟩ := mergerQuery_takes (takeOrder_key m.opt)
    (steps_enumerates (mtblIterNext I)) (sourcesGive_filter hquery hsources)
  obtain rfl := Except.ok.inj (h.symm.trans hrun)
  rw [← List.filter_flatten] at hperm
  exact ⟨taken,ht.1,ht.2,hperm,hsorted⟩

theorem Opened.takes (hsources : List.Forall₂ (Source.Holds I) m.sources ess) {it : MergerIter σ}
    {es : List Entry} (h : Opened I m ess it es) :
    ∃ taken, Takes I it taken ∧ it.opt = m.opt ∧ taken.Perm es ∧ KeySorted taken := by
  cases h with
  | iter h =>
    obtain ⟨it',taken,hrun,ht,hopt,hperm,hsorted⟩ := mergerIter_takes (takeOrder_key m.opt)
      (steps_enumerates (mtblIterNext I)) (sourcesGive_iter hsources)
    obtain rfl := Option.some.inj (Except.ok.inj (h.symm.trans hrun))
    exact ⟨taken,ht,hopt,hperm,hsorted⟩
  | get k h =>
    have hsame : ∀ e : Entry, decide (e.key = k) = decide (k ≤ e.key ∧ e.key ≤ k) :=
      fun e => decide_eq_decide.mpr ⟨fun h => ⟨h.ge,h.le⟩,fun h => le_antisymm h.2 h.1⟩
    simp only [hsame]
    exact mergerQuery_opened (fun s es hs => hs.getRange k k) hsources h
  | getPrefix p h => exact mergerQuery_opened (fun s es hs => hs.getPrefix p) hsources h
  | getRange k0 k1 h => exact mergerQuery_opened (fun s es hs => hs.getRange k0 k1) hsources h

end

/-- On a new iterator, whose heap gives its entries in the order of `taken`: a failure that a
declined merge causes is followed by failures only, in every run, exactly when no fold of a key's
values in that order is declined; and then every value returned is complete, unless the empty key is
all there is. -/
theorem declined_merge {σ : Type} (I : Ops σ Entry Bytes) (sources : List (Source σ))
    (ess : List (List Entry)) (hsources : List.Forall₂ (Source.Holds I) sources ess)
    (f : MergeFunc) (dupsort : Option DupsortFunc) (it : MergerIter σ) (es : List Entry)
    (hopen : Opened I ⟨sources,some f,dupsort⟩ ess it es) :
    ∃ taken, Takes I it taken ∧ taken.Perm es ∧ ∀ fuel, es.length < fuel →
      ((∀ n answers, mergerIterAnswers I fuel n it = .ok answers → Aborts answers) ↔
        NeverDeclines f taken) ∧
      (NeverDeclines f taken → ¬ OnlyEmptyKeys es → ∀ n, ∃ answers,
        mergerIterAnswers I fuel n it = .ok answers ∧ Aborts answers ∧ Complete f es answers) := by
  obtain ⟨taken,ht,hopt,hperm,hsorted⟩ := hopen.takes hsources
  refine ⟨taken,ht,hperm,fun fuel hfuel => ?_⟩
  have hrun := fun n => mergerIterAnswers_spec n ht (hperm.length_eq ▸ hfuel)
  simp only [hopt] at hrun
  refine ⟨⟨fun hall => ?_,fun hnever n answers hans => ?_⟩,fun hnever hnot n => ?_⟩
  · by_contra hnever
    obtain ⟨n,hn⟩ := exists_not_aborts hsorted hnever
    exact hn (hall n _ (hrun n))
  · obtain rfl := Except.ok.inj (hans.symm.trans (hrun n))
    exact hnever.aborts hsorted n
  · exact ⟨_,hrun n,hnever.aborts hsorted n,hnever.complete hsorted hperm hnot n⟩

/-- Two files with one key in common, and a merge function that takes the first value. -/
theorem declined_merge_never : ∃ r1 r2 it,
    mergerIter (readerOps storingCodec) ⟨[mtblReaderSource storingCodec r1,
      mtblReaderSource storingCodec r2],some (fun _ a _ => some a),none⟩ = .ok (some it) ∧
    ∀ n, ∃ answers, mergerIterAnswers (readerOps storingCodec) 3 n it = .ok answers ∧
      Aborts answers ∧ Complete (fun _ a _ => some a) [⟨[97],[1]⟩,⟨[97],[2]⟩] answers := by
  obtain ⟨-,r1,-,-,hsource1⟩ := exists_source storingCodec [⟨[97],[1]⟩] (by decide)
    (by decide +kernel)
  obtain ⟨-,r2,-,-,hsource2⟩ := exists_source storingCodec [⟨[97],[2]⟩] (by decide)
    (by decide +kernel)
  have hsources : List.Forall₂ (Source.Holds (readerOps storingCodec))
      [mtblReaderSource storingCodec r1,mtblReaderSource storingCodec r2]
      [[⟨[97],[1]⟩],[⟨[97],[2]⟩]] := .cons hsource1 (.cons hsource2 .nil)
  obtain ⟨it,-,hrun,-⟩ := mergerIter_takes
    (m := ⟨_,some (fun _ a _ => some a),none⟩) (takeOrder_key _)
    (steps_enumerates (mtblIterNext (readerOps storingCodec))) (sourcesGive_iter hsources)
  obtain ⟨taken,-,hperm,hall⟩ := declined_merge (readerOps storingCodec) _ _ hsources
    (fun _ a _ => some a) none it _ (.iter hrun)
  have hnever : NeverDeclines (fun _ a _ => some a) taken :=
    fun e he _ => foldValues_isSome (fun _ a _ => a) he
  exact ⟨r1,r2,it,hrun,(hall 3 (by decide)).2 hnever
    (fun honly => absurd (honly.2 ⟨[97],[1]⟩ (by decide)) (by decide))⟩

/-- Two files with one key in common, and a merge function that declines: the call after the
failure returns one of the two values. -/
theorem declined_merge_fails :
    ¬ ∀ (σ : Type) (I : Ops σ Entry Bytes) (sources : List (Source σ)) (ess : List (List Entry)),
      List.Forall₂ (Source.Holds I) sources ess →
      ∀ (f : MergeFunc) (dupsort : Option DupsortFunc) (it : MergerIter σ) (es : List Entry),
      Opened I ⟨sources,some f,dupsort⟩ ess it es → ∀ fuel n answers,
      mergerIterAnswers I fuel n it = .ok answers → Aborts answers ∧ Complete f es answers := by
  intro hclaim
  obtain ⟨-,r1,-,-,hsource1⟩ := exists_source storingCodec [⟨[97],[1]⟩] (by decide)
    (by decide +kernel)
  obtain ⟨-,r2,-,-,hsource2⟩ := exists_source storingCodec [⟨[97],[2]⟩] (by decide)
    (by decide +kernel)
  have hsources : List.Forall₂ (Source.Holds (readerOps storingCodec))
      [mtblReaderSource storingCodec r1,mtblReaderSource storingCodec r2]
      [[⟨[97],[1]⟩],[⟨[97],[2]⟩]] := .cons hsource1 (.cons hsource2 .nil)
  obtain ⟨it,taken,hrun,ht,hopt,hperm,hsorted⟩ := mergerIter_takes
    (m := ⟨_,some (fun _ _ _ => none),none⟩) (takeOrder_key _)
    (steps_enumerates (mtblIterNext (readerOps storingCodec))) (sourcesGive_iter hsources)
  have hnot : ¬ NeverDeclines (fun _ _ _ => none) taken := by
    intro hnever
    have hfold := hnever ⟨[97],[1]⟩ (hperm.mem_iff.mpr (by decide)) (by decide)
    have hvals : (valuesOf [97] taken).Perm [[1],[2]] := (hperm.filter _).map _
    match hv : valuesOf [97] taken,hvals.length_eq with
    | v::w::vs,_ =>
      rw [hv] at hfold
      cases hfold
  obtain ⟨n,hn⟩ := exists_not_aborts hsorted hnot
  have hans := mergerIterAnswers_spec n ht (Nat.lt_succ_self _)
  rw [hopt] at hans
  exact hn (hclaim _ _ _ _ hsources _ _ it _ (.iter hrun) _ n _ hans).1

end Mtbl
