import Mtbl.Merge.Complete

/-! The key of length zero in the merger. `merger_iter_next` takes a current key of that length for
none, so entries with it are written over by whatever comes next. -/
namespace Mtbl
open CRun Cursor

/-- What is left of the entries once those with the empty key are written over. -/
def skipEmptyKey : List Entry → List Entry
  | [] => []
  | [e] => [e]
  | e::e'::taken => if e.key = [] then skipEmptyKey (e'::taken) else e::e'::taken

section
variable {merge : Option MergeFunc} {f : MergeFunc} {taken out : List Entry}

theorem takeNext_skipEmptyKey (merge : Option MergeFunc) (taken : List Entry) :
    takeNext merge (skipEmptyKey taken) = takeNext merge taken := by
  induction taken using skipEmptyKey.induct with
  | case1 => rfl
  | case2 e => rfl
  | case3 e e' taken hk ih =>
    rw [skipEmptyKey,if_pos hk,ih]
    exact (collect_no_key hk).symm
  | case4 e e' taken hk => rw [skipEmptyKey,if_neg hk]

theorem skipEmptyKey_eq_nil (h : skipEmptyKey taken = []) : taken = [] := by
  induction taken using skipEmptyKey.induct with
  | case1 => rfl
  | case2 e => cases h
  | case3 e e' taken hk ih =>
    rw [skipEmptyKey,if_pos hk] at h
    cases ih h
  | case4 e e' taken hk =>
    rw [skipEmptyKey,if_neg hk] at h
    cases h

theorem returned_skipEmptyKey (h : Returned merge (skipEmptyKey taken) out) :
    Returned merge taken out := by
  generalize hskip : skipEmptyKey taken = left at h
  cases h with
  | nil =>
    rw [skipEmptyKey_eq_nil hskip]
    exact .nil
  | cons hnext hrest => exact .cons (by rw [← takeNext_skipEmptyKey,hskip,hnext]) hrest

theorem nil_lt_iff (k : Bytes) : [] < k ↔ k ≠ [] := by
  cases k with
  | nil => simp
  | cons b k => simp [List.nil_lt_cons]

/-- Either the entries with the empty key all go, or there are no others and one of them stays. -/
theorem skipEmptyKey_cases (hsorted : KeySorted taken) :
    (skipEmptyKey taken = after [] taken ∧ (taken ≠ [] → ∃ e ∈ taken, e.key ≠ [])) ∨
      ∃ e ∈ taken, skipEmptyKey taken = [e] ∧ ∀ x ∈ taken, x.key = [] := by
  induction taken using skipEmptyKey.induct with
  | case1 => exact .inl ⟨rfl,fun h => absurd rfl h⟩
  | case2 e =>
    by_cases he : e.key = []
    · exact .inr ⟨e,List.mem_singleton_self e,rfl,by simpa using he⟩
    · refine .inl ⟨?_,fun _ => ⟨e,List.mem_singleton_self e,he⟩⟩
      rw [after_eq_self (by simpa using (nil_lt_iff _).mpr he)]
      rfl
  | case3 e e' taken hk ih =>
    rw [skipEmptyKey,if_pos hk]
    rcases ih (List.pairwise_cons.mp hsorted).2 with ⟨hskip,hne⟩ | ⟨x,hx,hskip,hall⟩
    · refine .inl ⟨?_,fun _ => ?_⟩
      · rw [hskip,after,after,List.filter_cons_of_neg (l := e'::taken) (by simp [hk])]
      · obtain ⟨x,hx,hxk⟩ := hne (List.cons_ne_nil _ _)
        exact ⟨x,List.mem_cons_of_mem _ hx,hxk⟩
    · refine .inr ⟨x,List.mem_cons_of_mem _ hx,hskip,fun y hy => ?_⟩
      rcases List.mem_cons.mp hy with rfl | hy
      · exact hk
      · exact hall y hy
  | case4 e e' taken hk =>
    rw [skipEmptyKey,if_neg hk]
    refine .inl ⟨(after_eq_self (fun x hx => ?_)).symm,fun _ => ⟨e,List.mem_cons_self ..,hk⟩⟩
    rcases List.mem_cons.mp hx with rfl | hx
    · exact (nil_lt_iff _).mpr hk
    · exact ((nil_lt_iff _).mpr hk).trans_le ((List.pairwise_cons.mp hsorted).1 x hx)

/-- If no merge of a non-empty key declines, the entries come to the reference merge of what is left
of them. -/
theorem exists_returned_skip (hsorted : KeySorted taken)
    (hfold : ∀ e ∈ taken, e.key ≠ [] → (foldValues f e.key (valuesOf e.key taken)).isSome) :
    ∃ out, Returned (some f) taken out ∧ Folded f (skipEmptyKey taken) out := by
  rcases skipEmptyKey_cases hsorted with ⟨hskip,-⟩ | ⟨e,he,hskip,hall⟩
  · have hmem : ∀ e ∈ after [] taken, e ∈ taken ∧ e.key ≠ [] := by
      intro e he
      exact ⟨(List.mem_filter.mp he).1,
        (nil_lt_iff _).mp (of_decide_eq_true (List.mem_filter.mp he).2)⟩
    obtain ⟨out,hret,hout⟩ := exists_returned (f := f)
      (show KeySorted (after [] taken) from hsorted.filter _) (fun e he => (hmem e he).2)
      (fun e he => by
        rw [valuesOf_after ((nil_lt_iff _).mpr (hmem e he).2)]
        exact hfold e (hmem e he).1 (hmem e he).2)
    rw [← hskip] at hret hout
    exact ⟨out,returned_skipEmptyKey hret,hout⟩
  · refine ⟨[e],returned_skipEmptyKey ?_,?_⟩
    · rw [hskip]
      exact .cons rfl .nil
    · rw [hskip]
      refine ⟨List.pairwise_singleton ..,fun k => Iff.rfl,fun x hx => ?_⟩
      obtain rfl := List.mem_singleton.mp hx
      rw [valuesOf_cons_self]
      rfl

/-- No key goes missing exactly when the empty key is not among others. -/
theorem skipEmptyKey_keys_iff (hsorted : KeySorted taken) :
    (∀ k, k ∈ (skipEmptyKey taken).map Entry.key ↔ k ∈ taken.map Entry.key) ↔
      ¬ ((∃ e ∈ taken, e.key = []) ∧ ∃ e ∈ taken, e.key ≠ []) := by
  rcases skipEmptyKey_cases hsorted with ⟨hskip,hne⟩ | ⟨e,he,hskip,hall⟩
  · rw [hskip]
    constructor
    · rintro hkeys ⟨⟨e,he,hek⟩,-⟩
      obtain ⟨x,hx,hxk⟩ := List.mem_map.mp ((hkeys []).mpr (List.mem_map.mpr ⟨e,he,hek⟩))
      have := of_decide_eq_true (List.mem_filter.mp hx).2
      exact (nil_lt_iff _).mp this hxk
    · intro hnot k
      have hnonempty : ∀ e ∈ taken, [] < e.key := by
        intro e he
        refine (nil_lt_iff _).mpr (fun hek => hnot ⟨⟨e,he,hek⟩,?_⟩)
        exact hne (List.ne_nil_of_mem he)
      rw [after_eq_self hnonempty]
  · rw [hskip]
    refine iff_of_true (fun k => ?_) (fun h => ?_)
    · rw [List.map_singleton,List.mem_singleton,hall e he]
      refine ⟨fun hk => List.mem_map.mpr ⟨e,he,(hall e he).trans hk.symm⟩,fun hk => ?_⟩
      obtain ⟨x,hx,rfl⟩ := List.mem_map.mp hk
      exact hall x hx
    · obtain ⟨x,hx,hxk⟩ := h.2
      exact hxk (hall x hx)

end

/-- What a full iterator of a merger returns, its sources' empty keys included. -/
theorem mergerIter_gives {σ : Type} {I : Ops σ Entry Bytes} {m : Merger σ}
    {ess : List (List Entry)} (hsources : List.Forall₂ (Source.Holds I) m.sources ess)
    {g : Bytes → Bytes → Bytes → Bytes} (hmerge : m.opt.merge = some (alwaysMerges g)) :
    ∃ taken out, taken.Perm ess.flatten ∧ KeySorted taken ∧
      Folded (alwaysMerges g) (skipEmptyKey taken) out ∧
      ∃ n, ∀ fuel, n ≤ fuel → Gives (mergerIterOps I fuel) (mergerIter I m) out := by
  have hle := takeOrder_key m.opt
  obtain ⟨it,taken,hrun,ht,hopt,hperm,hsorted⟩ :=
    mergerIter_takes hle (steps_enumerates (mtblIterNext I)) (sourcesGive_iter hsources)
  obtain ⟨out,hret,hout⟩ := exists_returned_skip hsorted
    (fun e he _ => foldValues_isSome g he)
  rw [← hmerge] at hret
  exact ⟨taken,out,hperm,hsorted,hout,taken.length+1,
    fun fuel hfuel => ⟨some it,hrun,
      hret.enumerates (show TakesOpt I m.opt taken (some it) from ⟨ht,hopt⟩) hfuel⟩⟩

/-- A merger whose merge function always returns a value returns the keys of its sources, unless
the empty key is one of several. -/
theorem merger_keys {σ : Type} (I : Ops σ Entry Bytes) (sources : List (Source σ))
    (ess : List (List Entry)) (hsources : List.Forall₂ (Source.Holds I) sources ess)
    (g : Bytes → Bytes → Bytes → Bytes) (dupsort : Option DupsortFunc) :
    ∃ out, (∃ n, ∀ fuel, n ≤ fuel → Gives (mergerIterOps I fuel)
        (mergerIter I ⟨sources,some (alwaysMerges g),dupsort⟩) out) ∧
      ((∀ k, k ∈ out.map Entry.key ↔ k ∈ ess.flatten.map Entry.key) ↔
        ¬ ((∃ e ∈ ess.flatten, e.key = []) ∧ ∃ e ∈ ess.flatten, e.key ≠ [])) := by
  obtain ⟨taken,out,hperm,hsorted,hout,hgives⟩ :=
    mergerIter_gives (m := ⟨sources,some (alwaysMerges g),dupsort⟩) hsources rfl
  refine ⟨out,hgives,?_⟩
  have hkeys := skipEmptyKey_keys_iff hsorted
  simp only [← hout.keys,(hperm.map Entry.key).mem_iff,hperm.mem_iff] at hkeys
  exact hkeys

/-- Two files with three keys, one of which is in both. -/
theorem merger_keys_three : ∃ r1 r2 out,
    (∃ n, ∀ fuel, n ≤ fuel → Gives (mergerIterOps (readerOps storingCodec) fuel)
      (mergerIter (readerOps storingCodec) ⟨[mtblReaderSource storingCodec r1,
        mtblReaderSource storingCodec r2],some (alwaysMerges (fun _ a _ => a)),none⟩) out) ∧
      ∀ k, k ∈ out.map Entry.key ↔ k = [97] ∨ k = [98] ∨ k = [99] := by
  obtain ⟨file1,r1,-,-,hsource1⟩ := exists_source storingCodec [⟨[97],[1]⟩,⟨[99],[2]⟩] (by decide)
    (by decide +kernel)
  obtain ⟨file2,r2,-,-,hsource2⟩ := exists_source storingCodec [⟨[98],[3]⟩,⟨[99],[4]⟩] (by decide)
    (by decide +kernel)
  have hsources : List.Forall₂ (Source.Holds (readerOps storingCodec))
      [mtblReaderSource storingCodec r1,mtblReaderSource storingCodec r2]
      [[⟨[97],[1]⟩,⟨[99],[2]⟩],[⟨[98],[3]⟩,⟨[99],[4]⟩]] := .cons hsource1 (.cons hsource2 .nil)
  obtain ⟨out,hgives,hkeys⟩ :=
    merger_keys (readerOps storingCodec) _ _ hsources (fun _ a _ => a) none
  refine ⟨r1,r2,out,hgives,fun k => (hkeys.mpr (by decide) k).trans ?_⟩
  simp only [List.flatten_cons,List.flatten_nil,List.append_nil,List.cons_append,List.nil_append,
    List.map_cons,List.map_nil,List.mem_cons,List.not_mem_nil,or_false]
  tauto

/-- The empty key and `a` in one file: the empty key is not returned. -/
theorem merger_keys_fails :
    ¬ ∀ (σ : Type) (I : Ops σ Entry Bytes) (sources : List (Source σ)) (ess : List (List Entry)),
      List.Forall₂ (Source.Holds I) sources ess →
      ∀ (g : Bytes → Bytes → Bytes → Bytes) (dupsort : Option DupsortFunc),
      ∃ out, (∃ n, ∀ fuel, n ≤ fuel → Gives (mergerIterOps I fuel)
          (mergerIter I ⟨sources,some (alwaysMerges g),dupsort⟩) out) ∧
        ∀ k, k ∈ out.map Entry.key ↔ k ∈ ess.flatten.map Entry.key := by
  intro hclaim
  obtain ⟨file,r,-,-,hsource⟩ := exists_source storingCodec [⟨[],[1]⟩,⟨[97],[2]⟩] (by decide)
    (by decide +kernel)
  have hsources : List.Forall₂ (Source.Holds (readerOps storingCodec))
      [mtblReaderSource storingCodec r] [[⟨[],[1]⟩,⟨[97],[2]⟩]] := .cons hsource .nil
  obtain ⟨out,⟨n,hgives⟩,hkeys⟩ := hclaim _ _ _ _ hsources (fun _ a _ => a) none
  obtain ⟨taken,out',hperm,hsorted,hout,n',hgives'⟩ := mergerIter_gives
    (m := ⟨_,some (alwaysMerges (fun _ a _ => a)),none⟩) hsources rfl
  obtain rfl := (hgives _ (le_max_left n n')).unique (hgives' _ (le_max_right n n'))
  have hno := mt (skipEmptyKey_keys_iff hsorted).mp
  simp only [← hout.keys,(hperm.map Entry.key).mem_iff,hperm.mem_iff] at hno
  exact hno (by decide) hkeys

end Mtbl
