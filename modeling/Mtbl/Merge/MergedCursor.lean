import Mtbl.Merge.Associative
import Mtbl.Merge.ForwardSeek
import Mtbl.Merge.Transparent

/-! A merger as one sorted list. Over sources that obey the seek law, and with an associative and
commutative merge function, the iterator follows the plain cursor over the merge of all entries,
wherever calls of `next` and `seek` have left its sources. -/
namespace Mtbl
open CRun Cursor HeapOrder

section
variable {g : Bytes → Bytes → Bytes → Bytes} {dupsort : Option DupsortFunc}
  {es out : List Entry}

theorem Merged.noDupsort (h : Merged g dupsort es out) : Merged g none es out where
  ascending := h.ascending
  keys := h.keys
  value e he := by
    obtain ⟨v,vs,hvs,hfold,-⟩ := h.value e he
    exact ⟨v,vs,hvs,hfold,fun d hd => by cases hd⟩

/-- The entries with certain keys have the part of the merge with these keys as theirs. -/
theorem Merged.filter (h : Merged g dupsort es out) (V : Bytes → Bool) :
    Merged g dupsort (es.filter (fun e => V e.key)) (out.filter (fun e => V e.key)) where
  ascending := h.ascending.filter _
  keys k := by
    have hkeys : ∀ l : List Entry, k ∈ (l.filter (fun e => V e.key)).map Entry.key ↔
        V k = true ∧ k ∈ l.map Entry.key := by
      intro l
      simp only [List.mem_map,List.mem_filter]
      constructor
      · rintro ⟨e,⟨he,hV⟩,rfl⟩
        exact ⟨hV,e,he,rfl⟩
      · rintro ⟨hV,e,he,rfl⟩
        exact ⟨e,⟨he,hV⟩,rfl⟩
    rw [hkeys,hkeys,h.keys]
  value e he := by
    obtain ⟨hmem,hV⟩ := List.mem_filter.mp he
    have hvalues : valuesOf e.key (es.filter (fun x => V x.key)) = valuesOf e.key es := by
      rw [valuesOf,valuesOf,List.filter_filter]
      apply congrArg (List.map Entry.val)
      apply List.filter_congr
      intro x _
      by_cases hx : x.key = e.key
      · simp [hx,hV]
      · simp [hx]
    rw [hvalues]
    exact h.value e hmem

end

/-! ### The iterator and the cursor -/

section
variable {σ : Type} {I : Ops σ Entry Bytes} {opt : MergerOptions} {le : Entry → Entry → Prop}
  {L : ℕ → List Entry} {g : Bytes → Bytes → Bytes → Bytes} {out rem : List Entry}
  {it : MergerIter σ} {n fuel : ℕ}

/-- The iterator stands somewhere in its sources, and is to return these entries. -/
structure CursorAt (I : Ops σ Entry Bytes) (opt : MergerOptions) (le : Entry → Entry → Prop)
    (L : ℕ → List Entry) (n fuel : ℕ) (it : MergerIter σ) (rem : List Entry) : Prop where
  reaches : Reaches I opt le L n it
  enumerates : Enumerates (mergerIterNext I fuel) it rem

theorem CursorAt.next (hle : TakeOrder opt le) (hmerge : opt.merge = some (alwaysMerges g))
    (hkeys : ∀ i, ∀ e ∈ L i, e.key ≠ []) (hfuel : (allEntries L n).length+1 < fuel)
    (h : CursorAt I opt le L n fuel it rem) :
    ∃ it', mergerIterNext I fuel it = .ok (rem.head?,it') ∧
      CursorAt I opt le L n fuel it' rem.tail := by
  obtain ⟨⟨⟨U,hU⟩,hlen⟩,henum⟩ := h
  obtain ⟨it',hnext,henum'⟩ := steps_enumerates (mergerIterNext I fuel) it rem henum
  obtain ⟨e,it'',hrun,hreach⟩ := hU.next hle hmerge hkeys (hlen.symm ▸ hfuel)
  obtain ⟨-,rfl⟩ := Prod.mk.inj (Except.ok.inj (hnext.symm.trans hrun))
  exact ⟨it',hnext,hlen ▸ hreach,henum'⟩

variable [hassoc : ∀ k, Std.Associative (g k)] [hcomm : ∀ k, Std.Commutative (g k)]

/-- Standing at a set of keys, it returns the part of the merge with these keys. -/
theorem StandsAt.enumerates (hle : TakeOrder opt le) (hdup : ∀ d, opt.dupsort = some d →
      DupsortOrder d → ∀ a b, le a b → a.key = b.key → d a.key a.val b.val ≤ 0)
    (hmerge : opt.merge = some (alwaysMerges g)) (hkeys : ∀ i, ∀ e ∈ L i, e.key ≠ [])
    (hout : Merged g none (allEntries L n) out) {V : Bytes → Bool}
    (h : StandsAt I le L V it.toEntryHeap) (hopt : it.opt = opt) (hlen : it.entries.length = n)
    (hpend : it.pending = false) (hempty : it.finished = true → it.h = [])
    (hfuel : (allEntries L n).length < fuel) :
    Enumerates (mergerIterNext I fuel) it (out.filter (fun e => V e.key)) := by
  subst hlen
  obtain ⟨out',henum,hout'⟩ := h.returns hle hdup hmerge hkeys hopt hpend hempty hfuel
  have hsame := (hout.filter V).unique hout'.noDupsort
  exact enumerates_some (hsame ▸ henum)

/-- A seek to a key that has been passed finds nothing behind it but what is left. -/
theorem Reached.passed_key {U : Bytes → Bool} (h : Reached I opt le L U it)
    (hasc : out.Pairwise (fun a b => a.key < b.key)) (hne : it.curKey ≠ [])
    (hU : U it.curKey = false) (hout : it.curKey ∉ out.map Entry.key) :
    out.filter (fun e => U e.key) = seekList Entry.key out it.curKey := by
  rw [seekList_eq_filter hasc]
  apply List.filter_congr
  intro e he
  have hother : e.key ≠ it.curKey := fun hk => hout (hk ▸ List.mem_map_of_mem he)
  rw [Bool.eq_iff_iff,decide_eq_true_iff]
  constructor
  · intro hUe
    by_contra hlt
    have hcur := h.upper e.key it.curKey (not_le.mp hlt).le hUe
    rw [hU] at hcur
    cases hcur
  · intro hle
    exact h.behind hne e.key (lt_of_le_of_ne hle hother.symm)

/-- The top of the heap is behind a key that has been passed. -/
theorem Reached.repeatsKey {U : Bytes → Bool} (h : Reached I opt le L U it) (hheap : it.h ≠ [])
    (hU : U it.curKey = false) (hmem : it.curKey ∈ out.map Entry.key) :
    RepeatsKey out it it.curKey := by
  obtain ⟨i,hs,hh⟩ := List.exists_cons_of_ne_nil hheap
  have hi : i ∈ it.h := hh ▸ List.mem_cons_self
  obtain ⟨srcIt,e,rest,hent,hP,-⟩ := h.stands.feeds.live i hi
  have hUe : U e.key = true :=
    (List.mem_filter.mp (hP ▸ List.mem_cons_self : e ∈ within L U i)).2
  have hlt : it.curKey < e.key := by
    by_contra hle
    have hcur := h.upper e.key it.curKey (not_lt.mp hle) hUe
    rw [hU] at hcur
    cases hcur
  refine ⟨rfl,hmem,i,?_,e,?_,hlt⟩
  · rw [hh]
    rfl
  · rw [h.stands.feeds.entryAt hi,hP]
    rfl

theorem CursorAt.seek (hle : TakeOrder opt le) (hdup : ∀ d, opt.dupsort = some d →
      DupsortOrder d → ∀ a b, le a b → a.key = b.key → d a.key a.val b.val ≤ 0)
    (hmerge : opt.merge = some (alwaysMerges g))
    (hasc : ∀ i, (L i).Pairwise (fun a b => a.key < b.key))
    (hkeys : ∀ i, ∀ e ∈ L i, e.key ≠ []) (hout : Merged g none (allEntries L n) out)
    (hfuel : (allEntries L n).length+1 < fuel) (h : CursorAt I opt le L n fuel it rem) {k : Bytes}
    (hk : ¬ RepeatsKey out it k) :
    ∃ it', mergerIterSeek I fuel it k = .ok (true,it') ∧
      CursorAt I opt le L n fuel it' (seekList Entry.key out k) := by
  have hshort := Nat.lt_of_succ_lt hfuel
  obtain ⟨it',hrun,hreach,hcases⟩ := h.reaches.seek_cases hle hasc k hshort
  refine ⟨it',hrun,hreach,?_⟩
  rcases hcases with hat | ⟨rfl,hne,hheap,rfl,U,hU,hpassed⟩
  · rw [seekList_eq_filter hout.ascending]
    exact hat.stands.enumerates hle hdup hmerge hkeys hout hat.same hat.length hat.pending hat.empty
      hshort
  · -- the current key is none of the merge's, as the condition rules that out
    have hold : it.curKey ∉ out.map Entry.key := fun hmem => hk (hU.repeatsKey hheap hpassed hmem)
    rw [← hU.passed_key hout.ascending hne hpassed hold]
    exact hU.stands.enumerates hle hdup hmerge hkeys hout hU.same hreach.2 hU.pending
      (fun hfin => by cases hfin) hshort

theorem cursorAt_refines (hle : TakeOrder opt le) (hdup : ∀ d, opt.dupsort = some d →
      DupsortOrder d → ∀ a b, le a b → a.key = b.key → d a.key a.val b.val ≤ 0)
    (hmerge : opt.merge = some (alwaysMerges g))
    (hasc : ∀ i, (L i).Pairwise (fun a b => a.key < b.key))
    (hkeys : ∀ i, ∀ e ∈ L i, e.key ≠ []) (hout : Merged g none (allEntries L n) out)
    (hfuel : (allEntries L n).length+1 < fuel) :
    Refines Entry.key out (mergerIterOps I fuel) (repeatsNoKey out) (CursorAt I opt le L n fuel)
    where
  next _ _ h _ := h.next hle hmerge hkeys hfuel
  seek _ _ _ h hk := h.seek hle hdup hmerge hasc hkeys hout hfuel hk

end

/-- The source's full iterator obeys the seek law over these entries; without an entry it may be
NULL. -/
def SourceFollows {σ : Type} (I : Ops σ Entry Bytes) (s : Source σ) (E : List Entry) : Prop :=
  E.Pairwise (fun a b => a.key < b.key) ∧ (∀ e ∈ E, e.key ≠ []) ∧
    ∃ it, s.iter = .ok it ∧ (it = none ∧ E = [] ∨ Follows I E it E)

theorem SourceFollows.null {σ : Type} {I : Ops σ Entry Bytes} {s : Source σ} {E : List Entry}
    (h : SourceFollows I s E) (hnull : s.iter = .ok none) : E = [] := by
  obtain ⟨-,-,it,hiter,⟨-,hE⟩ | ⟨R,s0,rfl,-⟩⟩ := h
  · exact hE
  · cases hiter.symm.trans hnull

theorem seekList_all {es : List Entry} (hasc : es.Pairwise (fun a b => a.key < b.key)) :
    seekList Entry.key es [] = es := by
  rw [seekList_eq_filter hasc]
  exact List.filter_eq_self.mpr (fun e _ => decide_eq_true (not_lt.mp (List.not_lt_nil e.key)))

section
variable {σ : Type} {I : Ops σ Entry Bytes} {sources : List (Source σ)} {Es : List (List Entry)}

theorem sources_ascend (h : List.Forall₂ (SourceFollows I) sources Es) :
    ∀ E ∈ Es, E.Pairwise (fun a b => a.key < b.key) ∧ ∀ e ∈ E, e.key ≠ [] := by
  induction h with
  | nil => simp
  | cons hs _ ih => exact List.forall_mem_cons.mpr ⟨⟨hs.1,hs.2.1⟩,ih⟩

theorem sourcesFollow_iter (h : List.Forall₂ (SourceFollows I) sources Es) :
    SourcesFollow I Source.iter [] sources Es := by
  refine h.imp (fun s E hs => ?_)
  obtain ⟨hasc,hkeys,it,hiter,hit⟩ := hs
  refine ⟨hasc,hkeys,it,hiter,?_⟩
  rw [seekList_all hasc]
  exact hit.imp And.left id

theorem sourcesGive_follow (h : List.Forall₂ (SourceFollows I) sources Es) :
    SourcesGive (Enumerates (mtblIterNext I)) Source.iter sources Es := by
  refine h.imp (fun s E hs => ?_)
  obtain ⟨hasc,-,it,hiter,⟨rfl,rfl⟩ | hit⟩ := hs
  · exact ⟨gives_none hiter,hasc⟩
  · exact ⟨⟨it,hiter,hit.enumerates⟩,hasc⟩

end

/-- A merger over any number of sources that obey the seek law, with an associative and commutative
merge function: in every run of calls none of which seeks to the current key once that has been
passed, its full iterator answers as the plain cursor over the one merge of all entries. -/
theorem merger_follows_merge {σ : Type} (I : Ops σ Entry Bytes) (sources : List (Source σ))
    (Es : List (List Entry)) (hsources : List.Forall₂ (SourceFollows I) sources Es)
    (g : Bytes → Bytes → Bytes → Bytes) (hassoc : ∀ k, Std.Associative (g k))
    (hcomm : ∀ k, Std.Commutative (g k)) (dupsort : Option DupsortFunc) :
    ∃ it out, mergerIter I ⟨sources,some (alwaysMerges g),dupsort⟩ = .ok (some it) ∧
      Merged g none Es.flatten out ∧ ∀ fuel, Es.flatten.length+2 ≤ fuel → ∀ calls,
        (mergerIterOps I fuel).Guarded (repeatsNoKey out) it calls → ∃ it',
        (mergerIterOps I fuel).calls it calls =
          .ok ((plainCalls Entry.key out out calls).1,it') := by
  obtain ⟨le,hle,hdup⟩ := exists_takeOrder ⟨some (alwaysMerges g),dupsort⟩
  obtain ⟨it,taken,hrun,ht,hopt,hperm,hsorted⟩ := mergerIter_takes
    (m := ⟨sources,some (alwaysMerges g),dupsort⟩) hle (steps_enumerates (mtblIterNext I))
    (sourcesGive_follow hsources)
  obtain ⟨Ls,hb,hsub,hall⟩ := (Asks.iter hrun).building_all hle (sourcesFollow_iter hsources)
  have hflat : Ls.flatten = Es.flatten := by
    have h := hall (hsources.imp (fun s E hs => hs.null))
    have htrue : ∀ e : Entry, fromKey [] e.key = true := fun e =>
      decide_eq_true (not_lt.mp (List.not_lt_nil e.key))
    rwa [List.filter_eq_self.mpr (fun e _ => htrue e),
      List.filter_eq_self.mpr (fun e _ => htrue e)] at h
  have hmem := fun E hE => sources_ascend hsources E (hsub.subset hE)
  have hasc : ∀ i, (placed Ls i).Pairwise (fun a b => a.key < b.key) :=
    placed_mem (p := fun E => E.Pairwise (fun a b => a.key < b.key)) .nil
      (fun E hE => (hmem E hE).1)
  have hkeys : ∀ i, ∀ e ∈ placed Ls i, e.key ≠ [] :=
    placed_mem (p := fun E => ∀ e ∈ E, e.key ≠ []) (by simp) (fun E hE => (hmem E hE).2)
  have hne : ∀ e ∈ taken, e.key ≠ [] := by
    intro e he
    obtain ⟨E,hE,heE⟩ := List.mem_flatten.mp (hperm.mem_iff.mp he)
    exact (sources_ascend hsources E hE).2 e heE
  obtain ⟨out,hret,hfolded⟩ := exists_returned (hsorted.imp (hle.key_le _ _)) hne
    (fun e he => foldValues_isSome g he)
  have hout := (hfolded.merged hperm hsorted hdup).noDupsort
  refine ⟨it,out,hrun,hout,fun fuel hfuel calls hguard => ?_⟩
  have hentries := allEntries_placed Ls
  rw [hflat] at hentries
  have hreach : Reaches I ⟨some (alwaysMerges g),dupsort⟩ le (placed Ls) Ls.length it :=
    ⟨⟨_,hb.same,hb.stands,fromKey_upper [],fun hcur => absurd hb.noKey hcur,hb.pending⟩,hb.length⟩
  have ht' : TakesOpt I ⟨some (alwaysMerges g),dupsort⟩ taken (some it) := ⟨ht,hopt⟩
  have henum : Enumerates (mergerIterNext I fuel) it out :=
    enumerates_some (hret.enumerates ht' (by rw [hperm.length_eq]; omega))
  rw [← hentries] at hout hfuel
  obtain ⟨it',hcalls,-⟩ := (cursorAt_refines hle hdup rfl hasc hkeys hout (by omega)).calls
    ⟨hreach,henum⟩ calls hguard
  exact ⟨it',hcalls⟩

theorem carriedSource_follows {es : List Entry} (hasc : es.Pairwise (fun a b => a.key < b.key))
    (hkeys : ∀ e ∈ es, e.key ≠ []) : SourceFollows listOps (carriedSource es) es :=
  ⟨hasc,hkeys,some (es,es),rfl,.inr ⟨_,(es,es),rfl,listOps_refines es,rfl⟩⟩

/-- Two sources, forward past entries of both and back to the start. -/
theorem merger_follows_merge_two : ∃ it it',
    mergerIter listOps ⟨[carriedSource oddKeys,carriedSource lowKeys],
      some (alwaysMerges (fun _ => max)),none⟩ = .ok (some it) ∧
    (mergerIterOps listOps 8).calls it [.next,.next,.seek [4],.next,.seek [1],.next] =
      .ok ([.entry ⟨[1],[2]⟩,.entry ⟨[2],[2]⟩,.success,.entry ⟨[5],[2]⟩,.success,
        .entry ⟨[1],[2]⟩],it') := by
  have hassoc : ∀ k : Bytes, Std.Associative ((fun _ => max : Bytes → Bytes → Bytes → Bytes) k) :=
    fun _ => ⟨max_assoc⟩
  have hcomm : ∀ k : Bytes, Std.Commutative ((fun _ => max : Bytes → Bytes → Bytes → Bytes) k) :=
    fun _ => ⟨max_comm⟩
  obtain ⟨it,out,hrun,hout,hall⟩ := merger_follows_merge listOps
    [carriedSource oddKeys,carriedSource lowKeys] [oddKeys,lowKeys]
    (.cons (carriedSource_follows (by decide) (by decide))
      (.cons (carriedSource_follows (by decide) (by decide)) .nil)) (fun _ => max) hassoc hcomm none
  have hmerge : Merged (fun _ => max) none [oddKeys,lowKeys].flatten
      [⟨[1],[2]⟩,⟨[2],[2]⟩,⟨[3],[1]⟩,⟨[5],[2]⟩] := by
    refine ⟨by decide,fun k => ?_,fun e he => ?_⟩
    · simp [oddKeys,lowKeys]
      tauto
    · simp only [List.mem_cons,List.not_mem_nil,or_false] at he
      rcases he with rfl | rfl | rfl | rfl
      · exact ⟨[1],[[2]],.refl _,by decide,fun d hd => (by cases hd)⟩
      · exact ⟨[2],[],.refl _,by decide,fun d hd => (by cases hd)⟩
      · exact ⟨[1],[],.refl _,by decide,fun d hd => (by cases hd)⟩
      · exact ⟨[1],[[2]],.refl _,by decide,fun d hd => (by cases hd)⟩
  obtain rfl := hmerge.unique hout
  obtain ⟨it',hcalls⟩ := hall 8 (by decide) [.next,.next,.seek [4],.next,.seek [1],.next] (by
    obtain rfl := Option.some.inj (Except.ok.inj hrun)
    decide +kernel)
  exact ⟨it,it',hrun,hcalls⟩

end Mtbl
