import Mtbl.File.Source
import Mtbl.Merge.Merged

/-! What a fresh merger iterator returns: the merge of its sources. -/
namespace Mtbl
open CRun Cursor

/-! ### The sources of a query -/

section
variable {σ : Type} {I : Ops σ Entry Bytes} {sources : List (Source σ)} {ess : List (List Entry)}

/-- Sources that each select by `p` give the selection of their union. -/
theorem sourcesGive_filter {query : Source σ → Run (Option σ)} {p : Entry → Bool}
    (hquery : ∀ s es, Source.Holds I s es → Gives I (query s) (es.filter p))
    (h : List.Forall₂ (Source.Holds I) sources ess) :
    SourcesGive (Enumerates (mtblIterNext I)) query sources (ess.map (List.filter p)) := by
  refine List.forall₂_map_right_iff.mpr (h.imp (fun s es hs => ⟨hquery s es hs,?_⟩))
  exact hs.ascending.filter _

theorem sourcesGive_iter (h : List.Forall₂ (Source.Holds I) sources ess) :
    SourcesGive (Enumerates (mtblIterNext I)) Source.iter sources ess :=
  h.imp (fun _ _ hs => ⟨hs.iter,hs.ascending⟩)

/-- The heap's order, which sorts the values of a key where the dupsort function can. -/
theorem exists_takeOrder (opt : MergerOptions) :
    ∃ le, TakeOrder opt le ∧ ∀ d, opt.dupsort = some d → DupsortOrder d →
      ∀ a b, le a b → a.key = b.key → d a.key a.val b.val ≤ 0 := by
  by_cases h : ∃ d, opt.dupsort = some d ∧ DupsortOrder d
  · obtain ⟨d,hopt,hd⟩ := h
    refine ⟨_,takeOrder_dupsort hopt hd,fun d' hd' _ a b hab hk => ?_⟩
    obtain rfl := Option.some.inj (hopt.symm.trans hd')
    rcases hab with hlt | ⟨-,hle⟩
    · exact absurd hk hlt.ne
    · exact hle
  · exact ⟨_,takeOrder_key opt,fun d hd hord => absurd ⟨d,hd,hord⟩ h⟩

end

/-! ### The reference merge -/

/-- The union of the entries: each key once, in ascending order, with a left fold of the merge
function over exactly its values, in dupsort order where that is a total preorder. -/
structure Merged (g : Bytes → Bytes → Bytes → Bytes) (dupsort : Option DupsortFunc)
    (es out : List Entry) : Prop where
  ascending : out.Pairwise (fun a b => a.key < b.key)
  keys : ∀ k, k ∈ out.map Entry.key ↔ k ∈ es.map Entry.key
  value : ∀ e ∈ out, ∃ v vs, (v::vs).Perm (valuesOf e.key es) ∧ e.val = vs.foldl (g e.key) v ∧
    ∀ d, dupsort = some d → DupsortOrder d → (v::vs).Pairwise (fun a b => d e.key a b ≤ 0)

/-- The merge function that always returns a value. -/
def alwaysMerges (g : Bytes → Bytes → Bytes → Bytes) : MergeFunc := fun k a b => some (g k a b)

theorem foldValues_alwaysMerges (g : Bytes → Bytes → Bytes → Bytes) (k v : Bytes)
    (vs : List Bytes) : foldValues (alwaysMerges g) k (v::vs) = some (vs.foldl (g k) v) :=
  List.foldlM_pure (m := Option)

/-- Every key has a value, so its values fold. -/
theorem foldValues_isSome (g : Bytes → Bytes → Bytes → Bytes) {es : List Entry} {e : Entry}
    (he : e ∈ es) : (foldValues (alwaysMerges g) e.key (valuesOf e.key es)).isSome := by
  have hmem : e.val ∈ valuesOf e.key es :=
    List.mem_map_of_mem (List.mem_filter.mpr ⟨he,by simp⟩)
  cases hvals : valuesOf e.key es with
  | nil => rw [hvals] at hmem; cases hmem
  | cons v vs => rw [foldValues_alwaysMerges]; rfl

theorem Folded.merged {g : Bytes → Bytes → Bytes → Bytes} {dupsort : Option DupsortFunc}
    {le : Entry → Entry → Prop} {taken es out : List Entry} (h : Folded (alwaysMerges g) taken out)
    (hperm : taken.Perm es) (hsorted : taken.Pairwise le)
    (hle : ∀ d, dupsort = some d → DupsortOrder d →
      ∀ a b, le a b → a.key = b.key → d a.key a.val b.val ≤ 0) : Merged g dupsort es out where
  ascending := h.ascending
  keys k := (h.keys k).trans (hperm.map Entry.key).mem_iff
  value e he := by
    have hfold := h.value e he
    cases hvals : valuesOf e.key taken with
    | nil =>
      rw [hvals] at hfold
      cases hfold
    | cons v vs =>
      rw [hvals,foldValues_alwaysMerges] at hfold
      refine ⟨v,vs,?_,(Option.some.inj hfold).symm,fun d hd hord => ?_⟩
      · rw [← hvals]
        exact (hperm.filter _).map _
      · rw [← hvals,valuesOf,List.pairwise_map]
        refine (hsorted.filter _).imp_of_mem (fun {a b} ha hb hab => ?_)
        have hka : a.key = e.key := of_decide_eq_true (List.mem_filter.mp ha).2
        have hkb : b.key = e.key := of_decide_eq_true (List.mem_filter.mp hb).2
        exact hka ▸ hle d hd hord a b hab (hka.trans hkb.symm)

/-- The query makes an iterator that returns the merge of these entries and then fails, if it has
fuel enough. -/
def GivesMerged {σ : Type} (I : Ops σ Entry Bytes) (g : Bytes → Bytes → Bytes → Bytes)
    (dupsort : Option DupsortFunc) (query : Run (Option (MergerIter σ))) (es : List Entry) : Prop :=
  ∃ out, Merged g dupsort es out ∧ ∃ n, ∀ fuel, n ≤ fuel → Gives (mergerIterOps I fuel) query out

section
variable {σ : Type} {I : Ops σ Entry Bytes} {m : Merger σ} {ess : List (List Entry)}
  {g : Bytes → Bytes → Bytes → Bytes}

theorem takes_givesMerged {query : Run (Option (MergerIter σ))} {it : Option (MergerIter σ)}
    {le : Entry → Entry → Prop} {taken es : List Entry} (hrun : query = .ok it)
    (ht : TakesOpt I m.opt taken it) (hmerge : m.opt.merge = some (alwaysMerges g))
    (hle : TakeOrder m.opt le) (hdup : ∀ d, m.opt.dupsort = some d → DupsortOrder d →
      ∀ a b, le a b → a.key = b.key → d a.key a.val b.val ≤ 0)
    (hperm : taken.Perm es) (hsorted : taken.Pairwise le) (hkeys : ∀ e ∈ es, e.key ≠ []) :
    GivesMerged I g m.opt.dupsort query es := by
  obtain ⟨out,hret,hout⟩ := exists_returned (hsorted.imp (hle.key_le _ _))
    (fun e he => hkeys e (hperm.mem_iff.mp he)) (fun e he => foldValues_isSome g he)
  rw [← hmerge] at hret
  exact ⟨out,hout.merged hperm hsorted hdup,taken.length+1,
    fun fuel hfuel => ⟨it,hrun,hret.enumerates ht hfuel⟩⟩

theorem mergerIter_givesMerged (hsources : List.Forall₂ (Source.Holds I) m.sources ess)
    (hkeys : ∀ e ∈ ess.flatten, e.key ≠ []) (hmerge : m.opt.merge = some (alwaysMerges g)) :
    GivesMerged I g m.opt.dupsort (mergerIter I m) ess.flatten := by
  obtain ⟨le,hle,hdup⟩ := exists_takeOrder m.opt
  obtain ⟨it,taken,hrun,ht,hopt,hperm,hsorted⟩ := mergerIter_takes hle
    (steps_enumerates (mtblIterNext I)) (sourcesGive_iter hsources)
  exact takes_givesMerged hrun ⟨ht,hopt⟩ hmerge hle hdup hperm hsorted hkeys

/-- A bounded query of the merger that passes a query selecting by `p` on to its sources. -/
theorem mergerQuery_givesMerged {query : Source σ → Run (Option σ)} {p : Entry → Bool}
    (hquery : ∀ s es, Source.Holds I s es → Gives I (query s) (es.filter p))
    (hsources : List.Forall₂ (Source.Holds I) m.sources ess)
    (hkeys : ∀ e ∈ ess.flatten, e.key ≠ []) (hmerge : m.opt.merge = some (alwaysMerges g)) :
    GivesMerged I g m.opt.dupsort (mergerQuery I m query) (ess.flatten.filter p) := by
  obtain ⟨le,hle,hdup⟩ := exists_takeOrder m.opt
  obtain ⟨it,taken,hrun,ht,hperm,hsorted⟩ := mergerQuery_takes hle
    (steps_enumerates (mtblIterNext I)) (sourcesGive_filter hquery hsources)
  rw [← List.filter_flatten] at hperm
  exact takes_givesMerged hrun ht hmerge hle hdup hperm hsorted
    (fun e he => hkeys e (List.mem_filter.mp he).1)

end

/-- A merger over sources of strictly ascending non-empty keys, whose merge function always returns
a value: each query returns the merge of what it selects from the union of the sources. -/
theorem merger_merges {σ : Type} (I : Ops σ Entry Bytes) (sources : List (Source σ))
    (ess : List (List Entry)) (hsources : List.Forall₂ (Source.Holds I) sources ess)
    (hkeys : ∀ e ∈ ess.flatten, e.key ≠ []) (g : Bytes → Bytes → Bytes → Bytes)
    (dupsort : Option DupsortFunc) :
    GivesMerged I g dupsort (mergerIter I ⟨sources,some (alwaysMerges g),dupsort⟩) ess.flatten ∧
    (∀ k, GivesMerged I g dupsort (mergerGet I ⟨sources,some (alwaysMerges g),dupsort⟩ k)
      (ess.flatten.filter (fun e => e.key = k))) ∧
    (∀ p, GivesMerged I g dupsort (mergerGetPrefix I ⟨sources,some (alwaysMerges g),dupsort⟩ p)
      (ess.flatten.filter (fun e => p <+: e.key))) ∧
    (∀ k0 k1, GivesMerged I g dupsort
      (mergerGetRange I ⟨sources,some (alwaysMerges g),dupsort⟩ k0 k1)
      (ess.flatten.filter (fun e => k0 ≤ e.key ∧ e.key ≤ k1))) := by
  refine ⟨?_,fun k => ?_,fun p => ?_,fun k0 k1 => ?_⟩
  · exact mergerIter_givesMerged (m := ⟨sources,some (alwaysMerges g),dupsort⟩) hsources hkeys rfl
  · have hsame : ∀ e : Entry, decide (e.key = k) = decide (k ≤ e.key ∧ e.key ≤ k) :=
      fun e => decide_eq_decide.mpr ⟨fun h => ⟨h.ge,h.le⟩,fun h => le_antisymm h.2 h.1⟩
    simp only [hsame]
    exact mergerQuery_givesMerged (m := ⟨sources,some (alwaysMerges g),dupsort⟩)
      (fun s es hs => hs.getRange k k) hsources hkeys rfl
  · exact mergerQuery_givesMerged (m := ⟨sources,some (alwaysMerges g),dupsort⟩)
      (fun s es hs => hs.getPrefix p) hsources hkeys rfl
  · exact mergerQuery_givesMerged (m := ⟨sources,some (alwaysMerges g),dupsort⟩)
      (fun s es hs => hs.getRange k0 k1) hsources hkeys rfl

/-- Two files with one key in common. -/
theorem merger_merges_two : ∃ file1 file2 r1 r2,
    Produced storingCodec file1 [⟨[1],[10]⟩,⟨[2],[20]⟩] ∧
    Produced storingCodec file2 [⟨[1],[11]⟩] ∧
    mtblReaderInitFd storingCodec file1 ⟨true⟩ = .ok (some r1) ∧
    mtblReaderInitFd storingCodec file2 ⟨true⟩ = .ok (some r2) ∧
    GivesMerged (readerOps storingCodec) (fun _ a b => a++b) none
      (mergerIter (readerOps storingCodec)
        ⟨[mtblReaderSource storingCodec r1,mtblReaderSource storingCodec r2],
          some (alwaysMerges (fun _ a b => a++b)),none⟩)
      [⟨[1],[10]⟩,⟨[2],[20]⟩,⟨[1],[11]⟩] := by
  obtain ⟨file1,r1,hfile1,hopen1,hsource1⟩ := exists_source storingCodec
    [⟨[1],[10]⟩,⟨[2],[20]⟩] (by decide) (by decide +kernel)
  obtain ⟨file2,r2,hfile2,hopen2,hsource2⟩ := exists_source storingCodec
    [⟨[1],[11]⟩] (by decide) (by decide +kernel)
  have hsources : List.Forall₂ (Source.Holds (readerOps storingCodec))
      [mtblReaderSource storingCodec r1,mtblReaderSource storingCodec r2]
      [[⟨[1],[10]⟩,⟨[2],[20]⟩],[⟨[1],[11]⟩]] := .cons hsource1 (.cons hsource2 .nil)
  exact ⟨file1,file2,r1,r2,hfile1,hfile2,hopen1,hopen2,
    (merger_merges (readerOps storingCodec) _ _ hsources (by decide) (fun _ a b => a++b) none).1⟩

end Mtbl
