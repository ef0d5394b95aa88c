import Mtbl.Merge.Reseek

/-! The forward branch of `merger_iter_seek` against the backward one. From any state that calls lead to,
a seek to a key behind the current one leaves both at the same place, and what is returned from there is
the merge of the same entries. -/
namespace Mtbl
open CRun Cursor HeapOrder

section
variable {σ : Type} {I : Ops σ Entry Bytes} {opt : MergerOptions} {le : Entry → Entry → Prop}
  {L : ℕ → List Entry} {g : Bytes → Bytes → Bytes → Bytes}

/-! ### New iterators -/

/-- The entries of the places, none beyond the last. -/
def placed (Ls : List (List Entry)) (i : ℕ) : List Entry := Ls.getD i []

theorem placed_append (Ls : List (List Entry)) (E : List Entry) :
    placed (Ls++[E]) = Function.update (placed Ls) Ls.length E := by
  funext i
  rcases lt_trichotomy i Ls.length with hlt | rfl | hgt
  · simp [placed,hlt.ne,List.getElem?_append_left hlt]
  · simp [placed]
  · rw [Function.update_of_ne hgt.ne']
    simp [placed,List.getElem?_eq_none hgt.le,List.getElem?_eq_none (l := Ls++[E]) (i := i)
      (by simpa using hgt)]

theorem allEntries_placed (Ls : List (List Entry)) :
    allEntries (placed Ls) Ls.length = Ls.flatten := by
  induction Ls using List.reverseRecOn with
  | nil => rfl
  | append_singleton Ls E ih =>
    rw [allEntries,List.length_append,List.length_singleton,List.range_succ,List.flatMap_append,
      placed_append,flatMap_update List.not_mem_range_self]
    simp only [List.flatMap_singleton,Function.update_self,List.flatten_append,
      List.flatten_singleton]
    rw [← ih]
    rfl

theorem placed_mem {Ls : List (List Entry)} {p : List Entry → Prop} (hnil : p [])
    (h : ∀ E ∈ Ls, p E) (i : ℕ) : p (placed Ls i) := by
  by_cases hi : i < Ls.length
  · simpa [placed,hi] using h _ (List.getElem_mem hi)
  · simpa [placed,hi] using hnil

/-- Each source answers the query with NULL, or with an iterator that obeys the seek law over
entries whose keys ascend strictly and are not empty, and stands at `k`. -/
abbrev SourcesFollow (I : Ops σ Entry Bytes) (query : Source σ → Run (Option σ)) (k : Bytes)
    (sources : List (Source σ)) (Ls : List (List Entry)) : Prop :=
  List.Forall₂ (fun s E => E.Pairwise (fun a b => a.key < b.key) ∧ (∀ e ∈ E, e.key ≠ []) ∧
    ∃ it, query s = .ok it ∧ (it = none ∨ Follows I E it (seekList Entry.key E k))) sources Ls

/-- An iterator under construction: it stands at the keys from `k` on in the sources so far. -/
structure Building (I : Ops σ Entry Bytes) (opt : MergerOptions) (le : Entry → Entry → Prop)
    (k : Bytes) (Ls : List (List Entry)) (it : MergerIter σ) : Prop where
  same : it.opt = opt
  stands : StandsAt I le (placed Ls) (fromKey k) it.toEntryHeap
  length : it.entries.length = Ls.length
  noKey : it.curKey = []
  pending : it.pending = false

theorem Building.add (hle : TakeOrder opt le) {k : Bytes} {Ls : List (List Entry)}
    {it : MergerIter σ} (h : Building I opt le k Ls it) {E : List Entry}
    (hE : E.Pairwise (fun a b => a.key < b.key)) {srcIt : Option σ}
    (hsrc : Follows I E srcIt (seekList Entry.key E k)) :
    ∃ it' Ls', mergerIterAddEntry I it srcIt = .ok it' ∧ Building I opt le k Ls' it' ∧
      (Ls' = Ls ∧ E.filter (fun e => fromKey k e.key) = [] ∨ Ls' = Ls++[E]) := by
  have hfilter := seekList_eq_filter hE k
  obtain ⟨H',P',hrun,hfeeds,-,hnone,hsome⟩ := @mergerIterAddEntry_spec _ I le _ _ it (h.same ▸ hle)
    (steps_enumerates (mtblIterNext I)) h.stands.feeds _ _ hsrc.enumerates (hfilter ▸ hE.filter _)
  cases hsl : seekList Entry.key E k with
  | nil =>
    rw [hnone hsl] at hrun
    exact ⟨it,Ls,hrun,h,.inl ⟨rfl,hfilter.symm.trans hsl⟩⟩
  | cons e rest =>
    obtain ⟨srcIt',hnext,hentries,hperm,rfl⟩ := hsome e rest hsl
    have hwithin : ∀ j, within (placed (Ls++[E])) (fromKey k) j =
        Function.update (within (placed Ls) (fromKey k)) Ls.length (seekList Entry.key E k) j := by
      intro j
      rw [within,placed_append,hfilter]
      rcases eq_or_ne j Ls.length with rfl | hne
      · simp [fromKey]
      · simp [hne,within]
    refine ⟨_,Ls++[E],hrun,⟨h.same,⟨?_,?_,?_⟩,?_,h.noKey,h.pending⟩,.inr rfl⟩
    · rw [← h.length] at hwithin
      exact hfeeds.congr (fun j _ => by rw [hwithin])
    · intro j ent hj
      rw [hentries] at hj
      rw [placed_append]
      rcases lt_trichotomy j it.entries.length with hlt | rfl | hgt
      · rw [List.getElem?_append_left hlt] at hj
        rw [Function.update_of_ne (h.length ▸ hlt.ne)]
        exact h.stands.law j ent hj
      · obtain ⟨it2,hnext2,hit2⟩ := hsrc.next
        obtain ⟨-,rfl⟩ := Prod.mk.inj (Except.ok.inj (hnext.symm.trans hnext2))
        rw [List.getElem?_concat_length] at hj
        obtain rfl := Option.some.inj hj
        rw [h.length,Function.update_self]
        exact ⟨_,hit2⟩
      · rw [List.getElem?_eq_none (by simpa using hgt)] at hj
        cases hj
    · intro j hlt hout
      rw [hperm.mem_iff,List.mem_append,List.mem_singleton,not_or] at hout
      rw [hentries,List.length_append,List.length_singleton] at hlt
      rw [hwithin,Function.update_of_ne (h.length ▸ hout.2)]
      exact h.stands.outside j (by omega) hout.1
    · rw [hentries,List.length_append,List.length_append,h.length]
      rfl

/-- The sources that are left out have nothing from the key on, unless they answer NULL. -/
theorem addQueries_building (hle : TakeOrder opt le) {query : Source σ → Run (Option σ)} {k : Bytes}
    {sources : List (Source σ)} {Es Ls : List (List Entry)} {it : MergerIter σ}
    (h : Building I opt le k Ls it) (hsources : SourcesFollow I query k sources Es) :
    ∃ it' Ls', addQueries I query it sources = .ok it' ∧ Building I opt le k (Ls++Ls') it' ∧
      Ls'.Sublist Es ∧ (List.Forall₂ (fun s E => query s = .ok none → E = []) sources Es →
        Ls'.flatten.filter (fun e => fromKey k e.key) =
          Es.flatten.filter (fun e => fromKey k e.key)) := by
  induction hsources generalizing Ls it with
  | nil => exact ⟨it,[],rfl,by rwa [List.append_nil],.slnil,fun _ => rfl⟩
  | @cons s E sources Es hs _ ih =>
    obtain ⟨hE,-,srcIt,hquery,hsrc⟩ := hs
    rcases hsrc with rfl | hsrc
    · obtain ⟨it',Ls',hrun,hb,hsub,hall⟩ := ih h
      refine ⟨it',Ls',by simp only [addQueries,hquery,ok_bind,hrun],hb,hsub.cons E,fun hnull => ?_⟩
      obtain ⟨hone,hrest⟩ := List.forall₂_cons.mp hnull
      rw [hone hquery,List.flatten_cons,List.nil_append]
      exact hall hrest
    · obtain ⟨it1,Ls1,hadd,hb1,hLs1⟩ := h.add hle hE hsrc
      obtain ⟨it2,Ls2,hrun,hb2,hsub,hall⟩ := ih hb1
      have hsome : ∃ s0, srcIt = some s0 := by
        obtain ⟨R,s0,hs0,-⟩ := hsrc
        exact ⟨s0,hs0⟩
      obtain ⟨s0,rfl⟩ := hsome
      have hqueries : addQueries I query it (s::sources) = .ok it2 := by
        simp only [addQueries,hquery,ok_bind,hadd,hrun]
      rcases hLs1 with ⟨rfl,hnone⟩ | rfl
      · refine ⟨it2,Ls2,hqueries,hb2,hsub.cons E,fun hnull => ?_⟩
        rw [List.flatten_cons,List.filter_append,hnone,List.nil_append]
        exact hall (List.forall₂_cons.mp hnull).2
      · refine ⟨it2,E::Ls2,hqueries,by rwa [List.append_assoc] at hb2,hsub.cons_cons E,
          fun hnull => ?_⟩
        simp only [List.flatten_cons,List.filter_append,hall (List.forall₂_cons.mp hnull).2]

/-- A new iterator of the merger, with the query of the sources behind it and the key where that
starts. -/
inductive Asks (I : Ops σ Entry Bytes) (m : Merger σ) :
    (Source σ → Run (Option σ)) → Bytes → MergerIter σ → Prop
  | iter {it : MergerIter σ} (h : mergerIter I m = .ok (some it)) : Asks I m Source.iter [] it
  | get {it : MergerIter σ} (k : Bytes) (h : mergerGet I m k = .ok (some it)) :
      Asks I m (fun s => s.getRange k k) k it
  | getPrefix {it : MergerIter σ} (p : Bytes) (h : mergerGetPrefix I m p = .ok (some it)) :
      Asks I m (fun s => s.getPrefix p) p it
  | getRange {it : MergerIter σ} (k0 k1 : Bytes) (h : mergerGetRange I m k0 k1 = .ok (some it)) :
      Asks I m (fun s => s.getRange k0 k1) k0 it

theorem Asks.added {m : Merger σ} {query : Source σ → Run (Option σ)} {k : Bytes}
    {it : MergerIter σ} (h : Asks I m query k it) :
    addQueries I query (mergerIterInit m) m.sources = .ok it := by
  have hquery : ∀ query : Source σ → Run (Option σ), mergerQuery I m query = .ok (some it) →
      addQueries I query (mergerIterInit m) m.sources = .ok it := by
    intro query hrun
    obtain ⟨it',hadd,hrest⟩ := bind_eq_ok.mp hrun
    have hsome := Except.ok.inj hrest
    split_ifs at hsome
    rw [hadd,Option.some.inj hsome]
  cases h with
  | iter h =>
    obtain ⟨it',hadd,hrest⟩ := bind_eq_ok.mp h
    rw [addIters_eq] at hadd
    rw [hadd,Option.some.inj (Except.ok.inj hrest)]
  | get k h => exact hquery _ h
  | getPrefix p h => exact hquery _ h
  | getRange k0 k1 h => exact hquery _ h

theorem Asks.building_all {m : Merger σ} {query : Source σ → Run (Option σ)} {k : Bytes}
    {Es : List (List Entry)} {it : MergerIter σ} (h : Asks I m query k it)
    (hle : TakeOrder m.opt le) (hsources : SourcesFollow I query k m.sources Es) :
    ∃ Ls, Building I m.opt le k Ls it ∧ Ls.Sublist Es ∧
      (List.Forall₂ (fun s E => query s = .ok none → E = []) m.sources Es →
        Ls.flatten.filter (fun e => fromKey k e.key) =
          Es.flatten.filter (fun e => fromKey k e.key)) := by
  have hstart : Building I m.opt le k [] (mergerIterInit m) :=
    ⟨rfl,⟨feeds_init m,fun i ent hi => by simp [mergerIterInit] at hi,
      fun i hi => absurd hi (Nat.not_lt_zero i)⟩,rfl,rfl,rfl⟩
  obtain ⟨it',Ls,hrun,hb,hsub,hall⟩ := addQueries_building hle hstart hsources
  obtain rfl := Except.ok.inj (h.added.symm.trans hrun)
  exact ⟨Ls,hb,hsub,hall⟩

theorem Asks.building {m : Merger σ} {query : Source σ → Run (Option σ)} {k : Bytes}
    {Es : List (List Entry)} {it : MergerIter σ} (h : Asks I m query k it)
    (hle : TakeOrder m.opt le) (hsources : SourcesFollow I query k m.sources Es) :
    ∃ Ls, Building I m.opt le k Ls it ∧ Ls.Sublist Es := by
  obtain ⟨Ls,hb,hsub,-⟩ := h.building_all hle hsources
  exact ⟨Ls,hb,hsub⟩

/-! ### What is returned from there -/

/-- Both iterators return the merge of these entries and then fail. -/
def ReturnAlike (I : Ops σ Entry Bytes) (fuel : ℕ) (g : Bytes → Bytes → Bytes → Bytes)
    (dupsort : Option DupsortFunc) (es : List Entry) (a b : MergerIter σ) : Prop :=
  ∃ outA outB, Enumerates (mtblIterNext (mergerIterOps I fuel)) (some a) outA ∧
    Enumerates (mtblIterNext (mergerIterOps I fuel)) (some b) outB ∧
    outA.map Entry.key = outB.map Entry.key ∧ Merged g dupsort es outA ∧ Merged g dupsort es outB

theorem Merged.keys_eq {dupsort : Option DupsortFunc} {es outA outB : List Entry}
    (ha : Merged g dupsort es outA) (hb : Merged g dupsort es outB) :
    outA.map Entry.key = outB.map Entry.key := by
  have hsorted : ∀ out, Merged g dupsort es out → (out.map Entry.key).Pairwise (· < ·) :=
    fun out h => List.pairwise_map.mpr h.ascending
  refine @List.Perm.eq_of_pairwise _ (· < ·) _ _ (fun x y _ _ hxy hyx => absurd hyx hxy.not_gt)
    (hsorted _ ha) (hsorted _ hb) ?_
  refine (List.perm_ext_iff_of_nodup ?_ ?_).mpr (fun k => (ha.keys k).trans (hb.keys k).symm)
  · exact (hsorted _ ha).imp ne_of_lt
  · exact (hsorted _ hb).imp ne_of_lt

/-- An iterator that stands at a set of keys returns the merge of the entries with these keys. -/
theorem StandsAt.returns (hle : TakeOrder opt le) (hdup : ∀ d, opt.dupsort = some d →
      DupsortOrder d → ∀ a b, le a b → a.key = b.key → d a.key a.val b.val ≤ 0)
    (hmerge : opt.merge = some (alwaysMerges g)) (hkeys : ∀ i, ∀ e ∈ L i, e.key ≠ [])
    {V : Bytes → Bool} {it : MergerIter σ} (h : StandsAt I le L V it.toEntryHeap)
    (hopt : it.opt = opt) (hpend : it.pending = false) (hempty : it.finished = true → it.h = [])
    {fuel : ℕ} (hfuel : (allEntries L it.entries.length).length < fuel) :
    ∃ out, Enumerates (mtblIterNext (mergerIterOps I fuel)) (some it) out ∧
      Merged g opt.dupsort
        ((allEntries L it.entries.length).filter (fun e => V e.key)) out := by
  have hpending := h.pending_perm
  obtain ⟨taken,hst,hperm,hsorted⟩ :=
    h.feeds.streams (I := I) hle (steps_enumerates (mtblIterNext I))
  have hall := hperm.trans hpending
  have htakes : Takes I it taken := by
    cases hfin : it.finished with
    | false =>
      refine .running hfin (hopt ▸ hst) (fun hp => ?_)
      rw [hpend] at hp
      cases hp
    | true =>
      rw [hempty hfin] at hperm
      obtain rfl := hperm.eq_nil
      exact .ended hfin
  have hne : ∀ e ∈ taken, e.key ≠ [] := by
    intro e he
    have hmem := (List.mem_filter.mp (hall.mem_iff.mp he)).1
    obtain ⟨i,-,hei⟩ := List.mem_flatMap.mp hmem
    exact hkeys i e hei
  obtain ⟨out,hret,hout⟩ := exists_returned (hsorted.imp (hle.key_le _ _)) hne
    (fun e he => foldValues_isSome g he)
  have ht : TakesOpt I opt taken (some it) := ⟨htakes,hopt⟩
  have hshort : taken.length < fuel := by
    rw [hall.length_eq]
    exact (List.length_filter_le _ _).trans_lt hfuel
  rw [← hmerge] at hret
  exact ⟨out,hret.enumerates ht hshort,hout.merged hall hsorted hdup⟩

theorem AtKey.returns (hle : TakeOrder opt le) (hdup : ∀ d, opt.dupsort = some d → DupsortOrder d →
      ∀ a b, le a b → a.key = b.key → d a.key a.val b.val ≤ 0)
    (hmerge : opt.merge = some (alwaysMerges g)) (hkeys : ∀ i, ∀ e ∈ L i, e.key ≠ []) {k : Bytes}
    {n : ℕ} {it : MergerIter σ} (h : AtKey I opt le L k n it) {fuel : ℕ}
    (hfuel : (allEntries L n).length < fuel) :
    ∃ out, Enumerates (mtblIterNext (mergerIterOps I fuel)) (some it) out ∧
      Merged g opt.dupsort ((allEntries L n).filter (fun e => fromKey k e.key)) out := by
  obtain ⟨hsame,hstands,rfl,hpend,hempty⟩ := h
  exact hstands.returns hle hdup hmerge hkeys hsame hpend hempty hfuel

end

/-- An iterator of a merger whose merge function always returns a value, over sources that obey the
seek law, after any calls: where a seek to a key behind the current one takes the forward branch, what
is returned from there on is the merge of the same entries as after seeking every source again. -/
theorem forward_seek_alike {σ : Type} (I : Ops σ Entry Bytes) (sources : List (Source σ))
    (Es : List (List Entry)) (query : Source σ → Run (Option σ)) (k0 : Bytes)
    (hsources : SourcesFollow I query k0 sources Es) (g : Bytes → Bytes → Bytes → Bytes)
    (dupsort : Option DupsortFunc) (it : MergerIter σ)
    (hit : Asks I ⟨sources,some (alwaysMerges g),dupsort⟩ query k0 it) :
    ∃ Ls : List (List Entry), Ls.Sublist Es ∧ ∀ fuel, Es.flatten.length+2 ≤ fuel → ∀ calls answers it1,
      (mergerIterOps I fuel).calls it calls = .ok (answers,it1) →
      ∀ i, heapPeek it1.h = some i → it1.curKey ≠ [] → ∀ k, it1.curKey < k →
      ∃ it2 H, seekForward I fuel { it1 with finished := false, pending := false } i k = .ok it2 ∧
        mergerIterSeek I fuel it1 k = .ok (true,it2) ∧
        seekAll I it1.opt it1.toEntryHeap k = .ok H ∧
        ReturnAlike I fuel g dupsort (Ls.flatten.filter (fun e => k ≤ e.key)) it2
          { it1 with toEntryHeap := H, finished := false, pending := false } := by
  obtain ⟨le,hle,hdup⟩ := exists_takeOrder ⟨some (alwaysMerges g),dupsort⟩
  obtain ⟨Ls,hb,hsub⟩ := hit.building hle hsources
  have hmem : ∀ E ∈ Ls, E.Pairwise (fun a b => a.key < b.key) ∧ ∀ e ∈ E, e.key ≠ [] := by
    intro E hE
    obtain ⟨hlen,hget⟩ := List.forall₂_iff_get.mp hsources
    obtain ⟨j,rfl⟩ := List.mem_iff_get.mp (hsub.subset hE)
    have hj := hget j (by rw [hlen]; exact j.isLt) j.isLt
    exact ⟨hj.1,hj.2.1⟩
  have hasc : ∀ i, (placed Ls i).Pairwise (fun a b => a.key < b.key) :=
    placed_mem (p := fun E => E.Pairwise (fun a b => a.key < b.key)) .nil
      (fun E hE => (hmem E hE).1)
  have hkeys : ∀ i, ∀ e ∈ placed Ls i, e.key ≠ [] :=
    placed_mem (p := fun E => ∀ e ∈ E, e.key ≠ []) (by simp) (fun E hE => (hmem E hE).2)
  have hreach : Reaches I ⟨some (alwaysMerges g),dupsort⟩ le (placed Ls) Ls.length it :=
    ⟨⟨_,hb.same,hb.stands,fromKey_upper k0,fun hne => absurd hb.noKey hne,hb.pending⟩,hb.length⟩
  refine ⟨Ls,hsub,fun fuel hfuel calls answers it1 hcalls i hpeek hcur k hk => ?_⟩
  have hall := allEntries_placed Ls
  have hshort := hsub.flatten.length_le
  have hbound : (allEntries (placed Ls) Ls.length).length+1 < fuel := by rw [hall]; omega
  obtain ⟨answers',it1',hcalls',hreach1⟩ := hreach.calls hle rfl hasc hkeys hbound calls
  obtain ⟨-,rfl⟩ := Prod.mk.inj (Except.ok.inj (hcalls.symm.trans hcalls'))
  obtain ⟨⟨U,hU⟩,hlen⟩ := hreach1
  have hU' : Reached I ⟨some (alwaysMerges g),dupsort⟩ le (placed Ls) U
      { it1 with finished := false, pending := false } :=
    ⟨hU.same,hU.stands,hU.upper,hU.behind,rfl⟩
  obtain ⟨it2,hfwd,-,hat2⟩ := hU'.seek_forward hle hasc hpeek (hU.behind hcur k hk)
    (show _ < fuel by rw [hlen]; omega)
  obtain ⟨H,hseekAll,hatH,hlenH⟩ := seekAll_spec hle hasc hU.stands.law k
  have hatAll : AtKey I ⟨some (alwaysMerges g),dupsort⟩ le (placed Ls) k Ls.length
      { it1 with toEntryHeap := H, finished := false, pending := false } :=
    ⟨hU.same,hatH,hlenH.trans hlen,rfl,fun h => by cases h⟩
  rw [hlen] at hat2
  obtain ⟨out2,henum2,hmerged2⟩ := hat2.returns hle hdup rfl hkeys (show _ < fuel by omega)
  obtain ⟨outH,henumH,hmergedH⟩ := hatAll.returns hle hdup rfl hkeys (show _ < fuel by omega)
  rw [hall] at hmerged2 hmergedH
  refine ⟨it2,H,hfwd,?_,hU.same ▸ hseekAll,out2,outH,henum2,henumH,hmerged2.keys_eq hmergedH,
    hmerged2,hmergedH⟩
  have hforward : ¬ (it1.curKey.length = 0 ∨ bytesCompare k it1.curKey < 0) := by
    rintro (hnil | hback)
    · exact hcur (List.length_eq_zero_iff.mp hnil)
    · exact absurd ((bytesCompare_neg _ _).mp hback) hk.not_gt
  simp only [mergerIterSeek,hpeek,if_neg hforward,hfwd,ok_bind,pure_eq_ok]

/-- A cursor over a list that it carries along. -/
def listOps : Ops (List Entry × List Entry) Entry Bytes where
  next s := .ok (s.2.head?,(s.1,s.2.tail))
  seek s k := .ok (true,(s.1,seekList Entry.key s.1 k))

def carriedSource (es : List Entry) : Source (List Entry × List Entry) :=
  ⟨.ok (some (es,es)),fun k => .ok (some (es,es.filter (fun e => e.key = k))),
    fun p => .ok (some (es,es.filter (fun e => p <+: e.key))),
    fun k0 k1 => .ok (some (es,es.filter (fun e => k0 ≤ e.key ∧ e.key ≤ k1)))⟩

theorem listOps_refines (es : List Entry) :
    Refines Entry.key es listOps (fun _ _ => True) (fun s rem => s = (es,rem)) where
  next := by
    rintro s rem rfl -
    exact ⟨_,rfl,rfl⟩
  seek := by
    rintro s rem k rfl -
    exact ⟨_,rfl,rfl⟩

theorem sourcesFollow_carried (ess : List (List Entry))
    (h : ∀ es ∈ ess, es.Pairwise (fun a b => a.key < b.key) ∧ ∀ e ∈ es, e.key ≠ []) :
    SourcesFollow listOps Source.iter [] (ess.map carriedSource) ess := by
  refine List.forall₂_map_left_iff.mpr (List.forall₂_same.mpr (fun es hes => ?_))
  refine ⟨(h es hes).1,(h es hes).2,some (es,es),rfl,.inr ⟨_,(es,es),rfl,listOps_refines es,?_⟩⟩
  have hall : seekList Entry.key es [] = es := by
    rw [seekList_eq_filter (h es hes).1]
    exact List.filter_eq_self.mpr (fun e _ => decide_eq_true (not_lt.mp (List.not_lt_nil e.key)))
  rw [hall]

def oddKeys : List Entry := [⟨[1],[1]⟩,⟨[3],[1]⟩,⟨[5],[1]⟩]

def lowKeys : List Entry := [⟨[1],[2]⟩,⟨[2],[2]⟩,⟨[5],[2]⟩]

/-- Two sources, from their first key to one that both of them have. -/
theorem forward_seek_alike_two : ∃ Ls : List (List Entry), ∃ it it1 answers it2 H,
    Ls.Sublist [oddKeys,lowKeys] ∧
    mergerIter listOps ⟨[carriedSource oddKeys,carriedSource lowKeys],
      some (alwaysMerges (fun _ a b => a++b)),none⟩ = .ok (some it) ∧
    (mergerIterOps listOps 10).calls it [.next] = .ok (answers,it1) ∧
    mergerIterSeek listOps 10 it1 [4] = .ok (true,it2) ∧
    seekAll listOps it1.opt it1.toEntryHeap [4] = .ok H ∧
    ReturnAlike listOps 10 (fun _ a b => a++b) none
      (Ls.flatten.filter (fun e => [4] ≤ e.key)) it2
      { it1 with toEntryHeap := H, finished := false, pending := false } := by
  obtain ⟨it,hit⟩ : ∃ it, mergerIter listOps ⟨[carriedSource oddKeys,carriedSource lowKeys],
      some (alwaysMerges (fun _ a b => a++b)),none⟩ = .ok (some it) := ⟨_,rfl⟩
  obtain ⟨Ls,hsub,hall⟩ := forward_seek_alike listOps [carriedSource oddKeys,carriedSource lowKeys]
    [oddKeys,lowKeys] Source.iter [] (sourcesFollow_carried [oddKeys,lowKeys] (by decide))
    (fun _ a b => a++b) none it (.iter hit)
  obtain rfl := Option.some.inj (Except.ok.inj hit)
  obtain ⟨it2,H,-,hseek,hreseek,halike⟩ := hall 10 (by decide) [.next] _ _ rfl _ rfl (by decide)
    [4] (by decide)
  exact ⟨Ls,_,_,_,it2,H,hsub,rfl,rfl,hseek,hreseek,halike⟩

end Mtbl
