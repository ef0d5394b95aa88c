import Mtbl.Merge.Position

/-! Where calls leave a merger iterator. `merger_iter_next` takes all entries of the first key; the two
branches of `merger_iter_seek` seek every source, or those that are behind the key. Whatever the calls,
the iterator stands at a set of keys that has every key behind the current one. -/
namespace Mtbl
open CRun Cursor HeapOrder

/-- The keys from `k` on. -/
def fromKey (k x : Bytes) : Bool := decide (k ≤ x)

/-- The keys behind `k`. -/
def behindKey (k x : Bytes) : Bool := decide (k < x)

section
variable {σ : Type} {I : Ops σ Entry Bytes} {opt : MergerOptions} {le : Entry → Entry → Prop}
  {L P : ℕ → List Entry} {U V : Bytes → Bool} {H H' : EntryHeap σ}

/-- An entry whose iterator over `E` has been sought to `k` and asked for an entry. -/
def soughtEntry (E : List Entry) (k : Bytes) (it : Option σ) (old : Option Entry) : MergerEntry σ :=
  ⟨(seekList Entry.key E k).head?.isNone,it,(seekList Entry.key E k).head?.or old⟩

/-- `mtbl_iter_seek` and `entry_fill` on one entry. -/
theorem entrySeekFill_spec {i : ℕ} {ent : MergerEntry σ} (hent : H.entries[i]? = some ent)
    {E rem : List Entry} (hfollows : Follows I E ent.it rem) (k : Bytes) :
    ∃ it, Follows I E it (seekList Entry.key E k).tail ∧ entrySeekFill I H i k =
      .ok ((seekList Entry.key E k).head?.isSome,
        ⟨H.h,H.entries.set i (soughtEntry E k it ent.ent)⟩) := by
  obtain ⟨it1,hseek,hfollows1⟩ := hfollows.seek k
  obtain ⟨it2,hnext,hfollows2⟩ := hfollows1.next
  have hlt := (List.getElem?_eq_some_iff.mp hent).1
  have hset : (H.entries.set i { ent with it := it1 })[i]? = some { ent with it := it1 } :=
    List.getElem?_set_self hlt
  refine ⟨it2,hfollows2,?_⟩
  cases hhead : (seekList Entry.key E k).head? <;>
    simp [entrySeekFill,ptrvecValue_ok hent,hseek,entryFillAt,ptrvecValue_ok hset,entryFill,hnext,
      hhead,soughtEntry]

/-! ### Every source anew -/

/-- The first `n` places have been sought, and those that found an entry are in the heap. -/
structure Resought (I : Ops σ Entry Bytes) (L : ℕ → List Entry) (k : Bytes) (n : ℕ)
    (H : EntryHeap σ) : Prop where
  heap : H.h = (List.range n).filter (fun j => (seekList Entry.key (L j) k).head?.isSome)
  found : ∀ j < n, ∃ it old, H.entries[j]? = some (soughtEntry (L j) k it old) ∧
    Follows I (L j) it (seekList Entry.key (L j) k).tail
  law : Lawful I L H

theorem Resought.step {k : Bytes} {n : ℕ} (h : Resought I L k n H) (hn : n < H.entries.length) :
    ∃ res H', entrySeekFill I H n k = .ok (res,H') ∧
      Resought I L k (n+1) (if res then { H' with h := heapAdd H'.h n } else H') ∧
      H'.entries.length = H.entries.length := by
  have hent : H.entries[n]? = some H.entries[n] := List.getElem?_eq_getElem hn
  obtain ⟨rem,hrem⟩ := h.law n _ hent
  obtain ⟨it,hit,hrun⟩ := entrySeekFill_spec hent hrem k
  refine ⟨_,_,hrun,?_,List.length_set⟩
  have hfound : ∀ j < n+1, ∃ it' old,
      (H.entries.set n (soughtEntry (L n) k it H.entries[n].ent))[j]? =
        some (soughtEntry (L j) k it' old) ∧
      Follows I (L j) it' (seekList Entry.key (L j) k).tail := by
    intro j hj
    rcases Nat.lt_succ_iff_lt_or_eq.mp hj with hlt | rfl
    · obtain ⟨it',old,hj',hf⟩ := h.found j hlt
      exact ⟨it',old,by rw [List.getElem?_set_ne hlt.ne',hj'],hf⟩
    · exact ⟨it,_,List.getElem?_set_self hn,hit⟩
  have hlaw : ∀ vec, Lawful I L ⟨vec,H.entries.set n (soughtEntry (L n) k it H.entries[n].ent)⟩ :=
    fun vec => @Lawful.set _ I L _ _ h.law n (soughtEntry (L n) k it H.entries[n].ent) _ hit rfl
  cases hhead : (seekList Entry.key (L n) k).head?.isSome
  · refine ⟨?_,hfound,hlaw _⟩
    simp [List.range_succ,hhead,h.heap]
  · refine ⟨?_,hfound,hlaw _⟩
    simp [List.range_succ,hhead,h.heap,heapAdd]

theorem reseekEntries_spec {k : Bytes} (n : ℕ) {i : ℕ} (h : Resought I L k i H)
    (hlen : i+n = H.entries.length) :
    ∃ H', reseekEntries I k n i H = .ok H' ∧ Resought I L k H.entries.length H' ∧
      H'.entries.length = H.entries.length := by
  induction n generalizing i H with
  | zero =>
    rw [Nat.add_zero] at hlen
    exact ⟨H,rfl,hlen ▸ h,rfl⟩
  | succ n ih =>
    obtain ⟨res,H1,hrun,hstep,hlen1⟩ := h.step (by omega)
    have hlen2 : (if res then { H1 with h := heapAdd H1.h i } else H1).entries.length =
        H.entries.length := by
      split <;> exact hlen1
    obtain ⟨H2,hrest,hdone,hlen3⟩ := ih hstep (by rw [hlen2]; omega)
    rw [hlen2] at hdone hlen3
    refine ⟨H2,?_,hdone,hlen3⟩
    simp only [reseekEntries,hrun,ok_bind,hrest]

/-- The backward branch leaves exactly the entries from the key on. -/
theorem seekAll_spec (hle : TakeOrder opt le)
    (hasc : ∀ i, (L i).Pairwise (fun a b => a.key < b.key)) (h : Lawful I L H) (k : Bytes) :
    ∃ H', seekAll I opt H k = .ok H' ∧ StandsAt I le L (fromKey k) H' ∧
      H'.entries.length = H.entries.length := by
  have hstart : Resought I L k 0 { H with h := heapClip H.h 0 } :=
    ⟨rfl,fun j hj => absurd hj (Nat.not_lt_zero j),h⟩
  obtain ⟨H1,hrun,hdone,hlen⟩ := reseekEntries_spec H.entries.length hstart (Nat.zero_add _)
  obtain ⟨vec,hheap,hord,hperm⟩ := heapHeapify_spec (hle.compares H1.entries) H1.h
  have hin : ∀ j, j ∈ vec ↔ j < H1.entries.length ∧ (seekList Entry.key (L j) k).head?.isSome := by
    intro j
    rw [hperm.mem_iff,hdone.heap,List.mem_filter,List.mem_range,hlen]
  have hwithin : ∀ j, within L (fromKey k) j = seekList Entry.key (L j) k :=
    fun j => (seekList_eq_filter (hasc j) k).symm
  refine ⟨{ H1 with h := vec },?_,⟨⟨?_,?_,?_,hord⟩,hdone.law,?_⟩,hlen⟩
  · simp only [seekAll,hrun,ok_bind,hheap,pure_eq_ok]
  · rw [hperm.nodup_iff,hdone.heap]
    exact List.nodup_range.filter _
  · intro j hj
    obtain ⟨hlt,hsome⟩ := (hin j).mp hj
    obtain ⟨it,old,hent,hit⟩ := hdone.found j (hlen ▸ hlt)
    rw [hwithin]
    cases hsl : seekList Entry.key (L j) k with
    | nil =>
      rw [hsl] at hsome
      cases hsome
    | cons e rest =>
      rw [soughtEntry,hsl] at hent
      rw [hsl] at hit
      exact ⟨it,e,rest,hent,rfl,hit.enumerates⟩
  · exact fun j _ => (hasc j).filter _
  · intro j hlt hout
    rw [hwithin]
    by_contra hne
    refine hout ((hin j).mpr ⟨hlt,?_⟩)
    rw [List.isSome_head?]
    exact hne

/-! ### Only the entries that are behind -/

/-- The entries still to come with keys before `k`. -/
def lagging (k : Bytes) (H : EntryHeap σ) (P : ℕ → List Entry) : List Entry :=
  (H.h.flatMap P).filter (fun e => decide (e.key < k))

theorem filter_fromKey_seekList {E : List Entry} (hE : E.Pairwise (fun a b => a.key < b.key))
    (k : Bytes) : (seekList Entry.key E k).filter (fun e => fromKey k e.key) =
      seekList Entry.key E k := by
  rw [seekList_eq_filter hE]
  exact List.filter_eq_self.mpr (fun e he => (List.mem_filter.mp he).2)

/-- The top entry is sought to the key and goes down the heap, or leaves it. -/
theorem Feeds.seek_top (hle : TakeOrder opt le) (h : Feeds (Enumerates (mtblIterNext I)) le H P)
    {i : ℕ} {hs : List ℕ} (htop : H.h = i::hs) {E rem : List Entry}
    (hE : E.Pairwise (fun a b => a.key < b.key)) {ent : MergerEntry σ}
    (hent : H.entries[i]? = some ent) (hfollows : Follows I E ent.it rem) (k : Bytes) :
    ∃ res H1 ent' H', entrySeekFill I H i k = .ok (res,H1) ∧
      (if res then replaceTop opt H1 i else popTop opt H1) = .ok H' ∧
      Feeds (Enumerates (mtblIterNext I)) le H' (Function.update P i (seekList Entry.key E k)) ∧
      H'.h.Perm (if seekList Entry.key E k = [] then hs else i::hs) ∧
      Follows I E ent'.it (seekList Entry.key E k).tail ∧ H'.entries = H.entries.set i ent' := by
  obtain ⟨it,hit,hrun⟩ := entrySeekFill_spec hent hfollows k
  cases hsl : seekList Entry.key E k with
  | nil =>
    rw [hsl] at hit hrun
    obtain ⟨vec,hpop,hfeeds,hperm⟩ := h.pop_top hle htop (soughtEntry E k it ent.ent)
    exact ⟨_,_,_,_,hrun,hpop,hfeeds,hperm,hit,rfl⟩
  | cons e rest =>
    have hasc : (e::rest).Pairwise (fun a b => a.key < b.key) := by
      rw [← hsl,seekList_eq_filter hE]
      exact hE.filter _
    have hfound : soughtEntry E k it ent.ent = ⟨false,it,some e⟩ := by
      rw [soughtEntry,hsl]
      rfl
    rw [hsl,hfound] at hrun
    rw [hsl] at hit
    obtain ⟨vec,hrep,hfeeds,hperm⟩ := h.replace_top hle htop hit.enumerates hasc
    exact ⟨_,_,⟨false,it,some e⟩,_,hrun,hrep,hfeeds,hperm,hit,rfl⟩

/-- Seeking the top takes away what it has behind the key, and that was its first entry at least. -/
theorem Feeds.lagging_seek {G : Option σ → List Entry → Prop} (h : Feeds G le H P) {i : ℕ} {hs : List ℕ}
    (htop : H.h = i::hs) {e : Entry} {rest : List Entry} (hP : P i = e::rest) {k : Bytes} (hk : e.key < k)
    {E : List Entry} (hE : E.Pairwise (fun a b => a.key < b.key)) {H' : EntryHeap σ}
    (hperm : H'.h.Perm (if seekList Entry.key E k = [] then hs else i::hs)) :
    (lagging k H' (Function.update P i (seekList Entry.key E k))).length < (lagging k H P).length := by
  have hnone : (seekList Entry.key E k).filter (fun e => decide (e.key < k)) = [] := by
    rw [List.filter_eq_nil_iff]
    intro x hx
    rw [seekList_eq_filter hE] at hx
    simpa using (List.mem_filter.mp hx).2
  have hleft := ((h.take_perm htop hperm).filter (fun e => decide (e.key < k))).length_eq
  rw [List.filter_append,hnone,List.nil_append] at hleft
  rw [lagging,hleft,lagging,htop,List.flatMap_cons,hP,List.cons_append,
    List.filter_cons_of_pos (by simpa using hk),List.filter_append,List.length_cons,
    List.length_append]
  omega

theorem seekForwardLoop_spec (hle : TakeOrder opt le)
    (hasc : ∀ i, (L i).Pairwise (fun a b => a.key < b.key)) {k : Bytes} (fuel : ℕ) (changed : Bool)
    {i : ℕ} {H : EntryHeap σ} {P : ℕ → List Entry}
    (hfeeds : Feeds (Enumerates (mtblIterNext I)) le H P) (hcov : Covers I L (fromKey k) H P)
    (hpeek : heapPeek H.h = some i) (hfuel : (lagging k H P).length < fuel) :
    ∃ changed' more H', seekForwardLoop I opt k fuel changed H i = .ok (changed',more,H') ∧
      StandsAt I le L (fromKey k) H' ∧ H'.entries.length = H.entries.length ∧
      (more = false → H'.h = []) ∧ (changed' = false → changed = false ∧ H' = H) := by
  induction fuel generalizing changed i H P with
  | zero => exact absurd hfuel (Nat.not_lt_zero _)
  | succ n ih =>
    obtain ⟨hs,htop⟩ : ∃ hs, H.h = i::hs := by
      cases hh : H.h with
      | nil => rw [hh] at hpeek; cases hpeek
      | cons j hs =>
        rw [hh] at hpeek
        exact ⟨hs,by rw [Option.some.inj hpeek]⟩
    have hi : i ∈ H.h := htop ▸ List.mem_cons_self ..
    obtain ⟨it,e,rest,hent,hP,-⟩ := hfeeds.live i hi
    have hkv : entryKeyVal H i = .ok e := by
      rw [entryKeyVal,hfeeds.entryAt hi,hP]
      rfl
    by_cases hk : e.key < k
    · obtain ⟨rem,hfollows⟩ := hcov.law i _ hent
      obtain ⟨res,H1,ent',H2,hseek,hfix,hfeeds2,hperm,hent',hentries⟩ :=
        hfeeds.seek_top hle htop (hasc i) hent hfollows k
      have hlen : H2.entries.length = H.entries.length := by rw [hentries,List.length_set]
      have hlaw := hcov.law.set hent' hentries
      have hwithin : (seekList Entry.key (L i) k).filter (fun e => fromKey k e.key) =
          within L (fromKey k) i := by
        rw [filter_fromKey_seekList (hasc i),seekList_eq_filter (hasc i)]
        rfl
      have hcov2 := hcov.step htop hlaw hlen hperm hwithin
      have hstep : seekForwardLoop I opt k (n+1) changed H i = (heapPeek H2.h).elim
          (.ok (true,false,H2)) (fun j => seekForwardLoop I opt k n true H2 j) := by
        have hpos : bytesCompare k e.key > 0 := (bytesCompare_pos _ _).mpr hk
        simp only [seekForwardLoop,hkv,ok_bind,hpos,if_true,hseek]
        cases res with
        | false =>
          rw [if_neg Bool.false_ne_true] at hfix ⊢
          simp only [hfix,ok_bind]
          cases heapPeek H2.h with
          | none => rfl
          | some j => rfl
        | true =>
          rw [if_pos rfl] at hfix ⊢
          simp only [hfix,ok_bind]
          cases heapPeek H2.h with
          | none => rfl
          | some j => rfl
      cases hpeek2 : heapPeek H2.h with
      | none =>
        have hempty : H2.h = [] := by
          cases hh : H2.h with
          | nil => rfl
          | cons j hs' => rw [hh] at hpeek2; cases hpeek2
        refine ⟨true,false,H2,by rw [hstep,hpeek2]; rfl,hcov2.standsAt hfeeds2 ?_,hlen,fun _ => hempty,
          (by simp)⟩
        rw [hempty]
        exact fun x hx => absurd hx List.not_mem_nil
      | some j =>
        have hfewer := hfeeds.lagging_seek htop hP hk (hasc i) hperm
        obtain ⟨changed',more,H3,hrun,hat,hlen3,hmore,hch⟩ :=
          ih true hfeeds2 hcov2 hpeek2 (by omega)
        refine ⟨changed',more,H3,?_,hat,hlen3.trans hlen,hmore,?_⟩
        · rw [hstep,hpeek2]
          exact hrun
        · intro h
          cases (hch h).1
    · refine ⟨changed,true,H,?_,hcov.standsAt hfeeds ?_,rfl,(by simp),fun h => ⟨h,rfl⟩⟩
      · have hnot : ¬ bytesCompare k e.key > 0 := fun h => hk ((bytesCompare_pos _ _).mp h)
        simp only [seekForwardLoop,hkv,ok_bind,hnot,if_false,pure_eq_ok]
      · -- the heap hands out the least key first
        intro x hx
        have hex := hfeeds.top_le hle htop (by rw [hP]; rfl) x hx
        exact decide_eq_true ((not_lt.mp hk).trans (hle.key_le e x hex))

/-! ### Where calls leave the iterator -/

/-- The loop sees no more of the heap than its live top. -/
theorem mergerIterNextLoop_congr {it : MergerIter σ} (fuel : ℕ)
    (hlive : liveTop it.opt it.toEntryHeap = liveTop it.opt H) :
    mergerIterNextLoop I fuel it = mergerIterNextLoop I fuel { it with toEntryHeap := H } := by
  cases fuel with
  | zero => rfl
  | succ n => simp only [mergerIterNextLoop,hlive]

variable {g : Bytes → Bytes → Bytes → Bytes}

/-- All entries with the current key are merged, and those behind it are left. -/
theorem mergerIterNextLoop_stands (hle : TakeOrder opt le)
    (hmerge : opt.merge = some (alwaysMerges g)) {m : Bytes} (hm : m ≠ []) (fuel : ℕ)
    {it : MergerIter σ} (hopt : it.opt = opt) (hcur : it.curKey = m) (hpend : it.pending = true)
    (hfeeds : Feeds (Enumerates (mtblIterNext I)) le it.toEntryHeap P)
    (hcov : Covers I L (behindKey m) it.toEntryHeap P)
    (hmin : ∀ x ∈ it.h.flatMap P, m ≤ x.key) (hfuel : (it.h.flatMap P).length < fuel) :
    ∃ it', mergerIterNextLoop I fuel it = .ok (.brk,it') ∧ it'.opt = opt ∧ it'.curKey = m ∧
      it'.pending = true ∧ StandsAt I le L (behindKey m) it'.toEntryHeap ∧
      it'.entries.length = it.entries.length := by
  induction fuel generalizing it P with
  | zero => exact absurd hfuel (Nat.not_lt_zero _)
  | succ n ih =>
    have hlive := @Feeds.liveTop σ opt le _ it.toEntryHeap P hfeeds
    cases hh : it.h with
    | nil =>
      rw [hh] at hlive
      refine ⟨{ it with finished := true },?_,hopt,hcur,hpend,hcov.standsAt hfeeds ?_,rfl⟩
      · simp [mergerIterNextLoop,hopt,hlive]
      · rw [hh]
        exact fun x hx => absurd hx List.not_mem_nil
    | cons i hs =>
      have hi : i ∈ it.h := hh ▸ List.mem_cons_self ..
      obtain ⟨srcIt,e,rest,hent,hP,-⟩ := hfeeds.live i hi
      rw [hh,List.head?_cons,Option.bind_some,hP,List.head?_cons,Option.map_some] at hlive
      have hall : it.h.flatMap P = e::(rest++hs.flatMap P) := by
        rw [hh,List.flatMap_cons,hP,List.cons_append]
      have hme : m ≤ e.key := hmin e (by rw [hall]; exact List.mem_cons_self)
      have hlen : m.length ≠ 0 := by rwa [Ne,List.length_eq_zero_iff]
      rcases hme.eq_or_lt with heq | hlt
      · -- one more value of the current key
        obtain ⟨H1,H2,hrun,hdrop,hfeeds2,hmoved,hperm⟩ :=
          hfeeds.take hle (steps_enumerates (mtblIterNext I)) hh hP
        have hleft := hfeeds.take_perm hh hperm
        have hrest : rest.filter (fun e => behindKey m e.key) = within L (behindKey m) i := by
          rw [← hcov.inside i hi,within,hP,List.filter_cons_of_neg (by simp [behindKey,heq])]
        have hlen2 : H2.entries.length = it.entries.length := by
          obtain ⟨_,_,_,-,-,hentries⟩ := hmoved
          rw [hentries,List.length_set]
        have hcov2 := hcov.step hh (hcov.law.moved hmoved) hlen2 hperm hrest
        obtain ⟨it',hloop,hopt',hcur',hpend',hat,hlen'⟩ := ih
          (show ({ it with toEntryHeap := H2, curVal := g m it.curVal e.val } : MergerIter σ).opt = opt
            from hopt) hcur hpend
          hfeeds2 hcov2
          (fun x hx => hmin x (by
            rw [hall]
            exact List.mem_cons_of_mem e (hleft.mem_iff.mp hx)))
          (by
            rw [hleft.length_eq]
            rw [hall,List.length_cons] at hfuel
            omega)
        refine ⟨it',?_,hopt',hcur',hpend',hat,hlen'.trans hlen2⟩
        rw [← hloop,← @mergerIterNextLoop_congr _ I _
          { it with toEntryHeap := H1, curVal := g m it.curVal e.val } n
          (by simp only [liveTop,hopt,hdrop])]
        have hsame : bytesCompare m e.key = 0 := by simp [heq]
        simp only [mergerIterNextLoop,hopt,hlive,ok_bind,hcur,if_neg hlen,hmerge,hsame,if_true,
          alwaysMerges,hrun]
      · refine ⟨it,?_,hopt,hcur,hpend,hcov.standsAt hfeeds ?_,rfl⟩
        · have hother : bytesCompare m e.key ≠ 0 := by simp [hlt.ne]
          subst hopt hcur
          simp only [mergerIterNextLoop,hlive,ok_bind,if_neg hlen,hmerge,if_neg hother,pure_eq_ok]
        · intro x hx
          have hex := hfeeds.top_le hle hh (by rw [hP]; rfl) x hx
          exact decide_eq_true (hlt.trans_le (hle.key_le e x hex))

/-- The iterator stands at a set of keys that has all keys behind the current one. -/
structure Reached (I : Ops σ Entry Bytes) (opt : MergerOptions) (le : Entry → Entry → Prop)
    (L : ℕ → List Entry) (U : Bytes → Bool) (it : MergerIter σ) : Prop where
  same : it.opt = opt
  stands : StandsAt I le L U it.toEntryHeap
  upper : ∀ x y, x ≤ y → U x = true → U y = true
  behind : it.curKey ≠ [] → ∀ x, it.curKey < x → U x = true
  pending : it.pending = false

/-- Some set, after any calls: the number of entries does not change. -/
def Reaches (I : Ops σ Entry Bytes) (opt : MergerOptions) (le : Entry → Entry → Prop)
    (L : ℕ → List Entry) (n : ℕ) (it : MergerIter σ) : Prop :=
  (∃ U, Reached I opt le L U it) ∧ it.entries.length = n

theorem behindKey_upper (k : Bytes) :
    ∀ x y, x ≤ y → behindKey k x = true → behindKey k y = true := by
  intro x y hxy hx
  exact decide_eq_true ((of_decide_eq_true hx).trans_le hxy)

theorem fromKey_upper (k : Bytes) : ∀ x y, x ≤ y → fromKey k x = true → fromKey k y = true := by
  intro x y hxy hx
  exact decide_eq_true ((of_decide_eq_true hx).trans hxy)

theorem Reached.next (hle : TakeOrder opt le) (hmerge : opt.merge = some (alwaysMerges g))
    (hkeys : ∀ i, ∀ e ∈ L i, e.key ≠ []) {it : MergerIter σ} (h : Reached I opt le L U it)
    {fuel : ℕ} (hfuel : (allEntries L it.entries.length).length+1 < fuel) :
    ∃ e it', mergerIterNext I fuel it = .ok (e,it') ∧ Reaches I opt le L it.entries.length it' := by
  cases hfin : it.finished with
  | true =>
    refine ⟨none,it,?_,⟨U,h⟩,rfl⟩
    simp [mergerIterNext,mergerIterAnswer,hfin,MergerAnswer.res]
  | false =>
    have hfeeds := h.stands.feeds
    have hlive := @Feeds.liveTop σ opt le _ it.toEntryHeap _ hfeeds
    obtain ⟨n,rfl⟩ := Nat.exists_eq_add_of_lt hfuel
    cases hh : it.h with
    | nil =>
      rw [hh] at hlive
      refine ⟨none,{ it with curKey := [], curVal := [], finished := true },?_,
        ⟨U,h.same,h.stands,h.upper,fun hne => absurd rfl hne,h.pending⟩,rfl⟩
      simp [mergerIterNext,mergerIterAnswer,hfin,mergerIterNextLoop,h.same,hlive,h.pending,
        MergerAnswer.res]
    | cons i hs =>
      have hi : i ∈ it.h := hh ▸ List.mem_cons_self ..
      obtain ⟨srcIt,e,rest,hent,hP,-⟩ := hfeeds.live i hi
      rw [hh,List.head?_cons,Option.bind_some,hP,List.head?_cons,Option.map_some] at hlive
      obtain ⟨H1,H2,hrun,hdrop,hfeeds2,hmoved,hperm⟩ :=
        hfeeds.take hle (steps_enumerates (mtblIterNext I)) hh hP
      have hleft := hfeeds.take_perm hh hperm
      have htop := hfeeds.top_le hle hh (by rw [hP]; rfl)
      obtain ⟨heL,heU⟩ : e ∈ L i ∧ U e.key = true := by
        have hmem : e ∈ within L U i := hP ▸ List.mem_cons_self ..
        exact ⟨(List.mem_filter.mp hmem).1,(List.mem_filter.mp hmem).2⟩
      have hcov := h.stands.covers (V := behindKey e.key)
        (fun x hx => h.upper e.key x (of_decide_eq_true hx).le heU)
      have hrest : rest.filter (fun a => behindKey e.key a.key) = within L (behindKey e.key) i := by
        rw [← hcov.inside i hi,within,hP,List.filter_cons_of_neg (by simp [behindKey])]
      have hlen2 : H2.entries.length = it.entries.length := by
        obtain ⟨_,_,_,-,-,hentries⟩ := hmoved
        rw [hentries,List.length_set]
      have hcov2 := hcov.step hh (hcov.law.moved hmoved) hlen2 hperm hrest
      have hall : it.h.flatMap (within L U) = e::(rest++hs.flatMap (within L U)) := by
        rw [hh,List.flatMap_cons,hP,List.cons_append]
      have hshort := h.stands.pending_length
      rw [hall,List.length_cons] at hshort
      obtain ⟨it',hloop,hopt',hcur',hpend',hat,hlen'⟩ := mergerIterNextLoop_stands hle hmerge
        (hkeys i e heL) ((allEntries L it.entries.length).length+1+n)
        (show ({ it with toEntryHeap := H2, curVal := e.val, curKey := e.key, pending := true } :
          MergerIter σ).opt = opt from h.same) rfl rfl hfeeds2 hcov2
        (fun x hx => hle.key_le e x (htop x (by
          rw [hall]
          exact List.mem_cons_of_mem e (hleft.mem_iff.mp hx))))
        (by rw [hleft.length_eq]; omega)
      rw [← @mergerIterNextLoop_congr _ I _
        { it with toEntryHeap := H1, curVal := e.val, curKey := e.key, pending := true } _ (by simp only [liveTop,h.same,hdrop])] at hloop
      refine ⟨some ⟨it'.curKey,it'.curVal⟩,{ it' with pending := false },?_,
        ⟨behindKey e.key,hopt',hat,behindKey_upper e.key,?_,rfl⟩,hlen'.trans hlen2⟩
      · have hfirst : mergerIterNextLoop I ((allEntries L it.entries.length).length+1+n+1)
            { it with curKey := [], curVal := [] } = .ok (.brk,it') := by
          rw [← hloop,mergerIterNextLoop]
          simp only [h.same,hlive,ok_bind,List.length_nil,if_true,hrun]
        simp only [mergerIterNext,mergerIterAnswer,if_neg (show ¬ it.finished = true by simp [hfin]),
          hfirst,ok_bind,hpend',if_true,MergerAnswer.res,pure_eq_ok]
      · exact fun _ x hx => decide_eq_true (hcur' ▸ hx)

/-- What a seek leaves, in the forward branch where no entry from the key on has been taken. -/
structure AtKey (I : Ops σ Entry Bytes) (opt : MergerOptions) (le : Entry → Entry → Prop)
    (L : ℕ → List Entry) (k : Bytes) (n : ℕ) (it : MergerIter σ) : Prop where
  same : it.opt = opt
  stands : StandsAt I le L (fromKey k) it.toEntryHeap
  length : it.entries.length = n
  pending : it.pending = false
  empty : it.finished = true → it.h = []

/-- After the backward branch, which runs where the heap is empty, where there is no current key and
where the key is before it. The current key stays as it was. -/
theorem Reached.seek_all (hle : TakeOrder opt le)
    (hasc : ∀ i, (L i).Pairwise (fun a b => a.key < b.key)) {it : MergerIter σ}
    (h : Reached I opt le L U it) {k : Bytes}
    (hcase : it.h = [] ∨ it.curKey = [] ∨ k < it.curKey) :
    ∃ H', seekAll I opt it.toEntryHeap k = .ok H' ∧
      Reaches I opt le L it.entries.length
        { it with toEntryHeap := H', finished := false, pending := false } ∧
      AtKey I opt le L k it.entries.length
        { it with toEntryHeap := H', finished := false, pending := false } := by
  obtain ⟨H',hrun,hat,hlen⟩ := seekAll_spec hle hasc h.stands.law k
  refine ⟨H',hrun,⟨?_,hlen⟩,h.same,hat,hlen,rfl,fun hfin => by cases hfin⟩
  rcases hcase with hempty | hnone | hback
  · -- nothing of the old set was left, so that it may be kept beside the new one
    have hsame : ∀ i < H'.entries.length,
        within L (fun x => U x || fromKey k x) i = within L (fromKey k) i := by
      intro i hi
      have hout := h.stands.outside i (hlen ▸ hi) (by rw [hempty]; exact List.not_mem_nil)
      refine List.filter_congr (fun x hx => ?_)
      have hU : U x.key = false := by simpa using List.filter_eq_nil_iff.mp hout x hx
      simp [hU]
    refine ⟨_,h.same,hat.congr hsame,fun x y hxy hx => ?_,fun hne x hx => ?_,rfl⟩
    · rcases (Bool.or_eq_true _ _).mp hx with hx | hx
      · simp [h.upper x y hxy hx]
      · simp [fromKey_upper k x y hxy hx]
    · simp [h.behind hne x hx]
  · exact ⟨fromKey k,h.same,hat,fromKey_upper k,fun hne => absurd hnone hne,rfl⟩
  · exact ⟨fromKey k,h.same,hat,fromKey_upper k,
      fun _ x hx => decide_eq_true (hback.le.trans hx.le),rfl⟩

theorem Reached.seek_forward (hle : TakeOrder opt le)
    (hasc : ∀ i, (L i).Pairwise (fun a b => a.key < b.key)) {it : MergerIter σ}
    (h : Reached I opt le L U it) {k : Bytes} {i : ℕ} (hpeek : heapPeek it.h = some i)
    (hk : U k = true) {fuel : ℕ} (hfuel : (allEntries L it.entries.length).length < fuel) :
    ∃ it', seekForward I fuel it i k = .ok it' ∧ Reaches I opt le L it.entries.length it' ∧
      AtKey I opt le L k it.entries.length it' := by
  have hcov := h.stands.covers (V := fromKey k) (fun x hx => h.upper k x (of_decide_eq_true hx) hk)
  have hshort : (lagging k it.toEntryHeap (within L U)).length < fuel :=
    ((List.length_filter_le _ _).trans h.stands.pending_length).trans_lt hfuel
  obtain ⟨changed,more,H',hrun,hat,hlen,hmore,hsame⟩ :=
    seekForwardLoop_spec hle hasc fuel false h.stands.feeds hcov hpeek hshort
  have hempty : (!more) = true → H'.h = [] := fun hm => hmore (by simpa using hm)
  cases changed with
  | true =>
    refine ⟨{ it with toEntryHeap := H', finished := !more, curVal := [], curKey := k },?_,
      ⟨⟨fromKey k,h.same,hat,fromKey_upper k,fun _ x hx => decide_eq_true hx.le,h.pending⟩,hlen⟩,
      h.same,hat,hlen,h.pending,hempty⟩
    simp only [seekForward,h.same,hrun,ok_bind,if_true,pure_eq_ok]
  | false =>
    obtain rfl := (hsame rfl).2
    refine ⟨{ it with finished := !more },?_,⟨⟨U,h.same,h.stands,h.upper,h.behind,h.pending⟩,rfl⟩,
      h.same,hat,rfl,h.pending,hempty⟩
    simp only [seekForward,h.same,hrun,ok_bind,Bool.false_eq_true,if_false,pure_eq_ok]

/-- All entries still to come are behind the key: the forward branch does nothing. -/
theorem Reached.seek_stays {it : MergerIter σ} (h : Reached I opt le L U it) {k : Bytes} {i : ℕ}
    (hpeek : heapPeek it.h = some i) (hk : ¬ U k = true) {fuel : ℕ} (hfuel : 0 < fuel) :
    seekForward I fuel it i k = .ok { it with finished := false } := by
  obtain ⟨n,rfl⟩ := Nat.exists_eq_add_of_lt hfuel
  have hi : i ∈ it.h := List.mem_of_getElem? hpeek
  obtain ⟨srcIt,e,rest,hent,hP,-⟩ := h.stands.feeds.live i hi
  have hkv : entryKeyVal it.toEntryHeap i = .ok e := by
    rw [entryKeyVal,h.stands.feeds.entryAt hi,hP]
    rfl
  have hU : U e.key = true := (List.mem_filter.mp (hP ▸ List.mem_cons_self .. : e ∈ within L U i)).2
  have hnot : ¬ bytesCompare k e.key > 0 := by
    intro hpos
    exact hk (h.upper e.key k ((bytesCompare_pos _ _).mp hpos).le hU)
  simp only [seekForward,seekForwardLoop,hkv,ok_bind,if_neg hnot,pure_eq_ok,Bool.false_eq_true,
    if_false,Bool.not_true]

/-- A seek stands at its key, or it asks for the current key, whose entries have all been taken, and
does nothing. -/
theorem Reaches.seek_cases (hle : TakeOrder opt le)
    (hasc : ∀ i, (L i).Pairwise (fun a b => a.key < b.key)) {n : ℕ} {it : MergerIter σ}
    (h : Reaches I opt le L n it) (k : Bytes) {fuel : ℕ} (hfuel : (allEntries L n).length < fuel) :
    ∃ it', mergerIterSeek I fuel it k = .ok (true,it') ∧ Reaches I opt le L n it' ∧
      (AtKey I opt le L k n it' ∨ k = it.curKey ∧ k ≠ [] ∧ it.h ≠ [] ∧
        it' = { it with finished := false, pending := false } ∧
        ∃ U, Reached I opt le L U it' ∧ U k = false) := by
  obtain ⟨⟨U,hU⟩,rfl⟩ := h
  have hU' : Reached I opt le L U { it with finished := false, pending := false } :=
    ⟨hU.same,hU.stands,hU.upper,hU.behind,rfl⟩
  cases hpeek : heapPeek it.h with
  | none =>
    have hempty : it.h = [] := by
      cases hh : it.h with
      | nil => rfl
      | cons j hs => rw [hh] at hpeek; cases hpeek
    obtain ⟨H',hrun,hreach,hat⟩ := hU.seek_all hle hasc (k := k) (.inl hempty)
    refine ⟨_,?_,hreach,.inl hat⟩
    simp only [mergerIterSeek,hpeek,hU.same,hrun,ok_bind,pure_eq_ok]
  | some i =>
    by_cases hback : it.curKey.length = 0 ∨ bytesCompare k it.curKey < 0
    · have hcase : it.h = [] ∨ it.curKey = [] ∨ k < it.curKey :=
        .inr (hback.imp List.length_eq_zero_iff.mp (bytesCompare_neg _ _).mp)
      obtain ⟨H',hrun,hreach,hat⟩ := hU.seek_all hle hasc hcase
      refine ⟨_,?_,hreach,.inl hat⟩
      simp only [mergerIterSeek,hpeek,if_pos hback,hU.same,hrun,ok_bind,pure_eq_ok]
    · by_cases hk : U k = true
      · obtain ⟨it',hrun,hreach,hat⟩ := hU'.seek_forward hle hasc hpeek hk hfuel
        refine ⟨it',?_,hreach,.inl hat⟩
        simp only [mergerIterSeek,hpeek,if_neg hback,hrun,ok_bind,pure_eq_ok]
      · have hrun := hU'.seek_stays hpeek hk (Nat.zero_lt_of_lt hfuel)
        have hcur : it.curKey ≠ [] := fun hnil => hback (.inl (by rw [hnil]; rfl))
        have hle' : it.curKey ≤ k := not_lt.mp (fun hlt => hback (.inr ((bytesCompare_neg _ _).mpr hlt)))
        have hsame : k = it.curKey :=
          (hle'.eq_or_lt.resolve_right (fun hlt => hk (hU.behind hcur k hlt))).symm
        have hne : it.h ≠ [] := List.ne_nil_of_mem (List.mem_of_getElem? hpeek)
        refine ⟨{ it with finished := false, pending := false },?_,⟨⟨U,hU'⟩,rfl⟩,
          .inr ⟨hsame,hsame ▸ hcur,hne,rfl,U,hU',Bool.eq_false_iff.mpr hk⟩⟩
        simp only [mergerIterSeek,hpeek,if_neg hback,hrun,ok_bind,pure_eq_ok]

theorem Reaches.seek (hle : TakeOrder opt le)
    (hasc : ∀ i, (L i).Pairwise (fun a b => a.key < b.key)) {n : ℕ} {it : MergerIter σ}
    (h : Reaches I opt le L n it) (k : Bytes) {fuel : ℕ} (hfuel : (allEntries L n).length < fuel) :
    ∃ it', mergerIterSeek I fuel it k = .ok (true,it') ∧ Reaches I opt le L n it' := by
  obtain ⟨it',hrun,hreach,-⟩ := h.seek_cases hle hasc k hfuel
  exact ⟨it',hrun,hreach⟩

/-- Whatever the calls. -/
theorem Reaches.calls (hle : TakeOrder opt le) (hmerge : opt.merge = some (alwaysMerges g))
    (hasc : ∀ i, (L i).Pairwise (fun a b => a.key < b.key))
    (hkeys : ∀ i, ∀ e ∈ L i, e.key ≠ []) {n : ℕ} {it : MergerIter σ}
    (h : Reaches I opt le L n it) {fuel : ℕ} (hfuel : (allEntries L n).length+1 < fuel)
    (calls : List (Call Bytes)) :
    ∃ answers it', (mergerIterOps I fuel).calls it calls = .ok (answers,it') ∧
      Reaches I opt le L n it' := by
  have hstep : ∀ s c, Reaches I opt le L n s → True → ∃ a s',
      (mergerIterOps I fuel).call s c = .ok (a,s') ∧ Reaches I opt le L n s' ∧ True := by
    intro s c hs _
    cases c with
    | next =>
      obtain ⟨⟨U,hU⟩,hlen⟩ := hs
      obtain ⟨e,s',hrun,hreach⟩ := hU.next hle hmerge hkeys (hlen ▸ hfuel)
      refine ⟨.ofNext e,s',?_,hlen ▸ hreach,trivial⟩
      simp only [Ops.call,mergerIterOps,hrun,ok_bind,pure_eq_ok]
    | seek k =>
      obtain ⟨s',hrun,hreach⟩ := hs.seek hle hasc k (Nat.lt_of_succ_lt hfuel)
      refine ⟨.ofSeek true,s',?_,hreach,trivial⟩
      simp only [Ops.call,mergerIterOps,hrun,ok_bind,pure_eq_ok]
  obtain ⟨answers,it',hrun,hreach,-⟩ := Ops.calls_all (mergerIterOps I fuel)
    (Reaches I opt le L n) (fun _ => True) (fun _ => True) hstep h calls (fun _ _ => trivial)
  exact ⟨answers,it',hrun,hreach⟩

end

end Mtbl
