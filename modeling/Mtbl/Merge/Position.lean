import Mathlib.Data.List.TakeWhile
import Mtbl.Merge.Complete

/-! Where a merger iterator stands in its sources. Every source iterator obeys the seek law over a
list of entries; the iterator stands at a set of keys, closed upwards, when exactly the entries with
these keys are still to come. -/
namespace Mtbl
open CRun Cursor HeapOrder

section
variable {σ : Type} {I : Ops σ Entry Bytes}

/-- The iterator obeys the seek law over `L`, and stands before the entries `rem`. -/
def Follows (I : Ops σ Entry Bytes) (L : List Entry) (it : Option σ) (rem : List Entry) : Prop :=
  ∃ R s, it = some s ∧ Refines Entry.key L I (fun _ _ => True) R ∧ R s rem

variable {L : List Entry} {it : Option σ} {rem : List Entry}

theorem Follows.next (h : Follows I L it rem) :
    ∃ it', mtblIterNext I it = .ok (rem.head?,it') ∧ Follows I L it' rem.tail := by
  obtain ⟨R,s,rfl,hlaw,hR⟩ := h
  obtain ⟨s',hnext,hR'⟩ := hlaw.next s rem hR trivial
  exact ⟨some s',by simp only [mtblIterNext,hnext,ok_bind,pure_eq_ok],R,s',rfl,hlaw,hR'⟩

theorem Follows.seek (h : Follows I L it rem) (k : Bytes) :
    ∃ it', mtblIterSeek I it k = .ok (true,it') ∧ Follows I L it' (seekList Entry.key L k) := by
  obtain ⟨R,s,rfl,hlaw,hR⟩ := h
  obtain ⟨s',hseek,hR'⟩ := hlaw.seek s rem k hR trivial
  exact ⟨some s',by simp only [mtblIterSeek,hseek,ok_bind,pure_eq_ok],R,s',rfl,hlaw,hR'⟩

theorem Follows.enumerates (h : Follows I L it rem) : Enumerates (mtblIterNext I) it rem :=
  enumerates_of_step (R := Follows I L) (fun _ _ hf => hf.next) h

theorem seekList_eq_filter (hL : L.Pairwise (fun a b => a.key < b.key)) (k : Bytes) :
    seekList Entry.key L k = L.filter (fun e => decide (k ≤ e.key)) := by
  have hall := takeWhile_seekList Entry.key L (k := k) (P := fun x => decide (k ≤ x))
    (Q := fun _ => true) hL (by simp) (fun _ _ _ _ _ => rfl)
  rwa [List.takeWhile_eq_self_iff.mpr (fun _ _ => rfl)] at hall

end

section
variable {σ : Type} {I : Ops σ Entry Bytes} {opt : MergerOptions} {le : Entry → Entry → Prop}
  {L P : ℕ → List Entry} {U V : Bytes → Bool} {H H' : EntryHeap σ}

/-- The entries of place `i` whose keys are in the set. -/
def within (L : ℕ → List Entry) (V : Bytes → Bool) (i : ℕ) : List Entry :=
  (L i).filter (fun e => V e.key)

/-- Every source iterator obeys its law, wherever it stands. -/
def Lawful (I : Ops σ Entry Bytes) (L : ℕ → List Entry) (H : EntryHeap σ) : Prop :=
  ∀ i ent, H.entries[i]? = some ent → ∃ rem, Follows I (L i) ent.it rem

/-- Of the entries with keys in the set none has been taken, although others may be still to
come. -/
structure Covers (I : Ops σ Entry Bytes) (L : ℕ → List Entry) (V : Bytes → Bool) (H : EntryHeap σ)
    (P : ℕ → List Entry) : Prop where
  law : Lawful I L H
  inside : ∀ i ∈ H.h, within P V i = within L V i
  outside : ∀ i < H.entries.length, i ∉ H.h → within L V i = []

/-- Exactly the entries with keys in the set are still to come. -/
structure StandsAt (I : Ops σ Entry Bytes) (le : Entry → Entry → Prop) (L : ℕ → List Entry)
    (V : Bytes → Bool) (H : EntryHeap σ) : Prop where
  feeds : Feeds (Enumerates (mtblIterNext I)) le H (within L V)
  law : Lawful I L H
  outside : ∀ i < H.entries.length, i ∉ H.h → within L V i = []

theorem Feeds.congr {G : Option σ → List Entry → Prop} {P' : ℕ → List Entry}
    (h : Feeds G le H P) (hP : ∀ i ∈ H.h, P' i = P i) : Feeds G le H P' where
  nodup := h.nodup
  live i hi := hP i hi ▸ h.live i hi
  ascending i hi := hP i hi ▸ h.ascending i hi
  ordered := h.ordered

theorem Feeds.place_lt {G : Option σ → List Entry → Prop} (h : Feeds G le H P) {i : ℕ}
    (hi : i ∈ H.h) : i < H.entries.length := by
  obtain ⟨it,e,rest,hent,-,-⟩ := h.live i hi
  exact (List.getElem?_eq_some_iff.mp hent).1

/-- Nothing outside the set is left. -/
theorem Covers.standsAt (h : Covers I L V H P)
    (hfeeds : Feeds (Enumerates (mtblIterNext I)) le H P)
    (hall : ∀ x ∈ H.h.flatMap P, V x.key = true) : StandsAt I le L V H where
  feeds := by
    refine hfeeds.congr (fun i hi => ?_)
    rw [← h.inside i hi]
    exact List.filter_eq_self.mpr (fun x hx => hall x (List.mem_flatMap.mpr ⟨i,hi,hx⟩))
  law := h.law
  outside := h.outside

/-- A set that is further on. -/
theorem StandsAt.covers (h : StandsAt I le L U H) (hVU : ∀ x, V x = true → U x = true) :
    Covers I L V H (within L U) where
  law := h.law
  inside i hi := by
    simp only [within,List.filter_filter]
    refine List.filter_congr (fun x _ => ?_)
    cases hV : V x.key
    · rfl
    · simp [hVU _ hV]
  outside i hi hout := by
    have hnone := h.outside i hi hout
    refine List.filter_eq_nil_iff.mpr (fun x hx hV => ?_)
    exact List.filter_eq_nil_iff.mp hnone x hx (hVU _ hV)

theorem StandsAt.congr (h : StandsAt I le L V H)
    (hUV : ∀ i < H.entries.length, within L U i = within L V i) : StandsAt I le L U H where
  feeds := h.feeds.congr (fun i hi => hUV i (h.feeds.place_lt hi))
  law := h.law
  outside i hi hout := (hUV i hi).trans (h.outside i hi hout)

/-! ### What is still to come -/

/-- All entries of the first `n` places. -/
def allEntries (L : ℕ → List Entry) (n : ℕ) : List Entry := (List.range n).flatMap L

theorem flatMap_perm_range {h : List ℕ} (hnodup : h.Nodup) {n : ℕ} (hlt : ∀ i ∈ h, i < n)
    (hout : ∀ i < n, i ∉ h → P i = []) : (h.flatMap P).Perm ((List.range n).flatMap P) := by
  have hfilter : ((List.range n).filter (· ∈ h)).Perm h := by
    refine (List.perm_ext_iff_of_nodup (List.nodup_range.filter _) hnodup).mpr (fun i => ?_)
    simpa using hlt i
  refine (hfilter.symm.flatMap_right P).trans ?_
  have hsame : ∀ l : List ℕ, (∀ i ∈ l, i < n) →
      (l.filter (· ∈ h)).flatMap P = l.flatMap P := by
    intro l
    induction l with
    | nil => exact fun _ => rfl
    | cons i l ih =>
      intro hl
      have hl' := ih (fun j hj => hl j (List.mem_cons_of_mem i hj))
      by_cases hi : i ∈ h
      · rw [List.filter_cons_of_pos (by simpa using hi),List.flatMap_cons,List.flatMap_cons,hl']
      · rw [List.filter_cons_of_neg (by simpa using hi),List.flatMap_cons,
          hout i (hl i List.mem_cons_self) hi,hl',List.nil_append]
  rw [hsame _ (fun i hi => List.mem_range.mp hi)]

/-- The entries still to come are those of all places with keys in the set. -/
theorem StandsAt.pending_perm (h : StandsAt I le L V H) :
    (H.h.flatMap (within L V)).Perm
      ((allEntries L H.entries.length).filter (fun e => V e.key)) := by
  have hperm := flatMap_perm_range h.feeds.nodup (fun i hi => h.feeds.place_lt hi) h.outside
  rw [allEntries,List.filter_flatMap]
  exact hperm

theorem StandsAt.pending_length (h : StandsAt I le L V H) :
    (H.h.flatMap (within L V)).length ≤ (allEntries L H.entries.length).length :=
  h.pending_perm.length_eq.trans_le (List.length_filter_le _ _)

/-! ### One place moves -/

theorem Lawful.set (h : Lawful I L H) {i : ℕ} {ent : MergerEntry σ} {rem : List Entry}
    (hent : Follows I (L i) ent.it rem) (hentries : H'.entries = H.entries.set i ent) :
    Lawful I L H' := by
  intro j ent' hj
  rw [hentries] at hj
  rcases eq_or_ne i j with rfl | hne
  · by_cases hlt : i < H.entries.length
    · rw [List.getElem?_set_self hlt] at hj
      obtain rfl := Option.some.inj hj
      exact ⟨rem,hent⟩
    · rw [List.set_eq_of_length_le (not_lt.mp hlt)] at hj
      exact h i ent' hj
  · rw [List.getElem?_set_ne hne] at hj
    exact h j ent' hj

theorem Lawful.moved (h : Lawful I L H) {i : ℕ} (hm : MovedOn I i H H') : Lawful I L H' := by
  obtain ⟨ent,ent',e,hi,hnext,hentries⟩ := hm
  obtain ⟨rem,hent⟩ := h i ent hi
  obtain ⟨it',hnext',hent'⟩ := hent.next
  obtain ⟨-,hit⟩ := Prod.mk.inj (Except.ok.inj (hnext.symm.trans hnext'))
  rw [← hit] at hent'
  exact h.set hent' hentries

/-- The top place goes on to other entries with the same ones in the set, or leaves the heap. -/
theorem Covers.step (h : Covers I L V H P) {i : ℕ} {hs : List ℕ} (htop : H.h = i::hs)
    (law : Lawful I L H') (hlen : H'.entries.length = H.entries.length)
    {rest : List Entry} (hperm : H'.h.Perm (if rest = [] then hs else i::hs))
    (hrest : rest.filter (fun e => V e.key) = within L V i) :
    Covers I L V H' (Function.update P i rest) where
  law := law
  inside j hj := by
    rcases eq_or_ne j i with rfl | hne
    · rw [within,Function.update_self,hrest]
    · have hmem : j ∈ H.h := by
        rw [htop]
        have := hperm.mem_iff.mp hj
        split_ifs at this
        · exact List.mem_cons_of_mem i this
        · exact this
      rw [within,Function.update_of_ne hne,← h.inside j hmem,within]
  outside j hlt hout := by
    rw [hlen] at hlt
    by_cases hj : j ∈ H.h
    · have hji : j = i ∧ rest = [] := by
        rw [hperm.mem_iff] at hout
        rw [htop] at hj
        split_ifs at hout with hnil
        · rcases List.mem_cons.mp hj with hji | hjhs
          · exact ⟨hji,hnil⟩
          · exact absurd hjhs hout
        · exact absurd hj hout
      rw [hji.1,← hrest,hji.2]
      rfl
    · exact h.outside j hlt hj

end

end Mtbl
