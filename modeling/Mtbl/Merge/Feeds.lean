import Mtbl.Merge.Merger

/-! What the heap of a merger iterator hands out. As long as every source gives its entries in
ascending order, taking the top entry and refilling it from its source yields all pending entries
of all sources, sorted. -/
namespace Mtbl
open CRun Cursor HeapOrder

/-! ### The order of the heap -/

/-- The order that the comparison goes by. It refines the order of the keys. -/
structure TakeOrder (opt : MergerOptions) (le : Entry → Entry → Prop) : Prop
    extends Compares (entryCompare opt) le where
  key_le : ∀ a b, le a b → a.key ≤ b.key

theorem entryCompare_of_key_lt {opt : MergerOptions} {a b : Entry} (h : a.key < b.key) :
    entryCompare opt a b < 0 := by
  have hlt := (bytesCompare_neg a.key b.key).mpr h
  unfold entryCompare
  cases opt.dupsort with
  | none => exact hlt
  | some dupsort => simp only [hlt.ne,if_false,hlt]

theorem entryCompare_of_key_gt {opt : MergerOptions} {a b : Entry} (h : b.key < a.key) :
    0 < entryCompare opt a b := by
  have hlt := (bytesCompare_pos a.key b.key).mpr h
  unfold entryCompare
  cases opt.dupsort with
  | none => exact hlt
  | some dupsort => simp only [hlt.ne',if_false,hlt]

theorem TakeOrder.of_key_lt {opt : MergerOptions} {le : Entry → Entry → Prop}
    (h : TakeOrder opt le) {a b : Entry} (hab : a.key < b.key) : le a b :=
  h.of_le a b (entryCompare_of_key_lt hab).le

/-- Whatever the dupsort function does, the heap goes by the keys. -/
theorem takeOrder_key (opt : MergerOptions) : TakeOrder opt (fun a b => a.key ≤ b.key) where
  of_le _ _ h := not_lt.mp (fun hlt => absurd (entryCompare_of_key_gt hlt) (not_lt.mpr h))
  of_gt _ _ h := not_lt.mp (fun hlt => h (entryCompare_of_key_lt hlt).le)
  trans _ _ _ := le_trans
  key_le _ _ h := h

/-- The dupsort function compares the values of each key by a total preorder. -/
def DupsortOrder (dupsort : DupsortFunc) : Prop :=
  ∀ key, (∀ a b, dupsort key a b ≤ 0 ∨ dupsort key b a ≤ 0) ∧
    ∀ a b c, dupsort key a b ≤ 0 → dupsort key b c ≤ 0 → dupsort key a c ≤ 0

/-- By key, and among the values of a key by the dupsort function. -/
def dupsortLe (dupsort : DupsortFunc) (a b : Entry) : Prop :=
  a.key < b.key ∨ a.key = b.key ∧ dupsort a.key a.val b.val ≤ 0

theorem takeOrder_dupsort {opt : MergerOptions} {dupsort : DupsortFunc}
    (hopt : opt.dupsort = some dupsort) (h : DupsortOrder dupsort) :
    TakeOrder opt (dupsortLe dupsort) where
  of_le a b hle := by
    rcases lt_trichotomy a.key b.key with hlt | heq | hgt
    · exact .inl hlt
    · refine .inr ⟨heq,?_⟩
      simpa [entryCompare,hopt,heq] using hle
    · exact absurd (entryCompare_of_key_gt hgt) (not_lt.mpr hle)
  of_gt a b hle := by
    rcases lt_trichotomy a.key b.key with hlt | heq | hgt
    · exact absurd (entryCompare_of_key_lt hlt).le hle
    · refine .inr ⟨heq.symm,?_⟩
      have hnot : ¬ dupsort a.key a.val b.val ≤ 0 := by simpa [entryCompare,hopt,heq] using hle
      exact heq ▸ ((h a.key).1 a.val b.val).resolve_left hnot
    · exact .inl hgt
  trans a b c hab hbc := by
    rcases hab with hab | ⟨hab,hdab⟩ <;> rcases hbc with hbc | ⟨hbc,hdbc⟩
    · exact .inl (hab.trans hbc)
    · exact .inl (hbc ▸ hab)
    · exact .inl (hab ▸ hbc)
    · exact .inr ⟨hab.trans hbc,(h a.key).2 _ _ _ hdab (hab ▸ hdbc)⟩
  key_le a b hab := by
    rcases hab with hab | ⟨hab,-⟩
    · exact hab.le
    · exact hab.le

/-- A missing key is behind every key. -/
def optLe (le : Entry → Entry → Prop) : Option Entry → Option Entry → Prop
  | _,none => True
  | none,some _ => False
  | some a,some b => le a b

def placeLe {σ : Type} (le : Entry → Entry → Prop) (entries : List (MergerEntry σ)) (i j : ℕ) :
    Prop :=
  optLe le (entryAt entries i) (entryAt entries j)

section
variable {σ : Type} {I : Ops σ Entry Bytes} {opt : MergerOptions} {le : Entry → Entry → Prop}

theorem TakeOrder.compares (h : TakeOrder opt le) (entries : List (MergerEntry σ)) :
    Compares (heapCompare opt entries) (placeLe le entries) := by
  constructor
  · intro i j hle
    unfold heapCompare at hle
    unfold placeLe
    cases hi : entryAt entries i <;> cases hj : entryAt entries j <;>
      simp only [hi,hj,mtblMergerCompare,optLe] at hle ⊢
    · omega
    · exact h.of_le _ _ hle
  · intro i j hle
    unfold heapCompare at hle
    unfold placeLe
    cases hi : entryAt entries i <;> cases hj : entryAt entries j <;>
      simp only [hi,hj,mtblMergerCompare,optLe] at hle ⊢
    · omega
    · exact h.of_gt _ _ hle
  · intro i j k hij hjk
    unfold placeLe at *
    cases hi : entryAt entries i <;> cases hj : entryAt entries j <;>
      cases hk : entryAt entries k <;> simp only [hi,hj,hk,optLe] at hij hjk ⊢
    exact h.trans _ _ _ hij hjk

/-! ### The heap with its sources -/

/-- The heap holds the first of the entries `P i` still to come from each place `i` in it, and the
iterator there has the others. `G` says what an iterator still has. -/
structure Feeds (G : Option σ → List Entry → Prop) (le : Entry → Entry → Prop) (H : EntryHeap σ)
    (P : ℕ → List Entry) : Prop where
  nodup : H.h.Nodup
  live : ∀ i ∈ H.h, ∃ it e rest, H.entries[i]? = some ⟨false,it,some e⟩ ∧ P i = e::rest ∧ G it rest
  ascending : ∀ i ∈ H.h, (P i).Pairwise (fun a b => a.key < b.key)
  ordered : IsHeap (placeLe le H.entries) H.h

variable {G : Option σ → List Entry → Prop} {H : EntryHeap σ} {P : ℕ → List Entry}

theorem Feeds.entryAt (h : Feeds G le H P) {i : ℕ} (hi : i ∈ H.h) :
    entryAt H.entries i = (P i).head? := by
  obtain ⟨it,e,rest,hent,hP,-⟩ := h.live i hi
  simp [Mtbl.entryAt,hent,hP]

theorem entryAt_set_ne (entries : List (MergerEntry σ)) (ent : MergerEntry σ) {i j : ℕ}
    (h : i ≠ j) : entryAt (entries.set i ent) j = entryAt entries j := by
  simp [Mtbl.entryAt,List.getElem?_set_ne h]

/-- A change of the top entry leaves the order off the root. -/
theorem orderedExcept_set {entries : List (MergerEntry σ)} {i : ℕ} {hs : List ℕ}
    (hnodup : (i::hs).Nodup) (hord : IsHeap (placeLe le entries) (i::hs)) (ent : MergerEntry σ) :
    OrderedExcept (placeLe le (entries.set i ent)) 0 (i::hs) 0 := by
  rintro p a b - hp hpp ⟨hpos,ha,hb⟩
  have hne : ∀ (q c : ℕ), q ≠ 0 → (i::hs)[q]? = some c → i ≠ c := by
    rintro q c hq hc rfl
    cases q with
    | zero => exact hq rfl
    | succ q => exact (List.nodup_cons.mp hnodup).1 (List.mem_of_getElem? hc)
  have := hord p a b (Nat.zero_le _) ⟨hpos,ha,hb⟩
  unfold placeLe at this ⊢
  rwa [entryAt_set_ne _ _ (hne _ _ hpp ha),entryAt_set_ne _ _ (hne _ _ hp hb)]

/-- The top of the heap is before everything that is still to come. -/
theorem Feeds.top_le (h : Feeds G le H P) (hle : TakeOrder opt le) {i : ℕ} {hs : List ℕ}
    (htop : H.h = i::hs) {e : Entry} (he : (P i).head? = some e) :
    ∀ x ∈ H.h.flatMap P, le e x := by
  intro x hx
  obtain ⟨j,hj,hxj⟩ := List.mem_flatMap.mp hx
  have hi : i ∈ H.h := htop ▸ List.mem_cons_self ..
  have hroot : H.h[0]? = some i := by rw [htop]; rfl
  have hc := hle.compares H.entries
  have hij := h.ordered.root_le_mem hc.refl hc.trans hroot j hj
  unfold placeLe at hij
  rw [h.entryAt hi,h.entryAt hj,he] at hij
  obtain ⟨it,ej,rest,-,hP,-⟩ := h.live j hj
  have hasc := h.ascending j hj
  rw [hP] at hij hxj hasc
  rcases List.mem_cons.mp hxj with rfl | hxr
  · exact hij
  · exact hle.trans _ _ _ hij (hle.of_key_lt ((List.pairwise_cons.mp hasc).1 x hxr))

/-- No place has run out, so the top is live. -/
theorem Feeds.liveTop (h : Feeds G le H P) :
    liveTop opt H = .ok (H.h.head?.bind (fun i => (P i).head?.map (fun e => (i,e))),H) := by
  cases hh : H.h with
  | nil => simp [Mtbl.liveTop,dropFinished,heapPeek,hh]
  | cons i hs =>
    have hi : i ∈ H.h := hh ▸ List.mem_cons_self ..
    obtain ⟨it,e,rest,hent,hP,-⟩ := h.live i hi
    have hat := h.entryAt hi
    rw [hP,List.head?_cons] at hat
    simp [Mtbl.liveTop,dropFinished,heapPeek,hh,ptrvecValue_ok hent,entryKeyVal,hat,hP]

theorem liveTop_idem {H' : EntryHeap σ} {top : Option (ℕ × Entry)}
    (h : liveTop opt H = .ok (top,H')) : liveTop opt H' = .ok (top,H') := by
  have hdrop : ∀ n (H H' : EntryHeap σ) i, dropFinished opt n H = .ok (i,H') →
      dropFinished opt (H'.h.length+1) H' = .ok (i,H') := by
    intro n
    induction n with
    | zero => exact fun H H' i hrun => by cases hrun
    | succ n ih =>
      intro H H' i hrun
      unfold dropFinished at hrun
      split at hrun
      · rename_i hpeek
        obtain ⟨rfl,rfl⟩ := Prod.mk.inj (Except.ok.inj hrun)
        simp [dropFinished,hpeek]
      · rename_i j hpeek
        obtain ⟨ent,hent,hrun⟩ := bind_eq_ok.mp hrun
        split at hrun
        · obtain ⟨H1,-,hrun⟩ := bind_eq_ok.mp hrun
          exact ih H1 H' i hrun
        · rename_i hfin
          obtain ⟨rfl,rfl⟩ := Prod.mk.inj (Except.ok.inj hrun)
          simp [dropFinished,hpeek,hent,hfin]
  obtain ⟨⟨i,H1⟩,hrun,hrest⟩ := bind_eq_ok.mp h
  have hagain := hdrop _ _ _ _ hrun
  cases i with
  | none =>
    obtain ⟨rfl,rfl⟩ := Prod.mk.inj (Except.ok.inj hrest)
    simp [liveTop,hagain]
  | some i =>
    obtain ⟨e,he,hrest⟩ := bind_eq_ok.mp hrest
    obtain ⟨rfl,rfl⟩ := Prod.mk.inj (Except.ok.inj hrest)
    simp [liveTop,hagain,he]

theorem flatMap_update {i : ℕ} {hs : List ℕ} (hi : i ∉ hs) (rest : List Entry) :
    hs.flatMap (Function.update P i rest) = hs.flatMap P := by
  refine List.flatMap_congr (fun j hj => ?_)
  exact Function.update_of_ne (fun hji : j = i => hi (hji ▸ hj)) ..

/-! ### Taking the top entry -/

/-- A place other than `i` does not see what happens at `i`. -/
theorem Feeds.live_set (h : Feeds G le H P) {i j : ℕ} (hj : j ∈ H.h) (hne : j ≠ i)
    (ent : MergerEntry σ) (rest : List Entry) :
    ∃ it e rest', (H.entries.set i ent)[j]? = some ⟨false,it,some e⟩ ∧
      Function.update P i rest j = e::rest' ∧ G it rest' := by
  obtain ⟨it,e,rest',hent,hP,hG⟩ := h.live j hj
  refine ⟨it,e,rest',?_,?_,hG⟩
  · rw [List.getElem?_set_ne (Ne.symm hne),hent]
  · rw [Function.update_of_ne hne,hP]

/-- The iterator at `i` has been moved on by one, the other places are as they were. -/
def MovedOn (I : Ops σ Entry Bytes) (i : ℕ) (H H' : EntryHeap σ) : Prop :=
  ∃ ent ent' e, H.entries[i]? = some ent ∧ mtblIterNext I ent.it = .ok (e,ent'.it) ∧
    H'.entries = H.entries.set i ent'

/-- A new entry on top, and behind it the iterator that has the others. -/
theorem Feeds.replace_top (h : Feeds G le H P) (hle : TakeOrder opt le) {i : ℕ} {hs : List ℕ}
    (htop : H.h = i::hs) {it : Option σ} {e : Entry} {rest : List Entry} (hG : G it rest)
    (hasc : (e::rest).Pairwise (fun a b => a.key < b.key)) :
    ∃ vec, replaceTop opt ⟨H.h,H.entries.set i ⟨false,it,some e⟩⟩ i =
        .ok ⟨vec,H.entries.set i ⟨false,it,some e⟩⟩ ∧
      Feeds G le ⟨vec,H.entries.set i ⟨false,it,some e⟩⟩ (Function.update P i (e::rest)) ∧
      vec.Perm (i::hs) := by
  have hi : i ∈ H.h := htop ▸ List.mem_cons_self ..
  obtain ⟨it0,e0,rest0,hent,-,-⟩ := h.live i hi
  have hlt := (List.getElem?_eq_some_iff.mp hent).1
  have hnodup := h.nodup
  have hord := h.ordered
  rw [htop] at hnodup hord
  have hexcept := orderedExcept_set hnodup hord ⟨false,it,some e⟩
  obtain ⟨vec,hrep,hordv,hperm⟩ :=
    heapReplace_spec (hle.compares (H.entries.set i ⟨false,it,some e⟩)) hexcept i
  refine ⟨vec,?_,⟨?_,?_,?_,hordv⟩,hperm⟩
  · simp [replaceTop,htop,hrep]
  · exact hperm.nodup_iff.mpr hnodup
  · intro j hj
    have hj' : j ∈ H.h := htop ▸ hperm.mem_iff.mp hj
    rcases eq_or_ne j i with rfl | hne
    · exact ⟨it,e,rest,List.getElem?_set_self hlt,Function.update_self ..,hG⟩
    · exact h.live_set hj' hne _ _
  · intro j hj
    rcases eq_or_ne j i with rfl | hne
    · rwa [Function.update_self]
    · rw [Function.update_of_ne hne]
      exact h.ascending j (htop ▸ hperm.mem_iff.mp hj)

/-- The top place leaves the heap, whatever has become of its entry. -/
theorem Feeds.pop_top (h : Feeds G le H P) (hle : TakeOrder opt le) {i : ℕ} {hs : List ℕ}
    (htop : H.h = i::hs) (ent : MergerEntry σ) :
    ∃ vec, popTop opt ⟨H.h,H.entries.set i ent⟩ = .ok ⟨vec,H.entries.set i ent⟩ ∧
      Feeds G le ⟨vec,H.entries.set i ent⟩ (Function.update P i []) ∧ vec.Perm hs := by
  have hnodup := h.nodup
  have hord := h.ordered
  rw [htop] at hnodup hord
  have hexcept := orderedExcept_set hnodup hord ent
  obtain ⟨vec,hpop,hordv,hperm⟩ := heapPop_spec (hle.compares (H.entries.set i ent)) hexcept
  have hne : ∀ j ∈ vec, j ∈ H.h ∧ j ≠ i := by
    intro j hj
    have hjhs := hperm.mem_iff.mp hj
    exact ⟨htop ▸ List.mem_cons_of_mem _ hjhs,
      fun hji => (List.nodup_cons.mp hnodup).1 (hji ▸ hjhs)⟩
  refine ⟨vec,?_,⟨?_,?_,?_,hordv⟩,hperm⟩
  · simp [popTop,htop,hpop]
  · exact hperm.nodup_iff.mpr (List.nodup_cons.mp hnodup).2
  · exact fun j hj => h.live_set (hne j hj).1 (hne j hj).2 _ _
  · intro j hj
    rw [Function.update_of_ne (hne j hj).2]
    exact h.ascending j (hne j hj).1

/-- The source of the top entry has another one, which takes its place. -/
theorem Feeds.refill_next (h : Feeds G le H P) (hle : TakeOrder opt le)
    (hG : Steps (mtblIterNext I) G) {i : ℕ} {hs : List ℕ} (htop : H.h = i::hs) {e e' : Entry}
    {rest : List Entry} (hP : P i = e::e'::rest) :
    ∃ H', refillTop I opt H i = .ok H' ∧ Feeds G le H' (Function.update P i (e'::rest)) ∧
      H'.h.Perm (i::hs) ∧ MovedOn I i H H' := by
  have hi : i ∈ H.h := htop ▸ List.mem_cons_self ..
  obtain ⟨it,e0,rest0,hent,hP0,hGit⟩ := h.live i hi
  obtain ⟨rfl,rfl⟩ := List.cons.inj (hP0.symm.trans hP)
  obtain ⟨it',hnext,hGit'⟩ := hG it _ hGit
  have hasc := h.ascending i hi
  rw [hP] at hasc
  obtain ⟨vec,hrep,hfeeds,hperm⟩ := h.replace_top hle htop hGit' (List.pairwise_cons.mp hasc).2
  refine ⟨⟨vec,H.entries.set i ⟨false,it',some e'⟩⟩,?_,hfeeds,hperm,
    _,⟨false,it',some e'⟩,_,hent,hnext,rfl⟩
  simp [refillTop,entryFillAt,ptrvecValue_ok hent,entryFill,hnext,hrep]

/-- The source of the top entry has run out. The entry stays on top until the next look at it. -/
theorem Feeds.refill_last (h : Feeds G le H P) (hle : TakeOrder opt le)
    (hG : Steps (mtblIterNext I) G) {i : ℕ} {hs : List ℕ} (htop : H.h = i::hs) {e : Entry}
    (hP : P i = [e]) :
    ∃ H' H'', refillTop I opt H i = .ok H' ∧
      dropFinished opt (H'.h.length+1) H' = dropFinished opt (H''.h.length+1) H'' ∧
      Feeds G le H'' (Function.update P i []) ∧ H''.h.Perm hs ∧ MovedOn I i H H'' := by
  have hi : i ∈ H.h := htop ▸ List.mem_cons_self ..
  obtain ⟨it,e0,rest0,hent,hP0,hGit⟩ := h.live i hi
  obtain ⟨rfl,rfl⟩ := List.cons.inj (hP0.symm.trans hP)
  obtain ⟨it',hnext,hGit'⟩ := hG it _ hGit
  have hlt := (List.getElem?_eq_some_iff.mp hent).1
  obtain ⟨vec,hpop,hfeeds,hperm⟩ := h.pop_top hle htop ⟨true,it',some e0⟩
  have hset : (H.entries.set i ⟨true,it',some e0⟩)[i]? = some ⟨true,it',some e0⟩ :=
    List.getElem?_set_self hlt
  refine ⟨⟨H.h,H.entries.set i ⟨true,it',some e0⟩⟩,⟨vec,H.entries.set i ⟨true,it',some e0⟩⟩,
    ?_,?_,hfeeds,hperm,_,⟨true,it',some e0⟩,_,hent,hnext,rfl⟩
  · simp [refillTop,entryFillAt,ptrvecValue_ok hent,entryFill,hnext]
  · have hlen : H.h.length = vec.length+1 := by rw [htop,List.length_cons,hperm.length_eq]
    have hroot : H.h[0]? = some i := by rw [htop]; rfl
    simp only [hlen]
    conv_lhs => rw [dropFinished]
    simp [heapPeek,hroot,ptrvecValue_ok hset,hpop]

/-- The top entry is taken: up to entries that are about to leave the heap, its place has the
others of its source. -/
theorem Feeds.take (h : Feeds G le H P) (hle : TakeOrder opt le) (hG : Steps (mtblIterNext I) G)
    {i : ℕ} {hs : List ℕ} (htop : H.h = i::hs) {e : Entry} {rest : List Entry}
    (hP : P i = e::rest) :
    ∃ H' H'', refillTop I opt H i = .ok H' ∧
      dropFinished opt (H'.h.length+1) H' = dropFinished opt (H''.h.length+1) H'' ∧
      Feeds G le H'' (Function.update P i rest) ∧ MovedOn I i H H'' ∧
      H''.h.Perm (if rest = [] then hs else i::hs) := by
  cases rest with
  | nil =>
    obtain ⟨H',H'',hrun,hdrop,hfeeds,hperm,hmoved⟩ := h.refill_last hle hG htop hP
    exact ⟨H',H'',hrun,hdrop,hfeeds,hmoved,hperm⟩
  | cons e' rest =>
    obtain ⟨H',hrun,hfeeds,hperm,hmoved⟩ := h.refill_next hle hG htop hP
    exact ⟨H',H',hrun,rfl,hfeeds,hmoved,hperm⟩

/-- What is to come once the top entry has been taken. -/
theorem Feeds.take_perm {H' : EntryHeap σ} (h : Feeds G le H P) {i : ℕ} {hs : List ℕ}
    (htop : H.h = i::hs) {rest : List Entry} (hperm : H'.h.Perm (if rest = [] then hs else i::hs)) :
    (H'.h.flatMap (Function.update P i rest)).Perm (rest++hs.flatMap P) := by
  have hnotin : i ∉ hs := (List.nodup_cons.mp (htop ▸ h.nodup)).1
  refine (hperm.flatMap_right _).trans ?_
  by_cases hrest : rest = []
  · rw [if_pos hrest,hrest,flatMap_update hnotin,List.nil_append]
  · rw [if_neg hrest,List.flatMap_cons,Function.update_self,flatMap_update hnotin]

/-! ### The entries in the order they are taken -/

/-- Looking at the top and refilling it goes through these entries, and then the heap is empty. -/
def Streams (I : Ops σ Entry Bytes) (opt : MergerOptions) : EntryHeap σ → List Entry → Prop
  | H,[] => ∃ H', Mtbl.liveTop opt H = .ok (none,H')
  | H,e::taken => ∃ i H' H'', Mtbl.liveTop opt H = .ok (some (i,e),H') ∧
      refillTop I opt H' i = .ok H'' ∧ Streams I opt H'' taken

/-- Only what the look at the top finds counts. -/
theorem Streams.congr {taken : List Entry} (h : Streams I opt H taken) (H' : EntryHeap σ)
    (hlive : Mtbl.liveTop opt H' = Mtbl.liveTop opt H) :
    Streams I opt H' taken := by
  cases taken <;>
  · unfold Streams at h ⊢
    rwa [hlive]

/-- Everything still to come is taken, in order. -/
theorem Feeds.streams (hle : TakeOrder opt le) (hG : Steps (mtblIterNext I) G)
    (h : Feeds G le H P) :
    ∃ taken, Streams I opt H taken ∧ taken.Perm (H.h.flatMap P) ∧ taken.Pairwise le := by
  generalize hn : (H.h.flatMap P).length = n
  induction n generalizing H P with
  | zero =>
    cases hh : H.h with
    | nil =>
      have hlive : Mtbl.liveTop opt H = .ok (none,H) := by
        rw [h.liveTop,hh]
        rfl
      exact ⟨[],⟨H,hlive⟩,.refl _,.nil⟩
    | cons i hs =>
      obtain ⟨it,e,rest,-,hP,-⟩ := h.live i (hh ▸ List.mem_cons_self ..)
      rw [hh,List.flatMap_cons,hP] at hn
      simp at hn
  | succ n ih =>
    cases hh : H.h with
    | nil =>
      rw [hh] at hn
      simp at hn
    | cons i hs =>
      obtain ⟨it,e,rest,-,hP,-⟩ := h.live i (hh ▸ List.mem_cons_self ..)
      have hlive : Mtbl.liveTop opt H = .ok (some (i,e),H) := by
        rw [h.liveTop,hh]
        simp [hP]
      have hall : H.h.flatMap P = e::(rest++hs.flatMap P) := by
        rw [hh,List.flatMap_cons,hP,List.cons_append]
      obtain ⟨H',H'',hrun,hdrop,hfeeds,-,hleft⟩ := h.take hle hG hh hP
      have hperm := h.take_perm hh hleft
      obtain ⟨taken,hst,htaken,hsorted⟩ := ih hfeeds (by
        rw [hperm.length_eq]
        rw [hall] at hn
        simpa using hn)
      have hst' := hst.congr H' (by rw [Mtbl.liveTop,Mtbl.liveTop,hdrop])
      refine ⟨e::taken,⟨i,H,H',hlive,hrun,hst'⟩,?_,List.pairwise_cons.mpr ⟨?_,hsorted⟩⟩
      · rw [← hh,hall]
        exact (htaken.trans hperm).cons e
      · intro x hx
        refine h.top_le hle hh (by rw [hP]; rfl) x ?_
        rw [hall]
        exact List.mem_cons_of_mem _ ((htaken.trans hperm).mem_iff.mp hx)

/-! ### Adding sources -/

theorem feeds_init (m : Merger σ) : Feeds G le (mergerIterInit m).toEntryHeap P where
  nodup := List.nodup_nil
  live _ hi := absurd hi List.not_mem_nil
  ascending _ hi := absurd hi List.not_mem_nil
  ordered := ordered_nil

/-- A source iterator is added with all its entries. -/
theorem mergerIterAddEntry_spec {it : MergerIter σ} (hle : TakeOrder it.opt le)
    (hG : Steps (mtblIterNext I) G) (h : Feeds G le it.toEntryHeap P) {entIt : Option σ}
    {es : List Entry} (hent : G entIt es) (hes : es.Pairwise (fun a b => a.key < b.key)) :
    ∃ H' P', mergerIterAddEntry I it entIt = .ok { it with toEntryHeap := H' } ∧
      Feeds G le H' P' ∧ (H'.h.flatMap P').Perm (it.h.flatMap P++es) ∧
      (es = [] → H' = it.toEntryHeap) ∧ ∀ e rest, es = e::rest → ∃ entIt',
        mtblIterNext I entIt = .ok (some e,entIt') ∧
        H'.entries = it.entries++[⟨false,entIt',some e⟩] ∧
        H'.h.Perm (it.h++[it.entries.length]) ∧ P' = Function.update P it.entries.length es := by
  obtain ⟨entIt',hnext,hG'⟩ := hG entIt es hent
  cases es with
  | nil =>
    refine ⟨it.toEntryHeap,P,?_,h,by simp,fun _ => rfl,by simp⟩
    simp [mergerIterAddEntry,entryFill,hnext]
  | cons e rest =>
    have hold : ∀ j ∈ it.h, j < it.entries.length := by
      intro j hj
      obtain ⟨jt,je,jrest,hjent,-,-⟩ := h.live j hj
      exact (List.getElem?_eq_some_iff.mp hjent).1
    have hnew : it.entries.length ∉ it.h := fun hmem => absurd (hold _ hmem) (lt_irrefl _)
    have hat : ∀ j ∈ it.h, Mtbl.entryAt (it.entries++[⟨false,entIt',some e⟩]) j =
        Mtbl.entryAt it.entries j := by
      intro j hj
      simp [Mtbl.entryAt,List.getElem?_append_left (hold j hj)]
    have hord : IsHeap (placeLe le (it.entries++[⟨false,entIt',some e⟩])) it.h := by
      rintro p a b hp ⟨hpos,ha,hb⟩
      have := h.ordered p a b hp ⟨hpos,ha,hb⟩
      unfold placeLe at this ⊢
      rwa [hat a (List.mem_of_getElem? ha),hat b (List.mem_of_getElem? hb)]
    obtain ⟨vec,hpush,hordv,hperm⟩ := heapPush_spec
      (hle.compares (it.entries++[⟨false,entIt',some e⟩])) hord it.entries.length
    refine ⟨⟨vec,it.entries++[⟨false,entIt',some e⟩]⟩,Function.update P it.entries.length (e::rest),
      ?_,⟨?_,?_,?_,hordv⟩,(hperm.flatMap_right _).trans ?_,by simp,fun e0 rest0 hes0 => ?_⟩
    · simp [mergerIterAddEntry,entryFill,hnext,hpush]
    · refine hperm.nodup_iff.mpr ?_
      rw [List.nodup_append]
      exact ⟨h.nodup,List.nodup_singleton _,by simpa using fun j hj => (hold j hj).ne⟩
    · intro j hj
      rcases List.mem_append.mp (hperm.mem_iff.mp hj) with hj | hj
      · obtain ⟨jt,je,jrest,hjent,hjP,hjG⟩ := h.live j hj
        refine ⟨jt,je,jrest,?_,?_,hjG⟩
        · rw [List.getElem?_append_left (hold j hj),hjent]
        · rw [Function.update_of_ne (hold j hj).ne,hjP]
      · obtain rfl := List.mem_singleton.mp hj
        exact ⟨entIt',e,rest,by simp,Function.update_self ..,hG'⟩
    · intro j hj
      rcases List.mem_append.mp (hperm.mem_iff.mp hj) with hj | hj
      · rw [Function.update_of_ne (hold j hj).ne]
        exact h.ascending j hj
      · obtain rfl := List.mem_singleton.mp hj
        rw [Function.update_self]
        exact hes
    · rw [List.flatMap_append,flatMap_update hnew,List.flatMap_singleton,Function.update_self]
    · obtain ⟨rfl,rfl⟩ := List.cons.inj hes0
      exact ⟨entIt',hnext,rfl,hperm,rfl⟩

/-- A NULL iterator adds nothing, so leaving it out changes nothing. -/
theorem addIters_eq (it : MergerIter σ) (sources : List (Source σ)) :
    addIters I it sources = addQueries I Source.iter it sources := by
  induction sources generalizing it with
  | nil => rfl
  | cons s sources ih =>
    simp only [addIters,addQueries]
    cases s.iter with
    | error f => rfl
    | ok sIt =>
      cases sIt with
      | none => simpa [mergerIterAddEntry,entryFill,mtblIterNext] using ih it
      | some sIt =>
        simp only [ok_bind]
        exact bind_congr (fun it => ih it)

theorem addQueries_spec {query : Source σ → Run (Option σ)} {sources : List (Source σ)}
    {ess : List (List Entry)} (it : MergerIter σ) (hle : TakeOrder it.opt le)
    (hG : Steps (mtblIterNext I) G) (h : Feeds G le it.toEntryHeap P)
    (hsources : List.Forall₂ (fun s es => (∃ sIt, query s = .ok sIt ∧ G sIt es) ∧
      es.Pairwise (fun a b => a.key < b.key)) sources ess) :
    ∃ H' P', addQueries I query it sources = .ok { it with toEntryHeap := H' } ∧
      Feeds G le H' P' ∧ (H'.h.flatMap P').Perm (it.h.flatMap P++ess.flatten) := by
  induction hsources generalizing it P with
  | nil => exact ⟨it.toEntryHeap,P,rfl,h,by simp⟩
  | @cons s es sources ess hs _ ih =>
    obtain ⟨⟨sIt,hquery,hGs⟩,hasc⟩ := hs
    obtain ⟨H1,P1,hadd,hfeeds1,hperm1,-⟩ := mergerIterAddEntry_spec hle hG h hGs hasc
    obtain ⟨H2,P2,hrest,hfeeds2,hperm2⟩ :=
      ih { it with toEntryHeap := H1 } hle hfeeds1
    refine ⟨H2,P2,?_,hfeeds2,hperm2.trans ?_⟩
    · cases sIt with
      | none =>
        have hsame : mergerIterAddEntry I it none = .ok it := by
          simp [mergerIterAddEntry,entryFill,mtblIterNext]
        have hit := Except.ok.inj (hsame.symm.trans hadd)
        simp only [addQueries,hquery,ok_bind]
        rw [← hit] at hrest
        exact hrest
      | some sIt =>
        simp only [addQueries,hquery,ok_bind,hadd,hrest]
    · rw [List.flatten_cons,← List.append_assoc]
      exact hperm1.append_right _

end

end Mtbl
