import Mtbl.Merge.Declined

/-! A merger over one source. Its iterator has read one entry ahead, and takes a seek to its current
key for a step forward: there the entry with that key has already been passed. -/
namespace Mtbl
open CRun Cursor

/-! ### A heap of one -/

section
variable {α : Type} (cmp : α → α → ℤ) (x y : α)

@[simp] theorem heapReplace_single : heapReplace cmp [x] y = .ok (some x,[y]) := by
  simp [heapReplace,ptrvecValue,siftdown,siftdownLoop,check]

@[simp] theorem heapPop_single : heapPop cmp [x] = .ok (some x,[]) := by
  simp [heapPop,ptrvecValue]

@[simp] theorem heapHeapify_single : heapHeapify cmp [x] = .ok [x] := by
  simp [heapHeapify,heapifyLoop]

@[simp] theorem heapHeapify_nil : heapHeapify cmp ([] : List α) = .ok [] := by
  simp [heapHeapify,heapifyLoop]

@[simp] theorem heapPush_nil : heapPush cmp [] x = .ok [x] := rfl

end

section
variable {σ : Type} {I : Ops σ Entry Bytes} {es : List Entry} {R : σ → List Entry → Prop}

/-- The source iterator seeks to the key and gives its next entry, if there is one. -/
theorem entrySeekFill_single (hlaw : Refines Entry.key es I (fun _ _ => True) R) (h : List ℕ)
    (fin : Bool) (ent : Option Entry) {s : σ} {rem : List Entry} (hR : R s rem) (k : Bytes) :
    ∃ s', R s' (seekList Entry.key es k).tail ∧
      (seekList Entry.key es k = [] → entrySeekFill I ⟨h,[⟨fin,some s,ent⟩]⟩ 0 k =
        .ok (false,⟨h,[⟨true,some s',ent⟩]⟩)) ∧
      ∀ e rest, seekList Entry.key es k = e::rest → entrySeekFill I ⟨h,[⟨fin,some s,ent⟩]⟩ 0 k =
        .ok (true,⟨h,[⟨false,some s',some e⟩]⟩) := by
  obtain ⟨s1,hseek,hR1⟩ := hlaw.seek s rem k hR trivial
  obtain ⟨s2,hnext,hR2⟩ := hlaw.next s1 _ hR1 trivial
  refine ⟨s2,hR2,fun hsl => ?_,fun e rest hsl => ?_⟩
  · rw [hsl] at hnext
    simp [entrySeekFill,ptrvecValue,mtblIterSeek,hseek,entryFillAt,entryFill,mtblIterNext,hnext]
  · rw [hsl] at hnext
    simp [entrySeekFill,ptrvecValue,mtblIterSeek,hseek,entryFillAt,entryFill,mtblIterNext,hnext]

/-- The entries before the current one, none of them behind the current key. -/
def Passed (es : List Entry) (curKey : Bytes) (rem : List Entry) : Prop :=
  ∃ before, es = before++rem ∧ (curKey ≠ [] → ∀ b ∈ before, b.key ≤ curKey)

/-- The iterator stands before the entries `rem`: it has read the first of them ahead, and its
source iterator has the others. -/
inductive Mirrors (R : σ → List Entry → Prop) (es : List Entry) (it : MergerIter σ) :
    List Entry → Prop
  | ahead {s : σ} {e : Entry} {rest : List Entry} (hentries : it.entries = [⟨false,some s,some e⟩])
      (hheap : it.h = [0]) (hR : R s rest) (hfin : it.finished = false)
      (hpend : it.pending = false) (hpassed : Passed es it.curKey (e::rest)) :
      Mirrors R es it (e::rest)
  | atEnd {fin : Bool} {s : σ} {ent : Option Entry} {rem : List Entry}
      (hentries : it.entries = [⟨fin,some s,ent⟩]) (hheap : it.h = []) (hR : R s rem)
      (hpend : it.pending = false) (hpassed : Passed es it.curKey []) : Mirrors R es it []

theorem Passed.seek {curKey k : Bytes} (h : curKey ≠ [] → k ≤ curKey) :
    Passed es curKey (seekList Entry.key es k) := by
  obtain ⟨before,hes,hbefore⟩ := exists_seekList_split Entry.key es k
  exact ⟨before,hes,fun hne b hb => (hbefore b hb).le.trans (h hne)⟩

/-- Every entry is sought anew. The current key stays as it is. -/
theorem seekAll_single (hlaw : Refines Entry.key es I (fun _ _ => True) R) (it : MergerIter σ)
    {fin : Bool} {s : σ} {ent : Option Entry} {rem : List Entry}
    (hentries : it.entries = [⟨fin,some s,ent⟩]) (hR : R s rem) (hfin : it.finished = false)
    (hpend : it.pending = false) {k : Bytes}
    (hpassed : Passed es it.curKey (seekList Entry.key es k)) :
    ∃ H, seekAll I it.opt it.toEntryHeap k = .ok H ∧
      Mirrors R es { it with toEntryHeap := H } (seekList Entry.key es k) := by
  obtain ⟨s',hR',hnone,hsome⟩ := entrySeekFill_single hlaw [] fin ent hR k
  cases hsl : seekList Entry.key es k with
  | nil =>
    rw [hsl] at hR' hpassed
    refine ⟨⟨[],[⟨true,some s',ent⟩]⟩,?_,.atEnd rfl rfl hR' hpend hpassed⟩
    simp [seekAll,hentries,reseekEntries,heapClip,hnone hsl]
  | cons e rest =>
    rw [hsl] at hR' hpassed
    refine ⟨⟨[0],[⟨false,some s',some e⟩]⟩,?_,.ahead rfl rfl hR' hfin hpend hpassed⟩
    simp [seekAll,hentries,reseekEntries,heapClip,heapAdd,hsome e rest hsl]

/-- The entry read ahead is behind the key: its source is sought to the key. -/
theorem seekForward_behind (hlaw : Refines Entry.key es I (fun _ _ => True) R)
    (it : MergerIter σ) {s : σ} {e : Entry} {rest : List Entry}
    (hentries : it.entries = [⟨false,some s,some e⟩]) (hheap : it.h = [0]) (hR : R s rest)
    (hpend : it.pending = false) {k : Bytes} (hk : e.key < k) {fuel : ℕ} (hfuel : 2 ≤ fuel) :
    ∃ it', seekForward I fuel it 0 k = .ok it' ∧ it'.opt = it.opt ∧
      Mirrors R es it' (seekList Entry.key es k) := by
  obtain ⟨n,rfl⟩ := Nat.exists_eq_add_of_le' hfuel
  obtain ⟨before,hes,hbefore⟩ := exists_seekList_split Entry.key es k
  obtain ⟨s',hR',hnone,hsome⟩ := entrySeekFill_single hlaw [0] false (some e) hR k
  have hH : it.toEntryHeap = ⟨[0],[⟨false,some s,some e⟩]⟩ := by rw [← hheap,← hentries]
  have hpos : 0 < bytesCompare k e.key := (bytesCompare_pos _ _).mpr hk
  cases hsl : seekList Entry.key es k with
  | nil =>
    rw [hsl] at hR' hes
    refine ⟨⟨⟨[],[⟨true,some s',some e⟩]⟩,it.opt,k,[],true,it.pending⟩,?_,rfl,.atEnd rfl rfl hR' hpend ⟨before,hes,fun _ b hb => (hbefore b hb).le⟩⟩
    simp [seekForward,seekForwardLoop,hH,entryKeyVal,entryAt,hk,hnone hsl,popTop,heapPeek]
  | cons e' rest' =>
    rw [hsl] at hR' hes
    have hle : k ≤ e'.key := seekList_cons_le hsl
    refine ⟨⟨⟨[0],[⟨false,some s',some e'⟩]⟩,it.opt,k,[],false,it.pending⟩,?_,rfl,.ahead rfl rfl hR' rfl hpend
      ⟨before,hes,fun _ b hb => (hbefore b hb).le⟩⟩
    simp [seekForward,seekForwardLoop,hH,entryKeyVal,entryAt,hk,hsome e' rest' hsl,replaceTop,
      heapPeek,not_lt.mpr hle]

/-- The entry read ahead is not behind the key: nothing moves. -/
theorem seekForward_stays (it : MergerIter σ) {s : σ} {e : Entry}
    (hentries : it.entries = [⟨false,some s,some e⟩]) (hheap : it.h = [0])
    (hfin : it.finished = false) {k : Bytes} (hk : k ≤ e.key) {fuel : ℕ} (hfuel : 2 ≤ fuel) :
    seekForward I fuel it 0 k = .ok it := by
  obtain ⟨n,rfl⟩ := Nat.exists_eq_add_of_le' hfuel
  have hH : it.toEntryHeap = ⟨[0],[⟨false,some s,some e⟩]⟩ := by rw [← hheap,← hentries]
  have hit : it = { it with toEntryHeap := ⟨[0],[⟨false,some s,some e⟩]⟩, finished := false } := by
    rw [← hH,← hfin]
  simp [seekForward,seekForwardLoop,hH,entryKeyVal,entryAt,not_lt.mpr hk]
  exact hit.symm

/-- The seek asks for the current key again, and that entry has been passed: it is in the source,
and a later one has been read ahead. -/
def RepeatsKey (es : List Entry) (it : MergerIter σ) (k : Bytes) : Prop :=
  k = it.curKey ∧ k ∈ es.map Entry.key ∧
    ∃ i ∈ heapPeek it.h, ∃ e ∈ entryAt it.entries i, k < e.key

/-- The condition on the state before a call. -/
def repeatsNoKey (es : List Entry) (it : MergerIter σ) : Call Bytes → Prop
  | .next => True
  | .seek k => ¬ RepeatsKey es it k

instance (es : List Entry) (it : MergerIter σ) (k : Bytes) : Decidable (RepeatsKey es it k) :=
  inferInstanceAs (Decidable (_ ∧ _ ∧ ∃ i ∈ heapPeek it.h, ∃ e ∈ entryAt it.entries i, k < e.key))

instance (es : List Entry) (it : MergerIter σ) : ∀ c, Decidable (repeatsNoKey es it c)
  | .next => isTrue trivial
  | .seek k => inferInstanceAs (Decidable (¬ RepeatsKey es it k))

theorem mergerIterSeek_single (hlaw : Refines Entry.key es I (fun _ _ => True) R)
    (hasc : es.Pairwise (fun a b => a.key < b.key)) {it : MergerIter σ} {rem : List Entry}
    (h : Mirrors R es it rem) {k : Bytes} (hk : ¬ RepeatsKey es it k) {fuel : ℕ}
    (hfuel : 2 ≤ fuel) :
    ∃ it', mergerIterSeek I fuel it k = .ok (true,it') ∧ it'.opt = it.opt ∧
      Mirrors R es it' (seekList Entry.key es k) := by
  cases h with
  | @atEnd fin s ent rem hentries hheap hR hpend hpassed =>
    obtain ⟨before,hes,hbefore⟩ := hpassed
    rw [List.append_nil] at hes
    subst hes
    have hpassed : Passed es it.curKey (seekList Entry.key es k) := by
      obtain ⟨before,hes,-⟩ := exists_seekList_split Entry.key es k
      exact ⟨before,hes,fun hne b hb => hbefore hne b (by rw [hes]; exact List.mem_append_left _ hb)⟩
    obtain ⟨H,hall,hm⟩ := seekAll_single hlaw { it with finished := false, pending := false }
      hentries hR rfl rfl hpassed
    refine ⟨{ it with toEntryHeap := H, finished := false, pending := false },?_,rfl,hm⟩
    simp only [mergerIterSeek,hheap,heapPeek,List.getElem?_nil,hall,ok_bind,pure_eq_ok]
  | @ahead s e rest hentries hheap hR hfin hpend hpassed =>
    by_cases hback : it.curKey.length = 0 ∨ bytesCompare k it.curKey < 0
    · have hpassed' : Passed es it.curKey (seekList Entry.key es k) := by
        refine Passed.seek (fun hne => ?_)
        rcases hback with hnil | hlt
        · exact absurd (List.length_eq_zero_iff.mp hnil) hne
        · exact ((bytesCompare_neg _ _).mp hlt).le
      obtain ⟨H,hall,hm⟩ := seekAll_single hlaw { it with finished := false, pending := false }
        hentries hR rfl rfl hpassed'
      refine ⟨{ it with toEntryHeap := H, finished := false, pending := false },?_,rfl,hm⟩
      simp only [mergerIterSeek,hheap,heapPeek,List.getElem?_cons_zero,if_pos hback,hall,ok_bind,
        pure_eq_ok]
    · have hcur : it.curKey ≠ [] := fun hnil => hback (.inl (by rw [hnil]; rfl))
      have hle : it.curKey ≤ k := by simpa using fun h => hback (.inr h)
      have hseek : mergerIterSeek I fuel it k =
          (seekForward I fuel { it with finished := false, pending := false } 0 k >>=
            fun it => .ok (true,it)) := by
        simp only [mergerIterSeek,hheap,heapPeek,List.getElem?_cons_zero,if_neg hback]
        rfl
      rcases lt_or_ge e.key k with hlt | hge
      · obtain ⟨it',hrun,hopt,hm⟩ := seekForward_behind hlaw
          { it with finished := false, pending := false } hentries hheap hR rfl hlt hfuel
        exact ⟨it',by rw [hseek,hrun]; rfl,hopt,hm⟩
      · refine ⟨{ it with finished := false, pending := false },?_,rfl,?_⟩
        · rw [hseek,seekForward_stays { it with finished := false, pending := false } hentries hheap rfl
            hge hfuel]
          rfl
        · obtain ⟨before,hes,hbefore⟩ := hpassed
          have hbelow : ∀ b ∈ before, b.key < k := by
            intro b hb
            refine lt_of_le_of_ne ((hbefore hcur b hb).trans hle) (fun hbk => hk ?_)
            have hbe : b.key < e.key := by
              rw [hes] at hasc
              exact (List.pairwise_append.mp hasc).2.2 b hb e (List.mem_cons_self ..)
            have hbes : b ∈ es := by rw [hes]; exact List.mem_append_left _ hb
            refine ⟨le_antisymm (hbk ▸ hbefore hcur b hb) hle,List.mem_map.mpr ⟨b,hbes,hbk⟩,0,?_,e,?_,
              hbk ▸ hbe⟩
            · rw [hheap]
              rfl
            · rw [hentries]
              rfl
          have hsl : seekList Entry.key es k = e::rest := by
            rw [hes,seekList_append_left hbelow]
            exact List.dropWhile_cons_of_neg (by simpa using hge)
          rw [hsl]
          exact .ahead hentries hheap hR rfl rfl ⟨before,hes,hbefore⟩

/-- The next entry is returned, and its key is the current one from then on. -/
theorem mergerIterNext_single (hlaw : Refines Entry.key es I (fun _ _ => True) R)
    (hasc : es.Pairwise (fun a b => a.key < b.key)) (hkeys : ∀ e ∈ es, e.key ≠ [])
    {it : MergerIter σ} {f : MergeFunc} (hmerge : it.opt.merge = some f) {rem : List Entry}
    (h : Mirrors R es it rem) {fuel : ℕ} (hfuel : 2 ≤ fuel) :
    ∃ it', mergerIterNext I fuel it = .ok (rem.head?,it') ∧ it'.opt = it.opt ∧
      Mirrors R es it' rem.tail := by
  obtain ⟨n,rfl⟩ := Nat.exists_eq_add_of_le' hfuel
  cases h with
  | @atEnd fin s ent rem hentries hheap hR hpend hpassed =>
    by_cases hfin : it.finished = true
    · exact ⟨it,by simp [mergerIterNext,mergerIterAnswer,hfin,MergerAnswer.res],rfl,
        .atEnd hentries hheap hR hpend hpassed⟩
    · refine ⟨{ it with curKey := [], curVal := [], finished := true },?_,rfl,
        .atEnd hentries hheap hR hpend ⟨es,by simp,fun hne => absurd rfl hne⟩⟩
      simp [mergerIterNext,mergerIterAnswer,hfin,mergerIterNextLoop,liveTop,dropFinished,hheap,
        heapPeek,hpend,MergerAnswer.res]
  | @ahead s e rest hentries hheap hR hfin hpend hpassed =>
    obtain ⟨before,hes,-⟩ := hpassed
    have hek : e.key ≠ [] := hkeys e (by rw [hes]; simp)
    have hpassed' : Passed es e.key rest := by
      refine ⟨before++[e],by rw [hes,List.append_assoc]; rfl,fun _ b hb => ?_⟩
      rcases List.mem_append.mp hb with hb | hb
      · rw [hes] at hasc
        exact ((List.pairwise_append.mp hasc).2.2 b hb e (List.mem_cons_self ..)).le
      · rw [List.mem_singleton.mp hb]
    have hH : it.toEntryHeap = ⟨[0],[⟨false,some s,some e⟩]⟩ := by rw [← hheap,← hentries]
    obtain ⟨s',hnext,hR'⟩ := hlaw.next s rest hR trivial
    cases rest with
    | nil =>
      refine ⟨⟨⟨[],[⟨true,some s',some e⟩]⟩,it.opt,e.key,e.val,true,false⟩,?_,rfl,.atEnd rfl rfl hR' rfl hpassed'⟩
      simp [mergerIterNext,mergerIterAnswer,hfin,mergerIterNextLoop,liveTop,dropFinished,hH,
        heapPeek,ptrvecValue,entryKeyVal,entryAt,refillTop,entryFillAt,entryFill,mtblIterNext,hnext,
        popTop,MergerAnswer.res]
    | cons e' rest =>
      have hee : e.key < e'.key := by
        rw [hes] at hasc
        exact (List.pairwise_cons.mp (List.pairwise_append.mp hasc).2.1).1 e' (List.mem_cons_self ..)
      refine ⟨⟨⟨[0],[⟨false,some s',some e'⟩]⟩,it.opt,e.key,e.val,it.finished,false⟩,?_,rfl,.ahead rfl rfl hR' hfin rfl hpassed'⟩
      simp [mergerIterNext,mergerIterAnswer,hfin,mergerIterNextLoop,liveTop,dropFinished,hH,
        heapPeek,ptrvecValue,entryKeyVal,entryAt,refillTop,entryFillAt,entryFill,mtblIterNext,hnext,
        replaceTop,hek,hmerge,hee.ne,MergerAnswer.res]

/-- The merger iterator follows the plain cursor as long as no seek repeats a passed key. -/
theorem mergerIterOps_refines (hlaw : Refines Entry.key es I (fun _ _ => True) R)
    (hasc : es.Pairwise (fun a b => a.key < b.key)) (hkeys : ∀ e ∈ es, e.key ≠ []) (f : MergeFunc)
    {fuel : ℕ} (hfuel : 2 ≤ fuel) :
    Refines Entry.key es (mergerIterOps I fuel) (repeatsNoKey es)
      (fun it rem => it.opt.merge = some f ∧ Mirrors R es it rem) where
  next := by
    rintro it rem ⟨hmerge,hm⟩ -
    obtain ⟨it',hrun,hopt,hm'⟩ := mergerIterNext_single hlaw hasc hkeys hmerge hm hfuel
    exact ⟨it',hrun,hopt ▸ hmerge,hm'⟩
  seek := by
    rintro it rem k ⟨hmerge,hm⟩ hk
    obtain ⟨it',hrun,hopt,hm'⟩ := mergerIterSeek_single hlaw hasc hm hk hfuel
    exact ⟨it',hrun,hopt ▸ hmerge,hm'⟩

/-- A new iterator has read the first entry. -/
theorem mergerIter_single (hlaw : Refines Entry.key es I (fun _ _ => True) R) {s : Source σ}
    {s0 : σ} (hiter : s.iter = .ok (some s0)) (hstart : R s0 es) (hne : es ≠ [])
    (opt : MergerOptions) :
    ∃ it, mergerIter I ⟨[s],opt⟩ = .ok (some it) ∧ it.opt = opt ∧ Mirrors R es it es := by
  obtain ⟨s',hnext,hR'⟩ := hlaw.next s0 es hstart trivial
  obtain ⟨e,rest,rfl⟩ := List.exists_cons_of_ne_nil hne
  refine ⟨⟨⟨[0],[⟨false,some s',some e⟩]⟩,opt,[],[],false,false⟩,?_,rfl,
    .ahead rfl rfl hR' rfl rfl ⟨[],rfl,fun h => absurd rfl h⟩⟩
  simp [mergerIter,addIters,hiter,mergerIterAddEntry,mergerIterInit,entryFill,mtblIterNext,hnext]

end

/-- A merger over one source that obeys the seek law: in every run of calls none of which seeks to
the current key again after a later entry has been read ahead, its iterator answers as the source's
own. -/
theorem merger_transparent {σ : Type} (I : Ops σ Entry Bytes) (s : Source σ) (es : List Entry)
    (hne : es ≠ []) (hasc : es.Pairwise (fun a b => a.key < b.key)) (hkeys : ∀ e ∈ es, e.key ≠ [])
    (R : σ → List Entry → Prop) (hlaw : Refines Entry.key es I (fun _ _ => True) R) (s0 : σ)
    (hiter : s.iter = .ok (some s0)) (hstart : R s0 es) (f : MergeFunc)
    (dupsort : Option DupsortFunc) :
    ∃ it, mergerIter I ⟨[s],some f,dupsort⟩ = .ok (some it) ∧ ∀ fuel, 2 ≤ fuel → ∀ calls,
      (mergerIterOps I fuel).Guarded (repeatsNoKey es) it calls →
      ∃ answers it' s', (mergerIterOps I fuel).calls it calls = .ok (answers,it') ∧
        I.calls s0 calls = .ok (answers,s') := by
  obtain ⟨it,hrun,hopt,hm⟩ := mergerIter_single hlaw hiter hstart hne ⟨some f,dupsort⟩
  refine ⟨it,hrun,fun fuel hfuel calls hguard => ?_⟩
  obtain ⟨it',hcalls,-⟩ := (mergerIterOps_refines hlaw hasc hkeys f hfuel).calls
    ⟨by rw [hopt],hm⟩ calls hguard
  obtain ⟨s',hplain,-⟩ := hlaw.calls hstart calls (Ops.guarded_true I s0 calls)
  exact ⟨_,it',s',hcalls,hplain⟩

/-- A source that keeps its entries in a list. -/
def listSource (es : List Entry) : Source (List Entry) :=
  ⟨.ok (some es),fun k => .ok (some (es.filter (fun e => e.key = k))),
    fun p => .ok (some (es.filter (fun e => p <+: e.key))),
    fun k0 k1 => .ok (some (es.filter (fun e => k0 ≤ e.key ∧ e.key ≤ k1)))⟩

def twoKeys : List Entry := [⟨[97],[1]⟩,⟨[98],[2]⟩]

/-- Back to the first key once the second has been returned. -/
theorem merger_transparent_back : ∃ it answers it' s',
    mergerIter (plainOps Entry.key twoKeys)
      ⟨[listSource twoKeys],some (fun _ a _ => some a),none⟩ = .ok (some it) ∧
    (mergerIterOps (plainOps Entry.key twoKeys) 2).calls it [.next,.next,.seek [97],.next] =
      .ok (answers,it') ∧
    (plainOps Entry.key twoKeys).calls twoKeys [.next,.next,.seek [97],.next] =
      .ok (answers,s') := by
  obtain ⟨it,hrun,hall⟩ := merger_transparent (plainOps Entry.key twoKeys) (listSource twoKeys)
    twoKeys (by decide) (by decide) (by decide) _ (plainOps_refines _ _) twoKeys rfl rfl
    (fun _ a _ => some a) none
  have hguard : (mergerIterOps (plainOps Entry.key twoKeys) 2).Guarded (repeatsNoKey twoKeys) it
      [.next,.next,.seek [97],.next] := by
    obtain rfl := Option.some.inj (Except.ok.inj hrun)
    decide +kernel
  obtain ⟨answers,it',s',hcalls,hplain⟩ := hall 2 le_rfl _ hguard
  exact ⟨it,answers,it',s',hrun,hcalls,hplain⟩

/-- A seek to the key just returned passes it over. -/
theorem merger_transparent_fails :
    ¬ ∀ (σ : Type) (I : Ops σ Entry Bytes) (s : Source σ) (es : List Entry), es ≠ [] →
      es.Pairwise (fun a b => a.key < b.key) → (∀ e ∈ es, e.key ≠ []) →
      ∀ (R : σ → List Entry → Prop), Refines Entry.key es I (fun _ _ => True) R →
      ∀ s0, s.iter = .ok (some s0) → R s0 es → ∀ (f : MergeFunc) (dupsort : Option DupsortFunc),
      ∃ it n, mergerIter I ⟨[s],some f,dupsort⟩ = .ok (some it) ∧ ∀ fuel, n ≤ fuel → ∀ calls,
        ∃ answers it' s', (mergerIterOps I fuel).calls it calls = .ok (answers,it') ∧
          I.calls s0 calls = .ok (answers,s') := by
  intro hclaim
  obtain ⟨it,n,hrun,hall⟩ := hclaim _ (plainOps Entry.key twoKeys) (listSource twoKeys) twoKeys
    (by decide) (by decide) (by decide) _ (plainOps_refines _ _) twoKeys rfl rfl
    (fun _ a _ => some a) none
  obtain ⟨answers,it',s',hcalls,hplain⟩ := hall (n+2) (Nat.le_add_right _ _) [.next,.seek [97],.next]
  obtain rfl := Option.some.inj (Except.ok.inj hrun)
  have hfst := congrArg (Except.map Prod.fst) hcalls
  have hfst' := congrArg (Except.map Prod.fst) hplain
  have hsame := hfst.trans hfst'.symm
  cases hsame

end Mtbl
