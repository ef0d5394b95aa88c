import Mtbl.Block.Cursor

/-! `block_iter_seek` on a block with ascending keys. Galloping and binary search only need to end
on a restart point with no key before it at or after the target; the linear search does the
rest. -/
namespace Mtbl
open CRun

/-- Keys of a sorted block. -/
def KeysAscending (slots : List Slot) : Prop :=
  slots.Pairwise (fun a b => a.entry.key < b.entry.key)

/-- Every slot before `i` holds a key below the target. -/
def Below (slots : List Slot) (target : Bytes) (i : ℕ) : Prop :=
  ∀ k s, k < i → slots[k]? = some s → s.entry.key < target

/-- Position `j` is the first whose key is at or after the target, or the end. -/
structure FirstGe (slots : List Slot) (target : Bytes) (j : ℕ) : Prop where
  below : Below slots target j
  ge : ∀ s, slots[j]? = some s → target ≤ s.entry.key

theorem Below.zero (slots : List Slot) (target : Bytes) : Below slots target 0 :=
  fun _ _ h => absurd h (Nat.not_lt_zero _)

/-- In a sorted block one key below the target puts all earlier keys below it. -/
theorem KeysAscending.below_succ {slots : List Slot} (h : KeysAscending slots) {target : Bytes}
    {i : ℕ} {s : Slot} (hs : slots[i]? = some s) (hlt : s.entry.key < target) :
    Below slots target (i+1) := by
  intro k t hk ht
  obtain ⟨hi,rfl⟩ := List.getElem?_eq_some_iff.mp hs
  obtain ⟨hk',rfl⟩ := List.getElem?_eq_some_iff.mp ht
  rcases Nat.lt_or_ge k i with hki | hki
  · exact (List.pairwise_iff_getElem.mp h k i hk' hi hki).trans hlt
  · obtain rfl : k = i := by omega
    exact hlt

/-- In a sorted block a slot with the target as its key is the first at or after it. -/
theorem KeysAscending.firstGe_of_eq {slots : List Slot} (h : KeysAscending slots) {target : Bytes}
    {i : ℕ} {s : Slot} (hs : slots[i]? = some s) (heq : s.entry.key = target) :
    FirstGe slots target i := by
  constructor
  · intro k t hk ht
    obtain ⟨hi,rfl⟩ := List.getElem?_eq_some_iff.mp hs
    obtain ⟨hk',rfl⟩ := List.getElem?_eq_some_iff.mp ht
    exact heq ▸ List.pairwise_iff_getElem.mp h k i hk' hi hk
  · intro t ht
    obtain rfl : s = t := Option.some.inj (hs.symm.trans ht)
    exact heq.ge

theorem Below.mono {slots : List Slot} {target : Bytes} {i j : ℕ} (h : Below slots target j)
    (hij : i ≤ j) : Below slots target i := fun k s hk hs => h k s (by omega) hs

namespace BlockIter
variable {bi : BlockIter} {slots : List Slot} {rs : List ℕ} {i : ℕ} {target : Bytes}

theorem seekToRestartPoint_spec (h : bi.Slotted slots rs) {j r : ℕ} (hr : rs[j]? = some r) :
    ∃ bi', seekToRestartPoint bi j = .ok bi' ∧ bi'.Ready slots rs r ∧ bi.SameBlock bi' := by
  have hins := h.inside r (List.mem_of_getElem? hr)
  have hle := h.offset_le (show r ≤ slots.length by omega)
  have hbound := h.bounded
  refine ⟨{ bi with key := [], restartIndex := j, next := slotOffset slots r },?_,
    ⟨by omega,rfl,?_,r,hr,le_rfl⟩,⟨rfl,rfl,rfl,rfl⟩⟩
  · rw [seekToRestartPoint,h.point bi rfl rfl rfl j r hr]
    rfl
  · intro s hs
    simp [h.restart_shared r (List.mem_of_getElem? hr) s hs]

theorem blockIterSeekToFirst_spec (h : bi.Slotted slots rs) :
    ∃ bi', blockIterSeekToFirst bi = .ok bi' ∧ bi'.Cursor slots rs 0 ∧ bi.SameBlock bi' := by
  obtain ⟨b0,hseek,hready,hsame⟩ := seekToRestartPoint_spec h h.first
  rcases Nat.eq_zero_or_pos slots.length with hz | hpos
  · have hpast := parseNextKey_past (hsame.slotted h) (by rw [hz]; exact hready)
    exact ⟨b0.invalidate,by simp [blockIterSeekToFirst,hseek,hpast],
      .inr ⟨hz.symm,invalidate_past b0⟩,hsame.trans (invalidate_sameBlock b0)⟩
  · obtain ⟨b1,hparse,hat,hsame'⟩ := parseNextKey_at (hsame.slotted h) hready hpos
    exact ⟨b1,by simp [blockIterSeekToFirst,hseek,hparse],hat.cursor,hsame.trans hsame'⟩

/-- The comparison at a restart point is with the whole key stored there. -/
theorem compareRestartPoint_spec (h : bi.Slotted slots rs) {j r : ℕ} (hr : rs[j]? = some r)
    {s : Slot} (hs : slots[r]? = some s) :
    compareRestartPoint bi j target = .ok (bytesCompare s.entry.key target) := by
  obtain ⟨p,hdec,⟨pre,rest,hdata,hpre⟩,hnext⟩ := h.decode hs
  have hz := h.restart_shared r (List.mem_of_getElem? hr) s hs
  have hins := h.inside r (List.mem_of_getElem? hr)
  have hle := h.offset_le (show r ≤ slots.length by omega)
  have hbound := h.bounded
  have hp : p ≤ bi.restarts := by
    have hle := h.offset_le (show r+1 ≤ slots.length from (List.getElem?_eq_some_iff.mp hs).1)
    omega
  have hread : readSlice bi.data p (min s.entry.key.length target.length) =
      .ok (s.entry.key.take (min s.entry.key.length target.length)) := by
    rw [hz,List.drop_zero] at hdata
    have hd : bi.data = pre++(s.entry.key.take (min s.entry.key.length target.length)++
        (s.entry.key.drop (min s.entry.key.length target.length)++s.entry.val++rest)) := by
      rw [hdata,← List.append_assoc (List.take _ _),← List.append_assoc (List.take _ _),
        List.take_append_drop]
    have hread := readSlice_eq hd
    rwa [hpre,List.length_take,min_assoc,min_comm target.length,← min_assoc,min_self] at hread
  simp only [compareRestartPoint,h.point bi rfl rfl rfl j r hr,ok_bind,decodeAt_of_le hle,hdec,hz,
    check_true,Nat.sub_zero,readAt_of_le hp,hread,bytesCompareLen_take,pure_eq_ok]
  rfl

/-- Every slot before restart `j` holds a key below the target. -/
def BelowRestart (slots : List Slot) (rs : List ℕ) (target : Bytes) (j : ℕ) : Prop :=
  ∀ r, rs[j]? = some r → Below slots target r

theorem BelowRestart.zero (h : bi.Slotted slots rs) : BelowRestart slots rs target 0 := by
  intro r hr
  obtain rfl : 0 = r := Option.some.inj (h.first.symm.trans hr)
  exact Below.zero slots target

/-- A restart point other than the first lies on a slot. -/
theorem restart_slot (h : bi.Slotted slots rs) {j : ℕ} (hj : 0 < j) (hn : j < bi.numRestarts) :
    ∃ r s, rs[j]? = some r ∧ slots[r]? = some s := by
  have hlen : j < rs.length := by have := h.count_eq; omega
  have hr : rs[j]? = some rs[j] := List.getElem?_eq_getElem hlen
  have hpos : 0 < rs.length := by omega
  have h0 : rs[0] = 0 :=
    Option.some.inj ((List.getElem?_eq_getElem hpos).symm.trans h.first)
  have hlt := List.pairwise_iff_getElem.mp h.increasing 0 j (by omega) hlen hj
  have hins := h.inside _ (List.mem_of_getElem? hr)
  exact ⟨_,_,hr,List.getElem?_eq_getElem (show rs[j] < slots.length by omega)⟩

/-- The stride never exceeds the index it is added to, so the 32-bit sums do not wrap. -/
theorem gallop_spec (h : bi.Stores slots rs) (hsort : KeysAscending slots) (fuel left right i
    incr : ℕ) (hleft : left < bi.numRestarts) (hright : right < bi.numRestarts)
    (hi : i < bi.numRestarts) (hincr : 1 ≤ incr) (hle : incr ≤ i)
    (hbelow : BelowRestart slots rs target left) (hfuel : bi.numRestarts < i+fuel) :
    ∃ l r, gallop bi target fuel left right i incr = .ok (l,r) ∧ l < bi.numRestarts ∧
      r < bi.numRestarts ∧ BelowRestart slots rs target l := by
  induction fuel generalizing left right i incr with
  | zero => omega
  | succ fuel ih =>
    obtain ⟨r,s,hr,hs⟩ := restart_slot h.toSlotted (show 0 < i by omega) hi
    have hlt := h.few
    unfold gallop
    simp only [compareRestartPoint_spec h.toSlotted hr hs,ok_bind,bytesCompare_neg]
    split_ifs with hcmp hpast
    · have hb : BelowRestart slots rs target i := by
        intro r' hr'
        obtain rfl : r = r' := Option.some.inj (hr.symm.trans hr')
        exact (hsort.below_succ hs hcmp).mono (by omega)
      exact ⟨i,bi.numRestarts-1,rfl,hi,by omega,hb⟩
    · have hb : BelowRestart slots rs target i := by
        intro r' hr'
        obtain rfl : r = r' := Option.some.inj (hr.symm.trans hr')
        exact (hsort.below_succ hs hcmp).mono (by omega)
      rw [Nat.mod_eq_of_lt (show i+incr < 2^32 by omega)] at hpast ⊢
      rw [Nat.mod_eq_of_lt (show incr*2 < 2^32 by omega)]
      exact ih i (i+incr) (i+incr) (incr*2) hi (by omega) (by omega) (by omega) (by omega) hb
        (by omega)
    · exact ⟨left,right,rfl,hleft,hright,hbelow⟩

/-- The midpoint lies above `left`, so `right` falls or `left` rises. -/
theorem binarySearch_spec (h : bi.Stores slots rs) (hsort : KeysAscending slots)
    (fuel left right : ℕ) (hleft : left < bi.numRestarts) (hright : right < bi.numRestarts)
    (hbelow : BelowRestart slots rs target left) (hfuel : right-left < fuel) :
    ∃ l, binarySearch bi target fuel left right = .ok l ∧ l < bi.numRestarts ∧
      BelowRestart slots rs target l := by
  induction fuel generalizing left right with
  | zero => omega
  | succ fuel ih =>
    have hlt := h.few
    unfold binarySearch
    split_ifs with hlr
    · rw [Nat.mod_eq_of_lt (show left+right+1 < 2^32 by omega)]
      obtain ⟨r,s,hr,hs⟩ := restart_slot h.toSlotted (show 0 < (left+right+1)/2 by omega)
        (show (left+right+1)/2 < bi.numRestarts by omega)
      simp only [compareRestartPoint_spec h.toSlotted hr hs,ok_bind,bytesCompare_neg]
      split_ifs with hcmp
      · refine ih _ _ (by omega) hright ?_ (by omega)
        intro r' hr'
        obtain rfl : r = r' := Option.some.inj (hr.symm.trans hr')
        exact (hsort.below_succ hs hcmp).mono (by omega)
      · rw [Nat.add_sub_assoc (by norm_num),Nat.add_comm,← Nat.sub_add_comm (by norm_num)]
        exact ih _ _ hleft (by omega) hbelow (by omega)
    · exact ⟨left,rfl,hleft,hbelow⟩

/-- From a slot with only smaller keys before it, the linear search stops on the first key at or
after the target. -/
theorem linearSearch_spec (fuel : ℕ) (bi : BlockIter) (i : ℕ) (h : bi.Slotted slots rs)
    (hready : bi.Ready slots rs i) (hbelow : Below slots target i)
    (hfuel : slots.length < i+fuel) :
    ∃ bi' j, linearSearch target fuel bi = .ok bi' ∧ bi'.Cursor slots rs j ∧
      FirstGe slots target j ∧ bi.SameBlock bi' := by
  induction fuel generalizing bi i with
  | zero => have := hready.le; omega
  | succ fuel ih =>
    rcases Nat.lt_or_ge i slots.length with hlt | hge
    · obtain ⟨b1,hparse,hat,hsame⟩ := parseNextKey_at h hready hlt
      obtain ⟨s,hs,hk,-⟩ := hat.entry
      have hstep : linearSearch target (fuel+1) bi =
          if bytesCompare s.entry.key target ≥ 0 then .ok b1 else linearSearch target fuel b1 := by
        simp [linearSearch,hparse,hk]
      rw [hstep]
      split_ifs with hcmp
      · refine ⟨b1,i,rfl,hat.cursor,⟨hbelow,?_⟩,hsame⟩
        intro t ht
        obtain rfl : s = t := Option.some.inj (hs.symm.trans ht)
        simpa using hcmp
      · have hb : Below slots target (i+1) := by
          intro k t hk ht
          rcases Nat.lt_or_ge k i with hki | hki
          · exact hbelow k t hki ht
          · obtain rfl : k = i := by omega
            obtain rfl : s = t := Option.some.inj (hs.symm.trans ht)
            simpa using hcmp
        obtain ⟨b2,j,hrun,hcur,hge,hsame'⟩ := ih b1 (i+1) (hsame.slotted h)
          (hat.ready (hsame.slotted h)) hb (by omega)
        exact ⟨b2,j,hrun,hcur,hge,hsame.trans hsame'⟩
    · obtain rfl : i = slots.length := le_antisymm hready.le hge
      refine ⟨bi.invalidate,slots.length,?_,.inr ⟨rfl,invalidate_past bi⟩,⟨hbelow,?_⟩,
        invalidate_sameBlock bi⟩
      · simp [linearSearch,parseNextKey_past h hready]
      · intro s hs
        simp at hs

theorem restartBounds_spec (h : bi.Stores slots rs) (hsort : KeysAscending slots)
    (hri : bi.restartIndex ≤ bi.numRestarts) (target : Bytes) :
    ∃ l r, restartBounds (bi.numRestarts+1) bi target = .ok (l,r) ∧ l < bi.numRestarts ∧
      r < bi.numRestarts ∧ BelowRestart slots rs target l := by
  have hn := h.count_pos
  unfold restartBounds
  split_ifs with hg
  · exact gallop_spec h hsort _ 0 _ _ 1 hn (by omega) (by omega) le_rfl (by omega)
      (BelowRestart.zero h.toSlotted) (by omega)
  · exact ⟨0,_,rfl,hn,by omega,BelowRestart.zero h.toSlotted⟩

theorem seekRestart_spec (h : bi.Stores slots rs) (hsort : KeysAscending slots)
    (hri : bi.restartIndex ≤ bi.numRestarts) (target : Bytes) :
    ∃ l, seekRestart (bi.numRestarts+1) bi target = .ok l ∧ l < bi.numRestarts ∧
      BelowRestart slots rs target l := by
  obtain ⟨l,r,hgallop,hl,hr,hbelow⟩ := restartBounds_spec h hsort hri target
  simp only [seekRestart,hgallop,ok_bind]
  unfold narrowRestart
  split_ifs with hb
  · exact binarySearch_spec h hsort _ l r hl hr hbelow (by omega)
  · exact ⟨l,rfl,hl,hbelow⟩

/-- Whatever the position before, seeking ends on the first key at or after the target. -/
theorem blockIterSeek_spec (h : bi.Stores slots rs) (hsort : KeysAscending slots)
    (hc : bi.Cursor slots rs i) (target : Bytes) :
    ∃ bi' j, blockIterSeek bi target = .ok bi' ∧ bi'.Cursor slots rs j ∧
      FirstGe slots target j ∧ bi.SameBlock bi' := by
  have hlen := h.length_le.trans bi.le_mostEntries
  have hcount := h.count_eq
  have hri : bi.restartIndex ≤ bi.numRestarts := by
    rcases hc with ⟨-,ha⟩ | ⟨-,hp⟩
    · obtain ⟨r,hr,-⟩ := ha.restart
      have := (List.getElem?_eq_some_iff.mp hr).1
      omega
    · exact hp.restartIndex.le
  obtain ⟨l,hsearch,hl,hbelow⟩ := seekRestart_spec h hsort hri target
  have hrestart : bi.restartIndex = l → ∃ i, bi.At slots rs i ∧ bi.Cursor slots rs i := by
    intro heq
    rcases hc with ⟨-,ha⟩ | ⟨-,hp⟩
    · exact ⟨_,ha,ha.cursor⟩
    · have := hp.restartIndex
      omega
  unfold blockIterSeek blockIterSeekWithin
  simp only [hsearch,ok_bind,seekFrom,bytesCompare_neg,bytesCompare_eq_zero]
  split_ifs with heq hlt
  · -- the current entry is the target
    obtain ⟨i,ha,hcur⟩ := hrestart heq.1
    obtain ⟨s,hs,hk,-⟩ := ha.entry
    exact ⟨bi,i,rfl,hcur,hsort.firstGe_of_eq hs (hk.symm.trans heq.2),.refl bi⟩
  · -- the target lies after the current entry
    obtain ⟨i,ha,-⟩ := hrestart hlt.1
    obtain ⟨s,hs,hk,-⟩ := ha.entry
    exact linearSearch_spec (bi.mostEntries+1) bi (i+1) h.toSlotted (ha.ready h.toSlotted)
      (hsort.below_succ hs (hk ▸ hlt.2)) (by omega)
  · -- a linear search from restart `l`, which is sound whatever the position before
    have hr : rs[l]? = some rs[l] := List.getElem?_eq_getElem (by omega)
    obtain ⟨b0,hseek,hready,hsame⟩ := seekToRestartPoint_spec h.toSlotted hr
    obtain ⟨b1,j,hrun,hcur,hge,hsame'⟩ := linearSearch_spec (bi.mostEntries+1) b0 _
      (hsame.slotted h.toSlotted) hready (hbelow _ hr) (by omega)
    exact ⟨b1,j,by simp [hseek,hrun],hcur,hge,hsame.trans hsame'⟩

end BlockIter

end Mtbl
