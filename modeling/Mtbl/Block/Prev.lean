import Mtbl.Block.Seek

/-! Moving to the last entry and back by one. Entries can only be parsed forwards, so both start on
a restart point before the wanted slot and parse until the next slot would be too far. -/
namespace Mtbl
open CRun

namespace BlockIter
variable {bi : BlockIter} {slots : List Slot} {rs : List ℕ} {i : ℕ}

/-- Parsing stops on the slot that ends where slot `k` starts. -/
theorem parseWhileBelow_spec {k : ℕ} (hk : k ≤ slots.length) (fuel : ℕ) (bi : BlockIter) (i : ℕ)
    (h : bi.Slotted slots rs) (hready : bi.Ready slots rs i) (hik : i < k) (hfuel : k < i+fuel) :
    ∃ bi', parseWhileBelow (slotOffset slots k) fuel bi = .ok bi' ∧ bi'.At slots rs (k-1) ∧
      bi.SameBlock bi' := by
  induction fuel generalizing bi i with
  | zero => omega
  | succ fuel ih =>
    obtain ⟨b1,hparse,hat,hsame⟩ := parseNextKey_at h hready (by omega)
    have hmore : b1.next < slotOffset slots k ↔ i+1 < k := by
      rw [hat.next]
      exact h.offset_lt_iff (by omega) hk
    unfold parseWhileBelow
    simp only [hparse,ok_bind,true_and]
    rcases Nat.lt_or_ge (i+1) k with hlt | hge
    · rw [if_pos (hmore.mpr hlt)]
      obtain ⟨b2,hrun,hat',hsame'⟩ := ih b1 (i+1) (hsame.slotted h)
        (hat.ready (hsame.slotted h)) hlt (by omega)
      exact ⟨b2,hrun,hat',hsame.trans hsame'⟩
    · rw [if_neg (by rw [hmore]; omega)]
      obtain rfl : k = i+1 := by omega
      exact ⟨b1,rfl,hat,hsame⟩

/-- On a block without entries the cursor stays invalid. -/
theorem blockIterSeekToLast_spec (h : bi.Slotted slots rs) :
    ∃ bi', blockIterSeekToLast bi = .ok bi' ∧ bi'.Cursor slots rs (slots.length-1) ∧
      bi.SameBlock bi' := by
  have hn := h.count_eq
  have hpos := h.count_pos
  have hr : rs[bi.numRestarts-1]? = some rs[bi.numRestarts-1] :=
    List.getElem?_eq_getElem (by omega)
  obtain ⟨b0,hseek,hready,hsame⟩ := seekToRestartPoint_spec h hr
  have hs := hsame.slotted h
  have hins := h.inside _ (List.mem_of_getElem? hr)
  unfold blockIterSeekToLast blockIterSeekToLastWithin
  simp only [hseek,ok_bind]
  rcases Nat.eq_zero_or_pos slots.length with hz | hlen
  · have hfirst : b0.Ready slots rs slots.length := by
      rwa [hins.resolve_right (by omega),← hz] at hready
    refine ⟨b0.invalidate,?_,.inr ⟨by omega,invalidate_past b0⟩,
      hsame.trans (invalidate_sameBlock b0)⟩
    simp [parseWhileBelow,parseNextKey_past hs hfirst]
  · have hle := h.length_le.trans bi.le_mostEntries
    obtain ⟨b1,hrun,hat,hsame'⟩ := parseWhileBelow_spec le_rfl (bi.mostEntries+1) b0 _ hs hready
      (by omega) (by omega)
    rw [hs.offset_length] at hrun
    exact ⟨b1,hrun,hat.cursor,hsame.trans hsame'⟩

/-- The loop goes down to the last restart before slot `i`; only the first slot has none. -/
theorem prevRestart_spec (fuel : ℕ) (bi : BlockIter) (h : bi.Slotted slots rs) (hi : i < slots.length)
    {r : ℕ} (hr : rs[bi.restartIndex]? = some r) (hri : r ≤ i) (hfuel : bi.restartIndex < fuel) :
    (i = 0 ∧ prevRestart (slotOffset slots i) fuel bi = .ok none) ∨
      ∃ j r', prevRestart (slotOffset slots i) fuel bi = .ok (some { bi with restartIndex := j }) ∧
        rs[j]? = some r' ∧ r' < i := by
  induction fuel generalizing bi r with
  | zero => omega
  | succ fuel ih =>
    have hins := h.inside r (List.mem_of_getElem? hr)
    have hlt := h.offset_lt_iff (show r ≤ slots.length by omega) hi.le
    unfold prevRestart
    simp only [h.point bi rfl rfl rfl _ r hr,ok_bind]
    rcases Nat.lt_or_ge r i with hbefore | hat
    · rw [if_neg (not_le.mpr (hlt.mpr hbefore))]
      exact .inr ⟨bi.restartIndex,r,rfl,hr,hbefore⟩
    · obtain rfl : r = i := le_antisymm hri hat
      rw [if_pos le_rfl]
      split_ifs with hz
      · refine .inl ⟨?_,rfl⟩
        rw [hz,h.first] at hr
        exact (Option.some.inj hr).symm
      · -- the restart before has an earlier slot
        obtain ⟨hidx,rfl⟩ := List.getElem?_eq_some_iff.mp hr
        have hprev : rs[bi.restartIndex-1]? = some rs[bi.restartIndex-1] :=
          List.getElem?_eq_getElem (by omega)
        have hinc := List.pairwise_iff_getElem.mp h.increasing (bi.restartIndex-1) bi.restartIndex
          (by omega) hidx (by omega)
        exact ih { bi with restartIndex := bi.restartIndex-1 } h hprev hinc.le (by simp only; omega)

/-- From the first slot `block_iter_prev` steps off the block. -/
theorem blockIterPrev_spec (h : bi.Slotted slots rs) (ha : bi.At slots rs i) :
    ∃ bi', blockIterPrev bi = .ok bi' ∧ bi'.Cursor slots rs (if i = 0 then slots.length else i-1) ∧
      bi.SameBlock bi' := by
  obtain ⟨r,hr,hri⟩ := ha.restart
  have hlt := ha.lt
  have hle := h.length_le
  unfold blockIterPrev
  simp only [check_of (ha.valid h),ok_bind,ha.current]
  rcases prevRestart_spec (bi.restartIndex+1) bi h hlt hr hri (by omega) with
    ⟨rfl,hnone⟩ | ⟨j,r',hsome,hr',hlt'⟩
  · rw [hnone,if_pos rfl]
    exact ⟨_,rfl,.inr ⟨rfl,invalidate_past bi⟩,invalidate_sameBlock bi⟩
  · obtain ⟨b1,hseek,hready,hsame⟩ := @seekToRestartPoint_spec { bi with restartIndex := j }
      _ _ h _ _ hr'
    have hs := hsame.slotted h
    obtain ⟨b2,hrun,hat,hsame'⟩ := parseWhileBelow_spec hlt.le (b1.mostEntries+1) b1 r' hs hready hlt'
      (by have := hs.length_le.trans b1.le_mostEntries; omega)
    rw [if_neg (by omega)]
    refine ⟨b2,?_,hat.cursor,?_⟩
    · simp only [hsome,ok_bind,hseek,hrun]
    · exact (show bi.SameBlock { bi with restartIndex := j } from ⟨rfl,rfl,rfl,rfl⟩).trans
        (hsame.trans hsame')

end BlockIter

end Mtbl
