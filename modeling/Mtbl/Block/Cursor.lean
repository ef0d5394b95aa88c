import Mtbl.Block.Layout

/-! The block iterator as a cursor over the slots of a well-formed block. `At i` is the iterator on
slot `i`, `Ready i` the iterator about to parse slot `i`, `Past` the iterator behind the last
slot. -/
namespace Mtbl
open CRun

namespace BlockIter

abbrev Slotted (bi : BlockIter) (slots : List Slot) (rs : List ℕ) : Prop :=
  Mtbl.Slotted bi.data bi.restarts bi.numRestarts slots rs

abbrev Stores (bi : BlockIter) (slots : List Slot) (rs : List ℕ) : Prop :=
  Mtbl.Stores bi.data bi.restarts bi.numRestarts slots rs

/-- No operation changes which block the iterator reads. -/
structure SameBlock (a b : BlockIter) : Prop where
  data : b.data = a.data
  restarts : b.restarts = a.restarts
  numRestarts : b.numRestarts = a.numRestarts
  front : b.front = a.front

@[refl] theorem SameBlock.refl (a : BlockIter) : SameBlock a a := ⟨rfl,rfl,rfl,rfl⟩

theorem SameBlock.trans {a b c : BlockIter} (h : SameBlock a b) (h' : SameBlock b c) :
    SameBlock a c :=
  ⟨h'.data.trans h.data,h'.restarts.trans h.restarts,h'.numRestarts.trans h.numRestarts,
    h'.front.trans h.front⟩

theorem SameBlock.wraps {a b : BlockIter} (h : SameBlock a b) (p : ℕ) : b.Wraps p ↔ a.Wraps p := by
  unfold Wraps
  rw [h.restarts,h.front]

theorem SameBlock.view {a b : BlockIter} (h : SameBlock a b) (p : ℕ) : b.view p = a.view p := by
  simp only [BlockIter.view,fromFront,h.wraps,h.data,h.restarts,h.front]

theorem SameBlock.offsetOf {a b : BlockIter} (h : SameBlock a b) (p i : ℕ) :
    b.offsetOf p i = a.offsetOf p i := by simp only [BlockIter.offsetOf,h.wraps]

theorem SameBlock.advance {a b : BlockIter} (h : SameBlock a b) (p n : ℕ) :
    b.advance p n = a.advance p n := by simp only [BlockIter.advance,h.wraps]

theorem SameBlock.farPast {a b : BlockIter} (h : SameBlock a b) (p : ℕ) :
    b.FarPast p ↔ a.FarPast p := by
  rw [FarPast,FarPast,h.wraps,h.restarts]

theorem SameBlock.decodeAt {a b : BlockIter} (h : SameBlock a b) (p : ℕ) :
    Mtbl.decodeAt b p = Mtbl.decodeAt a p := by
  simp only [Mtbl.decodeAt,h.farPast,h.view,h.offsetOf]

theorem SameBlock.slotted {a b : BlockIter} (h : SameBlock a b) {slots : List Slot} {rs : List ℕ}
    (hs : a.Slotted slots rs) : b.Slotted slots rs := by
  unfold BlockIter.Slotted
  rw [h.data,h.restarts,h.numRestarts]
  exact hs

theorem SameBlock.stores {a b : BlockIter} (h : SameBlock a b) {slots : List Slot} {rs : List ℕ}
    (hs : a.Stores slots rs) : b.Stores slots rs :=
  ⟨h.slotted hs.toSlotted,by rw [h.numRestarts]; exact hs.few⟩

/-- The restart index names a restart at or before slot `i`, and no later restart is before it. At
a restart boundary it may lag behind by one. -/
structure At (bi : BlockIter) (slots : List Slot) (rs : List ℕ) (i : ℕ) : Prop where
  current : bi.current = slotOffset slots i
  next : bi.next = slotOffset slots (i+1)
  entry : ∃ s, slots[i]? = some s ∧ bi.key = s.entry.key ∧
    (bi.data.drop bi.val).take bi.valLen = s.entry.val
  restart : ∃ r, rs[bi.restartIndex]? = some r ∧ r ≤ i

structure Ready (bi : BlockIter) (slots : List Slot) (rs : List ℕ) (i : ℕ) : Prop where
  le : i ≤ slots.length
  next : bi.next = slotOffset slots i
  key : ∀ s, slots[i]? = some s → s.shared ≤ bi.key.length ∧
    bi.key.take s.shared = s.entry.key.take s.shared
  restart : ∃ r, rs[bi.restartIndex]? = some r ∧ r ≤ i

structure Past (bi : BlockIter) : Prop where
  current : bi.current = bi.restarts
  restartIndex : bi.restartIndex = bi.numRestarts

/-- The cursor at position `i`, where the number of slots stands for the end. -/
def Cursor (bi : BlockIter) (slots : List Slot) (rs : List ℕ) (i : ℕ) : Prop :=
  (i < slots.length ∧ bi.At slots rs i) ∨ (i = slots.length ∧ bi.Past)

variable {bi : BlockIter} {slots : List Slot} {rs : List ℕ} {i : ℕ}

theorem At.lt (h : bi.At slots rs i) : i < slots.length := by
  obtain ⟨s,hs,-⟩ := h.entry
  exact (List.getElem?_eq_some_iff.mp hs).1

theorem At.cursor (h : bi.At slots rs i) : bi.Cursor slots rs i := .inl ⟨h.lt,h⟩

theorem At.valid (h : bi.Slotted slots rs) (ha : bi.At slots rs i) : blockIterValid bi = true := by
  have hlt := h.offset_lt ha.lt le_rfl
  rw [h.offset_length] at hlt
  simpa [blockIterValid,ha.current] using hlt

theorem Past.valid (h : bi.Past) : blockIterValid bi = false := by
  simp [blockIterValid,h.current]

theorem At.get (h : bi.Slotted slots rs) (ha : bi.At slots rs i) {s : Slot}
    (hs : slots[i]? = some s) : blockIterGet bi = some s.entry := by
  obtain ⟨t,ht,hk,hv⟩ := ha.entry
  obtain rfl : t = s := by rw [ht] at hs; exact Option.some.inj hs
  simp [blockIterGet,ha.valid h,hk,hv]

theorem Past.get (h : bi.Past) : blockIterGet bi = none := by simp [blockIterGet,h.valid]

theorem Cursor.get (h : bi.Slotted slots rs) (hc : bi.Cursor slots rs i) :
    blockIterGet bi = (slots[i]?).map Slot.entry := by
  rcases hc with ⟨hi,ha⟩ | ⟨hi,hp⟩
  · rw [ha.get h (List.getElem?_eq_getElem hi),List.getElem?_eq_getElem hi]
    rfl
  · rw [hp.get,List.getElem?_eq_none (by omega)]
    rfl

/-- After an entry the iterator is ready for the next one: the key buffer holds the key in front
of it. -/
theorem At.ready (h : bi.Slotted slots rs) (ha : bi.At slots rs i) : bi.Ready slots rs (i+1) where
  le := ha.lt
  next := ha.next
  key s hs := by
    obtain ⟨t,ht,hk,-⟩ := ha.entry
    obtain ⟨-,h1,-,h2⟩ := h.get hs
    simp only [keyBefore,ht] at h1 h2
    rw [hk]
    exact ⟨h1,h2⟩
  restart := by
    obtain ⟨r,hr,hle⟩ := ha.restart
    exact ⟨r,hr,by omega⟩

/-- The loop only moves the restart index, and keeps it at or before the current slot. -/
theorem skipRestarts_spec (fuel : ℕ) (bi : BlockIter) (h : bi.Slotted slots rs)
    (hi : i ≤ slots.length) (hcur : bi.current = slotOffset slots i)
    (hr : ∃ r, rs[bi.restartIndex]? = some r ∧ r ≤ i)
    (hfuel : bi.numRestarts < bi.restartIndex+fuel) :
    ∃ j, skipRestarts fuel bi = .ok { bi with restartIndex := j } ∧
      ∃ r, rs[j]? = some r ∧ r ≤ i := by
  induction fuel generalizing bi with
  | zero =>
    obtain ⟨r,hr,-⟩ := hr
    have := (List.getElem?_eq_some_iff.mp hr).1
    have := h.count_eq
    omega
  | succ fuel ih =>
    obtain ⟨r,hr,hri⟩ := hr
    have hlen := (List.getElem?_eq_some_iff.mp hr).1
    have hn := h.count_eq
    have hlt := h.count_lt
    have hmod : (bi.restartIndex+1)%2^32 = bi.restartIndex+1 := Nat.mod_eq_of_lt (by omega)
    unfold skipRestarts
    simp only [hmod]
    by_cases hnext : bi.restartIndex+1 < bi.numRestarts
    · have hr' : rs[bi.restartIndex+1]? = some rs[bi.restartIndex+1] :=
        List.getElem?_eq_getElem (by omega)
      have hins := h.inside _ (List.mem_of_getElem? hr')
      simp only [hnext,if_true,h.point bi rfl rfl rfl _ _ hr',ok_bind]
      by_cases hlt' : slotOffset slots rs[bi.restartIndex+1] < bi.current
      · have hle := (h.offset_lt_iff (by omega) hi).mp (hcur ▸ hlt')
        simp only [hlt',if_true]
        exact ih { bi with restartIndex := bi.restartIndex+1 } h hcur ⟨_,hr',hle.le⟩
          (by simp only; omega)
      · simp only [hlt',if_false]
        exact ⟨bi.restartIndex,rfl,r,hr,hri⟩
    · simp only [hnext,if_false]
      exact ⟨bi.restartIndex,rfl,r,hr,hri⟩

theorem readSlice_eq {data pre s t : Bytes} (h : data = pre++(s++t)) :
    readSlice data pre.length s.length = .ok s := by
  subst h
  simp [readSlice]

/-- Parsing at a slot succeeds and leaves the iterator on it. -/
theorem parseNextKey_at (h : bi.Slotted slots rs) (hready : bi.Ready slots rs i)
    (hi : i < slots.length) :
    ∃ bi', parseNextKey bi = .ok (bi',true) ∧ bi'.At slots rs i ∧ bi.SameBlock bi' := by
  have hs : slots[i]? = some slots[i] := List.getElem?_eq_getElem hi
  generalize slots[i] = s at hs
  obtain ⟨p,hdec,⟨pre,rest,hdata,hpre⟩,hnext⟩ := h.decode hs
  obtain ⟨hkl,hkt⟩ := hready.key s hs
  have hoff := h.offset_lt hi le_rfl
  rw [h.offset_length] at hoff
  have hsuf : readSlice bi.data p (s.entry.key.length-s.shared) =
      .ok (s.entry.key.drop s.shared) := by
    rw [List.append_assoc] at hdata
    have hread := readSlice_eq hdata
    rwa [hpre,List.length_drop] at hread
  have hval : (bi.data.drop (p+(s.entry.key.length-s.shared))).take s.entry.val.length =
      s.entry.val := by
    have hd : bi.data = (pre++s.entry.key.drop s.shared)++(s.entry.val++rest) := by
      rw [hdata]
      simp only [List.append_assoc]
    have hl : (pre++s.entry.key.drop s.shared).length = p+(s.entry.key.length-s.shared) := by
      rw [List.length_append,List.length_drop,hpre]
    rw [hd,← hl,List.drop_left,List.take_left]
  have hkey : bi.key.take s.shared++s.entry.key.drop s.shared = s.entry.key := by
    rw [hkt,List.take_append_drop]
  have hn := h.count_eq
  obtain ⟨j,hskip,r,hr,hri⟩ := skipRestarts_spec (bi.numRestarts+1)
    { bi with current := bi.next, key := s.entry.key,
              next := p+(s.entry.key.length-s.shared)+s.entry.val.length,
              val := p+(s.entry.key.length-s.shared), valLen := s.entry.val.length } h hi.le
    hready.next hready.restart (by simp only; omega)
  have hp : p ≤ bi.restarts := by
    have hle := h.offset_le (show i+1 ≤ slots.length from hi)
    omega
  have hparse : parseNextKey bi = .ok ({ bi with
      current := bi.next, key := s.entry.key, restartIndex := j,
      next := p+(s.entry.key.length-s.shared)+s.entry.val.length,
      val := p+(s.entry.key.length-s.shared), valLen := s.entry.val.length },true) := by
    unfold parseNextKey
    rw [← hready.next] at hdec hoff
    rw [if_neg (by rintro ⟨hend,-⟩; omega),decodeAt_of_le (by omega),hdec]
    simp only [ok_bind,check_of (show ¬ bi.key.length < s.shared by omega),readAt_of_le hp,hsuf,hkey,
      bi.advance_of_le hp,← Nat.add_assoc,hskip]
    rfl
  exact ⟨_,hparse,⟨hready.next,hnext,⟨s,hs,rfl,hval⟩,r,hr,hri⟩,⟨rfl,rfl,rfl,rfl⟩⟩

/-- Parsing behind the last slot invalidates the iterator. -/
theorem parseNextKey_past (h : bi.Slotted slots rs) (hready : bi.Ready slots rs slots.length) :
    parseNextKey bi = .ok (bi.invalidate,false) := by
  unfold parseNextKey
  rw [hready.next,h.offset_length,if_pos ⟨le_rfl,bi.not_wraps le_rfl⟩]
  rfl

theorem invalidate_past (bi : BlockIter) : bi.invalidate.Past := ⟨rfl,rfl⟩

theorem invalidate_sameBlock (bi : BlockIter) : bi.SameBlock bi.invalidate := ⟨rfl,rfl,rfl,rfl⟩

/-- `block_iter_next` moves the cursor by one, and leaves it at the end once there. -/
theorem blockIterNext_spec (h : bi.Slotted slots rs) (hc : bi.Cursor slots rs i) :
    ∃ bi', blockIterNext bi = .ok (bi',decide (i+1 < slots.length)) ∧
      bi'.Cursor slots rs (min (i+1) slots.length) ∧ bi.SameBlock bi' := by
  rcases hc with ⟨hi,ha⟩ | ⟨hi,hp⟩
  · have hready := ha.ready h
    rcases Nat.lt_or_ge (i+1) slots.length with hlt | hge
    · obtain ⟨bi',hparse,ha',hsame⟩ := parseNextKey_at h hready hlt
      refine ⟨bi',?_,by rw [min_eq_left hlt.le]; exact ha'.cursor,hsame⟩
      simp [blockIterNext,ha.valid h,hparse,ha'.valid (hsame.slotted h),hlt]
    · have hlast : i+1 = slots.length := by omega
      rw [hlast] at hready
      refine ⟨bi.invalidate,?_,.inr ⟨by omega,invalidate_past bi⟩,invalidate_sameBlock bi⟩
      simp [blockIterNext,ha.valid h,parseNextKey_past h hready,(invalidate_past bi).valid,hlast]
  · refine ⟨bi,?_,.inr ⟨by omega,hp⟩,.refl bi⟩
    simp [blockIterNext,hp.valid,show ¬ i+1 < slots.length by omega]

end BlockIter

end Mtbl
