import Mtbl.Block.Seek

/-! What the block builder writes is a well-formed block that stores the entries added since the
last reset. -/
namespace Mtbl
open CRun

/-- The builder holds these slots, with a restart at each slot of `rs`. -/
structure Built (b : BlockBuilder) (slots : List Slot) (rs : List ℕ) : Prop where
  buf : b.buf = regionBytes slots
  lastKey : b.lastKey = keyBefore [] slots slots.length
  restarts : b.restarts = rs.map (slotOffset slots)
  sharedOk : SharedOk [] slots
  fits : ∀ s ∈ slots, s.Fits
  first : rs[0]? = some 0
  increasing : rs.Pairwise (· < ·)
  inside : ∀ r ∈ rs, r = 0 ∨ r < slots.length
  restart_shared : ∀ r ∈ rs, ∀ s, slots[r]? = some s → s.shared = 0
  unfinished : b.finished = false
  counter_le : b.counter ≤ b.blockRestartInterval
  counter_le_length : b.counter ≤ slots.length

theorem Built.init (r : ℕ) : Built (blockBuilderInit r) [] [0] where
  buf := rfl
  lastKey := rfl
  restarts := rfl
  sharedOk := trivial
  fits := by simp
  first := rfl
  increasing := by simp
  inside := by simp
  restart_shared := by simp
  unfinished := rfl
  counter_le := Nat.zero_le _
  counter_le_length := Nat.zero_le _

theorem Built.reset (b : BlockBuilder) : Built (blockBuilderReset b) [] [0] :=
  { Built.init b.blockRestartInterval with
    buf := rfl, lastKey := rfl, restarts := rfl, unfinished := rfl, counter_le := Nat.zero_le _,
    counter_le_length := Nat.zero_le _ }

/-! ### Adding an entry -/

theorem keyBefore_append (prev : Bytes) (slots : List Slot) (s : Slot) :
    keyBefore prev (slots++[s]) (slots++[s]).length = s.entry.key := by
  simp [keyBefore]

theorem keyBefore_cons (prev : Bytes) (t : Slot) (slots : List Slot) :
    keyBefore prev (t::slots) (t::slots).length = keyBefore t.entry.key slots slots.length := by
  cases slots with
  | nil => rfl
  | cons u slots => simp [keyBefore]

theorem SharedOk.append {prev : Bytes} {slots : List Slot} {s : Slot} (h : SharedOk prev slots)
    (h1 : s.shared ≤ (keyBefore prev slots slots.length).length)
    (h2 : s.shared ≤ s.entry.key.length)
    (h3 : (keyBefore prev slots slots.length).take s.shared = s.entry.key.take s.shared) :
    SharedOk prev (slots++[s]) := by
  induction slots generalizing prev with
  | nil => exact ⟨h1,h2,h3,trivial⟩
  | cons t slots ih =>
    obtain ⟨ht1,ht2,ht3,ht4⟩ := h
    rw [keyBefore_cons] at h1 h3
    exact ⟨ht1,ht2,ht3,ih ht4 h1 h3⟩

theorem regionBytes_append (slots : List Slot) (s : Slot) :
    regionBytes (slots++[s]) = regionBytes slots++s.bytes := by simp [regionBytes]

theorem slotOffset_append {slots : List Slot} {r : ℕ} (s : Slot) (h : r ≤ slots.length) :
    slotOffset (slots++[s]) r = slotOffset slots r := by
  simp [slotOffset,List.take_append_of_le_length h]

theorem slotOffset_le (slots : List Slot) (r : ℕ) :
    slotOffset slots r ≤ (regionBytes slots).length := by
  have hsplit : regionBytes slots = regionBytes (slots.take r)++regionBytes (slots.drop r) := by
    rw [regionBytes,regionBytes,regionBytes,← List.flatMap_append,List.take_append_drop]
  rw [hsplit,List.length_append,slotOffset]
  omega

theorem Built.le_length {b : BlockBuilder} {slots : List Slot} {rs : List ℕ} (h : Built b slots rs)
    {r : ℕ} (hr : r ∈ rs) : r ≤ slots.length := by
  rcases h.inside r hr with rfl | hlt
  · exact Nat.zero_le _
  · exact hlt.le

theorem Built.restarts_append {b : BlockBuilder} {slots : List Slot} {rs : List ℕ}
    (h : Built b slots rs) (s : Slot) : b.restarts = rs.map (slotOffset (slots++[s])) := by
  rw [h.restarts]
  exact List.map_congr_left (fun r hr => (slotOffset_append s (h.le_length hr)).symm)

/-- What the new key shares with the last, as far as `block_builder_add` uses it. -/
def BlockBuilder.sharedWith (b : BlockBuilder) (key : Bytes) : ℕ :=
  if b.counter < b.blockRestartInterval then diffIndex b.lastKey key else 0

/-- The entry's three lengths fit their 32 bits. -/
def BlockBuilder.Takes (b : BlockBuilder) (e : Entry) : Prop := Slot.Fits ⟨b.sharedWith e.key,e⟩

theorem BlockBuilder.sharedWith_le (b : BlockBuilder) (key : Bytes) :
    b.sharedWith key ≤ key.length := by
  unfold sharedWith
  split_ifs
  · exact diffIndex_le_right _ _
  · exact Nat.zero_le _

theorem Entry.Small.takes {e : Entry} (h : e.Small) (b : BlockBuilder) : b.Takes e :=
  h.fits (b.sharedWith_le e.key)

theorem blockBuilderAdd_eq {b b' : BlockBuilder} {key val : Bytes}
    (hadd : blockBuilderAdd b key val = .ok b') :
    b'.buf = b.buf++encodeEntry (b.sharedWith key) ⟨key,val⟩ ∧ b'.lastKey = key := by
  unfold blockBuilderAdd at hadd
  obtain ⟨-,-,hadd⟩ := bind_eq_ok.mp hadd
  obtain ⟨-,-,hadd⟩ := bind_eq_ok.mp hadd
  unfold BlockBuilder.sharedWith
  split_ifs at hadd ⊢ <;> obtain rfl := Except.ok.inj hadd <;> exact ⟨rfl,rfl⟩

theorem blockBuilderAdd_nonempty {b b' : BlockBuilder} {key val : Bytes}
    (hadd : blockBuilderAdd b key val = .ok b') : blockBuilderEmpty b' = false := by
  have hpos := encodeEntry_pos (b.sharedWith key) ⟨key,val⟩
  have hlength := congrArg List.length (blockBuilderAdd_eq hadd).1
  rw [List.length_append] at hlength
  exact beq_false_of_ne (by omega)

/-- The builder's assertions hold, and will hold. -/
structure BlockBuilder.Ready (b : BlockBuilder) : Prop where
  interval : 0 < b.blockRestartInterval
  counter_le : b.counter ≤ b.blockRestartInterval
  unfinished : b.finished = false

theorem blockBuilderAdd_ready {b : BlockBuilder} (h : b.Ready) (key val : Bytes) :
    ∃ b', blockBuilderAdd b key val = .ok b' ∧ b'.Ready := by
  unfold blockBuilderAdd
  simp only [check_of h.counter_le,check_of h.unfinished,ok_bind]
  split_ifs with hc
  · exact ⟨_,rfl,h.interval,hc,h.unfinished⟩
  · exact ⟨_,rfl,h.interval,h.interval,h.unfinished⟩

/-- Adding an entry adds a slot. A slot that opens a restart interval shares nothing. -/
theorem blockBuilderAdd_spec {b : BlockBuilder} {slots : List Slot} {rs : List ℕ}
    (h : Built b slots rs) (hinterval : 0 < b.blockRestartInterval) {key val : Bytes}
    (htakes : b.Takes ⟨key,val⟩) :
    ∃ b' rs', blockBuilderAdd b key val = .ok b' ∧
      Built b' (slots++[⟨b.sharedWith key,⟨key,val⟩⟩]) rs' ∧
      b'.blockRestartInterval = b.blockRestartInterval := by
  have hallFits : ∀ s ∈ slots++[⟨b.sharedWith key,⟨key,val⟩⟩], s.Fits := by
    intro s hs
    rcases List.mem_append.mp hs with hs | hs
    · exact h.fits s hs
    · rw [List.mem_singleton.mp hs]
      exact htakes
  have hlt := h.counter_le
  have hlen := h.counter_le_length
  unfold blockBuilderAdd
  simp only [check_of h.counter_le,check_of h.unfinished,ok_bind]
  split_ifs with hc
  · -- the slot continues the restart interval
    rw [show b.sharedWith key = diffIndex b.lastKey key from if_pos hc] at hallFits ⊢
    refine ⟨_,rs,rfl,?_,rfl⟩
    exact {
      buf := by simp only [h.buf,regionBytes_append,Slot.bytes]
      lastKey := by rw [keyBefore_append]
      restarts := h.restarts_append _
      sharedOk := h.sharedOk.append (h.lastKey ▸ diffIndex_le_left _ _) (diffIndex_le_right _ _)
        (h.lastKey ▸ take_diffIndex _ _)
      fits := hallFits
      first := h.first
      increasing := h.increasing
      inside := fun r hr => by
        rcases h.inside r hr with h0 | h0
        · exact .inl h0
        · exact .inr (by simp only [List.length_append,List.length_singleton]; omega)
      restart_shared := fun r hr s hs => by
        rcases Nat.lt_or_ge r slots.length with hlt | hge
        · rw [List.getElem?_append_left hlt] at hs
          exact h.restart_shared r hr s hs
        · -- only slot 0 of an empty block can be the new one, and it has no key to share with
          obtain rfl : r = 0 := by
            rcases h.inside r hr with h0 | h0
            · exact h0
            · omega
          obtain rfl : slots = [] := List.length_eq_zero_iff.mp (by omega)
          have hk := h.lastKey
          simp only [List.length_nil,keyBefore] at hk
          obtain rfl := Option.some.inj hs
          simp [hk,diffIndex]
      unfinished := h.unfinished
      counter_le := hc
      counter_le_length := by
        simp only [List.length_append,List.length_singleton]
        omega }
  · -- restart compression
    have hpos : 0 < slots.length := by omega
    rw [show b.sharedWith key = 0 from if_neg hc] at hallFits ⊢
    refine ⟨_,rs++[slots.length],rfl,?_,rfl⟩
    exact {
      buf := by simp only [h.buf,regionBytes_append,Slot.bytes]
      lastKey := by rw [keyBefore_append]
      restarts := by
        simp only [List.map_append,List.map_cons,List.map_nil,slotOffset_append _ le_rfl,
          slotOffset_length,h.restarts_append ⟨0,⟨key,val⟩⟩,h.buf]
      sharedOk := h.sharedOk.append (Nat.zero_le _) (Nat.zero_le _) (by simp)
      fits := hallFits
      first := by
        have := h.first
        rw [List.getElem?_append_left (List.getElem?_eq_some_iff.mp this).1]
        exact this
      increasing := by
        refine List.pairwise_append.mpr ⟨h.increasing,List.pairwise_singleton _ _,?_⟩
        intro r hr r' hr'
        rw [List.mem_singleton.mp hr']
        rcases h.inside r hr with h0 | h0 <;> omega
      inside := fun r hr => by
        simp only [List.length_append,List.length_singleton]
        rcases List.mem_append.mp hr with hr | hr
        · rcases h.inside r hr with h0 | h0
          · exact .inl h0
          · exact .inr (by omega)
        · rw [List.mem_singleton.mp hr]
          exact .inr (by omega)
      restart_shared := fun r hr s hs => by
        rcases List.mem_append.mp hr with hr | hr
        · have hlt : r < slots.length := by
            rcases h.inside r hr with h0 | h0 <;> omega
          rw [List.getElem?_append_left hlt] at hs
          exact h.restart_shared r hr s hs
        · rw [List.mem_singleton.mp hr,List.getElem?_append_right le_rfl,Nat.sub_self] at hs
          rw [← Option.some.inj hs]
      unfinished := h.unfinished
      counter_le := hinterval
      counter_le_length := by
        simp only [List.length_append,List.length_singleton]
        omega }

/-! ### Reading the finished block -/

/-- The width of a restart point in a block whose entries take `n` bytes. -/
def restartWidth (n : ℕ) : ℕ := if n > uint32Max then 8 else 4

theorem encodeRestarts_length (n : ℕ) (xs : List ℕ) :
    (encodeRestarts (decide (n > uint32Max)) xs).length = xs.length*restartWidth n := by
  refine flatMap_length _ _ (fun v => ?_) xs
  by_cases h : n > uint32Max <;> simp [restartWidth,h]

theorem blockBuilderFinish_length (b : BlockBuilder) :
    (blockBuilderFinish b).2.length =
      b.buf.length+b.restarts.length*restartWidth b.buf.length+4 := by
  simp [blockBuilderFinish,encodeRestarts_length,Nat.add_assoc]

/-- The number of restarts is read back from the last four bytes. -/
theorem numRestarts_finish (b : BlockBuilder) (front : Front) (tail : Bytes) (restartOffset : ℕ)
    (hpos : 0 < b.restarts.length) (hcount : b.restarts.length < 2^32) :
    numRestarts ⟨(blockBuilderFinish b).2++tail,(blockBuilderFinish b).2.length,restartOffset,
        front⟩ =
      .ok b.restarts.length := by
  have hlen := blockBuilderFinish_length b
  have hwidth : 4 ≤ restartWidth b.buf.length := by unfold restartWidth; split_ifs <;> omega
  have hmul : 4 ≤ b.restarts.length*restartWidth b.buf.length :=
    hwidth.trans (Nat.le_mul_of_pos_left _ hpos)
  have hdrop : ((blockBuilderFinish b).2++tail).drop ((blockBuilderFinish b).2.length-4) =
      mtblFixedEncode32 b.restarts.length++tail := by
    have hsub : (blockBuilderFinish b).2.length-4 =
        (b.buf++encodeRestarts (decide (b.buf.length > uint32Max)) b.restarts).length := by
      rw [hlen,List.length_append,encodeRestarts_length]
      omega
    rw [hsub]
    simp only [blockBuilderFinish]
    rw [List.append_assoc (b.buf++_),List.drop_left]
  simp only [numRestarts]
  rw [check_of (by omega),ok_bind,hdrop,mtblFixedDecode32_encode32,Nat.mod_eq_of_lt (by omega)]

/-- `block_init` finds the end of the entries, with 32-bit and with 64-bit restarts. Restart points
that are three bytes apart cannot be so many that `1 + num_restarts` wraps with 32-bit restarts. -/
theorem blockInit_finish (b : BlockBuilder) (front : Front) (tail : Bytes) (hpos : 0 < b.restarts.length)
    (hcount : b.restarts.length < 2^32) (hroom : 3*b.restarts.length ≤ b.buf.length+3)
    (hsize : b.buf.length < 2^63) :
    blockInit front ((blockBuilderFinish b).2++tail) (blockBuilderFinish b).2.length =
      .ok ⟨(blockBuilderFinish b).2++tail,(blockBuilderFinish b).2.length,b.buf.length,front⟩ := by
  have hlen := blockBuilderFinish_length b
  generalize hsz : (blockBuilderFinish b).2.length = size at hlen
  have hmax : uint32Max = 2^32-1 := rfl
  have hnum := numRestarts_finish b front tail 0 hpos hcount
  rw [hsz] at hnum
  unfold blockInit
  rw [if_neg (show ¬ size < 4 by omega),hnum,ok_bind]
  by_cases hw : b.buf.length > uint32Max
  · rw [show restartWidth b.buf.length = 8 from if_pos hw] at hlen
    have h32 : restartOffset32 size b.restarts.length > uint32Max := by
      have hwrap : (1+b.restarts.length)%2^32 ≤ 1+b.restarts.length := Nat.mod_le _ _
      have hmod : (size+2^64-(1+b.restarts.length)%2^32*4)%2^64 =
          size-(1+b.restarts.length)%2^32*4 := by
        rw [Nat.sub_add_comm (by omega),Nat.add_mod_right]
        exact Nat.mod_eq_of_lt (by omega)
      rw [restartOffset32,hmod]
      omega
    have h64 : restartOffset64 size b.restarts.length = b.buf.length := by
      unfold restartOffset64
      omega
    rw [h64,if_pos h32,if_neg (by omega)]
    rfl
  · rw [show restartWidth b.buf.length = 4 from if_neg hw] at hlen
    have h32 : restartOffset32 size b.restarts.length = b.buf.length := by
      unfold restartOffset32
      omega
    rw [h32,if_neg hw,if_neg (by omega)]
    rfl

/-- Restart point `j` of the finished block is the `j`-th restart the builder recorded. -/
theorem getRestartPoint_finish (b : BlockBuilder) (tail : Bytes) (hsize : b.buf.length < 2^63)
    (bi : BlockIter) (hdata : bi.data = (blockBuilderFinish b).2++tail)
    (hrestarts : bi.restarts = b.buf.length) (hnum : bi.numRestarts = b.restarts.length)
    {j v : ℕ} (hj : b.restarts[j]? = some v) (hv : v ≤ b.buf.length) :
    getRestartPoint bi j = .ok v := by
  have hlt := (List.getElem?_eq_some_iff.mp hj).1
  have hdrop : ∀ k, k ≤ (encodeRestarts (decide (b.buf.length > uint32Max)) b.restarts).length →
      bi.data.drop (b.buf.length+k) =
      (encodeRestarts (decide (b.buf.length > uint32Max)) b.restarts).drop k++
        (mtblFixedEncode32 b.restarts.length++tail) := by
    intro k hk
    rw [hdata]
    simp only [blockBuilderFinish,List.append_assoc]
    rw [List.drop_length_add_append,List.drop_append_of_le_length hk]
  have hlen := encodeRestarts_length b.buf.length b.restarts
  unfold getRestartPoint
  rw [check_of (hnum ▸ hlt),ok_bind,hrestarts]
  by_cases hw : b.buf.length > uint32Max
  · rw [show restartWidth b.buf.length = 8 from if_pos hw] at hlen
    obtain ⟨rest,hrest⟩ := flatMap_drop mtblFixedEncode64 8 (by simp) b.restarts hj
    rw [if_pos hw,hdrop _ (by omega)]
    simp only [decide_eq_true hw,encodeRestarts,if_true,hrest,List.append_assoc]
    rw [mtblFixedDecode64_encode64,Nat.mod_eq_of_lt (by omega)]
  · rw [show restartWidth b.buf.length = 4 from if_neg hw] at hlen
    obtain ⟨rest,hrest⟩ := flatMap_drop mtblFixedEncode32 4 (by simp) b.restarts hj
    have hmax : uint32Max = 2^32-1 := rfl
    rw [if_neg hw,hdrop _ (by omega)]
    simp only [decide_eq_false hw,encodeRestarts,Bool.false_eq_true,if_false,hrest,
      List.append_assoc]
    rw [mtblFixedDecode32_encode32,Nat.mod_eq_of_lt (by omega)]

/-- A slot takes three bytes at least. -/
theorem regionBytes_length_ge {slots : List Slot} (hfits : ∀ s ∈ slots, s.Fits) :
    3*slots.length ≤ (regionBytes slots).length := by
  induction slots with
  | nil => exact Nat.zero_le _
  | cons s slots ih =>
    obtain ⟨hshared,hsuffix,hval⟩ := hfits s List.mem_cons_self
    have hih := ih (fun t ht => hfits t (List.mem_cons_of_mem s ht))
    have hheader := (headerBytes_length hshared hsuffix hval).1
    have hlen := encodeEntry_length s.shared s.entry
    simp only [regionBytes,List.flatMap_cons,List.length_append,List.length_cons,Slot.bytes] at hih ⊢
    omega

/-- Restart points are slots, one of which the first need not be. -/
theorem Built.restarts_le {b : BlockBuilder} {slots : List Slot} {rs : List ℕ}
    (h : Built b slots rs) : rs.length ≤ slots.length+1 ∧ (slots ≠ [] → rs.length ≤ slots.length) := by
  have hle : ∀ n, (∀ r ∈ rs, r < n) → rs.length ≤ n := by
    intro n hn
    have hsub : rs ⊆ List.range n := fun r hr => List.mem_range.mpr (hn r hr)
    have hnodup : rs.Nodup := h.increasing.imp (fun hlt => hlt.ne)
    have := (List.subperm_of_subset hnodup hsub).length_le
    rwa [List.length_range] at this
  refine ⟨hle _ (fun r hr => ?_),fun hne => hle _ (fun r hr => ?_)⟩
  · rcases h.inside r hr with h0 | h0 <;> omega
  · have := List.length_pos_iff.mpr hne
    rcases h.inside r hr with h0 | h0 <;> omega

theorem Built.room {b : BlockBuilder} {slots : List Slot} {rs : List ℕ} (h : Built b slots rs) :
    3*b.restarts.length ≤ b.buf.length+3 := by
  have hregion := regionBytes_length_ge h.fits
  have hle := h.restarts_le.1
  rw [h.restarts,List.length_map,h.buf]
  omega

/-- Opening the finished block gives an iterator over the slots, behind the last one. -/
theorem Built.finish {b : BlockBuilder} {slots : List Slot} {rs : List ℕ} (h : Built b slots rs)
    (front : Front) (tail : Bytes) (hcount : b.restarts.length < 2^32) (hsize : b.buf.length < 2^63) :
    ∃ B bi, blockInit front ((blockBuilderFinish b).2++tail) (blockBuilderFinish b).2.length = .ok B ∧
      B.restartOffset = b.buf.length ∧ blockIterInit B = .ok bi ∧
      bi.numRestarts = b.restarts.length ∧ bi.Slotted slots rs ∧ bi.Past := by
  have hrs : b.restarts.length = rs.length := by rw [h.restarts,List.length_map]
  have hpos : 0 < b.restarts.length := by
    rw [hrs]
    exact (List.getElem?_eq_some_iff.mp h.first).1
  have hlen := blockBuilderFinish_length b
  have hwidth : 4 ≤ restartWidth b.buf.length := by unfold restartWidth; split_ifs <;> omega
  have hmul : 4 ≤ b.restarts.length*restartWidth b.buf.length :=
    hwidth.trans (Nat.le_mul_of_pos_left _ hpos)
  refine ⟨_,⟨(blockBuilderFinish b).2++tail,b.buf.length,b.restarts.length,b.buf.length,
    b.restarts.length,0,[],0,0,front⟩,blockInit_finish b front tail hpos hcount h.room hsize,rfl,?_,rfl,
    ?_,rfl,rfl⟩
  · simp only [blockIterInit]
    rw [check_of (by omega),ok_bind,numRestarts_finish b front tail _ hpos hcount,ok_bind,
      check_of hpos]
    rfl
  · exact {
      region := ⟨_,by simp only [blockBuilderFinish,h.buf,List.append_assoc]; rfl⟩
      restarts_eq := by rw [h.buf]
      sharedOk := h.sharedOk
      fits := h.fits
      bounded := hsize
      count_eq := hrs
      count_pos := hpos
      count_lt := hcount
      first := h.first
      increasing := h.increasing
      inside := h.inside
      restart_shared := h.restart_shared
      point := by
        intro bi hdata hrestarts hnum j r hr
        have hj : b.restarts[j]? = some (slotOffset slots r) := by
          rw [h.restarts,List.getElem?_map,hr,Option.map_some]
        refine getRestartPoint_finish b tail hsize bi hdata hrestarts hnum hj ?_
        rw [h.buf]
        exact slotOffset_le slots r }

end Mtbl
