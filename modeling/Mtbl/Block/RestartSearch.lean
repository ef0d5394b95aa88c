import Mtbl.Block.Progress

/-! The search among restart points. Its indexes, its strides and the sums that it forms are 32 bits
wide, and a block may have any number of restart points below 2^32: with more than 2^31 of them the
sum of the two bounds of the binary search can wrap. -/
namespace Mtbl
open CRun

/-- The sums that yield an index do not wrap, every index is one of a restart point, and the loops
end. -/
structure SearchSafe (bi : BlockIter) (target : Bytes) : Prop where
  gallop : bi.numRestarts ≠ bi.restartIndex ∧ bi.restartIndex ≠ 0 →
    ∀ s, Rounds (gallopRound bi target) (0,bi.restartIndex,bi.restartIndex,1) s →
      s.2.2.1 < bi.numRestarts ∧
      ∀ c, compareRestartPoint bi s.2.2.1 target = .ok c → c < 0 →
        (s.2.2.1+s.2.2.2)%2^32 ≤ bi.numRestarts-1 →
        s.2.2.1+s.2.2.2 < 2^32 ∧ s.2.2.2*2 < 2^32
  binary : ∀ fuel p, restartBounds fuel bi target = .ok p → p.1+1 < p.2 →
    ∀ s, Rounds (binaryRound bi target) p s → s.1 < s.2 →
      s.1+s.2+1 < 2^32 ∧ (s.1+s.2+1)/2 < bi.numRestarts
  found : ∀ fuel left, seekRestart fuel bi target = .ok left → left < bi.numRestarts
  stops : Stops (fun fuel => seekRestart fuel bi target)

/-! ### The restart index of an iterator -/

section
variable {bi bi' b : BlockIter} {fuel : ℕ}

/-- The restart index is that of a restart point or one past the last. -/
def BlockIter.IndexOk (bi : BlockIter) : Prop := bi.restartIndex ≤ bi.numRestarts

theorem skipRestarts_indexOk (hbi : bi.IndexOk) (h : skipRestarts fuel bi = .ok bi') :
    bi'.IndexOk := by
  induction fuel generalizing bi with
  | zero => cases h
  | succ fuel ih =>
    unfold skipRestarts at h
    simp only at h
    split_ifs at h with hnext
    · obtain ⟨point,-,h⟩ := bind_eq_ok.mp h
      split_ifs at h
      · exact @ih { bi with restartIndex := (bi.restartIndex+1)%2^32 } hnext.le h
      · obtain rfl := Except.ok.inj h
        exact hbi
    · obtain rfl := Except.ok.inj h
      exact hbi

theorem parseNextKey_indexOk {more : Bool} (hbi : bi.IndexOk)
    (h : parseNextKey bi = .ok (bi',more)) : bi'.IndexOk := by
  unfold parseNextKey at h
  by_cases hend : bi.restarts ≤ bi.next ∧ ¬ bi.Wraps bi.next
  · rw [if_pos hend] at h
    obtain ⟨rfl,-⟩ := Prod.mk.inj (Except.ok.inj h)
    exact le_refl bi.numRestarts
  rw [if_neg hend] at h
  obtain ⟨r,-,h⟩ := bind_eq_ok.mp h
  cases r with
  | none => cases h
  | some r =>
    obtain ⟨_,-,h⟩ := bind_eq_ok.mp h
    obtain ⟨suffix,-,h⟩ := bind_eq_ok.mp h
    obtain ⟨b,hskip,h⟩ := bind_eq_ok.mp h
    obtain ⟨rfl,-⟩ := Prod.mk.inj (Except.ok.inj h)
    exact @skipRestarts_indexOk { bi with
      current := bi.next, key := bi.key.take r.2.1++suffix
      next := bi.advance r.1 (r.2.2.1+r.2.2.2), val := bi.advance r.1 r.2.2.1
      valLen := r.2.2.2 } _ _ hbi hskip

theorem seekToRestartPoint_indexOk {idx : ℕ} (h : seekToRestartPoint bi idx = .ok bi') :
    bi'.IndexOk := by
  obtain ⟨offset,hpoint,h⟩ := bind_eq_ok.mp h
  obtain rfl := Except.ok.inj h
  obtain ⟨_,hcheck,-⟩ := bind_eq_ok.mp hpoint
  exact (check_eq_ok.mp hcheck).le

theorem parseWhileBelow_indexOk {bound : ℕ} (hbi : bi.IndexOk)
    (h : parseWhileBelow bound fuel bi = .ok bi') : bi'.IndexOk := by
  induction fuel generalizing bi with
  | zero => cases h
  | succ fuel ih =>
    obtain ⟨⟨b,more⟩,hparse,h⟩ := bind_eq_ok.mp h
    have hb := parseNextKey_indexOk hbi hparse
    simp only at h
    split_ifs at h
    · exact ih hb h
    · obtain rfl := Except.ok.inj h
      exact hb

theorem linearSearch_indexOk {target : Bytes} (hbi : bi.IndexOk)
    (h : linearSearch target fuel bi = .ok bi') : bi'.IndexOk := by
  induction fuel generalizing bi with
  | zero => cases h
  | succ fuel ih =>
    obtain ⟨⟨b,more⟩,hparse,h⟩ := bind_eq_ok.mp h
    have hb := parseNextKey_indexOk hbi hparse
    simp only at h
    split_ifs at h
    · obtain rfl := Except.ok.inj h
      exact hb
    · obtain rfl := Except.ok.inj h
      exact hb
    · exact ih hb h

theorem blockIterCall_indexOk {c : BlockCall} (hbi : bi.IndexOk)
    (h : blockIterCall bi c = .ok bi') : bi'.IndexOk := by
  cases c with
  | seekToFirst =>
    obtain ⟨b,hseek,h⟩ := bind_eq_ok.mp h
    obtain ⟨⟨b1,more⟩,hparse,h⟩ := bind_eq_ok.mp h
    obtain rfl := Except.ok.inj h
    exact parseNextKey_indexOk (seekToRestartPoint_indexOk hseek) hparse
  | seekToLast =>
    obtain ⟨b,hseek,h⟩ := bind_eq_ok.mp h
    exact parseWhileBelow_indexOk (seekToRestartPoint_indexOk hseek) h
  | seek target =>
    obtain ⟨left,-,h⟩ := bind_eq_ok.mp h
    obtain ⟨o,hfrom,h⟩ := bind_eq_ok.mp h
    unfold seekFrom at hfrom
    simp only at hfrom
    split_ifs at hfrom
    · obtain rfl := Except.ok.inj hfrom
      obtain rfl := Except.ok.inj h
      exact hbi
    · obtain rfl := Except.ok.inj hfrom
      exact linearSearch_indexOk hbi h
    · obtain ⟨b,hseek,hb⟩ := bind_eq_ok.mp hfrom
      obtain rfl := Except.ok.inj hb
      exact linearSearch_indexOk (seekToRestartPoint_indexOk hseek) h
  | next =>
    obtain ⟨⟨b,more⟩,hnext,h⟩ := bind_eq_ok.mp h
    obtain rfl := Except.ok.inj h
    unfold blockIterNext at hnext
    split_ifs at hnext
    · obtain ⟨rfl,-⟩ := Prod.mk.inj (Except.ok.inj hnext)
      exact hbi
    · obtain ⟨⟨b1,more'⟩,hparse,hnext⟩ := bind_eq_ok.mp hnext
      obtain ⟨rfl,-⟩ := Prod.mk.inj (Except.ok.inj hnext)
      exact parseNextKey_indexOk hbi hparse
  | prev =>
    obtain ⟨_,-,h⟩ := bind_eq_ok.mp h
    obtain ⟨o,-,h⟩ := bind_eq_ok.mp h
    cases o with
    | none =>
      obtain rfl := Except.ok.inj h
      exact le_refl bi.numRestarts
    | some b =>
      obtain ⟨b1,hseek,h⟩ := bind_eq_ok.mp h
      exact parseWhileBelow_indexOk (seekToRestartPoint_indexOk hseek) h

theorem blockIterRun_indexOk {cs : List BlockCall} (hbi : bi.IndexOk)
    (h : blockIterRun bi cs = .ok bi') : bi'.IndexOk := by
  induction cs generalizing bi with
  | nil =>
    obtain rfl := Except.ok.inj h
    exact hbi
  | cons c cs ih =>
    obtain ⟨b,hcall,h⟩ := bind_eq_ok.mp h
    exact ih (blockIterCall_indexOk hbi hcall) h

/-! ### Up to 2^31 restart points -/

theorem seekRestart_lt (hn : bi.numRestarts ≤ 2^31) (hpos : 0 < bi.numRestarts) {target : Bytes}
    {left : ℕ} (h : seekRestart fuel bi target = .ok left) : left < bi.numRestarts := by
  obtain ⟨⟨l,r⟩,hp,h⟩ := bind_eq_ok.mp h
  have hbounds := restartBounds_lt hpos hp
  simp only [narrowRestart] at h
  split_ifs at h
  · rw [binarySearch_eq_loop] at h
    obtain ⟨t,ht,hleave⟩ := loop_returns.mp ⟨fuel,h⟩
    have hlt := binaryRounds_lt hn hbounds ht
    unfold binaryRound at hleave
    split_ifs at hleave
    · obtain ⟨c,-,hleave⟩ := bind_eq_ok.mp hleave
      split_ifs at hleave <;> cases hleave
    · obtain rfl := Sum.inr.inj (Except.ok.inj hleave)
      exact hlt.1
  · obtain rfl := Except.ok.inj h
    exact hbounds.1

/-- The search is then safe exactly if it reads no other memory. -/
theorem searchSafe_iff_of_le {size : ℕ} (hf : bi.Framed size) (hn : bi.numRestarts ≤ 2^31)
    (hindex : bi.IndexOk) (target : Bytes) : SearchSafe bi target ↔ SearchReads bi target := by
  have hfits := searchFits_of_le hn hf.count_pos target
  have hstops := seekRestart_stops hf hfits
  refine ⟨fun h => hstops.mp h.stops,fun hreads => ⟨fun ⟨hne,hri⟩ s hs => ⟨?_,fun c hcmp hneg hle => ?_⟩,
    fun fuel p hp _ s hs hlt => ?_,fun fuel left h => seekRestart_lt hn hf.count_pos h,
    hstops.mpr hreads⟩⟩
  · have hstart : bi.restartIndex < bi.numRestarts := lt_of_le_of_ne hindex (Ne.symm hne)
    refine hs.invariant (P := fun s => s.2.2.1 < bi.numRestarts) hstart (fun t t' _ hc => ?_)
    obtain ⟨-,hle,rfl⟩ := gallopRound_continues hc
    have := hf.count_pos
    simp only
    omega
  · have hsum := hfits.gallop hri s c hs hcmp hneg
    obtain ⟨-,hstride⟩ := gallop_invariant hri (hfits.gallop hri) hs
    rw [Nat.mod_eq_of_lt hsum] at hle
    omega
  · have hsum := hfits.binary fuel p s hp hs
    have hbelow := binaryRounds_lt hn (restartBounds_lt hf.count_pos hp) hs
    omega

end

/-! ### More of them -/

/-- One entry, key `a`, in an entry region of 4 GiB, and `n` restart points of 64 bits at it. -/
def manyRestarts (n : ℕ) : Bytes :=
  [0,1,0,97]++(List.replicate (2^32-4) 0++(List.replicate (8*n) 0++leBytes 4 n))

/-- A new iterator of the block. -/
def manyRestartsIter (n : ℕ) : BlockIter := ⟨manyRestarts n,2^32,n,2^32,n,0,[],0,0,⟨4096,[]⟩⟩

theorem manyRestarts_length (n : ℕ) : (manyRestarts n).length = 2^32+8*n+4 := by
  simp only [manyRestarts,List.length_append,List.length_replicate,leBytes_length,List.length_cons,
    List.length_nil]
  omega

/-- What lies behind the entry region and some of the restart points. -/
theorem manyRestarts_drop (n : ℕ) {k : ℕ} (hk : k ≤ 8*n) :
    (manyRestarts n).drop (2^32+k) = List.replicate (8*n-k) 0++leBytes 4 n := by
  have hfront : manyRestarts n =
      ([0,1,0,97]++(List.replicate (2^32-4) 0++List.replicate k 0))++
        (List.replicate (8*n-k) 0++leBytes 4 n) := by
    have hsplit : List.replicate (8*n) (0 : UInt8) =
        List.replicate k 0++List.replicate (8*n-k) 0 := by
      rw [List.replicate_append_replicate,Nat.add_sub_cancel' hk]
    rw [manyRestarts,hsplit]
    simp only [List.append_assoc]
  rw [hfront]
  apply List.drop_left'
  simp only [List.length_append,List.length_replicate,List.length_cons,List.length_nil]
  omega

theorem manyRestarts_accepted {n : ℕ} (hpos : 0 < n) (hn : n < 2^32) :
    blockInit ⟨4096,[]⟩ (manyRestarts n) (2^32+8*n+4) =
      .ok ⟨manyRestarts n,2^32+8*n+4,2^32,⟨4096,[]⟩⟩ ∧
    blockIterInit ⟨manyRestarts n,2^32+8*n+4,2^32,⟨4096,[]⟩⟩ = .ok (manyRestartsIter n) := by
  have hmax : uint32Max = 2^32-1 := rfl
  have hcount : ∀ o, numRestarts ⟨manyRestarts n,2^32+8*n+4,o,⟨4096,[]⟩⟩ = .ok n := by
    intro o
    have hdec := leValue_leBytes 4 n []
    rw [List.append_nil,Nat.mod_eq_of_lt (by omega)] at hdec
    have hdrop := manyRestarts_drop n (le_refl (8*n))
    rw [Nat.sub_self,List.replicate_zero,List.nil_append] at hdrop
    rw [numRestarts,check_of (by simp only; omega),ok_bind]
    simp only [Nat.add_sub_cancel,hdrop]
    exact hdec
  have h32 : restartOffset32 (2^32+8*n+4) n > uint32Max := by
    unfold restartOffset32
    omega
  have h64 : restartOffset64 (2^32+8*n+4) n = 2^32 := by
    unfold restartOffset64
    omega
  constructor
  · unfold blockInit
    rw [if_neg (by omega),hcount,ok_bind,if_pos h32,h64,if_neg (by omega)]
    rfl
  · rw [blockIterInit,check_of (by simp only; omega),ok_bind,hcount,ok_bind,check_of hpos,ok_bind]
    rfl

section
variable {bi : BlockIter} {n : ℕ}

theorem manyRestarts_point (hdata : bi.data = manyRestarts n) (hrestarts : bi.restarts = 2^32)
    (hcount : bi.numRestarts = n) {idx : ℕ} (hidx : idx < n) : getRestartPoint bi idx = .ok 0 := by
  have hwide : bi.restarts > uint32Max := by
    rw [hrestarts]
    exact Nat.lt_succ_self _
  have hzeros : List.replicate (8*n-idx*8) (0 : UInt8) =
      leBytes 8 0++List.replicate (8*n-idx*8-8) 0 := by
    rw [show 8*n-idx*8 = 8+(8*n-idx*8-8) by omega,← List.replicate_append_replicate,
      Nat.add_sub_cancel_left]
    rfl
  rw [getRestartPoint,check_of (by rwa [hcount]),ok_bind,if_pos hwide,hdata,hrestarts,
    manyRestarts_drop n (by omega),hzeros,List.append_assoc]
  exact leValue_leBytes 8 0 _

/-- Every restart point of the block is below the target `b`. -/
theorem manyRestarts_compare (hdata : bi.data = manyRestarts n) (hrestarts : bi.restarts = 2^32)
    (hcount : bi.numRestarts = n) {idx : ℕ} (hidx : idx < n) :
    compareRestartPoint bi idx [98] = .ok (-1) := by
  have hdecode : decodeEntry bi.data 0 bi.restarts = .ok (some (3,0,1,0)) := by
    rw [hdata,hrestarts]
    rfl
  have hkey : readSlice bi.data 3 1 = .ok [97] := by
    rw [readSlice,hdata,manyRestarts_length,if_pos (by omega)]
    rfl
  rw [compareRestartPoint,manyRestarts_point hdata hrestarts hcount hidx,ok_bind,
    decodeAt_of_le (Nat.zero_le _),hdecode]
  have hread : readAt bi 3 1 = .ok [97] := by
    rw [readAt_of_le (by rw [hrestarts]; norm_num),hkey]
  exact congrArg (fun x : Run Bytes => x >>= fun key => pure (bytesCompareLen key 1 [98] 1)) hread

/-- The binary search climbs towards the last restart point until the sum of its bounds wraps, and
then starts over. -/
theorem manyRestarts_never_stops (hmany : 2^31 < n) (hn : n < 2^32) (fuel : ℕ) :
    seekRestart fuel (manyRestartsIter n) [98] = .error .fuel := by
  have hround : ∀ s : ℕ × ℕ, s.1 < n-1 ∧ s.2 = n-1 → ∃ s', Continues
      (binaryRound (manyRestartsIter n) [98]) s s' ∧ s'.1 < n-1 ∧ s'.2 = n-1 := by
    rintro ⟨left,right⟩ ⟨hlt,hright⟩
    simp only at hlt hright
    subst hright
    have hmid : ((left+(n-1)+1)%2^32)/2 < n-1 := by omega
    refine ⟨(((left+(n-1)+1)%2^32)/2,n-1),?_,hmid,rfl⟩
    have hcmp := @manyRestarts_compare (manyRestartsIter n) n rfl rfl rfl
      (((left+(n-1)+1)%2^32)/2) (by omega)
    rw [Continues,binaryRound,if_pos hlt]
    simp only [hcmp,ok_bind]
    rfl
  have hbounds : restartBounds fuel (manyRestartsIter n) [98] = .ok (0,n-1) := by
    rw [restartBounds,if_neg (fun h => h.1 rfl)]
    rfl
  rw [seekRestart,hbounds,ok_bind]
  simp only [narrowRestart]
  rw [if_pos (by omega),binarySearch_eq_loop]
  exact loop_never_stops hround .refl ⟨by omega,rfl⟩ fuel

theorem manyRestarts_framed (hpos : 0 < n) (hn : n < 2^32) :
    (manyRestartsIter n).Framed (2^32+8*n+4) := by
  obtain ⟨hinit,hiter⟩ := manyRestarts_accepted hpos hn
  exact (blockIterInit_framed (manyRestarts_length n).ge (by omega) hinit hiter).1

/-- Whatever is compared is the one entry. -/
theorem manyRestarts_reads (hpos : 0 < n) (hn : n < 2^32) : SearchReads (manyRestartsIter n) [98] := by
  have hreads : ∀ i, PointReads (manyRestartsIter n) [98] i := by
    intro i p hp
    have hi : i < n := by
      obtain ⟨_,hcheck,-⟩ := bind_eq_ok.mp hp
      exact check_eq_ok.mp hcheck
    have hcmp := @manyRestarts_compare (manyRestartsIter n) n rfl rfl rfl i hi
    exact (compareRestartPoint_halts (manyRestarts_framed hpos hn) i [98]).mp (.inr ⟨_,hcmp⟩) p hp
  exact ⟨fun _ s _ => hreads _,fun _ _ _ _ _ _ _ => hreads _⟩

theorem manyRestarts_not_safe (hmany : 2^31 < n) (hn : n < 2^32) :
    ¬ SearchSafe (manyRestartsIter n) [98] := by
  intro h
  obtain ⟨fuel,hfuel⟩ := h.stops
  have hhalts : Halts (seekRestart fuel (manyRestartsIter n) [98]) := hfuel fuel le_rfl
  rw [manyRestarts_never_stops hmany hn fuel] at hhalts
  exact not_halts_error (by decide) hhalts

end

/-- With `n` restart points, if these are at most 2^31 and not otherwise, the search in every block, from
every state of an iterator and for every target, is safe exactly if the restart points that it compares
can be read. -/
theorem restart_search_safe_iff (n : ℕ) (hpos : 1 ≤ n) (hn : n < 2^32) :
    (∀ (front : Front) (data : Bytes) (size : ℕ) (B : Block) (bi0 bi : BlockIter)
      (cs : List BlockCall) (target : Bytes), size ≤ data.length → size < 2^63 →
      blockInit front data size = .ok B → blockIterInit B = .ok bi0 → bi0.numRestarts = n →
      blockIterRun bi0 cs = .ok bi → (SearchSafe bi target ↔ SearchReads bi target)) ↔
      n ≤ 2^31 := by
  constructor
  · intro h
    by_contra hmany
    obtain ⟨hinit,hiter⟩ := manyRestarts_accepted hpos hn
    have hsafe := h _ _ _ _ _ _ [] [98] (manyRestarts_length n).ge (by omega) hinit hiter rfl rfl
    exact manyRestarts_not_safe (not_le.mp hmany) hn (hsafe.mpr (manyRestarts_reads hpos hn))
  · intro hle front data size B bi0 bi cs target hmem hlt hinit hiter hcount hrun
    have hf := (blockIterInit_framed hmem (by omega) hinit hiter).1
    have hindex : bi0.IndexOk := by
      obtain ⟨m,rfl⟩ := blockIterInit_eq_ok hiter
      exact le_refl m
    have hsame := (blockIterRun_moved (blockIterInit_onDecoded hiter) hrun).sameBlock
    refine searchSafe_iff_of_le (hsame.framed hf) ?_ (blockIterRun_indexOk hindex hrun) target
    rw [hsame.numRestarts,hcount]
    exact hle

/-- Five entries, keys `a` to `e`, with a restart point each. -/
def fiveEntryBlock : Bytes :=
  [0,1,1,97,1,0,1,1,98,1,0,1,1,99,1,0,1,1,100,1,0,1,1,101,1,
    0,0,0,0,5,0,0,0,10,0,0,0,15,0,0,0,20,0,0,0,5,0,0,0]

/-- On the third entry, the search for the fourth gallops to the last restart point, and binary search
goes on between the third and it. -/
theorem restart_search_safe_five : ∃ bi,
    blockIterRun ⟨fiveEntryBlock,25,5,25,5,0,[],0,0,⟨4096,[]⟩⟩ [.seekToFirst,.next,.next] = .ok bi ∧
    restartBounds 4 bi [100] = .ok (2,4) ∧ seekRestart 4 bi [100] = .ok 2 ∧ SearchSafe bi [100] := by
  have hinit : blockInit ⟨4096,[]⟩ fiveEntryBlock 49 = .ok ⟨fiveEntryBlock,49,25,⟨4096,[]⟩⟩ := by
    decide
  have hiter : blockIterInit ⟨fiveEntryBlock,49,25,⟨4096,[]⟩⟩ =
      .ok ⟨fiveEntryBlock,25,5,25,5,0,[],0,0,⟨4096,[]⟩⟩ := by decide
  have hrun : blockIterRun ⟨fiveEntryBlock,25,5,25,5,0,[],0,0,⟨4096,[]⟩⟩ [.seekToFirst,.next,.next] =
      .ok ⟨fiveEntryBlock,25,5,10,1,15,[99],14,1,⟨4096,[]⟩⟩ := by decide +kernel
  have hseek : seekRestart 4 ⟨fiveEntryBlock,25,5,10,1,15,[99],14,1,⟨4096,[]⟩⟩ [100] = .ok 2 := by
    decide +kernel
  have hf : BlockIter.Framed ⟨fiveEntryBlock,25,5,10,1,15,[99],14,1,⟨4096,[]⟩⟩ 49 :=
    ⟨by decide,by decide,by decide,by decide⟩
  have hreads := (seekRestart_stops hf (searchFits_of_le (by decide) (by decide) [100])).mp
    ((seekRestart_steady _ [100]).stops hseek)
  exact ⟨_,hrun,by decide +kernel,hseek,((restart_search_safe_iff 5 (by decide) (by decide)).mpr
    (by decide) ⟨4096,[]⟩ fiveEntryBlock 49 _ _ _ _ [100] (by decide) (by decide) hinit hiter rfl
    hrun).mpr hreads⟩

/-- One restart point more than 2^31: the block is accepted, and on a new iterator `block_iter_seek`
never returns, though all that it reads is in memory. -/
theorem restart_search_safe_fails :
    blockInit ⟨4096,[]⟩ (manyRestarts (2^31+1)) (2^32+8*(2^31+1)+4) =
      .ok ⟨manyRestarts (2^31+1),2^32+8*(2^31+1)+4,2^32,⟨4096,[]⟩⟩ ∧
    blockIterInit ⟨manyRestarts (2^31+1),2^32+8*(2^31+1)+4,2^32,⟨4096,[]⟩⟩ =
      .ok (manyRestartsIter (2^31+1)) ∧
    SearchReads (manyRestartsIter (2^31+1)) [98] ∧
    (∀ fuel, seekRestart fuel (manyRestartsIter (2^31+1)) [98] = .error .fuel) ∧
    ¬ SearchSafe (manyRestartsIter (2^31+1)) [98] := by
  have hn : 2^31+1 < 2^32 := by norm_num
  obtain ⟨hinit,hiter⟩ := manyRestarts_accepted (Nat.succ_pos _) hn
  exact ⟨hinit,hiter,manyRestarts_reads (Nat.succ_pos _) hn,
    manyRestarts_never_stops (Nat.lt_succ_self _) hn,manyRestarts_not_safe (Nat.lt_succ_self _) hn⟩

end Mtbl
