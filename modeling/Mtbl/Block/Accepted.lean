import Mtbl.Block.Build

/-! Blocks of arbitrary bytes. What `block_init` and `block_iter_init` check bounds the restart
array, so restart points can always be read. The entries are checked one by one as they are
decoded. -/
namespace Mtbl
open CRun

/-- The restart array and its length end the block, which lies in memory. -/
structure BlockIter.Framed (bi : BlockIter) (size : ℕ) : Prop where
  layout : bi.restarts+bi.numRestarts*restartWidth bi.restarts+4 = size
  size_le : size ≤ bi.data.length
  count_pos : 0 < bi.numRestarts
  count_lt : bi.numRestarts < 2^32

theorem numRestarts_lt {B : Block} {n : ℕ} (h : numRestarts B = .ok n) :
    8 ≤ B.size ∧ n < 2^32 := by
  obtain ⟨_,hcheck,hdec⟩ := bind_eq_ok.mp h
  rw [check_eq_ok] at hcheck
  exact ⟨hcheck,(leValue_lt hdec).1⟩

/-- A block that passes the checks of `block_init` has its restart array where the width of its
restarts puts it. -/
theorem blockInit_layout {front : Front} {data : Bytes} {size : ℕ} {B : Block} (hlt : size < 2^64)
    (hinit : blockInit front data size = .ok B) (hsize : 8 ≤ B.size) :
    B.data = data ∧ B.front = front ∧ B.size = size ∧ ∃ n, numRestarts B = .ok n ∧
      B.restartOffset+n*restartWidth B.restartOffset+4 = size := by
  have hmax : uint32Max = 2^32-1 := rfl
  unfold blockInit at hinit
  split_ifs at hinit with hsmall
  · obtain rfl := Except.ok.inj hinit
    simp at hsize
  · obtain ⟨n,hn,hinit⟩ := bind_eq_ok.mp hinit
    have hn' : ∀ o, numRestarts ⟨data,size,o,front⟩ = .ok n := fun o => hn
    have hlt' := (numRestarts_lt hn).2
    have h32 : restartOffset32 size n = (size+2^64-((1+n)%2^32)*4)%2^64 := rfl
    have h64 : restartOffset64 size n = (size+2^64-(4+n*8))%2^64 := rfl
    split_ifs at hinit with hw hbad hpast
    · obtain rfl := Except.ok.inj hinit
      simp at hsize
    · obtain rfl := Except.ok.inj hinit
      refine ⟨rfl,rfl,rfl,n,hn' _,?_⟩
      simp only [restartWidth]
      rw [if_pos (by omega)]
      omega
    · obtain rfl := Except.ok.inj hinit
      simp at hsize
    · obtain rfl := Except.ok.inj hinit
      refine ⟨rfl,rfl,rfl,n,hn' _,?_⟩
      simp only [restartWidth]
      rw [if_neg hw]
      omega

theorem blockIterInit_framed {front : Front} {data : Bytes} {size : ℕ} {B : Block} {bi : BlockIter}
    (hmem : size ≤ data.length) (hlt : size < 2^64) (hinit : blockInit front data size = .ok B)
    (hiter : blockIterInit B = .ok bi) : bi.Framed size ∧ bi.data = data ∧ bi.front = front := by
  obtain ⟨_,hcheck,hiter⟩ := bind_eq_ok.mp hiter
  obtain ⟨n,hn,hiter⟩ := bind_eq_ok.mp hiter
  obtain ⟨_,hpos,hiter⟩ := bind_eq_ok.mp hiter
  obtain rfl := Except.ok.inj hiter
  rw [check_eq_ok] at hcheck hpos
  obtain ⟨hdata,hfront,-,n',hn',hlayout⟩ := blockInit_layout hlt hinit hcheck
  obtain rfl := Except.ok.inj (hn.symm.trans hn')
  exact ⟨⟨hlayout,by rw [hdata]; exact hmem,hpos,(numRestarts_lt hn).2⟩,hdata,hfront⟩

namespace BlockIter
variable {bi : BlockIter} {size : ℕ}

theorem SameBlock.framed {a b : BlockIter} (h : SameBlock a b) (hf : a.Framed size) :
    b.Framed size := by
  obtain ⟨h1,h2,h3,h4⟩ := hf
  constructor
  · rw [h.restarts,h.numRestarts]
    exact h1
  · rw [h.data]
    exact h2
  · rw [h.numRestarts]
    exact h3
  · rw [h.numRestarts]
    exact h4

theorem Framed.restartPoint (h : bi.Framed size) {idx : ℕ} (hidx : idx < bi.numRestarts) :
    ∃ v, getRestartPoint bi idx = .ok v := by
  have hmul := Nat.mul_le_mul_right (restartWidth bi.restarts)
    (show idx+1 ≤ bi.numRestarts from hidx)
  have hlayout := h.layout
  have hmem := h.size_le
  unfold getRestartPoint
  rw [check_of hidx,ok_bind]
  by_cases hw : bi.restarts > uint32Max
  · rw [restartWidth,if_pos hw] at hlayout hmul
    rw [if_pos hw]
    obtain ⟨v,hv,-⟩ := @leValue_ok 8 (bi.data.drop (bi.restarts+idx*8))
      (by rw [List.length_drop]; omega)
    exact ⟨v,hv⟩
  · rw [restartWidth,if_neg hw] at hlayout hmul
    rw [if_neg hw]
    obtain ⟨v,hv,-⟩ := @leValue_ok 4 (bi.data.drop (bi.restarts+idx*4))
      (by rw [List.length_drop]; omega)
    exact ⟨v,hv⟩

/-- The loop over the restart array only moves the restart index, and ends. -/
theorem Framed.skipRestarts (fuel : ℕ) (bi : BlockIter) (h : bi.Framed size)
    (hfuel : bi.numRestarts-(bi.restartIndex+1)%2^32 < fuel) :
    ∃ j, Mtbl.skipRestarts fuel bi = .ok { bi with restartIndex := j } := by
  induction fuel generalizing bi with
  | zero => omega
  | succ fuel ih =>
    have hlt := h.count_lt
    unfold Mtbl.skipRestarts
    by_cases hnext : (bi.restartIndex+1)%2^32 < bi.numRestarts
    · obtain ⟨point,hpoint⟩ := h.restartPoint hnext
      simp only [hnext,if_true,hpoint,ok_bind]
      by_cases hbefore : point < bi.current
      · simp only [hbefore,if_true]
        obtain ⟨j,hj⟩ := ih { bi with restartIndex := (bi.restartIndex+1)%2^32 }
          ⟨h.layout,h.size_le,h.count_pos,h.count_lt⟩ (by simp only; omega)
        exact ⟨j,hj⟩
      · simp only [hbefore,if_false]
        exact ⟨bi.restartIndex,rfl⟩
    · simp only [hnext,if_false]
      exact ⟨bi.restartIndex,rfl⟩

end BlockIter

theorem blockInit_size {front : Front} {data : Bytes} {size : ℕ} {B : Block} (h : blockInit front data size = .ok B) :
    B.size = 0 ∨ B.size = size := by
  unfold blockInit at h
  split_ifs at h with hsmall
  · obtain rfl := Except.ok.inj h
    exact .inl rfl
  · obtain ⟨n,-,h⟩ := bind_eq_ok.mp h
    split_ifs at h
    · obtain rfl := Except.ok.inj h
      exact .inl rfl
    · obtain rfl := Except.ok.inj h
      exact .inr rfl
    · obtain rfl := Except.ok.inj h
      exact .inl rfl
    · obtain rfl := Except.ok.inj h
      exact .inr rfl

/-- The restart count at the end of the block can be read, and `block_init` goes on. -/
theorem blockInit_returns (front : Front) {data : Bytes} {size : ℕ} (hsize : 8 ≤ size)
    (hmem : size ≤ data.length) :
    ∃ n B, numRestarts ⟨data,size,0,front⟩ = .ok n ∧ blockInit front data size = .ok B := by
  obtain ⟨n,hn,-⟩ := @leValue_ok 4 (data.drop (size-4)) (by rw [List.length_drop]; omega)
  have hcount : numRestarts ⟨data,size,0,front⟩ = .ok n := by
    rw [numRestarts,check_of (by omega),ok_bind]
    exact hn
  have hinit : ∃ B, blockInit front data size = .ok B := by
    rw [blockInit,if_neg (by omega),hcount,ok_bind]
    split_ifs <;> exact ⟨_,rfl⟩
  obtain ⟨B,hB⟩ := hinit
  exact ⟨n,B,hcount,hB⟩

/-- A restart point is read from its slot alone. -/
theorem getRestartPoint_grow {bi : BlockIter} {data : Bytes} {idx point : ℕ}
    (h : getRestartPoint { bi with data := data } idx = .ok point) (hpre : data <+: bi.data) :
    getRestartPoint bi idx = .ok point := by
  unfold getRestartPoint at h ⊢
  obtain ⟨_,hcheck,hread⟩ := bind_eq_ok.mp h
  rw [hcheck,ok_bind]
  split_ifs at hread ⊢ with hw
  · exact leValue_grow hread (hpre.drop _)
  · exact leValue_grow hread (hpre.drop _)

/-- `block_init` rejects the block, or its restart array fits between the entries and the count: the
slots of all restarts are in the block, whatever comes behind it in memory. -/
theorem block_header_exact (front : Front) (data : Bytes) (size : ℕ) (hsize : 8 ≤ size) (hlt : size < 2^63)
    (hmem : size ≤ data.length) : ∃ n B, numRestarts ⟨data,size,0,front⟩ = .ok n ∧ n < 2^32 ∧
      blockInit front data size = .ok B ∧ (B.size = 0 ∨ B.size = size ∧
        B.restartOffset+n*restartWidth B.restartOffset+4 = size ∧
        ∀ bi : BlockIter, data.take size <+: bi.data → bi.restarts = B.restartOffset →
          bi.numRestarts = n → ∀ idx < n,
            B.restartOffset+(idx+1)*restartWidth B.restartOffset ≤ size-4 ∧
              ∃ point, getRestartPoint { bi with data := data.take size } idx = .ok point ∧
                getRestartPoint bi idx = .ok point) := by
  obtain ⟨n,B,hn,hinit⟩ := blockInit_returns front hsize hmem
  refine ⟨n,B,hn,(numRestarts_lt hn).2,hinit,?_⟩
  rcases blockInit_size hinit with hzero | hsame
  · exact .inl hzero
  · obtain ⟨hdata,-,-,m,hm,hlayout⟩ := blockInit_layout (hlt.trans (by norm_num)) hinit (by omega)
    have hnm : m = n := by
      have hcount : numRestarts B = numRestarts ⟨data,size,0,front⟩ := by
        rw [numRestarts,numRestarts,hdata,hsame]
      exact Except.ok.inj (hm.symm.trans (hcount.trans hn))
    subst hnm
    refine .inr ⟨hsame,hlayout,fun bi hpre hrestarts hcount idx hidx => ⟨?_,?_⟩⟩
    · have hmul := Nat.mul_le_mul_right (restartWidth B.restartOffset) (show idx+1 ≤ m from hidx)
      omega
    · have hframed : { bi with data := data.take size }.Framed size := by
        refine ⟨?_,(List.length_take_of_le hmem).ge,by simp only; omega,?_⟩
        · simp only [hrestarts,hcount]
          exact hlayout
        · simp only [hcount]
          exact (numRestarts_lt hn).2
      obtain ⟨point,hpoint⟩ := hframed.restartPoint (show idx < bi.numRestarts by omega)
      exact ⟨point,hpoint,getRestartPoint_grow hpoint hpre⟩

/-- One entry, one restart and the count. -/
theorem block_header_exact_one : ∃ n B,
    numRestarts ⟨[0,1,0,97,0,0,0,0,1,0,0,0],12,0,⟨0,[]⟩⟩ = .ok n ∧
      blockInit ⟨0,[]⟩ [0,1,0,97,0,0,0,0,1,0,0,0] 12 = .ok B ∧
      B.restartOffset+n*restartWidth B.restartOffset+4 = 12 := by
  obtain ⟨n,B,hn,-,hinit,hfits⟩ := block_header_exact ⟨0,[]⟩ [0,1,0,97,0,0,0,0,1,0,0,0] 12 (by decide)
    (by norm_num) (by decide)
  refine ⟨n,B,hn,hinit,?_⟩
  rcases hfits with hzero | hfits
  · have hrun : blockInit ⟨0,[]⟩ [0,1,0,97,0,0,0,0,1,0,0,0] 12 =
        .ok ⟨[0,1,0,97,0,0,0,0,1,0,0,0],12,4,⟨0,[]⟩⟩ := by decide +kernel
    obtain rfl := Except.ok.inj (hinit.symm.trans hrun)
    cases hzero
  · exact hfits.2.1

/-! ### One entry -/

/-- The value pointer, and the lengths that the header at `pos` spells. -/
def headerAt (data : Bytes) (pos : ℕ) : Run (ℕ × ℕ × ℕ × ℕ) := do
  let (n,shared) ← mtblVarintDecode32 (data.drop pos)
  let (m,nonShared) ← mtblVarintDecode32 (data.drop (pos+n))
  let (l,valueLength) ← mtblVarintDecode32 (data.drop (pos+n+m))
  return (pos+n+m+l,shared,nonShared,valueLength)

theorem readByte_eq_ok {data : Bytes} {p n : ℕ} (h : readByte data p = .ok n) :
    ∃ b, data.drop p = b::data.drop (p+1) ∧ b.toNat = n := by
  unfold readByte at h
  cases hb : data[p]? with
  | none => simp [hb] at h
  | some b =>
    obtain ⟨hp,rfl⟩ := List.getElem?_eq_some_iff.mp hb
    rw [hb] at h
    exact ⟨_,List.drop_eq_getElem_cons hp,Except.ok.inj h⟩

theorem mtblVarintDecode32_byte {b : UInt8} (hb : b.toNat < 128) (rest : Bytes) :
    mtblVarintDecode32 (b::rest) = .ok (1,b.toNat) := by
  have hdec := mtblVarintDecode32_encode32 (v := b.toNat) (by omega) rest
  have henc : mtblVarintEncode32 b.toNat = [b] := by
    rcases mtblVarintEncode32_head (v := b.toNat) (by omega) with ⟨-,h⟩ | ⟨x,xs,hge,-⟩
    · rw [h,UInt8.ofNat_toNat]
    · omega
  rwa [henc] at hdec

/-- The fast path reads what three varints spell. -/
theorem headerAt_bytes {data : Bytes} {pos a b c : ℕ} (ha : readByte data pos = .ok a)
    (hb : readByte data (pos+1) = .ok b) (hc : readByte data (pos+2) = .ok c)
    (hor : (a ||| b ||| c) < 128) : headerAt data pos = .ok (pos+3,a,b,c) := by
  obtain ⟨x,hx,rfl⟩ := readByte_eq_ok ha
  obtain ⟨y,hy,rfl⟩ := readByte_eq_ok hb
  obtain ⟨z,hz,rfl⟩ := readByte_eq_ok hc
  have hxlt : x.toNat < 128 := (Nat.left_le_or.trans Nat.left_le_or).trans_lt hor
  have hylt : y.toNat < 128 := (Nat.right_le_or.trans Nat.left_le_or).trans_lt hor
  have hzlt : z.toNat < 128 := Nat.right_le_or.trans_lt hor
  simp only [headerAt,hx,mtblVarintDecode32_byte hxlt,ok_bind,hy,mtblVarintDecode32_byte hylt,
    show pos+1+1 = pos+2 from rfl,hz,mtblVarintDecode32_byte hzlt]
  rfl

/-- What `decode_entry` returns is the header, after its two checks: it ends before the limit, and
the 32-bit sum of the lengths fits in front of the limit. -/
theorem decodeEntry_eq_some {data : Bytes} {pos limit : ℕ} {r : ℕ × ℕ × ℕ × ℕ}
    (h : decodeEntry data pos limit = .ok (some r)) :
    pos+3 ≤ limit ∧ headerAt data pos = .ok r ∧ r.1 ≤ limit ∧
      (r.2.2.1+r.2.2.2)%2^32 ≤ limit-r.1 := by
  unfold decodeEntry at h
  by_cases hroom : limit < pos+3
  · rw [if_pos hroom] at h
    cases h
  rw [if_neg hroom] at h
  obtain ⟨a,ha,h⟩ := bind_eq_ok.mp h
  obtain ⟨b,hb,h⟩ := bind_eq_ok.mp h
  obtain ⟨c,hc,h⟩ := bind_eq_ok.mp h
  split_ifs at h with hor
  · obtain ⟨_,hfits,h⟩ := bind_eq_ok.mp h
    obtain rfl := Option.some.inj (Except.ok.inj h)
    rw [check_eq_ok] at hfits
    exact ⟨by omega,headerAt_bytes ha hb hc hor,by simp only; omega,not_lt.mp hfits⟩
  · obtain ⟨⟨n,s⟩,hn,h⟩ := bind_eq_ok.mp h
    obtain ⟨⟨m,u⟩,hm,h⟩ := bind_eq_ok.mp h
    obtain ⟨⟨l,v⟩,hl,h⟩ := bind_eq_ok.mp h
    obtain ⟨_,hlimit,h⟩ := bind_eq_ok.mp h
    obtain ⟨_,hfits,h⟩ := bind_eq_ok.mp h
    obtain rfl := Option.some.inj (Except.ok.inj h)
    rw [check_eq_ok] at hlimit hfits
    refine ⟨by omega,?_,hlimit,not_lt.mp hfits⟩
    simp only [headerAt,hn,hm,hl,ok_bind]
    rfl

theorem readByte_of_headerAt {data : Bytes} {pos : ℕ} (hpos : data.length ≤ pos) :
    headerAt data pos = .error .outOfBounds := by
  rw [headerAt,List.drop_of_length_le hpos]
  rfl

/-- With memory up to the limit, or none, the fast path reads what the slow one would. -/
theorem decodeEntry_eq {data : Bytes} {pos limit : ℕ} (hroom : pos+3 ≤ limit)
    (hmem : limit ≤ data.length ∨ data = []) :
    decodeEntry data pos limit = (do
      let r ← headerAt data pos
      check (r.1 ≤ limit)
      check (¬ limit-r.1 < (r.2.2.1+r.2.2.2)%2^32)
      return some r) := by
  unfold decodeEntry
  rw [if_neg (by omega)]
  rcases hmem with hmem | rfl
  · obtain ⟨a,ha⟩ := readByte_of_lt data pos (by omega)
    obtain ⟨b,hb⟩ := readByte_of_lt data (pos+1) (by omega)
    obtain ⟨c,hc⟩ := readByte_of_lt data (pos+2) (by omega)
    simp only [ha,hb,hc,ok_bind]
    split_ifs with hor
    · simp only [headerAt_bytes ha hb hc hor,ok_bind,check_of hroom]
    · simp only [headerAt,bind_assoc,ok_bind,pure_eq_ok]
  · rw [readByte_of_headerAt (Nat.zero_le pos)]
    rfl

end Mtbl
