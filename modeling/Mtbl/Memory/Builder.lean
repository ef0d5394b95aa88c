import Mtbl.Memory.Buffer
import Mtbl.Block.Builder
import Mtbl.Codec.Varint

/-! The block builder over its vectors: the room reserved, the writes through the pointer and the
assertions of `vector.h`. It makes the blocks of the builder over byte strings. -/
namespace Mtbl
open CRun Memory

namespace Buffered

structure BlockBuilder where
  blockRestartInterval : ℕ
  buf : Vec UInt8
  lastKey : Vec UInt8
  restarts : Vec ℕ
  finished : Bool
  counter : ℕ

section
variable (alloc : ℕ → Bool) (fuel : ℕ)

/-- The structure itself has six words. -/
def blockBuilderInit (blockRestartInterval : ℕ) : Run BlockBuilder := do
  check (alloc 48 = true)
  let buf ← vecInit alloc 1 65536
  let lastKey ← vecInit alloc 1 256
  let restarts ← vecInit alloc 8 64
  let restarts ← vecAdd alloc 8 fuel restarts 0
  return ⟨blockRestartInterval,buf,lastKey,restarts,false,0⟩

def blockBuilderReset (b : BlockBuilder) : Run BlockBuilder := do
  let buf ← vecReset alloc 1 b.buf
  let lastKey ← vecReset alloc 1 b.lastKey
  let restarts ← vecReset alloc 8 b.restarts
  let restarts ← vecAdd alloc 8 fuel restarts 0
  return ⟨b.blockRestartInterval,buf,lastKey,restarts,false,0⟩

def blockBuilderEmpty (b : BlockBuilder) : Bool := vecSize b.buf == 0

def blockBuilderCurrentSizeEstimate (b : BlockBuilder) : ℕ :=
  if vecBytes 1 b.buf > uint32Max then (vecBytes 1 b.buf+vecBytes 8 b.restarts+4)%2^64
  else (vecBytes 1 b.buf+vecBytes 8 b.restarts/2+4)%2^64

def putRestart (restart64 : Bool) (restarts : Vec ℕ) (buf : Vec UInt8) (i : ℕ) :
    Run (Vec UInt8) := do
  let restart ← vecValue restarts i
  vecPut buf (if restart64 then mtblFixedEncode64 restart else mtblFixedEncode32 restart)

/-- The finished block is what is in the memory that the caller is given. -/
def blockBuilderFinish (b : BlockBuilder) : Run (BlockBuilder × Bytes) := do
  let restart64 := decide (vecBytes 1 b.buf > uint32Max)
  let buf ← vecReserve alloc 1 fuel b.buf (blockBuilderCurrentSizeEstimate b)
  let buf ← (List.range (vecSize b.restarts)).foldlM (putRestart restart64 b.restarts) buf
  let buf ← vecPut buf (mtblFixedEncode32 (vecSize b.restarts))
  let (buf,v,bufsz) ← vecDetach alloc 1 buf
  let out ← loadAll v bufsz
  return ({ b with buf := buf, finished := true },out)

/-- The loop over the bytes that the last key and the key may share; so many are left. -/
def sharedLoop (lastKey : Vec UInt8) (key : Bytes) : ℕ → ℕ → Run ℕ
  | 0,shared => .ok shared
  | left+1,shared => do
    let a ← vecValue lastKey shared
    match key[shared]? with
    | none => .error .outOfBounds
    | some c => if a = c then sharedLoop lastKey key left (shared+1) else return shared

/-- How much is shared with the last key, the restarts and the counter. -/
def shareOrRestart (b : BlockBuilder) (key : Bytes) : Run (ℕ × Vec ℕ × ℕ) :=
  if b.counter < b.blockRestartInterval then do
    let minLength := if vecSize b.lastKey > key.length then key.length else vecSize b.lastKey
    let shared ← sharedLoop b.lastKey key minLength 0
    return (shared,b.restarts,b.counter)
  else do
    -- restart compression
    let restarts ← vecAdd alloc 8 fuel b.restarts (vecBytes 1 b.buf)
    return (0,restarts,0)

def blockBuilderAdd (b : BlockBuilder) (key val : Bytes) : Run BlockBuilder := do
  check (b.counter ≤ b.blockRestartInterval)
  check (b.finished = false)
  let (shared,restarts,counter) ← shareOrRestart alloc fuel b key
  let nonShared := key.length-shared
  let buf ← vecReserve alloc 1 fuel b.buf ((5*3+nonShared+val.length)%2^64)
  let buf ← vecPut buf (mtblVarintEncode32 shared)
  let buf ← vecPut buf (mtblVarintEncode32 nonShared)
  let buf ← vecPut buf (mtblVarintEncode32 val.length)
  let buf ← vecPut buf (key.drop shared)
  let buf ← vecPut buf val
  let lastKey ← vecReset alloc 1 b.lastKey
  let lastKey ← vecAppend alloc 1 fuel lastKey key
  return ⟨b.blockRestartInterval,buf,lastKey,restarts,b.finished,counter+1⟩

end
/-! ### Against the builder over byte strings -/

section
variable {alloc : ℕ → Bool} {fuel most : ℕ}

theorem diffIndex_nil_right (s : Bytes) : diffIndex s [] = 0 := by
  cases s <;> rfl

/-- The loop stops at the first difference. -/
theorem sharedLoop_eq {lastKey : Vec UInt8} {last key : Bytes} (h : lastKey.Holds 1 last)
    {left shared : ℕ} (hleft : left = min (last.length-shared) (key.length-shared)) :
    sharedLoop lastKey key left shared =
      .ok (shared+diffIndex (last.drop shared) (key.drop shared)) := by
  induction left generalizing shared with
  | zero =>
    have hzero : diffIndex (last.drop shared) (key.drop shared) = 0 := by
      rcases show last.length ≤ shared ∨ key.length ≤ shared by omega with hle | hle
      · rw [List.drop_eq_nil_of_le hle]
        rfl
      · rw [List.drop_eq_nil_of_le hle,diffIndex_nil_right]
    rw [sharedLoop,hzero,Nat.add_zero]
  | succ left ih =>
    have hlast : shared < last.length := by omega
    have hkey : shared < key.length := by omega
    rw [sharedLoop,vecValue_spec h hlast,ok_bind,List.getElem?_eq_getElem hkey,
      List.drop_eq_getElem_cons hlast,List.drop_eq_getElem_cons hkey]
    by_cases hsame : last[shared] = key[shared]
    · simp only [diffIndex,if_pos hsame]
      rw [ih (by omega)]
      congr 1
      omega
    · simp only [diffIndex,if_neg hsame]
      rfl

theorem mtblVarintEncode32_length_le (v : ℕ) : (mtblVarintEncode32 v).length ≤ 5 := by
  have hmod : mtblVarintEncode32 v = mtblVarintEncode32 (v%2^32) := by
    simp only [mtblVarintEncode32,Nat.mod_mod]
  rw [hmod]
  exact (mtblVarintEncode32_length (Nat.mod_lt _ (by norm_num))).2

/-- The vectors hold what the byte strings and the list of restarts are. -/
structure BlockBuilder.Holds (most : ℕ) (b : BlockBuilder) (a : Mtbl.BlockBuilder) : Prop where
  interval : b.blockRestartInterval = a.blockRestartInterval
  buf : b.buf.Keeps 1 65536 most a.buf
  lastKey : b.lastKey.Keeps 1 256 most a.lastKey
  restarts : b.restarts.Keeps 8 64 most a.restarts
  finished : b.finished = a.finished
  counter : b.counter = a.counter

variable {b : BlockBuilder} {a : Mtbl.BlockBuilder}

/-- What `block_builder_finish` may have to put into one buffer. -/
def weight (a : Mtbl.BlockBuilder) : ℕ := 2*a.buf.length+8*a.restarts.length+4

def restartBytes (restart64 : Bool) (restart : ℕ) : Bytes :=
  if restart64 then mtblFixedEncode64 restart else mtblFixedEncode32 restart

theorem restartBytes_length (restart64 : Bool) (restart : ℕ) :
    (restartBytes restart64 restart).length = if restart64 then 8 else 4 := by
  cases restart64
  · exact leBytes_length 4 restart
  · exact leBytes_length 8 restart

theorem encodeRestarts_eq (restart64 : Bool) (rs : List ℕ) :
    encodeRestarts restart64 rs = rs.flatMap (restartBytes restart64) := rfl

theorem encodeRestarts_length (restart64 : Bool) (rs : List ℕ) :
    (encodeRestarts restart64 rs).length = rs.length*if restart64 then 8 else 4 := by
  rw [encodeRestarts_eq,List.length_flatMap]
  simp only [restartBytes_length,List.map_const',List.sum_replicate,smul_eq_mul]

/-- The loop over the restarts, where there is room for all of them. -/
theorem putRestarts_spec {restart64 : Bool} {restarts : Vec ℕ} {rs : List ℕ}
    (hrs : restarts.Holds 8 rs) {buf : Vec UInt8} {items : Bytes}
    (h : buf.Keeps 1 65536 most items) {n : ℕ} (hn : n ≤ rs.length)
    (hroom : items.length+(encodeRestarts restart64 rs).length ≤ buf.nAlloced) :
    ∃ buf', (List.range n).foldlM (putRestart restart64 restarts) buf = .ok buf' ∧
      buf'.Keeps 1 65536 most (items++encodeRestarts restart64 (rs.take n)) ∧
      buf'.nAlloced = buf.nAlloced := by
  induction n with
  | zero =>
    refine ⟨buf,rfl,?_,rfl⟩
    rw [List.take_zero]
    exact (List.append_nil items).symm ▸ h
  | succ n ih =>
    obtain ⟨buf1,hrun,hkeeps,hcap⟩ := ih (by omega)
    have hlt : n < rs.length := hn
    have htake : encodeRestarts restart64 (rs.take (n+1)) =
        encodeRestarts restart64 (rs.take n)++restartBytes restart64 rs[n] := by
      rw [List.take_succ_eq_append_getElem hlt,encodeRestarts_eq,List.flatMap_append,
        List.flatMap_singleton]
      rfl
    have hfits : (items++encodeRestarts restart64 (rs.take n)).length+
        (restartBytes restart64 rs[n]).length ≤ buf1.nAlloced := by
      have hmono := Nat.mul_le_mul_right (if restart64 then 8 else 4) hlt
      rw [encodeRestarts_length] at hroom
      rw [List.length_append,encodeRestarts_length,restartBytes_length,List.length_take_of_le hlt.le,
        Nat.add_assoc,← Nat.succ_mul]
      omega
    obtain ⟨buf2,hput,hkeeps',hcap'⟩ := hkeeps.put Nat.one_pos hfits
    refine ⟨buf2,?_,?_,hcap'.trans hcap⟩
    · rw [List.range_succ,List.foldlM_append,hrun]
      simp only [ok_bind,List.foldlM_cons,List.foldlM_nil,putRestart,vecValue_spec hrs hlt]
      rw [show (if restart64 = true then mtblFixedEncode64 rs[n] else mtblFixedEncode32 rs[n]) =
        restartBytes restart64 rs[n] from rfl,hput]
      rfl
    · rwa [htake,← List.append_assoc]

theorem blockBuilderCurrentSizeEstimate_eq (h : b.Holds most a) (hweight : weight a < 2^64) :
    blockBuilderCurrentSizeEstimate b = Mtbl.blockBuilderCurrentSizeEstimate a := by
  unfold weight at hweight
  simp only [blockBuilderCurrentSizeEstimate,Mtbl.blockBuilderCurrentSizeEstimate,
    vecBytes_eq h.buf.holds,vecBytes_eq h.restarts.holds,Nat.mul_one]
  split_ifs
  · exact Nat.mod_eq_of_lt (by omega)
  · exact Nat.mod_eq_of_lt (by omega)

/-- The four parts of an entry, put one behind the other. -/
theorem putEntry_spec {buf : Vec UInt8} {items key val : Bytes} {shared : ℕ}
    (h : buf.Keeps 1 65536 most items)
    (hroom : items.length+(5*3+(key.length-shared)+val.length) ≤ buf.nAlloced) :
    ∃ buf', (do
      let buf ← vecPut buf (mtblVarintEncode32 shared)
      let buf ← vecPut buf (mtblVarintEncode32 (key.length-shared))
      let buf ← vecPut buf (mtblVarintEncode32 val.length)
      let buf ← vecPut buf (key.drop shared)
      vecPut buf val) = .ok buf' ∧
      buf'.Keeps 1 65536 most (items++encodeEntry shared ⟨key,val⟩) := by
  have h1 := mtblVarintEncode32_length_le shared
  have h2 := mtblVarintEncode32_length_le (key.length-shared)
  have h3 := mtblVarintEncode32_length_le val.length
  have h4 : (key.drop shared).length = key.length-shared := List.length_drop
  obtain ⟨buf1,hput1,hbuf1,hcap1⟩ := h.put Nat.one_pos
    (show _+(mtblVarintEncode32 shared).length ≤ _ by omega)
  obtain ⟨buf2,hput2,hbuf2,hcap2⟩ := hbuf1.put Nat.one_pos
    (show _+(mtblVarintEncode32 (key.length-shared)).length ≤ _ by
      simp only [List.length_append]
      omega)
  obtain ⟨buf3,hput3,hbuf3,hcap3⟩ := hbuf2.put Nat.one_pos
    (show _+(mtblVarintEncode32 val.length).length ≤ _ by
      simp only [List.length_append]
      omega)
  obtain ⟨buf4,hput4,hbuf4,hcap4⟩ := hbuf3.put Nat.one_pos
    (show _+(key.drop shared).length ≤ _ by
      simp only [List.length_append]
      omega)
  obtain ⟨buf5,hput5,hbuf5,-⟩ := hbuf4.put Nat.one_pos
    (show _+val.length ≤ _ by
      simp only [List.length_append]
      omega)
  refine ⟨buf5,?_,?_⟩
  · simp only [hput1,hput2,hput3,hput4,hput5,ok_bind]
  · simp only [List.append_assoc] at hbuf5
    simpa only [encodeEntry,List.append_assoc] using hbuf5

section
variable (hrefuses : Refuses alloc) (hfuel : 64 ≤ fuel) {bound : ℕ}
  (hbound : max 65536 (16*most) ≤ bound)
include hrefuses hfuel hbound

theorem blockBuilderInit_spec (hmost : 1 ≤ most) (blockRestartInterval : ℕ) :
    Granted (GrantsUpTo alloc bound) (blockBuilderInit alloc fuel blockRestartInterval)
      (fun b => b.Holds most (Mtbl.blockBuilderInit blockRestartInterval)) := by
  rw [blockBuilderInit]
  apply (Granted.check (fun hg => hg _ (by omega))).bind
  intro _ _
  apply (vecInit_keeps hrefuses Nat.one_pos (by norm_num) 65536 most (by omega) (by omega)).bind
  rintro buf ⟨hbuf,-⟩
  apply (vecInit_keeps hrefuses Nat.one_pos (by norm_num) 256 most (by omega) (by omega)).bind
  rintro lastKey ⟨hlastKey,-⟩
  apply (vecInit_keeps hrefuses (by norm_num) (by norm_num) 64 most (by omega) (by omega)).bind
  rintro restarts ⟨hrestarts,-⟩
  apply (hrestarts.add hrefuses (by norm_num) hfuel (by simpa using hmost) (by omega)).bind
  intro restarts' hrestarts'
  exact .ok ⟨rfl,hbuf,hlastKey,hrestarts',rfl,rfl⟩

theorem blockBuilderReset_spec (hmost : 1 ≤ most) (h : b.Holds most a) :
    Granted (GrantsUpTo alloc bound) (blockBuilderReset alloc fuel b)
      (fun b' => b'.Holds most (Mtbl.blockBuilderReset a)) := by
  rw [blockBuilderReset]
  apply (h.buf.reset hrefuses Nat.one_pos (by omega)).bind
  intro buf hbuf
  apply (h.lastKey.reset hrefuses Nat.one_pos (by omega)).bind
  intro lastKey hlastKey
  apply (h.restarts.reset hrefuses (by norm_num) (by omega)).bind
  intro restarts hrestarts
  apply (hrestarts.add hrefuses (by norm_num) hfuel (by simpa using hmost) (by omega)).bind
  intro restarts' hrestarts'
  exact .ok ⟨h.interval,hbuf,hlastKey,hrestarts',rfl,rfl⟩

theorem blockBuilderFinish_spec (hsize : most < 2^64) (h : b.Holds most a) (hweight : weight a ≤ most) :
    Granted (GrantsUpTo alloc bound) (blockBuilderFinish alloc fuel b)
      (fun r => r.1.Holds most (Mtbl.blockBuilderFinish a).1 ∧
        r.2 = (Mtbl.blockBuilderFinish a).2) := by
  have hbuf := h.buf.holds
  have hrs := h.restarts.holds
  have hestimate : Mtbl.blockBuilderCurrentSizeEstimate a = a.buf.length+
      (encodeRestarts (decide (a.buf.length > uint32Max)) a.restarts).length+4 := by
    rw [encodeRestarts_length,Mtbl.blockBuilderCurrentSizeEstimate]
    simp only [decide_eq_true_eq]
    split_ifs <;> omega
  have htotal : a.buf.length+Mtbl.blockBuilderCurrentSizeEstimate a ≤ most := by
    refine le_trans ?_ hweight
    unfold weight Mtbl.blockBuilderCurrentSizeEstimate
    split_ifs <;> omega
  rw [blockBuilderFinish,blockBuilderCurrentSizeEstimate_eq h (hweight.trans_lt hsize),
    vecBytes_eq hbuf,Nat.mul_one,vecSize,hrs.size]
  apply (h.buf.reserve hrefuses Nat.one_pos hfuel htotal (by omega)).bind
  rintro buf1 ⟨hbuf1,hroom⟩
  obtain ⟨buf2,hrun,hbuf2,hcap2⟩ := @putRestarts_spec most (decide (a.buf.length > uint32Max))
    _ _ hrs _ _ hbuf1 _ le_rfl (by omega)
  rw [List.take_length] at hbuf2
  have hlen : (mtblFixedEncode32 a.restarts.length).length = 4 := leBytes_length 4 _
  obtain ⟨buf3,hput,hbuf3,-⟩ := hbuf2.put Nat.one_pos
    (show _+(mtblFixedEncode32 a.restarts.length).length ≤ _ by
      rw [List.length_append,hlen,hcap2]
      omega)
  simp only [hrun,hput,ok_bind]
  apply (hbuf3.detach hrefuses Nat.one_pos (by omega)).bind
  rintro ⟨buf4,v,n⟩ ⟨hbuf4,hload⟩
  simp only [hload,ok_bind,pure_eq_ok]
  exact .ok ⟨⟨h.interval,hbuf4,h.lastKey,h.restarts,rfl,h.counter⟩,rfl⟩

/-- The end of an addition: the entry, and the key for the next one. -/
theorem addEntry_spec (hsize : most < 2^64) {buf lastKey : Vec UInt8} {items last key val : Bytes}
    (hbuf : buf.Keeps 1 65536 most items) (hlast : lastKey.Keeps 1 256 most last) (shared : ℕ)
    (htotal : items.length+(5*3+key.length+val.length) ≤ most)
    {make : Vec UInt8 → Vec UInt8 → BlockBuilder} {P : BlockBuilder → Prop}
    (hmake : ∀ buf' lastKey', buf'.Keeps 1 65536 most (items++encodeEntry shared ⟨key,val⟩) →
      lastKey'.Keeps 1 256 most key → P (make buf' lastKey')) :
    Granted (GrantsUpTo alloc bound) (do
      let buf ← vecReserve alloc 1 fuel buf ((5*3+(key.length-shared)+val.length)%2^64)
      let buf ← vecPut buf (mtblVarintEncode32 shared)
      let buf ← vecPut buf (mtblVarintEncode32 (key.length-shared))
      let buf ← vecPut buf (mtblVarintEncode32 val.length)
      let buf ← vecPut buf (key.drop shared)
      let buf ← vecPut buf val
      let lastKey ← vecReset alloc 1 lastKey
      let lastKey ← vecAppend alloc 1 fuel lastKey key
      return make buf lastKey) P := by
  rw [Nat.mod_eq_of_lt (by omega)]
  apply (hbuf.reserve hrefuses Nat.one_pos hfuel (by omega) (by omega)).bind
  rintro buf1 ⟨hbuf1,hroom⟩
  obtain ⟨buf2,hput,hbuf2⟩ := putEntry_spec hbuf1 hroom
  have hsplit : ∀ f : Vec UInt8 → Run BlockBuilder, (do
      let buf ← vecPut buf1 (mtblVarintEncode32 shared)
      let buf ← vecPut buf (mtblVarintEncode32 (key.length-shared))
      let buf ← vecPut buf (mtblVarintEncode32 val.length)
      let buf ← vecPut buf (key.drop shared)
      let buf ← vecPut buf val
      f buf) = f buf2 := by
    intro f
    have hthen := congrArg (· >>= f) hput
    simpa only [bind_assoc,ok_bind] using hthen
  rw [hsplit]
  apply (hlast.reset hrefuses Nat.one_pos (by omega)).bind
  intro last1 hlast1
  apply (hlast1.append hrefuses Nat.one_pos hfuel (by rw [List.length_nil]; omega) (by omega)).bind
  intro last2 hlast2
  exact .ok (hmake buf2 last2 hbuf2 hlast2)

/-- The byte strings' builder, which shares or restarts in one step. -/
theorem shareOrRestart_spec (h : b.Holds most a) (key : Bytes) (hrestarts : a.restarts.length+1 ≤ most) :
    Granted (GrantsUpTo alloc bound) (shareOrRestart alloc fuel b key) (fun r =>
      if a.counter < a.blockRestartInterval then
        r.1 = diffIndex a.lastKey key ∧ r.2.1.Keeps 8 64 most a.restarts ∧ r.2.2 = a.counter
      else r.1 = 0 ∧ r.2.1.Keeps 8 64 most (a.restarts++[a.buf.length]) ∧ r.2.2 = 0) := by
  rw [shareOrRestart,h.counter,h.interval]
  by_cases hshares : a.counter < a.blockRestartInterval
  · have hmin : (if vecSize b.lastKey > key.length then key.length else vecSize b.lastKey) =
        min (a.lastKey.length-0) (key.length-0) := by
      rw [vecSize,h.lastKey.holds.size]
      split_ifs <;> omega
    simp only [if_pos hshares,sharedLoop_eq h.lastKey.holds hmin,ok_bind,pure_eq_ok,List.drop_zero,
      Nat.zero_add]
    exact .ok ⟨rfl,h.restarts,rfl⟩
  · simp only [if_neg hshares,vecBytes_eq h.buf.holds,Nat.mul_one]
    apply (h.restarts.add hrefuses (by norm_num) hfuel hrestarts (by omega)).bind
    intro restarts hkeeps
    exact .ok ⟨rfl,hkeeps,rfl⟩

theorem blockBuilderAdd_spec (hsize : most < 2^64) (h : b.Holds most a) {key val : Bytes}
    (hweight : weight a+(2*(15+key.length+val.length)+8) ≤ most) {a' : Mtbl.BlockBuilder}
    (hadd : Mtbl.blockBuilderAdd a key val = .ok a') :
    Granted (GrantsUpTo alloc bound) (blockBuilderAdd alloc fuel b key val)
      (fun b' => b'.Holds most a') := by
  unfold weight at hweight
  obtain ⟨_,hcounter,hadd⟩ := bind_eq_ok.mp hadd
  obtain ⟨_,hfinished,hadd⟩ := bind_eq_ok.mp hadd
  rw [check_eq_ok] at hcounter hfinished
  rw [blockBuilderAdd,h.counter,h.interval,h.finished,check_of hcounter,check_of hfinished,ok_bind,
    ok_bind]
  apply (shareOrRestart_spec hrefuses hfuel hbound h key (by omega)).bind
  rintro ⟨shared,restarts,counter⟩ hstart
  apply addEntry_spec hrefuses hfuel hbound hsize h.buf h.lastKey shared (by omega)
  intro buf' lastKey' hbuf' hlast'
  by_cases hshares : a.counter < a.blockRestartInterval
  · rw [if_pos hshares] at hadd hstart
    obtain ⟨rfl,hrestarts,rfl⟩ := hstart
    obtain rfl := Except.ok.inj hadd
    exact ⟨rfl,hbuf',hlast',hrestarts,rfl,rfl⟩
  · rw [if_neg hshares] at hadd hstart
    obtain ⟨rfl,hrestarts,rfl⟩ := hstart
    obtain rfl := Except.ok.inj hadd
    exact ⟨rfl,hbuf',hlast',hrestarts,rfl,rfl⟩

end

theorem blockBuilderAdd_fails (h : b.Holds most a) {key val : Bytes} {e : Fault}
    (hadd : Mtbl.blockBuilderAdd a key val = .error e) :
    blockBuilderAdd alloc fuel b key val = .error .assertion := by
  have hneither : ¬ (a.counter ≤ a.blockRestartInterval ∧ a.finished = false) := by
    rintro ⟨hcounter,hfinished⟩
    rw [Mtbl.blockBuilderAdd,check_of hcounter,check_of hfinished] at hadd
    simp only [ok_bind] at hadd
    split_ifs at hadd
    · cases hadd
    · cases hadd
  rw [blockBuilderAdd,h.counter,h.interval,h.finished]
  by_cases hcounter : a.counter ≤ a.blockRestartInterval
  · have hfinished : ¬ a.finished = false := fun hf => hneither ⟨hcounter,hf⟩
    rw [check_of hcounter,ok_bind,check,if_neg hfinished]
    rfl
  · rw [check,if_neg hcounter]
    rfl

end
end Buffered

/-! ### Runs -/

inductive BuilderOp
  | add (key val : Bytes)
  | finish
  | reset
  deriving DecidableEq, Repr

def blockBuilderStep (b : BlockBuilder) : BuilderOp → Run (BlockBuilder × List Bytes)
  | .add key val => do
    let b ← blockBuilderAdd b key val
    return (b,[])
  | .finish => return ((blockBuilderFinish b).1,[(blockBuilderFinish b).2])
  | .reset => return (blockBuilderReset b,[])

/-- What an operation adds to the weight at most. -/
def BuilderOp.demand : BuilderOp → ℕ
  | .add key val => 2*(15+key.length+val.length)+8
  | .finish => 0
  | .reset => 0

/-- The blocks that are finished on the way. -/
def blockBuilderRun : BlockBuilder → List BuilderOp → Run (BlockBuilder × List Bytes)
  | b,[] => .ok (b,[])
  | b,op::ops => do
    let (b,out) ← blockBuilderStep b op
    let (b,outs) ← blockBuilderRun b ops
    return (b,out++outs)

namespace Buffered

def blockBuilderStep (alloc : ℕ → Bool) (fuel : ℕ) (b : BlockBuilder) :
    BuilderOp → Run (BlockBuilder × List Bytes)
  | .add key val => do
    let b ← blockBuilderAdd alloc fuel b key val
    return (b,[])
  | .finish => do
    let (b,out) ← blockBuilderFinish alloc fuel b
    return (b,[out])
  | .reset => do
    let b ← blockBuilderReset alloc fuel b
    return (b,[])

def blockBuilderRun (fuel : ℕ) :
    BlockBuilder → List (BuilderOp × (ℕ → Bool)) → Run (BlockBuilder × List Bytes)
  | b,[] => .ok (b,[])
  | b,(op,alloc)::ops => do
    let (b,out) ← blockBuilderStep alloc fuel b op
    let (b,outs) ← blockBuilderRun fuel b ops
    return (b,out++outs)

section
variable {alloc : ℕ → Bool} {fuel most : ℕ} {b : BlockBuilder} {a : Mtbl.BlockBuilder}
  {op : BuilderOp}

theorem encodeEntry_length_le (shared : ℕ) (e : Entry) :
    (encodeEntry shared e).length ≤ 15+e.key.length+e.val.length := by
  have h1 := mtblVarintEncode32_length_le shared
  have h2 := mtblVarintEncode32_length_le (e.key.length-shared)
  have h3 := mtblVarintEncode32_length_le e.val.length
  simp only [encodeEntry,List.length_append,List.length_drop]
  omega

theorem weight_add {key val : Bytes} {a' : Mtbl.BlockBuilder}
    (hadd : Mtbl.blockBuilderAdd a key val = .ok a') :
    weight a' ≤ weight a+(BuilderOp.add key val).demand := by
  obtain ⟨_,-,hadd⟩ := bind_eq_ok.mp hadd
  obtain ⟨_,-,hadd⟩ := bind_eq_ok.mp hadd
  have hentry := fun shared => encodeEntry_length_le shared ⟨key,val⟩
  simp only at hadd hentry
  split_ifs at hadd
  · obtain rfl := Except.ok.inj hadd
    have := hentry (diffIndex a.lastKey key)
    simp only [weight,BuilderOp.demand,List.length_append]
    omega
  · obtain rfl := Except.ok.inj hadd
    have := hentry 0
    simp only [weight,BuilderOp.demand,List.length_append,List.length_singleton]
    omega

theorem weight_step {r : Mtbl.BlockBuilder × List Bytes}
    (hstep : Mtbl.blockBuilderStep a op = .ok r) : weight r.1 ≤ max 12 (weight a+op.demand) := by
  cases op with
  | add key val =>
    obtain ⟨a',hadd,hr⟩ := bind_eq_ok.mp hstep
    obtain rfl := Except.ok.inj hr
    exact (weight_add hadd).trans (le_max_right ..)
  | finish =>
    obtain rfl := Except.ok.inj hstep
    refine le_trans ?_ (le_max_right ..)
    simp only [weight,Mtbl.blockBuilderFinish,List.length_nil]
    omega
  | reset =>
    obtain rfl := Except.ok.inj hstep
    exact le_max_left ..

theorem blockBuilderStep_spec (hrefuses : Refuses alloc) (hfuel : 64 ≤ fuel) {bound : ℕ}
    (hbound : max 65536 (16*most) ≤ bound) (hsize : most < 2^64) (hmost : 12 ≤ most)
    (h : b.Holds most a) (hweight : weight a+op.demand ≤ most) {r : Mtbl.BlockBuilder × List Bytes}
    (hstep : Mtbl.blockBuilderStep a op = .ok r) :
    Granted (GrantsUpTo alloc bound) (blockBuilderStep alloc fuel b op)
      (fun r' => r'.1.Holds most r.1 ∧ r'.2 = r.2) := by
  cases op with
  | add key val =>
    obtain ⟨a',hadd,hr⟩ := bind_eq_ok.mp hstep
    obtain rfl := Except.ok.inj hr
    apply (blockBuilderAdd_spec hrefuses hfuel hbound hsize h hweight hadd).bind
    intro b' h'
    exact .ok ⟨h',rfl⟩
  | finish =>
    obtain rfl := Except.ok.inj hstep
    apply (blockBuilderFinish_spec hrefuses hfuel hbound hsize h hweight).bind
    rintro ⟨b',out⟩ ⟨h',rfl⟩
    exact .ok ⟨h',rfl⟩
  | reset =>
    obtain rfl := Except.ok.inj hstep
    apply (blockBuilderReset_spec hrefuses hfuel hbound (by omega) h).bind
    intro b' h'
    exact .ok ⟨h',rfl⟩

theorem blockBuilderStep_fails (h : b.Holds most a) {e : Fault}
    (hstep : Mtbl.blockBuilderStep a op = .error e) :
    blockBuilderStep alloc fuel b op = .error .assertion := by
  cases op with
  | add key val =>
    rw [Mtbl.blockBuilderStep] at hstep
    cases hadd : Mtbl.blockBuilderAdd a key val with
    | ok a' =>
      rw [hadd] at hstep
      cases hstep
    | error e' =>
      rw [blockBuilderStep,blockBuilderAdd_fails h hadd]
      rfl
  | finish => cases hstep
  | reset => cases hstep

/-- A whole run: the same blocks, or the same failed assertion. -/
theorem blockBuilderRun_spec (hfuel : 64 ≤ fuel) {bound : ℕ} (hbound : max 65536 (16*most) ≤ bound)
    (hsize : most < 2^64) (hmost : 12 ≤ most) {ops : List (BuilderOp × (ℕ → Bool))}
    (hrefuses : ∀ op ∈ ops, Refuses op.2) (h : b.Holds most a)
    (hdemand : 12+(ops.map (fun op => op.1.demand)).sum ≤ most)
    (hweight : weight a+(ops.map (fun op => op.1.demand)).sum ≤ most) :
    (∀ r, Mtbl.blockBuilderRun a (ops.map Prod.fst) = .ok r →
      Granted (∀ op ∈ ops, GrantsUpTo op.2 bound) (blockBuilderRun fuel b ops)
        (fun r' => r'.1.Holds most r.1 ∧ r'.2 = r.2)) ∧
      ∀ e, Mtbl.blockBuilderRun a (ops.map Prod.fst) = .error e →
        blockBuilderRun fuel b ops = .error .assertion := by
  induction ops generalizing a b with
  | nil =>
    refine ⟨fun r hr => ?_,fun e he => by cases he⟩
    obtain rfl := Except.ok.inj hr
    exact .ok ⟨h,rfl⟩
  | cons op ops ih =>
    obtain ⟨op,alloc⟩ := op
    simp only [List.map_cons,List.sum_cons] at hdemand hweight
    have hfirst := fun r => @blockBuilderStep_spec alloc fuel most b a op
      (hrefuses _ List.mem_cons_self) hfuel bound hbound hsize hmost h (by omega) r
    have hothers := fun (r : Mtbl.BlockBuilder × List Bytes) (b' : BlockBuilder)
        (hstep : Mtbl.blockBuilderStep a op = .ok r) (h' : b'.Holds most r.1) => by
      have hafter := weight_step hstep
      exact ih (fun o ho => hrefuses o (List.mem_cons_of_mem _ ho)) h' (by omega) (by omega)
    constructor
    · intro r hrun
      obtain ⟨r1,hstep,hrun⟩ := bind_eq_ok.mp hrun
      obtain ⟨r2,hrest,hrun⟩ := bind_eq_ok.mp hrun
      obtain rfl := Except.ok.inj hrun
      apply ((hfirst r1 hstep).mono (fun hg => hg _ List.mem_cons_self)).bind
      rintro ⟨b1,out⟩ ⟨h1,rfl⟩
      apply (((hothers r1 b1 hstep h1).1 r2 hrest).mono
        (fun hg o ho => hg o (List.mem_cons_of_mem _ ho))).bind
      rintro ⟨b2,outs⟩ ⟨h2,rfl⟩
      exact .ok ⟨h2,rfl⟩
    · intro e hrun
      simp only [List.map_cons,Mtbl.blockBuilderRun] at hrun
      simp only [blockBuilderRun]
      cases hstep : Mtbl.blockBuilderStep a op with
      | error e' =>
        rw [blockBuilderStep_fails h hstep]
        rfl
      | ok r1 =>
        rw [hstep,ok_bind] at hrun
        rcases hfirst r1 hstep with ⟨⟨b1,out⟩,hb1,h1,rfl⟩ | ⟨hrefused,-⟩
        · cases hrest : Mtbl.blockBuilderRun r1.1 (ops.map Prod.fst) with
          | ok r2 =>
            rw [hrest] at hrun
            cases hrun
          | error e' =>
            rw [hb1,ok_bind,(hothers r1 b1 hstep h1).2 e' hrest]
            rfl
        · rw [hrefused]
          rfl

end
end Buffered

/-- What the operations may have to put into one buffer, the length of a block without entries
included. -/
def builderDemand (ops : List (BuilderOp × (ℕ → Bool))) : ℕ :=
  12+(ops.map (fun op => op.1.demand)).sum

/-- The block builder with its vectors finishes the blocks of the builder over byte strings, or fails
an assertion where the memory for them was not granted. Where the other builder fails an assertion so
does this one; neither writes outside its memory. -/
theorem buffered_builder_runs (fuel blockRestartInterval : ℕ) (hfuel : 64 ≤ fuel) (alloc : ℕ → Bool)
    (ops : List (BuilderOp × (ℕ → Bool))) (hrefuses : Refuses alloc)
    (hops : ∀ op ∈ ops, Refuses op.2) (hsize : builderDemand ops < 2^64) :
    (∀ r, blockBuilderRun (blockBuilderInit blockRestartInterval) (ops.map Prod.fst) = .ok r →
      Granted (GrantsUpTo alloc (max 65536 (16*builderDemand ops)) ∧
          ∀ op ∈ ops, GrantsUpTo op.2 (max 65536 (16*builderDemand ops)))
        (do
          let b ← Buffered.blockBuilderInit alloc fuel blockRestartInterval
          Buffered.blockBuilderRun fuel b ops)
        (fun r' => r'.1.Holds (builderDemand ops) r.1 ∧ r'.2 = r.2)) ∧
      ∀ e, blockBuilderRun (blockBuilderInit blockRestartInterval) (ops.map Prod.fst) = .error e →
        (do
          let b ← Buffered.blockBuilderInit alloc fuel blockRestartInterval
          Buffered.blockBuilderRun fuel b ops) = .error .assertion := by
  have hmost : 12 ≤ builderDemand ops := Nat.le_add_right ..
  have hinit := Buffered.blockBuilderInit_spec hrefuses hfuel
    (le_refl (max 65536 (16*builderDemand ops))) (by omega) blockRestartInterval
  have hrest := fun (b : Buffered.BlockBuilder)
      (h : b.Holds (builderDemand ops) (blockBuilderInit blockRestartInterval)) =>
    Buffered.blockBuilderRun_spec hfuel (le_refl (max 65536 (16*builderDemand ops))) hsize hmost hops
      h (show 12+_ ≤ builderDemand ops from le_rfl) (show 2*0+8*1+4+_ ≤ builderDemand ops from le_rfl)
  constructor
  · intro r hrun
    apply (hinit.mono (fun hg => hg.1)).bind
    intro b hb
    exact ((hrest b hb).1 r hrun).mono (fun hg => hg.2)
  · intro e hrun
    rcases hinit with ⟨b,hok,hb⟩ | ⟨hrefused,-⟩
    · rw [hok,ok_bind,(hrest b hb).2 e hrun]
    · rw [hrefused]
      rfl

/-- Two entries that share a byte, in one block. -/
theorem buffered_builder_runs_two : ∃ b, (do
    let b ← Buffered.blockBuilderInit amply 64 2
    Buffered.blockBuilderRun 64 b [(.add [1,2] [3],amply),(.add [1,4] [],amply),(.finish,amply)]) =
      .ok (b,[[0,2,1,1,2,3,1,1,0,4,0,0,0,0,1,0,0,0]]) := by
  have h := buffered_builder_runs 64 2 le_rfl amply
    [(.add [1,2] [3],amply),(.add [1,4] [],amply),(.finish,amply)] refuses_amply
    (by simpa using refuses_amply) (by decide)
  obtain ⟨r,hr,-,hout⟩ := (h.1 (⟨2,[],[1,4],[0],true,2⟩,
    [[0,2,1,1,2,3,1,1,0,4,0,0,0,0,1,0,0,0]]) (by decide)).returns
    ⟨grantsUpTo_amply (by decide),by simpa using grantsUpTo_amply (by decide)⟩
  exact ⟨r.1,hr.trans (congrArg Except.ok (Prod.ext rfl hout))⟩

end Mtbl
