import Mtbl.Block.Builder

/-! Reading a block. Pointers are 64-bit offsets from the block's first byte. `Block.data` is the
memory behind that pointer, which for a mapped block goes on after the block, and `Block.front` the
memory before it, where the offset of a restart point may lead; a read of other memory is a fault.
Sizes and offsets are 64-bit, restart indexes and decoded lengths 32-bit. -/
namespace Mtbl
open CRun

structure Block where
  data : Bytes
  size : ℕ
  restartOffset : ℕ
  front : Front
  deriving DecidableEq, Repr

structure BlockIter where
  data : Bytes
  restarts : ℕ
  numRestarts : ℕ
  current : ℕ
  restartIndex : ℕ
  next : ℕ
  key : Bytes
  val : ℕ
  valLen : ℕ
  front : Front
  deriving DecidableEq, Repr

/-- `n` bytes from offset `p`. -/
def readSlice (data : Bytes) (p n : ℕ) : Run Bytes :=
  if p+n ≤ data.length then .ok ((data.drop p).take n) else .error .outOfBounds

def readByte (data : Bytes) (p : ℕ) : Run ℕ :=
  match data[p]? with
  | some b => .ok b.toNat
  | none => .error .outOfBounds

def numRestarts (b : Block) : Run ℕ := do
  check (2*4 ≤ b.size)
  mtblFixedDecode32 (b.data.drop (b.size-4))

/-- The key suffix's offset and the three lengths, or `none` where the code returns NULL. -/
def decodeEntry (data : Bytes) (p limit : ℕ) : Run (Option (ℕ × ℕ × ℕ × ℕ)) := do
  if limit < p+3 then
    return none
  let shared ← readByte data p
  let nonShared ← readByte data (p+1)
  let valueLength ← readByte data (p+2)
  if (shared ||| nonShared ||| valueLength) < 128 then
    -- fast path
    check (¬ limit-(p+3) < (nonShared+valueLength)%2^32)
    return some (p+3,shared,nonShared,valueLength)
  else
    let (n,shared) ← mtblVarintDecode32 (data.drop p)
    let (m,nonShared) ← mtblVarintDecode32 (data.drop (p+n))
    let (l,valueLength) ← mtblVarintDecode32 (data.drop (p+n+m))
    check (p+n+m+l ≤ limit)
    check (¬ limit-(p+n+m+l) < (nonShared+valueLength)%2^32)
    return some (p+n+m+l,shared,nonShared,valueLength)

/-- Where the restart array starts if it holds 32-bit restarts. The subtraction is that of `size_t`,
`1 + num_restarts` the sum of `uint32_t`. -/
def restartOffset32 (size n : ℕ) : ℕ := (size+2^64-((1+n)%2^32)*4)%2^64

def restartOffset64 (size n : ℕ) : ℕ := (size+2^64-(4+n*8))%2^64

/-- A block the code rejects keeps its data with size 0. -/
def blockInit (front : Front) (data : Bytes) (size : ℕ) : Run Block := do
  if size < 4 then
    return ⟨data,0,0,front⟩
  let n ← numRestarts ⟨data,size,0,front⟩
  if restartOffset32 size n > uint32Max then
    if restartOffset64 size n ≤ uint32Max ∨ restartOffset64 size n > size-4 then
      return ⟨data,0,restartOffset64 size n,front⟩
    return ⟨data,size,restartOffset64 size n,front⟩
  if restartOffset32 size n > size-4 then
    return ⟨data,0,restartOffset32 size n,front⟩
  return ⟨data,size,restartOffset32 size n,front⟩

def blockIterInit (b : Block) : Run BlockIter := do
  check (2*4 ≤ b.size)
  let n ← numRestarts b
  check (n > 0)
  return ⟨b.data,b.restartOffset,n,b.restartOffset,n,0,[],0,0,b.front⟩

def getRestartPoint (bi : BlockIter) (idx : ℕ) : Run ℕ := do
  check (idx < bi.numRestarts)
  if bi.restarts > uint32Max then
    mtblFixedDecode64 (bi.data.drop (bi.restarts+idx*8))
  else
    mtblFixedDecode32 (bi.data.drop (bi.restarts+idx*4))

def seekToRestartPoint (bi : BlockIter) (idx : ℕ) : Run BlockIter := do
  let offset ← getRestartPoint bi idx
  return { bi with key := [], restartIndex := idx, next := offset }

/-! ### Pointers in front of the block -/

/-- The offset takes the pointer past the end of the address space, to an address in front of the block.
Up to the limit it does not. -/
def BlockIter.Wraps (bi : BlockIter) (p : ℕ) : Prop :=
  bi.restarts < p ∧ p < 2^64 ∧ 2^64 ≤ bi.front.address+p

instance (bi : BlockIter) (p : ℕ) : Decidable (bi.Wraps p) :=
  inferInstanceAs (Decidable (_ ∧ _))

/-- The memory from `back` bytes in front of the block on. -/
def BlockIter.fromFront (bi : BlockIter) (back : ℕ) : Bytes :=
  if back ≤ bi.front.bytes.length then
    bi.front.bytes.drop (bi.front.bytes.length-back)++bi.data
  else []

/-- Memory that a pointer points into, with the places of the pointer and of the limit. -/
structure PointerView where
  mem : Bytes
  pos : ℕ
  limit : ℕ
  deriving DecidableEq, Repr

def BlockIter.view (bi : BlockIter) (p : ℕ) : PointerView :=
  if bi.Wraps p then ⟨bi.fromFront (2^64-p),0,bi.restarts+(2^64-p)⟩ else ⟨bi.data,p,bi.restarts⟩

/-- The offset of a place in the memory that `p` points into. -/
def BlockIter.offsetOf (bi : BlockIter) (p i : ℕ) : ℕ := if bi.Wraps p then (p+i)%2^64 else i

def BlockIter.advance (bi : BlockIter) (p n : ℕ) : ℕ := if bi.Wraps p then (p+n)%2^64 else p+n

/-- `limit - p` for two pointers, in 64 bits with a sign. -/
def pointerDiff (limit p : ℕ) : ℤ := ((limit : ℤ)-p).bmod (2^64)

/-- More than 2^63 bytes past the limit, where there is no memory and `limit - p` is positive. -/
def BlockIter.FarPast (bi : BlockIter) (p : ℕ) : Prop :=
  bi.restarts < p ∧ ¬ bi.Wraps p ∧ pointerDiff bi.restarts p ≥ 3

instance (bi : BlockIter) (p : ℕ) : Decidable (bi.FarPast p) :=
  inferInstanceAs (Decidable (_ ∧ _))

/-- `decode_entry` at the pointer with this offset. -/
def decodeAt (bi : BlockIter) (p : ℕ) : Run (Option (ℕ × ℕ × ℕ × ℕ)) :=
  if bi.FarPast p then .error .outOfBounds
  else do
    let r ← decodeEntry (bi.view p).mem (bi.view p).pos (bi.view p).limit
    return r.map (fun r => (bi.offsetOf p r.1,r.2))

def readAt (bi : BlockIter) (p n : ℕ) : Run Bytes := readSlice (bi.view p).mem (bi.view p).pos n

section
variable {bi : BlockIter} {p : ℕ}

theorem BlockIter.not_wraps (h : p ≤ bi.restarts) : ¬ bi.Wraps p :=
  fun hw => absurd hw.1 (not_lt.mpr h)

theorem BlockIter.view_of_le (h : p ≤ bi.restarts) : bi.view p = ⟨bi.data,p,bi.restarts⟩ :=
  if_neg (bi.not_wraps h)

theorem BlockIter.offsetOf_of_le (h : p ≤ bi.restarts) (i : ℕ) : bi.offsetOf p i = i :=
  if_neg (bi.not_wraps h)

theorem BlockIter.advance_of_le (h : p ≤ bi.restarts) (n : ℕ) : bi.advance p n = p+n :=
  if_neg (bi.not_wraps h)

theorem decodeAt_of_le (h : p ≤ bi.restarts) :
    decodeAt bi p = decodeEntry bi.data p bi.restarts := by
  rw [decodeAt,if_neg (fun hfar => absurd hfar.1 (not_lt.mpr h)),bi.view_of_le h]
  simp only [bi.offsetOf_of_le h]
  cases decodeEntry bi.data p bi.restarts with
  | error e => rfl
  | ok r => cases r <;> rfl

theorem readAt_of_le (h : p ≤ bi.restarts) (n : ℕ) : readAt bi p n = readSlice bi.data p n := by
  rw [readAt,bi.view_of_le h]

end

/-! ### Parsing -/

/-- The loop at the end of `parse_next_key`, which moves `restart_index` up to the restart point
before the current entry. -/
def skipRestarts : ℕ → BlockIter → Run BlockIter
  | 0,_ => .error .fuel
  | fuel+1,bi =>
    let i := (bi.restartIndex+1)%2^32
    if i < bi.numRestarts then do
      let point ← getRestartPoint bi i
      if point < bi.current then skipRestarts fuel { bi with restartIndex := i } else return bi
    else .ok bi

/-- `current` past the entries marks the iterator invalid. -/
def BlockIter.invalidate (bi : BlockIter) : BlockIter :=
  { bi with current := bi.restarts, restartIndex := bi.numRestarts }

def parseNextKey (bi : BlockIter) : Run (BlockIter × Bool) := do
  if bi.restarts ≤ bi.next ∧ ¬ bi.Wraps bi.next then
    -- no more entries to return
    return (bi.invalidate,false)
  match ← decodeAt bi bi.next with
  | none => .error .assertion
  | some (p,shared,nonShared,valueLength) =>
    check (¬ bi.key.length < shared)
    let suffix ← readAt bi p nonShared
    let bi ← skipRestarts (bi.numRestarts+1)
      { bi with current := bi.next, key := bi.key.take shared++suffix,
                next := bi.advance p (nonShared+valueLength), val := bi.advance p nonShared,
                valLen := valueLength }
    return (bi,true)

def blockIterValid (bi : BlockIter) : Bool := bi.current < bi.restarts

def blockIterSeekToFirst (bi : BlockIter) : Run BlockIter := do
  let bi ← seekToRestartPoint bi 0
  let (bi,_) ← parseNextKey bi
  return bi

/-- `while (parse_next_key(bi) && next_entry_offset(bi) < bound)`. -/
def parseWhileBelow (bound : ℕ) : ℕ → BlockIter → Run BlockIter
  | 0,_ => .error .fuel
  | fuel+1,bi => do
    let (bi,more) ← parseNextKey bi
    if more ∧ bi.next < bound then parseWhileBelow bound fuel bi else return bi

def blockIterSeekToLastWithin (fuel : ℕ) (bi : BlockIter) : Run BlockIter := do
  let bi ← seekToRestartPoint bi (bi.numRestarts-1)
  parseWhileBelow bi.restarts fuel bi

/-- Every entry has a byte at least, so there are no more than there are addresses up to the limit. -/
def BlockIter.mostEntries (bi : BlockIter) : ℕ := bi.front.address+bi.restarts

theorem BlockIter.le_mostEntries (bi : BlockIter) : bi.restarts ≤ bi.mostEntries :=
  Nat.le_add_left ..

def blockIterSeekToLast (bi : BlockIter) : Run BlockIter :=
  blockIterSeekToLastWithin (bi.mostEntries+1) bi

def compareRestartPoint (bi : BlockIter) (i : ℕ) (target : Bytes) : Run ℤ := do
  let regionOffset ← getRestartPoint bi i
  match ← decodeAt bi regionOffset with
  | none => .error .assertion
  | some (p,shared,nonShared,_) =>
    check (shared = 0)
    let key ← readAt bi p (min nonShared target.length)
    return bytesCompareLen key nonShared target target.length

/-- Galloping from restart index `i` with stride `incr`; the bounds left for the binary search. -/
def gallop (bi : BlockIter) (target : Bytes) : ℕ → ℕ → ℕ → ℕ → ℕ → Run (ℕ × ℕ)
  | 0,_,_,_,_ => .error .fuel
  | fuel+1,left,right,i,incr => do
    let cmp ← compareRestartPoint bi i target
    if cmp < 0 then
      let left := i
      let i := (i+incr)%2^32
      if i > bi.numRestarts-1 then return (left,bi.numRestarts-1)
      else gallop bi target fuel left i i ((incr*2)%2^32)
    else return (left,right)

def binarySearch (bi : BlockIter) (target : Bytes) : ℕ → ℕ → ℕ → Run ℕ
  | 0,_,_ => .error .fuel
  | fuel+1,left,right =>
    if left < right then do
      let mid := ((left+right+1)%2^32)/2
      let cmp ← compareRestartPoint bi mid target
      if cmp < 0 then binarySearch bi target fuel mid right
      else binarySearch bi target fuel left ((mid+2^32-1)%2^32)
    else .ok left

/-- Linear search for the first key at or after the target. -/
def linearSearch (target : Bytes) : ℕ → BlockIter → Run BlockIter
  | 0,_ => .error .fuel
  | fuel+1,bi => do
    let (bi,more) ← parseNextKey bi
    if more = false then return bi
    else if bytesCompare bi.key target ≥ 0 then return bi
    else linearSearch target fuel bi

/-- Galloping starts at the current restart index, if that is neither the first nor past the
last. -/
def restartBounds (fuel : ℕ) (bi : BlockIter) (target : Bytes) : Run (ℕ × ℕ) :=
  if bi.numRestarts ≠ bi.restartIndex ∧ bi.restartIndex ≠ 0 then
    gallop bi target fuel 0 bi.restartIndex bi.restartIndex 1
  else .ok (0,bi.numRestarts-1)

/-- Binary search, if not already located. -/
def narrowRestart (fuel : ℕ) (bi : BlockIter) (target : Bytes) (left right : ℕ) : Run ℕ :=
  if left+1 < right then binarySearch bi target fuel left right else .ok left

/-- The iterator from which the linear search goes on, or `none` where the current entry is the
target. -/
def seekFrom (bi : BlockIter) (target : Bytes) (left : ℕ) : Run (Option BlockIter) := do
  let cmp := bytesCompare bi.key target
  if bi.restartIndex = left ∧ cmp = 0 then
    return none
  else if bi.restartIndex = left ∧ cmp < 0 then
    -- the target is after the current entry, in the same restart block
    return some bi
  else
    let bi ← seekToRestartPoint bi left
    return some bi

/-- The restart point from which `block_iter_seek` searches. -/
def seekRestart (fuel : ℕ) (bi : BlockIter) (target : Bytes) : Run ℕ := do
  let (left,right) ← restartBounds fuel bi target
  narrowRestart fuel bi target left right

def blockIterSeekWithin (restartFuel fuel : ℕ) (bi : BlockIter) (target : Bytes) :
    Run BlockIter := do
  let left ← seekRestart restartFuel bi target
  match ← seekFrom bi target left with
  | none => return bi
  | some bi => linearSearch target fuel bi

/-- The loops over restarts make no more rounds than there are restarts. -/
def blockIterSeek (bi : BlockIter) (target : Bytes) : Run BlockIter :=
  blockIterSeekWithin (bi.numRestarts+1) (bi.mostEntries+1) bi target

def blockIterNext (bi : BlockIter) : Run (BlockIter × Bool) := do
  if blockIterValid bi = false then
    return (bi,false)
  let (bi,_) ← parseNextKey bi
  return (bi,blockIterValid bi)

/-- The loop of `block_iter_prev` down to the restart point before the entry at `original`. -/
def prevRestart (original : ℕ) : ℕ → BlockIter → Run (Option BlockIter)
  | 0,_ => .error .fuel
  | fuel+1,bi => do
    let point ← getRestartPoint bi bi.restartIndex
    if original ≤ point then
      if bi.restartIndex = 0 then return none
      else prevRestart original fuel { bi with restartIndex := bi.restartIndex-1 }
    else return some bi

def blockIterPrev (bi : BlockIter) : Run BlockIter := do
  check (blockIterValid bi)
  let original := bi.current
  match ← prevRestart original (bi.restartIndex+1) bi with
  | none => return bi.invalidate
  | some bi =>
    let bi ← seekToRestartPoint bi bi.restartIndex
    parseWhileBelow original (bi.mostEntries+1) bi

/-- The entry at the cursor: the key buffer and the bytes the value pointer and length denote. -/
def blockIterGet (bi : BlockIter) : Option Entry :=
  if blockIterValid bi then some ⟨bi.key,(bi.data.drop bi.val).take bi.valLen⟩ else none

end Mtbl
