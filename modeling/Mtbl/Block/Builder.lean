import Mtbl.Bytes.Separator
import Mtbl.Codec.Varint
import Mtbl.Codec.Fixed

/-! The block builder: prefix-compressed entries, a restart array and its length. -/
namespace Mtbl
open CRun

def uint32Max : ℕ := 2^32-1

structure BlockBuilder where
  blockRestartInterval : ℕ
  buf : Bytes
  lastKey : Bytes
  restarts : List ℕ
  finished : Bool
  counter : ℕ
  deriving DecidableEq, Repr

def blockBuilderInit (blockRestartInterval : ℕ) : BlockBuilder :=
  ⟨blockRestartInterval,[],[],[0],false,0⟩

def blockBuilderReset (b : BlockBuilder) : BlockBuilder :=
  { b with buf := [], lastKey := [], restarts := [0], counter := 0, finished := false }

def blockBuilderEmpty (b : BlockBuilder) : Bool := b.buf.length == 0

/-- `uint64_vec_bytes` counts eight bytes a restart; half of that suffices for 32-bit restarts. -/
def blockBuilderCurrentSizeEstimate (b : BlockBuilder) : ℕ :=
  if b.buf.length > uint32Max then b.buf.length+b.restarts.length*8+4
  else b.buf.length+b.restarts.length*8/2+4

def encodeRestarts (restart64 : Bool) (restarts : List ℕ) : Bytes :=
  restarts.flatMap (fun r => if restart64 then mtblFixedEncode64 r else mtblFixedEncode32 r)

/-- The finished block, and the builder whose buffer was detached. -/
def blockBuilderFinish (b : BlockBuilder) : BlockBuilder × Bytes :=
  let restart64 := decide (b.buf.length > uint32Max)
  ({ b with buf := [], finished := true },
    b.buf++encodeRestarts restart64 b.restarts++mtblFixedEncode32 b.restarts.length)

/-- `[shared][non-shared][value length]`, the key suffix and the value. -/
def encodeEntry (shared : ℕ) (e : Entry) : Bytes :=
  mtblVarintEncode32 shared++mtblVarintEncode32 (e.key.length-shared)++
    mtblVarintEncode32 e.val.length++e.key.drop shared++e.val

def blockBuilderAdd (b : BlockBuilder) (key val : Bytes) : Run BlockBuilder := do
  check (b.counter ≤ b.blockRestartInterval)
  check (b.finished = false)
  if b.counter < b.blockRestartInterval then
    let shared := diffIndex b.lastKey key
    return { b with buf := b.buf++encodeEntry shared ⟨key,val⟩, lastKey := key,
                    counter := b.counter+1 }
  else
    -- restart compression
    return { b with buf := b.buf++encodeEntry 0 ⟨key,val⟩, lastKey := key,
                    restarts := b.restarts++[b.buf.length], counter := 1 }

end Mtbl
