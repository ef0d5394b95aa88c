import Mtbl.Merge.Copy

/-! The sorter of `sorter.c`. Entries are collected in memory and written out in sorted chunks, each a
temporary file of its own; the sorted content is the merger over these files.

The chunk file and its reader are parameters: `chunkSource es` is the source that
`mtbl_reader_init_fd` makes of the file to which the entries `es` were added. `qsort` is the C
library's. With a thread pool the chunks are written by its workers, here as late as can be: when
`mtbl_sorter_iter` collects their readers, in the order `collect` gives them. -/
namespace Mtbl
open CRun Cursor

structure SorterOptions where
  maxMemory : ℕ
  merge : Option MergeFunc
  pool : Bool

structure Sorter (σ : Type) where
  readers : List (Option (Source σ))
  vec : List Entry
  entryBytes : ℕ
  iterating : Bool
  opt : SorterOptions
  jobs : List (List Entry)

/-- What the sorter takes from the C library, the file system and the scheduler. -/
structure SorterEnv (σ : Type) where
  qsort : List Entry → List Entry
  chunkSource : List Entry → Source σ
  collect : List (List Entry) → List (List Entry)

variable {σ ω : Type}

def mtblSorterInit (opt : SorterOptions) : Sorter σ := ⟨[],[],0,false,opt,[]⟩

/-! ### Writing a chunk -/

/-- The entry a vector slot points to. A freed one is `none`. -/
def slotEntry (entries : List (Option Entry)) (i : ℕ) : Run Entry :=
  match entries[i]? with
  | none => .error .assertion
  | some none => .error .useAfterFree
  | some (some e) => .ok e

/-- The next entry, where there is one with the same key. -/
def nextSame (entries : List (Option Entry)) (ent : Entry) (next : ℕ) : Run (Option Entry) :=
  if next < entries.length then do
    let nextEnt ← slotEntry entries next
    return if bytesCompare ent.key nextEnt.key = 0 then some nextEnt else none
  else .ok none

/-- A value whose length is stored in 32 bits. -/
def narrowVal (v : Bytes) : Bytes := v.take (v.length%2^32)

/-- `i+1` for the 32-bit loop counter. -/
def nextIndex (i : ℕ) : ℕ := (i+1)%2^32

inductive ChunkEnd
  | done
  | refused
  | declined
  deriving DecidableEq, Repr

/-- The loop of `_mtbl_sorter_write_chunk`, with the entries added to the chunk's writer so far. -/
def writeChunkLoop (merge : Option MergeFunc) : ℕ → ℕ → List (Option Entry) → List Entry →
    Run (ChunkEnd × List Entry)
  | 0,_,_,_ => .error .fuel
  | n+1,i,entries,written =>
    if i < entries.length then do
      let ent ← slotEntry entries i
      let same ← nextSame entries ent (nextIndex i)
      match same with
      | some nextEnt =>
        match merge with
        | none => .error .assertion
        | some f =>
          match f ent.key ent.val nextEnt.val with
          | none => return (.declined,written)
          | some mergeVal =>
            let mergeEnt : Entry := ⟨ent.key,narrowVal mergeVal⟩
            writeChunkLoop merge n (nextIndex i)
              ((entries.set i none).set (nextIndex i) (some mergeEnt)) written
      | none =>
        if accepts (written.getLast?.map Entry.key) ent.key then
          writeChunkLoop merge n (nextIndex i) (entries.set i none) (written++[ent])
        else return (.refused,written)
    else .ok (.done,written)

/-- `_mtbl_sorter_write_chunk`: the reader on the chunk file, or NULL. -/
def writeChunk (env : SorterEnv σ) (merge : Option MergeFunc) (batch : List Entry) :
    Run (Option (Source σ)) := do
  let entries := (env.qsort batch).map some
  let (how,written) ← writeChunkLoop merge (entries.length+1) 0 entries []
  return if how = .done then some (env.chunkSource written) else none

/-! ### The sorter -/

def mtblSorterFlush (env : SorterEnv σ) (s : Sorter σ) : Run (Bool × Sorter σ) := do
  check (s.iterating = false)
  let batch := s.vec
  let s := { s with vec := [], entryBytes := 0 }
  if s.opt.pool then
    return (true,{ s with jobs := s.jobs++[batch] })
  else do
    let r ← writeChunk env s.opt.merge batch
    return (r.isSome,{ s with readers := s.readers++[r] })

def mtblSorterAdd (env : SorterEnv σ) (s : Sorter σ) (e : Entry) : Run (Bool × Sorter σ) := do
  if s.iterating then
    return (false,s)
  check (e.key.length ≤ 2^32-1)
  check (e.val.length ≤ 2^32-1)
  let s := { s with vec := s.vec++[e], entryBytes := s.entryBytes+(8+e.key.length+e.val.length) }
  if s.entryBytes+8*s.vec.length ≥ s.opt.maxMemory then mtblSorterFlush env s
  else return (true,s)

/-- `mtbl_reader_source` of every reader, which asserts that it is not NULL. -/
def readerSources : List (Option (Source σ)) → Run (List (Source σ))
  | [] => .ok []
  | none::_ => .error .assertion
  | some r::readers => do
    let sources ← readerSources readers
    return r::sources

/-- The chunks of the dispatched jobs. -/
def runJobs (env : SorterEnv σ) (merge : Option MergeFunc) : List (List Entry) →
    Run (List (Option (Source σ)))
  | [] => .ok []
  | batch::jobs => do
    let r ← writeChunk env merge batch
    let readers ← runJobs env merge jobs
    return r::readers

/-- `result_handler_destroy`: all jobs are done and their readers collected. -/
def collectReaders (env : SorterEnv σ) (s : Sorter σ) : Run (Sorter σ) := do
  let readers ← runJobs env s.opt.merge (env.collect s.jobs)
  return { s with readers := s.readers++readers, jobs := [] }

def sorterMerger (s : Sorter σ) (sources : List (Source σ)) : Merger σ :=
  ⟨sources,s.opt.merge,none⟩

/-- The flush in `mtbl_sorter_iter`. -/
def flushRest (env : SorterEnv σ) (s : Sorter σ) : Run (Bool × Sorter σ) :=
  if 0 < s.vec.length then mtblSorterFlush env s else .ok (true,s)

def mtblSorterIter (I : Ops σ Entry Bytes) (env : SorterEnv σ) (s : Sorter σ) :
    Run (Option (MergerIter σ) × Sorter σ) := do
  let (res,s) ← flushRest env s
  if res = false then
    return (none,s)
  let s ← collectReaders env s
  let sources ← readerSources s.readers
  let it ← mergerIter I (sorterMerger s sources)
  return (it,{ s with iterating := true })

def mtblSorterWrite (I : Ops σ Entry Bytes) (env : SorterEnv σ)
    (add : ω → Entry → Run (Bool × ω)) (fuel : ℕ) (s : Sorter σ) (w : ω) : Run (Bool × ω) := do
  if s.iterating then
    return (false,w)
  let (it,_) ← mtblSorterIter I env s
  match it with
  | none => return (false,w)
  | some it => copyLoop (mergerIterNext I fuel) add fuel it w

/-- A sequence of adds, with the result of each. -/
def sorterAdds (env : SorterEnv σ) (s : Sorter σ) : List Entry → Run (List Bool × Sorter σ)
  | [] => .ok ([],s)
  | e::es => do
    let (res,s) ← mtblSorterAdd env s e
    let (results,s) ← sorterAdds env s es
    return (res::results,s)

end Mtbl
