import Mtbl.Merge.Heap
import Mtbl.Merge.Iter

/-! The merger of `merger.c`. Its iterator keeps one entry read ahead from every source in a heap.
An entry is known by its place in the entry vector, as the C code knows it by its address. -/
namespace Mtbl
open CRun Cursor

/-- The merged value of two values of a key, or `none` where the function declines. -/
abbrev MergeFunc := Bytes → Bytes → Bytes → Option Bytes

abbrev DupsortFunc := Bytes → Bytes → Bytes → ℤ

structure MergerOptions where
  merge : Option MergeFunc
  dupsort : Option DupsortFunc

structure Merger (σ : Type) where
  sources : List (Source σ)
  opt : MergerOptions

/-- `struct entry`. The key and the value are what the source gave last, `none` before that. -/
structure MergerEntry (σ : Type) where
  finished : Bool
  it : Option σ
  ent : Option Entry

/-- The heap and the entry vector it points into. -/
structure EntryHeap (σ : Type) where
  h : List ℕ
  entries : List (MergerEntry σ)

structure MergerIter (σ : Type) extends EntryHeap σ where
  opt : MergerOptions
  curKey : Bytes
  curVal : Bytes
  finished : Bool
  pending : Bool

def entryCompare (opt : MergerOptions) (a b : Entry) : ℤ :=
  let res := bytesCompare a.key b.key
  match opt.dupsort with
  | none => res
  | some dupsort => if res = 0 then dupsort a.key a.val b.val else res

def mtblMergerCompare (opt : MergerOptions) : Option Entry → Option Entry → ℤ
  | none,none => 0
  | none,some _ => 1
  | some _,none => -1
  | some a,some b => entryCompare opt a b

variable {σ : Type} (I : Ops σ Entry Bytes) (opt : MergerOptions)

def entryAt (entries : List (MergerEntry σ)) (i : ℕ) : Option Entry :=
  entries[i]?.bind MergerEntry.ent

def heapCompare (entries : List (MergerEntry σ)) (a b : ℕ) : ℤ :=
  mtblMergerCompare opt (entryAt entries a) (entryAt entries b)

/-- A source that fails leaves the entry's key and value as they are. -/
def entryFill (ent : MergerEntry σ) : Run (Bool × MergerEntry σ) := do
  let (e,it) ← mtblIterNext I ent.it
  match e with
  | some e => return (true,⟨false,it,some e⟩)
  | none => return (false,⟨true,it,ent.ent⟩)

/-- `entry_fill` on the entry at `i`. -/
def entryFillAt (H : EntryHeap σ) (i : ℕ) : Run (Bool × EntryHeap σ) := do
  let ent ← ptrvecValue H.entries i
  let (res,ent) ← entryFill I ent
  return (res,{ H with entries := H.entries.set i ent })

/-- `mtbl_iter_seek` and, where it succeeds, `entry_fill` on the entry at `i`. -/
def entrySeekFill (H : EntryHeap σ) (i : ℕ) (key : Bytes) : Run (Bool × EntryHeap σ) := do
  let ent ← ptrvecValue H.entries i
  let (res,it) ← mtblIterSeek I ent.it key
  let H := { H with entries := H.entries.set i { ent with it := it } }
  if res then entryFillAt I H i else return (false,H)

def replaceTop (H : EntryHeap σ) (i : ℕ) : Run (EntryHeap σ) := do
  let (_,h) ← heapReplace (heapCompare opt H.entries) H.h i
  return { H with h := h }

def popTop (H : EntryHeap σ) : Run (EntryHeap σ) := do
  let (_,h) ← heapPop (heapCompare opt H.entries) H.h
  return { H with h := h }

/-- `entry_fill` on the top entry, and `heap_replace` where it gave one. -/
def refillTop (H : EntryHeap σ) (i : ℕ) : Run (EntryHeap σ) := do
  let (res,H) ← entryFillAt I H i
  if res then replaceTop opt H i else return H

/-- The inner loop of `merger_iter_next`: the entries that have run out leave the heap. -/
def dropFinished : ℕ → EntryHeap σ → Run (Option ℕ × EntryHeap σ)
  | 0,_ => .error .fuel
  | n+1,H =>
    match heapPeek H.h with
    | none => .ok (none,H)
    | some i => do
      let ent ← ptrvecValue H.entries i
      if ent.finished then
        let H ← popTop opt H
        dropFinished n H
      else return (some i,H)

/-- The key and the value of the entry at `i`. -/
def entryKeyVal (H : EntryHeap σ) (i : ℕ) : Run Entry :=
  match entryAt H.entries i with
  | none => .error .nullDeref
  | some e => .ok e

/-- The entry that the loop of `merger_iter_next` looks at, with its place, if there is one. -/
def liveTop (H : EntryHeap σ) : Run (Option (ℕ × Entry) × EntryHeap σ) := do
  let (i,H) ← dropFinished opt (H.h.length+1) H
  match i with
  | none => return (none,H)
  | some i =>
    let e ← entryKeyVal H i
    return (some (i,e),H)

/-- How the loop of `merger_iter_next` is left. -/
inductive LoopExit
  | brk
  | declined
  deriving DecidableEq, Repr

def mergerIterNextLoop : ℕ → MergerIter σ → Run (LoopExit × MergerIter σ)
  | 0,_ => .error .fuel
  | n+1,it => do
    let (top,H) ← liveTop it.opt it.toEntryHeap
    let it := { it with toEntryHeap := H }
    match top with
    | none => return (.brk,{ it with finished := true })
    | some (i,e) =>
      if it.curKey.length = 0 then
        let it := { it with curVal := e.val, curKey := e.key, pending := true }
        let H ← refillTop I it.opt it.toEntryHeap i
        mergerIterNextLoop n { it with toEntryHeap := H }
      else
        match it.opt.merge with
        | none => return (.brk,it)
        | some merge =>
          if bytesCompare it.curKey e.key = 0 then
            match merge it.curKey it.curVal e.val with
            | none => return (.declined,it)
            | some mergedVal =>
              let it := { it with curVal := mergedVal }
              let H ← refillTop I it.opt it.toEntryHeap i
              mergerIterNextLoop n { it with toEntryHeap := H }
          else return (.brk,it)

/-- The answer of `merger_iter_next`, the two ways to fail told apart. -/
inductive MergerAnswer
  | entry (e : Entry)
  | finished
  | declined
  deriving DecidableEq, Repr

def MergerAnswer.res : MergerAnswer → Option Entry
  | .entry e => some e
  | .finished => none
  | .declined => none

def mergerIterAnswer (fuel : ℕ) (it : MergerIter σ) : Run (MergerAnswer × MergerIter σ) :=
  if it.finished then .ok (.finished,it)
  else do
    let (how,it) ← mergerIterNextLoop I fuel { it with curKey := [], curVal := [] }
    match how with
    | .declined => return (.declined,it)
    | .brk =>
      if it.pending then return (.entry ⟨it.curKey,it.curVal⟩,{ it with pending := false })
      else return (.finished,it)

def mergerIterNext (fuel : ℕ) (it : MergerIter σ) : Run (Option Entry × MergerIter σ) := do
  let (answer,it) ← mergerIterAnswer I fuel it
  return (answer.res,it)

/-- Every entry from `i` on is sought to the key; those that find an entry are put in the heap. -/
def reseekEntries (key : Bytes) : ℕ → ℕ → EntryHeap σ → Run (EntryHeap σ)
  | 0,_,H => .ok H
  | n+1,i,H => do
    let (res,H) ← entrySeekFill I H i key
    let H := if res then { H with h := heapAdd H.h i } else H
    reseekEntries key n (i+1) H

/-- The backward branch of `merger_iter_seek`. -/
def seekAll (H : EntryHeap σ) (key : Bytes) : Run (EntryHeap σ) := do
  let H ← reseekEntries I key H.entries.length 0 { H with h := heapClip H.h 0 }
  let h ← heapHeapify (heapCompare opt H.entries) H.h
  return { H with h := h }

/-- The loop of the forward branch: entries behind the key are sought to it. Whether any was, and
whether an entry is left. -/
def seekForwardLoop (key : Bytes) : ℕ → Bool → EntryHeap σ → ℕ → Run (Bool × Bool × EntryHeap σ)
  | 0,_,_,_ => .error .fuel
  | n+1,changed,H,i => do
    let e ← entryKeyVal H i
    if bytesCompare key e.key > 0 then
      let (res,H) ← entrySeekFill I H i key
      let H ← if res then replaceTop opt H i else popTop opt H
      match heapPeek H.h with
      | none => return (true,false,H)
      | some i => seekForwardLoop key n true H i
    else return (changed,true,H)

/-- The forward branch of `merger_iter_seek`. -/
def seekForward (fuel : ℕ) (it : MergerIter σ) (i : ℕ) (key : Bytes) : Run (MergerIter σ) := do
  let (changed,more,H) ← seekForwardLoop I it.opt key fuel false it.toEntryHeap i
  let it := { it with toEntryHeap := H, finished := !more }
  return if changed then { it with curVal := [], curKey := key } else it

def mergerIterSeek (fuel : ℕ) (it : MergerIter σ) (key : Bytes) : Run (Bool × MergerIter σ) := do
  let it := { it with finished := false, pending := false }
  match heapPeek it.h with
  | none =>
    let H ← seekAll I it.opt it.toEntryHeap key
    return (true,{ it with toEntryHeap := H })
  | some i =>
    if it.curKey.length = 0 ∨ bytesCompare key it.curKey < 0 then
      let H ← seekAll I it.opt it.toEntryHeap key
      return (true,{ it with toEntryHeap := H })
    else
      let it ← seekForward I fuel it i key
      return (true,it)

def mergerIterOps (fuel : ℕ) : Ops (MergerIter σ) Entry Bytes where
  next := mergerIterNext I fuel
  seek := mergerIterSeek I fuel

def mergerIterInit (m : Merger σ) : MergerIter σ :=
  ⟨⟨[],[]⟩,m.opt,[],[],false,false⟩

/-- A source iterator that fails at once is left out. -/
def mergerIterAddEntry (it : MergerIter σ) (entIt : Option σ) : Run (MergerIter σ) := do
  let (res,ent) ← entryFill I ⟨false,entIt,none⟩
  if res then
    let entries := it.entries++[ent]
    let h ← heapPush (heapCompare it.opt entries) it.h it.entries.length
    return { it with h := h, entries := entries }
  else return it

def addIters (it : MergerIter σ) : List (Source σ) → Run (MergerIter σ)
  | [] => .ok it
  | s::sources => do
    let sIt ← s.iter
    let it ← mergerIterAddEntry I it sIt
    addIters it sources

def mergerIter (m : Merger σ) : Run (Option (MergerIter σ)) := do
  let it ← addIters I (mergerIterInit m) m.sources
  return some it

/-- The loop of the bounded queries, which leaves out NULL iterators. -/
def addQueries (query : Source σ → Run (Option σ)) (it : MergerIter σ) :
    List (Source σ) → Run (MergerIter σ)
  | [] => .ok it
  | s::sources => do
    let sIt ← query s
    match sIt with
    | none => addQueries query it sources
    | some sIt =>
      let it ← mergerIterAddEntry I it (some sIt)
      addQueries query it sources

def mergerQuery (m : Merger σ) (query : Source σ → Run (Option σ)) :
    Run (Option (MergerIter σ)) := do
  let it ← addQueries I query (mergerIterInit m) m.sources
  return if it.entries.length = 0 then none else some it

def mergerGet (m : Merger σ) (key : Bytes) : Run (Option (MergerIter σ)) :=
  mergerQuery I m (fun s => s.getRange key key)

def mergerGetRange (m : Merger σ) (key0 key1 : Bytes) : Run (Option (MergerIter σ)) :=
  mergerQuery I m (fun s => s.getRange key0 key1)

def mergerGetPrefix (m : Merger σ) (key : Bytes) : Run (Option (MergerIter σ)) :=
  mergerQuery I m (fun s => s.getPrefix key)

/-- `mtbl_merger_source`. -/
def mtblMergerSource (m : Merger σ) : Source (MergerIter σ) :=
  ⟨mergerIter I m,mergerGet I m,mergerGetPrefix I m,mergerGetRange I m⟩

end Mtbl
