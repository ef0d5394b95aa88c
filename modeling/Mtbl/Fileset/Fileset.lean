import Mtbl.Fileset.Setfile
import Mtbl.Lib.CRun

/-! File sets: each has a merger of its own over readers that it shares with its duplicates. Whether
a merger is up to date is decided by comparing two time stamps; whether the readers may change, by
the number of open iterators. Mergers and iterators are numbered as readers are; what an iterator
returns is the merger's business and left out here. -/
namespace Mtbl
open CRun

structure Timespec where
  sec : ℤ
  nsec : ℤ
  deriving DecidableEq, Repr

def Timespec.zero : Timespec := ⟨0,0⟩

def reloadIntervalNever : ℕ := 2^32-1

structure FilesetOptions where
  reloadInterval : ℕ
  fnameFilter : Option (Bytes → Bool)
  readerFilter : Option (ℕ → Bool)

/-- A merger: its number and the readers behind its sources. -/
structure FilesetMerger where
  id : ℕ
  sources : List ℕ
  deriving DecidableEq, Repr

structure SharedFileset where
  loads : Loads
  nFs : ℕ
  nIters : ℕ
  reloadNeeded : Bool
  fsLast : Timespec
  myFs : MyFileset
  deriving DecidableEq, Repr

structure Fileset where
  reloadInterval : ℕ
  fsLast : Timespec
  merger : FilesetMerger
  fnameFilter : Option (Bytes → Bool)
  readerFilter : Option (ℕ → Bool)

/-- An open iterator: its file set, and the merger it was made from with its readers. -/
structure FilesetIter where
  fs : ℕ
  merger : FilesetMerger
  deriving DecidableEq, Repr

/-- The process and its surroundings: the disk and the clock; the shared part, the file sets and the
iterators by number, closed ones as `none`; the mergers created and destroyed, and the times of the
reloads. -/
structure World where
  disk : Disk
  clock : Timespec
  shared : SharedFileset
  filesets : List Fileset
  iters : List (Option FilesetIter)
  mergersCreated : ℕ
  mergersDestroyed : List ℕ
  reloads : List Timespec

/-- Whether the filters let an entry's reader through. -/
def Fileset.passes (f : Fileset) (fname : Bytes) (reader : ℕ) : Bool :=
  (match f.fnameFilter with
    | none => true
    | some p => p fname) &&
  (match f.readerFilter with
    | none => true
    | some p => p reader)

/-- The readers of the entries that are not NULL and pass the filters. -/
def Fileset.sources (f : Fileset) (entries : List FilesetEntry) : List ℕ :=
  entries.filterMap (fun ent => ent.ptr.filter (f.passes ent.fname))

def Fileset.ofOptions (opt : FilesetOptions) (merger : FilesetMerger) : Fileset where
  reloadInterval := opt.reloadInterval
  fsLast := .zero
  merger := merger
  fnameFilter := opt.fnameFilter
  readerFilter := opt.readerFilter

/-- `mtbl_fileset_init`. -/
def World.init (disk : Disk) (clock : Timespec) (setdir : Bytes) (opt : FilesetOptions) :
    World where
  disk := disk
  clock := clock
  shared := ⟨⟨0,0,0,[]⟩,1,0,true,.zero,myFilesetInit setdir⟩
  filesets := [.ofOptions opt ⟨0,[]⟩]
  iters := []
  mergersCreated := 1
  mergersDestroyed := []
  reloads := []

/-- `mtbl_fileset_dup`; the duplicate has a new merger without sources. -/
def mtblFilesetDup (w : World) (opt : FilesetOptions) : World :=
  { w with shared := { w.shared with nFs := w.shared.nFs+1 }
           filesets := w.filesets++[.ofOptions opt ⟨w.mergersCreated,[]⟩]
           mergersCreated := w.mergersCreated+1 }

/-- The old merger is destroyed, a new one gets the sources of the day. -/
def fsReinitMerger (w : World) (i : ℕ) (f : Fileset) : World :=
  { w with filesets := w.filesets.set i
             { f with merger := ⟨w.mergersCreated,f.sources w.shared.myFs.entries⟩ }
           mergersCreated := w.mergersCreated+1
           mergersDestroyed := w.mergersDestroyed++[f.merger.id] }

def fsReinitMergerAt (w : World) (i : ℕ) : World :=
  match w.filesets[i]? with
  | none => w
  | some f => fsReinitMerger w i f

def setFsLast (w : World) (i : ℕ) (t : Timespec) : World :=
  match w.filesets[i]? with
  | none => w
  | some f => { w with filesets := w.filesets.set i { f with fsLast := t } }

/-- The shared part as `my_fileset_reload` leaves it, the counters reset before. -/
def reloadShared (lib : StdLib) (disk : Disk) (s : SharedFileset) : SharedFileset :=
  let p := myFilesetReload lib disk s.myFs { s.loads with nLoaded := 0, nUnloaded := 0 }
  { s with myFs := p.1, loads := p.2 }

def changed (s : SharedFileset) : Bool := decide (s.loads.nLoaded > 0 ∨ s.loads.nUnloaded > 0)

/-- The end of both reload functions, once they have read the clock. -/
def reloadAndStamp (lib : StdLib) (w : World) (i : ℕ) : World :=
  let w1 := { w with shared := reloadShared lib w.disk w.shared }
  let w2 := if changed w1.shared then fsReinitMergerAt w1 i else w1
  let w3 := { w2 with shared := { w2.shared with fsLast := w.clock, reloadNeeded := false }
                      reloads := w.reloads++[w.clock] }
  setFsLast w3 i w.clock

/-- A merger from an out of date file set is reinitialized. -/
def refresh (w : World) (i : ℕ) (f : Fileset) : World :=
  if f.fsLast ≠ w.shared.fsLast then setFsLast (fsReinitMerger w i f) i w.shared.fsLast else w

def mtblFilesetReload (lib : StdLib) (w : World) (i : ℕ) : World :=
  match w.filesets[i]? with
  | none => w
  | some f =>
    let w := refresh w i f
    if w.shared.reloadNeeded = false ∧ f.reloadInterval = reloadIntervalNever then w
    else if w.shared.nIters > 0 then w
    else if w.shared.reloadNeeded ∨ w.clock.sec-w.shared.fsLast.sec > f.reloadInterval then
      reloadAndStamp lib w i
    else w

def mtblFilesetReloadNow (lib : StdLib) (w : World) (i : ℕ) : World :=
  if w.shared.nIters > 0 then { w with shared := { w.shared with reloadNeeded := true } }
  else reloadAndStamp lib w i

/-- The four functions of the source differ only in the query they pass to the merger. -/
def filesetSourceQuery (lib : StdLib) (w : World) (i : ℕ) : World :=
  let w := mtblFilesetReload lib w i
  match w.filesets[i]? with
  | none => w
  | some f => { w with shared := { w.shared with nIters := w.shared.nIters+1 }
                       iters := w.iters++[some ⟨i,f.merger⟩] }

/-- The merger and its readers are still there. -/
def World.alive (w : World) (it : FilesetIter) : Bool :=
  decide (it.merger.id ∉ w.mergersDestroyed ∧ ∀ r ∈ it.merger.sources, r ∉ w.shared.loads.unloaded)

/-- Seeking and stepping read the merger and its readers. -/
def filesetIterAccess (w : World) (it : FilesetIter) : Run World :=
  if w.alive it then .ok w else .error .useAfterFree

def filesetIterFree (lib : StdLib) (w : World) (j : ℕ) (it : FilesetIter) : World :=
  mtblFilesetReload lib { w with
    shared := { w.shared with nIters := w.shared.nIters-1 }
    iters := w.iters.set j none } it.fs

/-- What the program or its surroundings do. -/
inductive FilesetOp
  | query (i : ℕ)
  | access (j : ℕ)
  | destroyIter (j : ℕ)
  | reload (i : ℕ)
  | reloadNow (i : ℕ)
  | dup (opt : FilesetOptions)
  | tick (clock : Timespec)
  | change (disk : Disk)

/-- Closed and unknown handles are not used. -/
def filesetStep (lib : StdLib) (w : World) : FilesetOp → Option (Run World)
  | .query i => if i < w.filesets.length then some (.ok (filesetSourceQuery lib w i)) else none
  | .access j => (w.iters[j]?).join.map (filesetIterAccess w)
  | .destroyIter j => (w.iters[j]?).join.map (fun it => .ok (filesetIterFree lib w j it))
  | .reload i => if i < w.filesets.length then some (.ok (mtblFilesetReload lib w i)) else none
  | .reloadNow i => if i < w.filesets.length then some (.ok (mtblFilesetReloadNow lib w i)) else none
  | .dup opt => some (.ok (mtblFilesetDup w opt))
  | .tick clock => some (.ok { w with clock := clock })
  | .change disk => some (.ok { w with disk := disk })

/-- From the first world to the second by these steps, none of which faults. -/
inductive FilesetRun (lib : StdLib) : World → List FilesetOp → World → Prop
  | nil (w : World) : FilesetRun lib w [] w
  | cons {w w1 w2 : World} {op : FilesetOp} {ops : List FilesetOp}
      (step : filesetStep lib w op = some (.ok w1)) (run : FilesetRun lib w1 ops w2) :
      FilesetRun lib w (op::ops) w2

/-- What holds of every step of the run. -/
def Along (lib : StdLib) (P : World → FilesetOp → World → Prop) : World → List FilesetOp → Prop
  | _,[] => True
  | w,op::ops => ∀ w', filesetStep lib w op = some (.ok w') → P w op w' ∧ Along lib P w' ops

instance {α : Type*} {x : Option (Run α)} {P : α → Prop} [∀ a, Decidable (P a)] :
    Decidable (∀ a, x = some (.ok a) → P a) :=
  match x with
  | none => isTrue (fun _ h => by cases h)
  | some (.error _) => isTrue (fun _ h => by cases h)
  | some (.ok a) => decidable_of_iff (P a)
      ⟨fun h b hb => Except.ok.inj (Option.some.inj hb) ▸ h,fun h => h a rfl⟩

instance decidableAlong (lib : StdLib) (P : World → FilesetOp → World → Prop)
    [∀ w op w', Decidable (P w op w')] : ∀ (ops : List FilesetOp) (w : World),
    Decidable (Along lib P w ops)
  | [],_ => isTrue trivial
  | op::ops,w =>
    have := decidableAlong lib P ops
    inferInstanceAs (Decidable (∀ w', filesetStep lib w op = some (.ok w') →
      P w op w' ∧ Along lib P w' ops))

end Mtbl
