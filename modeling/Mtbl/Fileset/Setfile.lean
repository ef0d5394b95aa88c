import Mtbl.Bytes.Compare

/-! The setfile and its entries. Each reload reads the lines anew, takes over the readers of names it
already has, loads the others and unloads what is left of the old entries. Readers are numbered in
the order they are created. -/
namespace Mtbl

/-- What the file system shows at one time: the setfile's inode and modification time, its lines
with their newlines, which paths exist, and which of them `mtbl_reader_init` opens. -/
structure Disk where
  setfileStat : Option (ℕ × ℤ)
  setfileLines : Option (List Bytes)
  pathExists : Bytes → Bool
  readable : Bytes → Bool

structure FilesetEntry where
  keep : Bool
  fname : Bytes
  ptr : Option ℕ
  deriving DecidableEq, Repr

structure MyFileset where
  lastIno : ℕ
  lastMtime : ℤ
  setdir : Bytes
  entries : List FilesetEntry
  deriving DecidableEq, Repr

/-- What `fs_load` and `fs_unload` change: their counters, the number of readers created so far and
the readers destroyed so far. -/
structure Loads where
  nLoaded : ℕ
  nUnloaded : ℕ
  created : ℕ
  unloaded : List ℕ
  deriving DecidableEq, Repr

/-- The C library's `qsort` and `bsearch` under `cmp_fileset_entry`, which compares names as
`strcmp` does. The sort need not be stable, and of several equal names any may be found. -/
structure StdLib where
  qsort : List FilesetEntry → List FilesetEntry
  qsort_perm : ∀ es, (qsort es).Perm es
  qsort_sorted : ∀ es, (qsort es).Pairwise (fun a b => a.fname ≤ b.fname)
  bsearch : List Bytes → Bytes → Option ℕ
  bsearch_some : ∀ names key i, names.Pairwise (· ≤ ·) → bsearch names key = some i →
    names[i]? = some key
  bsearch_none : ∀ names key, names.Pairwise (· ≤ ·) → bsearch names key = none → key ∉ names

def myFilesetInit (setdir : Bytes) : MyFileset := ⟨0,0,setdir,[]⟩

def setfileUpdated (disk : Disk) (fs : MyFileset) : MyFileset × Bool :=
  match disk.setfileStat with
  | none => (fs,false)
  | some (ino,mtime) =>
    if fs.lastIno ≠ ino ∨ fs.lastMtime ≠ mtime then
      ({ fs with lastIno := ino, lastMtime := mtime },true)
    else (fs,false)

def fetchEntry (lib : StdLib) (entries : List FilesetEntry) (fname : Bytes) : Option ℕ :=
  lib.bsearch (entries.map FilesetEntry.fname) fname

def fsLoad (disk : Disk) (fname : Bytes) (s : Loads) : Loads × Option ℕ :=
  let s := { s with nLoaded := s.nLoaded+1 }
  if disk.readable fname then ({ s with created := s.created+1 },some s.created) else (s,none)

/-- Destroying NULL does nothing. -/
def fsUnload (s : Loads) (ptr : Option ℕ) : Loads :=
  { s with nUnloaded := s.nUnloaded+1, unloaded := s.unloaded++ptr.toList }

/-- The path of a line: behind the setfile's directory unless it is absolute, up to the first zero
byte, without one newline at the end. -/
def resolve (setdir line : Bytes) : Bytes :=
  let cstr := line.takeWhile (· ≠ 0)
  let u := if line.head? ≠ some 47 then setdir++47::cstr else cstr
  if u.getLast? = some 10 then u.dropLast else u

/-- The variables of the loop over the lines. -/
structure ReloadState where
  entries : List FilesetEntry
  newEntries : List FilesetEntry
  loads : Loads
  deriving DecidableEq, Repr

/-- A path that exists becomes a new entry: with the reader of the old entry found under its name,
which is marked to be kept, or with a reader of its own. -/
def addPath (lib : StdLib) (disk : Disk) (s : ReloadState) (fname : Bytes) : ReloadState :=
  match (fetchEntry lib s.entries fname).bind (fun i => (s.entries[i]?).map (i,·)) with
  | none =>
    let (loads,ptr) := fsLoad disk fname s.loads
    { s with newEntries := s.newEntries++[⟨false,fname,ptr⟩], loads := loads }
  | some (i,ent) =>
    { s with entries := s.entries.set i { ent with keep := true },
             newEntries := s.newEntries++[⟨false,fname,ent.ptr⟩] }

/-- The paths that the loop goes through, in the order of the lines. -/
def listedPaths (disk : Disk) (setdir : Bytes) (lines : List Bytes) : List Bytes :=
  (lines.map (resolve setdir)).filter disk.pathExists

def unloadOld (s : Loads) (ent : FilesetEntry) : Loads :=
  if ent.keep then s else fsUnload s ent.ptr

def myFilesetReload (lib : StdLib) (disk : Disk) (fs : MyFileset) (loads : Loads) :
    MyFileset × Loads :=
  match setfileUpdated disk fs with
  | (fs,false) => (fs,loads)
  | (fs,true) =>
    match disk.setfileLines with
    | none => (fs,loads)
    | some lines =>
      let s := (listedPaths disk fs.setdir lines).foldl (addPath lib disk) ⟨fs.entries,[],loads⟩
      ({ fs with entries := lib.qsort s.newEntries },s.entries.foldl unloadOld s.loads)

/-- Every entry is unloaded, whatever its mark. -/
def myFilesetDestroy (fs : MyFileset) (loads : Loads) : Loads :=
  fs.entries.foldl (fun s ent => fsUnload s ent.ptr) loads

/-! ### Readers in entries -/

/-- The readers that entries hold, one for each entry that is not NULL. -/
def held (es : List FilesetEntry) : List ℕ := es.filterMap FilesetEntry.ptr

def unkept (es : List FilesetEntry) : List FilesetEntry := es.filter (fun ent => !ent.keep)

@[simp] theorem held_append (es fs : List FilesetEntry) : held (es++fs) = held es++held fs :=
  List.filterMap_append

@[simp] theorem held_singleton (ent : FilesetEntry) : held [ent] = ent.ptr.toList := by
  cases h : ent.ptr <;> simp [held,h]

theorem foldl_fsUnload (es : List FilesetEntry) (s : Loads) :
    (es.foldl (fun s ent => fsUnload s ent.ptr) s).unloaded = s.unloaded++held es := by
  induction es generalizing s with
  | nil => simp [held]
  | cons ent es ih =>
    rw [List.foldl_cons,ih,fsUnload,← List.singleton_append,held_append,held_singleton,
      List.append_assoc]

theorem foldl_unloadOld (es : List FilesetEntry) (s : Loads) :
    es.foldl unloadOld s = (unkept es).foldl (fun s ent => fsUnload s ent.ptr) s := by
  induction es generalizing s with
  | nil => rfl
  | cons ent es ih =>
    rw [List.foldl_cons,ih]
    simp only [unkept,List.filter_cons,unloadOld]
    cases ent.keep <;> rfl

/-- Marking an entry takes its reader out of those to be unloaded, unless it was marked before. -/
theorem unkept_set {es : List FilesetEntry} {i : ℕ} {ent : FilesetEntry} (h : es[i]? = some ent)
    (r : ℕ) : (held (unkept es)).count r =
      (held (unkept (es.set i { ent with keep := true }))).count r+
        if ent.keep then 0 else ent.ptr.toList.count r := by
  obtain ⟨hi,rfl⟩ := List.getElem?_eq_some_iff.mp h
  have hsplit : es = es.take i++es[i]::es.drop (i+1) := by
    rw [List.getElem_cons_drop,List.take_append_drop]
  have hset : es.set i { es[i] with keep := true } =
      es.take i++{ es[i] with keep := true }::es.drop (i+1) := List.set_eq_take_append_cons_drop ..
        |>.trans (if_pos hi)
  rw [hset]
  conv_lhs => rw [hsplit]
  simp only [unkept,List.filter_append,List.filter_cons,held_append,List.count_append]
  cases hkeep : es[i].keep
  · simp only [Bool.not_false,if_true,Bool.not_true,Bool.false_eq_true,if_false]
    rw [← List.singleton_append,held_append,held_singleton,List.count_append]
    omega
  · simp

end Mtbl
